/-
Owners and modes.

Creations, chmod and chown say who owns an inode and what its mode is, and no other call
does.  A step writes back nodes that were read earlier in the same call, so the frame of a
call also covers what was read so far.  An inode that the call frees is outside the frame
from then on.
-/
import BloomFS.Spec.Count

namespace BloomFS
namespace Spec

open Bytes Exec Dir Fs Store

/-- Who owns an inode, and what its mode is. -/
structure Perms where
  mode : UInt16
  uid : UInt32
  gid : UInt32
  deriving DecidableEq

def Node.perms (n : Node) : Perms := ⟨n.mode, n.uid, n.gid⟩

abbrev Owners := Nat → Perms

/-- The owners and modes after a call. -/
def Owners.after (o : Owners) (op : Op) (out : Outcome) : Owners :=
  match op, out with
  | .mkdir _ _, .ok (.id id) => Function.update o id ⟨0o755, 0, 0⟩
  | .create _ _, .ok (.id id) => Function.update o id ⟨0o644, 0, 0⟩
  | .symlink _ _ _, .ok (.id id) => Function.update o id ⟨0o777, 0, 0⟩
  | .chmod id mode, .ok _ => Function.update o id { o id with mode := mode }
  | .chown id uid gid, .ok _ => Function.update o id { o id with uid := uid, gid := gid }
  | _, _ => o

/-- The inodes in use have the owners and modes of `o`. -/
def Owners.Hold (o : Owners) (t : State) : Prop := ∀ id, t.view.Used id → (t.node id).perms = o id

/-! ## Frames -/

/-- The inodes have the permissions that they have in `t₀`, and so had those of `l` when
they were read, except where the slot is free. -/
structure Framed (t₀ : State) (l : List (Nat × Perms)) (t : State) : Prop where
  next : t.next = t₀.next
  free : t₀.free ⊆ t.free
  node : ∀ id, (t.node id).perms = (t₀.node id).perms ∨ id ∈ t.free
  read : ∀ x ∈ l, x.2 = (t₀.node x.1).perms ∨ x.1 ∈ t.free

abbrev Frames {α : Type} (t₀ : State) (l : List (Nat × Perms)) (x : Step α) : Prop :=
  Keeps (Framed t₀ l) x.1

variable {env : Env} {t₀ t t' : State} {l : List (Nat × Perms)} {handles : List Handle}
    {id : Nat} {o : Owners}

theorem framed_self (t : State) : Framed t [] t :=
  ⟨rfl, List.Subset.refl _, fun _ => .inl rfl, fun _ h => absurd h List.not_mem_nil⟩

theorem Framed.mono (h : Framed t₀ l t) (hnode : t'.node = t.node) (hnext : t'.next = t.next)
    (hfree : t.free ⊆ t'.free) : Framed t₀ l t' where
  next := hnext.trans h.next
  free := List.Subset.trans h.free hfree
  node i := (congrFun hnode i).symm ▸ (h.node i).imp_right fun hi => hfree hi
  read x hx := (h.read x hx).imp_right fun hi => hfree hi

/-- What is read now is in the frame. -/
theorem Framed.reading (h : Framed t₀ l t) (id : Nat) :
    Framed t₀ ((id, (t.node id).perms) :: l) t :=
  ⟨h.next, h.free, h.node, List.forall_mem_cons.mpr ⟨h.node id, h.read⟩⟩

theorem Framed.forget {x : Nat × Perms} (h : Framed t₀ (x :: l) t) : Framed t₀ l t :=
  ⟨h.next, h.free, h.node, fun y hy => h.read y (List.mem_cons_of_mem _ hy)⟩

theorem Framed.hold (h : Framed t [] t') (hk : o.Hold t) : o.Hold t' := by
  rintro id ⟨hlt, hfree⟩
  have hused : t.view.Used id := ⟨Nat.lt_of_lt_of_eq hlt h.next, fun hf => hfree (h.free hf)⟩
  rw [(h.node id).resolve_right hfree]
  exact hk id hused

section Rules

variable {α β : Type} {x y : Step α}

theorem frames_bind {f : α → Step β} (hx : Frames t₀ l x) (hf : ∀ a, Frames t₀ l (f a)) :
    Frames t₀ l (x >>= f) :=
  keeps_bind hx hf

theorem frames_ite {c : Prop} [Decidable c] (hx : Frames t₀ l x) (hy : Frames t₀ l y) :
    Frames t₀ l (if c then x else y) := by
  split
  · exact hx
  · exact hy

theorem frames_get_bind {f : State → Step β} (hf : ∀ t, Frames t₀ l (f t)) :
    Frames t₀ l (Within.get >>= f) :=
  keeps_bind keeps_get hf

theorem frames_mapM {ι : Type} {f : ι → Step α} (hf : ∀ i, Frames t₀ l (f i)) (m : List ι) :
    Frames t₀ l (m.mapM f) := by
  induction m with
  | nil => exact keeps_pure []
  | cons i m ih =>
    rw [List.mapM_cons]
    exact frames_bind (hf i) fun _ => frames_bind ih fun _ => keeps_pure _

theorem frames_reading {f : State → Step β}
    (hf : ∀ t, Frames t₀ ((id, (t.node id).perms) :: l) (f t)) :
    Frames t₀ l (Within.get >>= f) := fun t h =>
  (hf t t (h.reading id)).mono (fun _ _ h => h.forget) (fun _ _ h => h.forget)

theorem frames_getNode_bind {f : Node → Step β} (hf : ∀ n, Frames t₀ ((id, n.perms) :: l) (f n)) :
    Frames t₀ l (getNode id >>= f) := by
  intro t h
  refine sat_bind (getNode_sat id) ?_ ?_
  · rintro n t ⟨rfl, -, rfl⟩
    exact (hf _ t (h.reading id)).mono (fun _ _ h => h.forget) (fun _ _ h => h.forget)
  · rintro _ t ⟨rfl, -⟩
    exact h

theorem frames_checkout_bind {f : Work → Step β}
    (hf : ∀ n, Frames t₀ ((id, n.perms) :: l) (f ⟨n, n.pages, []⟩)) :
    Frames t₀ l (checkout id >>= f) := by
  intro t h
  refine sat_bind (checkout_sat id) ?_ ?_
  · rintro w t ⟨rfl, -, -, rfl⟩
    exact (hf _ t (h.reading id)).mono (fun _ _ h => h.forget) (fun _ _ h => h.forget)
  · rintro _ t rfl
    exact h

end Rules

theorem frames_update {f : State → State}
    {hf : ∀ t, (f t).log = t.log} (hnode : ∀ t, (f t).node = t.node)
    (hnext : ∀ t, (f t).next = t.next) (hfree : ∀ t, (f t).free = t.free) :
        Frames t₀ l (update f hf) :=
  keeps_modify fun t h => h.mono (hnode t) (hnext t) (hfree t ▸ List.Subset.refl _)

theorem frames_pay (p : Payment) : Frames t₀ l (pay p) :=
  keeps_modify fun _ h => h.mono rfl rfl (List.Subset.refl _)

theorem frames_now : Frames t₀ l (now env) :=
  frames_get_bind fun _ =>
    frames_bind (frames_update (fun _ => rfl) (fun _ => rfl) (fun _ => rfl)) fun _ => keeps_pure _

theorem frames_succ32 (n : UInt32) : Frames t₀ l (succ32 n) := by
  unfold succ32
  split
  · exact keeps_pure _
  · exact keeps_panic

theorem frames_putNode {n : Node} (hn : (id, n.perms) ∈ l) : Frames t₀ l (putNode id n) := by
  refine frames_get_bind fun _ => frames_ite (keeps_fail _) (keeps_modify fun t h => ?_)
  refine ⟨h.next, h.free, fun i => ?_, h.read⟩
  by_cases hi : i = id
  · subst hi
    rw [node_setNode_self]
    exact h.read _ hn
  · rw [node_setNode_ne hi]
    exact h.node i

theorem Framed.clear (h : Framed t₀ l t) (n : Node) :
    Framed t₀ l { t.setNode id n with free := id :: t.free } where
  next := h.next
  free := List.Subset.trans h.free (List.subset_cons_self _ _)
  node i := by
    by_cases hi : i = id
    · subst hi
      exact .inr List.mem_cons_self
    · rw [show ({ t.setNode id n with free := id :: t.free } : State).node i =
        t.node i from node_setNode_ne hi]
      exact (h.node i).imp_right (List.mem_cons_of_mem _)
  read x hx := (h.read x hx).imp_right (List.mem_cons_of_mem _)

theorem frames_reclaim (n : Node) : Frames t₀ l (reclaim id n) := by
  intro t h
  refine sat_bind (frames_succ32 _ t h) (fun g t h => ?_) fun _ _ h => h
  have hput : Sat (putNode id { generation := g }).1 t
    (fun _ t' => t' = t.setNode id { generation := g })
      (fun _ t' => t' = t) := sat_get_bind (Within.sat_ite (fun _ => sat_fail rfl)
        (fun _ => update_sat))
  refine sat_bind hput ?_ ?_
  · rintro _ _ rfl
    exact sat_modify (h.clear _)
  · rintro _ _ rfl
    exact h

theorem frames_dropLink {n : Node} (hn : (id, n.perms) ∈ l) : Frames t₀ l (dropLink env id n) :=
  frames_get_bind fun _ => frames_ite (frames_reclaim _) (frames_bind frames_now fun _ =>
    frames_putNode hn)

theorem frames_setData {n : Node} (hn : (id, n.perms) ∈ l) (blob : Bytes) :
    Frames t₀ l (setData env id n blob) := by
  unfold setData
  split
  · exact keeps_panic
  · exact frames_bind (frames_pay _) fun _ => frames_bind frames_now fun _ => frames_putNode hn

theorem frames_writeRange {n : Node} (hn : (id, n.perms) ∈ l) (off : Nat) (data : Bytes) :
    Frames t₀ l (writeRange env id n off data) := by
  unfold writeRange
  split
  · exact keeps_pure _
  · split
    · exact keeps_panic
    · exact frames_bind (frames_pay _) fun _ => frames_bind frames_now fun _ => frames_putNode hn

theorem flushPage_framed {n : Node}
    (hn : (id, n.perms) ∈ l) (pages : List (List DirEntry)) (p : Nat) (h : Framed t₀ l t) :
    Sat (flushPage env id pages n p).1 t (fun n' t' => n'.perms = n.perms ∧ Framed t₀ l t')
      (fun _ t' => Framed t₀ l t') := by
  unfold flushPage
  split
  · exact sat_panic h
  · refine Within.sat_ite (fun _ => sat_panic h) fun _ => ?_
    refine sat_bind (frames_pay _ t h) (fun _ t h => ?_) fun _ _ h => h
    refine sat_bind (frames_now t h) (fun _ t h => ?_) fun _ _ h => h
    refine sat_bind (frames_putNode ?_ t h) (fun _ _ h => sat_pure ⟨rfl, h⟩) fun _ _ h => h
    exact hn

theorem frames_flush {w : Work} (hw : (id, w.node.perms) ∈ l) : Frames t₀ l (flush env id w) := by
  -- the node of one page is the one that the next page is written with
  have hpages : ∀ (dirty : List Nat) (n : Node), (id, n.perms) ∈ l →
      Frames t₀ l (dirty.foldlM (flushPage env id w.pages) n) := by
    intro dirty
    induction dirty with
    | nil => exact fun n _ => keeps_pure n
    | cons p dirty ih =>
      intro n hn t h
      rw [List.foldlM_cons]
      refine sat_bind (flushPage_framed hn w.pages p h) (fun n' t' hn' => ?_) fun _ _ h => h
      exact ih n' (hn'.1 ▸ hn) t' hn'.2
  refine frames_bind ?_ fun dirty => frames_bind (hpages dirty w.node hw) fun _ => keeps_pure _
  exact frames_get_bind fun _ =>
    frames_bind (frames_update (fun _ => rfl) (fun _ => rfl) (fun _ => rfl)) fun _ => keeps_pure _

theorem Work.node_del (w : Work) (name : String) : (w.del name).node = w.node := by
  unfold Work.del
  split <;> rfl

theorem frames_touchMoved : Frames t₀ l (touchMoved env id) :=
  frames_reading fun _ => frames_ite (keeps_pure _)
    (frames_bind frames_now fun _ => frames_putNode List.mem_cons_self)

/-- The directory that a rename writes is the one it read. -/
theorem renameOverwrite_framed (w : Work) (dn : String) (id : Nat) (h : Framed t₀ l t) :
    Sat (renameOverwrite env w dn id).1 t (fun r t' => (∀ w', r = some w' → w'.node = w.node) ∧
      Framed t₀ l t') (fun _ t' => Framed t₀ l t') := by
  unfold renameOverwrite
  cases w.find dn with
  | none =>
    refine sat_pure ⟨?_, h⟩
    rintro _ ⟨⟩
    rfl
  | some old =>
    refine Within.sat_ite (fun _ => sat_pure ⟨fun _ h => (by cases h), h⟩) fun _ => ?_
    refine sat_bind (getNode_sat old) ?_ ?_
    · rintro n t ⟨rfl, -, rfl⟩
      refine sat_bind (frames_dropLink List.mem_cons_self t (h.reading old)) (fun _ t' h' => ?_)
        fun _ _ h => h.forget
      refine sat_pure ⟨?_, h'.forget⟩
      rintro _ ⟨⟩
      exact w.node_del dn
    · rintro _ t ⟨rfl, -⟩
      exact h

/-! ## Calls that grant nothing -/

theorem frames_unlink (parent : Nat) (name : String) : Frames t₀ l (unlink env parent name) := by
  refine frames_checkout_bind fun n => ?_
  split
  · exact keeps_fail _
  · refine frames_getNode_bind fun child => frames_ite (keeps_fail _) ?_
    refine frames_bind (frames_flush ?_) fun _ => frames_dropLink List.mem_cons_self
    rw [Work.node_del]
    exact List.mem_cons_of_mem _ List.mem_cons_self

theorem frames_rmdir (parent : Nat) (name : String) : Frames t₀ l (rmdir env parent name) := by
  refine frames_checkout_bind fun n => ?_
  dsimp only
  split
  · exact keeps_fail _
  · refine frames_getNode_bind fun child => frames_ite (keeps_fail _) (frames_ite (keeps_fail _) ?_)
    exact frames_bind (frames_flush (List.mem_cons_of_mem _ List.mem_cons_self)) fun _ =>
      frames_reclaim _

theorem frames_link (parent : Nat) (name : String) (target : Nat) :
    Frames t₀ l (link env parent name target) := by
  refine frames_getNode_bind fun n => frames_ite (keeps_fail _) (frames_checkout_bind fun m => ?_)
  refine frames_ite (keeps_fail _) (frames_bind (frames_succ32 _) fun _ => frames_bind frames_now
    fun _ => ?_)
  refine frames_bind (frames_putNode (List.mem_cons_of_mem _ List.mem_cons_self)) fun _ =>
    frames_flush ?_
  exact List.mem_cons_self

theorem frames_rename (src : Nat) (sn : String) (dst : Nat) (dn : String) :
    Frames t₀ l (rename env src sn dst dn) := by
  refine frames_checkout_bind fun n => ?_
  split
  · exact keeps_fail _
  · next id _ =>
    refine frames_ite (keeps_fail _) (frames_get_bind fun t => frames_bind (keeps_ofExcept _)
      fun looped => ?_)
    refine frames_ite (keeps_fail _) (frames_ite ?_ (frames_checkout_bind fun m => ?_))
    · intro t h
      refine sat_bind (renameOverwrite_framed _ dn id h) ?_ fun _ _ h => h
      rintro (_ | w) t' ⟨hw, h'⟩
      · exact sat_pure h'
      · refine frames_bind frames_touchMoved (fun _ => frames_flush ?_) t' h'
        rw [Work.node_del, show (w.add dn id).node = w.node from rfl, hw w rfl]
        exact List.mem_cons_self
    · intro t h
      refine sat_bind (renameOverwrite_framed _ dn id h) ?_ fun _ _ h => h
      rintro (_ | w) t' ⟨hw, h'⟩
      · exact sat_pure h'
      · refine frames_bind frames_touchMoved (fun _ => frames_bind (frames_flush ?_) fun _ =>
          frames_flush ?_) t' h'
        · rw [show (w.add dn id).node = w.node from rfl, hw w rfl]
          exact List.mem_cons_self
        · rw [Work.node_del]
          exact List.mem_cons_of_mem _ List.mem_cons_self

theorem frames_regular_bind {β : Type} {f : Node → Step β}
    (hf : ∀ n, Frames t₀ ((id, n.perms) :: l) (f n)) : Frames t₀ l (regular id >>= f) := by
  have hread : Frames t₀ l (getNode id >>= fun n =>
      (if n.kind ≠ Inode.typeRegular then Within.fail .notFile else pure n) >>= f) :=
    frames_getNode_bind fun n => by
      split
      · exact keeps_fail _
      · exact hf n
  unfold regular
  rw [bind_assoc]
  exact hread

theorem frames_listDir (id : Nat) : Frames t₀ l (listDir id) :=
    frames_checkout_bind fun _ => keeps_pure _

theorem frames_close (h : Handle) : Frames t₀ l (close h) :=
  frames_ite (keeps_pure _) (frames_get_bind fun _ =>
    frames_bind (frames_update (fun _ => rfl) (fun _ => rfl) (fun _ => rfl)) fun _ => frames_ite
      (frames_getNode_bind fun _ => frames_ite (frames_reclaim _) (keeps_pure _)) (keeps_pure _))

/-- The call makes an inode or sets an owner or a mode. -/
def Grants : Op → Prop
  | .mkdir _ _ => True
  | .create _ _ => True
  | .symlink _ _ _ => True
  | .chmod _ _ => True
  | .chown _ _ _ => True
  | _ => False

theorem frames_planOf {op : Op} (hop : ¬ Grants op) : Frames t₀ l (planOf env handles op) := by
  cases op with
  | lookup parent name => exact keeps_map (frames_checkout_bind fun _ => keeps_pure _)
  | readdir id | openDirStream id =>
      exact keeps_map (frames_bind (frames_listDir id) fun _ => keeps_pure _)
  | readdirents id =>
    exact keeps_map (frames_bind (frames_listDir id) fun m =>
      frames_mapM (fun _ => frames_getNode_bind fun _ => keeps_pure _) m)
  | stat id => exact keeps_map (frames_getNode_bind fun _ => keeps_pure _)
  | access id mask uid gid gids =>
    exact keeps_map (frames_getNode_bind fun _ => frames_ite (keeps_pure _)
      (frames_ite (frames_ite (keeps_fail _) (keeps_pure _))
        (frames_ite (keeps_fail _) (keeps_pure _))))
  | readlink id =>
    exact keeps_map (frames_getNode_bind fun _ => frames_ite (keeps_fail _) (keeps_pure _))
  | writeFile id data =>
    exact keeps_map (frames_regular_bind fun _ => frames_setData List.mem_cons_self _)
  | readFile id => exact keeps_map (frames_regular_bind fun _ => keeps_pure _)
  | readAt id off length =>
    exact keeps_map (frames_regular_bind fun _ => frames_ite (keeps_pure _)
      (frames_ite keeps_panic (keeps_pure _)))
  | writeAt id off data =>
    exact keeps_map (frames_regular_bind fun _ => frames_writeRange List.mem_cons_self _ _)
  | append id data =>
    exact keeps_map (frames_regular_bind fun _ =>
      frames_bind (frames_writeRange List.mem_cons_self _ _) fun _ => keeps_pure _)
  | truncate id newSize =>
    exact keeps_map (frames_regular_bind fun _ => frames_ite (keeps_pure _)
      (frames_setData List.mem_cons_self _))
  | unlink parent name => exact keeps_map (frames_unlink parent name)
  | rmdir parent name => exact keeps_map (frames_rmdir parent name)
  | utimes id atime mtime =>
    exact keeps_map (frames_bind frames_now fun _ => frames_getNode_bind fun _ =>
      frames_putNode List.mem_cons_self)
  | link parent name target => exact keeps_map (frames_link parent name target)
  | rename src sn dst dn => exact keeps_map (frames_rename src sn dst dn)
  | openFile id =>
    exact keeps_map (frames_regular_bind fun _ => frames_get_bind fun _ =>
        frames_bind (frames_succ32 _) fun _ =>
      frames_bind (frames_update (fun _ => rfl) (fun _ => rfl) (fun _ => rfl))
        fun _ => keeps_pure _)
  | handleRead i =>
    rw [planOf]
    cases handles[i]? with
    | none => exact keeps_pure _
    | some h => exact keeps_map (frames_getNode_bind fun _ => keeps_pure _)
  | close i =>
    rw [planOf]
    cases handles[i]? with
    | none => exact keeps_pure _
    | some h => exact keeps_map (frames_close h)
  | setDirCache | statfs | fallocate | commit | remount => exact keeps_pure _
  | mkdir | create | symlink | chmod | chown => exact absurd trivial hop

/-! ## Calls that grant -/

/-- A creation from `t`: the new inode was not in use. -/
structure Granted (t : State) (o : Owners) (p : Perms) (id : Nat) (t' : State) : Prop where
  fresh : ¬ t.view.Used id
  next : t.next ≤ t'.next
  hold : Owners.Hold (Function.update o id p) t'

/-- What was in use in `t` has its permissions, unless it was freed. -/
def Owners.Spared (o : Owners) (t t' : State) : Prop :=
  ∀ id, t.view.Used id → (t'.node id).perms = o id ∨ id ∈ t'.free

theorem Owners.Hold.spared (hk : o.Hold t) : o.Spared t t := fun id hid => .inl (hk id hid)

theorem Owners.Spared.hold (h : o.Spared t t') (hview : t'.view = t.view) : o.Hold t' := by
  intro id hid
  exact (h id (hview ▸ hid)).resolve_right hid.2

theorem Granted.framed {t₁ : State} {p : Perms} (h : Granted t o p id t₁) (hf : Framed t₁ [] t') :
    Granted t o p id t' := ⟨h.fresh, hf.next.symm ▸ h.next, hf.hold h.hold⟩

theorem Granted.spared {t₁ : State} {p : Perms} (h : Granted t o p id t₁) (hf : Framed t₁ [] t') :
    o.Spared t t' := by
  intro i hi
  have hne : i ≠ id := by
    rintro rfl
    exact h.fresh hi
  by_cases hfree : i ∈ t₁.free
  · exact .inr (hf.free hfree)
  · have hhold := h.hold i ⟨Nat.lt_of_lt_of_le hi.1 h.next, hfree⟩
    rw [Function.update_of_ne hne] at hhold
    exact (hf.node i).imp_left fun hnode => hnode.trans hhold

theorem granted_of_alloc (hs : Slots t.view handles) (hk : o.Hold t) {t₁ t₂ : State}
    {v₁ : View} {n : Node}
    (ha : t.view.alloc = some (id, v₁)) (hview : t₁.view = v₁) (hnode : t₁.node = t.node)
    (hput : t₂.node = Function.update t₁.node id n) (hnext : t₂.next = t₁.next)
      (hfree : t₂.free = t₁.free) :
    Granted t o n.perms id t₂ := by
  have hv₁ : t₁.view.next = v₁.next := by rw [hview]
  refine ⟨not_used_of_alloc ha, ?_, fun i hi => ?_⟩
  · rw [hnext]
    show t.view.next ≤ t₁.view.next
    rw [hv₁]
    rcases View.alloc_cases ha with ⟨rest, -, rfl⟩ | ⟨-, -, -, rfl⟩
    · exact Nat.le_refl _
    · exact Nat.le_succ _
  · rw [hput]
    by_cases heq : i = id
    · subst heq
      rw [Function.update_self, Function.update_self]
    · have hused : t₁.view.Used i := by
        refine ⟨Nat.lt_of_lt_of_eq hi.1 hnext, fun hf => hi.2 ?_⟩
        show i ∈ t₂.free
        rw [hfree]
        exact hf
      rw [hview] at hused
      rw [Function.update_of_ne heq, Function.update_of_ne heq, hnode]
      exact hk i (((used_alloc hs ha).mp hused).resolve_right heq)

theorem createNode_granted (hs : Slots t.view handles) (hk : o.Hold t) (parent : Nat)
    (name : String) (kind : UInt8) (mode : UInt16) :
    Sat (createNode env parent name kind mode).1 t (fun id t' => Granted t o ⟨mode, 0, 0⟩ id t')
      (fun _ t' => o.Spared t t') := by
  refine sat_bind (checkout_sat parent) ?_ ?_
  swap
  · rintro _ t rfl
    exact hk.spared
  rintro w t ⟨rfl, -, hd, rfl⟩
  refine Within.sat_ite (fun _ => sat_fail hk.spared) fun _ => sat_bind allocInode_sat ?_ ?_
  swap
  · rintro _ t rfl
    exact hk.spared
  rintro id t₁ ⟨v₁, ha, hview, hnode, -, -⟩
  have hparent : parent ≠ id := by
    rintro rfl
    exact not_used_of_alloc ha (hs.used_of_dir hd)
  refine sat_bind (getNode_sat id) ?_ ?_
  swap
  · rintro _ t₁ ⟨rfl, -⟩ i hi
    rw [hnode]
    exact .inl (hk i hi)
  rintro prev t₁ ⟨rfl, hid, rfl⟩
  refine sat_bind (now_sat (E := fun _ _ => False)) ?_ (fun _ _ => False.elim)
  rintro c _ rfl
  refine sat_bind (renew_sat (E := fun _ _ => False) (t := { t₁ with ticks := t₁.ticks + 1 }) _ hid)
    ?_ (fun _ _ => False.elim)
  intro _ t₂ ht₂
  have hput : t₂.node = Function.update t₁.node id (child kind mode (t₁.node id).generation c) :=
    by rw [ht₂]; rfl
  have hnext : t₂.next = t₁.next := by rw [ht₂]; rfl
  have hfree : t₂.free = t₁.free := by rw [ht₂]; rfl
  have hgranted := granted_of_alloc hs hk ha hview hnode hput hnext hfree
  -- the parent is written back as it was read
  have hread : (t₂.node parent).perms = (t.node parent).perms := by
    rw [hput, Function.update_of_ne hparent, hnode]
  have hframed : Framed t₂ [(parent, (t.node parent).perms)] t₂ :=
    hread ▸ (framed_self t₂).reading parent
  have htail : ∀ (w : Work) (t₃ : State), w.node.perms = (t.node parent).perms →
      Framed t₂ [(parent, (t.node parent).perms)] t₃ →
      Sat (do flush env parent w; return id : Step Nat).1 t₃
        (fun id t' => Granted t o ⟨mode, 0, 0⟩ id t') (fun _ t' => o.Spared t t') := by
    intro w t₃ hw h
    refine sat_bind (frames_flush ?_ t₃ h) (fun _ _ h => ?_) fun _ _ h => hgranted.spared h.forget
    · rw [hw]
      exact List.mem_cons_self
    · exact sat_pure (hgranted.framed h.forget)
  dsimp only
  refine Within.sat_ite (fun _ => ?_) (fun _ => htail _ t₂ rfl hframed)
  exact sat_bind (frames_succ32 _ t₂ hframed) (fun _ t₃ h => htail _ t₃ rfl h)
    fun _ _ h => hgranted.spared h.forget

theorem symlink_granted (hs : Slots t.view handles) (hk : o.Hold t) (parent : Nat)
    (name target : String) :
    Sat (symlink env parent name target).1 t (fun id t' => Granted t o ⟨0o777, 0, 0⟩ id t')
      (fun _ t' => o.Spared t t') := by
  refine Within.sat_ite (fun _ => sat_fail hk.spared) fun _ => ?_
  refine sat_bind (createNode_granted hs hk parent name _ _) (fun id t₁ h => ?_) fun _ _ h => h
  refine sat_bind (getNode_sat id) ?_ ?_
  · rintro n t₁ ⟨rfl, -, rfl⟩
    refine sat_bind (frames_setData List.mem_cons_self _ t₁ ((framed_self t₁).reading id))
      (fun _ _ hf => ?_) fun _ _ hf => h.spared hf.forget
    exact sat_pure (h.framed hf.forget)
  · rintro _ t₁ ⟨rfl, -⟩
    exact h.spared (framed_self t₁)

theorem mutate_sat (f : Node → Node) :
    Sat (mutate id f).1 t (fun _ t' => t' = t.setNode id (f (t.node id))) (fun _ t' => t' = t) := by
  refine sat_bind (getNode_sat id) ?_ fun _ _ h => h.1
  rintro n t ⟨rfl, hid, rfl⟩
  exact (putNode_sat _ hid).mono (fun _ _ h => h) fun _ _ h => h

theorem mutate_granted (hk : o.Hold t) (f : UInt64 → Node → Node) (p : Perms)
    (hf : ∀ c, t.view.Used id → (f c (t.node id)).perms = p) :
    Sat (do let c ← now env; mutate id (f c) : Step Unit).1 t
      (fun _ t' => Owners.Hold (Function.update o id p) t') (fun _ t' => o.Spared t t') := by
  refine sat_bind (now_sat (E := fun _ _ => False)) ?_ fun _ _ => False.elim
  rintro c _ rfl
  refine (mutate_sat (f c)).mono ?_ ?_
  · rintro _ _ rfl i hi
    by_cases heq : i = id
    · subst heq
      rw [node_setNode_self, Function.update_self]
      exact hf c hi
    · rw [node_setNode_ne heq, Function.update_of_ne heq]
      exact hk i hi
  · rintro _ _ rfl
    exact hk.spared

/-- A call that succeeds leaves the owners and modes that it says, and one that fails
leaves those that there were. -/
theorem planOf_hold (hs : Slots t.view handles) (hk : o.Hold t) (op : Op) :
    Sat (planOf env handles op).1 t (fun r t' => (o.after op (.ok r)).Hold t')
    (fun _ t' => o.Spared t t') := by
  by_cases hop : Grants op
  · cases op with
    | mkdir parent name | create parent name =>
      exact sat_map ((createNode_granted hs hk parent name _ _).mono (fun _ _ h => h.hold)
        fun _ _ h => h)
    | symlink parent name target =>
      exact sat_map ((symlink_granted hs hk parent name target).mono (fun _ _ h => h.hold)
        fun _ _ h => h)
    | chmod id mode =>
      refine sat_map (mutate_granted hk _ _ fun c hid => ?_)
      rw [← hk id hid]
      rfl
    | chown id uid gid =>
      refine sat_map (mutate_granted hk _ _ fun c hid => ?_)
      rw [← hk id hid]
      rfl
    | _ => exact hop.elim
  · have hafter : ∀ r, o.after op (.ok r) = o := by
      intro r
      cases op with
      | mkdir | create | symlink | chmod | chown => exact absurd trivial hop
      | _ => rfl
    refine (frames_planOf hop t (framed_self t)).mono (fun r t' h => ?_) fun _ t' h => ?_
    · rw [hafter]
      exact h.hold hk
    · intro id hid
      exact (h.node id).imp_left fun hnode => hnode.trans (hk id hid)

end Spec
end BloomFS

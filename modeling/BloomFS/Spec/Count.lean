/-
The slots that were written.

The free list of a mount covers the slots up to `count`.  As long as callers pass only
ids that are handed out, these are the slots below the next fresh id.
-/
import BloomFS.Fs.Namespace
import BloomFS.Spec.Orderly

namespace BloomFS
namespace Spec

open Bytes Exec Dir Fs Store

variable {env : Env} {t : State} {handles : List Handle} {n id : Nat}

/-- Written slots are those below the next id, which is at least `n`. -/
structure Level (n : Nat) (t : State) : Prop where
  count : t.count = t.next
  le : n ≤ t.next

abbrev Levels {α : Type} (n : Nat) (x : Step α) : Prop := Keeps (Level n) x.1

section Rules

variable {α β : Type} {x y : Step α}

theorem levels_bind {f : α → Step β} (hx : Levels n x) (hf : ∀ a, Levels n (f a)) :
    Levels n (x >>= f) :=
  keeps_bind hx hf

theorem levels_ite {c : Prop} [Decidable c] (hx : Levels n x) (hy : Levels n y) :
    Levels n (if c then x else y) := by
  split
  · exact hx
  · exact hy

theorem levels_get_bind {f : State → Step β} (hf : ∀ t, Levels n (f t)) :
    Levels n (Within.get >>= f) :=
  keeps_bind keeps_get hf

theorem levels_foldlM {ι : Type} {f : α → ι → Step α}
    (hf : ∀ a i, Levels n (f a i)) (l : List ι) (a : α) : Levels n (l.foldlM f a) := by
  induction l generalizing a with
  | nil => exact keeps_pure a
  | cons i l ih =>
    rw [List.foldlM_cons]
    exact levels_bind (hf a i) ih

theorem levels_mapM {ι : Type} {f : ι → Step α} (hf : ∀ i, Levels n (f i)) (l : List ι) :
    Levels n (l.mapM f) := by
  induction l with
  | nil => exact keeps_pure []
  | cons i l ih =>
    rw [List.mapM_cons]
    exact levels_bind (hf i) fun _ => levels_bind ih fun _ => keeps_pure _

end Rules

theorem levels_update {f : State → State}
    {hf : ∀ t, (f t).log = t.log} (hcount : ∀ t, (f t).count = t.count)
    (hnext : ∀ t, (f t).next = t.next) : Levels n (update f hf) :=
  keeps_modify fun t h => ⟨by rw [hcount, hnext]; exact h.count, by rw [hnext]; exact h.le⟩

theorem levels_pay (p : Payment) : Levels n (pay p) := keeps_modify fun _ h => ⟨h.count, h.le⟩

theorem levels_now : Levels n (now env) :=
  levels_get_bind fun _ =>
    levels_bind (levels_update (fun _ => rfl) (fun _ => rfl)) fun _ => keeps_pure _

theorem levels_getNode (id : Nat) : Levels n (getNode id) :=
  levels_get_bind fun _ => levels_ite (keeps_fail _) (keeps_pure _)

theorem levels_putNode (m : Node) (hid : id < n) : Levels n (putNode id m) := by
  refine levels_get_bind fun _ => levels_ite (keeps_fail _) (keeps_modify fun t h => ⟨?_, h.le⟩)
  have hle := h.le
  show max t.count (id + 1) = t.next
  rw [h.count]
  omega

theorem levels_succ32 (m : UInt32) : Levels n (succ32 m) := by
  unfold succ32
  split
  · exact keeps_pure _
  · exact keeps_panic

theorem levels_reclaim (m : Node) (hid : id < n) : Levels n (reclaim id m) :=
  levels_bind (levels_succ32 _) fun _ =>
    levels_bind (levels_putNode _ hid) fun _ => levels_update (fun _ => rfl) (fun _ => rfl)

theorem levels_dropLink (m : Node) (hid : id < n) : Levels n (dropLink env id m) :=
  levels_get_bind fun _ => levels_ite (levels_reclaim _ hid)
    (levels_bind levels_now fun _ => levels_putNode _ hid)

theorem levels_setData (m : Node) (blob : Bytes) (hid : id < n) :
    Levels n (setData env id m blob) := by
  unfold setData
  split
  · exact keeps_panic
  · exact levels_bind (levels_pay _) fun _ => levels_bind levels_now fun _ => levels_putNode _ hid

theorem levels_writeRange (m : Node) (off : Nat) (data : Bytes) (hid : id < n) :
    Levels n (writeRange env id m off data) := by
  unfold writeRange
  split
  · exact keeps_pure _
  · split
    · exact keeps_panic
    · exact levels_bind (levels_pay _) fun _ => levels_bind levels_now fun _ => levels_putNode _ hid

theorem levels_flush (w : Work) (hid : id < n) : Levels n (flush env id w) := by
  refine levels_bind ?_ fun dirty => levels_bind (levels_foldlM (fun m p => ?_) dirty w.node)
    fun _ => keeps_pure _
  · exact levels_get_bind fun _ =>
      levels_bind (levels_update (fun _ => rfl) (fun _ => rfl)) fun _ => keeps_pure _
  · unfold flushPage
    split
    · exact keeps_panic
    · split
      · exact keeps_panic
      · exact levels_bind (levels_pay _) fun _ => levels_bind levels_now fun _ =>
          levels_bind (levels_putNode _ hid) fun _ => keeps_pure _

theorem levels_mutate (f : Node → Node) (hid : id < n) : Levels n (mutate id f) :=
  levels_bind (levels_getNode id) fun _ => levels_putNode _ hid

theorem levels_regular (id : Nat) : Levels n (regular id) :=
  levels_bind (levels_getNode id) fun _ => levels_ite (keeps_fail _) (keeps_pure _)

theorem levels_checkout (id : Nat) : Levels n (checkout id) :=
  levels_bind (levels_getNode id) fun _ => levels_ite (keeps_pure _) (keeps_fail _)

theorem levels_touchMoved (hid : id < n) : Levels n (touchMoved env id) :=
  levels_get_bind fun _ => levels_ite (keeps_pure _) (levels_bind levels_now fun _ =>
    levels_putNode _ hid)

theorem levels_renameOverwrite {w : Work} {dn : String} {i : Nat}
    (h : ∀ old, w.find dn = some old → old < n) : Levels n (renameOverwrite env w dn i) := by
  unfold renameOverwrite
  split
  · exact keeps_pure _
  · next old hold =>
    split
    · exact keeps_pure _
    · exact levels_bind (levels_getNode old) fun m =>
        levels_bind (levels_dropLink m (h old hold)) fun _ => keeps_pure _

/-! ## Operations -/

/-- What the state names is below the next id. -/
structure Inside (t : State) (handles : List Handle) : Prop where
  dirs : ∀ d, (t.node d).isDir → d < t.next
  named : ∀ d, d < t.cap → (t.node d).isDir → ∀ e ∈ (t.node d).entries, e.inode < t.next
  free : ∀ id ∈ t.free, id < t.next
  held : ∀ h ∈ handles, h.closed = false → h.id < t.next
  next_le : t.next ≤ t.cap

theorem Orderly.inside (h : Orderly t.view handles) : Inside t handles := by
  obtain ⟨hs, gone, hn⟩ := h
  refine ⟨fun d hd => (hs.used_of_dir hd).1, fun d hlt hd e he => ?_, hs.free_lt,
    fun h hh ho => ?_, hs.next_le⟩
  · exact (hn.of_mem (v := t.view) hlt hd
      (show ⟨e.name, e.inode⟩ ∈ (t.view.node d).entries from he)).1.1
  · refine (hs.opened h.id fun h0 => ?_).1.1
    have hheld := hs.held h.id
    rw [h0] at hheld
    have hnone := List.countP_eq_zero.mp hheld.symm h hh
    simp [ho] at hnone

/-- The step ends with the slots below the next id written, unless it panics. -/
def Flat {α : Type} (x : Step α) (t : State) : Prop :=
  Sat x.1 t (fun _ t' => t'.count = t'.next) (fun f t' => ∀ e, f = .err e → t'.count = t'.next)

theorem Levels.flat {α : Type} {x : Step α} (hx : Levels n x) (h : Level n t) : Flat x t :=
  (hx t h).mono (fun _ _ h => h.count) (fun _ _ h _ _ => h.count)

theorem level_self (h : t.count = t.next) : Level t.next t := ⟨h, Nat.le_refl _⟩

theorem flat_checkout_bind {β : Type} {f : Work → Step β} (h : t.count = t.next)
    (hf : id < t.cap → (t.node id).isDir → Flat (f ⟨t.node id, (t.node id).pages, []⟩) t) :
    Flat (checkout id >>= f) t := by
  refine sat_bind (checkout_sat id) ?_ ?_
  · rintro w t' ⟨rfl, hlt, hd, rfl⟩
    exact hf hlt hd
  · rintro _ t' rfl _ _
    exact h

theorem Inside.of_find (hi : Inside t handles) (hlt : id < t.cap)
    (hd : (t.node id).isDir) {name : String}
    {i : Nat} (h : Work.find ⟨t.node id, (t.node id).pages, []⟩ name = some i) : i < t.next := by
  obtain ⟨e, he, -, rfl⟩ := mem_of_find h
  exact hi.named id hlt hd e he

/-- The new id is below the next one then, and all slots below it are written once
its own is. -/
theorem allocInode_level (hi : Inside t handles) (h : t.count = t.next) :
    Sat allocInode.1 t (fun id t' => id < t'.cap ∧ t.next ≤ t'.next ∧
      max t'.count (id + 1) = t'.next) (fun _ t' => t' = t) := by
  have hle := hi.next_le
  unfold Sat
  rw [allocInode, Within.get_bind_run]
  cases hf : t.free with
  | cons id rest =>
    have hid := hi.free id (hf ▸ List.mem_cons_self)
    refine ⟨Nat.lt_of_lt_of_le hid hle, Nat.le_refl _, ?_⟩
    show max t.count (id + 1) = t.next
    omega
  | nil =>
    dsimp only
    by_cases hfull : t.cap ≤ t.next
    · rw [if_pos hfull]
      rfl
    · rw [if_neg hfull]
      refine ⟨Nat.not_le.mp hfull, Nat.le_succ _, ?_⟩
      show max t.count (t.next + 1) = t.next + 1
      omega

theorem createNode_flat (hi : Inside t handles) (h : t.count = t.next) (parent : Nat)
    (name : String)
    (kind : UInt8) (mode : UInt16) : Flat (createNode env parent name kind mode) t := by
  refine flat_checkout_bind h fun hlt hd => ?_
  refine Within.sat_ite (fun _ => sat_fail fun _ _ => h) (fun _ => ?_)
  refine sat_bind (allocInode_level hi h) ?_ ?_
  · rintro id t₁ ⟨hid, hnext, hcount⟩
    refine sat_bind (getNode_sat id) ?_ (fun _ _ hf => absurd hf.2 (Nat.not_le.mpr hid))
    rintro prev t₁ ⟨rfl, -, rfl⟩
    refine sat_bind (now_sat (E := fun _ _ => False)) ?_ (fun _ _ => False.elim)
    rintro c _ rfl
    refine sat_bind (renew_sat (E := fun _ _ => False)
      (t := { t₁ with ticks := t₁.ticks + 1 }) _ hid) ?_ (fun _ _ => False.elim)
    rintro _ t₂ rfl
    have hparent : parent < t₁.next := Nat.lt_of_lt_of_le (hi.dirs parent hd) hnext
    have htail : ∀ w : Work, Levels t₁.next (do flush env parent w; return id : Step Nat) :=
        fun w =>
      levels_bind (levels_flush w hparent) fun _ => keeps_pure _
    dsimp only
    refine Within.sat_ite (fun _ => ?_) (fun _ => (htail _).flat ⟨hcount, Nat.le_refl _⟩)
    exact (levels_bind (levels_succ32 _) fun _ => htail _).flat ⟨hcount, Nat.le_refl _⟩
  · rintro _ t₁ rfl _ _
    exact h

theorem symlink_flat (hl : env.Lawful) (hr : Ready t handles) (hi : Inside t handles)
    (hs : Slots t.view handles)
    (h : t.count = t.next) (parent : Nat) (name target : String) :
        Flat (symlink env parent name target) t := by
  unfold symlink
  refine Within.sat_ite (fun _ => sat_fail fun _ _ => h) (fun _ => ?_)
  refine sat_bind ((createNode_flat hi h parent name _ _).and
    (createNode_sat hl hr parent name _ _)) ?_ (fun _ _ h => h.1)
  rintro id t₁ ⟨hcount, -, hc⟩
  have hid : id < t₁.next := (hc.used hs).1
  exact Levels.flat (levels_bind (levels_getNode id) fun _ =>
    levels_bind (levels_setData _ _ hid) fun _ => keeps_pure _) (level_self hcount)

theorem unlink_flat (hi : Inside t handles) (h : t.count = t.next) (parent : Nat) (name : String) :
    Flat (unlink env parent name) t := by
  refine flat_checkout_bind h fun hlt hd => ?_
  have hparent := hi.dirs parent hd
  cases hf : Work.find ⟨t.node parent, (t.node parent).pages, []⟩ name with
  | none => exact sat_fail fun _ _ => h
  | some id =>
    have hid := hi.of_find hlt hd hf
    exact Levels.flat (levels_bind (levels_getNode id) fun _ => levels_ite (keeps_fail _)
      (levels_bind (levels_flush _ hparent) fun _ => levels_dropLink _ hid)) (level_self h)

theorem rmdir_flat (hi : Inside t handles) (h : t.count = t.next) (parent : Nat) (name : String) :
    Flat (rmdir env parent name) t := by
  refine flat_checkout_bind h fun hlt hd => ?_
  have hparent := hi.dirs parent hd
  cases hf : Work.find ⟨t.node parent, (t.node parent).pages, []⟩ name with
  | none => exact sat_fail fun _ _ => h
  | some id =>
    have hid := hi.of_find hlt hd hf
    exact Levels.flat (levels_bind (levels_getNode id) fun _ => levels_ite (keeps_fail _)
      (levels_ite (keeps_fail _) (levels_bind (levels_flush _ hparent) fun _ =>
        levels_reclaim _ hid))) (level_self h)

theorem link_flat (hi : Inside t handles) (h : t.count = t.next) (parent : Nat) (name : String)
    {target : Nat} (ht : target < t.next) : Flat (link env parent name target) t := by
  refine sat_bind (getNode_sat target) ?_ ?_
  · rintro n t ⟨rfl, -, rfl⟩
    refine Within.sat_ite (fun _ => sat_fail fun _ _ => h)
      (fun _ => flat_checkout_bind h fun hlt hd => ?_)
    exact Levels.flat (levels_ite (keeps_fail _) (levels_bind (levels_succ32 _) fun _ =>
      levels_bind levels_now fun _ => levels_bind (levels_putNode _ ht) fun _ =>
        levels_flush _ (hi.dirs parent hd))) (level_self h)
  · rintro _ t' ⟨rfl, -⟩ _ _
    exact h

theorem rename_flat (hi : Inside t handles) (h : t.count = t.next) (src : Nat)
    (sn : String) (dst : Nat) (dn : String) : Flat (rename env src sn dst dn) t := by
  refine flat_checkout_bind h fun hlt hd => ?_
  have hsrc := hi.dirs src hd
  cases hf : Work.find ⟨t.node src, (t.node src).pages, []⟩ sn with
  | none => exact sat_fail fun _ _ => h
  | some id =>
    have hid := hi.of_find hlt hd hf
    refine Within.sat_ite (fun _ => sat_fail fun _ _ => h) (fun _ => sat_get_bind ?_)
    dsimp only
    refine sat_bind (sat_ofExcept (Q := fun _ t' => t' = t) (E := fun _ t' => t' = t)
      (fun _ _ => rfl) (fun _ _ => rfl)) ?_ ?_
    swap
    · rintro _ t' rfl _ _
      exact h
    rintro looped t rfl
    refine Within.sat_ite (fun _ => sat_fail fun _ _ => h)
      (fun _ => Within.sat_ite (fun _ => ?_) (fun _ => ?_))
    · refine Levels.flat (levels_bind (levels_renameOverwrite fun old => hi.of_find hlt hd) fun w =>
        ?_) (level_self h)
      cases w with
      | none => exact keeps_pure _
      | some w => exact levels_bind (levels_touchMoved hid) fun _ => levels_flush _ hsrc
    · refine flat_checkout_bind h fun hlt' hd' => ?_
      refine Levels.flat (levels_bind (levels_renameOverwrite fun old => hi.of_find hlt' hd')
        fun w => ?_) (level_self h)
      cases w with
      | none => exact keeps_pure _
      | some w =>
        exact levels_bind (levels_touchMoved hid) fun _ =>
          levels_bind (levels_flush _ (hi.dirs dst hd')) fun _ => levels_flush _ hsrc

theorem levels_listDir (id : Nat) : Levels n (listDir id) :=
  levels_bind (levels_checkout id) fun _ => keeps_pure _

theorem levels_readdirents (id : Nat) : Levels n (readdirents id) :=
  levels_bind (levels_listDir id) fun l =>
    levels_mapM (fun _ => levels_bind (levels_getNode _) fun _ => keeps_pure _) l

theorem levels_access (mask uid gid : UInt32) (gids : List UInt32) :
    Levels n (access id mask uid gid gids) :=
  levels_bind (levels_getNode id) fun _ => levels_ite (keeps_pure _)
    (levels_ite (levels_ite (keeps_fail _) (keeps_pure _))
      (levels_ite (keeps_fail _) (keeps_pure _)))

theorem levels_openFile (id : Nat) : Levels n (openFile id) :=
  levels_bind (levels_regular id) fun _ => levels_get_bind fun _ =>
      levels_bind (levels_succ32 _) fun _ =>
    levels_bind (levels_update (fun _ => rfl) (fun _ => rfl)) fun _ => keeps_pure _

theorem levels_close {hd : Handle} (h : hd.closed = false → hd.id < n) : Levels n (close hd) := by
  unfold close
  split
  · exact keeps_pure _
  · next hopen =>
    have hid := h (Bool.not_eq_true _ ▸ hopen)
    exact levels_get_bind fun _ => levels_bind (levels_update (fun _ => rfl) (fun _ => rfl))
        fun _ =>
      levels_ite (levels_bind (levels_getNode _) fun _ => levels_ite (levels_reclaim _ hid)
        (keeps_pure _)) (keeps_pure _)

/-- An operation on ids that are handed out writes no slot above them. -/
theorem planOf_flat (hl : env.Lawful) (ho : Orderly t.view handles) (h : t.count = t.next) {op : Op}
    (hsub : ∀ id ∈ op.subjects, id < t.next) : Flat (planOf env handles op) t := by
  have hi := ho.inside
  have hlev := level_self h
  cases op with
  | lookup parent name =>
    exact sat_map (Levels.flat (levels_bind (levels_checkout parent) fun _ => keeps_pure _) hlev)
  | readdir id | openDirStream id =>
    exact sat_map (Levels.flat (levels_bind (levels_listDir id) fun _ => keeps_pure _) hlev)
  | readdirents id => exact sat_map ((levels_readdirents id).flat hlev)
  | stat id =>
    exact sat_map (Levels.flat (levels_bind (levels_getNode id) fun _ => keeps_pure _) hlev)
  | access id mask uid gid gids => exact sat_map ((levels_access mask uid gid gids).flat hlev)
  | mkdir parent name => exact sat_map (createNode_flat hi h parent name _ _)
  | create parent name => exact sat_map (createNode_flat hi h parent name _ _)
  | symlink parent name target =>
    exact sat_map (symlink_flat hl ho.ready hi ho.1 h parent name target)
  | readlink id =>
    exact sat_map (Levels.flat (levels_bind (levels_getNode id) fun _ =>
      levels_ite (keeps_fail _) (keeps_pure _)) hlev)
  | writeFile id data =>
    exact sat_map (Levels.flat (levels_bind (levels_regular id) fun _ =>
      levels_setData _ _ (hsub id List.mem_cons_self)) hlev)
  | readFile id =>
    exact sat_map (Levels.flat (levels_bind (levels_regular id) fun _ => keeps_pure _) hlev)
  | readAt id off length =>
    exact sat_map (Levels.flat (levels_bind (levels_regular id) fun _ => levels_ite (keeps_pure _)
      (levels_ite keeps_panic (keeps_pure _))) hlev)
  | writeAt id off data =>
    exact sat_map (Levels.flat (levels_bind (levels_regular id) fun _ =>
      levels_writeRange _ _ _ (hsub id List.mem_cons_self)) hlev)
  | append id data =>
    exact sat_map (Levels.flat (levels_bind (levels_regular id) fun _ =>
      levels_bind (levels_writeRange _ _ _ (hsub id List.mem_cons_self)) fun _ =>
        keeps_pure _) hlev)
  | truncate id newSize =>
    exact sat_map (Levels.flat (levels_bind (levels_regular id) fun _ => levels_ite (keeps_pure _)
      (levels_setData _ _ (hsub id List.mem_cons_self))) hlev)
  | unlink parent name => exact sat_map (unlink_flat hi h parent name)
  | rmdir parent name => exact sat_map (rmdir_flat hi h parent name)
  | chmod id mode | chown id uid gid | utimes id atime mtime =>
    exact sat_map (Levels.flat (levels_bind levels_now fun _ =>
      levels_mutate _ (hsub id List.mem_cons_self)) hlev)
  | link parent name target =>
    exact sat_map (link_flat hi h parent name (hsub target List.mem_cons_self))
  | rename src sn dst dn => exact sat_map (rename_flat hi h src sn dst dn)
  | openFile id => exact sat_map ((levels_openFile id).flat hlev)
  | handleRead i =>
    unfold Flat
    rw [planOf]
    cases handles[i]? with
    | none => exact sat_pure h
    | some hd =>
      exact sat_map (Levels.flat (levels_bind (levels_getNode hd.id) fun _ => keeps_pure _) hlev)
  | close i =>
    unfold Flat
    rw [planOf]
    cases hh : handles[i]? with
    | none => exact sat_pure h
    | some hd => exact sat_map ((levels_close (hi.held hd (List.mem_of_getElem? hh))).flat hlev)
  | setDirCache | statfs | fallocate | commit | remount => exact sat_pure h

/-! ## Mounts -/

theorem mem_free_reopen : id ∈ t.reopen.free ↔ id < t.count ∧ (t.node id).nlink = 0 := by
  unfold State.reopen
  simp

section Reopen

variable {gone : Nat → Nat} (hs : Slots t.view handles) (hn : Linked t.view gone)
  (hdirs : ∀ id, (t.view.node id).isDir → (t.view.node id).nlink ≠ 0) (hlev : t.count = t.next)

include hs hn hlev in
/-- The mount gives back the ids that were free, and those without links. -/
theorem used_reopen : t.reopen.view.Used id ↔ t.view.Used id ∧ (t.view.node id).nlink ≠ 0 := by
  unfold View.Used
  rw [show id ∈ t.reopen.view.free ↔ _ from mem_free_reopen, hlev]
  constructor
  · rintro ⟨hlt, hfree⟩
    have hlink : (t.view.node id).nlink ≠ 0 := fun h0 => hfree ⟨hlt, h0⟩
    refine ⟨⟨hlt, fun hmem => hlink ?_⟩, hlink⟩
    have hno : ¬ t.view.Used id := fun hu => hu.2 hmem
    have hfiles := hn.files id (hs.unused id hno)
    have hnone : t.view.names id + gone id = 0 := by
      by_contra hne
      exact hno (hn.named id (by omega))
    rw [hnone] at hfiles
    exact UInt32.toNat_inj.mp hfiles
  · rintro ⟨⟨hlt, -⟩, hlink⟩
    exact ⟨hlt, fun h => hlink h.2⟩

include hs hn hdirs hlev

theorem slots_reopen : Slots t.reopen.view [] := by
  refine ⟨?_, fun id hid => ?_, hs.next_le, hs.cap_lt, fun id hid hd => ?_,
    fun id hid => absurd rfl hid,
    fun _ => rfl, fun _ hh => absurd hh List.not_mem_nil, ?_, hs.root.2⟩
  · exact List.nodup_reverse.mpr (List.Nodup.filter _ List.nodup_range)
  · exact Nat.lt_of_lt_of_le (mem_free_reopen.mp hid).1 hlev.le
  · exact hid ((used_reopen hs hn hlev).mpr ⟨hs.used_of_dir hd, hdirs id hd⟩)
  · exact (used_reopen hs hn hlev).mpr ⟨hs.root.1, hdirs 0 hs.root.2⟩

theorem linked_reopen : Linked t.reopen.view gone where
  paged := hn.paged
  named id hid := by
    refine (used_reopen hs hn hlev).mpr ⟨hn.named id hid, fun h0 => ?_⟩
    by_cases hd : (t.view.node id).isDir
    · exact hdirs id hd h0
    · have hfiles := hn.files id hd
      rw [h0] at hfiles
      exact absurd hid (by rw [show t.reopen.view.names id + gone id = _ from hfiles.symm]; decide)
  files := hn.files
  dirs := hn.dirs
  self := hn.self
  root := hn.root
  kept id hu _ h0 := absurd h0 ((used_reopen hs hn hlev).mp hu).2

end Reopen

/-- A mount loses no order as long as every directory has links. -/
theorem Orderly.reopen (h : Orderly t.view handles)
    (hdirs : ∀ id, (t.view.node id).isDir → (t.view.node id).nlink ≠ 0) (hlev : t.count = t.next) :
    Orderly t.reopen.view [] := by
  obtain ⟨hs, gone, hn⟩ := h
  exact ⟨slots_reopen hs hn hdirs hlev, gone, linked_reopen hs hn hdirs hlev⟩

end Spec
end BloomFS

/-
What the steps of the machine do to the view.

Each operation has one statement that says what a successful call does to the
outlines, the free list and the open counts, and that a call that returns an error
leaves the view as it was.
-/
import BloomFS.Spec.View

namespace BloomFS
namespace Spec

open Bytes Exec Dir Fs Store
open Dir.Segment (Distinct)

variable {env : Env} {t : State}

/-! ## Runs of the basic steps -/

theorem run_getNode {id : Nat} (hid : id < t.cap) : (getNode id).1 t = .ok (t.node id) t := by
  rw [getNode, Within.get_bind_run, if_neg (Nat.not_le.mpr hid)]
  rfl

theorem run_getNode_of_le {id : Nat} (hid : t.cap ≤ id) :
    (getNode id).1 t = .error (.err (.inode .outOfRange)) t := by
  rw [getNode, Within.get_bind_run, if_pos hid]
  rfl

theorem run_putNode {id : Nat} (hid : id < t.cap) (n : Node) :
    (putNode id n).1 t = .ok () (t.setNode id n) := by
  rw [putNode, Within.get_bind_run, if_neg (Nat.not_le.mpr hid)]
  rfl

theorem run_pay_put {id : Nat} {n : Node} {new : Payment} (hid : id < t.cap) (f : UInt64 → Node)
    (hf : f (env.clock t.ticks) = n) :
    (do
      pay new
      let c ← Spec.now env
      putNode id (f c) : Step Unit).1 t =
    .ok () ({ t with paid := t.paid ++ [new], ticks := t.ticks + 1 }.setNode id n) := by
  subst hf
  exact run_putNode (t := { t with paid := t.paid ++ [new], ticks := t.ticks + 1 }) hid _

theorem run_checkout (t : State) (id : Nat) :
    (checkout id).1 t =
      if t.cap ≤ id then .error (.err (.inode .outOfRange)) t
      else if (t.node id).isDir then .ok ⟨t.node id, (t.node id).pages, []⟩ t
      else .error (.err .notDir) t := by
  by_cases hid : t.cap ≤ id
  · rw [if_pos hid]
    exact bind_of_error (run_getNode_of_le hid)
  · rw [if_neg hid]
    refine (run_bind_of_ok (run_getNode (Nat.not_le.mp hid))).trans ?_
    by_cases hd : (t.node id).isDir
    · rw [if_pos hd, if_pos hd]
      rfl
    · rw [if_neg hd, if_neg hd]
      rfl

theorem run_flushPage (env : Env) (n : Node) {id p : Nat} {pages : List (List DirEntry)}
    {c : List DirEntry} (hid : id < t.cap)
    (hc : pages[p]? = some c) (hfit : pageUsed c ≤ dirPageSize)
    (hlen : p * dirPageSize + dirPageSize < 2 ^ 64) :
    (Spec.flushPage env id pages n p).1 t =
      .ok { n with
            pages := putPage n.pages p c
            mtime := env.clock t.ticks, ctime := env.clock t.ticks }
        ({ t with paid := t.paid ++ [Payment.dir (putPage n.pages p c)]
                  ticks := t.ticks + 1 }.setNode id
          { n with
            pages := putPage n.pages p c
            mtime := env.clock t.ticks, ctime := env.clock t.ticks }) := by
  unfold Spec.flushPage
  rw [hc]
  dsimp only
  rw [if_neg (by omega)]
  exact run_bind_of_ok (run_putNode (t := { t with
    paid := t.paid ++ [Payment.dir (putPage n.pages p c)], ticks := t.ticks + 1 }) hid _)

theorem run_reclaim {id : Nat} (n : Node) (hid : id < t.cap) :
    (Spec.reclaim id n).1 t =
      if n.generation.toNat + 1 < 2 ^ 32 then
        .ok () { t.setNode id { generation := n.generation + 1 } with free := id :: t.free }
      else .error .panic t := by
  unfold Spec.reclaim
  by_cases hg : n.generation.toNat + 1 < 2 ^ 32
  · have hsucc : (Spec.succ32 n.generation).1 t = .ok (n.generation + 1) t := by
      rw [Spec.succ32, if_pos hg]
      rfl
    rw [if_pos hg, run_bind_of_ok hsucc, run_bind_of_ok (run_putNode hid _)]
    rfl
  · have hsucc : (Spec.succ32 n.generation).1 t = .error .panic t := by
      rw [Spec.succ32, if_neg hg]
      rfl
    rw [if_neg hg]
    exact bind_of_error hsucc

theorem run_renew {id : Nat} (hid : id < t.cap) (n : Node) :
    (renew id n).1 t =
      .ok () { t.setNode id n with clean := t.clean && (t.node id).blob.isEmpty } := by
  unfold renew
  rw [run_bind_of_ok (run_getNode hid)]
  exact run_putNode (t := { t with clean := t.clean && (t.node id).blob.isEmpty }) hid n

/-! ## What the operations start from -/

/-- The pages of every directory are in order. -/
def Neat (t : State) : Prop := ∀ id, id < t.cap → (t.node id).isDir → Paged (t.node id).pages

/-- What the operations need of the state they start from. -/
structure Sane (t : State) : Prop where
  neat : Neat t
  free : ∀ id ∈ t.free, ¬ (t.node id).isDir
  fresh : ¬ (t.node t.next).isDir
  self : ∀ id, (t.node id).isDir → ∀ e ∈ (t.node id).entries, e.inode ≠ id

theorem mem_of_find {w : Work} {name : String} {id : Nat} (h : w.find name = some id) :
    ∃ e ∈ w.entries, e.name = name ∧ e.inode = id := by
  obtain ⟨e, he, rfl⟩ := Option.map_eq_some_iff.mp h
  exact ⟨e, List.mem_of_find?_eq_some he, by simpa using List.find?_some he, rfl⟩

theorem Sane.ne_of_find (hs : Sane t) {id parent : Nat} {name : String} (hd : (t.node parent).isDir)
    (h : Work.find ⟨t.node parent, (t.node parent).pages, []⟩ name = some id) : id ≠ parent := by
  obtain ⟨e, he, -, rfl⟩ := mem_of_find h
  exact hs.self parent hd e he

/-! ## Effects on the view -/

theorem view_setNode (t : State) (id : Nat) (n : Node) :
    (t.setNode id n).view = t.view.set id n.outline := by
  have hnode : (fun i => ((t.setNode id n).node i).outline) =
      Function.update (fun i => (t.node i).outline) id n.outline := by
    funext i
    by_cases hi : i = id
    · subst hi
      rw [node_setNode_self, Function.update_self]
    · rw [node_setNode_ne hi, Function.update_of_ne hi]
  unfold State.view View.set
  rw [hnode]
  rfl

/-- An error leaves the view as it was. -/
def Undone (t : State) (f : Fault Fs.Error) (t' : State) : Prop :=
  ∀ e, f = .err e → t'.view = t.view

theorem Undone.panic {t t' : State} : Undone t .panic t' := fun _ h => by cases h

theorem getNode_sat (id : Nat) :
    Sat (getNode id).1 t (fun n t' => t' = t ∧ id < t.cap ∧ n = t.node id)
      (fun _ t' => t' = t ∧ t.cap ≤ id) := by
  by_cases hid : t.cap ≤ id
  · unfold Sat
    rw [run_getNode_of_le hid]
    exact ⟨rfl, hid⟩
  · unfold Sat
    rw [run_getNode (Nat.not_le.mp hid)]
    exact ⟨rfl, Nat.not_le.mp hid, rfl⟩

theorem checkout_sat (id : Nat) :
    Sat (checkout id).1 t
      (fun w t' => t' = t ∧ id < t.cap ∧ (t.node id).isDir ∧ w = ⟨t.node id, (t.node id).pages, []⟩)
      (fun _ t' => t' = t) := by
  unfold Sat
  rw [run_checkout]
  by_cases hid : t.cap ≤ id
  · rw [if_pos hid]
  · rw [if_neg hid]
    by_cases hd : (t.node id).isDir
    · rw [if_pos hd]
      exact ⟨rfl, Nat.not_le.mp hid, hd, rfl⟩
    · rw [if_neg hd]

theorem flushPage_sat {id p : Nat} {pages : List (List DirEntry)} {n : Node} (hid : id < t.cap) :
    Sat (flushPage env id pages n p).1 t
      (fun n' t' => ∃ c, pages[p]? = some c ∧ pageUsed c ≤ dirPageSize ∧
        n'.outline = { n.outline with pages := putPage n.pages p c } ∧
        t'.view = t.view.set id n'.outline)
      (fun f _ => f = .panic) := by
  cases hc : pages[p]? with
  | none =>
    unfold flushPage
    rw [hc]
    exact sat_panic rfl
  | some c =>
    by_cases hbad : dirPageSize < pageUsed c ∨ 2 ^ 64 ≤ p * dirPageSize + dirPageSize
    · unfold flushPage
      rw [hc]
      dsimp only
      rw [if_pos hbad]
      exact sat_panic rfl
    · rw [not_or] at hbad
      unfold Sat
      rw [run_flushPage env n hid hc (by omega) (by omega)]
      exact ⟨c, rfl, by omega, rfl, view_setNode _ _ _⟩

theorem flushPages_sat {id : Nat} {pages : List (List DirEntry)} :
    ∀ (todo : List Nat) (n : Node) (t : State), todo ≠ [] → id < t.cap →
      (∀ i, i ∉ todo → n.pages[i]? = pages[i]?) →
      Sat (todo.foldlM (flushPage env id pages) n).1 t
        (fun _ t' => t'.view = t.view.set id { n.outline with pages := pages } ∧
          ∀ p ∈ todo, ∀ c, pages[p]? = some c → pageUsed c ≤ dirPageSize)
        (fun f _ => f = .panic)
  | [], _, _, h, _, _ => absurd rfl h
  | p :: rest, n, t, _, hid, hpages => by
    rw [List.foldlM_cons]
    refine sat_bind (flushPage_sat hid) ?_ (fun _ _ h => h)
    rintro n₁ t₁ ⟨c, hc, hfit, hout, hview⟩
    have hcap : t₁.cap = t.cap := congrArg View.cap hview
    have hpages₁ : n₁.pages = putPage n.pages p c := congrArg Outline.pages hout
    have hstep := putPage_step hc hpages
    rw [← hpages₁] at hstep
    have hfirst : ∀ c', pages[p]? = some c' → pageUsed c' ≤ dirPageSize := by
      intro c' hc'
      rw [hc] at hc'
      cases hc'
      exact hfit
    by_cases hrest : rest = []
    · subst hrest
      refine sat_pure ⟨?_, ?_⟩
      · have hall : n₁.pages = pages := List.ext_getElem? fun i => hstep i List.not_mem_nil
        rw [hview, hout, ← hpages₁, hall]
      · intro q hq
        obtain rfl := List.mem_singleton.mp hq
        exact hfirst
    · refine (flushPages_sat rest n₁ t₁ hrest (by rw [hcap]; exact hid) hstep).mono ?_
        (fun _ _ h => h)
      rintro _ t₂ ⟨hview₂, hfits⟩
      refine ⟨?_, ?_⟩
      · rw [hview₂, hview, View.set_set, hout]
      · intro q hq
        rcases List.mem_cons.mp hq with rfl | hq
        · exact hfirst
        · exact hfits q hq

theorem flush_sat (hl : env.Lawful) {id : Nat} {w : Work} (hid : id < t.cap) (hw : w.Tracked)
    (hd : w.dirty ≠ []) :
    Sat (flush env id w).1 t
      (fun _ t' => t'.view = t.view.set id { w.node.outline with pages := w.pages } ∧
        ∀ p ∈ w.dirty, ∀ c, w.pages[p]? = some c → pageUsed c ≤ dirPageSize)
      (fun f _ => f = .panic) := by
  have hperm := hl.order_perm t.orders w.dirty
  have hne : env.order t.orders w.dirty ≠ [] := by
    intro h0
    rw [h0] at hperm
    exact hd (List.perm_nil.mp hperm.symm)
  unfold flush
  refine sat_bind (Q := fun l t' => l = env.order t.orders w.dirty ∧
    t' = { t with orders := t.orders + 1 }) (E := fun f _ => f = .panic) ?_ ?_ (fun _ _ h => h)
  · exact ⟨rfl, rfl⟩
  · rintro _ _ ⟨rfl, rfl⟩
    refine sat_bind (flushPages_sat _ w.node { t with orders := t.orders + 1 } hne hid ?_) ?_
      (fun _ _ h => h)
    · intro i hi
      exact (hw.clean i fun hm => hi (hperm.mem_iff.mpr hm)).symm
    · rintro _ t' ⟨hview, hfits⟩
      exact sat_pure ⟨hview, fun p hp => hfits p (hperm.mem_iff.mpr hp)⟩

/-! ## Edited directories -/

/-- `w` is the directory `n` without the entries `out` and with the entries `new`. -/
structure Work.Edits (w : Work) (n : Node) (out new : List DirEntry) : Prop where
  node : w.node.outline = { n.outline with nlink := w.node.nlink }
  perm : (out ++ w.entries).Perm (new ++ n.entries)
  distinct : Distinct w.entries
  tracked : w.Tracked
  dirty : out ++ new ≠ [] → w.dirty ≠ []

section Edits

variable {w : Work} {n : Node} {out new : List DirEntry} {name : String} {id : Nat}

theorem Work.edits_checkout (h : Paged n.pages) : (⟨n, n.pages, []⟩ : Work).Edits n [] [] :=
  ⟨rfl, .refl _, h.distinct, Work.tracked_checkout n, fun h => absurd rfl h⟩

theorem Work.marked_ne_nil (w : Work) (p : Nat) : w.marked p ≠ [] :=
  List.ne_nil_of_mem (Work.mem_marked.mpr (.inl rfl))

theorem distinct_perm {l l' : List DirEntry} (h : l.Perm l') : Distinct l ↔ Distinct l' :=
  (h.map _).nodup_iff

theorem Work.Edits.add (h : w.Edits n out new) (hnew : w.find name = none) (id : Nat) :
    (w.add name id).Edits n out (⟨name, id⟩ :: new) where
  node := h.node
  perm := calc
    (out ++ (w.add name id).entries).Perm (out ++ ⟨name, id⟩ :: w.entries) :=
      (w.entries_add name id).symm.append_left _
    _ |>.Perm (⟨name, id⟩ :: (out ++ w.entries)) := List.perm_middle
    _ |>.Perm (⟨name, id⟩ :: new ++ n.entries) := h.perm.cons _
  distinct := by
    refine (distinct_perm (w.entries_add name id)).mp (List.nodup_cons.mpr ⟨?_, h.distinct⟩)
    intro hmem
    obtain ⟨e, he, hn⟩ := List.mem_map.mp hmem
    exact Work.find_eq_none_iff.mp hnew e he hn
  tracked := h.tracked.add name id
  dirty _ := w.marked_ne_nil _

theorem Work.Edits.del (h : w.Edits n out new) (hold : w.find name = some id) :
    (w.del name).Edits n (⟨name, id⟩ :: out) new := by
  have hmem := (Work.find_eq_some_iff h.distinct).mp hold
  have hentries : (w.del name).entries = w.entries.erase ⟨name, id⟩ := by
    rw [Work.entries_del]
    exact eraseP_eq_erase h.distinct hmem
  have hperm : (⟨name, id⟩ :: (w.del name).entries).Perm w.entries := by
    rw [hentries]
    exact (List.perm_cons_erase hmem).symm
  refine ⟨?_, ?_, ?_, h.tracked.del name, fun _ => ?_⟩
  · rw [Work.del_node]
    exact h.node
  · exact (List.perm_middle.symm.trans (hperm.append_left out)).trans h.perm
  · have hall := (distinct_perm hperm).mpr h.distinct
    exact (List.nodup_cons.mp hall).2
  · obtain ⟨p, hp⟩ := Option.isSome_iff_exists.mp (pageIdx_isSome_iff.mpr ⟨_, hmem, rfl⟩)
    rw [Work.del_of_some hp]
    exact w.marked_ne_nil p

theorem Work.Edits.withNlink (h : w.Edits n out new) (nlink : UInt32) :
    ({ w with node := { n with nlink := nlink } } : Work).Edits n out new where
  node := rfl
  perm := h.perm
  distinct := h.distinct
  tracked := h.tracked.withNode (congrArg Outline.pages h.node).symm
  dirty := h.dirty

/-- The pages of an edited directory are in order once the changed ones fit. -/
theorem Work.Edits.paged (h : w.Edits n out new) (hn : Paged n.pages)
    (hids : ∀ e ∈ new, e.inode < 2 ^ 64)
    (hfits : ∀ p ∈ w.dirty, ∀ c, w.pages[p]? = some c → pageUsed c ≤ dirPageSize) :
    Paged w.pages where
  distinct := h.distinct
  fits l hl := by
    obtain ⟨p, hp⟩ := List.mem_iff_getElem?.mp hl
    by_cases hd : p ∈ w.dirty
    · exact hfits p hd l hp
    · have hpages : w.node.pages = n.pages := congrArg Outline.pages h.node
      rw [h.tracked.clean p hd, hpages] at hp
      exact hn.fits l (List.mem_of_getElem? hp)
  ids l hl e he := by
    have hmem : e ∈ new ++ n.entries :=
      h.perm.subset (List.mem_append_right _ (List.mem_flatten.mpr ⟨l, hl, he⟩))
    rcases List.mem_append.mp hmem with hnew | hold
    · exact hids e hnew
    · obtain ⟨l', hl', he'⟩ := List.mem_flatten.mp hold
      exact hn.ids l' hl' e he'

end Edits

/-- The directory `o'` is `o` without the entries `out` and with the entries
`new`. -/
structure Edited (o : Outline) (out new : List DirEntry) (nlink : UInt32) (o' : Outline) :
    Prop where
  kind : o'.kind = o.kind
  nlink : o'.nlink = nlink
  data : o'.data = o.data
  perm : (out ++ o'.entries).Perm (new ++ o.entries)
  paged : Paged o'.pages
  generation : o'.generation = o.generation

theorem Edited.isDir {o o' : Outline} {out new : List DirEntry} {nlink : UInt32}
    (h : Edited o out new nlink o') : o'.isDir ↔ o.isDir := by
  unfold Outline.isDir
  rw [h.kind]

theorem flush_edits (hl : env.Lawful) {id : Nat} {w : Work} {n : Node} {out new : List DirEntry}
    (hid : id < t.cap) (hw : w.Edits n out new) (hne : out ++ new ≠ []) (hn : Paged n.pages)
    (hids : ∀ e ∈ new, e.inode < 2 ^ 64) :
    Sat (flush env id w).1 t
      (fun _ t' => ∃ o', Edited n.outline out new w.node.nlink o' ∧ t'.view = t.view.set id o')
      (fun f _ => f = .panic) := by
  refine (flush_sat hl hid hw.tracked (hw.dirty hne)).mono ?_ (fun _ _ h => h)
  rintro _ t' ⟨hview, hfits⟩
  have hkind : w.node.kind = n.kind := congrArg Outline.kind hw.node
  have hdata : w.node.data = n.data := congrArg Outline.data hw.node
  have hgen : w.node.generation.toNat = n.generation.toNat := congrArg Outline.generation hw.node
  refine ⟨{ w.node.outline with pages := w.pages },
    ⟨hkind, rfl, hdata, ?_, hw.paged hn hids hfits, hgen⟩, hview⟩
  exact hw.perm

end Spec
end BloomFS

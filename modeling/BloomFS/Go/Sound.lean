/-
What the name operations keep.

As long as no write fails, a resident directory is what is stored.  The gate then lets the
names of some directories pass, among them the root and every directory that one of them
lists.  An operation changes the entries of one directory at a time, and the gate by the same
name.  A rename brings no directory in from outside if the root leads to the old parent.
-/
import BloomFS.Go.Names
import BloomFS.Lib.Forest

namespace BloomFS
namespace Go

open Dir Exec Forest

variable {L : Lib} {f f' : FS L} {id d : Nat} {name : String} {h x : CachedDir} {g : Gate L}
  {S : Set Nat} {α : Type}

def FS.entries (f : FS L) (d : Nat) : List DirEntry :=
  if f.isDir d then (f.stored d).getD [] else []

theorem isDir_iff : f.isDir id = true ↔ id < f.cap ∧ (f.inodes id).kind = .dir :=
  decide_eq_true_iff

/-- No write fails, what is resident is what is stored, and every directory can be read. -/
structure Coherent (f : FS L) : Prop where
  quiet : f.faults = .none
  cached : ∀ id h, f.dcache id = some h →
    f.isDir id = true ∧ f.stored id = some h.entries ∧ h.in_.kind = .dir
  readable : ∀ id, f.isDir id = true → f.stored id ≠ none

theorem Coherent.entries (hc : Coherent f) (hres : f.dcache d = some h) :
    f.entries d = h.entries := by
  obtain ⟨hd, hst, -⟩ := hc.cached d h hres
  unfold FS.entries
  rw [if_pos hd, hst]
  rfl

/-- Name `n` is in directory `a`, which is one of `S`. -/
def FS.Named (f : FS L) (S : Set Nat) (a : Nat) (n : String) : Prop :=
  a ∈ S ∧ ∃ e ∈ f.entries a, e.name = n

/-- The gate lets the names of `S` pass. -/
structure Covers (f : FS L) (S : Set Nat) : Prop where
  coherent : Coherent f
  root : f.root ∈ S
  closed : ∀ a ∈ S, ∀ e ∈ f.entries a, f.isDir e.inode = true → e.inode ∈ S
  gate : f.gate.Complete (f.Named S)

theorem Covers.aside (hh : Covers f S) (free : List Nat) (next : Nat) (opens : Nat → Nat) :
    Covers { f with freeInodes := free, nextInode := next, openCount := opens } S :=
  ⟨⟨hh.coherent.quiet, hh.coherent.cached, hh.coherent.readable⟩, hh.root, hh.closed, hh.gate⟩

def Held (f : FS L) : Prop := ∃ S, Covers f S

/-- However the call ends, the gate lets such names pass. -/
abbrev Safe (x : Act L α) (f : FS L) : Prop := Sat x f (fun _ f' => Held f') fun _ f' => Held f'

theorem get_bind (k : FS L → Act L α) (f : FS L) : (get >>= k) f = k f f := rfl

/-- The rule for a step that goes through. -/
theorem sat_of_ok {β : Type} {x : Act L α} {k : α → Act L β} {a : α} {Q : β → FS L → Prop}
    {E : Fault Error → FS L → Prop} (hx : x f = .ok a f') (hk : Sat (k a) f' Q E) :
    Sat (x >>= k) f Q E := by
  unfold Sat
  rw [bind_of_ok hx]
  exact hk

/-- The rule for a last step that goes through. -/
theorem sat_done {x : Act L α} {a : α} {Q : α → FS L → Prop} {E : Fault Error → FS L → Prop}
    (hx : x f = .ok a f') (hq : Q a f') : Sat x f Q E := by
  unfold Sat
  rw [hx]
  exact hq

/-! ## Opening -/

/-- Directories became resident, and nothing else. -/
structure Opened (f f' : FS L) : Prop where
  rest : f' = { f with dcache := f'.dcache }
  keeps : ∀ id h, f.dcache id = some h → f'.dcache id = some h
  coherent : Coherent f'

theorem Opened.refl (hc : Coherent f) : Opened f f := ⟨rfl, fun _ _ h => h, hc⟩

theorem Opened.trans {f'' : FS L} (ho : Opened f f') (ho' : Opened f' f'') : Opened f f'' := by
  refine ⟨?_, fun id h hres => ho'.keeps id h (ho.keeps id h hres), ho'.coherent⟩
  rw [ho'.rest, ho.rest]

theorem Opened.entries (ho : Opened f f') : f'.entries = f.entries := by
  rw [ho.rest]
  rfl

theorem Covers.opened (hh : Covers f S) (ho : Opened f f') : Covers f' S := by
  obtain ⟨hrest, -, hc⟩ := ho
  rw [hrest] at hc ⊢
  exact ⟨hc, hh.root, hh.closed, hh.gate⟩

theorem getInode_sat : Sat (getInode id) f
    (fun in_ f' => f' = f ∧ id < f.cap ∧ in_ = f.inodes id) fun _ f' => f' = f :=
  sat_get_bind (sat_ite (fun hlt => sat_pure ⟨rfl, hlt, rfl⟩) fun _ => sat_fail rfl)

theorem Covers.getInode (hh : Covers f S) {k : Inode → Act L α}
    (hk : id < f.cap → Safe (k (f.inodes id)) f) : Safe (getInode id >>= k) f := by
  refine sat_bind getInode_sat (fun in_ f' hq => ?_) fun _ _ he => he ▸ ⟨S, hh⟩
  obtain ⟨rfl, hlt, rfl⟩ := hq
  exact hk hlt

theorem openDir_resident (hres : f.dcache id = some h) : openDir id f = .ok h f := by
  unfold Go.openDir
  rw [get_bind, hres]
  rfl

theorem openDir_stored {es : List DirEntry} (hres : f.dcache id = none) (hd : f.isDir id = true)
    (hst : f.stored id = some es) : openDir id f = .ok ⟨f.inodes id, es⟩
      { f with dcache := Function.update f.dcache id (some ⟨f.inodes id, es⟩) } := by
  obtain ⟨hlt, hk⟩ := isDir_iff.mp hd
  have hget : Go.getInode id f = .ok (f.inodes id) f := by
    show (if id < f.cap then _ else _ : Act L Inode) f = _
    rw [if_pos hlt]
    rfl
  unfold Go.openDir
  rw [get_bind, hres]
  refine (bind_of_ok hget).trans ?_
  rw [if_neg (not_not.mpr hk), hst]
  rfl

theorem openDir_sat (hc : Coherent f) (id : Nat) :
    Sat (openDir id) f (fun h f' => Opened f f' ∧ f'.dcache id = some h) fun _ f' => f' = f := by
  cases hres : f.dcache id with
  | some h => exact sat_done (openDir_resident hres) ⟨.refl hc, hres⟩
  | none =>
    cases hd : f.isDir id with
    | true =>
      obtain ⟨es, hst⟩ := Option.ne_none_iff_exists'.mp (hc.readable id hd)
      refine sat_done (openDir_stored hres hd hst)
        ⟨⟨rfl, fun a x hx => ?_, hc.quiet, fun a x hx => ?_, hc.readable⟩, Function.update_self ..⟩
      · refine (Function.update_of_ne (fun heq => ?_) ..).trans hx
        rw [heq, hres] at hx
        cases hx
      · change Function.update f.dcache id _ a = _ at hx
        by_cases heq : a = id
        · subst heq
          rw [Function.update_self] at hx
          cases hx
          exact ⟨hd, hst, (isDir_iff.mp hd).2⟩
        · rw [Function.update_of_ne heq] at hx
          exact hc.cached a x hx
    | false =>
      refine sat_get_bind ?_
      rw [hres]
      refine sat_bind getInode_sat (fun in_ f' hq => ?_) fun _ _ he => he
      obtain ⟨rfl, hlt, rfl⟩ := hq
      refine sat_ite (fun _ => sat_fail rfl) fun hk => ?_
      rw [isDir_iff.mpr ⟨hlt, not_not.mp hk⟩] at hd
      cases hd

theorem Covers.openDir (hh : Covers f S) {k : CachedDir → Act L α}
    (hk : ∀ h f', Opened f f' → f'.dcache d = some h → Safe (k h) f') :
    Safe (openDir d >>= k) f :=
  sat_bind (openDir_sat hh.coherent d) (fun h f' hq => hk h f' hq.1 hq.2)
    fun _ _ he => he ▸ ⟨S, hh⟩

/-! ## Writes -/

/-- The slot of inode `id` was written, with data that decode to `es`. -/
structure Wrote (id : Nat) (in_ : Inode) (es : Option (List DirEntry)) (f f' : FS L) : Prop where
  root : f'.root = f.root
  cap : f'.cap = f.cap
  faults : f'.faults = f.faults
  inodes : f'.inodes = Function.update f.inodes id in_
  stored : f'.stored = Function.update f.stored id es
  dcache : ∀ a, a ≠ id → f'.dcache a = f.dcache a

section Wrote

variable {in_ : Inode} {es : Option (List DirEntry)} {a : Nat} {e : DirEntry}

theorem Wrote.isDir_of_ne (hw : Wrote id in_ es f f') (hne : a ≠ id) :
    f'.isDir a = f.isDir a := by
  unfold FS.isDir
  rw [hw.cap, hw.inodes, Function.update_of_ne hne]

theorem Wrote.isDir_eq (hw : Wrote id in_ es f f') (hk : in_.kind = (f.inodes id).kind) :
    f'.isDir = f.isDir := by
  funext a
  by_cases heq : a = id
  · subst heq
    unfold FS.isDir
    rw [hw.cap, hw.inodes, Function.update_self, hk]
  · exact hw.isDir_of_ne heq

theorem Wrote.mem_entries (hw : Wrote id in_ es f f') (he : e ∈ f'.entries a) :
    a = id ∧ f'.isDir id = true ∧ e ∈ es.getD [] ∨ a ≠ id ∧ e ∈ f.entries a := by
  unfold FS.entries at he
  rw [hw.stored] at he
  by_cases heq : a = id
  · subst heq
    rw [Function.update_self] at he
    split at he
    · exact .inl ⟨rfl, ‹_›, he⟩
    · cases he
  · rw [hw.isDir_of_ne heq, Function.update_of_ne heq] at he
    exact .inr ⟨heq, he⟩

/-- The directories of `S'` are those of `S`, and it may be the inode that was written. -/
theorem Wrote.covers (hw : Wrote id in_ es f f') (hh : Covers f S) {S' : Set Nat} (hS : S ⊆ S')
    (hsub : ∀ a ∈ S', a ∈ S ∨ a = id)
    (hself : ∀ h, f'.dcache id = some h →
      f'.isDir id = true ∧ es = some h.entries ∧ h.in_.kind = .dir)
    (hdir : f'.isDir id = true → es ≠ none ∧ (f.isDir id = true ∨ id ∈ S'))
    (hnew : id ∈ S' → f'.isDir id = true → ∀ e ∈ es.getD [], f'.isDir e.inode = true →
      e.inode ∈ S')
    (hg : f'.gate.Complete (f'.Named S')) : Covers f' S' := by
  have hc := hh.coherent
  refine ⟨⟨hw.faults.trans hc.quiet, fun a x hx => ?_, fun a ha => ?_⟩, hw.root ▸ hS hh.root,
    fun a ha e he hb => ?_, hg⟩
  · by_cases heq : a = id
    · subst heq
      rw [hw.stored, Function.update_self]
      exact hself x hx
    · rw [hw.isDir_of_ne heq, hw.stored, Function.update_of_ne heq]
      exact hc.cached a x ((hw.dcache a heq).symm.trans hx)
  · rw [hw.stored]
    by_cases heq : a = id
    · subst heq
      rw [Function.update_self]
      exact (hdir ha).1
    · rw [Function.update_of_ne heq]
      exact hc.readable a ((hw.isDir_of_ne heq).symm.trans ha)
  · rcases hw.mem_entries he with ⟨rfl, hd, he⟩ | ⟨hne, he⟩
    · exact hnew ha hd e he hb
    · have hin := hh.closed a ((hsub a ha).resolve_right hne) e he
      by_cases heq : e.inode = id
      · rw [heq] at hb hin ⊢
        exact (hdir hb).2.elim (fun hold => hS (hin hold)) fun hmem => hmem
      · exact hS (hin ((hw.isDir_of_ne heq).symm.trans hb))

end Wrote

/-- An inode without data is put. -/
def FS.fresh (f : FS L) (id : Nat) (in_ : Inode) : FS L :=
  { f with
    inodes := Function.update f.inodes id in_
    stored := Function.update f.stored id (some [])
    count := max f.count (id + 1) }

theorem putFresh_eq (hid : id < f.cap) (in_ : Inode) :
    putFresh id in_ f = .ok () (f.fresh id in_) := by
  show (if id < f.cap then _ else _ : Act L Unit) f = _
  rw [if_pos hid]
  rfl

theorem wrote_fresh (f : FS L) (id : Nat) (in_ : Inode) :
    Wrote id in_ (some []) f (f.fresh id in_) :=
  ⟨rfl, rfl, rfl, rfl, rfl, fun _ _ => rfl⟩

/-- Only a directory may enlarge `S`. -/
theorem Covers.fresh (hh : Covers f S) (hres : f.dcache id = none) {in_ : Inode} {S' : Set Nat}
    (hS : S ⊆ S') (hsub : ∀ a ∈ S', a ∈ S ∨ a = id) (hid : in_.kind = .dir → id ∈ S') :
    Covers (f.fresh id in_) S' := by
  have hw := wrote_fresh f id in_
  refine hw.covers hh hS hsub (fun h hx => ?_) (fun hd => ⟨Option.some_ne_none _, .inr (hid ?_)⟩)
    (fun _ _ e he => absurd he List.not_mem_nil) (hh.gate.mono fun a n hn => ?_)
  · cases hres.symm.trans hx
  · have hk := (isDir_iff.mp hd).2
    rw [hw.inodes, Function.update_self] at hk
    exact hk
  · obtain ⟨ha, e, he, rfl⟩ := hn
    rcases hw.mem_entries he with ⟨-, -, he⟩ | ⟨hne, he⟩
    · cases he
    · exact ⟨(hsub a ha).resolve_right hne, e, he, rfl⟩

theorem Covers.evict (hh : Covers f S) (id : Nat) : Covers (f.evict id) S := by
  refine ⟨⟨hh.coherent.quiet, fun a x hx => ?_, hh.coherent.readable⟩, hh.root, hh.closed, hh.gate⟩
  change Function.update f.dcache id none a = some x at hx
  by_cases heq : a = id
  · subst heq
    rw [Function.update_self] at hx
    cases hx
  · rw [Function.update_of_ne heq] at hx
    exact hh.coherent.cached a x hx

/-- Inode `id` was changed, and no directory got an entry. -/
structure Dropped (id : Nat) (f f' : FS L) : Prop where
  entries : ∀ a, f'.entries a ⊆ f.entries a
  dcache : ∀ a, a ≠ id → f'.dcache a = f.dcache a
  dirs : ∀ a, f'.isDir a = true → f.isDir a = true

theorem safe_of_sat {x : Act L α} {P : FS L → Prop}
    (h : Sat x f (fun _ f' => Covers f' S ∧ P f') fun _ f' => Covers f' S) : Safe x f :=
  h.mono (fun _ _ hq => ⟨S, hq.1⟩) fun _ _ he => ⟨S, he⟩

theorem reclaim_sat (hh : Covers f S) (hid : id < f.cap) :
    Sat (reclaim id) f (fun _ f' => Covers f' S ∧ Dropped id f f') fun _ f' => Covers f' S := by
  have hheld : Covers ((f.evict id).fresh id ⟨.regular, 0⟩) S :=
    (hh.evict id).fresh (Function.update_self ..) (fun _ ha => ha) (fun _ => .inl) nofun
  have hw := wrote_fresh (f.evict id) id ⟨.regular, 0⟩
  refine sat_get_bind ?_
  rw [hh.coherent.quiet]
  refine sat_modify_bind (sat_of_ok (putFresh_eq (f := f.evict id) hid _) (sat_modify
    ⟨hheld.aside _ _ _, fun a e he => ?_, fun a hne => Function.update_of_ne hne ..,
      fun a ha => ?_⟩))
  · rcases hw.mem_entries he with ⟨-, -, he⟩ | ⟨-, he⟩
    · cases he
    · exact he
  · by_cases heq : a = id
    · have hk := (isDir_iff.mp ha).2
      subst heq
      change (Function.update f.inodes a _ a).kind = .dir at hk
      rw [Function.update_self] at hk
      cases hk
    · exact (hw.isDir_of_ne heq).symm.trans ha

/-- An inode is put that is a directory if it was one. -/
theorem putInode_sat (hh : Covers f S) (in_ : Inode) (hk : in_.kind = (f.inodes id).kind) :
    Sat (putInode id in_) f (fun _ f' => Covers f' S ∧ f'.dcache = f.dcache ∧ Dropped id f f')
      fun _ f' => Covers f' S := by
  refine sat_get_bind (sat_ite (fun _ => ?_) fun _ => sat_fail hh)
  have hw : Wrote id in_ (f.stored id) f { f with
      inodes := Function.update f.inodes id in_, count := max f.count (id + 1) } :=
    ⟨rfl, rfl, rfl, rfl, (Function.update_eq_self ..).symm, fun _ _ => rfl⟩
  have hdir := hw.isDir_eq hk
  have hent : FS.entries { f with
      inodes := Function.update f.inodes id in_, count := max f.count (id + 1) } = f.entries := by
    unfold FS.entries
    rw [hdir]
  refine ⟨⟨⟨hh.coherent.quiet, hdir ▸ hh.coherent.cached, hdir ▸ hh.coherent.readable⟩, hh.root,
    hdir ▸ hent ▸ hh.closed, hh.gate.mono fun a n hn => ?_⟩, rfl, fun a => ?_, fun _ _ => rfl,
    hdir ▸ fun _ h => h⟩
  · unfold FS.Named at hn
    rwa [hent] at hn
  · rw [hent]
    exact List.Subset.refl _

theorem dropLink_sat (hh : Covers f S) (hid : id < f.cap) {in_ : Inode}
    (hk : in_.kind = (f.inodes id).kind) :
    Sat (dropLink id in_) f (fun _ f' => Covers f' S ∧ Dropped id f f') fun _ f' => Covers f' S :=
  sat_get_bind (sat_ite (fun _ => reclaim_sat hh hid) fun _ =>
    (putInode_sat hh { in_ with nlink := in_.nlink - 1 } hk).mono
      (fun _ _ hq => ⟨hq.1, hq.2.2⟩) fun _ _ he => he)

/-! ## Edits -/

/-- A directory is changed and flushed. -/
def FS.edit (f : FS L) (d : Nat) (h : CachedDir) (g : Gate L) : FS L :=
  { f with
    dcache := Function.update f.dcache d (some h)
    gate := g
    inodes := Function.update f.inodes d h.in_
    stored := Function.update f.stored d (some h.entries)
    count := max f.count (d + 1)
    flushes := f.flushes + 1 }

theorem flushDir_eq (hq : f.faults = .none) : flushDir d h f = .ok () { f with
    inodes := Function.update f.inodes d h.in_
    stored := Function.update f.stored d (some h.entries)
    count := max f.count (d + 1)
    flushes := f.flushes + 1 } := by
  unfold flushDir
  rw [get_bind, hq]
  rfl

theorem setDir_eq (hres : f.dcache d = some h) (x : CachedDir) :
    setDir d x f = .ok () { f with dcache := Function.update f.dcache d (some x) } := by
  show EStateM.Result.ok () (if (f.dcache d).isSome then _ else _) = _
  rw [hres]
  rfl

theorem update_eq (hq : f.faults = .none) (hres : f.dcache d = some h) (k : Gate L → Gate L) :
    update d x k f = .ok () (f.edit d x (k f.gate)) :=
  (bind_of_ok (setDir_eq hres x)).trans (flushDir_eq
    (f := { f with dcache := Function.update f.dcache d (some x), gate := k f.gate }) hq)

/-- A directory is changed.  The directories that it lists now it listed before, or they are
in `S`, and `named` has the names. -/
theorem Covers.edit (hh : Covers f S) (hres : f.dcache d = some h) (hk : x.in_.kind = .dir)
    (hnew : ∀ e ∈ x.entries, f.isDir e.inode = true → e ∈ h.entries ∨ e.inode ∈ S)
    {named : Nat → String → Prop} (hnamed : d ∈ S → ∀ e ∈ x.entries, named d e.name)
    (hrest : ∀ a n, a ≠ d → f.Named S a n → named a n) (hg : g.Complete named) :
    Covers (f.edit d x g) S ∧ ∀ a n, (f.edit d x g).Named S a n → named a n := by
  obtain ⟨hd, -, -⟩ := hh.coherent.cached d h hres
  have hw : Wrote d x.in_ (some x.entries) f (f.edit d x g) :=
    ⟨rfl, rfl, rfl, rfl, rfl, fun _ hne => Function.update_of_ne hne ..⟩
  have hdir := hw.isDir_eq (hk.trans (isDir_iff.mp hd).2.symm)
  have hall : ∀ a n, (f.edit d x g).Named S a n → named a n := by
    rintro a n ⟨ha, e, he, rfl⟩
    rcases hw.mem_entries he with ⟨rfl, -, hx⟩ | ⟨hne, he⟩
    · exact hnamed ha e hx
    · exact hrest a e.name hne ⟨ha, e, he, rfl⟩
  refine ⟨hw.covers hh (fun _ ha => ha) (fun _ => .inl) (fun y hy => ?_)
    (fun _ => ⟨Option.some_ne_none _, .inl hd⟩) (fun hmem _ e he hb => ?_) (hg.mono hall), hall⟩
  · cases (Function.update_self ..).symm.trans hy
    exact ⟨hdir ▸ hd, rfl, hk⟩
  · rw [hdir] at hb
    rcases hnew e he hb with he | he
    · rw [← hh.coherent.entries hres] at he
      exact hh.closed d hmem e he hb
    · exact he

/-- The low word of a name is no other name's. -/
def Apart (L : Lib) (named : Nat → String → Prop) (d : Nat) (name : String) : Prop :=
  ∀ a n, named a n → (a, n) ≠ (d, name) → (L.key a n).2 ≠ (L.key d name).2

theorem Apart.remove {named : Nat → String → Prop} (ha : Apart L named d name)
    (hg : g.Complete named) :
    (g.remove d name).Complete fun a n => named a n ∧ (a, n) ≠ (d, name) :=
  hg.remove (fun a n hn => ha a n hn.1 hn.2) fun _ _ hn => hn.1

theorem Covers.named_of_mem (hh : Covers f S) (hres : f.dcache d = some h) (hd : d ∈ S)
    {e : DirEntry} (he : e ∈ h.entries) : f.Named S d e.name :=
  ⟨hd, e, hh.coherent.entries hres ▸ he, rfl⟩

/-- A directory gets a name, where `x` and `g` may lack what the name replaces. -/
theorem Covers.insert (hh : Covers f S) (hres : f.dcache d = some h) (hk : x.in_.kind = .dir)
    (hsub : ∀ e ∈ x.entries, e ∈ h.entries ∨ e = ⟨name, id⟩) (hid : f.isDir id = true → id ∈ S)
    (hg : g.Complete fun a n => f.Named S a n ∨ (a, n) = (d, name)) :
    Covers (f.edit d x g) S ∧
      ∀ a n, (f.edit d x g).Named S a n → f.Named S a n ∨ (a, n) = (d, name) := by
  refine hh.edit hres hk (fun e he hb => ?_) (fun hd e he => ?_) (fun a n _ hn => .inl hn) hg
  · rcases hsub e he with he | rfl
    · exact .inl he
    · exact .inr (hid hb)
  · rcases hsub e he with he | rfl
    · exact .inl (hh.named_of_mem hres hd he)
    · exact .inr rfl

theorem Covers.delete (hh : Covers f S) (hres : f.dcache d = some h) (hk : x.in_.kind = .dir)
    (hsub : ∀ e ∈ x.entries, e ∈ h.entries ∧ e.name ≠ name) {named : Nat → String → Prop}
    (hnamed : ∀ a n, f.Named S a n → named a n) (hg : g.Complete named)
    (hapart : Apart L named d name) : Covers (f.edit d x (g.remove d name)) S :=
  (hh.edit hres hk (fun e he _ => .inl (hsub e he).1)
    (fun hd e he => ⟨hnamed d _ (hh.named_of_mem hres hd (hsub e he).1),
      fun heq => (hsub e he).2 (Prod.mk.inj heq).2⟩)
    (fun a n hne hn => ⟨hnamed a n hn, fun heq => hne (Prod.mk.inj heq).1⟩) (hapart.remove hg)).1

/-! ## The operations -/

theorem CachedDir.mem_of_find (hf : h.find name = some id) : ⟨name, id⟩ ∈ h.entries := by
  obtain ⟨e, he, rfl⟩ := Option.map_eq_some_iff.mp hf
  have hname : e.name = name := by simpa using List.find?_some he
  rw [← hname]
  exact List.mem_of_find?_eq_some he

theorem CachedDir.mem_add {e : DirEntry} (he : e ∈ (h.add name id).entries) :
    e ∈ h.entries ∨ e = ⟨name, id⟩ := by
  unfold add at he
  split at he
  · exact .inl he
  · simpa using he

theorem CachedDir.in_add : (h.add name id).in_ = h.in_ := by
  unfold add
  split <;> rfl

theorem CachedDir.mem_del {e : DirEntry} :
    e ∈ (h.del name).entries ↔ e ∈ h.entries ∧ e.name ≠ name := by
  unfold del
  simp

/-- The id that is handed out next. -/
def FS.nextId (f : FS L) : Option Nat :=
  match f.freeInodes with
  | id :: _ => some id
  | [] => if f.cap ≤ f.nextInode then none else some f.nextInode

theorem allocInode_sat : Sat allocInode f (fun id f' => f.nextId = some id ∧
    ∃ free next, f' = { f with freeInodes := free, nextInode := next }) fun _ f' => f' = f := by
  refine sat_get_bind ?_
  unfold FS.nextId
  cases hfree : f.freeInodes with
  | cons id rest => exact ⟨rfl, rest, f.nextInode, rfl⟩
  | nil =>
    refine sat_ite (fun _ => sat_fail rfl) fun hle => ?_
    rw [if_neg hle]
    exact ⟨rfl, [], f.nextInode + 1, rfl⟩

theorem createLocked_safe (hL : L.Lawful) (hh : Held f)
    (hfresh : ∀ id, f.nextId = some id → f.isDir id = false) (parent : Nat) (name : String)
    (typ : Kind) : Safe (createLocked parent name typ) f := by
  obtain ⟨S, hh⟩ := hh
  refine hh.openDir fun h f₁ ho hres => ?_
  have hh₁ := hh.opened ho
  refine sat_ite (fun _ => sat_fail ⟨S, hh₁⟩) fun _ => ?_
  refine sat_bind allocInode_sat (fun id f₂ hq => ?_) fun _ _ he => he ▸ ⟨S, hh₁⟩
  obtain ⟨hid, free, next, rfl⟩ := hq
  have hnone : f₁.dcache id = none := by
    by_contra hne
    obtain ⟨x, hx⟩ := Option.ne_none_iff_exists'.mp hne
    have hdir := (hh₁.coherent.cached id x hx).1
    rw [ho.rest] at hid hdir
    cases (hfresh id hid).symm.trans hdir
  have hh₂ := hh₁.aside free next f₁.openCount
  refine hh₂.getInode fun hlt => sat_of_ok (putFresh_eq hlt _) ?_
  have hh₃ : Covers (FS.fresh { f₁ with freeInodes := free, nextInode := next } id
      ⟨typ, if typ = .dir then 2 else 1⟩) (insert id S) :=
    hh₂.fresh hnone (Set.subset_insert id S) (fun a ha => ha.symm) fun _ => Set.mem_insert id S
  refine sat_of_ok (update_eq hh₃.coherent.quiet hres _) (sat_pure ⟨_, (hh₃.insert
    (x := (h.add name id).links _) hres ?_ (fun e he => CachedDir.mem_add he)
    (fun _ => Set.mem_insert id S) (hh₃.gate.add hL fun _ _ hp => hp)).1⟩)
  show (h.add name id).in_.kind = .dir
  rw [CachedDir.in_add]
  exact (hh₁.coherent.cached parent h hres).2.2

/-- The name in `d` shares its low word with no other name of a directory. -/
def FS.Apart (f : FS L) (d : Nat) (name : String) : Prop :=
  ∀ a < f.cap, ∀ e ∈ f.entries a, (a, e.name) ≠ (d, name) → (L.key a e.name).2 ≠ (L.key d name).2

theorem FS.Apart.named (ha : f.Apart d name) (ho : Opened f f') (S : Set Nat) :
    Go.Apart L (f'.Named S) d name := by
  rintro a n ⟨-, e, he, rfl⟩ hne
  rw [ho.entries] at he
  refine ha a ?_ e he hne
  by_contra hle
  unfold FS.entries at he
  rw [if_neg fun hd => hle (isDir_iff.mp hd).1] at he
  cases he

theorem unlink_safe (hh : Held f) (parent : Nat) (name : String) (hapart : f.Apart parent name) :
    Safe (unlink parent name) f := by
  obtain ⟨S, hh⟩ := hh
  refine hh.openDir fun h f₁ ho hres => ?_
  have hh₁ := hh.opened ho
  obtain ⟨hd, -, hk⟩ := hh₁.coherent.cached parent h hres
  cases hfind : h.find name with
  | none => exact sat_fail ⟨S, hh₁⟩
  | some id =>
    refine hh₁.getInode fun hlt => sat_ite (fun _ => sat_fail ⟨S, hh₁⟩) fun hfile => ?_
    have hheld := hh₁.delete (x := h.del name) hres hk (fun e => CachedDir.mem_del.mp)
      (fun _ _ hn => hn) hh₁.gate (hapart.named ho S)
    refine sat_of_ok (update_eq hh₁.coherent.quiet hres _) (safe_of_sat (dropLink_sat hheld hlt ?_))
    refine congrArg Inode.kind (Function.update_of_ne (fun heq => hfile ?_) ..).symm
    rw [heq]
    exact (isDir_iff.mp hd).2

theorem rmdir_safe (hh : Held f) (parent : Nat) (name : String) (hapart : f.Apart parent name) :
    Safe (rmdir parent name) f := by
  obtain ⟨S, hh⟩ := hh
  refine hh.openDir fun h f₁ ho hres => ?_
  have hh₁ := hh.opened ho
  cases hfind : h.find name with
  | none => exact sat_fail ⟨S, hh₁⟩
  | some id =>
    refine hh₁.getInode fun hlt => sat_ite (fun _ => sat_fail ⟨S, hh₁⟩) fun _ => ?_
    refine hh₁.openDir fun ch f₂ ho₂ _ => ?_
    have hh₂ := hh₁.opened ho₂
    refine sat_ite (fun _ => sat_fail ⟨S, hh₂⟩) fun _ => ?_
    have hpres := ho₂.keeps parent h hres
    have hheld := hh₂.delete (x := (h.del name).links (· - 1)) hpres
      (hh₂.coherent.cached parent h hpres).2.2 (fun e => CachedDir.mem_del.mp) (fun _ _ hn => hn)
      hh₂.gate (hapart.named (ho.trans ho₂) S)
    refine sat_of_ok (update_eq hh₂.coherent.quiet hpres _) (safe_of_sat (reclaim_sat hheld ?_))
    rw [ho₂.rest]
    exact hlt

theorem link_safe (hL : L.Lawful) (hh : Held f) (parent : Nat) (name : String) (target : Nat) :
    Safe (link parent name target) f := by
  obtain ⟨S, hh⟩ := hh
  refine hh.getInode fun hlt => sat_ite (fun _ => sat_fail ⟨S, hh⟩) fun hk => ?_
  refine hh.openDir fun h f₁ ho hres => ?_
  have hh₁ := hh.opened ho
  refine sat_ite (fun _ => sat_fail ⟨S, hh₁⟩) fun _ => ?_
  have hin : f₁.inodes = f.inodes := by rw [ho.rest]
  refine sat_bind (putInode_sat hh₁ _ (by rw [hin])) (fun _ f₂ hq => ?_) fun _ _ he => ⟨S, he⟩
  obtain ⟨hh₂, hcache, hdrop⟩ := hq
  rw [← hcache] at hres
  refine sat_done (update_eq hh₂.coherent.quiet hres _) ⟨S, (hh₂.insert hres ?_
    (fun e he => CachedDir.mem_add he) (fun hd => ?_) (hh₂.gate.add hL fun _ _ hp => hp)).1⟩
  · rw [CachedDir.in_add]
    exact (hh₂.coherent.cached parent h hres).2.2
  · have hd := (isDir_iff.mp (hdrop.dirs target hd)).2
    rw [hin] at hd
    exact absurd hd hk

/-! ## Renames -/

theorem pushDirs_sat (es : List DirEntry) :
    Sat (pushDirs es) f (fun _ f' => f' = f) fun _ f' => f' = f := by
  induction es with
  | nil => exact sat_pure rfl
  | cons e es ih =>
    refine sat_bind getInode_sat (fun in_ f₁ hq => ?_) fun _ _ he => he
    obtain ⟨rfl, -, -⟩ := hq
    exact sat_bind ih (fun _ _ he => sat_pure he) fun _ _ he => he

theorem dirSubtreeContains_sat {target fuel : Nat} {stack : List Nat} (hc : Coherent f) :
    Sat (dirSubtreeContains target fuel stack) f (fun _ f' => Opened f f')
      fun _ f' => Opened f f' := by
  induction fuel generalizing f stack with
  | zero => exact Opened.refl hc
  | succ fuel ih =>
    cases stack with
    | nil => exact Opened.refl hc
    | cons d stack =>
      refine sat_ite (fun _ => sat_pure (.refl hc)) fun _ => ?_
      refine sat_bind (openDir_sat hc d) (fun h f₁ hq => ?_) fun _ _ he => he.symm ▸ .refl hc
      refine sat_bind (pushDirs_sat h.entries) (fun pushed f₂ he => ?_) fun _ _ he => he ▸ hq.1
      subst he
      exact (ih hq.1.coherent).mono (fun _ _ ho => hq.1.trans ho) fun _ _ ho => hq.1.trans ho

theorem checkLoop_sat (hc : Coherent f) (fuel src dst id : Nat) :
    Sat (checkLoop fuel src dst id) f (fun _ f' => Opened f f') fun _ f' => Opened f f' := by
  refine sat_ite (fun _ => sat_fail (.refl hc)) fun _ => ?_
  refine sat_ite (fun _ => sat_pure (.refl hc)) fun _ => ?_
  refine sat_bind getInode_sat (fun in_ f₁ hq => ?_) fun _ _ he => he.symm ▸ .refl hc
  obtain ⟨rfl, -, -⟩ := hq
  refine sat_ite (fun _ => ?_) fun _ => sat_pure (.refl hc)
  exact sat_bind (dirSubtreeContains_sat hc)
    (fun _ _ ho => sat_ite (fun _ => sat_fail ho) fun _ => sat_pure ho) fun _ _ ho => ho

section Rename

variable {src dst : Nat} {sn dn : String} {sh dh : CachedDir}

/-- A name is moved, where `x` and `g` are the new directory and the gate without what the name
replaces. -/
theorem moveName_safe (hh : Covers f S) (hsrc : f.dcache src = some sh)
    (hdst : f.dcache dst = some dh) (hsub : ∀ e ∈ x.entries, e ∈ dh.entries) (hin : x.in_ = dh.in_)
    (hid : f.isDir id = true → id ∈ S)
    (hg : (g.add dst dn).Complete fun a n => f.Named S a n ∨ (a, n) = (dst, dn))
    (hapart : Apart L (fun a n => f.Named S a n ∨ (a, n) = (dst, dn)) src sn) :
    Safe (moveName src sn sh dst dn x id) { f with gate := g } := by
  have hkx : (x.add dn id).in_.kind = .dir := by
    rw [CachedDir.in_add, hin]
    exact (hh.coherent.cached dst dh hdst).2.2
  have hadd : ∀ e ∈ (x.add dn id).entries, e ∈ dh.entries ∨ e = ⟨dn, id⟩ :=
    fun e he => (CachedDir.mem_add he).imp_left (hsub e)
  have hq := hh.coherent.quiet
  refine sat_modify_bind ?_
  by_cases heq : dst = src
  · subst heq
    rw [if_pos rfl, if_pos rfl]
    refine sat_of_ok (setDir_eq (h := dh) ?_ _) (sat_done (flushDir_eq hq) ⟨S, (hh.edit
      (x := (x.add dn id).del sn) hdst hkx (fun e he hb => ?_) (fun hd e he => ?_)
      (fun a n hne hn => ⟨.inl hn, fun heq => hne (Prod.mk.inj heq).1⟩) (hapart.remove hg)).1⟩)
    · exact hdst
    · refine (hadd e (CachedDir.mem_del.mp he).1).imp_right ?_
      rintro rfl
      exact hid hb
    · obtain ⟨he, hne⟩ := CachedDir.mem_del.mp he
      refine ⟨(hadd e he).imp (hh.named_of_mem hdst hd) fun he => ?_,
        fun heq => hne (Prod.mk.inj heq).2⟩
      rw [he]
  · rw [if_neg heq, if_neg heq]
    obtain ⟨hheld, hnamed⟩ := hh.insert hdst hkx hadd hid hg
    have hsrc' := (Function.update_of_ne (Ne.symm heq) (some (x.add dn id)) f.dcache).trans hsrc
    refine sat_of_ok (setDir_eq (h := dh) ?_ _) (sat_of_ok (setDir_eq (h := sh) ?_ _)
      (sat_of_ok (flushDir_eq hq) (sat_done (flushDir_eq hq) ⟨S, ?_⟩)))
    · exact hdst
    · exact hsrc'
    · exact hheld.delete hsrc' (hh.coherent.cached src sh hsrc).2.2 (fun e => CachedDir.mem_del.mp)
        hnamed hg hapart

/-- The root leads to `d`. -/
def FS.Leads (f : FS L) (d : Nat) : Prop :=
  Below (fun a => ((f.entries a).map (·.inode)).filter f.isDir) f.root d

theorem Covers.leads (hh : Covers f S) (hd : f.Leads d) : d ∈ S := by
  induction hd with
  | refl => exact hh.root
  | tail _ hstep ih =>
    obtain ⟨hmem, hb⟩ := List.mem_filter.mp hstep
    obtain ⟨e, he, rfl⟩ := List.mem_map.mp hmem
    exact hh.closed _ ih e he hb

/-- The root leads to the old parent, the low word of the old name is no other name's, and the
rename replaces neither of its two directories. -/
structure FS.Movable (f : FS L) (src : Nat) (sn : String) (dst : Nat) (dn : String) : Prop where
  leads : f.Leads src
  apart : f.Apart src sn
  fresh : (dst, dn) ≠ (src, sn) → (L.key dst dn).2 ≠ (L.key src sn).2
  spares : ∀ old, ⟨dn, old⟩ ∈ f.entries dst → old ≠ src ∧ old ≠ dst

theorem rename_safe (hL : L.Lawful) (hh : Held f) (hmove : f.Movable src sn dst dn) (fuel : Nat) :
    Safe (rename fuel src sn dst dn) f := by
  obtain ⟨S, hh⟩ := hh
  refine hh.openDir fun sh f₁ ho₁ hsrc => ?_
  have hh₁ := hh.opened ho₁
  cases hfind : sh.find sn with
  | none => exact sat_fail ⟨S, hh₁⟩
  | some id =>
    refine hh₁.openDir fun dh f₂ ho₂ hdst => ?_
    refine sat_bind (checkLoop_sat ho₂.coherent fuel src dst id) (fun _ f₃ ho₃ => ?_)
      fun _ _ ho => ⟨S, hh₁.opened (ho₂.trans ho)⟩
    have ho := (ho₁.trans ho₂).trans ho₃
    have hh₃ := hh.opened ho
    replace hsrc := ho₃.keeps src sh (ho₂.keeps src sh hsrc)
    replace hdst := ho₃.keeps dst dh hdst
    have hapart : ∀ f' : FS L, (∀ a, f'.entries a ⊆ f₃.entries a) →
        Apart L (fun a n => f'.Named S a n ∨ (a, n) = (dst, dn)) src sn := by
      rintro f' hsub a n (⟨ha, e, he, rfl⟩ | heq) hne
      · exact hmove.apart.named ho S a e.name ⟨ha, e, hsub a he, rfl⟩ hne
      · cases heq
        exact hmove.fresh hne
    have hid : f₃.isDir id = true → id ∈ S := fun hb => by
      refine hh₃.closed src (hh.leads hmove.leads) ⟨sn, id⟩ ?_ hb
      rw [hh₃.coherent.entries hsrc]
      exact CachedDir.mem_of_find hfind
    cases hold : dh.find dn with
    | none =>
      exact moveName_safe hh₃ hsrc hdst (fun _ he => he) rfl hid
        (hh₃.gate.add hL fun _ _ hp => hp) (hapart f₃ fun _ _ he => he)
    | some oldID =>
      refine sat_ite (fun _ => sat_pure ⟨S, hh₃⟩) fun _ => hh₃.getInode fun hlt => ?_
      refine sat_bind (dropLink_sat hh₃ hlt rfl) (fun _ f₄ hq => ?_) fun _ _ he => ⟨S, he⟩
      obtain ⟨hh₄, hdrop⟩ := hq
      obtain ⟨hns, hnd⟩ : oldID ≠ src ∧ oldID ≠ dst := by
        refine hmove.spares oldID ?_
        rw [← ho.entries, hh₃.coherent.entries hdst]
        exact CachedDir.mem_of_find hold
      exact sat_modify_bind (moveName_safe hh₄ ((hdrop.dcache src hns.symm).trans hsrc)
        ((hdrop.dcache dst hnd.symm).trans hdst) (fun e he => (CachedDir.mem_del.mp he).1) rfl
        (fun hb => hid (hdrop.dirs id hb)) (hh₄.gate.readd hL fun _ _ hp => hp)
        (hapart f₄ hdrop.entries))

end Rename

/-! ## Handles and lookups -/

theorem openFile_safe (hh : Held f) (id : Nat) : Safe (openFile id) f := by
  obtain ⟨S, hh⟩ := hh
  exact hh.getInode fun _ => sat_ite (fun _ => sat_fail ⟨S, hh⟩) fun _ =>
    sat_modify ⟨S, hh.aside _ _ _⟩

theorem close_safe (hh : Held f) (id : Nat) : Safe (close id) f := by
  obtain ⟨S, hh⟩ := hh
  have hh' := hh.aside f.freeInodes f.nextInode
    (Function.update f.openCount id (f.openCount id - 1))
  refine sat_modify_bind (sat_get_bind (sat_ite (fun _ => ?_) fun _ => sat_pure ⟨S, hh'⟩))
  exact hh'.getInode fun hlt => sat_ite (fun _ => safe_of_sat (reclaim_sat hh' hlt))
    fun _ => sat_pure ⟨S, hh'⟩

theorem readdir_safe (hh : Held f) (id : Nat) : Safe (readdir id) f := by
  obtain ⟨S, hh⟩ := hh
  exact hh.openDir fun _ _ ho _ => sat_pure ⟨S, hh.opened ho⟩

theorem lookup_safe (hh : Held f) (parent : Nat) (name : String) :
    Safe (lookup parent name) f := by
  obtain ⟨S, hh⟩ := hh
  refine sat_get_bind ?_
  cases f.dcache parent with
  | some h => exact sat_pure ⟨S, hh⟩
  | none =>
    exact sat_ite (fun _ => sat_pure ⟨S, hh⟩) fun _ =>
      hh.openDir fun _ _ ho _ => sat_pure ⟨S, hh.opened ho⟩

end Go
end BloomFS

/-
Directories as maps from names to inodes.

`Bindings` gives for every directory a partial map from names, and `Bindings.after` says
what each call does to it.  A step of the machine does to the entries of its directories
what `after` does to the map.
-/
import BloomFS.Spec.Orderly

namespace BloomFS
namespace Spec

open Bytes Dir Fs
open Dir.Segment (Distinct)

/-! ## Lists of entries as graphs -/

/-- The entries are the graph of `f`. -/
def Graph (f : String → Option Nat) (l : List DirEntry) : Prop :=
  ∀ name id, ⟨name, id⟩ ∈ l ↔ f name = some id

section Graph

variable {f : String → Option Nat} {l l' : List DirEntry} {name : String} {id : Nat}

theorem Graph.nil : Graph (fun _ => none) [] := fun _ _ => iff_of_false List.not_mem_nil nofun

theorem Graph.none_iff (h : Graph f l) : f name = none ↔ ∀ e ∈ l, e.name ≠ name := by
  constructor
  · rintro hf ⟨n, id⟩ he rfl
    rw [(h n id).mp he] at hf
    cases hf
  · intro habs
    cases hf : f name with
    | none => rfl
    | some id => exact absurd rfl (habs _ ((h name id).mpr hf))

theorem Graph.find (h : Graph f l) (hd : Distinct l) (name : String) :
    (l.find? (·.name = name)).map (·.inode) = f name := by
  cases hf : f name with
  | none =>
    rw [Option.map_eq_none_iff, List.find?_eq_none]
    intro e he
    simpa using h.none_iff.mp hf e he
  | some id =>
    have hmem := (h name id).mpr hf
    cases hx : l.find? (·.name = name) with
    | none => simpa using List.find?_eq_none.mp hx _ hmem
    | some e =>
      have he := hd.eq (List.mem_of_find?_eq_some hx) hmem (by simpa using List.find?_some hx)
      rw [he]
      rfl

theorem Graph.insert (h : Graph f l) (habs : ∀ e ∈ l, e.name ≠ name)
    (hp : l'.Perm (⟨name, id⟩ :: l)) : Graph (Function.update f name (some id)) l' := by
  intro n i
  rw [hp.mem_iff, List.mem_cons]
  by_cases hn : n = name
  · subst hn
    rw [Function.update_self]
    constructor
    · rintro (heq | hm)
      · cases heq
        rfl
      · exact absurd rfl (habs _ hm)
    · rintro ⟨⟩
      exact .inl rfl
  · rw [Function.update_of_ne hn, ← h n i]
    constructor
    · rintro (heq | hm)
      · cases heq
        exact absurd rfl hn
      · exact hm
    · exact .inr

theorem Graph.erase (h : Graph f l) (hd : Distinct l) (hp : l.Perm (⟨name, id⟩ :: l')) :
    Graph (Function.update f name none) l' := by
  have hnot : ∀ e ∈ l', e.name ≠ name := by
    intro e he hn
    have hnodup := List.nodup_cons.mp ((distinct_perm hp).mp hd)
    exact hnodup.1 (List.mem_map.mpr ⟨e, he, hn⟩)
  intro n i
  by_cases hn : n = name
  · subst hn
    rw [Function.update_self]
    exact iff_of_false (fun hm => hnot _ hm rfl) nofun
  · rw [Function.update_of_ne hn, ← h n i, hp.mem_iff, List.mem_cons]
    constructor
    · exact .inr
    · rintro (heq | hm)
      · cases heq
        exact absurd rfl hn
      · exact hm

theorem distinct_tail {e : DirEntry} (hd : Distinct l) (hp : l.Perm (e :: l')) : Distinct l' :=
  (List.nodup_cons.mp ((distinct_perm hp).mp hd)).2

/-- The entries under `name` in `l`. -/
inductive Under (l : List DirEntry) (name : String) : List DirEntry → Prop
  | absent (h : ∀ e ∈ l, e.name ≠ name) : Under l name []
  | present {old : Nat} (h : ⟨name, old⟩ ∈ l) : Under l name [⟨name, old⟩]

theorem Graph.replace {old : List DirEntry} (h : Graph f l) (hd : Distinct l)
    (ho : Under l name old)
    (hp : (old ++ l').Perm (⟨name, id⟩ :: l)) : Graph (Function.update f name (some id)) l' := by
  cases ho with
  | absent habs => exact h.insert habs hp
  | @present x hmem =>
    have hsplit := List.perm_cons_erase hmem
    have hrest : l'.Perm (⟨name, id⟩ :: l.erase ⟨name, x⟩) := by
      refine (List.perm_cons (⟨name, x⟩ : DirEntry)).mp (hp.trans ?_)
      exact (hsplit.cons _).trans (List.Perm.swap _ _ _)
    have hgone := h.erase hd hsplit
    have hmade := hgone.insert (hgone.none_iff.mp (Function.update_self ..)) hrest
    rwa [Function.update_idem] at hmade

/-- A name that moves to another one. -/
theorem Graph.move {old : List DirEntry} {sn dn : String} (h : Graph f l) (hd : Distinct l)
    (hm : ⟨sn, id⟩ ∈ l) (ho : Under l dn old) (hne : (⟨sn, id⟩ : DirEntry) ∉ old)
    (hp : (⟨sn, id⟩ :: old ++ l').Perm (⟨dn, id⟩ :: l)) :
    Graph (Function.update (Function.update f sn none) dn (some id)) l' := by
  have hsplit := List.perm_cons_erase hm
  have hrest : (old ++ l').Perm (⟨dn, id⟩ :: l.erase ⟨sn, id⟩) := by
    refine (List.perm_cons (⟨sn, id⟩ : DirEntry)).mp (hp.trans ?_)
    exact (hsplit.cons _).trans (List.Perm.swap _ _ _)
  refine (h.erase hd hsplit).replace (distinct_tail hd hsplit) ?_ hrest
  cases ho with
  | absent habs => exact .absent fun e he => habs e (List.mem_of_mem_erase he)
  | present hmem =>
    refine .present ((List.mem_erase_of_ne fun heq => hne ?_).mpr hmem)
    rw [← heq]
    exact List.mem_cons_self

end Graph

/-! ## The map of a file system -/

/-- The names in every directory. -/
abbrev Bindings := Nat → String → Option Nat

/-- Give `name` in directory `d` the value `x`. -/
def Bindings.bind (m : Bindings) (d : Nat) (name : String) (x : Option Nat) : Bindings :=
  Function.update m d (Function.update (m d) name x)

theorem Bindings.bind_bind_self (m : Bindings) (d : Nat) (a b : String) (x y : Option Nat) :
    (m.bind d a x).bind d b y = Function.update m d
    (Function.update (Function.update (m d) a x) b y) := by
  unfold Bindings.bind
  rw [Function.update_self, Function.update_idem]

theorem Bindings.bind_bind_of_ne {m : Bindings} {d d' : Nat} (h : d ≠ d') {a b : String}
    {x y : Option Nat} : (m.bind d a x).bind d' b y =
      Function.update (Function.update m d' (Function.update (m d') b y)) d
      (Function.update (m d) a x) := by
  unfold Bindings.bind
  rw [Function.update_of_ne h.symm, Function.update_comm h]

/-- What a successful call does to the names.  A new directory is empty.  A rename of a
name to another name of the same inode does nothing. -/
def Bindings.after (m : Bindings) : Op → Outcome → Bindings
  | .mkdir parent name, .ok (.id id) =>
      Bindings.bind (Function.update m id fun _ => none) parent name (some id)
  | .create parent name, .ok (.id id) => m.bind parent name (some id)
  | .symlink parent name _, .ok (.id id) => m.bind parent name (some id)
  | .link parent name target, .ok _ => m.bind parent name (some target)
  | .unlink parent name, .ok _ => m.bind parent name none
  | .rmdir parent name, .ok _ => m.bind parent name none
  | .rename src sn dst dn, .ok _ =>
      if m dst dn = m src sn then m else (m.bind src sn none).bind dst dn (m src sn)
  | _, _ => m

/-- The outline has the names `f` if it is a directory, and none if it is not. -/
structure Outline.Names (o : Outline) (f : String → Option Nat) : Prop where
  graph : o.isDir → Graph f o.entries
  bare : ¬ o.isDir → o.entries = []

/-- The directories have the names that the map gives them. -/
def Named (v : View) (m : Bindings) : Prop := ∀ d, (v.node d).Names (m d)

section Named

variable {v v' v₁ : View} {m : Bindings} {d id : Nat} {o o' : Outline} {f : String → Option Nat}
  {handles : List Handle}

theorem names_blank (g : Nat) (f : String → Option Nat) : (blank g).Names f :=
  ⟨fun h => absurd h not_isDir_blank, fun _ => rfl⟩

theorem Named.dir_of_mem (h : Named v m) {e : DirEntry} (he : e ∈ (v.node d).entries) :
    (v.node d).isDir := by
  by_contra hd
  rw [(h d).bare hd] at he
  cases he

theorem Named.set (h : Named v m) (ho : o.Names f) : Named (v.set d o) (Function.update m d f) := by
  intro i
  by_cases hi : i = d
  · subst hi
    rw [View.node_set_self, Function.update_self]
    exact ho
  · rw [View.node_set_of_ne hi, Function.update_of_ne hi]
    exact h i

theorem Named.reset (h : Named v m) (ho : o.Names (m d)) : Named (v.set d o) m := by
  have hset := h.set (d := d) ho
  rwa [Function.update_eq_self] at hset

theorem Named.relink (h : Named v m) (d : Nat) (k : UInt32) :
    Named (v.set d { v.node d with nlink := k }) m := h.reset ⟨(h d).graph, (h d).bare⟩

theorem Named.reclaim (h : Named v m) (d : Nat) : Named (v.reclaim d) m := h.reset (names_blank _ _)

theorem Named.drop (h : Named v m) (d : Nat) : Named (v.drop d) m := by
  unfold View.drop
  dsimp only
  split
  · exact h.reclaim d
  · exact h.relink d _

theorem Named.close (h : Named v m) (d : Nat) : Named (v.close d) m := by
  have hopens : Named { v with opens := Function.update v.opens d (pred32 (v.opens d)) } m := h
  unfold View.close
  dsimp only
  split
  · exact hopens.reclaim d
  · exact hopens

theorem Named.replaced {dst : Nat} {dn : String} {old : List DirEntry} (h : Named v m)
    (hr : Replaced v dst dn id old v₁) : Named v₁ m := by
  cases hr with
  | absent => exact h
  | dropped => exact h.drop _

theorem Replaced.under {dst : Nat} {dn : String} {old : List DirEntry}
    (hr : Replaced v dst dn id old v₁) : Under (v.node dst).entries dn old := by
  cases hr with
  | absent habs => exact .absent habs
  | dropped hm => exact .present hm

theorem Replaced.unbound {dst : Nat} {dn : String} {old : List DirEntry}
    (hr : Replaced v dst dn id old v₁) (hg : Graph f (v.node dst).entries) : f dn ≠ some id := by
  intro hf
  cases hr with
  | absent habs =>
    rw [hg.none_iff.mpr habs] at hf
    cases hf
  | dropped hm hne =>
    rw [(hg dn _).mp hm] at hf
    exact hne (Option.some.inj hf)

theorem Replaced.notMem_old {dst : Nat} {sn dn : String} {old : List DirEntry}
    (hr : Replaced v dst dn id old v₁) : (⟨sn, id⟩ : DirEntry) ∉ old := by
  cases hr with
  | absent => exact List.not_mem_nil
  | dropped hm hne =>
    intro hmem
    cases List.mem_singleton.mp hmem
    exact hne rfl

theorem Edited.names {out new : List DirEntry} {k : UInt32} (he : Edited o out new k o')
    (hd : o.isDir) (hg : Graph f o'.entries) : o'.Names f :=
  ⟨fun _ => hg, fun hno => absurd (he.isDir.mpr hd) hno⟩

theorem Named.forget (h : Named v m) (hf : ¬ (v.node d).isDir) (f : String → Option Nat) :
    Named v (Function.update m d f) := by
  intro i
  by_cases hi : i = d
  · subst hi
    exact ⟨fun hd => absurd hd hf, (h i).bare⟩
  · rw [Function.update_of_ne hi]
    exact h i

theorem Named.created {parent : Nat} {name : String} {kind : UInt8} {data : Bytes} (h : Named v m)
    (hc : Created v parent name kind data id v')
    (hnone : kind = Inode.typeDir → m id = fun _ => none) :
        Named v' (m.bind parent name (some id)) := by
  cases hc with
  | @mk v₁ nlink o' hp hd ha hid hn hsmall habs he =>
    have hnode : v₁.node = v.node := by
      rcases View.alloc_cases ha with ⟨rest, -, rfl⟩ | ⟨-, -, -, rfl⟩ <;> rfl
    have h₁ : Named v₁ m := by
      intro d
      rw [hnode]
      exact h d
    have hborn : (born kind data (v.node id).generation).Names (m id) := by
      refine ⟨fun hk => ?_, fun _ => rfl⟩
      rw [hnone hk]
      exact Graph.nil
    have hg := ((h parent).graph hd).insert habs he.perm
    exact (h₁.reset hborn).set (he.names hd hg)

theorem bindings_of_idle {op : Op} (h : Idle handles op) (m : Bindings) (out : Outcome) :
    m.after op out = m := by
  cases op with
  | mkdir | create | symlink | writeFile | writeAt | append | truncate | unlink | rmdir | link
  | rename
  | openFile | remount => exact h.elim
  | _ => rfl

theorem bindings_of_writes {op : Op} {x : Nat × (Bytes → Bytes)} (h : writes op = some x)
    (m : Bindings) (out : Outcome) : m.after op out = m := by
  cases op with
  | writeFile | writeAt | append | truncate => rfl
  | _ => cases h

theorem not_isDir_of_alloc (hs : Slots v handles) (ha : v.alloc = some (id, v₁)) :
    ¬ (v.node id).isDir := by
  refine hs.unused id fun hu => ?_
  rcases View.alloc_cases ha with ⟨rest, hf, -⟩ | ⟨-, rfl, -, -⟩
  · exact hu.2 (hf ▸ List.mem_cons_self)
  · exact absurd hu.1 (Nat.lt_irrefl _)

/-- A step of the machine does to its directories what `after` does to the map. -/
theorem Named.step {op : Op} {r : Reply} {gone : Nat → Nat} (h : Named v m) (hs : Slots v handles)
    (hn : Linked v gone) (hc : Change handles v op r v') : Named v' (m.after op (.ok r)) := by
  cases hc with
  | quiet hi =>
    rw [bindings_of_idle hi]
    exact h
  | write hw hid hk =>
    rw [bindings_of_writes hw]
    exact h.reset ⟨(h _).graph, (h _).bare⟩
  | create hcr hnew =>
    have hfree : ∀ id v₁, v.alloc = some (id, v₁) → ¬ (v.node id).isDir :=
      fun _ _ => not_isDir_of_alloc hs
    cases op with
    | mkdir =>
      cases hcr
      cases hnew with
      | mk hp hd ha hid hl hsmall habs he =>
        exact (h.forget (hfree _ _ ha) _).created (.mk hp hd ha hid hl hsmall habs he) fun _ =>
          Function.update_self ..
    | create =>
      cases hcr
      exact h.created hnew fun hk => absurd hk (by decide)
    | symlink =>
      cases hcr
      exact h.created hnew fun hk => absurd hk (by decide)
    | _ => cases hcr
  | @unlink parent id name o' hp hd hm hid hf he =>
    have hg := ((h parent).graph hd).erase (hn.paged parent hp hd).distinct he.perm.symm
    exact (h.set (he.names hd hg)).drop id
  | @rmdir parent id name o' hp hd hm hid hcd hempty he =>
    have hg := ((h parent).graph hd).erase (hn.paged parent hp hd).distinct he.perm.symm
    exact (h.set (he.names hd hg)).reclaim id
  | @link parent target name o' hp hd ht hf hsmall habs he =>
    have hg := ((h parent).graph hd).insert habs he.perm
    exact (h.relink target _).set (he.names hd hg)
  | @stay src dst id sn dn hsm hdm =>
    have hsrc := ((h src).graph (h.dir_of_mem hsm) sn id).mp hsm
    have hdst := ((h dst).graph (h.dir_of_mem hdm) dn id).mp hdm
    show Named v (if m dst dn = m src sn then m else _)
    rw [if_pos (hdst.trans hsrc.symm)]
    exact h
  | @within src id sn dn old v₁ o' hp hd hm hr he =>
    have hsrc := ((h src).graph hd sn id).mp hm
    have hdn := hr.unbound ((h src).graph hd)
    have hnot : (⟨sn, id⟩ : DirEntry) ∉ old := hr.notMem_old
    have hg := ((h src).graph hd).move (hn.paged src hp hd).distinct hm hr.under hnot he.perm
    show Named (v₁.set src o') (if m src dn = m src sn then m else _)
    rw [hsrc, if_neg hdn]
    rw [Bindings.bind_bind_self]
    exact (h.replaced hr).set (he.names hd hg)
  | @across src dst id sn dn old v₁ s' d' hne hp hsd hq hdd hm hloop hr hed hes =>
    have hsrc := ((h src).graph hsd sn id).mp hm
    have hdn := hr.unbound ((h dst).graph hdd)
    have hgd := ((h dst).graph hdd).replace (hn.paged dst hq hdd).distinct hr.under hed.perm
    have hgs := ((h src).graph hsd).erase (hn.paged src hp hsd).distinct hes.perm.symm
    show Named ((v₁.set dst d').set src s') (if m dst dn = m src sn then m else _)
    rw [hsrc, if_neg hdn, Bindings.bind_bind_of_ne hne]
    exact ((h.replaced hr).set (hed.names hdd hgd)).set (hes.names hsd hgs)
  | openFile => exact h
  | close => exact h.close _

end Named

end Spec
end BloomFS

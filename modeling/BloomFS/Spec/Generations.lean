/-
Generations tell the owners of an id apart.

A generation only grows, and it grows whenever an id is given back.  So the pairs of
id and generation that new inodes get never repeat, whatever the order in which ids
are given back and handed out.
-/
import BloomFS.Spec.Tree

namespace BloomFS
namespace Spec

open Bytes Exec Dir Fs Store

def View.generation (v : View) (id : Nat) : Nat := (v.node id).generation

variable {v v' v'' : View} {handles : List Handle} {gone : Nat → Nat} {d id : Nat} {o : Outline}

/-- No generation falls, and an id whose generation stays is still handed out. -/
structure Ages (v v' : View) : Prop where
  le : ∀ id, v.generation id ≤ v'.generation id
  used : ∀ id, v'.generation id = v.generation id → v.Used id → v'.Used id

theorem Ages.refl (v : View) : Ages v v := ⟨fun _ => Nat.le_refl _, fun _ _ h => h⟩

theorem Ages.trans (h : Ages v v') (h' : Ages v' v'') : Ages v v'' where
  le id := (h.le id).trans (h'.le id)
  used id heq hu := by
    have hle := h.le id
    have hle' := h'.le id
    exact h'.used id (by omega) (h.used id (by omega) hu)

theorem generation_set (h : o.generation = v.generation d) (i : Nat) :
    (v.set d o).generation i = v.generation i := by
  unfold View.generation
  by_cases hi : i = d
  · rw [hi, View.node_set_self]
    exact h
  · rw [View.node_set_of_ne hi]

theorem ages_set (h : o.generation = v.generation d) : Ages v (v.set d o) where
  le i := (generation_set h i).ge
  used _ _ hu := hu

theorem ages_reclaim : Ages v (v.reclaim id) where
  le i := by
    unfold View.generation
    by_cases hi : i = id
    · rw [hi, node_reclaim_self]
      exact Nat.le_succ _
    · rw [node_reclaim_of_ne hi]
  used i heq hu := by
    refine used_reclaim.mpr ⟨hu, ?_⟩
    rintro rfl
    unfold View.generation at heq
    rw [node_reclaim_self] at heq
    exact Nat.succ_ne_self _ heq

theorem ages_drop : Ages v (v.drop id) := by
  unfold View.drop
  dsimp only
  split
  · exact ages_reclaim
  · exact ages_set rfl

theorem ages_withOpens (v : View) (opens : Nat → UInt32) : Ages v { v with opens := opens } :=
  ⟨fun _ => Nat.le_refl _, fun _ _ h => h⟩

theorem ages_close : Ages v (v.close id) := by
  unfold View.close
  dsimp only
  split
  · exact (ages_withOpens v _).trans ages_reclaim
  · exact ages_withOpens v _

theorem generation_drop_of_ne (h : d ≠ id) : (v.drop id).generation d = v.generation d := by
  unfold View.generation View.drop
  dsimp only
  split
  · rw [node_reclaim_of_ne h]
  · rw [View.node_set_of_ne h]

/-- A new inode gets an id that was not handed out, with the generation of its slot. -/
theorem Created.ages {parent : Nat} {name : String} {kind : UInt8} {data : Bytes}
    (hc : Created v parent name kind data id v') (hs : Slots v handles) :
    Ages v v' ∧ v'.generation id = v.generation id := by
  cases hc with
  | @mk v₁ l o' hp hd ha hid hl hsucc habs he =>
    obtain ⟨hnode, -, -, -⟩ := View.alloc_same ha
    have hused : ∀ i, v₁.Used i ↔ v.Used i ∨ i = id := fun _ => used_alloc hs ha
    have hborn : ∀ i, (v₁.set id (born kind data (v.node id).generation)).generation i =
        v.generation i := by
      intro i
      have hsame : ∀ i, v₁.generation i = v.generation i :=
        fun i => congrArg (fun n => (n i).generation) hnode
      rw [← hsame i]
      refine generation_set ?_ i
      rw [hsame id]
      rfl
    have hgen : ∀ i, ((v₁.set id (born kind data (v.node id).generation)).set parent o').generation
      i = v.generation i := by
      intro i
      rw [generation_set, hborn i]
      rw [hborn parent]
      exact he.generation
    exact ⟨⟨fun i => (hgen i).ge, fun i _ hu => (hused i).mpr (.inl hu)⟩, hgen id⟩

theorem Replaced.ages {dst : Nat} {dn : String} {old : List DirEntry} {v₁ : View}
    (hr : Replaced v dst dn id old v₁) : Ages v v₁ ∧
      ∀ i, (∀ j, ⟨dn, j⟩ ∈ (v.node dst).entries → j ≠ i) → v₁.generation i = v.generation i := by
  cases hr with
  | absent => exact ⟨.refl v, fun _ _ => rfl⟩
  | dropped hm _ _ => exact ⟨ages_drop, fun i hne => generation_drop_of_ne (Ne.symm (hne _ hm))⟩

theorem Change.ages {op : Op} {r : Reply} (hc : Change handles v op r v') (hs : Slots v handles)
    (hn : Linked v gone) (hf : Fair v op) : Ages v v' := by
  cases hc with
  | quiet => exact .refl v
  | write => exact ages_set rfl
  | create _ hc => exact (hc.ages hs).1
  | unlink hp hd hm hid hfile he => exact (ages_set he.generation).trans ages_drop
  | rmdir hp hd hm hid hdir hempty he => exact (ages_set he.generation).trans ages_reclaim
  | @link parent target name o' hp hd ht hfile hsucc habs he =>
    have hkeep : ({ v.node target with nlink := (v.node target).nlink + 1 } : Outline).generation =
      v.generation target := rfl
    refine (ages_set hkeep).trans (ages_set ?_)
    rw [generation_set hkeep]
    exact he.generation
  | stay => exact .refl v
  | @within src id sn dn old v₁ o' hp hd hm hr he =>
    obtain ⟨hages, hsame⟩ := hr.ages
    refine hages.trans (ages_set ?_)
    rw [hsame src (hf hp hd hp hd)]
    exact he.generation
  | @across src dst id sn dn old v₁ s' d' hne hp hsd hq hdd hm hloop hr hed hes =>
    obtain ⟨hages, hsame⟩ := hr.ages
    have hdst : d'.generation = v₁.generation dst := by
      rw [hsame dst fun _ hj => hn.ne_of_mem hdd hj]
      exact hed.generation
    refine hages.trans ((ages_set hdst).trans (ages_set ?_))
    rw [generation_set hdst, hsame src (hf hp hsd hq hdd)]
    exact hes.generation
  | openFile => exact ages_withOpens v _
  | close => exact ages_close

/-- The pairs of id and generation that were given out so far.  The current pair of
an id is among them only while the id is handed out. -/
structure Dated (born : List (Nat × Nat)) (v : View) : Prop where
  nodup : born.Nodup
  le : ∀ x ∈ born, x.2 ≤ v.generation x.1
  used : ∀ x ∈ born, x.2 = v.generation x.1 → v.Used x.1

variable {born : List (Nat × Nat)}

theorem Dated.mono (h : Dated born v) (ha : Ages v v') : Dated born v' where
  nodup := h.nodup
  le x hx := (h.le x hx).trans (ha.le x.1)
  used x hx heq := by
    have hle := h.le x hx
    have hle' := ha.le x.1
    exact ha.used x.1 (by omega) (h.used x hx (by omega))

theorem Dated.create {parent : Nat} {name : String} {kind : UInt8} {data : Bytes} (h : Dated born v)
    (hc : Created v parent name kind data id v') (hs : Slots v handles) :
    Dated (born ++ [(id, v'.generation id)]) v' := by
  obtain ⟨hages, hgen⟩ := hc.ages hs
  have hold := h.mono hages
  have hnew : (id, v'.generation id) ∉ born := by
    intro hmem
    rw [hgen] at hmem
    exact hc.not_used (h.used _ hmem rfl)
  refine ⟨List.nodup_append.mpr ⟨h.nodup, List.nodup_singleton _, ?_⟩, fun x hx => ?_,
    fun x hx heq => ?_⟩
  · rintro x hx y hy rfl
    exact hnew (List.mem_singleton.mp hy ▸ hx)
  · rcases List.mem_append.mp hx with hx | hx
    · exact hold.le x hx
    · rw [List.mem_singleton.mp hx]
  · rcases List.mem_append.mp hx with hx | hx
    · exact hold.used x hx heq
    · rw [List.mem_singleton.mp hx]
      exact hc.used hs

theorem Dated.nil : Dated [] v :=
    ⟨List.nodup_nil, fun _ h => absurd h List.not_mem_nil, fun _ h => absurd h List.not_mem_nil⟩

end Spec
end BloomFS

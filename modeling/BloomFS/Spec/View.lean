/-
What the invariants of the namespace look at.

An `Outline` is a node without its timestamps and owner and with its generation as a
number, a `View` is the table of
outlines with the free list and the open counts.  `names v id` counts the entries
of all directories that name `id`.
-/
import BloomFS.Spec.Pages
import Mathlib.Algebra.Order.BigOperators.Group.Finset

namespace BloomFS
namespace Spec

open Bytes Exec Dir Fs Store
open Dir.Segment (Distinct)

structure Outline where
  kind : UInt8 := 0
  nlink : UInt32 := 0
  data : Bytes := []
  pages : List (List DirEntry) := []
  generation : Nat := 0

namespace Outline

def isDir (o : Outline) : Prop := o.kind = Inode.typeDir

instance (o : Outline) : Decidable o.isDir := inferInstanceAs (Decidable (_ = _))

def entries (o : Outline) : List DirEntry := o.pages.flatten

/-- How many entries of the directory name `id`. -/
def naming (o : Outline) (id : Nat) : Nat :=
  if o.isDir then o.entries.countP (·.inode = id) else 0

theorem naming_of_dir {o : Outline} (h : o.isDir) (id : Nat) :
    o.naming id = o.entries.countP (·.inode = id) := if_pos h

theorem naming_of_file {o : Outline} (h : ¬ o.isDir) (id : Nat) : o.naming id = 0 := if_neg h

theorem naming_pos {o : Outline} {id : Nat} : 0 < o.naming id ↔ o.isDir ∧ ∃ e ∈ o.entries,
    e.inode = id := by
  by_cases h : o.isDir
  · rw [naming_of_dir h, List.countP_pos_iff]
    simp [h]
  · rw [naming_of_file h]
    simp [h]

end Outline

def Node.outline (n : Node) : Outline := ⟨n.kind, n.nlink, n.data, n.pages, n.generation.toNat⟩

structure View where
  node : Nat → Outline
  cap : Nat
  next : Nat
  free : List Nat
  opens : Nat → UInt32
  clean : Bool

def State.view (t : State) : View where
  node id := (t.node id).outline
  cap := t.cap
  next := t.next
  free := t.free
  opens := t.opens
  clean := t.clean

namespace View

variable (v : View)

def set (id : Nat) (o : Outline) : View := { v with node := Function.update v.node id o }

/-- The id is handed out. -/
def Used (id : Nat) : Prop := id < v.next ∧ id ∉ v.free

/-- How many entries name `id`. -/
def names (id : Nat) : Nat := ∑ d ∈ Finset.range v.cap, (v.node d).naming id

variable {v} {id d : Nat} {o o' : Outline}

@[simp] theorem node_set_self : (v.set id o).node id = o := Function.update_self ..

theorem node_set_of_ne (h : d ≠ id) : (v.set id o).node d = v.node d := Function.update_of_ne h ..

@[simp] theorem set_set : (v.set id o).set id o' = v.set id o' := by
  unfold set
  simp

theorem set_same (h : v.node id = o) : v.set id o = v := by
  unfold set
  rw [← h, Function.update_eq_self]

theorem set_comm (h : d ≠ id) : (v.set d o).set id o' = (v.set id o').set d o := by
  unfold set
  dsimp only
  rw [Function.update_comm h]

@[simp] theorem cap_set : (v.set id o).cap = v.cap := rfl

@[simp] theorem next_set : (v.set id o).next = v.next := rfl

@[simp] theorem free_set : (v.set id o).free = v.free := rfl

@[simp] theorem opens_set : (v.set id o).opens = v.opens := rfl

@[simp] theorem clean_set : (v.set id o).clean = v.clean := rfl

/-- The names counted in all directories but one. -/
def namesBeside (v : View) (d id : Nat) : Nat :=
  ∑ i ∈ (Finset.range v.cap).erase d, (v.node i).naming id

theorem names_eq (hd : d < v.cap) : v.names id = (v.node d).naming id + v.namesBeside d id :=
  (Finset.add_sum_erase _ _ (Finset.mem_range.mpr hd)).symm

theorem namesBeside_set : (v.set d o).namesBeside d id = v.namesBeside d id := by
  refine Finset.sum_congr rfl fun i hi => ?_
  rw [node_set_of_ne (Finset.ne_of_mem_erase hi)]

theorem names_set (hd : d < v.cap) :
    (v.set d o).names id + (v.node d).naming id = v.names id + o.naming id := by
  rw [names_eq hd, names_eq (v := v.set d o) hd, namesBeside_set, node_set_self]
  omega

theorem names_set_of_naming (hd : d < v.cap) (h : o.naming id = (v.node d).naming id) :
    (v.set d o).names id = v.names id := by
  have hset : (v.set d o).names id + (v.node d).naming id = v.names id + o.naming id := names_set hd
  omega

theorem naming_le_names (hd : d < v.cap) : (v.node d).naming id ≤ v.names id := by
  rw [names_eq hd]
  omega

theorem names_pos : 0 < v.names id ↔ ∃ d < v.cap, 0 < (v.node d).naming id := by
  unfold names
  rw [Finset.sum_pos_iff]
  simp only [Finset.mem_range]

end View

end Spec
end BloomFS

/-
What a caller sees of the namespace, and what a call may assume.

The definitions read the state through the code's own readers: `readDirPages` for
the entries of a directory and the inode table for the rest.  The predicates on
operations say which calls a statement about runs allows.
-/
import BloomFS.Fs.Start
import Mathlib.Algebra.BigOperators.Group.Finset.Defs
import Mathlib.Logic.Relation

namespace BloomFS
namespace Fs

open Bytes Exec Dir Store

namespace FS

variable (env : Env) (s : FS)

/-- The entries of a directory, read from the device. -/
def entriesOf (id : Nat) : List DirEntry := (s.readDirPages env id).toOption.getD []

/-- The id is handed out. -/
def InUse (id : Nat) : Prop := id < s.ub.nextInode.toNat ∧ id ∉ s.freeInodes

instance (id : Nat) : Decidable (s.InUse id) := inferInstanceAs (Decidable (_ ∧ _))

def IsDir (id : Nat) : Prop := id < s.inodes.cap ∧ (s.inodes.slots id).kind = Inode.typeDir

instance (id : Nat) : Decidable (s.IsDir id) := inferInstanceAs (Decidable (_ ∧ _))

/-- How many entries of all directories name `id`. -/
def nameCount (id : Nat) : Nat :=
  ∑ d ∈ Finset.range s.inodes.cap, (s.entriesOf env d).countP (·.inode = id)

/-- The directory `d` has an entry for the directory `c`. -/
def Sub (d c : Nat) : Prop := s.IsDir d ∧ s.IsDir c ∧ ∃ e ∈ s.entriesOf env d, e.inode = c

/-- The id is the root, or has a name, or is held open. -/
def Known (id : Nat) : Prop :=
  id = s.ub.rootInode.toNat ∨ 0 < s.nameCount env id ∨ s.openCountOf id ≠ 0

/-- The directory is found from the root through directory entries. -/
def Reached (id : Nat) : Prop := Relation.ReflTransGen (s.Sub env) s.ub.rootInode.toNat id

end FS

variable (env : Env)

/-- What the operation links or opens is handed out. -/
def Op.Current (s : FS) : Op → Prop
  | .link _ _ target => s.InUse target
  | .openFile id => s.InUse id
  | _ => True

/-- The inode ids a caller passes. -/
def Op.ids : Op → List Nat
  | .lookup parent _ => [parent]
  | .readdir id => [id]
  | .readdirents id => [id]
  | .openDirStream id => [id]
  | .stat id => [id]
  | .fallocate id _ => [id]
  | .access id _ _ _ _ => [id]
  | .mkdir parent _ => [parent]
  | .create parent _ => [parent]
  | .symlink parent _ _ => [parent]
  | .readlink id => [id]
  | .writeFile id _ => [id]
  | .readFile id => [id]
  | .readAt id _ _ => [id]
  | .writeAt id _ _ => [id]
  | .append id _ => [id]
  | .truncate id _ => [id]
  | .unlink parent _ => [parent]
  | .rmdir parent _ => [parent]
  | .chmod id _ => [id]
  | .chown id _ _ => [id]
  | .utimes id _ _ => [id]
  | .link parent _ target => [parent, target]
  | .rename src _ dst _ => [src, dst]
  | .openFile id => [id]
  | .statfs | .handleRead _ | .close _ | .commit | .setDirCache _ | .remount _ => []

/-- The operation is given only ids that are the root, named or held open. -/
def Op.Known (s : FS) (op : Op) : Prop := ∀ id ∈ op.ids, s.Known env id

/-- The inodes whose contents the operation replaces, or that it links. -/
def Op.targets : Op → List Nat
  | .writeFile id _ => [id]
  | .writeAt id _ _ => [id]
  | .append id _ => [id]
  | .truncate id _ => [id]
  | .link _ _ target => [target]
  | _ => []

theorem Op.targets_subset (op : Op) : op.targets ⊆ op.ids := by
  cases op <;> simp [Op.targets, Op.ids]

/-- The inodes that the operation changes or opens without looking them up. -/
def Op.subjects : Op → List Nat
  | .writeFile id _ => [id]
  | .writeAt id _ _ => [id]
  | .append id _ => [id]
  | .truncate id _ => [id]
  | .chmod id _ => [id]
  | .chown id _ _ => [id]
  | .utimes id _ _ => [id]
  | .openFile id => [id]
  | .link _ _ target => [target]
  | _ => []

theorem Op.current_of_subjects {s : FS} {op : Op} (h : ∀ id ∈ op.subjects, s.InUse id) :
    op.Current s := by
  cases op with
  | link parent name target => exact h target List.mem_cons_self
  | openFile id => exact h id List.mem_cons_self
  | _ => exact trivial

/-- A rename does not replace the directory it takes from. -/
def Op.Aside (s : FS) : Op → Prop
  | .rename src _ dst dn => s.IsDir src → ∀ e ∈ s.entriesOf env dst, e.name = dn → e.inode ≠ src
  | _ => True

/-- A rename replaces no directory. -/
def Op.Sparing (s : FS) : Op → Prop
  | .rename src sn dst dn => ∀ e ∈ s.entriesOf env dst, e.name = dn →
      ⟨sn, e.inode⟩ ∉ s.entriesOf env src → ¬ s.IsDir e.inode
  | _ => True

/-- A rename moves no directory to another one. -/
def Op.Local (s : FS) : Op → Prop
  | .rename src sn dst _ => src ≠ dst → ∀ e ∈ s.entriesOf env src, e.name = sn → ¬ s.IsDir e.inode
  | _ => True

/-- The operation makes an inode and answers its id. -/
def Op.Makes : Op → Prop
  | .mkdir _ _ => True
  | .create _ _ => True
  | .symlink _ _ _ => True
  | _ => False

/-- The call answered. -/
def Succeeds (out : Outcome) : Prop := ∃ r, out = .ok r

/-- The call returned, with an answer or with an error. -/
def Returns (out : Outcome) : Prop := Succeeds out ∨ ∃ e, out = .error (.err e)

/-- Successful calls of one session. -/
def Smooth (_ : Session) (op : Op) (out : Outcome) : Prop := op.InSession ∧ Succeeds out

end Fs
end BloomFS

/-
The block device.

`Disk` stands for an implementation of the `Device` trait.  Whether a call
succeeds is decided by `fault`, indexed by the kind of call and the number of
calls made so far, so a statement over all disks covers a device that fails at
any call.  A failed write
leaves the old block or any other content, as the oracle says.

`trace` is a history variable.  It records the calls that leave the file system,
each block write with the routine that issued it and the content the block was
left with, and no operation reads it.  A crash point is a prefix of it.
-/
import BloomFS.Lib.Bytes
import BloomFS.Lib.Exec
import Mathlib.Logic.Function.Basic

namespace BloomFS
namespace Block

open Bytes Exec

def size : Nat := 4096

inductive Error where
  | outOfRange
  | shortData
  | io
  deriving Repr, DecidableEq

/-- The routine that issued a block write: the data path, the metadata snapshot
of a commit, or the uberblock flip. -/
inductive Origin where
  | data
  | snapshot
  | uber
  deriving Repr, DecidableEq

/-- One recorded call.  `write` carries the content the block was left with,
`hash` the plaintext of a block handed to the store, and `refused` marks a block
the store could not take. -/
inductive Event where
  | write (origin : Origin) (num : Nat) (left : Bytes)
  | sync
  | hash (plaintext : Bytes)
  | refused
  deriving DecidableEq

/-- The calls that can fail. -/
inductive Call where
  | write (origin : Origin)
  | sync
  deriving Repr, DecidableEq

structure Disk where
  blocks : Nat
  blocks_lt : blocks < 2 ^ 64
  image : Nat → Bytes
  fault : Call → Nat → Option (Option Bytes)
  calls : Nat
  trace : List Event

def zeroBlock : Bytes := List.replicate size 0

/-- The image a list of recorded calls leaves behind. -/
def replay (image : Nat → Bytes) : List Event → (Nat → Bytes)
  | [] => image
  | .write _ num left :: es => replay (Function.update image num left) es
  | _ :: es => replay image es

theorem replay_append (image : Nat → Bytes) (es fs : List Event) :
    replay image (es ++ fs) = replay (replay image es) fs := by
  induction es generalizing image with
  | nil => rfl
  | cons e es ih => cases e <;> exact ih _

theorem replay_of_not_written {n : Nat} {es : List Event}
    (h : ∀ o left, .write o n left ∉ es) (image : Nat → Bytes) :
    replay image es n = image n := by
  induction es generalizing image with
  | nil => rfl
  | cons e es ih =>
    have ht : ∀ o left, .write o n left ∉ es :=
      fun o left hm => h o left (List.mem_cons_of_mem _ hm)
    cases e with
    | write o m left =>
      have hne : n ≠ m := by
        intro he
        subst he
        exact h o left List.mem_cons_self
      rw [replay, ih ht, Function.update_of_ne hne]
    | sync => exact ih ht image
    | hash p => exact ih ht image
    | refused => exact ih ht image

theorem replay_range (o : Origin) (f : Nat → Bytes) (image : Nat → Bytes) (start n m : Nat) :
    replay image ((List.range n).map fun i => .write o (start + i) (f i)) m =
      if start ≤ m ∧ m < start + n then f (m - start) else image m := by
  induction n with
  | zero =>
    rw [if_neg (by omega)]
    rfl
  | succ n ih =>
    rw [List.range_succ, List.map_append, replay_append]
    show Function.update _ (start + n) _ m = _
    by_cases hm : m = start + n
    · rw [hm, Function.update_self, if_pos (by omega), Nat.add_sub_cancel_left]
    · rw [Function.update_of_ne hm, ih]
      by_cases hin : start ≤ m ∧ m < start + n
      · rw [if_pos hin, if_pos (by omega)]
      · rw [if_neg hin, if_neg (by omega)]

namespace Disk

/-- A zero-filled in-memory device that never reports an error. -/
def zeroed (n : Nat) (h : n < 2 ^ 64) : Disk where
  blocks := n
  blocks_lt := h
  image := fun _ => zeroBlock
  fault := fun _ _ => none
  calls := 0
  trace := []

def readBlock (d : Disk) (num : Nat) : Except Error Bytes :=
  if d.blocks ≤ num then .error .outOfRange else .ok (d.image num)

/-- Overwrite block `num`, which must be in range and given exactly one block. -/
def writeBlock (origin : Origin) (num : Nat) (data : Bytes) : Exec Error Disk Unit := fun d =>
  if d.blocks ≤ num then .error (.err .outOfRange) d
  else if data.length ≠ size then .error (.err .shortData) d
  else match d.fault (.write origin) d.calls with
    | none => .ok ()
        { d with image := Function.update d.image num data, calls := d.calls + 1,
                 trace := d.trace ++ [.write origin num data] }
    | some left =>
        let b := left.getD (d.image num)
        .error (.err .io)
          { d with image := Function.update d.image num b, calls := d.calls + 1,
                   trace := d.trace ++ [.write origin num b] }

def sync : Exec Error Disk Unit := fun d =>
  match d.fault .sync d.calls with
  | none => .ok () { d with calls := d.calls + 1, trace := d.trace ++ [.sync] }
  | some _ => .error (.err .io) { d with calls := d.calls + 1, trace := d.trace ++ [.sync] }

/-- Record a call that does not reach the device. -/
def note (e : Event) (d : Disk) : Disk := { d with trace := d.trace ++ [e] }

/-- Calls of this kind never fail. -/
def Sound (d : Disk) (c : Call) : Prop := ∀ n, d.fault c n = none

def Reliable (d : Disk) : Prop := ∀ c, d.Sound c

/-- The disk whose image is what the first `j` recorded calls left on a zeroed
device. -/
def crashAt (d : Disk) (j : Nat) : Disk :=
  { zeroed d.blocks d.blocks_lt with image := replay (fun _ => zeroBlock) (d.trace.take j) }

/-- The image agrees with the recorded history. -/
def Consistent (d : Disk) : Prop := d.image = replay (fun _ => zeroBlock) d.trace

theorem crashAt_length {d : Disk} (h : d.Consistent) :
    (d.crashAt d.trace.length).image = d.image := by
  rw [crashAt, List.take_length]
  exact h.symm

/-- What one device call does to the disk: the size, the oracle and the link
between image and history stay, and the history grows. -/
structure Extends (d d' : Disk) (es : List Event) : Prop where
  blocks : d'.blocks = d.blocks
  fault : d'.fault = d.fault
  trace : d'.trace = d.trace ++ es
  image : d'.image = replay d.image es

theorem Extends.refl (d : Disk) : Extends d d [] := ⟨rfl, rfl, by simp, rfl⟩

theorem Extends.trans {d₁ d₂ d₃ : Disk} {es fs : List Event}
    (h : Extends d₁ d₂ es) (h' : Extends d₂ d₃ fs) : Extends d₁ d₃ (es ++ fs) where
  blocks := h'.blocks.trans h.blocks
  fault := h'.fault.trans h.fault
  trace := by rw [h'.trace, h.trace, List.append_assoc]
  image := by rw [h'.image, h.image, replay_append]

theorem Extends.sound {d d' : Disk} {es : List Event} {c : Call} (h : Extends d d' es)
    (hr : d.Sound c) : d'.Sound c := by
  intro n
  rw [h.fault]
  exact hr n

theorem Extends.reliable {d d' : Disk} {es : List Event} (h : Extends d d' es)
    (hr : d.Reliable) : d'.Reliable := fun c => h.sound (hr c)

theorem Extends.consistent {d d' : Disk} {es : List Event} (h : Extends d d' es)
    (hc : d.Consistent) : d'.Consistent := by
  unfold Consistent at *
  rw [h.image, h.trace, replay_append, hc]

theorem note_extends (d : Disk) (o : Event) (ho : ∀ org n b, o ≠ .write org n b) :
    Extends d (d.note o) [o] where
  blocks := rfl
  fault := rfl
  trace := rfl
  image := by
    cases o with
    | write org n b => exact absurd rfl (ho org n b)
    | sync => rfl
    | hash p => rfl
    | refused => rfl

theorem writeBlock_sat (o : Origin) (num : Nat) (data : Bytes) (d : Disk) :
    Sat (writeBlock o num data) d
      (fun _ d' => num < d.blocks ∧ data.length = size ∧ Extends d d' [.write o num data])
      (fun _ d' => (¬ d.Sound (.write o) ∨ d.blocks ≤ num ∨ data.length ≠ size) ∧
        (Extends d d' [] ∨ num < d.blocks ∧ ∃ b, Extends d d' [.write o num b])) := by
  unfold Sat writeBlock
  by_cases h1 : d.blocks ≤ num
  · rw [if_pos h1]
    exact ⟨Or.inr (Or.inl h1), Or.inl (Extends.refl d)⟩
  rw [if_neg h1]
  by_cases h2 : data.length ≠ size
  · rw [if_pos h2]
    exact ⟨Or.inr (Or.inr h2), Or.inl (Extends.refl d)⟩
  rw [if_neg h2]
  cases hf : d.fault (.write o) d.calls with
  | none => exact ⟨by omega, by simpa using h2, ⟨rfl, rfl, rfl, rfl⟩⟩
  | some left =>
    refine ⟨Or.inl (fun hr => ?_), Or.inr ⟨by omega, left.getD (d.image num), ⟨rfl, rfl, rfl, rfl⟩⟩⟩
    simp [hr d.calls] at hf

theorem sync_sat (d : Disk) :
    Sat sync d (fun _ d' => Extends d d' [.sync])
      (fun _ d' => ¬ d.Sound .sync ∧ Extends d d' [.sync]) := by
  unfold Sat sync
  cases hf : d.fault .sync d.calls with
  | none => exact ⟨rfl, rfl, rfl, rfl⟩
  | some left =>
    refine ⟨fun hr => ?_, ⟨rfl, rfl, rfl, rfl⟩⟩
    simp [hr d.calls] at hf

end Disk

end Block
end BloomFS

/-
Bits packed into 64-bit words.

The storage is only seen through the word at each index, so a list, a vector and a
function are packed the same way.  Bit `i` is bit `i % 64` of word `i / 64`.
-/
import Mathlib.Logic.Function.Basic

namespace BloomFS
namespace Packed

/-- The bit of its word that stands for position `i`. -/
def bit (i : Nat) : BitVec 64 := 1#64 <<< (i % 64)

def bitAt (words : Nat → BitVec 64) (i : Nat) : Bool := (words (i / 64)).getLsbD (i % 64)

theorem getLsbD_bit (i j : Nat) : (bit i).getLsbD j = decide (j = i % 64) := by
  have hlt : i % 64 < 64 := Nat.mod_lt _ (by decide)
  unfold bit
  rw [← BitVec.twoPow_eq, BitVec.getLsbD_twoPow]
  simp [hlt, eq_comm]

theorem and_bit (x : BitVec 64) (i : Nat) : ((x &&& bit i) != 0#64) = x.getLsbD (i % 64) := by
  have hself : (bit i).getLsbD (i % 64) = true := by simp [getLsbD_bit]
  have hand : x &&& bit i = if x.getLsbD (i % 64) then bit i else 0#64 := by
    unfold bit
    rw [← BitVec.twoPow_eq, BitVec.and_twoPow]
  rw [hand]
  cases h : x.getLsbD (i % 64) with
  | false => simp
  | true =>
    rw [if_pos rfl, bne_iff_ne]
    intro hz
    rw [hz] at hself
    simp at hself

variable {words : Nat → BitVec 64} {i : Nat}

theorem bitAt_update (x : BitVec 64) (j : Nat) :
    bitAt (Function.update words (i / 64) x) j =
      if j / 64 = i / 64 then x.getLsbD (j % 64) else bitAt words j := by
  unfold bitAt
  by_cases hj : j / 64 = i / 64
  · rw [if_pos hj, hj, Function.update_self]
  · rw [if_neg hj, Function.update_of_ne hj]

/-- Two positions of one word differ in it. -/
theorem mod_eq_iff {j : Nat} (h : j / 64 = i / 64) : j % 64 = i % 64 ↔ j = i := by
  omega

theorem bitAt_or_bit :
    bitAt (Function.update words (i / 64) (words (i / 64) ||| bit i)) =
      Function.update (bitAt words) i true := by
  funext j
  rw [bitAt_update]
  by_cases hj : j / 64 = i / 64
  · rw [if_pos hj, BitVec.getLsbD_or, getLsbD_bit, ← hj]
    by_cases hji : j = i
    · subst hji
      simp
    · simp [hji, mod_eq_iff hj, bitAt]
  · have hji : j ≠ i := fun h => hj (by rw [h])
    rw [if_neg hj, Function.update_of_ne hji]

theorem bitAt_and_not_bit :
    bitAt (Function.update words (i / 64) (words (i / 64) &&& ~~~ bit i)) =
      Function.update (bitAt words) i false := by
  funext j
  have hlt : j % 64 < 64 := Nat.mod_lt _ (by decide)
  rw [bitAt_update]
  by_cases hj : j / 64 = i / 64
  · rw [if_pos hj, BitVec.getLsbD_and, BitVec.getLsbD_not, getLsbD_bit, ← hj]
    by_cases hji : j = i
    · subst hji
      simp
    · simp [hji, mod_eq_iff hj, hlt, bitAt]
  · have hji : j ≠ i := fun h => hj (by rw [h])
    rw [if_neg hj, Function.update_of_ne hji]

end Packed
end BloomFS

/-
Too few short strings.

An injective code cannot make every string of `n` letters shorter: there are more of them
than strings of fewer than `n` letters.
-/
import Mathlib.Algebra.Order.Ring.GeomSum
import Mathlib.Data.Fintype.BigOperators

namespace Counting

variable {α : Type} [Fintype α] [Nontrivial α]

/-- Strings of fewer than `n` letters. -/
abbrev Shorter (α : Type) (n : Nat) : Type := (i : Fin n) × List.Vector α i

theorem card_shorter (n : Nat) : Fintype.card (Shorter α n) < Fintype.card α ^ n := by
  rw [Fintype.card_sigma]
  simp only [card_vector]
  rw [Fin.sum_univ_eq_sum_range (fun i => Fintype.card α ^ i)]
  exact Nat.geomSum_lt Fintype.one_lt_card fun k hk => Finset.mem_range.mp hk

/-- An injective code keeps some string of `n` letters at `m ≤ n` letters or more. -/
theorem exists_long {m n : Nat} (hle : m ≤ n) {f : List α → List α}
    (hf : ∀ x y, x.length = n → y.length = n → f x = f y → x = y) :
    ∃ x, x.length = n ∧ m ≤ (f x).length := by
  by_contra hno
  have hshort : ∀ x : List.Vector α n, (f x.1).length < m := fun x => by
    by_contra hlong
    exact hno ⟨x.1, x.2, Nat.le_of_not_lt hlong⟩
  let g : List.Vector α n → Shorter α m := fun x => ⟨⟨(f x.1).length, hshort x⟩, ⟨f x.1, rfl⟩⟩
  have hinj : Function.Injective g := by
    intro x y hxy
    have hval : f x.1 = f y.1 := congrArg (fun s : Shorter α m => s.2.1) hxy
    exact Subtype.ext (hf x.1 y.1 x.2 y.2 hval)
  have hcard := Fintype.card_le_of_injective g hinj
  have hpow : Fintype.card α ^ m ≤ Fintype.card α ^ n :=
    Nat.pow_le_pow_right Fintype.card_pos hle
  rw [card_vector] at hcard
  have : Fintype.card (Shorter α m) < Fintype.card α ^ m := card_shorter m
  omega

end Counting

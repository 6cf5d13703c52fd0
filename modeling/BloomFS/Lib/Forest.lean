/-
Depth-first search in a forest.

A search without a set of visited nodes ends when no node has two parents and none
lies below itself: the nodes still to be visited are those below the stack, and each
step takes one of them away.
-/
import Mathlib.Data.Finset.Card
import Mathlib.Logic.Relation

namespace BloomFS
namespace Forest

open Relation (ReflTransGen TransGen)

variable {α : Type} (next : α → List α)

def Child (a b : α) : Prop := b ∈ next a

/-- `b` is `a` or lies below it. -/
abbrev Below : α → α → Prop := ReflTransGen (Child next)

/-- The children of every node are distinct, a node has one parent, and there is
no cycle. -/
structure IsForest : Prop where
  nodup : ∀ a, (next a).Nodup
  parent : ∀ {a a' b}, b ∈ next a → b ∈ next a' → a = a'
  acyclic : ∀ a, ¬ TransGen (Child next) a a

/-- Search for `target` from the nodes of a stack, the top first.  The first
argument bounds the number of steps. -/
def search [DecidableEq α] (target : α) : Nat → List α → Option Bool
  | 0, _ => none
  | _ + 1, [] => some false
  | fuel + 1, d :: stack =>
      if d = target then some true else search target fuel (next d ++ stack)

variable {next}

section Search

variable [DecidableEq α] {target : α}

/-- A search that ends with an answer has the right one. -/
theorem search_eq_some {fuel : Nat} {stack : List α} {b : Bool}
    (h : search next target fuel stack = some b) : b = true ↔ ∃ d ∈ stack, Below next d target := by
  induction fuel generalizing stack with
  | zero => cases h
  | succ fuel ih =>
    cases stack with
    | nil =>
      cases h
      simp
    | cons d stack =>
      rw [search] at h
      split at h
      · next heq =>
        cases h
        exact ⟨fun _ => ⟨d, List.mem_cons_self, heq ▸ .refl⟩, fun _ => rfl⟩
      · next hne =>
        rw [ih h]
        constructor
        · rintro ⟨x, hx, hpath⟩
          rcases List.mem_append.mp hx with hx | hx
          · exact ⟨d, List.mem_cons_self, .head hx hpath⟩
          · exact ⟨x, List.mem_cons_of_mem _ hx, hpath⟩
        · rintro ⟨x, hx, hpath⟩
          rcases List.mem_cons.mp hx with rfl | hx
          · rcases hpath.cases_head with heq | ⟨c, hc, hpath⟩
            · exact absurd heq hne
            · exact ⟨c, List.mem_append_left _ hc, hpath⟩
          · exact ⟨x, List.mem_append_right _ hx, hpath⟩

end Search

/-! ## Termination -/

/-- No node of the stack lies below another. -/
def Apart (next : α → List α) (stack : List α) : Prop :=
  stack.Pairwise fun a b => ¬ Below next a b ∧ ¬ Below next b a

/-- What leads to a child leads to its parent. -/
theorem IsForest.below_parent (hf : IsForest next) {x d c : α} (hc : c ∈ next d)
    (h : Below next x c) : x = c ∨ Below next x d := by
  rcases h.cases_tail with heq | ⟨p, hpath, hp⟩
  · exact .inl heq.symm
  · rw [← hf.parent hp hc]
    exact .inr hpath

theorem IsForest.not_below_child (hf : IsForest next) {d c : α} (hc : c ∈ next d) :
    ¬ Below next c d := fun hpath => hf.acyclic d (TransGen.head'_iff.mpr ⟨c, hc, hpath⟩)

/-- Replacing the top of the stack by its children keeps the stack apart. -/
theorem IsForest.apart_step (hf : IsForest next) {d : α} {stack : List α}
    (h : Apart next (d :: stack)) : Apart next (next d ++ stack) := by
  obtain ⟨hd, hstack⟩ := List.pairwise_cons.mp h
  refine List.pairwise_append.mpr ⟨?_, hstack, fun c hc x hx => ⟨fun hcx => ?_, fun hxc => ?_⟩⟩
  · refine (hf.nodup d).imp_of_mem fun {a b} ha hb hne => ⟨fun hab => ?_, fun hba => ?_⟩
    · rcases hf.below_parent hb hab with heq | hpath
      · exact hne heq
      · exact hf.not_below_child ha hpath
    · rcases hf.below_parent ha hba with heq | hpath
      · exact hne heq.symm
      · exact hf.not_below_child hb hpath
  · exact (hd x hx).1 (.head hc hcx)
  · rcases hf.below_parent hc hxc with rfl | hpath
    · exact (hd x hx).1 (.single hc)
    · exact (hd x hx).2 hpath

open Classical in
/-- The nodes of `V` below the stack. -/
noncomputable def pending (next : α → List α) (V : Finset α) (stack : List α) : Finset α :=
  V.filter fun x => ∃ d ∈ stack, Below next d x

theorem mem_pending {V : Finset α} {stack : List α} {x : α} :
    x ∈ pending next V stack ↔ x ∈ V ∧ ∃ d ∈ stack, Below next d x := by
  classical
  simp only [pending, Finset.mem_filter]

theorem IsForest.pending_step (hf : IsForest next) {V : Finset α} {d : α} {stack : List α}
    (h : Apart next (d :: stack)) (hd : d ∈ V) :
    (pending next V (next d ++ stack)).card < (pending next V (d :: stack)).card := by
  refine Finset.card_lt_card (Finset.ssubset_iff_of_subset ?_ |>.mpr ⟨d, ?_, ?_⟩)
  · intro x hx
    obtain ⟨hV, c, hc, hpath⟩ := mem_pending.mp hx
    refine mem_pending.mpr ⟨hV, ?_⟩
    rcases List.mem_append.mp hc with hc | hc
    · exact ⟨d, List.mem_cons_self, .head hc hpath⟩
    · exact ⟨c, List.mem_cons_of_mem _ hc, hpath⟩
  · exact mem_pending.mpr ⟨hd, d, List.mem_cons_self, .refl⟩
  · intro hin
    obtain ⟨-, c, hc, hpath⟩ := mem_pending.mp hin
    rcases List.mem_append.mp hc with hc | hc
    · exact hf.not_below_child hc hpath
    · exact ((List.pairwise_cons.mp h).1 c hc).2 hpath

/-- A search of a forest on `V` ends within as many steps as there are nodes. -/
theorem IsForest.search_ends [DecidableEq α] (hf : IsForest next) {V : Finset α}
    (hV : ∀ a ∈ V, ∀ b ∈ next a, b ∈ V) (target : α) {fuel : Nat} {stack : List α}
    (h : Apart next stack) (hin : ∀ d ∈ stack, d ∈ V)
    (hfuel : (pending next V stack).card < fuel) : ∃ b, search next target fuel stack = some b := by
  induction fuel generalizing stack with
  | zero => cases hfuel
  | succ fuel ih =>
    cases stack with
    | nil => exact ⟨false, rfl⟩
    | cons d stack =>
      rw [search]
      split
      · exact ⟨true, rfl⟩
      · have hd : d ∈ V := hin d List.mem_cons_self
        have hless := hf.pending_step h hd
        refine ih (hf.apart_step h) (fun x hx => ?_) (by omega)
        rcases List.mem_append.mp hx with hx | hx
        · exact hV d hd x hx
        · exact hin x (List.mem_cons_of_mem _ hx)

/-- A search from one node of a forest decides what lies below it. -/
theorem IsForest.search_from [DecidableEq α] (hf : IsForest next) {V : Finset α}
    (hV : ∀ a ∈ V, ∀ b ∈ next a, b ∈ V) {root : α} (hroot : root ∈ V) (target : α) {fuel : Nat}
    (hfuel : V.card < fuel) :
    ∃ b, search next target fuel [root] = some b ∧ (b = true ↔ Below next root target) := by
  have hcard : (pending next V [root]).card ≤ V.card :=
    Finset.card_le_card fun x hx => (mem_pending.mp hx).1
  obtain ⟨b, hb⟩ := hf.search_ends hV target (List.pairwise_singleton _ root)
    (by simpa using hroot) (Nat.lt_of_le_of_lt hcard hfuel)
  refine ⟨b, hb, (search_eq_some hb).trans ?_⟩
  simp

end Forest
end BloomFS

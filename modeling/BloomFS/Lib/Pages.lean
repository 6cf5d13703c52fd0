/-
Reading a list in pages.

A reader asks for pages of the sizes it likes, and size zero asks for all that is left.
`pages` is what it gets and `unread` what remains after it: together they are the list,
in order.
-/
import Mathlib.Data.List.Basic

namespace BloomFS
namespace Pages

variable {α : Type}

def page (rest : List α) (n : Nat) : List α := if n = 0 then rest else rest.take n

def tail (rest : List α) (n : Nat) : List α := if n = 0 then [] else rest.drop n

def pages (rest : List α) : List Nat → List (List α)
  | [] => []
  | n :: ns => page rest n :: pages (tail rest n) ns

def unread (rest : List α) (ns : List Nat) : List α := ns.foldl tail rest

theorem page_append_tail (rest : List α) (n : Nat) : page rest n ++ tail rest n = rest := by
  unfold page tail
  split
  · exact List.append_nil rest
  · exact List.take_append_drop n rest

theorem length_page_le (rest : List α) {n : Nat} (h : 0 < n) : (page rest n).length ≤ n := by
  rw [page, if_neg (by omega)]
  exact List.length_take_le n rest

/-- Only an exhausted reader gets an empty page. -/
theorem page_eq_nil {rest : List α} {n : Nat} : page rest n = [] ↔ rest = [] := by
  unfold page
  split
  · rfl
  · rename_i hn
    simp [List.take_eq_nil_iff, hn]

theorem pages_append_unread (rest : List α) (ns : List Nat) :
    (pages rest ns).flatten ++ unread rest ns = rest := by
  induction ns generalizing rest with
  | nil => rfl
  | cons n ns ih =>
      have hstep := ih (tail rest n)
      rw [pages, List.flatten_cons, List.append_assoc]
      exact (congrArg (page rest n ++ ·) hstep).trans (page_append_tail rest n)

theorem take_pages (rest : List α) (ns : List Nat) (i : Nat) :
    (pages rest ns).take i = pages rest (ns.take i) := by
  induction ns generalizing rest i with
  | nil => simp [pages]
  | cons n ns ih =>
      cases i with
      | zero => rfl
      | succ i => rw [pages, List.take_succ_cons, List.take_succ_cons, pages, ih]

theorem getElem?_pages (rest : List α) (ns : List Nat) (i : Nat) :
    (pages rest ns)[i]? = (ns[i]?).map (page (unread rest (ns.take i))) := by
  induction ns generalizing rest i with
  | nil => rfl
  | cons n ns ih =>
      cases i with
      | zero => rfl
      | succ i =>
          rw [pages, List.getElem?_cons_succ, List.getElem?_cons_succ, ih]
          rfl

/-- What is promised to a reader of `whole` that asks for `ns` and gets `got`. -/
structure Fair (whole : List α) (ns : List Nat) (got : List (List α)) : Prop where
  answered : got.length = ns.length
  bounded : ∀ (i n : Nat) (part : List α), ns[i]? = some n → got[i]? = some part → 0 < n →
    part.length ≤ n
  -- an empty page comes only after everything was read
  exhausted : ∀ i, got[i]? = some [] → (got.take i).flatten = whole
  leading : ∀ i, (got.take i).flatten <+: whole
  complete : [] ∈ got → got.flatten = whole

theorem length_pages (rest : List α) (ns : List Nat) : (pages rest ns).length = ns.length := by
  induction ns generalizing rest with
  | nil => rfl
  | cons n ns ih => rw [pages, List.length_cons, List.length_cons, ih]

theorem pages_leading (rest : List α) (ns : List Nat) : (pages rest ns).flatten <+: rest :=
  ⟨unread rest ns, pages_append_unread rest ns⟩

theorem pages_exhausted {rest : List α} {ns : List Nat} {i : Nat}
    (h : (pages rest ns)[i]? = some []) : ((pages rest ns).take i).flatten = rest := by
  rw [getElem?_pages, Option.map_eq_some_iff] at h
  obtain ⟨n, _, hpage⟩ := h
  have hall := pages_append_unread rest (ns.take i)
  rw [page_eq_nil.mp hpage, List.append_nil] at hall
  rw [take_pages, hall]

theorem pages_complete {rest : List α} {ns : List Nat} (h : [] ∈ pages rest ns) :
    (pages rest ns).flatten = rest := by
  obtain ⟨i, hi⟩ := List.mem_iff_getElem?.mp h
  have hsplit := congrArg List.flatten (List.take_append_drop i (pages rest ns))
  rw [List.flatten_append, pages_exhausted hi] at hsplit
  apply List.IsPrefix.eq_of_length_le (pages_leading rest ns)
  rw [← hsplit, List.length_append]
  exact Nat.le_add_right _ _

theorem fair_pages (whole : List α) (ns : List Nat) : Fair whole ns (pages whole ns) where
  answered := length_pages whole ns
  bounded i n part hn hpart hpos := by
    rw [getElem?_pages, hn, Option.map_some, Option.some.injEq] at hpart
    rw [← hpart]
    exact length_page_le _ hpos
  exhausted _ h := pages_exhausted h
  leading i := by
    rw [take_pages]
    exact pages_leading whole (ns.take i)
  complete := pages_complete

end Pages
end BloomFS

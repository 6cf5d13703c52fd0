/-
The directory stream: a cursor over a snapshot of the names of a directory.

`next` computes the end of its slice in `usize`, and the sum of the cursor and the size
asked for may pass the word.  A build with overflow checks panics there; a build without
them wraps, and the slice then ends before it starts, which panics as well.  A panic is
`none`, and `checks` says which build it is.

As long as no sum passes the word, the stream reads the snapshot in pages.
-/
import BloomFS.Fs.Ops
import BloomFS.Lib.Pages

namespace BloomFS
namespace Fs

/-- The names of a directory, as many as a `usize` counts. -/
def Snapshot : Type := { entries : List String // entries.length < 2 ^ 64 }

structure DirHandle where
  entries : List String
  pos : UInt64
  addressable : entries.length < 2 ^ 64
  inRange : pos.toNat ≤ entries.length

namespace DirHandle

/-- A stream at its start, over the names that `openDirStream` returned. -/
def ofSnapshot (s : Snapshot) : DirHandle where
  entries := s.val
  pos := 0
  addressable := s.property
  inRange := Nat.zero_le _

def plus (checks : Bool) (a b : UInt64) : Option UInt64 :=
  if checks && decide (2 ^ 64 ≤ a.toNat + b.toNat) then none else some (a + b)

def len (h : DirHandle) : UInt64 := UInt64.ofNat h.entries.length

/-- Where the slice of a call ends. -/
def endOf (checks : Bool) (h : DirHandle) (n : UInt64) : Option UInt64 :=
  if 0 < n then do
    if (← plus checks h.pos n) < h.len then plus checks h.pos n
    else return h.len
  else return h.len

def next (checks : Bool) (h : DirHandle) (n : UInt64) : Option (List String × DirHandle) :=
  if h.len ≤ h.pos then some ([], h)
  else do
    let end_ ← h.endOf checks n
    -- the bounds check of a slice
    if hs : h.pos ≤ end_ ∧ end_.toNat ≤ h.entries.length then
      some ((h.entries.take end_.toNat).drop h.pos.toNat, { h with pos := end_, inRange := hs.2 })
    else none

/-- The slices of a sequence of calls. -/
def reads (checks : Bool) : DirHandle → List UInt64 → Option (List (List String))
  | _, [] => some []
  | h, n :: ns => do
      let (names, h) ← h.next checks n
      let rest ← reads checks h ns
      return names :: rest

/-! ## One call -/

variable {checks : Bool} {h : DirHandle} {n : UInt64}

/-- What the stream has not returned yet. -/
def rest (h : DirHandle) : List String := h.entries.drop h.pos.toNat

theorem toNat_len (h : DirHandle) : h.len.toNat = h.entries.length :=
    UInt64.toNat_ofNat_of_lt' h.addressable

/-- The sum of the cursor and the size asked for is taken only before the end. -/
def Fits (h : DirHandle) (n : UInt64) : Prop :=
  h.entries.length ≤ h.pos.toNat ∨ h.pos.toNat + n.toNat < 2 ^ 64

/-- The cursor after a call. -/
def reach (h : DirHandle) (n : UInt64) : Nat :=
  if n = 0 then h.entries.length else min (h.pos.toNat + n.toNat) h.entries.length

theorem plus_of_lt (checks : Bool) {a b : UInt64} (hlt : a.toNat + b.toNat < 2 ^ 64) :
    plus checks a b = some (a + b) ∧ (a + b).toNat = a.toNat + b.toNat := by
  have hdec : decide (2 ^ 64 ≤ a.toNat + b.toNat) = false := decide_eq_false (by omega)
  rw [plus, hdec, Bool.and_false, UInt64.toNat_add, Nat.mod_eq_of_lt hlt]
  exact ⟨rfl, rfl⟩

theorem pos_iff_ne_zero : 0 < n ↔ n ≠ 0 := by
  rw [UInt64.lt_iff_toNat_lt, ne_eq, ← UInt64.toNat_inj]
  exact Nat.pos_iff_ne_zero

theorem endOf_of_lt (checks : Bool) (hlt : h.pos.toNat + n.toNat < 2 ^ 64) :
    ∃ end_, h.endOf checks n = some end_ ∧ end_.toNat = h.reach n := by
  have hlen := toNat_len h
  unfold endOf reach
  by_cases hn : n = 0
  · rw [if_neg (by rw [pos_iff_ne_zero]; exact not_not.mpr hn), if_pos hn]
    exact ⟨h.len, rfl, hlen⟩
  · obtain ⟨hplus, hsum⟩ := plus_of_lt checks hlt
    rw [if_pos (pos_iff_ne_zero.mpr hn), if_neg hn, hplus]
    simp only [Option.bind_eq_bind, Option.bind_some, UInt64.lt_iff_toNat_lt, hsum, hlen,
      Option.pure_def]
    split
    · exact ⟨_, rfl, by omega⟩
    · exact ⟨_, rfl, by omega⟩

theorem le_reach (h : DirHandle) (n : UInt64) : h.pos.toNat ≤ h.reach n ∧
    h.reach n ≤ h.entries.length := by
  have hin := h.inRange
  unfold reach
  split <;> omega

/-- The slice of a call is a page of what is left. -/
theorem slice_eq_page (h : DirHandle) (n : UInt64) :
    (h.entries.take (h.reach n)).drop h.pos.toNat = Pages.page h.rest n.toNat := by
  unfold reach Pages.page rest
  by_cases hn : n = 0
  · subst hn
    simp
  · have hnat : n.toNat ≠ 0 := fun hz => hn (UInt64.toNat.inj hz)
    rw [if_neg hn, if_neg hnat, ← List.take_eq_take_min, List.take_drop]

theorem drop_eq_tail (h : DirHandle) (n : UInt64) :
    h.entries.drop (h.reach n) = Pages.tail h.rest n.toNat := by
  unfold reach Pages.tail rest
  by_cases hn : n = 0
  · subst hn
    simp
  · have hnat : n.toNat ≠ 0 := fun hz => hn (UInt64.toNat.inj hz)
    rw [if_neg hn, if_neg hnat, List.drop_drop, ← List.drop_eq_drop_min]

theorem next_of_fits (checks : Bool) (hfits : h.Fits n) :
    ∃ h', h.next checks n = some (Pages.page h.rest n.toNat, h') ∧
    h'.rest = Pages.tail h.rest n.toNat ∧
      h'.entries = h.entries ∧ h'.pos.toNat = h.reach n := by
  have hlen := toNat_len h
  obtain ⟨hle, hin⟩ := le_reach h n
  rw [← slice_eq_page, ← drop_eq_tail]
  by_cases hend : h.len ≤ h.pos
  · have hpos : h.reach n = h.pos.toNat := by
      rw [UInt64.le_iff_toNat_le] at hend
      omega
    refine ⟨h, ?_, congrArg h.entries.drop hpos.symm, rfl, hpos.symm⟩
    rw [next, if_pos hend, hpos, List.drop_take, Nat.sub_self, List.take_zero]
  · have hlt : h.pos.toNat + n.toNat < 2 ^ 64 := by
      rw [UInt64.le_iff_toNat_le, hlen] at hend
      exact hfits.resolve_left hend
    obtain ⟨end_, hend_, hreach⟩ := endOf_of_lt checks hlt
    have hbounds : h.pos ≤ end_ ∧ end_.toNat ≤ h.entries.length := by
      rw [UInt64.le_iff_toNat_le, hreach]
      exact ⟨hle, hin⟩
    refine ⟨{ h with pos := end_, inRange := hbounds.2 }, ?_, congrArg h.entries.drop hreach, rfl,
      hreach⟩
    rw [next, if_neg hend, hend_, ← hreach]
    exact dif_pos hbounds

/-- A call that does not fit panics, with overflow checks and without. -/
theorem next_of_not_fits (hfits : ¬ h.Fits n) : h.next checks n = none := by
  obtain ⟨hbefore, hover⟩ := not_or.mp hfits
  have hpos := UInt64.toNat_lt h.pos
  have hnlt := UInt64.toNat_lt n
  have hlen := toNat_len h
  have hn : 0 < n := by
    rw [UInt64.lt_iff_toNat_lt]
    change 0 < n.toNat
    omega
  have hnot : ¬ h.len ≤ h.pos := by
    rw [UInt64.le_iff_toNat_le]
    omega
  rw [next, if_neg hnot, endOf, if_pos hn]
  cases checks with
  | true =>
      have hplus : plus true h.pos n = none := if_pos (by simpa using Nat.not_lt.mp hover)
      rw [hplus]
      rfl
  | false =>
      -- the sum wraps to before the cursor
      have hplus : plus false h.pos n = some (h.pos + n) := rfl
      have hwrap : (h.pos + n).toNat = h.pos.toNat + n.toNat - 2 ^ 64 := by
        rw [UInt64.toNat_add]
        omega
      have hshort : h.pos + n < h.len := by
        rw [UInt64.lt_iff_toNat_lt]
        omega
      have hback : ¬ (h.pos ≤ h.pos + n ∧ (h.pos + n).toNat ≤ h.entries.length) := by
        rw [UInt64.le_iff_toNat_le]
        omega
      simp only [hplus, Option.bind_eq_bind, Option.bind_some, if_pos hshort, dif_neg hback]

/-! ## A sequence of calls -/

/-- How much the first `i` calls ask for. -/
def asked (ns : List UInt64) (i : Nat) : Nat := ((ns.take i).map UInt64.toNat).sum

/-- Every call comes after the end of the snapshot, or its sum stays in the word. -/
def FitsAll (len pos : Nat) (ns : List UInt64) : Prop :=
  ∀ i n, ns[i]? = some n →
    0 ∈ ns.take i ∨ len ≤ pos + asked ns i ∨ pos + asked ns i + n.toNat < 2 ^ 64

theorem asked_cons (n : UInt64) (ns : List UInt64) (i : Nat) :
    asked (n :: ns) (i + 1) = n.toNat + asked ns i := by
  simp [asked]

theorem fitsAll_cons (h : DirHandle) (n : UInt64) (ns : List UInt64) :
    FitsAll h.entries.length h.pos.toNat (n :: ns) ↔
      h.Fits n ∧ FitsAll h.entries.length (h.reach n) ns := by
  -- the cursor is either the sum of the sizes or at the end
  have hreach : ∀ i m, (0 ∈ (n :: ns).take (i + 1) ∨
      h.entries.length ≤ h.pos.toNat + asked (n :: ns) (i + 1) ∨
      h.pos.toNat + asked (n :: ns) (i + 1) + m < 2 ^ 64) ↔
      (0 ∈ ns.take i ∨ h.entries.length ≤ h.reach n + asked ns i ∨ h.reach n + asked ns i +
          m < 2 ^ 64) := by
    intro i m
    rw [asked_cons, List.take_succ_cons, List.mem_cons]
    unfold reach
    by_cases hn : n = 0
    · simp [hn]
    · rw [if_neg hn, or_iff_right (Ne.symm hn)]
      apply or_congr_right
      omega
  constructor
  · intro hall
    refine ⟨?_, fun i m hm => (hreach i m.toNat).mp (hall (i + 1) m hm)⟩
    simpa [asked, Fits] using hall 0 n rfl
  · intro hall i m hm
    cases i with
    | zero =>
        cases hm
        simpa [asked, Fits] using hall.1
    | succ i => exact (hreach i m.toNat).mpr (hall.2 i m hm)

/-- The calls either read the snapshot in pages or one of them panics. -/
theorem reads_eq (checks : Bool) (h : DirHandle) (ns : List UInt64) :
    (FitsAll h.entries.length h.pos.toNat ns →
      h.reads checks ns = some (Pages.pages h.rest (ns.map UInt64.toNat))) ∧
    (¬ FitsAll h.entries.length h.pos.toNat ns → h.reads checks ns = none) := by
  induction ns generalizing h with
  | nil => exact ⟨fun _ => rfl, fun hnot => absurd (fun i n hn => by simp at hn) hnot⟩
  | cons n ns ih =>
      rw [fitsAll_cons]
      by_cases hfits : h.Fits n
      · obtain ⟨h', hnext, hrest, hentries, hpos⟩ := next_of_fits checks hfits
        obtain ⟨hsome, hnone⟩ := ih h'
        rw [hentries, hpos, hrest] at hsome
        rw [hentries, hpos] at hnone
        constructor
        · intro hall
          simp only [reads, hnext, hsome hall.2, Option.bind_eq_bind, Option.bind_some,
            Option.pure_def]
          rfl
        · intro hnot
          have htail := hnone fun hall => hnot ⟨hfits, hall⟩
          simp only [reads, hnext, htail, Option.bind_eq_bind, Option.bind_some, Option.bind_none]
      · refine ⟨fun hall => absurd hall.1 hfits, fun _ => ?_⟩
        simp only [reads, next_of_not_fits hfits, Option.bind_eq_bind, Option.bind_none]

/-- Streams page through their snapshot exactly if no call before its end asks for more
than the word has left. -/
theorem reads_fair_iff (checks : Bool) (s : Snapshot) (ns : List UInt64) :
    (∃ got, (ofSnapshot s).reads checks ns = some got ∧
      Pages.Fair s.val (ns.map UInt64.toNat) got) ↔
      ∀ i n, ns[i]? = some n → 0 ∈ ns.take i ∨ s.val.length ≤ asked ns i ∨
          asked ns i + n.toNat < 2 ^ 64 := by
  have hiff : FitsAll (ofSnapshot s).entries.length (ofSnapshot s).pos.toNat ns ↔
      ∀ i n, ns[i]? = some n → 0 ∈ ns.take i ∨ s.val.length ≤ asked ns i ∨
      asked ns i + n.toNat < 2 ^ 64 := by
    simp only [FitsAll, ofSnapshot, UInt64.toNat_zero, Nat.zero_add]
  obtain ⟨hsome, hnone⟩ := reads_eq checks (ofSnapshot s) ns
  rw [← hiff]
  constructor
  · intro ⟨got, hgot, _⟩
    by_contra hnot
    rw [hnone hnot] at hgot
    cases hgot
  · intro hall
    exact ⟨_, hsome hall, Pages.fair_pages s.val (ns.map UInt64.toNat)⟩

/-- Two names, the first read alone and the rest with the largest size there is: the second
call panics, with overflow checks and without. -/
theorem reads_overflow :
    ∃ s : Snapshot, s.val = ["a", "b"] ∧
      (∀ checks, ((ofSnapshot s).reads checks [1]).isSome) ∧
      ∀ checks, (ofSnapshot s).reads checks [1, 18446744073709551615] = none := by
  refine ⟨⟨["a", "b"], by decide⟩, rfl, ?_, ?_⟩
  · intro checks
    cases checks <;> rfl
  · intro checks
    cases checks <;> rfl

end DirHandle
end Fs
end BloomFS

/-
The free-space allocator: one bit per cluster, set when the cluster is used.

The words of the source are a function from cluster numbers to bits here, and
`marshal` lays them out as 64-bit words.  `deferred` holds the ranges released
since the last commit, whose bits stay set until `applyDeferred`.
-/
import BloomFS.Lib.Bytes
import Mathlib.Data.Nat.Bitwise
import Mathlib.Data.Finset.Card
import Mathlib.Data.Finset.Range
import Mathlib.Order.Interval.Finset.Nat

namespace BloomFS
namespace Alloc

open Bytes

inductive Error where
  | noSpace
  | zeroCount
  | short
  deriving Repr, DecidableEq

structure FreeRange where
  start : Nat
  count : Nat
  deriving Repr, DecidableEq

@[ext]
structure Bitmap where
  bits : Nat → Bool
  total : Nat
  used : Nat
  deferred : List FreeRange

namespace Bitmap

def new (total : Nat) : Bitmap :=
  { bits := fun _ => false, total := total, used := 0, deferred := [] }

def get (b : Bitmap) (i : Nat) : Bool := b.bits i

def set (b : Bitmap) (i : Nat) : Bitmap := { b with bits := Function.update b.bits i true }

def clr (b : Bitmap) (i : Nat) : Bitmap := { b with bits := Function.update b.bits i false }

/-- The clusters of `[start, start + count)` that the device has, in order. -/
def span (b : Bitmap) (start count : Nat) : List Nat :=
  List.range' start (min (start + count) b.total - start)

def reserve (b : Bitmap) (start count : Nat) : Bitmap :=
  (b.span start count).foldl
    (fun b i => if b.get i then b else { b.set i with used := b.used + 1 }) b

def free (b : Bitmap) (start count : Nat) : Bitmap :=
  (b.span start count).foldl
    (fun b i => if b.get i then { b.clr i with used := b.used - 1 } else b) b

/-- The scan of `alloc` over the clusters `i`, `i + 1`, ... with `left` of them
still to visit: `run` clear bits end at `i`, and they begin at `start`. -/
def scan (bits : Nat → Bool) (count : Nat) : (left i run start : Nat) → Option Nat
  | 0, _, _, _ => none
  | left + 1, i, run, start =>
      if bits i then scan bits count left (i + 1) 0 start
      else
        let start := if run = 0 then i else start
        if run + 1 = count then some start
        else scan bits count left (i + 1) (run + 1) start

def alloc (b : Bitmap) (count : Nat) : Except Error (Nat × Bitmap) :=
  if count = 0 then .error .zeroCount
  else match scan b.bits count b.total 0 0 0 with
    | none => .error .noSpace
    | some start =>
        .ok (start,
          { (List.range' start count).foldl set b with used := b.used + count })

def defer (b : Bitmap) (start count : Nat) : Bitmap :=
  { b with deferred := b.deferred ++ [⟨start, count⟩] }

def applyDeferred (b : Bitmap) : Bitmap :=
  b.deferred.foldl (fun b r => b.free r.start r.count) { b with deferred := [] }

def pending (b : Bitmap) : Nat := b.deferred.length

def deferredCount (b : Bitmap) : Nat := (b.deferred.map (·.count)).sum

def available (b : Bitmap) : Nat := b.total - b.used

def words (b : Bitmap) : Nat := (b.total + 63) / 64

def marshalLen (b : Bitmap) : Nat := 8 + b.words * 8

def word (bits : Nat → Bool) (j : Nat) : Nat := Nat.ofBits (fun k : Fin 64 => bits (64 * j + k))

def marshal (b : Bitmap) : Bytes :=
  leBytes 8 b.total ++ (List.range b.words).flatMap (fun j => leBytes 8 (word b.bits j))

/-- How many of the first `n` clusters are set. -/
def setBits (bits : Nat → Bool) (n : Nat) : Nat :=
  ((Finset.range n).filter (fun i => bits i = true)).card

def unmarshal (data : Bytes) : Except Error Bitmap :=
  if data.length < 8 then .error .short
  else
    let total := leNat (slice data 0 8)
    let b := new total
    let body := data.drop 8
    if body.length < b.words * 8 then .error .short
    else
      let bits := fun i =>
        if i < 64 * b.words then (leNat (slice body (i / 64 * 8) 8)).testBit (i % 64) else false
      .ok { b with bits := bits, used := setBits bits total }

/-! ## What each operation does to the bits -/

theorem foldl_set_bits (l : List Nat) (b : Bitmap) (i : Nat) :
    (l.foldl set b).bits i = (b.bits i || decide (i ∈ l)) := by
  induction l generalizing b with
  | nil => simp
  | cons a l ih =>
    rw [List.foldl_cons, ih, set]
    by_cases h : i = a
    · subst h; simp
    · simp [h]

theorem foldl_set_total (l : List Nat) (b : Bitmap) : (l.foldl set b).total = b.total := by
  induction l generalizing b with
  | nil => rfl
  | cons a l ih => rw [List.foldl_cons, ih]; rfl

theorem foldl_set_deferred (l : List Nat) (b : Bitmap) :
    (l.foldl set b).deferred = b.deferred := by
  induction l generalizing b with
  | nil => rfl
  | cons a l ih => rw [List.foldl_cons, ih]; rfl

theorem mem_span {b : Bitmap} {start count i : Nat} :
    i ∈ b.span start count ↔ start ≤ i ∧ i < start + count ∧ i < b.total := by
  rw [span, List.mem_range'_1]
  omega

theorem setBits_succ (bits : Nat → Bool) (n : Nat) :
    setBits bits (n + 1) = setBits bits n + if bits n then 1 else 0 := by
  unfold setBits
  rw [Finset.range_add_one, Finset.filter_insert]
  by_cases h : bits n = true
  · rw [if_pos h, Finset.card_insert_of_notMem (by simp), if_pos h]
  · rw [if_neg h, if_neg h, Nat.add_zero]

theorem setBits_congr {bits bits' : Nat → Bool} {n : Nat} (h : ∀ i, i < n → bits i = bits' i) :
    setBits bits n = setBits bits' n := by
  induction n with
  | zero => rfl
  | succ n ih =>
    rw [setBits_succ, setBits_succ, ih (fun i hi => h i (by omega)), h n (by omega)]

theorem setBits_update_true {bits : Nat → Bool} {n i : Nat} (hi : i < n) (hb : bits i = false) :
    setBits (Function.update bits i true) n = setBits bits n + 1 := by
  induction n with
  | zero => omega
  | succ n ih =>
    rw [setBits_succ, setBits_succ]
    by_cases h : i = n
    · subst h
      have hlow : setBits (Function.update bits i true) i = setBits bits i :=
        setBits_congr (fun j hj => by rw [Function.update_of_ne (by omega)])
      rw [hlow, Function.update_self, hb]
      simp
    · rw [ih (by omega), Function.update_of_ne (by omega)]
      omega

theorem setBits_update_false {bits : Nat → Bool} {n i : Nat} (hi : i < n) (hb : bits i = true) :
    setBits (Function.update bits i false) n + 1 = setBits bits n := by
  have h : setBits (Function.update (Function.update bits i false) i true) n =
      setBits (Function.update bits i false) n + 1 :=
    setBits_update_true hi (Function.update_self ..)
  rw [Function.update_idem, ← hb, Function.update_eq_self] at h
  exact h.symm

theorem setBits_le (bits : Nat → Bool) (n : Nat) : setBits bits n ≤ n := by
  rw [setBits]
  have h := Finset.card_filter_le (Finset.range n) (fun i => bits i = true)
  simpa only [Finset.card_range] using h

/-- The bit count and the bits agree. -/
def Counted (b : Bitmap) : Prop := b.used = setBits b.bits b.total

theorem Counted.used_le {b : Bitmap} (h : b.Counted) : b.used ≤ b.total := by
  rw [h]
  exact setBits_le _ _

theorem new_counted (n : Nat) : (new n).Counted := by
  simp [Counted, new, setBits]

theorem free_step (l : List Nat) (b : Bitmap) (hl : ∀ i ∈ l, i < b.total) (hc : b.Counted) :
    let b' := l.foldl (fun b i => if b.get i then { b.clr i with used := b.used - 1 } else b) b
    b'.total = b.total ∧ b'.deferred = b.deferred ∧ b'.Counted ∧
      ∀ i, b'.bits i = (b.bits i && !decide (i ∈ l)) := by
  induction l generalizing b with
  | nil => exact ⟨rfl, rfl, hc, by simp⟩
  | cons a l ih =>
    rw [List.foldl_cons]
    have ha : a < b.total := hl a List.mem_cons_self
    have htail : ∀ i ∈ l, i < b.total := fun i hi => hl i (List.mem_cons_of_mem _ hi)
    by_cases hb : b.get a = true
    · rw [if_pos hb]
      have hset : b.bits a = true := hb
      have hcount : { b.clr a with used := b.used - 1 }.Counted := by
        have h := setBits_update_false ha hset
        show b.used - 1 = setBits (Function.update b.bits a false) b.total
        have hu : b.used = setBits b.bits b.total := hc
        omega
      obtain ⟨h1, h2, h3, h4⟩ := ih { b.clr a with used := b.used - 1 } htail hcount
      refine ⟨h1, h2, h3, fun i => ?_⟩
      rw [h4 i]
      show (Function.update b.bits a false i && _) = _
      by_cases hi : i = a
      · subst hi; simp
      · simp [hi]
    · rw [if_neg hb]
      have hclear : b.bits a = false := by simpa [get] using hb
      obtain ⟨h1, h2, h3, h4⟩ := ih b htail hc
      refine ⟨h1, h2, h3, fun i => ?_⟩
      rw [h4 i]
      by_cases hi : i = a
      · subst hi; simp [hclear]
      · simp [hi]

theorem reserve_step (l : List Nat) (b : Bitmap) (hl : ∀ i ∈ l, i < b.total) (hc : b.Counted) :
    let b' := l.foldl (fun b i => if b.get i then b else { b.set i with used := b.used + 1 }) b
    b'.total = b.total ∧ b'.deferred = b.deferred ∧ b'.Counted ∧
      ∀ i, b'.bits i = (b.bits i || decide (i ∈ l)) := by
  induction l generalizing b with
  | nil => exact ⟨rfl, rfl, hc, by simp⟩
  | cons a l ih =>
    rw [List.foldl_cons]
    have ha : a < b.total := hl a List.mem_cons_self
    have htail : ∀ i ∈ l, i < b.total := fun i hi => hl i (List.mem_cons_of_mem _ hi)
    by_cases hb : b.get a = true
    · rw [if_pos hb]
      have hset : b.bits a = true := hb
      obtain ⟨h1, h2, h3, h4⟩ := ih b htail hc
      refine ⟨h1, h2, h3, fun i => ?_⟩
      rw [h4 i]
      by_cases hi : i = a
      · subst hi; simp [hset]
      · simp [hi]
    · rw [if_neg hb]
      have hclear : b.bits a = false := by simpa [get] using hb
      have hcount : { b.set a with used := b.used + 1 }.Counted := by
        show b.used + 1 = setBits (Function.update b.bits a true) b.total
        rw [setBits_update_true ha hclear]
        have hu : b.used = setBits b.bits b.total := hc
        omega
      obtain ⟨h1, h2, h3, h4⟩ := ih { b.set a with used := b.used + 1 } htail hcount
      refine ⟨h1, h2, h3, fun i => ?_⟩
      rw [h4 i]
      show (Function.update b.bits a true i || _) = _
      by_cases hi : i = a
      · subst hi; simp
      · simp [hi]

theorem deferred_free (b : Bitmap) (start count : Nat) :
    (b.free start count).deferred = b.deferred := by
  unfold free
  generalize b.span start count = l
  induction l generalizing b with
  | nil => rfl
  | cons a l ih =>
    rw [List.foldl_cons, ih]
    split <;> rfl

theorem free_spec {b : Bitmap} (hc : b.Counted) (start count : Nat) :
    (b.free start count).total = b.total ∧ (b.free start count).deferred = b.deferred ∧
      (b.free start count).Counted ∧
      ∀ i, (b.free start count).bits i =
        (b.bits i && !decide (start ≤ i ∧ i < start + count ∧ i < b.total)) := by
  have h := free_step (b.span start count) b (fun i hi => (mem_span.mp hi).2.2) hc
  simp only [mem_span] at h
  exact h

theorem reserve_spec {b : Bitmap} (hc : b.Counted) (start count : Nat) :
    (b.reserve start count).total = b.total ∧ (b.reserve start count).deferred = b.deferred ∧
      (b.reserve start count).Counted ∧
      ∀ i, (b.reserve start count).bits i =
        (b.bits i || decide (start ≤ i ∧ i < start + count ∧ i < b.total)) := by
  have h := reserve_step (b.span start count) b (fun i hi => (mem_span.mp hi).2.2) hc
  simp only [mem_span] at h
  exact h

/-- `i` lies in one of the ranges `rs`. -/
def InRanges (rs : List FreeRange) (i : Nat) : Prop :=
  ∃ r ∈ rs, r.start ≤ i ∧ i < r.start + r.count

theorem foldl_free_spec (rs : List FreeRange) {b : Bitmap} (hc : b.Counted) :
    let b' := rs.foldl (fun b r => b.free r.start r.count) b
    b'.total = b.total ∧ b'.deferred = b.deferred ∧ b'.Counted ∧
      ∀ i, b'.bits i = true ↔ b.bits i = true ∧ (i < b.total → ¬ InRanges rs i) := by
  induction rs generalizing b with
  | nil => exact ⟨rfl, rfl, hc, by simp [InRanges]⟩
  | cons r rs ih =>
    rw [List.foldl_cons]
    obtain ⟨f1, f2, f3, f4⟩ := free_spec hc r.start r.count
    obtain ⟨h1, h2, h3, h4⟩ := ih f3
    refine ⟨h1.trans f1, h2.trans f2, h3, fun i => ?_⟩
    rw [h4 i, f4 i, f1]
    simp only [InRanges, List.mem_cons, exists_eq_or_imp, Bool.and_eq_true, Bool.not_eq_true',
      decide_eq_false_iff_not]
    constructor
    · rintro ⟨⟨hb, hr⟩, hrest⟩
      refine ⟨hb, fun hi hor => ?_⟩
      rcases hor with hr' | hr'
      · exact hr ⟨hr'.1, hr'.2, hi⟩
      · exact hrest hi hr'
    · rintro ⟨hb, hno⟩
      exact ⟨⟨hb, fun hr => hno hr.2.2 (Or.inl ⟨hr.1, hr.2.1⟩)⟩, fun hi hr => hno hi (Or.inr hr)⟩

theorem applyDeferred_nil {b : Bitmap} (h : b.deferred = []) : b.applyDeferred = b := by
  obtain ⟨bits, total, used, deferred⟩ := b
  cases h
  rfl

theorem applyDeferred_spec {b : Bitmap} (hc : b.Counted) :
    b.applyDeferred.total = b.total ∧ b.applyDeferred.deferred = [] ∧ b.applyDeferred.Counted ∧
      ∀ i, b.applyDeferred.bits i = true ↔
        b.bits i = true ∧ (i < b.total → ¬ InRanges b.deferred i) :=
  foldl_free_spec b.deferred (b := { b with deferred := [] }) hc

/-! ## Serialization -/

@[simp] theorem length_marshal (b : Bitmap) : b.marshal.length = b.marshalLen := by
  rw [marshal, List.length_append, length_leBytes,
    length_flatMap_width (w := 8) (fun j _ => length_leBytes 8 _), List.length_range, marshalLen]

theorem testBit_word (bits : Nat → Bool) (j k : Nat) (hk : k < 64) :
    (word bits j).testBit k = bits (64 * j + k) := by
  rw [word, Nat.testBit_ofBits_lt _ _ hk]

theorem word_lt (bits : Nat → Bool) (j : Nat) : word bits j < 256 ^ 8 :=
  Nat.lt_of_lt_of_le (Nat.ofBits_lt_two_pow _) (by decide)

/-- A marshalled bitmap reads back with a fresh count, nothing deferred, and its
bits up to the end of the last word. -/
theorem unmarshal_marshal_words {b : Bitmap} (ht : b.total < 2 ^ 64) :
    ∃ bits, unmarshal b.marshal = .ok ⟨bits, b.total, setBits bits b.total, []⟩ ∧
      ∀ i, bits i = if i < 64 * b.words then b.bits i else false := by
  have hlen : b.marshal.length = 8 + b.words * 8 := length_marshal b
  have htot : leNat (slice b.marshal 0 8) = b.total := by
    rw [marshal, slice_zero_append (length_leBytes 8 _), leNat_leBytes_of_lt]
    exact Nat.lt_of_lt_of_le ht (by decide)
  have hbody : b.marshal.drop 8 =
      (List.range b.words).flatMap (fun j => leBytes 8 (word b.bits j)) := by
    rw [marshal, List.drop_left' (length_leBytes 8 _)]
  have hwords : (new b.total).words = b.words := rfl
  unfold unmarshal
  rw [if_neg (by omega)]
  simp only [htot]
  rw [if_neg (by rw [List.length_drop, hlen, hwords]; omega)]
  refine ⟨_, rfl, fun i => ?_⟩
  rw [hwords]
  by_cases hin : i < 64 * b.words
  · have hw : i / 64 < b.words := by omega
    rw [if_pos hin, if_pos hin, hbody, slice_flatMap_range (fun j _ => length_leBytes 8 _) hw,
      leNat_leBytes_of_lt (word_lt _ _), testBit_word _ _ _ (Nat.mod_lt _ (by decide)),
      Nat.div_add_mod]
  · rw [if_neg hin, if_neg hin]

theorem total_le_words (b : Bitmap) : b.total ≤ 64 * b.words := by
  unfold words
  omega

/-- What a mount reads back from a marshalled bitmap: the same bits, a fresh
count, and nothing deferred. -/
theorem unmarshal_marshal {b : Bitmap} (ht : b.total < 2 ^ 64) :
    ∃ b', unmarshal b.marshal = .ok b' ∧ b'.total = b.total ∧ b'.deferred = [] ∧ b'.Counted ∧
      ∀ i, i < b.total → b'.bits i = b.bits i := by
  obtain ⟨bits, hun, hbits⟩ := unmarshal_marshal_words ht
  have hw := b.total_le_words
  exact ⟨_, hun, rfl, rfl, rfl, fun i hi => (hbits i).trans (if_pos (by omega))⟩

theorem unmarshal_deferred {data : Bytes} {b : Bitmap} (h : unmarshal data = .ok b) :
    b.deferred = [] := by
  unfold unmarshal at h
  split at h
  · cases h
  · dsimp only at h
    split at h
    · cases h
    · cases h
      rfl

/-- A counted bitmap without stray bits reads back as it was, apart from what was
deferred. -/
theorem unmarshal_marshal_eq {b : Bitmap} (ht : b.total < 2 ^ 64) (hc : b.Counted)
    (hz : ∀ i, b.total ≤ i → b.bits i = false) :
    unmarshal b.marshal = .ok { b with deferred := [] } := by
  obtain ⟨bits, hun, hbits⟩ := unmarshal_marshal_words ht
  have hw := b.total_le_words
  have hsame : bits = b.bits := by
    funext i
    rw [hbits]
    by_cases hi : i < 64 * b.words
    · rw [if_pos hi]
    · rw [if_neg hi, hz i (by omega)]
  have hcnt : setBits b.bits b.total = b.used := Eq.symm hc
  rw [hun, hsame, hcnt]

/-! ## First fit -/

/-- `[s, s + count)` is clear and inside the first `n` clusters. -/
def FreeRun (bits : Nat → Bool) (n count s : Nat) : Prop :=
  s + count ≤ n ∧ ∀ i, s ≤ i → i < s + count → bits i = false

/-- The state of the scan at cluster `i`: the `run` bits before `i` are clear,
the run cannot be extended to the left, and no run of `count` ends by `i`. -/
structure Scanned (bits : Nat → Bool) (count i run start : Nat) : Prop where
  run_le : run ≤ i
  start_eq : run ≠ 0 → start + run = i
  clear : ∀ j, i - run ≤ j → j < i → bits j = false
  left_end : i = run ∨ bits (i - run - 1) = true
  short : run < count
  none_before : ∀ s, ¬ FreeRun bits i count s

theorem Scanned.blocked {bits : Nat → Bool} {count i run start s : Nat}
    (h : Scanned bits count i run start) (hs : s < i - run) : ∃ j, s ≤ j ∧ j < i - run ∧
    bits j = true := by
  rcases h.left_end with he | he
  · omega
  · exact ⟨i - run - 1, by omega, by omega, he⟩

theorem Scanned.step_set {bits : Nat → Bool} {count i run start : Nat}
    (h : Scanned bits count i run start) (hb : bits i = true) :
    Scanned bits count (i + 1) 0 start where
  run_le := Nat.zero_le _
  start_eq := fun h0 => absurd rfl h0
  clear := fun j h1 h2 => by omega
  left_end := Or.inr (by simpa using hb)
  short := Nat.lt_of_le_of_lt (Nat.zero_le _) h.short
  none_before := by
    rintro s ⟨hs1, hs2⟩
    by_cases hlt : s + count ≤ i
    · exact h.none_before s ⟨hlt, hs2⟩
    · have hpos : 0 < count := Nat.lt_of_le_of_lt (Nat.zero_le _) h.short
      have := hs2 i (by omega) (by omega)
      rw [hb] at this
      exact Bool.noConfusion this

/-- At a clear bit that does not complete the run, the run grows. -/
theorem Scanned.step_clear {bits : Nat → Bool} {count i run start : Nat}
    (h : Scanned bits count i run start) (hb : bits i = false) (hne : run + 1 ≠ count) :
    Scanned bits count (i + 1) (run + 1) (if run = 0 then i else start) where
  run_le := by have := h.run_le; omega
  start_eq := fun _ => by
    by_cases h0 : run = 0
    · rw [if_pos h0, h0]
    · rw [if_neg h0]
      have := h.start_eq h0
      omega
  clear := fun j h1 h2 => by
    by_cases hj : j = i
    · rw [hj]; exact hb
    · exact h.clear j (by omega) (by omega)
  left_end := by
    have hle := h.run_le
    rcases h.left_end with he | he
    · exact Or.inl (by omega)
    · right
      have hidx : i + 1 - (run + 1) - 1 = i - run - 1 := by omega
      rw [hidx]
      exact he
  short := by have := h.short; omega
  none_before := by
    rintro s ⟨hs1, hs2⟩
    by_cases hlt : s + count ≤ i
    · exact h.none_before s ⟨hlt, hs2⟩
    · have hsh := h.short
      have hle := h.run_le
      obtain ⟨j, hj1, hj2, hj3⟩ := h.blocked (s := s) (by omega)
      have := hs2 j hj1 (by omega)
      rw [hj3] at this
      exact Bool.noConfusion this

theorem scan_spec (bits : Nat → Bool) {count : Nat} :
    ∀ (left i run start : Nat), Scanned bits count i run start →
      match scan bits count left i run start with
      | none => ∀ s, ¬ FreeRun bits (i + left) count s
      | some s =>
        FreeRun bits (i + left) count s ∧ ∀ s', s' < s → ¬ FreeRun bits (i + left) count s' := by
  intro left
  induction left with
  | zero => intro i run start h; exact h.none_before
  | succ left ih =>
    intro i run start h
    rw [scan]
    have hidx : i + (left + 1) = i + 1 + left := by omega
    rw [hidx]
    by_cases hb : bits i = true
    · rw [if_pos hb]
      exact ih (i + 1) 0 start (h.step_set hb)
    · have hclear : bits i = false := by simpa using hb
      rw [if_neg hb]
      by_cases hdone : run + 1 = count
      · simp only [hdone, if_true]
        have hle := h.run_le
        have hst : (if run = 0 then i else start) = i - run := by
          by_cases h0 : run = 0
          · rw [if_pos h0]; omega
          · rw [if_neg h0]; have := h.start_eq h0; omega
        rw [hst]
        refine ⟨⟨by omega, fun j h1 h2 => ?_⟩, fun s' hs' hrun => ?_⟩
        · by_cases hj : j = i
          · rw [hj]; exact hclear
          · exact h.clear j h1 (by omega)
        · by_cases hend : s' + count ≤ i
          · exact h.none_before s' ⟨hend, hrun.2⟩
          · obtain ⟨j, hj1, hj2, hj3⟩ := h.blocked hs'
            have := hrun.2 j hj1 (by omega)
            rw [hj3] at this
            exact Bool.noConfusion this
      · simp only [hdone, if_false]
        exact ih (i + 1) (run + 1) _ (h.step_clear hclear hdone)

theorem scanned_start {bits : Nat → Bool} {count : Nat} (h : count ≠ 0) :
    Scanned bits count 0 0 0 where
  run_le := Nat.le_refl 0
  start_eq := fun h0 => absurd rfl h0
  clear := fun j h1 h2 => by omega
  left_end := Or.inl rfl
  short := Nat.pos_of_ne_zero h
  none_before := fun s hs => by have := hs.1; omega

theorem setBits_range_set {bits : Nat → Bool} {n s count : Nat} (h : FreeRun bits n count s) :
    setBits (fun i => bits i || decide (s ≤ i ∧ i < s + count)) n = setBits bits n + count := by
  unfold setBits
  have hsplit : (Finset.range n).filter
        (fun i => (bits i || decide (s ≤ i ∧ i < s + count)) = true) =
      (Finset.range n).filter (fun i => bits i = true) ∪ Finset.Ico s (s + count) := by
    ext i
    simp only [Finset.mem_filter, Finset.mem_range, Bool.or_eq_true, decide_eq_true_eq,
      Finset.mem_union, Finset.mem_Ico]
    have := h.1
    constructor
    · rintro ⟨hi, hb | hb⟩
      · exact Or.inl ⟨hi, hb⟩
      · exact Or.inr hb
    · rintro (⟨hi, hb⟩ | hb)
      · exact ⟨hi, Or.inl hb⟩
      · exact ⟨by omega, Or.inr hb⟩
  rw [hsplit, Finset.card_union_of_disjoint, Nat.card_Ico, Nat.add_sub_cancel_left]
  refine Finset.disjoint_left.mpr (fun i hi hi' => ?_)
  simp only [Finset.mem_filter, Finset.mem_Ico] at hi hi'
  have := h.2 i hi'.1 hi'.2
  rw [hi.2] at this
  exact Bool.noConfusion this

/-- Two ranges, each a start and a length, have no cluster in common. -/
def Apart (r r' : Nat × Nat) : Prop :=
  ∀ i, r.1 ≤ i → i < r.1 + r.2 → ¬ (r'.1 ≤ i ∧ i < r'.1 + r'.2)

/-- Counting set bits by the ranges they form. -/
theorem setBits_ranges {n ds : Nat} (hds : ds ≤ n) {l : List (Nat × Nat)} :
    ∀ bits : Nat → Bool, (∀ r ∈ l, ds ≤ r.1 ∧ r.1 + r.2 ≤ n) → l.Pairwise Apart →
      (∀ i, i < n → (bits i = true ↔ i < ds ∨ ∃ r ∈ l, r.1 ≤ i ∧ i < r.1 + r.2)) →
      setBits bits n = ds + (l.map Prod.snd).sum := by
  induction l with
  | nil =>
    intro bits _ _ hbits
    have hfilter : (Finset.range n).filter (fun i => bits i = true) = Finset.range ds := by
      ext i
      simp only [Finset.mem_filter, Finset.mem_range]
      constructor
      · rintro ⟨hi, hb⟩
        simpa using (hbits i hi).mp hb
      · intro hi
        exact ⟨by omega, (hbits i (by omega)).mpr (.inl hi)⟩
    rw [setBits, hfilter]
    simp
  | cons r l ih =>
    intro bits hin hdis hbits
    obtain ⟨hr, hl⟩ := List.pairwise_cons.mp hdis
    have hrin := hin r List.mem_cons_self
    have hrest := ih (fun i => bits i && !decide (r.1 ≤ i ∧ i < r.1 + r.2))
      (fun r' hr' => hin r' (List.mem_cons_of_mem _ hr')) hl ?_
    · have hrun : FreeRun (fun i => bits i && !decide (r.1 ≤ i ∧ i < r.1 + r.2)) n r.2 r.1 :=
        ⟨hrin.2, fun i h1 h2 => by simp [h1, h2]⟩
      have hset := setBits_range_set hrun
      have hsame : setBits bits n = setBits (fun i =>
          (bits i && !decide (r.1 ≤ i ∧ i < r.1 + r.2)) || decide (r.1 ≤ i ∧ i < r.1 + r.2)) n := by
        refine setBits_congr (fun i hi => ?_)
        by_cases hc : r.1 ≤ i ∧ i < r.1 + r.2
        · have hb : bits i = true := (hbits i hi).mpr (.inr ⟨r, List.mem_cons_self, hc⟩)
          simp [hb, hc]
        · simp [hc]
      rw [hsame, hset, hrest, List.map_cons, List.sum_cons]
      omega
    · intro i hi
      simp only [Bool.and_eq_true, hbits i hi, Bool.not_eq_true', decide_eq_false_iff_not,
        List.mem_cons, exists_eq_or_imp]
      constructor
      · rintro ⟨h1 | h1 | h1, hno⟩
        · exact .inl h1
        · exact (hno h1).elim
        · exact .inr h1
      · rintro (h1 | ⟨r', hr', h1⟩)
        · exact ⟨.inl h1, fun hc => by omega⟩
        · exact ⟨.inr (.inr ⟨r', hr', h1⟩), fun hc => hr r' hr' i hc.1 hc.2 h1⟩

/-- A successful `alloc` takes the first run that is long enough and marks
exactly that run. -/
theorem alloc_ok {b b' : Bitmap} {count s : Nat} (h : b.alloc count = .ok (s, b')) :
    count ≠ 0 ∧ FreeRun b.bits b.total count s ∧
    (∀ s', s' < s → ¬ FreeRun b.bits b.total count s') ∧
      b'.total = b.total ∧ b'.deferred = b.deferred ∧ b'.used = b.used + count ∧
      ∀ i, b'.bits i = (b.bits i || decide (s ≤ i ∧ i < s + count)) := by
  unfold alloc at h
  by_cases h0 : count = 0
  · rw [if_pos h0] at h; cases h
  rw [if_neg h0] at h
  have hspec := scan_spec b.bits b.total 0 0 0 (scanned_start h0)
  rw [Nat.zero_add] at hspec
  cases hs : scan b.bits count b.total 0 0 0 with
  | none => rw [hs] at h; cases h
  | some start =>
    rw [hs] at h hspec
    cases h
    refine ⟨h0, hspec.1, hspec.2, foldl_set_total _ _, foldl_set_deferred _ _, rfl, fun i => ?_⟩
    show ((List.range' s count).foldl set b).bits i = _
    rw [foldl_set_bits]
    congr 1
    simp only [List.mem_range'_1]

theorem alloc_counted {b b' : Bitmap} {count s : Nat} (hc : b.Counted)
    (h : b.alloc count = .ok (s, b')) : b'.Counted := by
  obtain ⟨_, hrun, _, ht, _, hu, hb⟩ := alloc_ok h
  have hbits : b'.bits = fun i => b.bits i || decide (s ≤ i ∧ i < s + count) := funext hb
  show b'.used = setBits b'.bits b'.total
  rw [hu, ht, hbits, setBits_range_set hrun]
  have hused : b.used = setBits b.bits b.total := hc
  omega

theorem free_of_alloc {b b' : Bitmap} {count start : Nat} (hc : b.Counted)
    (h : b.alloc count = .ok (start, b')) : b'.free start count = b := by
  obtain ⟨-, ⟨hle, hfree⟩, -, htot, hdef, -, hbits⟩ := alloc_ok h
  obtain ⟨htot', hdef', hcnt', hbits'⟩ := free_spec (alloc_counted hc h) start count
  have ht : (b'.free start count).total = b.total := htot'.trans htot
  have hb : (b'.free start count).bits = b.bits := by
    funext i
    rw [hbits', hbits, htot]
    by_cases hi : start ≤ i ∧ i < start + count
    · have hlt : i < b.total := by omega
      simp [hi, hlt, hfree i hi.1 hi.2]
    · have hno : ¬ (start ≤ i ∧ i < start + count ∧ i < b.total) := fun h => hi ⟨h.1, h.2.1⟩
      simp [hi, hno]
  have hu : (b'.free start count).used = b.used := by
    have hcnt : (b'.free start count).used = setBits _ _ := hcnt'
    rw [hcnt, hb, ht]
    exact Eq.symm hc
  exact Bitmap.ext hb ht hu (hdef'.trans hdef)

/-- `alloc` gives up only when there is no run of the wanted length. -/
theorem alloc_error {b : Bitmap} {count : Nat} {e : Error} (h0 : count ≠ 0)
    (h : b.alloc count = .error e) : e = .noSpace ∧ ∀ s, ¬ FreeRun b.bits b.total count s := by
  unfold alloc at h
  rw [if_neg h0] at h
  have hspec := scan_spec b.bits b.total 0 0 0 (scanned_start h0)
  rw [Nat.zero_add] at hspec
  cases hs : scan b.bits count b.total 0 0 0 with
  | none =>
    rw [hs] at h hspec
    cases h
    exact ⟨rfl, hspec⟩
  | some start => rw [hs] at h; cases h

end Bitmap

end Alloc
end BloomFS

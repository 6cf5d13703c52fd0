/-
The `--key` argument of the command line tool.

A key is given in hex.  The parser cuts the string into slices of two bytes and
hands each to the integer parser of the standard library, which is modelled here as
it is documented: an optional plus sign, then digits.  A slice that does not start
and end between characters is a panic.
-/
import BloomFS.Lib.Exec
import BloomFS.Lib.Utf8
import Mathlib.Data.List.Basic
import Mathlib.Tactic.IntervalCases

namespace BloomFS
namespace Cli

open Bytes

/-- `char::to_digit` in base 16. -/
def toDigit (b : UInt8) : Option Nat :=
  if 48 ≤ b ∧ b ≤ 57 then some (b.toNat - 48)
  else if 97 ≤ b ∧ b ≤ 102 then some (b.toNat - 87)
  else if 65 ≤ b ∧ b ≤ 70 then some (b.toNat - 55)
  else none

/-- Digits onto the value read so far, which must stay a byte. -/
def parseDigits : Bytes → Nat → Option UInt8
  | [], acc => some (UInt8.ofNat acc)
  | b :: bs, acc =>
      match toDigit b with
      | none => none
      | some d => if 256 ≤ acc * 16 + d then none else parseDigits bs (acc * 16 + d)

def plus : UInt8 := 43
def minus : UInt8 := 45

/-- `u8::from_str_radix` in base 16. -/
def fromStrRadix : Bytes → Option UInt8
  | [] => none
  | c :: rest =>
      if (c = plus ∨ c = minus) ∧ rest = [] then none
      else parseDigits (if c = plus then rest else c :: rest) 0

/-- A byte in the middle of a character. -/
def isContinuation (b : UInt8) : Bool := decide (0x80 ≤ b ∧ b ≤ 0xBF)

def isCharBoundary (s : Bytes) (i : Nat) : Bool :=
  i == 0 || i == s.length || (decide (i < s.length) && !isContinuation (s.getD i 0))

/-- `s[i..j]` -/
def strSlice (s : Bytes) (i j : Nat) : Except (Fault String) Bytes :=
  if isCharBoundary s i ∧ isCharBoundary s j then .ok (slice s i (j - i)) else .error .panic

def decodePair (s : Bytes) (i : Nat) : Except (Fault String) UInt8 := do
  let pair ← strSlice s i (i + 2)
  match fromStrRadix pair with
  | none => throw (.err "invalid hex digit")
  | some b => return b

def decodeHex (s : String) : Except (Fault String) Bytes :=
  let b := Utf8.encode s
  if b.length % 2 ≠ 0 then .error (.err "odd number of hex digits")
  else (List.range (b.length / 2)).mapM fun j => decodePair b (2 * j)

def parseKey (h : String) : Except (Fault String) (Option Bytes) :=
  if h = "" then .ok none
  else do
    let key ← (decodeHex h).mapError (Fault.map fun e => "bad --key (must be hex): " ++ e)
    if key.length ≠ 32 ∧ key.length ≠ 64 then
      throw (.err ("bad --key: need 32 or 64 bytes (got " ++ toString key.length ++ ")"))
    else return some key

/-! ## Hex strings -/

/-- An even number of hex digits. -/
def IsHex (s : String) : Prop :=
  (Utf8.encode s).length % 2 = 0 ∧ ∀ b ∈ Utf8.encode s, (toDigit b).isSome

/-- The value of a digit. -/
def digit (b : UInt8) : Nat := (toDigit b).getD 0

/-- The bytes of a hex string, the high half first. -/
def hexBytes (s : String) : Bytes :=
  (List.range ((Utf8.encode s).length / 2)).map fun j =>
    UInt8.ofNat (digit ((Utf8.encode s).getD (2 * j) 0) * 16 +
      digit ((Utf8.encode s).getD (2 * j + 1) 0))

/-- Pair `j` of the bytes starts and ends between characters. -/
def Sliceable (b : Bytes) (j : Nat) : Prop :=
  isCharBoundary b (2 * j) = true ∧ isCharBoundary b (2 * j + 2) = true

/-- Pair `j` reads as a byte: two digits, or a plus sign and a digit. -/
def Readable (b : Bytes) (j : Nat) : Prop := (fromStrRadix (slice b (2 * j) 2)).isSome

/-- The bytes do not pair up, or every pair is two digits, or the first pair that does
not read as a byte is cut between characters. -/
def Told (s : String) : Prop :=
  (Utf8.encode s).length % 2 = 1 ∨ IsHex s ∨
    ∃ j, j < (Utf8.encode s).length / 2 ∧
      (∀ i, i < j → Sliceable (Utf8.encode s) i ∧ Readable (Utf8.encode s) i) ∧
      Sliceable (Utf8.encode s) j ∧ ¬ Readable (Utf8.encode s) j

/-- What the parser of keys is to do with `s`. -/
structure KeyRules (s : String) : Prop where
  decode : ∀ b, decodeHex s = .ok b ↔ IsHex s ∧ b = hexBytes s
  refuse : ¬ IsHex s → ∃ e, decodeHex s = .error (.err e)
  key : ∀ k, parseKey s = .ok (some k) ↔ IsHex s ∧
    ((Utf8.encode s).length = 64 ∨ (Utf8.encode s).length = 128) ∧ k = hexBytes s
  plaintext : parseKey s = .ok none ↔ s = ""
  refuse_key : s ≠ "" →
    ¬ (IsHex s ∧ ((Utf8.encode s).length = 64 ∨ (Utf8.encode s).length = 128)) →
      ∃ e, parseKey s = .error (.err e)

theorem toDigit_lt {b : UInt8} {d : Nat} (h : toDigit b = some d) : d < 16 := by
  unfold toDigit at h
  split at h
  · rename_i hb
    cases h
    have := UInt8.le_iff_toNat_le.mp hb.2
    simp at this
    omega
  · split at h
    · rename_i hb
      cases h
      have := UInt8.le_iff_toNat_le.mp hb.2
      simp at this
      omega
    · split at h
      · rename_i hb
        cases h
        have := UInt8.le_iff_toNat_le.mp hb.2
        simp at this
        omega
      · cases h

/-- A byte of the pair is not a digit, or the pair is a byte. -/
theorem parseDigits_pair (a c : UInt8) :
    parseDigits [a, c] 0 =
      if (toDigit a).isSome ∧ (toDigit c).isSome then some (UInt8.ofNat (digit a * 16 + digit c))
      else none := by
  unfold parseDigits digit
  cases ha : toDigit a with
  | none => simp
  | some x =>
    have hx := toDigit_lt ha
    simp only [Nat.zero_mul, Nat.zero_add]
    rw [if_neg (by omega)]
    unfold parseDigits
    cases hc : toDigit c with
    | none => simp
    | some y =>
      have hy := toDigit_lt hc
      simp only [Option.isSome_some, and_self, if_true, Option.getD_some]
      rw [if_neg (by omega), parseDigits]

theorem fromStrRadix_pair {a : UInt8} (h : a ≠ plus) (c : UInt8) :
    fromStrRadix [a, c] =
      if (toDigit a).isSome ∧ (toDigit c).isSome then some (UInt8.ofNat (digit a * 16 + digit c))
      else none := by
  have hsign : ¬ ((a = plus ∨ a = minus) ∧ [c] = []) := by simp
  show (if (a = plus ∨ a = minus) ∧ [c] = [] then none
    else parseDigits (if a = plus then [c] else [a, c]) 0) = _
  rw [if_neg hsign, if_neg h, parseDigits_pair]

theorem slice_pair {b : Bytes} {i : Nat} (h : i + 1 < b.length) :
    slice b i 2 = [b.getD i 0, b.getD (i + 1) 0] := by
  have hi : i < b.length := by omega
  unfold slice
  rw [List.drop_eq_getElem_cons hi, List.drop_eq_getElem_cons h, List.getD_eq_getElem?_getD,
    List.getD_eq_getElem?_getD, List.getElem?_eq_getElem h, List.getElem?_eq_getElem hi]
  rfl

/-! ## Pair by pair -/

section Pairs

variable {b : Bytes} {j : Nat}

theorem strSlice_pair (h : Sliceable b j) :
    strSlice b (2 * j) (2 * j + 2) = .ok (slice b (2 * j) 2) := by
  unfold Sliceable at h
  unfold strSlice
  rw [if_pos h, Nat.add_sub_cancel_left]

theorem decodePair_panic (h : ¬ Sliceable b j) : decodePair b (2 * j) = .error .panic := by
  unfold Sliceable at h
  unfold decodePair strSlice
  rw [if_neg h]
  rfl

theorem decodePair_error (h : Sliceable b j) (hr : ¬ Readable b j) :
    decodePair b (2 * j) = .error (.err "invalid hex digit") := by
  have hnone : fromStrRadix (slice b (2 * j) 2) = none := by
    simpa [Readable] using hr
  unfold decodePair
  rw [strSlice_pair h, Exec.ok_bind, hnone]
  rfl

theorem decodePair_ok (h : Sliceable b j) (hr : Readable b j) :
    decodePair b (2 * j) = .ok ((fromStrRadix (slice b (2 * j) 2)).getD 0) := by
  obtain ⟨v, hv⟩ := Option.isSome_iff_exists.mp hr
  unfold decodePair
  rw [strSlice_pair h, Exec.ok_bind, hv]
  rfl

theorem not_continuation_of_digit {c : UInt8} (h : (toDigit c).isSome) :
    isContinuation c = false := by
  unfold toDigit at h
  unfold isContinuation
  simp only [decide_eq_false_iff_not, not_and, UInt8.le_iff_toNat_le] at h ⊢
  intro hlo
  simp at hlo ⊢
  split at h
  · rename_i hc
    simp at hc
    omega
  · split at h
    · rename_i hc
      simp at hc
      omega
    · split at h
      · rename_i hc
        simp at hc
        omega
      · cases h

/-- Two digits are cut between characters, since digits are characters. -/
theorem sliceable_of_digits (hall : ∀ c ∈ b, (toDigit c).isSome) (hj : 2 * j + 1 < b.length) :
    Sliceable b j := by
  have hbound : ∀ i, i ≤ b.length → isCharBoundary b i = true := by
    intro i hi
    unfold isCharBoundary
    by_cases hend : i = b.length
    · simp [hend]
    · have hlt : i < b.length := by omega
      have hmem : b.getD i 0 ∈ b := by
        rw [List.getD_eq_getElem?_getD, List.getElem?_eq_getElem hlt]
        exact List.getElem_mem hlt
      rw [not_continuation_of_digit (hall _ hmem)]
      simp [hlt]
  exact ⟨hbound _ (by omega), hbound _ (by omega)⟩

theorem plus_not_digit : toDigit plus = none := by decide

theorem decodePair_digits (hall : ∀ c ∈ b, (toDigit c).isSome) (hj : 2 * j + 1 < b.length) :
    decodePair b (2 * j) =
      .ok (UInt8.ofNat (digit (b.getD (2 * j) 0) * 16 + digit (b.getD (2 * j + 1) 0))) := by
  have hmem : ∀ i, i < b.length → b.getD i 0 ∈ b := by
    intro i hi
    rw [List.getD_eq_getElem?_getD, List.getElem?_eq_getElem hi]
    exact List.getElem_mem hi
  have hlo := hall _ (hmem (2 * j) (by omega))
  have hhi := hall _ (hmem (2 * j + 1) hj)
  have hne : b.getD (2 * j) 0 ≠ plus := by
    intro he
    rw [he, plus_not_digit] at hlo
    cases hlo
  unfold decodePair
  rw [strSlice_pair (sliceable_of_digits hall hj), Exec.ok_bind, slice_pair hj,
    fromStrRadix_pair hne, if_pos ⟨hlo, hhi⟩]
  rfl

end Pairs

/-- A loop ends with the error of the first element that has one. -/
theorem mapM_first_error {β ε : Type} {f : Nat → Except ε β} {e : ε} :
    ∀ {n j : Nat}, j < n → (∀ i, i < j → ∃ b, f i = .ok b) → f j = .error e →
      (List.range n).mapM f = .error e := by
  have hsplit : ∀ (done rest : List Nat) (j : Nat), (∀ i ∈ done, ∃ b, f i = .ok b) →
      f j = .error e → (done ++ j :: rest).mapM f = .error e := by
    intro done rest j hdone hj
    induction done with
    | nil =>
      rw [List.nil_append, List.mapM_cons, hj]
      rfl
    | cons i done ih =>
      obtain ⟨b, hb⟩ := hdone i List.mem_cons_self
      rw [List.cons_append, List.mapM_cons, hb,
        ih fun i' hi' => hdone i' (List.mem_cons_of_mem _ hi')]
      rfl
  intro n j hj hok herr
  have hrange : List.range n = List.range j ++ j :: (List.range n).drop (j + 1) := by
    conv_lhs => rw [← List.take_append_drop j (List.range n),
      List.drop_eq_getElem_cons (by simpa using hj), List.take_range, Nat.min_eq_left hj.le]
    rw [List.getElem_range]
  rw [hrange]
  exact hsplit _ _ j (fun i hi => hok i (List.mem_range.mp hi)) herr

theorem exists_first {P : Nat → Prop} (h : ∃ j, P j) : ∃ j, P j ∧ ∀ i, i < j → ¬ P i := by
  classical
  exact ⟨Nat.find h, Nat.find_spec h, fun i hi => Nat.find_min h hi⟩

section Decode

variable {s : String}

theorem decodeHex_of_hex (hx : IsHex s) : decodeHex s = .ok (hexBytes s) := by
  unfold decodeHex
  dsimp only
  rw [if_neg (by simp [hx.1])]
  apply Exec.mapM_ok
  intro j hj
  have hlt := List.mem_range.mp hj
  exact decodePair_digits hx.2 (by omega)

theorem length_hexBytes (s : String) : (hexBytes s).length = (Utf8.encode s).length / 2 := by
  simp [hexBytes]

theorem parseKey_of_ok {b : Bytes} (hne : s ≠ "") (hd : decodeHex s = .ok b) :
    parseKey s = if b.length ≠ 32 ∧ b.length ≠ 64 then
        .error (.err ("bad --key: need 32 or 64 bytes (got " ++ toString b.length ++ ")"))
      else .ok (some b) := by
  unfold parseKey
  rw [if_neg hne, hd, Exec.mapError_ok, Exec.ok_bind]
  split <;> rfl

theorem parseKey_of_error {e : String} (hne : s ≠ "") (hd : decodeHex s = .error (.err e)) :
    parseKey s = .error (.err ("bad --key (must be hex): " ++ e)) := by
  unfold parseKey
  rw [if_neg hne, hd]
  rfl

/-- What is not hex is refused when its first bad pair is cut between characters. -/
theorem refused_of_told (h : Told s) (hx : ¬ IsHex s) : ∃ e, decodeHex s = .error (.err e) := by
  unfold decodeHex
  dsimp only
  rcases h with hodd | hhex | ⟨j, hj, hbefore, hcut, hbad⟩
  · rw [if_pos (by omega)]
    exact ⟨_, rfl⟩
  · exact absurd hhex hx
  · by_cases heven : (Utf8.encode s).length % 2 ≠ 0
    · rw [if_pos heven]
      exact ⟨_, rfl⟩
    · rw [if_neg heven]
      exact ⟨_, mapM_first_error hj (fun i hi =>
        ⟨_, decodePair_ok (hbefore i hi).1 (hbefore i hi).2⟩) (decodePair_error hcut hbad)⟩

/-- Otherwise the string is accepted, or slicing it is a panic. -/
theorem not_refused (h : ¬ Told s) (e : String) : decodeHex s ≠ .error (.err e) := by
  have heven : ¬ (Utf8.encode s).length % 2 ≠ 0 := by
    intro hodd
    exact h (.inl (by omega))
  unfold decodeHex
  dsimp only
  rw [if_neg heven]
  by_cases hall : ∀ j, j < (Utf8.encode s).length / 2 →
      Sliceable (Utf8.encode s) j ∧ Readable (Utf8.encode s) j
  · rw [Exec.mapM_ok (fun j hj => decodePair_ok (hall j (List.mem_range.mp hj)).1
      (hall j (List.mem_range.mp hj)).2)]
    simp
  · push Not at hall
    -- the first pair that is not read
    obtain ⟨j, ⟨hj, hbad⟩, hfirst⟩ := exists_first hall
    have hbefore : ∀ i, i < j → Sliceable (Utf8.encode s) i ∧ Readable (Utf8.encode s) i := by
      intro i hi
      by_contra hno
      exact hfirst i hi ⟨by omega, fun hs hr => hno ⟨hs, hr⟩⟩
    have hcut : ¬ Sliceable (Utf8.encode s) j := by
      intro hs
      exact h (.inr (.inr ⟨j, hj, hbefore, hs, hbad hs⟩))
    rw [mapM_first_error hj (fun i hi => ⟨_, decodePair_ok (hbefore i hi).1 (hbefore i hi).2⟩)
      (decodePair_panic hcut)]
    simp

theorem parseKey_some_iff (h : Told s) (k : Bytes) :
    parseKey s = .ok (some k) ↔ IsHex s ∧
      ((Utf8.encode s).length = 64 ∨ (Utf8.encode s).length = 128) ∧ k = hexBytes s := by
  by_cases hne : s = ""
  · subst hne
    have hempty : parseKey "" = .ok none := rfl
    have hlen : (Utf8.encode "").length = 0 := by decide
    rw [hempty, hlen]
    simp
  by_cases hx : IsHex s
  · have hlen := length_hexBytes s
    have heven := hx.1
    rw [parseKey_of_ok hne (decodeHex_of_hex hx)]
    by_cases hbad : (hexBytes s).length ≠ 32 ∧ (hexBytes s).length ≠ 64
    · rw [if_pos hbad]
      constructor
      · intro hk
        cases hk
      · rintro ⟨-, hl, -⟩
        omega
    · rw [if_neg hbad]
      constructor
      · intro hk
        cases hk
        exact ⟨hx, by omega, rfl⟩
      · rintro ⟨-, -, rfl⟩
        rfl
  · obtain ⟨e, he⟩ := refused_of_told h hx
    rw [parseKey_of_error hne he]
    constructor
    · intro hk
      cases hk
    · rintro ⟨hx', -⟩
      exact absurd hx' hx

theorem parseKey_none_iff : parseKey s = .ok none ↔ s = "" := by
  constructor
  · intro hk
    by_contra hne
    cases hd : decodeHex s with
    | ok b =>
      rw [parseKey_of_ok hne hd] at hk
      split at hk <;> cases hk
    | error e =>
      unfold parseKey at hk
      rw [if_neg hne, hd] at hk
      cases hk
  · rintro rfl
    rfl

/-- The parser follows its rules on exactly the strings that are told. -/
theorem keyRules_iff_told : KeyRules s ↔ Told s := by
  constructor
  · intro h
    by_contra hno
    have hx : ¬ IsHex s := fun hx => hno (.inr (.inl hx))
    obtain ⟨e, he⟩ := h.refuse hx
    exact not_refused hno e he
  · intro h
    refine ⟨fun b => ?_, refused_of_told h, parseKey_some_iff h, parseKey_none_iff,
      fun hne hbad => ?_⟩
    · by_cases hx : IsHex s
      · rw [decodeHex_of_hex hx]
        simp [hx, eq_comm]
      · obtain ⟨e, he⟩ := refused_of_told h hx
        rw [he]
        simp [hx]
    · by_cases hx : IsHex s
      · have hlen := length_hexBytes s
        have heven := hx.1
        rw [parseKey_of_ok hne (decodeHex_of_hex hx), if_pos]
        · exact ⟨_, rfl⟩
        · have hl : ¬ ((Utf8.encode s).length = 64 ∨ (Utf8.encode s).length = 128) :=
            fun hl => hbad ⟨hx, hl⟩
          omega
      · obtain ⟨e, he⟩ := refused_of_told h hx
        exact ⟨_, parseKey_of_error hne he⟩

end Decode

/-! ## Hex encoding -/

/-- The byte of a hex digit. -/
def digitByte (d : Nat) : UInt8 := UInt8.ofNat (if d < 10 then 48 + d else 87 + d)

def encodeHex (b : Bytes) : String :=
  String.ofList (b.flatMap fun x =>
    [Char.ofUInt8 (digitByte (x.toNat / 16)), Char.ofUInt8 (digitByte (x.toNat % 16))])

theorem toDigit_digitByte {d : Nat} (h : d < 16) : toDigit (digitByte d) = some d := by
  interval_cases d <;> decide

theorem utf8EncodeChar_digit {d : Nat} (h : d < 16) :
    String.utf8EncodeChar (Char.ofUInt8 (digitByte d)) = [digitByte d] := by
  interval_cases d <;> decide

theorem encode_encodeHex (b : Bytes) : Utf8.encode (encodeHex b) =
    b.flatMap fun x => [digitByte (x.toNat / 16), digitByte (x.toNat % 16)] := by
  have hlist : ∀ l : List Char, Utf8.encode (String.ofList l) =
      l.flatMap String.utf8EncodeChar := by
    intro l
    show (List.utf8Encode l).data.toList = _
    unfold List.utf8Encode
    simp
  rw [encodeHex, hlist, List.flatMap_assoc]
  congr 1
  funext x
  have hx := x.toNat_lt
  simp [utf8EncodeChar_digit (show x.toNat / 16 < 16 by omega),
    utf8EncodeChar_digit (show x.toNat % 16 < 16 by omega)]

theorem getD_pairs (b : Bytes) (f g : UInt8 → UInt8) {j : Nat} (hj : j < b.length) :
    (b.flatMap fun x => [f x, g x]).getD (2 * j) 0 = f (b.getD j 0) ∧
      (b.flatMap fun x => [f x, g x]).getD (2 * j + 1) 0 = g (b.getD j 0) := by
  induction b generalizing j with
  | nil => simp at hj
  | cons x b ih =>
    cases j with
    | zero => simp
    | succ j =>
      have hj' : j < b.length := by simpa using hj
      have h := ih hj'
      rw [show 2 * (j + 1) = 2 * j + 2 by omega]
      simpa using h

theorem decodeHex_encodeHex (b : Bytes) : decodeHex (encodeHex b) = .ok b := by
  have henc := encode_encodeHex b
  have hlen : (Utf8.encode (encodeHex b)).length = 2 * b.length := by
    rw [henc, length_flatMap_width (w := 2) (fun _ _ => rfl), Nat.mul_comm]
  have hget : ∀ j, j < b.length →
      (Utf8.encode (encodeHex b)).getD (2 * j) 0 = digitByte ((b.getD j 0).toNat / 16) ∧
        (Utf8.encode (encodeHex b)).getD (2 * j + 1) 0 = digitByte ((b.getD j 0).toNat % 16) := by
    intro j hj
    rw [henc]
    exact getD_pairs b (fun x => digitByte (x.toNat / 16)) (fun x => digitByte (x.toNat % 16)) hj
  have hnib : ∀ j, (b.getD j 0).toNat / 16 < 16 := by
    intro j
    have := (b.getD j 0).toNat_lt
    omega
  have hhex : IsHex (encodeHex b) := by
    refine ⟨by omega, fun c hc => ?_⟩
    rw [henc] at hc
    obtain ⟨x, -, hx⟩ := List.mem_flatMap.mp hc
    have hlt := x.toNat_lt
    rcases List.mem_pair.mp hx with rfl | rfl
    · rw [toDigit_digitByte (by omega)]
      rfl
    · rw [toDigit_digitByte (by omega)]
      rfl
  rw [decodeHex_of_hex hhex]
  congr 1
  have hbyte : ∀ j, j < b.length → UInt8.ofNat
      (digit ((Utf8.encode (encodeHex b)).getD (2 * j) 0) * 16 +
        digit ((Utf8.encode (encodeHex b)).getD (2 * j + 1) 0)) = b.getD j 0 := by
    intro j hj
    obtain ⟨hlo, hhi⟩ := hget j hj
    unfold digit
    rw [hlo, hhi, toDigit_digitByte (hnib j), toDigit_digitByte (Nat.mod_lt _ (by decide)),
      Option.getD_some, Option.getD_some, Nat.div_add_mod', UInt8.ofNat_toNat]
  unfold hexBytes
  rw [hlen, Nat.mul_div_cancel_left _ (by decide)]
  apply List.ext_getElem
  · simp
  · intro j _ hj
    rw [List.getElem_map, List.getElem_range, hbyte j hj, List.getD_eq_getElem?_getD,
      List.getElem?_eq_getElem hj]
    rfl

/-! ## What is accepted -/

/-- The rules are kept on exactly the strings that are told, and reading a hex encoding
gives back what was encoded. -/
theorem keys_are_hex (s : String) (b : Bytes) :
    (KeyRules s ↔ Told s) ∧ decodeHex (encodeHex b) = .ok b :=
  ⟨keyRules_iff_told, decodeHex_encodeHex b⟩

/-- A sign stands for a digit, and a character across two pairs is a panic. -/
theorem key_not_hex : ¬ KeyRules "+f" ∧ decodeHex "+f" = .ok [15] ∧
    ¬ KeyRules "aéa" ∧ decodeHex "aéa" = .error .panic := by
  have hplus : decodeHex "+f" = .ok [15] := by decide
  have hcut : decodeHex "aéa" = .error .panic := by decide
  refine ⟨fun h => ?_, hplus, fun h => ?_, hcut⟩
  · have hx : ¬ IsHex "+f" := by
      unfold IsHex
      decide
    exact hx ((h.decode [15]).mp hplus).1
  · have hx : ¬ IsHex "aéa" := by
      intro hx
      have hbyte := hx.2 0xc3 (by decide)
      exact absurd hbyte (by decide)
    obtain ⟨e, he⟩ := h.refuse hx
    rw [hcut] at he
    cases he

end Cli
end BloomFS

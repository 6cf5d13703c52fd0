/-
Byte strings with little-endian numbers, slices and in-place patches.

A byte string is a list.  `leBytes k n` is the `k`-byte encoding of `n`, which
drops the bits that do not fit, and `leNat` reads it back.  `slice` and `patch`
are the two accesses a fixed layout needs, reading a range and overwriting one.
The lemmas cut them along concatenations, which is how an encoder writes its
fields, or describe them one byte at a time.
-/
import Mathlib.Data.List.Basic
import Mathlib.Data.List.GetD
import Mathlib.Tactic.Ring

abbrev Bytes := List UInt8

namespace Bytes

/-! ## Little-endian numbers -/

def leBytes : Nat → Nat → Bytes
  | 0, _ => []
  | k + 1, n => UInt8.ofNat n :: leBytes k (n / 256)

def leNat : Bytes → Nat
  | [] => 0
  | b :: bs => b.toNat + 256 * leNat bs

@[simp] theorem length_leBytes (k n : Nat) : (leBytes k n).length = k := by
  induction k generalizing n with
  | zero => rfl
  | succ k ih => simp [leBytes, ih]

theorem leNat_leBytes (k n : Nat) : leNat (leBytes k n) = n % 256 ^ k := by
  induction k generalizing n with
  | zero => simp [leBytes, leNat, Nat.mod_one]
  | succ k ih =>
    have hbyte : (UInt8.ofNat n).toNat = n % 256 := UInt8.toNat_ofNat'
    rw [leBytes, leNat, ih, hbyte, Nat.pow_succ, Nat.mul_comm (256 ^ k) 256, Nat.mod_mul]

theorem leNat_leBytes_of_lt {k n : Nat} (h : n < 256 ^ k) : leNat (leBytes k n) = n := by
  rw [leNat_leBytes, Nat.mod_eq_of_lt h]

@[simp] theorem leNat_leBytes_u64 (x : UInt64) : leNat (leBytes 8 x.toNat) = x.toNat :=
  leNat_leBytes_of_lt (Nat.lt_of_lt_of_le x.toNat_lt (by decide))

@[simp] theorem leNat_leBytes_u32 (x : UInt32) : leNat (leBytes 4 x.toNat) = x.toNat :=
  leNat_leBytes_of_lt (Nat.lt_of_lt_of_le x.toNat_lt (by decide))

@[simp] theorem leNat_leBytes_u16 (x : UInt16) : leNat (leBytes 2 x.toNat) = x.toNat :=
  leNat_leBytes_of_lt (Nat.lt_of_lt_of_le x.toNat_lt (by decide))

theorem leBytes_inj {k m n : Nat} (hm : m < 256 ^ k) (hn : n < 256 ^ k)
    (h : leBytes k m = leBytes k n) : m = n := by
  rw [← leNat_leBytes_of_lt hm, h, leNat_leBytes_of_lt hn]

/-! ## Fixed-size arrays -/

/-- The first `n` bytes as an array, padded with zeros. -/
def toVec (n : Nat) (b : Bytes) : Vector UInt8 n := Vector.ofFn (fun i => b.getD i 0)

@[simp] theorem toVec_toList {n : Nat} (v : Vector UInt8 n) : toVec n v.toList = v := by
  refine Vector.ext (fun i hi => ?_)
  rw [toVec, Vector.getElem_ofFn]
  simp [List.getD_eq_getElem?_getD, hi]

/-! ## Slices -/

/-- The `len` bytes from offset `off` on, or as many of them as there are. -/
def slice (b : Bytes) (off len : Nat) : Bytes := (b.drop off).take len

@[simp] theorem length_slice (b : Bytes) (off len : Nat) :
    (slice b off len).length = min len (b.length - off) := by
  simp [slice]

theorem slice_append_left {a b : Bytes} {off len : Nat} (h : off + len ≤ a.length) :
    slice (a ++ b) off len = slice a off len := by
  unfold slice
  rw [List.drop_append_of_le_length (by omega), List.take_append_of_le_length]
  simp only [List.length_drop]
  omega

theorem slice_append_right {a b : Bytes} {off len : Nat} (h : a.length ≤ off) :
    slice (a ++ b) off len = slice b (off - a.length) len := by
  unfold slice
  rw [List.drop_append, List.drop_eq_nil_of_le h, List.nil_append]

/-- The head of a concatenation, cut off at its own length. -/
theorem slice_zero_append {a b : Bytes} {len : Nat} (h : a.length = len) :
    slice (a ++ b) 0 len = a := by
  subst h
  simp [slice]

theorem slice_self {a : Bytes} {len : Nat} (h : a.length = len) : slice a 0 len = a := by
  subst h
  simp [slice]

theorem getD_slice (b : Bytes) (off len i : Nat) :
    (slice b off len).getD i 0 = if i < len then b.getD (off + i) 0 else 0 := by
  simp only [slice, List.getD_eq_getElem?_getD, List.getElem?_take, List.getElem?_drop]
  by_cases h : i < len
  · rw [if_pos h, if_pos h]
  · rw [if_neg h, if_neg h]; rfl

theorem slice_slice {b : Bytes} {a n off len : Nat} (h : off + len ≤ n) :
    slice (slice b a n) off len = slice b (a + off) len := by
  unfold slice
  rw [List.drop_take, List.take_take, List.drop_drop, Nat.min_eq_left (by omega)]

theorem slice_append_slice (b : Bytes) (off m n : Nat) :
    slice b off m ++ slice b (off + m) n = slice b off (m + n) := by
  unfold slice
  rw [List.take_add, List.drop_drop]

theorem getD_append_left {a b : Bytes} {i : Nat} (h : i < a.length) :
    (a ++ b).getD i 0 = a.getD i 0 := by
  simp [List.getD_eq_getElem?_getD, List.getElem?_append_left h]

theorem getD_append_right {a b : Bytes} {i : Nat} (h : a.length ≤ i) :
    (a ++ b).getD i 0 = b.getD (i - a.length) 0 := by
  simp [List.getD_eq_getElem?_getD, List.getElem?_append_right h]

/-! ## Fields of a record -/

/-- The field after the fields `p`, when a record is its fields in order. -/
theorem slice_field {p q : List Bytes} {f : Bytes} {off len : Nat}
    (hoff : p.flatten.length = off) (hlen : f.length = len) :
    slice (p ++ f :: q).flatten off len = f := by
  rw [List.flatten_append, slice_append_right (by omega), hoff, Nat.sub_self, List.flatten_cons]
  exact slice_zero_append hlen

theorem getD_field {p q : List Bytes} {x : UInt8} {off : Nat}
    (hoff : p.flatten.length = off) : (p ++ [x] :: q).flatten.getD off 0 = x := by
  rw [List.flatten_append, getD_append_right (by omega), hoff, Nat.sub_self, List.flatten_cons]
  rfl

/-! ## Records of one width -/

theorem length_flatMap_width {α : Type} {f : α → Bytes} {w : Nat} :
    ∀ {l : List α}, (∀ a ∈ l, (f a).length = w) → (l.flatMap f).length = l.length * w
  | [], _ => by simp
  | a :: l, h => by
    rw [List.flatMap_cons, List.length_append, h a List.mem_cons_self,
      length_flatMap_width (fun x hx => h x (List.mem_cons_of_mem _ hx)), List.length_cons,
      Nat.succ_mul, Nat.add_comm]

/-- The `j`-th record of a sequence of records of width `w`. -/
theorem slice_flatMap {α : Type} {f : α → Bytes} {w : Nat} :
    ∀ {l : List α}, (∀ a ∈ l, (f a).length = w) → ∀ {j : Nat} (hj : j < l.length),
      slice (l.flatMap f) (j * w) w = f (l.get ⟨j, hj⟩)
  | [], _, _, hj => absurd hj (Nat.not_lt_zero _)
  | a :: l, h, 0, _ => by
    rw [List.flatMap_cons, Nat.zero_mul]
    exact slice_zero_append (h a List.mem_cons_self)
  | a :: l, h, j + 1, hj => by
    have ha := h a List.mem_cons_self
    have hj' : j < l.length := by simpa using hj
    rw [List.flatMap_cons, slice_append_right (by rw [ha, Nat.succ_mul]; omega), ha, Nat.succ_mul,
      Nat.add_sub_cancel]
    exact slice_flatMap (fun x hx => h x (List.mem_cons_of_mem _ hx)) hj'

theorem slice_flatMap_range {f : Nat → Bytes} {w n j : Nat} (h : ∀ i, i < n → (f i).length = w)
    (hj : j < n) : slice ((List.range n).flatMap f) (j * w) w = f j := by
  have hlen : j < (List.range n).length := by simpa using hj
  have hs := slice_flatMap (f := f) (w := w) (l := List.range n)
    (fun i hi => h i (List.mem_range.mp hi)) hlen
  rw [hs]
  simp

/-- Cutting a byte string into records of width `w` and joining them again. -/
theorem flatMap_slice_range (b : Bytes) (w : Nat) :
    ∀ n, (List.range n).flatMap (fun i => slice b (i * w) w) = b.take (n * w) := by
  intro n
  induction n with
  | zero => simp
  | succ n ih =>
    rw [List.range_succ, List.flatMap_append, ih, Nat.succ_mul, List.take_add]
    simp [slice]

/-! ## Patches -/

/-- `d` written over `b` at offset `off`. -/
def patch (b : Bytes) (off : Nat) (d : Bytes) : Bytes :=
  b.take off ++ d ++ b.drop (off + d.length)

theorem length_patch {b d : Bytes} {off : Nat} (h : off + d.length ≤ b.length) :
    (patch b off d).length = b.length := by
  simp only [patch, List.length_append, List.length_take, List.length_drop]
  omega

theorem getD_take (b : Bytes) (n i : Nat) :
    (b.take n).getD i 0 = if i < n then b.getD i 0 else 0 := by
  have h := getD_slice b 0 n i
  simpa [slice] using h

theorem getD_drop (b : Bytes) (n i : Nat) : (b.drop n).getD i 0 = b.getD (n + i) 0 := by
  simp [List.getD_eq_getElem?_getD]

theorem getD_replicate_zero (n i : Nat) : (List.replicate n (0 : UInt8)).getD i 0 = 0 := by
  rw [List.getD_eq_getElem?_getD, List.getElem?_replicate]
  by_cases h : i < n <;> simp [h]

theorem getD_of_length_le {b : Bytes} {i : Nat} (h : b.length ≤ i) : b.getD i 0 = 0 := by
  rw [List.getD_eq_getElem?_getD, List.getElem?_eq_none h]; rfl

theorem getD_patch {b d : Bytes} {off : Nat} (h : off + d.length ≤ b.length) (i : Nat) :
    (patch b off d).getD i 0 =
      if off ≤ i ∧ i < off + d.length then d.getD (i - off) 0 else b.getD i 0 := by
  have htake : (b.take off).length = off := by rw [List.length_take]; omega
  unfold patch
  by_cases h1 : i < off
  · rw [getD_append_left (by simp only [List.length_append, htake]; omega),
      getD_append_left (by omega), getD_take, if_pos h1, if_neg (by omega)]
  · by_cases h2 : i < off + d.length
    · rw [getD_append_left (by simp only [List.length_append, htake]; omega),
        getD_append_right (by omega), htake, if_pos (by omega)]
    · rw [getD_append_right (by simp only [List.length_append, htake]; omega), getD_drop,
        if_neg (by omega)]
      congr 1
      simp only [List.length_append, htake]
      omega

/-- Two byte strings of one length are equal when they agree at every offset. -/
theorem ext_getD {a b : Bytes} (hlen : a.length = b.length)
    (h : ∀ i, i < a.length → a.getD i 0 = b.getD i 0) : a = b := by
  refine List.ext_getElem hlen (fun i ha hb => ?_)
  have hi := h i ha
  rwa [List.getD_eq_getElem _ _ ha, List.getD_eq_getElem _ _ hb] at hi

theorem slice_patch_self {b d : Bytes} {off : Nat} (h : off + d.length ≤ b.length) :
    slice (patch b off d) off d.length = d := by
  have htake : (b.take off).length = off := by rw [List.length_take]; omega
  unfold patch
  rw [List.append_assoc, slice_append_right (by omega), htake, Nat.sub_self, slice_zero_append rfl]

theorem slice_patch_of_disjoint {b d : Bytes} {off o len : Nat} (h : off + d.length ≤ b.length)
    (hdis : o + len ≤ off ∨ off + d.length ≤ o) : slice (patch b off d) o len = slice b o len := by
  refine ext_getD ?_ fun i hi => ?_
  · rw [length_slice, length_slice, length_patch h]
  · rw [length_slice] at hi
    have hlt : i < len := by omega
    rw [getD_slice, getD_slice, if_pos hlt, if_pos hlt, getD_patch h, if_neg (by omega)]

/-- Filling in a buffer front to back. -/
theorem patch_append (a b d : Bytes) :
    patch (a ++ b) a.length d = a ++ d ++ b.drop d.length := by
  simp [patch]

end Bytes

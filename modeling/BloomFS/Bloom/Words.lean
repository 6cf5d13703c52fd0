/-
The blocked filter as the source stores it, in 64-bit words.

`BlockedFilter` has its bits as a function.  `WordFilter` has the vector of words, finds
the word and the bit of each probe in `u64` and `u32` arithmetic, and reads and writes
words through a checked access.  `filter` forgets the words: `add` and `test` act on them
as the operations of the same names act on the bits, and never fail.

An index past the vector and a product or sum past `u64` are panics, which are `none`
here.
-/
import BloomFS.Bloom.Filter
import BloomFS.Lib.Packed

namespace BloomFS
namespace Bloom

/-- Eight words for each block. -/
structure WordFilter where
  numBlocks : UInt64
  blocks : Vector (BitVec 64) (numBlocks.toNat * blockWords)
  k : UInt32
  seed : UInt64
  pos : 0 < numBlocks.toNat
  addressable : numBlocks.toNat * blockWords < 2 ^ 64

namespace WordFilter

theorem max_one_pos (n : UInt64) : 0 < (max n 1).toNat := by
  change 0 < (if n ≤ 1 then 1 else n).toNat
  split
  · exact Nat.one_pos
  · rename_i h
    have hlt := UInt64.not_le.mp h
    exact Nat.lt_trans Nat.one_pos (UInt64.lt_iff_toNat_lt.mp hlt)

/-- `none` if the words cannot be counted. -/
def alloc (numBlocks : UInt64) (k : UInt32) (seed : UInt64) : Option WordFilter :=
  if h : (max numBlocks 1).toNat * blockWords < 2 ^ 64 then
    some { numBlocks := max numBlocks 1, blocks := Vector.replicate _ 0#64, k := max k 1,
           seed := seed, pos := max_one_pos numBlocks, addressable := h }
  else none

/-- First word of the block of a key, and the two hashes that drive its probes. -/
def blockOffset (env : Env) (f : WordFilter) (data : Bytes) : Option (UInt64 × UInt32 × UInt32) :=
  let h := env.xxh3Wide data f.seed
  -- a widening multiply and a shift instead of a remainder
  let blockIdx := UInt64.ofNat (h.1.toNat * f.numBlocks.toNat / 2 ^ 64)
  if 2 ^ 64 ≤ blockIdx.toNat * blockWords then none
  else some (blockIdx * UInt64.ofNat blockWords, h.2.toUInt32, (h.2 >>> 32).toUInt32 ||| 1)

def probeWord (off : UInt64) (a : UInt32) : Nat := off.toNat + ((a &&& blockMask) >>> 6).toNat

def probeBit (a : UInt32) : BitVec 64 := 1#64 <<< ((a &&& blockMask) &&& 63).toNat

/-- The words that `left` probes read. -/
def probeWords (off : UInt64) : (left : Nat) → (i a b : UInt32) → List Nat
  | 0, _, _, _ => []
  | left + 1, i, a, b => probeWord off a :: probeWords off left (i + 1) (a + b) (b + i)

/-- The word of a probe, if the vector has it. -/
def access {n : Nat} (blocks : Vector (BitVec 64) n) (off : UInt64) (a : UInt32) :
    Option (BitVec 64) :=
  if 2 ^ 64 ≤ probeWord off a then none else blocks[probeWord off a]?

def addLoop {n : Nat} (off : UInt64) : (left : Nat) → (i a b : UInt32) → Vector (BitVec 64) n →
    Option (Vector (BitVec 64) n)
  | 0, _, _, _, blocks => some blocks
  | left + 1, i, a, b, blocks => do
      let word ← access blocks off a
      addLoop off left (i + 1) (a + b) (b + i)
        (blocks.setIfInBounds (probeWord off a) (word ||| probeBit a))

def testLoop {n : Nat} (off : UInt64) : (left : Nat) → (i a b : UInt32) → Vector (BitVec 64) n →
    Option Bool
  | 0, _, _, _, _ => some true
  | left + 1, i, a, b, blocks => do
      let word ← access blocks off a
      if word &&& probeBit a = 0#64 then some false
      else testLoop off left (i + 1) (a + b) (b + i) blocks

def add (env : Env) (f : WordFilter) (data : Bytes) : Option WordFilter := do
  let (off, a, b) ← f.blockOffset env data
  let blocks ← addLoop off f.k.toNat 0 a b f.blocks
  return { f with blocks := blocks }

def test (env : Env) (f : WordFilter) (data : Bytes) : Option Bool := do
  let (off, a, b) ← f.blockOffset env data
  testLoop off f.k.toNat 0 a b f.blocks

/-- The words that `add` and `test` compute for a key. -/
def wordsFor (env : Env) (f : WordFilter) (data : Bytes) : Option (List Nat) := do
  let (off, a, b) ← f.blockOffset env data
  return probeWords off f.k.toNat 0 a b

def addAll (env : Env) (f : WordFilter) (keys : List Bytes) : Option WordFilter :=
  keys.foldlM (add env) f

/-! ## One probe -/

section Probe

variable {n : Nat} {blocks : Vector (BitVec 64) n} {off : UInt64} {a : UInt32}

/-- The position of a probe among all bits. -/
def position (off a : Nat) : Nat := (off + a / 64) * 64 + a % 64

theorem masked_lt (a : UInt32) : (a &&& blockMask).toNat < 512 := by
  have hle : (a &&& blockMask).toNat ≤ blockMask.toNat := by
    rw [UInt32.toNat_and]
    exact Nat.and_le_right
  have hmask : blockMask.toNat = 511 := rfl
  omega

theorem probeWord_eq (off : UInt64) (a : UInt32) :
    probeWord off a = position off.toNat (a &&& blockMask).toNat / 64 := by
  have hshift : ((a &&& blockMask) >>> 6).toNat = (a &&& blockMask).toNat / 64 := by
    rw [UInt32.toNat_shiftRight, Nat.shiftRight_eq_div_pow]
    rfl
  unfold probeWord position
  omega

theorem probeBit_eq (off : Nat) (a : UInt32) :
    probeBit a = Packed.bit (position off (a &&& blockMask).toNat) := by
  have hlow : ((a &&& blockMask) &&& 63).toNat = (a &&& blockMask).toNat % 64 := by
    rw [UInt32.toNat_and]
    exact Nat.and_two_pow_sub_one_eq_mod _ 6
  have hmod : position off (a &&& blockMask).toNat % 64 = (a &&& blockMask).toNat % 64 := by
    unfold position
    omega
  unfold probeBit Packed.bit
  rw [hlow, hmod]

/-- All probes of a key lie in its block. -/
theorem probeWord_lt (off : UInt64) (a : UInt32) : probeWord off a < off.toNat + blockWords := by
  have hlt := masked_lt a
  have hwords : blockWords = 8 := rfl
  rw [probeWord_eq]
  unfold position
  omega

def wordsOf (blocks : Vector (BitVec 64) n) (w : Nat) : BitVec 64 := blocks[w]?.getD 0#64

theorem access_eq (hn : n < 2 ^ 64) (h : off.toNat + blockWords ≤ n) :
    access blocks off a = some (wordsOf blocks (probeWord off a)) := by
  have hlt : probeWord off a < n := Nat.lt_of_lt_of_le (probeWord_lt off a) h
  unfold access wordsOf
  rw [if_neg (by omega), Vector.getElem?_eq_getElem hlt]
  rfl

theorem wordsOf_set {w : Nat} (hw : w < n) (x : BitVec 64) :
    wordsOf (blocks.setIfInBounds w x) = Function.update (wordsOf blocks) w x := by
  funext v
  unfold wordsOf
  rw [Vector.getElem?_setIfInBounds]
  by_cases hv : w = v
  · subst hv
    simp [hw]
  · rw [if_neg hv, Function.update_of_ne (Ne.symm hv)]

theorem bitAt_mark (h : off.toNat + blockWords ≤ n) :
    Packed.bitAt (wordsOf (blocks.setIfInBounds (probeWord off a)
      (wordsOf blocks (probeWord off a) ||| probeBit a))) =
      Function.update (Packed.bitAt (wordsOf blocks))
          (position off.toNat (a &&& blockMask).toNat) true := by
  rw [wordsOf_set (Nat.lt_of_lt_of_le (probeWord_lt off a) h), probeBit_eq off.toNat, probeWord_eq]
  exact Packed.bitAt_or_bit

theorem and_probeBit :
    (wordsOf blocks (probeWord off a) &&& probeBit a = 0#64) ↔
      Packed.bitAt (wordsOf blocks) (position off.toNat (a &&& blockMask).toNat) = false := by
  rw [probeBit_eq off.toNat, probeWord_eq, Packed.bitAt, ← Packed.and_bit, bne_eq_false_iff_eq]

end Probe

/-! ## The loops -/

section Loops

variable {n : Nat} {off : UInt64}

theorem probeWords_lt (hoff : off.toNat + blockWords ≤ n) (left : Nat) (i a b : UInt32) :
    ∀ w ∈ probeWords off left i a b, w < n := by
  induction left generalizing i a b with
  | zero => simp [probeWords]
  | succ left ih =>
      intro w hw
      rcases List.mem_cons.mp hw with rfl | hw
      · exact Nat.lt_of_lt_of_le (probeWord_lt off a) hoff
      · exact ih (i + 1) (a + b) (b + i) w hw

variable (hn : n < 2 ^ 64) (hoff : off.toNat + blockWords ≤ n)

include hn hoff

/-- The loop of `add` sets the bits of all probes, and no other. -/
theorem addLoop_eq (left : Nat) (i a b : UInt32) (blocks : Vector (BitVec 64) n) :
    ∃ blocks', addLoop off left i a b blocks = some blocks' ∧
      ∀ j, Packed.bitAt (wordsOf blocks') j =
        (Packed.bitAt (wordsOf blocks) j || (BlockedFilter.probes off.toNat left i a b).contains
          j) := by
  induction left generalizing i a b blocks with
  | zero => exact ⟨blocks, rfl, fun j => by simp [BlockedFilter.probes]⟩
  | succ left ih =>
      obtain ⟨blocks', hloop, hbits⟩ := ih (i + 1) (a + b) (b + i)
        (blocks.setIfInBounds (probeWord off a) (wordsOf blocks (probeWord off a) ||| probeBit a))
      refine ⟨blocks', ?_, fun j => ?_⟩
      · simp only [addLoop, access_eq hn hoff, Option.bind_eq_bind, Option.bind_some, hloop]
      · rw [hbits, bitAt_mark hoff, BlockedFilter.probes, List.contains_cons, Function.update_apply]
        by_cases hj : j = position off.toNat (a &&& blockMask).toNat
        · simp [hj, position]
        · have hne : (j == (off.toNat + (a &&& blockMask).toNat / 64) * 64 +
            (a &&& blockMask).toNat % 64) = false :=
            beq_eq_false_iff_ne.mpr hj
          rw [if_neg hj, hne, Bool.false_or]

/-- The loop of `test` reads the bits of all probes. -/
theorem testLoop_eq (left : Nat) (i a b : UInt32) (blocks : Vector (BitVec 64) n) :
    testLoop off left i a b blocks =
      some ((BlockedFilter.probes off.toNat left i a b).all (Packed.bitAt (wordsOf blocks))) := by
  induction left generalizing i a b with
  | zero => rfl
  | succ left ih =>
      simp only [testLoop, access_eq hn hoff, Option.bind_eq_bind, Option.bind_some,
        and_probeBit, ih]
      rw [BlockedFilter.probes, List.all_cons, ← position]
      cases Packed.bitAt (wordsOf blocks) (position off.toNat (a &&& blockMask).toNat) with
      | false => rfl
      | true => rw [Bool.true_and, if_neg (by decide)]

end Loops

/-! ## The filter -/

def filter (f : WordFilter) : BlockedFilter where
  blocks := Packed.bitAt (wordsOf f.blocks)
  numBlocks := f.numBlocks.toNat
  k := f.k.toNat
  seed := f.seed

section Filter

variable {env : Env} {f : WordFilter}

theorem toUInt32_low (x : UInt64) : x.toUInt32 = UInt32.ofNat x.toNat := by
  apply UInt32.toNat.inj
  simp

theorem toUInt32_high (x : UInt64) : (x >>> 32).toUInt32 = UInt32.ofNat (x.toNat / 2 ^ 32) := by
  apply UInt32.toNat.inj
  simp [Nat.shiftRight_eq_div_pow]

/-- The range reduction stays below the number of blocks, whatever the hash. -/
theorem reduce_lt (f : WordFilter) (hi : UInt64) :
    hi.toNat * f.numBlocks.toNat / 2 ^ 64 < f.numBlocks.toNat := by
  apply Nat.div_lt_of_lt_mul
  exact Nat.mul_lt_mul_of_pos_right (UInt64.toNat_lt hi) f.pos

/-- The index of that block, in words, stays inside the vector. -/
theorem toNat_offset {q : Nat} (hq : q < f.numBlocks.toNat) :
    (UInt64.ofNat q * UInt64.ofNat blockWords).toNat = q * blockWords ∧ (UInt64.ofNat q).toNat = q ∧
      q * blockWords + blockWords ≤ f.numBlocks.toNat * blockWords := by
  have hle : q * blockWords + blockWords ≤ f.numBlocks.toNat * blockWords := by
    rw [← Nat.succ_mul]
    exact Nat.mul_le_mul_right blockWords hq
  have hlt : q * blockWords < 2 ^ 64 :=
    Nat.lt_of_le_of_lt (Nat.le_of_add_right_le hle) f.addressable
  have htoNat : (UInt64.ofNat q).toNat = q :=
    UInt64.toNat_ofNat_of_lt' (Nat.lt_trans hq (UInt64.toNat_lt f.numBlocks))
  have h8 : (UInt64.ofNat blockWords).toNat = blockWords := rfl
  refine ⟨?_, htoNat, hle⟩
  rw [UInt64.toNat_mul, htoNat, h8, Nat.mod_eq_of_lt hlt]

/-- The block of a key is one of the blocks, and its probes visit the bits of the bit-set filter. -/
theorem blockOffset_eq (env : Env) (f : WordFilter) (data : Bytes) :
    ∃ off a b, f.blockOffset env data = some (off, a, b) ∧
      f.filter.bitsOf env data = BlockedFilter.probes off.toNat f.k.toNat 0 a b ∧
      off.toNat + blockWords ≤ f.numBlocks.toNat * blockWords := by
  obtain ⟨hoff, hidx, hle⟩ := toNat_offset (reduce_lt f (env.xxh3Wide data f.seed).1)
  have haddr := f.addressable
  refine ⟨_, _, _, if_neg ?_, ?_, ?_⟩
  · rw [hidx]
    have hwords : blockWords = 8 := rfl
    omega
  · rw [hoff]
    rw [toUInt32_high, toUInt32_low]
    rfl
  · rw [hoff]
    exact hle

theorem add_eq (env : Env) (f : WordFilter) (data : Bytes) :
    ∃ f', f.add env data = some f' ∧ f'.filter = f.filter.add env data := by
  obtain ⟨off, a, b, hblock, hbits, hoff⟩ := blockOffset_eq env f data
  obtain ⟨blocks, hloop, hset⟩ := addLoop_eq f.addressable hoff f.k.toNat 0 a b f.blocks
  refine ⟨{ f with blocks := blocks }, ?_, ?_⟩
  · simp only [add, hblock, hloop, Option.bind_eq_bind, Option.bind_some, Option.pure_def]
  · rw [BlockedFilter.add, hbits]
    exact congrArg (fun bits => BlockedFilter.mk bits _ _ _) (funext hset)

theorem test_eq (env : Env) (f : WordFilter) (data : Bytes) :
    f.test env data = some (f.filter.test env data) := by
  obtain ⟨off, a, b, hblock, hbits, hoff⟩ := blockOffset_eq env f data
  simp only [test, hblock, Option.bind_eq_bind, Option.bind_some]
  rw [testLoop_eq f.addressable hoff, BlockedFilter.test, hbits]
  rfl

theorem addAll_eq (env : Env) (f : WordFilter) (keys : List Bytes) :
    ∃ f', f.addAll env keys = some f' ∧
    f'.filter = keys.foldl (BlockedFilter.add env) f.filter := by
  induction keys generalizing f with
  | nil => exact ⟨f, rfl, rfl⟩
  | cons x keys ih =>
      obtain ⟨f₁, hadd, hfilter⟩ := add_eq env f x
      obtain ⟨f', hall, hfold⟩ := ih f₁
      refine ⟨f', ?_, ?_⟩
      · rw [addAll, List.foldlM_cons, hadd]
        exact hall
      · rw [hfold, hfilter, List.foldl_cons]

/-- Every word that a probe of any data reads or writes is in the vector. -/
theorem wordsFor_lt (env : Env) (f : WordFilter) (data : Bytes) :
    ∃ ws, f.wordsFor env data = some ws ∧ ∀ w ∈ ws, w < f.blocks.size := by
  obtain ⟨off, a, b, hblock, _, hoff⟩ := blockOffset_eq env f data
  refine ⟨probeWords off f.k.toNat 0 a b, ?_, probeWords_lt hoff _ _ _ _⟩
  rw [wordsFor, hblock]
  rfl

/-- Every run of additions on a new filter succeeds, has no false negative and stays inside
the vector, whatever the hash function. -/
theorem no_false_negatives (env : Env) (numBlocks : UInt64) (k : UInt32) (seed : UInt64)
    (haddr : (max numBlocks 1).toNat * blockWords < 2 ^ 64) :
    ∃ f₀, alloc numBlocks k seed = some f₀ ∧ ∀ keys, ∃ f, f₀.addAll env keys = some f ∧
      (∀ x ∈ keys, f.test env x = some true) ∧
      (∀ y more, f.test env y = some true →
        ∃ f', f.addAll env more = some f' ∧ f'.test env y = some true) ∧
      ∀ data, (∃ f', f.add env data = some f') ∧ (∃ found, f.test env data = some found) ∧
        ∃ ws, f.wordsFor env data = some ws ∧ ∀ w ∈ ws, w < f.blocks.size := by
  refine ⟨_, dif_pos haddr, fun keys => ?_⟩
  obtain ⟨f, hall, hfilter⟩ := addAll_eq env _ keys
  refine ⟨f, hall, ?_, ?_, ?_⟩
  · intro x hx
    rw [test_eq, hfilter, BlockedFilter.test_foldl_add (.inr hx)]
  · intro y more hy
    rw [test_eq, Option.some.injEq] at hy
    obtain ⟨f', hmore, hfilter'⟩ := addAll_eq env f more
    refine ⟨f', hmore, ?_⟩
    rw [test_eq, hfilter', BlockedFilter.test_foldl_add (.inl hy)]
  · intro data
    obtain ⟨f', hadd, _⟩ := add_eq env f data
    exact ⟨⟨f', hadd⟩, ⟨_, test_eq env f data⟩, wordsFor_lt env f data⟩

/-- Three keys are added to a filter of four blocks. -/
theorem no_false_negatives_four :
    (max (4 : UInt64) 1).toNat * blockWords < 2 ^ 64 ∧
      ∃ f₀ f, alloc 4 3 5 = some f₀ ∧ f₀.addAll Env.plain [[1], [2, 3], []] = some f ∧
        ∀ x ∈ [[1], [2, 3], []], f.test Env.plain x = some true := by
  refine ⟨by decide, ?_⟩
  obtain ⟨f₀, halloc, hall⟩ := no_false_negatives Env.plain 4 3 5 (by decide)
  obtain ⟨f, hf, hmem, _⟩ := hall [[1], [2, 3], []]
  exact ⟨f₀, f, halloc, hf, hmem⟩

end Filter

end WordFilter
end Bloom
end BloomFS

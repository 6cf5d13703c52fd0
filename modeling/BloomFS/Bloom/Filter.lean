/-
The blocked Bloom filter in front of each directory segment.

All probe bits of a key lie in one block of 512 bits.  The filter array is a set
of bit indices.  How many blocks and probes a filter gets is decided by floating
point tuning, which `Env.filterShape` stands for.
-/
import BloomFS.Env

namespace BloomFS
namespace Bloom

def blockWords : Nat := 8

def blockMask : UInt32 := 511

structure BlockedFilter where
  blocks : Nat → Bool
  numBlocks : Nat
  k : Nat
  seed : UInt64

namespace BlockedFilter

def alloc (numBlocks k : Nat) (seed : UInt64) : BlockedFilter where
  blocks := fun _ => false
  numBlocks := max numBlocks 1
  k := max k 1
  seed := seed

def newBlockedTuned (env : Env) (n : Nat) : BlockedFilter :=
  let shape := env.filterShape (if n = 0 then 1 else n)
  alloc shape.1 shape.2 0

/-- First word of the block of a key, and the two hashes that drive its probes. -/
def blockOffset (env : Env) (f : BlockedFilter) (data : Bytes) : Nat × UInt32 × UInt32 :=
  let (hi, lo) := env.xxh3Wide data f.seed
  let blockIdx := hi.toNat * f.numBlocks / 2 ^ 64
  let h1 := UInt32.ofNat lo.toNat
  let h2 := UInt32.ofNat (lo.toNat / 2 ^ 32) ||| 1
  (blockIdx * blockWords, h1, h2)

/-- The bits that `left` probes visit, by enhanced double hashing. -/
def probes (off : Nat) : (left : Nat) → (i a b : UInt32) → List Nat
  | 0, _, _, _ => []
  | left + 1, i, a, b =>
      let bit := (a &&& blockMask).toNat
      ((off + bit / 64) * 64 + bit % 64) :: probes off left (i + 1) (a + b) (b + i)

def bitsOf (env : Env) (f : BlockedFilter) (data : Bytes) : List Nat :=
  let (off, a, b) := blockOffset env f data
  probes off f.k 0 a b

def add (env : Env) (f : BlockedFilter) (data : Bytes) : BlockedFilter :=
  { f with blocks := fun j => f.blocks j || (bitsOf env f data).contains j }

def test (env : Env) (f : BlockedFilter) (data : Bytes) : Bool := (bitsOf env f data).all f.blocks

variable {env : Env} {f : BlockedFilter}

theorem bitsOf_add (x y : Bytes) : bitsOf env (f.add env x) y = bitsOf env f y := rfl

theorem test_add_self (x : Bytes) : (f.add env x).test env x = true := by
  rw [test, bitsOf_add, List.all_eq_true]
  intro j hj
  simp [add, hj]

theorem test_add {x y : Bytes} (h : f.test env y = true) : (f.add env x).test env y = true := by
  rw [test, List.all_eq_true] at h
  rw [test, bitsOf_add, List.all_eq_true]
  intro j hj
  simp [add, h j hj]

/-- A filter built from a list of keys has no false negative. -/
theorem test_foldl_add {l : List Bytes} {x : Bytes} (h : f.test env x = true ∨ x ∈ l) :
    (l.foldl (add env) f).test env x = true := by
  induction l generalizing f with
  | nil => simpa using h
  | cons y l ih =>
    rw [List.foldl_cons]
    apply ih
    rcases h with h | h
    · exact .inl (test_add h)
    · rcases List.mem_cons.mp h with rfl | h
      · exact .inl (test_add_self x)
      · exact .inr h

end BlockedFilter

end Bloom
end BloomFS

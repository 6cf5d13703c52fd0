/-
The code outside the repository, as parameters.

`Env` gathers the third-party functions the file system calls and the choices
the runtime makes for it: the content hash, the compressor, the sector cipher,
the name hashes, the tuned shape of a Bloom filter, the clock, and the order in
which a hash set is visited.  `Env.Lawful` states what the code relies on.
-/
import BloomFS.Dedup.Table

namespace BloomFS

structure Env where
  /-- `blake3::hash` -/
  blake3 : Bytes → Dedup.Key
  /-- `zstd::encode_all` at the fixed level -/
  encodeAll : Bytes → Option Bytes
  /-- `zstd::decode_all` -/
  decodeAll : Bytes → Option Bytes
  /-- AES-XTS of one sector under a key, with the cluster address as tweak -/
  encrypt : Bytes → Nat → Bytes → Bytes
  decrypt : Bytes → Nat → Bytes → Bytes
  /-- `xxh3_64` -/
  xxh3 : Bytes → UInt64
  /-- `xxh3_128_with_seed`, high and low word -/
  xxh3Wide : Bytes → UInt64 → UInt64 × UInt64
  /-- Block count and probe count that `new_blocked_tuned` settles on -/
  filterShape : Nat → Nat × Nat
  /-- The wall clock, by number of readings -/
  clock : Nat → UInt64
  /-- Iteration order of a hash set, by number of iterations -/
  order : Nat → List Nat → List Nat

namespace Env

/-- What the code relies on: decoding inverts encoding, decryption inverts
encryption at the same address, a sector keeps its length, and iteration visits
every element once. -/
structure Lawful (env : Env) : Prop where
  decode_encode : ∀ p c, env.encodeAll p = some c → env.decodeAll c = some p
  decrypt_encrypt : ∀ k a b, env.decrypt k a (env.encrypt k a b) = b
  length_encrypt : ∀ k a b, (env.encrypt k a b).length = b.length
  order_perm : ∀ n l, (env.order n l).Perm l

/-- A plaintext pool with an incompressible codec and a hash that keeps the
length and the first bytes. -/
def plain : Env where
  blake3 b := Bytes.toVec 32 (Bytes.leBytes 8 b.length ++ b)
  encodeAll b := some b
  decodeAll b := some b
  encrypt _ _ b := b
  decrypt _ _ b := b
  xxh3 b := UInt64.ofNat b.length
  xxh3Wide b seed := (UInt64.ofNat b.length, seed)
  filterShape _ := (1, 1)
  clock n := UInt64.ofNat n
  order _ l := l

theorem plain_lawful : plain.Lawful where
  decode_encode p c h := by cases h; rfl
  decrypt_encrypt _ _ _ := rfl
  length_encrypt _ _ _ := rfl
  order_perm _ l := List.Perm.refl l

end Env

/-! ## Codecs

The plain environment with any compressor in the place of its own. -/

/-- A compressor that never fails: decoding inverts encoding, and a block that is not empty
has a frame that is not empty. -/
structure Codec where
  encode : Bytes → Bytes
  decode : Bytes → Option Bytes
  decode_encode : ∀ b, decode (encode b) = some b
  encode_ne : ∀ b, b ≠ [] → encode b ≠ []

theorem Codec.encode_inj (z : Codec) {b b' : Bytes} (h : z.encode b = z.encode b') : b = b' := by
  have hb := z.decode_encode b
  rw [h, z.decode_encode b'] at hb
  exact (Option.some.inj hb).symm

/-- A codec whose frames show where they end, as those of zstd do: the beginning of a frame
is refused, or is empty and decoded to nothing. -/
structure FrameCodec extends Codec where
  cut : ∀ b n p, n < (encode b).length → decode ((encode b).take n) = some p → p = []

namespace FrameCodec

/-- A byte that says whether another one follows, before each byte. -/
def flag : Bytes → Bytes
  | [] => [0]
  | b :: bs => 1 :: b :: flag bs

def unflag : Bytes → Option Bytes
  | [0] => some []
  | 1 :: b :: bs => (unflag bs).map (b :: ·)
  | _ => none

theorem unflag_flag (b : Bytes) : unflag (flag b) = some b := by
  induction b with
  | nil => rfl
  | cons x xs ih => rw [flag, unflag, ih, Option.map_some]

theorem unflag_take (b : Bytes) {n : Nat} (h : n < (flag b).length) :
    unflag ((flag b).take n) = none := by
  induction b generalizing n with
  | nil =>
    obtain rfl : n = 0 := by simpa [flag] using h
    rfl
  | cons x xs ih =>
    match n, h with
    | 0, _ => rfl
    | 1, _ => rfl
    | n + 2, h =>
      have hn : n < (flag xs).length := by simpa [flag] using h
      simp [flag, unflag, ih hn]

def flagged : FrameCodec where
  encode := flag
  decode := unflag
  decode_encode := unflag_flag
  encode_ne b _ := by cases b <;> simp [flag]
  cut b n p hn h := by
    rw [unflag_take b hn] at h
    cases h

instance : Inhabited FrameCodec := ⟨flagged⟩

end FrameCodec

/-- The plain environment, with a codec. -/
def Env.coded (z : Codec) : Env :=
  { Env.plain with
    encodeAll := fun b => some (z.encode b)
    decodeAll := z.decode }

theorem Env.coded_lawful (z : Codec) : (Env.coded z).Lawful where
  decode_encode p c h := by
    cases h
    exact z.decode_encode p
  decrypt_encrypt _ _ _ := rfl
  length_encrypt _ _ _ := rfl
  order_perm _ l := List.Perm.refl l

end BloomFS

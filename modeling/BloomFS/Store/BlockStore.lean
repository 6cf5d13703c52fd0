/-
The data path: a logical block is hashed, looked up in the dedup table, and on a
miss compressed, encrypted cluster by cluster and written.  Reading reverses
this and checks the content hash.

`Pool` holds the three structures the source passes to every call: the device,
the allocator and the dedup table.  The key of a pool is an AES-XTS key or
absent, and the cipher itself is a parameter of `Env`.
-/
import BloomFS.Alloc.Bitmap
import BloomFS.Block.Device
import BloomFS.Env

namespace BloomFS
namespace Store

open Bytes Exec Block

def blk : Nat := Block.size

inductive Error where
  | badKey
  | compress
  | decompress
  | logicalMismatch
  | contentHashMismatch
  | block (e : Block.Error)
  | alloc (e : Alloc.Error)
  deriving Repr, DecidableEq

/-- What an inode stores to locate a logical block. -/
structure Ref where
  hash : Dedup.Key
  start : UInt64
  count : UInt32
  payload : UInt32
  logical : UInt32
  raw : Bool
  deriving DecidableEq

def refSize : Nat := 53

namespace Ref

def default : Ref := ⟨Vector.replicate 32 0, 0, 0, 0, 0, false⟩

def marshal (r : Ref) : Bytes :=
  List.flatten
    [r.hash.toList, leBytes 8 r.start.toNat, leBytes 4 r.count.toNat, leBytes 4 r.payload.toNat,
     leBytes 4 r.logical.toNat, [if r.raw then 1 else 0]]

def unmarshal (b : Bytes) : Ref where
  hash := toVec 32 (slice b 0 32)
  start := UInt64.ofNat (leNat (slice b 32 8))
  count := UInt32.ofNat (leNat (slice b 40 4))
  payload := UInt32.ofNat (leNat (slice b 44 4))
  logical := UInt32.ofNat (leNat (slice b 48 4))
  raw := b.getD 52 0 == 1

@[simp] theorem length_marshal (r : Ref) : r.marshal.length = refSize := by
  simp [marshal, refSize]

/-- The fields of a ref followed by anything. -/
def fieldsThen (r : Ref) (rest : Bytes) : Bytes :=
  List.flatten
    [r.hash.toList, leBytes 8 r.start.toNat, leBytes 4 r.count.toNat, leBytes 4 r.payload.toNat,
     leBytes 4 r.logical.toNat, [if r.raw then 1 else 0], rest]

/-- Decoding reads the first `refSize` bytes only, so anything may follow. -/
theorem unmarshal_marshal_append (r : Ref) (rest : Bytes) :
    unmarshal (r.marshal ++ rest) = r := by
  have hfl : r.marshal ++ rest = r.fieldsThen rest := by simp [marshal, fieldsThen]
  have hhash : slice (r.fieldsThen rest) 0 32 = r.hash.toList :=
    slice_field (p := []) (by simp) (by simp)
  have hstart : slice (r.fieldsThen rest) 32 8 = leBytes 8 r.start.toNat :=
    slice_field (p := [_]) (by simp) (by simp)
  have hcount : slice (r.fieldsThen rest) 40 4 = leBytes 4 r.count.toNat :=
    slice_field (p := [_, _]) (by simp) (by simp)
  have hpay : slice (r.fieldsThen rest) 44 4 = leBytes 4 r.payload.toNat :=
    slice_field (p := [_, _, _]) (by simp) (by simp)
  have hlog : slice (r.fieldsThen rest) 48 4 = leBytes 4 r.logical.toNat :=
    slice_field (p := [_, _, _, _]) (by simp) (by simp)
  have hraw : (r.fieldsThen rest).getD 52 0 = if r.raw then 1 else 0 :=
    getD_field (p := [_, _, _, _, _]) (by simp)
  rw [hfl, unmarshal, hhash, hstart, hcount, hpay, hlog, hraw]
  cases r with
  | mk hash start count payload logical raw => cases raw <;> simp

end Ref

def refFrom (k : Dedup.Key) (e : Dedup.Entry) : Ref :=
  ⟨k, e.start, e.count, e.payload, e.logical, e.raw⟩

/-- The data-path engine: the key of the encryption pool, if any. -/
structure BlockStore where
  key : Option Bytes
  key_ok : ∀ k, key = some k → k.length = 32 ∨ k.length = 64

def BlockStore.new (key : Option Bytes) : Except Error BlockStore :=
  match key with
  | none => .ok ⟨none, fun _ h => by cases h⟩
  | some k =>
      if h : k.length = 32 ∨ k.length = 64 then
        .ok ⟨some k, fun _ h' => (Option.some.inj h') ▸ h⟩
      else .error .badKey

structure Pool where
  dev : Disk
  bm : Alloc.Bitmap
  ddt : Dedup.Table

/-- Clusters a payload of `n` bytes occupies. -/
def clusters (n : Nat) : Nat := max ((n + (blk - 1)) / blk) 1

section Ops

variable (env : Env) (bs : BlockStore)

/-- Encrypt one cluster for its address, when the pool is encrypted. -/
def sealSec (addr : Nat) (sec : Bytes) : Bytes :=
  match bs.key with
  | some k => env.encrypt k addr sec
  | none => sec

def openSec (addr : Nat) (sec : Bytes) : Bytes :=
  match bs.key with
  | some k => env.decrypt k addr sec
  | none => sec

/-- What is stored for a block: its compressed form, or the block itself when
compression does not shrink it. -/
def payloadOf (plaintext compressed : Bytes) : Bytes × Bool :=
  if plaintext.length ≤ compressed.length then (plaintext, true) else (compressed, false)

def onDev {α : Type} (x : Exec Block.Error Disk α) : Exec Error Pool α :=
  zoom Pool.dev (fun d p => { p with dev := d }) Error.block x

/-- Record that `plaintext` goes through the content hash. -/
def noteHash (plaintext : Bytes) : Exec Error Pool Unit :=
  modify fun p => { p with dev := p.dev.note (.hash plaintext) }

/-- The padded payload, one block per cluster, each encrypted for its address. -/
def sector (payload : Bytes) (start i : Nat) : Bytes :=
  sealSec env bs (start + i)
    (slice (payload ++ List.replicate (clusters payload.length * blk - payload.length) 0)
      (i * blk) blk)

/-- Store a logical block.  Identical content is stored once. -/
def write (plaintext : Bytes) : Exec Error Pool Ref := do
  noteHash plaintext
  let key := env.blake3 plaintext
  match (← get).ddt.lookup key with
  | some e =>
      -- dedup hit; an overflowing reference count panics
      match (← get).ddt.incr key with
      | none => panic
      | some (_, ddt) =>
          modify fun p => { p with ddt := ddt }
          return refFrom key e
  | none =>
      match env.encodeAll plaintext with
      | none => fail .compress
      | some compressed =>
          let (payload, raw) := payloadOf plaintext compressed
          let count := clusters payload.length
          match (← get).bm.alloc count with
          | .error e => fail (.alloc e)
          | .ok (start, bm) =>
              modify fun p => { p with bm := bm }
              -- a failed device write gives the clusters back at once
              onFault
                ((List.range count).forM fun i =>
                  onDev (Disk.writeBlock .data (start + i) (sector env bs payload start i)))
                (fun p => { p with bm := p.bm.free start count })
              let entry : Dedup.Entry :=
                { start := UInt64.ofNat start, count := UInt32.ofNat count
                  payload := UInt32.ofNat payload.length, logical := UInt32.ofNat plaintext.length
                  raw := raw, refs := 0 }
              modify fun p => { p with ddt := p.ddt.add key entry }
              return refFrom key entry

/-- The decrypted clusters of a stored block. -/
def readClusters (dev : Disk) (r : Ref) : Except Error Bytes := do
  let secs ← (List.range r.count.toNat).mapM fun i => do
    let sec ← (dev.readBlock (r.start.toNat + i)).mapError .block
    return openSec env bs (r.start.toNat + i) sec
  return secs.flatten

/-- The plaintext of a stored payload. -/
def unpack (r : Ref) (payload : Bytes) : Option Bytes :=
  if r.raw then some payload else env.decodeAll payload

/-- Reconstruct the plaintext of a `Ref` and verify its content hash. -/
def read (dev : Disk) (r : Ref) : Except (Fault Error) Bytes := do
  let buf ← (readClusters env bs dev r).mapError .err
  if buf.length < r.payload.toNat then
    throw .panic
  else
    match unpack env r (buf.take r.payload.toNat) with
    | none => throw (.err .decompress)
    | some plaintext =>
        if UInt32.ofNat plaintext.length ≠ r.logical then
          throw (.err .logicalMismatch)
        else if env.blake3 plaintext ≠ r.hash then
          throw (.err .contentHashMismatch)
        else
          return plaintext

/-- Drop one reference.  The last one defers the free of the clusters to the next
commit. -/
def release (r : Ref) : Exec Error Pool Unit := do
  match (← get).ddt.decr r.hash with
  | none => panic
  | some (freed, ddt) =>
      modify fun p => { p with ddt := ddt }
      match freed with
      | none => return ()
      | some e => modify fun p => { p with bm := p.bm.defer e.start.toNat e.count.toNat }

end Ops

end Store
end BloomFS

/-
The copy-on-write durability layer.

The commit root is an uberblock in one of two alternating slots.  A commit
writes the bitmap, the dedup table and the inode table as one snapshot into the
inactive metadata slot and then flips the uberblock.  `CommitState` holds the
arguments the source passes by mutable reference.
-/
import BloomFS.Alloc.Bitmap
import BloomFS.Block.Device
import BloomFS.Env
import BloomFS.Inode.Table

namespace BloomFS
namespace Cow

open Bytes Exec Block

def blk : Nat := Block.size

def uberMagic : UInt64 := 0x00B100F5C0FFEE01

/-- Offset of the checksum, which covers everything before it. -/
def uberChecksumOff : Nat := 104

def uberSlot0 : Nat := 0
def uberSlot1 : Nat := 1

inductive Error where
  | notFormatted
  | badUber
  | metaTooBig
  | deviceTooSmall (need have_ : Nat)
  | block (e : Block.Error)
  | alloc (e : Alloc.Error)
  | dedup (e : Dedup.Error)
  | inode (e : Inode.Error)
  deriving Repr, DecidableEq

structure Uberblock where
  magic : UInt64
  seq : UInt64
  blockSize : UInt32
  activeMeta : UInt8
  totalBlocks : UInt64
  metaA : UInt64
  metaB : UInt64
  metaBlocks : UInt64
  inodeCount : UInt64
  dataStart : UInt64
  rootInode : UInt64
  nextInode : UInt64
  bitmapLen : UInt32
  ddtLen : UInt32
  inodeLen : UInt32
  deriving Repr, DecidableEq

namespace Uberblock

/-- The checksummed bytes. -/
def header (u : Uberblock) : Bytes :=
  List.flatten
    [leBytes 8 u.magic.toNat, leBytes 8 u.seq.toNat, leBytes 4 u.blockSize.toNat, [u.activeMeta],
     [0, 0, 0], leBytes 8 u.totalBlocks.toNat, leBytes 8 u.metaA.toNat, leBytes 8 u.metaB.toNat,
     leBytes 8 u.metaBlocks.toNat, leBytes 8 u.inodeCount.toNat, leBytes 8 u.dataStart.toNat,
     leBytes 8 u.rootInode.toNat, leBytes 8 u.nextInode.toNat, leBytes 4 u.bitmapLen.toNat,
     leBytes 4 u.ddtLen.toNat, leBytes 4 u.inodeLen.toNat, [0, 0, 0, 0]]

def marshalBinary (env : Env) (u : Uberblock) : Bytes :=
  List.flatten
    [u.header, (env.blake3 u.header).toList, List.replicate (Block.size - (uberChecksumOff + 32)) 0]

/-- First block of the active metadata slot. -/
def metaStart (u : Uberblock) : Nat :=
  if u.activeMeta = 1 then u.metaB.toNat else u.metaA.toNat

end Uberblock

def parseUber (env : Env) (b : Bytes) : Except Error Uberblock :=
  if b.length < Block.size then .error .badUber
  else if leNat (slice b 0 8) ≠ uberMagic.toNat then .error .badUber
  else if (env.blake3 (slice b 0 uberChecksumOff)).toList ≠ slice b uberChecksumOff 32 then
    .error .badUber
  else .ok
    { magic := uberMagic
      seq := UInt64.ofNat (leNat (slice b 8 8))
      blockSize := UInt32.ofNat (leNat (slice b 16 4))
      activeMeta := b.getD 20 0
      totalBlocks := UInt64.ofNat (leNat (slice b 24 8))
      metaA := UInt64.ofNat (leNat (slice b 32 8))
      metaB := UInt64.ofNat (leNat (slice b 40 8))
      metaBlocks := UInt64.ofNat (leNat (slice b 48 8))
      inodeCount := UInt64.ofNat (leNat (slice b 56 8))
      dataStart := UInt64.ofNat (leNat (slice b 64 8))
      rootInode := UInt64.ofNat (leNat (slice b 72 8))
      nextInode := UInt64.ofNat (leNat (slice b 80 8))
      bitmapLen := UInt32.ofNat (leNat (slice b 88 4))
      ddtLen := UInt32.ofNat (leNat (slice b 92 4))
      inodeLen := UInt32.ofNat (leNat (slice b 96 4)) }

structure CommitState where
  dev : Disk
  bm : Alloc.Bitmap
  scratch : Option Bytes

def onDev {α : Type} (x : Exec Block.Error Disk α) : Exec Error CommitState α :=
  zoom CommitState.dev (fun d s => { s with dev := d }) Error.block x

/-- The serialization buffer: the reused one when it is large enough. -/
def snapshotBuf (need : Nat) (scratch : Option Bytes) : Bytes :=
  match scratch with
  | some s => if need ≤ s.length then s else List.replicate need 0
  | none => List.replicate need 0

/-- Serialize the three tables into the active metadata slot of `ub`, recording
their lengths, and sync. -/
def writeSnapshot (ub : Uberblock) (ddt : Dedup.Table) (tbl : Inode.Table) :
    Exec Error CommitState Uberblock := do
  let bm := (← get).bm
  let bmLen := bm.marshalLen
  let ddLen := ddt.marshalLen
  let inLen := tbl.marshalLen
  let need := ub.metaBlocks.toNat * blk
  if bmLen + ddLen + inLen > need then
    fail .metaTooBig
  else
    let scratch := (← get).scratch
    let buf := snapshotBuf need scratch
    let buf := patch buf 0 bm.marshal
    let buf := patch buf bmLen ddt.marshal
    let buf := patch buf (bmLen + ddLen) tbl.marshal
    -- a reused buffer keeps what was serialized into it, also when a write fails
    modify fun s => { s with scratch := scratch.map (fun s => if need ≤ s.length then buf else s) }
    let ub := { ub with bitmapLen := UInt32.ofNat bmLen, ddtLen := UInt32.ofNat ddLen,
                        inodeLen := UInt32.ofNat inLen }
    (List.range ub.metaBlocks.toNat).forM fun i =>
      onDev (Disk.writeBlock .snapshot (ub.metaStart + i) (slice buf (i * blk) blk))
    onDev Disk.sync
    return ub

/-- Write `ub` to slot `seq % 2` and sync. -/
def writeUber (env : Env) (ub : Uberblock) : Exec Error CommitState Unit := do
  onDev (Disk.writeBlock .uber (ub.seq.toNat % 2) (ub.marshalBinary env))
  onDev Disk.sync

/-- Snapshot and uberblock, in this order: the part `format` and `commit` share. -/
def writeCommit (env : Env) (ub : Uberblock) (ddt : Dedup.Table) (tbl : Inode.Table) :
    Exec Error CommitState Uberblock := do
  let ub ← writeSnapshot ub ddt tbl
  writeUber env ub
  return ub

/-- The first uberblock of a device of `total` blocks. -/
def freshUber (total inodeCount metaBlocks : Nat) : Uberblock where
  magic := uberMagic
  seq := 1
  blockSize := UInt32.ofNat Block.size
  activeMeta := 0
  totalBlocks := UInt64.ofNat total
  metaA := UInt64.ofNat 2
  metaB := UInt64.ofNat (2 + metaBlocks)
  metaBlocks := UInt64.ofNat metaBlocks
  inodeCount := UInt64.ofNat inodeCount
  dataStart := UInt64.ofNat (2 + metaBlocks + metaBlocks)
  rootInode := 0
  nextInode := 1
  bitmapLen := 0
  ddtLen := 0
  inodeLen := 0

/-- Lay out a fresh image and write the first commit. -/
def format (env : Env) (inodeCount ddtReserve : Nat) : Exec Error Disk Uberblock := do
  let total := (← get).blocks
  let inodeCount := if inodeCount = 0 then Inode.perBlock else inodeCount
  let bitmapBytes := 8 + (total + 7) / 8
  let inodeReserve := inodeCount * Inode.inodeSize
  if 2 ^ 64 ≤ 64 + bitmapBytes + ddtReserve + inodeReserve then
    panic
  else
    let metaBlocks := (64 + bitmapBytes + ddtReserve + inodeReserve + (blk - 1)) / blk
    let metaA := 2
    let metaB := metaA + metaBlocks
    let dataStart := metaB + metaBlocks
    if total ≤ dataStart then
      fail (.deviceTooSmall dataStart total)
    else
      let bm := (Alloc.Bitmap.new total).reserve 0 dataStart
      let ub := freshUber total inodeCount metaBlocks
      zoom (fun d => ({ dev := d, bm := bm, scratch := none } : CommitState)) (fun s _ => s.dev) id
        (writeCommit env ub Dedup.Table.new (Inode.Table.new inodeCount))

/-- The uberblock with the higher sequence number, the first slot on a tie. -/
def better (best : Option Uberblock) (parsed : Except Error Uberblock) : Option Uberblock :=
  match parsed with
  | .error _ => best
  | .ok ub =>
      match best with
      | none => some ub
      | some b => if b.seq < ub.seq then some ub else some b

/-- A slice of the snapshot buffer, which panics past its end. -/
def cut (buf : Bytes) (off len : Nat) : Except (Fault Error) Bytes :=
  if buf.length < off + len then .error .panic else .ok (slice buf off len)

/-- Read both uberblock slots, pick the valid one with the highest sequence
number, and load its three tables. -/
def mount (env : Env) (dev : Disk) :
    Except (Fault Error) (Uberblock × Alloc.Bitmap × Dedup.Table × Inode.Table) := do
  let raw0 ← (dev.readBlock uberSlot0).mapError (.err ∘ .block)
  let raw1 ← (dev.readBlock uberSlot1).mapError (.err ∘ .block)
  match better (better none (parseUber env raw0)) (parseUber env raw1) with
  | none => throw (.err .notFormatted)
  | some best =>
    let blocks ← (List.range best.metaBlocks.toNat).mapM fun i =>
      (dev.readBlock (best.metaStart + i)).mapError (.err ∘ .block)
    let buf := blocks.flatten
    let bmEnd := best.bitmapLen.toNat
    let ddEnd := bmEnd + best.ddtLen.toNat
    let bm ← (Alloc.Bitmap.unmarshal (← cut buf 0 best.bitmapLen.toNat)).mapError (.err ∘ .alloc)
    let ddt ← (Dedup.Table.unmarshal (← cut buf bmEnd best.ddtLen.toNat)).mapError (.err ∘ .dedup)
    let tbl ← (Inode.Table.unmarshalTable (← cut buf ddEnd best.inodeLen.toNat)
      best.inodeCount.toNat).mapError (.err ∘ .inode)
    return (best, bm, ddt, tbl)

/-- Record a new consistent state: snapshot into the inactive slot, flip the
uberblock, and only then free what was released since the last commit. -/
def commit (env : Env) (prev : Uberblock) (ddt : Dedup.Table) (tbl : Inode.Table)
    (rootInode nextInode : UInt64) : Exec Error CommitState Uberblock := do
  if 2 ^ 64 ≤ prev.seq.toNat + 1 then
    panic
  else if 1 < prev.activeMeta.toNat then
    panic
  else
    let next := { prev with seq := prev.seq + 1, activeMeta := 1 - prev.activeMeta,
                            rootInode := rootInode, nextInode := nextInode }
    let next ← writeCommit env next ddt tbl
    modify fun s => { s with bm := s.bm.applyDeferred }
    return next

end Cow
end BloomFS

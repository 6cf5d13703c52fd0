/-
The 128-byte inode, its encoding, and the inode table.

The table is a function from ids below its capacity to inodes.  Slots at or
above the high-water mark `count` still hold the default inode, which is why a
snapshot may leave them out.
-/
import BloomFS.Lib.Bytes
import Mathlib.Logic.Function.Basic

namespace BloomFS
namespace Inode

def inodeSize : Nat := 128

/-- How many inodes fit in one block. -/
def perBlock : Nat := 32

def typeRegular : UInt8 := 0
def typeDir : UInt8 := 1
def typeLink : UInt8 := 2

/-- The block map is inline. -/
def flagInlineExtents : UInt8 := 1

inductive Error where
  | badInodeSize
  | tooManyExtents
  | outOfRange
  deriving Repr, DecidableEq

end Inode

structure Inode where
  size : UInt64 := 0
  nlink : UInt32 := 0
  generation : UInt32 := 0
  uid : UInt32 := 0
  gid : UInt32 := 0
  atime : UInt64 := 0
  mtime : UInt64 := 0
  ctime : UInt64 := 0
  mode : UInt16 := 0
  kind : UInt8 := 0
  recordSizeLog2 : UInt8 := 0
  flags : UInt8 := 0
  checksum : Vector UInt8 8 := Vector.replicate 8 0
  blockMap : Vector UInt8 64 := Vector.replicate 64 0
  deriving DecidableEq

namespace Inode

open Bytes

def default : Inode := {}

def marshalBinary (i : Inode) : Bytes :=
  List.flatten
    [leBytes 8 i.size.toNat, leBytes 4 i.nlink.toNat, leBytes 4 i.generation.toNat,
     leBytes 4 i.uid.toNat, leBytes 4 i.gid.toNat, leBytes 8 i.atime.toNat,
     leBytes 8 i.mtime.toNat, leBytes 8 i.ctime.toNat, leBytes 2 i.mode.toNat, [i.kind],
     [i.recordSizeLog2], [i.flags], [0, 0, 0], i.checksum.toList, i.blockMap.toList]

def fromBytes (b : Bytes) : Except Error Inode :=
  if b.length ≠ inodeSize then .error .badInodeSize
  else .ok
    { size := UInt64.ofNat (leNat (slice b 0 8))
      nlink := UInt32.ofNat (leNat (slice b 8 4))
      generation := UInt32.ofNat (leNat (slice b 12 4))
      uid := UInt32.ofNat (leNat (slice b 16 4))
      gid := UInt32.ofNat (leNat (slice b 20 4))
      atime := UInt64.ofNat (leNat (slice b 24 8))
      mtime := UInt64.ofNat (leNat (slice b 32 8))
      ctime := UInt64.ofNat (leNat (slice b 40 8))
      mode := UInt16.ofNat (leNat (slice b 48 2))
      kind := b.getD 50 0
      recordSizeLog2 := b.getD 51 0
      flags := b.getD 52 0
      checksum := toVec 8 (slice b 56 8)
      blockMap := toVec 64 (slice b 64 64) }

@[simp] theorem length_marshalBinary (i : Inode) : i.marshalBinary.length = inodeSize := by
  simp [marshalBinary, inodeSize]

theorem fromBytes_marshalBinary (i : Inode) : fromBytes i.marshalBinary = .ok i := by
  have hsize : slice i.marshalBinary 0 8 = leBytes 8 i.size.toNat :=
    slice_field (p := []) rfl (by simp)
  have hnlink : slice i.marshalBinary 8 4 = leBytes 4 i.nlink.toNat :=
    slice_field (p := [_]) (by simp) (by simp)
  have hgen : slice i.marshalBinary 12 4 = leBytes 4 i.generation.toNat :=
    slice_field (p := [_, _]) (by simp) (by simp)
  have huid : slice i.marshalBinary 16 4 = leBytes 4 i.uid.toNat :=
    slice_field (p := [_, _, _]) (by simp) (by simp)
  have hgid : slice i.marshalBinary 20 4 = leBytes 4 i.gid.toNat :=
    slice_field (p := [_, _, _, _]) (by simp) (by simp)
  have hatime : slice i.marshalBinary 24 8 = leBytes 8 i.atime.toNat :=
    slice_field (p := [_, _, _, _, _]) (by simp) (by simp)
  have hmtime : slice i.marshalBinary 32 8 = leBytes 8 i.mtime.toNat :=
    slice_field (p := [_, _, _, _, _, _]) (by simp) (by simp)
  have hctime : slice i.marshalBinary 40 8 = leBytes 8 i.ctime.toNat :=
    slice_field (p := [_, _, _, _, _, _, _]) (by simp) (by simp)
  have hmode : slice i.marshalBinary 48 2 = leBytes 2 i.mode.toNat :=
    slice_field (p := [_, _, _, _, _, _, _, _]) (by simp) (by simp)
  have hkind : i.marshalBinary.getD 50 0 = i.kind :=
    getD_field (p := [_, _, _, _, _, _, _, _, _]) (by simp)
  have hlog : i.marshalBinary.getD 51 0 = i.recordSizeLog2 :=
    getD_field (p := [_, _, _, _, _, _, _, _, _, _]) (by simp)
  have hflags : i.marshalBinary.getD 52 0 = i.flags :=
    getD_field (p := [_, _, _, _, _, _, _, _, _, _, _]) (by simp)
  have hsum : slice i.marshalBinary 56 8 = i.checksum.toList :=
    slice_field (p := [_, _, _, _, _, _, _, _, _, _, _, _, _]) (by simp) (by simp)
  have hmap : slice i.marshalBinary 64 64 = i.blockMap.toList :=
    slice_field (p := [_, _, _, _, _, _, _, _, _, _, _, _, _, _]) (by simp) (by simp)
  rw [fromBytes, if_neg (by simp), hsize, hnlink, hgen, huid, hgid, hatime, hmtime, hctime, hmode,
    hkind, hlog, hflags, hsum, hmap]
  simp

structure Table where
  slots : Nat → Inode
  cap : Nat
  count : Nat
  count_le : count ≤ cap
  fresh : ∀ i, count ≤ i → slots i = default

namespace Table

def new (capacity : Nat) : Table where
  slots := fun _ => default
  cap := capacity
  count := 0
  count_le := Nat.zero_le _
  fresh := fun _ _ => rfl

def get (t : Table) (id : Nat) : Except Error Inode :=
  if t.cap ≤ id then .error .outOfRange else .ok (t.slots id)

/-- The table with slot `id` replaced, which may raise the high-water mark. -/
def store (t : Table) (id : Nat) (h : id < t.cap) (i : Inode) : Table where
  slots := Function.update t.slots id i
  cap := t.cap
  count := if t.count ≤ id then id + 1 else t.count
  count_le := by
    have := t.count_le
    by_cases hc : t.count ≤ id
    · rw [if_pos hc]; omega
    · rw [if_neg hc]; omega
  fresh := by
    intro j hj
    by_cases hc : t.count ≤ id
    · rw [if_pos hc] at hj
      rw [Function.update_of_ne (by omega)]
      exact t.fresh j (by omega)
    · rw [if_neg hc] at hj
      rw [Function.update_of_ne (by omega)]
      exact t.fresh j hj

theorem count_store (t : Table) {id : Nat} (h : id < t.cap) (i : Inode) :
    (t.store id h i).count = max t.count (id + 1) := by
  show (if t.count ≤ id then id + 1 else t.count) = _
  split <;> omega

def put (t : Table) (id : Nat) (i : Inode) : Except Error Table :=
  if h : id < t.cap then .ok (t.store id h i) else .error .outOfRange

def marshalLen (t : Table) : Nat := t.count * inodeSize

def marshal (t : Table) : Bytes := (List.range t.count).flatMap (fun i => (t.slots i).marshalBinary)

/-- The inode in slot `i` of a snapshot, the default one past its end. -/
def decodeSlot (b : Bytes) (i : Nat) : Inode :=
  match fromBytes (slice b (i * inodeSize) inodeSize) with
  | .ok inode => inode
  | .error _ => default

def unmarshalTable (b : Bytes) (capacity : Nat) : Except Error Table :=
  if b.length % inodeSize ≠ 0 then .error .badInodeSize
  else if h : b.length / inodeSize ≤ capacity then
    .ok { slots := fun i => if i < b.length / inodeSize then decodeSlot b i else default
          cap := capacity
          count := b.length / inodeSize
          count_le := h
          fresh := fun i hi => by rw [if_neg (by omega)] }
  else .error .outOfRange

@[simp] theorem length_marshal (t : Table) : t.marshal.length = t.marshalLen := by
  rw [marshal, length_flatMap_width (w := inodeSize) (fun i _ => length_marshalBinary _),
    List.length_range, marshalLen]

@[ext] theorem ext {t t' : Table} (hs : t.slots = t'.slots) (hc : t.cap = t'.cap)
    (hn : t.count = t'.count) : t = t' := by
  obtain ⟨s, c, n, _, _⟩ := t
  obtain ⟨s', c', n', _, _⟩ := t'
  cases hs; cases hc; cases hn
  rfl

theorem unmarshalTable_marshal (t : Table) : unmarshalTable t.marshal t.cap = .ok t := by
  have hlen : t.marshal.length = t.count * inodeSize := length_marshal t
  have hpos : 0 < inodeSize := by decide
  have hdiv : t.marshal.length / inodeSize = t.count := by rw [hlen, Nat.mul_div_cancel _ hpos]
  rw [unmarshalTable, if_neg (by rw [hlen]; simp), dif_pos (by rw [hdiv]; exact t.count_le)]
  congr 1
  refine Table.ext (funext fun i => ?_) rfl hdiv
  show (if i < t.marshal.length / inodeSize then decodeSlot t.marshal i else default) = t.slots i
  rw [hdiv]
  by_cases hi : i < t.count
  · have hslot : slice t.marshal (i * inodeSize) inodeSize = (t.slots i).marshalBinary :=
      slice_flatMap_range (fun j _ => length_marshalBinary _) hi
    rw [if_pos hi, decodeSlot, hslot, fromBytes_marshalBinary]
  · rw [if_neg hi, t.fresh i (by omega)]

theorem get_of_lt {t : Table} {id : Nat} (h : id < t.cap) : t.get id = .ok (t.slots id) := by
  rw [get, if_neg (by omega)]

theorem put_ok {t t' : Table} {id : Nat} {i : Inode} (h : t.put id i = .ok t') :
    id < t.cap ∧ t'.slots = Function.update t.slots id i ∧ t'.cap = t.cap ∧
      t'.count = max t.count (id + 1) := by
  rw [put] at h
  by_cases hc : id < t.cap
  · rw [dif_pos hc] at h
    cases h
    refine ⟨hc, rfl, rfl, ?_⟩
    show (if t.count ≤ id then id + 1 else t.count) = max t.count (id + 1)
    by_cases hle : t.count ≤ id
    · rw [if_pos hle]; omega
    · rw [if_neg hle]; omega
  · rw [dif_neg hc] at h; cases h

theorem put_of_lt {t : Table} {id : Nat} (h : id < t.cap) (i : Inode) :
    t.put id i = .ok (t.store id h i) := by
  rw [put, dif_pos h]

end Table

end Inode
end BloomFS

/-
File contents: the block map of an inode and the records it names.

A file of one record keeps its ref in the inode.  A file of several keeps a ref to
a block map.  New records are always written before the old ones are released.
-/
import BloomFS.Fs.State

namespace BloomFS
namespace Fs

open Bytes Exec Block Store

/-- The ref in the block map of an inode: of its only record when inline, and of
its serialized block map otherwise. -/
def mapRef (in_ : Inode) : Ref := Ref.unmarshal (in_.blockMap.toList.take refSize)

def isInline (in_ : Inode) : Bool := in_.flags &&& Inode.flagInlineExtents != 0

def mapOf (r : Ref) : Vector UInt8 64 := toVec 64 r.marshal

namespace FS

variable (env : Env) (s : FS)

def bsRead (r : Ref) : Except (Fault Error) Bytes :=
  (Store.read env s.bs s.dev r).mapError (Fault.map Error.store)

/-- Read and decode the block map of a file of several records. -/
def readMap (in_ : Inode) : Except (Fault Error) (List Ref) := do
  let blob ← s.bsRead env (mapRef in_)
  match decodeRefs blob with
  | none => throw (.err .corrupt)
  | some refs => return refs

/-- The data records of an inode, in order. -/
def loadRefs (in_ : Inode) : Except (Fault Error) (List Ref) :=
  if in_.size = 0 then .ok []
  else if isInline in_ then .ok [mapRef in_]
  else s.readMap env in_

def getData (in_ : Inode) : Except (Fault Error) Bytes :=
  if in_.size = 0 then .ok []
  else do
    let refs ← s.loadRefs env in_
    let recs ← refs.mapM (s.bsRead env)
    return recs.flatten

end FS

section Ops

variable {env : Env}

/-- A content change bumps both mtime and ctime. -/
def touchMod (in_ : Inode) : Act env Inode := do
  let t ← now
  return { in_ with mtime := t, ctime := t }

/-- A metadata change bumps ctime. -/
def touchMeta (in_ : Inode) : Act env Inode := do
  let t ← now
  return { in_ with ctime := t }

/-- Record `refs` as the block map of an inode: none, one inline, or a ref to a
serialized list. -/
def storeRefs (in_ : Inode) (refs : List Ref) (size : UInt64) (log2 : UInt8) : Act env Inode :=
  let cleared := { in_ with blockMap := Vector.replicate 64 0
                            flags := in_.flags &&& ~~~ Inode.flagInlineExtents
                            size := size, recordSizeLog2 := log2 }
  match refs with
  | [] => return { cleared with size := 0, recordSizeLog2 := 0 }
  | [r] => return { cleared with blockMap := mapOf r
                                 flags := cleared.flags ||| Inode.flagInlineExtents }
  | refs => do
      let m ← bsWrite (encodeRefs refs)
      return { cleared with blockMap := mapOf m }

theorem storeRefs_several {refs : List Ref} (h : 2 ≤ refs.length) (in_ : Inode) (size : UInt64)
    (log2 : UInt8) : (storeRefs in_ refs size log2 : Act env Inode) = (do
      let m ← bsWrite (encodeRefs refs)
      return { in_ with blockMap := mapOf m
                        flags := in_.flags &&& ~~~ Inode.flagInlineExtents
                        size := size, recordSizeLog2 := log2 }) := by
  rcases refs with _ | ⟨r, _ | ⟨r', rest⟩⟩
  · exact absurd h (by simp)
  · exact absurd h (by simp)
  · rfl

/-- Drop one reference to every record of the inode and to its block map. -/
def releaseData (in_ : Inode) : Act env Unit :=
  if in_.size = 0 then pure ()
  else if isInline in_ then bsRelease (mapRef in_)
  else do
    let s ← Within.get
    let refs ← Within.ofExcept (s.readMap env in_)
    refs.forM bsRelease
    bsRelease (mapRef in_)

/-- The records of new contents, with their size and its logarithm. -/
def chunk (blob : Bytes) : List Bytes × UInt8 :=
  if blob.isEmpty then ([], 0)
  else (splitRecords blob (recordSizeFor blob.length).1, (recordSizeFor blob.length).2)

/-- Replace the contents of an inode.  A slice has fewer than 2^64 bytes. -/
def setData (id : Nat) (in_ : Inode) (blob : Bytes) : Act env Unit :=
  if 2 ^ 64 ≤ blob.length then Within.panic
  else do
    let refs ← (chunk blob).1.mapM bsWrite
    let new ← storeRefs in_ refs (UInt64.ofNat blob.length) (chunk blob).2
    releaseData in_
    let new ← touchMod new
    putInode id new

/-- The bytes of one record after a write: the old bytes, zeros past their end,
and the written range over both. -/
def mergeRecord (old : Bytes) (recStart recEnd off : Nat) (data : Bytes) : Bytes :=
  let rec_ := List.replicate (recEnd - recStart) 0
  let rec_ := patch rec_ 0 (old.take (min old.length rec_.length))
  let lo := max off recStart
  let hi := min (off + data.length) recEnd
  if lo < hi then patch rec_ (lo - recStart) (slice data (lo - off) (hi - lo)) else rec_

/-- Record `i` of a write of `data` at `off`: its new ref, and the old ref if that
is to be released. -/
def writeRecord (oldRefs : List Ref) (oldSize newSize rs off : Nat) (data : Bytes) (i : Nat) :
    Act env (Ref × List Ref) :=
  let recStart := i * rs
  if 2 ^ 64 ≤ recStart + rs then Within.panic
  else
    let recEnd := min (recStart + rs) newSize
    match oldRefs[i]? with
    | none => do
        let r ← bsWrite (mergeRecord [] recStart recEnd off data)
        return (r, [])
    | some old =>
        -- a record the write does not touch and that keeps its length is carried over
        if ¬ (recStart < off + data.length ∧ off < recEnd) ∧ recEnd ≤ oldSize then
          return (old, [])
        else do
          let s ← Within.get
          let bytes ← Within.ofExcept (s.bsRead env old)
          let r ← bsWrite (mergeRecord bytes recStart recEnd off data)
          return (r, [old])

/-- The record size of a write: frozen once the file holds data. -/
def writeSize (in_ : Inode) (newSize : Nat) : Except (Fault Error) (Nat × UInt8) :=
  if in_.size = 0 then .ok (recordSizeFor newSize)
  else if 64 ≤ in_.recordSizeLog2.toNat then .error .panic
  else .ok (2 ^ in_.recordSizeLog2.toNat, in_.recordSizeLog2)

/-- The ref of the block map that a write replaces. -/
def oldContainer (in_ : Inode) : List Ref :=
  if in_.size ≠ 0 ∧ ¬ isInline in_ then [mapRef in_] else []

/-- Overwrite `data` at `off`, rewriting only the records that overlap it, and
return the new inode. -/
def writeAtLocked (id : Nat) (in_ : Inode) (off : Nat) (data : Bytes) : Act env Inode :=
  if data.isEmpty then pure in_
  else do
    let s ← Within.get
    let oldRefs ← Within.ofExcept (s.loadRefs env in_)
    if 2 ^ 64 ≤ off + data.length then Within.panic
    else do
      let newSize := max in_.size.toNat (off + data.length)
      let (rs, log2) ← Within.ofExcept (writeSize in_ newSize)
      let out ← (List.range (divCeil newSize rs)).mapM
        (writeRecord oldRefs in_.size.toNat newSize rs off data)
      let new ← storeRefs in_ (out.map (·.1)) (UInt64.ofNat newSize) log2
      (out.flatMap (·.2)).forM bsRelease
      (oldContainer in_).forM bsRelease
      let new ← touchMod new
      putInode id new
      return new

end Ops

end Fs
end BloomFS

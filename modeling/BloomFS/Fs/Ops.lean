/-
The operations of the file system.
-/
import BloomFS.Fs.Dirs

namespace BloomFS
namespace Fs

open Bytes Exec Block Store Dir

structure Stat where
  ino : Nat
  size : UInt64
  nlink : UInt32
  generation : UInt32
  mode : UInt16
  kind : UInt8
  uid : UInt32
  gid : UInt32
  atime : UInt64
  mtime : UInt64
  ctime : UInt64
  deriving DecidableEq

structure FsStat where
  blockSize : Nat
  blocks : Nat
  blocksFree : Nat
  files : Nat
  filesFree : Nat
  deriving Repr, DecidableEq

structure Dirent where
  name : String
  ino : Nat
  kind : UInt8
  deriving Repr, DecidableEq

/-- An open reference to a file. -/
structure Handle where
  id : Nat
  closed : Bool
  deriving Repr, DecidableEq

/-! ## Reading -/

namespace FS

variable (env : Env) (s : FS)

def stat (id : Nat) : Except (Fault Error) Stat := do
  let in_ ← s.getInode id
  return { ino := id, size := in_.size, nlink := in_.nlink, generation := in_.generation
           mode := in_.mode, kind := in_.kind, uid := in_.uid, gid := in_.gid
           atime := in_.atime, mtime := in_.mtime, ctime := in_.ctime }

/-- Capacity report; an underflow of one of the differences is a panic. -/
def statfs : Except (Fault Error) FsStat :=
  if s.ub.nextInode.toNat < s.freeInodes.length then .error .panic
  else
    let used := s.ub.nextInode.toNat - s.freeInodes.length
    if s.bm.total < s.bm.used then .error .panic
    else if s.inodes.cap < used then .error .panic
    else .ok
      { blockSize := Block.size, blocks := s.bm.total
        blocksFree := s.bm.available + s.bm.deferredCount
        files := s.inodes.cap, filesFree := s.inodes.cap - used }

/-- `statfs` returns if none of its differences underflows. -/
theorem statfs_ok_iff {s : FS} {st : FsStat} : s.statfs = .ok st ↔
    s.freeInodes.length ≤ s.ub.nextInode.toNat ∧ s.bm.used ≤ s.bm.total ∧
      s.ub.nextInode.toNat - s.freeInodes.length ≤ s.inodes.cap ∧
      { blockSize := Block.size, blocks := s.bm.total
        blocksFree := s.bm.available + s.bm.deferredCount, files := s.inodes.cap
        filesFree := s.inodes.cap - (s.ub.nextInode.toNat - s.freeInodes.length) } = st := by
  unfold statfs
  by_cases hfree : s.ub.nextInode.toNat < s.freeInodes.length
  · rw [if_pos hfree]
    exact iff_of_false nofun fun h => Nat.not_lt.mpr h.1 hfree
  rw [if_neg hfree]
  dsimp only
  by_cases hused : s.bm.total < s.bm.used
  · rw [if_pos hused]
    exact iff_of_false nofun fun h => Nat.not_lt.mpr h.2.1 hused
  rw [if_neg hused]
  by_cases hcap : s.inodes.cap < s.ub.nextInode.toNat - s.freeInodes.length
  · rw [if_pos hcap]
    exact iff_of_false nofun fun h => Nat.not_lt.mpr h.2.2.1 hcap
  rw [if_neg hcap, Except.ok.injEq]
  exact ⟨fun h => ⟨Nat.not_lt.mp hfree, Nat.not_lt.mp hused, Nat.not_lt.mp hcap, h⟩,
    fun h => h.2.2.2⟩

/-- Whether `length` more bytes would fit if none of them were shared. -/
def fallocate (_id length : Nat) : Except (Fault Error) Unit :=
  if length = 0 then .ok ()
  else
    let recordSize := (recordSizeFor length).1
    let clustersPerRec := recordSize / Block.size
    let nRecords := divCeil length recordSize
    let dataClusters := nRecords * clustersPerRec
    let mapClusters := divCeil (nRecords * refSize) Block.size
    if s.bm.total < s.bm.used then .error .panic
    else if s.bm.available + s.bm.deferredCount < dataClusters + mapClusters then
      .error (.err .noSpace)
    else .ok ()

/-- Access check: owner, then group, then other, and root bypasses all but
execution. -/
def access (id : Nat) (mask uid gid : UInt32) (gids : List UInt32) : Except (Fault Error) Unit := do
  let in_ ← s.getInode id
  if mask = 0 then return ()
  else
    let perm := in_.mode.toUInt32 &&& 0o777
    if uid = 0 then
      if mask &&& 1 ≠ 0 ∧ in_.kind ≠ Inode.typeDir ∧ perm &&& 0o111 = 0 then
        throw (.err .permission)
      else return ()
    else
      let shift : UInt32 :=
        if uid = in_.uid then 6 else if gid = in_.gid ∨ in_.gid ∈ gids then 3 else 0
      let allowed := (perm >>> shift) &&& 7
      if mask &&& allowed ≠ mask then throw (.err .permission) else return ()

def regular (id : Nat) : Except (Fault Error) Inode := do
  let in_ ← s.getInode id
  if in_.kind ≠ Inode.typeRegular then throw (.err .notFile) else return in_

def readlink (id : Nat) : Except (Fault Error) String := do
  let in_ ← s.getInode id
  if in_.kind ≠ Inode.typeLink then throw (.err .invalid)
  else
    let data ← s.getData env in_
    return Utf8.fromUtf8Lossy data

def readFile (id : Nat) : Except (Fault Error) Bytes := do
  let in_ ← s.regular id
  s.getData env in_

/-- The part of record `i` that lies in `[off, end_)`. -/
def readPiece (refs : List Ref) (rs off end_ i : Nat) : Except (Fault Error) Bytes :=
  match refs[i]? with
  | none => .error .panic
  | some r => do
      let rec_ ← s.bsRead env r
      let recStart := i * rs
      let recEnd := recStart + rec_.length
      if 2 ^ 64 ≤ recEnd then throw .panic
      else
        let lo := max off recStart
        let hi := min end_ recEnd
        return if lo < hi then slice rec_ (lo - recStart) (hi - lo) else []

def readAt (id off length : Nat) : Except (Fault Error) Bytes := do
  let in_ ← s.regular id
  if length = 0 ∨ in_.size.toNat ≤ off then return []
  else if 2 ^ 64 ≤ off + length then throw .panic
  else
    let end_ := min (off + length) in_.size.toNat
    let refs ← s.loadRefs env in_
    if 64 ≤ in_.recordSizeLog2.toNat then throw .panic
    else
      let rs := 2 ^ in_.recordSizeLog2.toNat
      let pieces ← (List.range' (off / rs) ((end_ - 1) / rs + 1 - off / rs)).mapM
        (s.readPiece env refs rs off end_)
      return pieces.flatten

/-- Read through a handle, which also works for an unlinked file. -/
def handleRead (h : Handle) : Except (Fault Error) Bytes := do
  let in_ ← s.getInode h.id
  s.getData env in_

end FS

section Ops

variable {env : Env}

def lookup (parent : Nat) (name : String) : Act env (Option Nat) := do
  match ← cachePeek parent (fun h => h.dir.find env name) with
  | some found => return found
  | none =>
      let s ← Within.get
      let entries ← Within.ofExcept (s.readDirPages env parent)
      return (entries.find? (·.name = name)).map (·.inode)

/-- The entries of directory `id`, through the cache when it is on. -/
def listDir (id : Nat) : Act env (List DirEntry) := do
  match ← cachePeek id (fun h => h.pages.flatMap (·.entries)) with
  | some l => return l
  | none =>
      let s ← Within.get
      Within.ofExcept (s.readDirPages env id)

def readdir (id : Nat) : Act env (List String) := do
  return (← listDir id).map (·.name)

def readdirents (id : Nat) : Act env (List Dirent) := do
  (← listDir id).mapM fun e => do
    let in_ ← getInode e.inode
    return { name := e.name, ino := e.inode, kind := in_.kind }

/-- The names of directory `id` as a snapshot for iteration. -/
def openDirStream (id : Nat) : Act env (List String) := do
  return (← listDir id).map (·.name)

/-! ## Inodes -/

/-- Reserve an inode id, reusing a reclaimed one if there is any. -/
def allocInode : Act env Nat := do
  let s ← Within.get
  match s.freeInodes with
  | id :: rest => do
      setFreeInodes rest
      return id
  | [] =>
      if s.inodes.cap ≤ s.ub.nextInode.toNat then Within.fail .noInodes
      else do
        setNextInode (s.ub.nextInode + 1)
        return s.ub.nextInode.toNat

/-- Free the data of an inode and recycle its id. -/
def reclaim (id : Nat) (in_ : Inode) : Act env Unit := do
  evictDir id
  releaseData in_
  let generation ← succ32 in_.generation
  putInode id { Inode.default with generation := generation }
  let s ← Within.get
  setFreeInodes (id :: s.freeInodes)

def mutateInode (id : Nat) (f : Inode → Inode) : Act env Unit := do
  let in_ ← getInode id
  putInode id (f in_)

def chmod (id : Nat) (mode : UInt16) : Act env Unit := do
  let t ← now
  mutateInode id fun in_ => { in_ with mode := mode, ctime := t }

def chown (id : Nat) (uid gid : UInt32) : Act env Unit := do
  let t ← now
  mutateInode id fun in_ => { in_ with uid := uid, gid := gid, ctime := t }

def utimes (id : Nat) (atime mtime : UInt64) : Act env Unit := do
  let t ← now
  mutateInode id fun in_ => { in_ with atime := atime, mtime := mtime, ctime := t }

/-! ## Names -/

/-- The inode `createNode` puts into a fresh slot. -/
def childInode (kind : UInt8) (mode : UInt16) (generation : UInt32) (t : UInt64) : Inode :=
  { Inode.default with
    kind := kind, nlink := if kind = Inode.typeDir then 2 else 1, mode := mode
    generation := generation, atime := t, mtime := t, ctime := t }

/-- Add a new inode of the given kind under `parent`. -/
def createNode (parent : Nat) (name : String) (kind : UInt8) (mode : UInt16) : Act env Nat := do
  let h ← checkoutDir parent
  if (h.dir.find env name).isSome then Within.fail .exists_
  else do
    let id ← allocInode
    let prev ← getInode id
    let t ← now
    putInode id (childInode kind mode prev.generation t)
    let h := (h.add env name id).2
    let nlink ← if kind = Inode.typeDir then succ32 h.in_.nlink else pure h.in_.nlink
    commitDir parent { h with in_ := { h.in_ with nlink := nlink } }
    return id

def mkdir (parent : Nat) (name : String) : Act env Nat :=
  createNode parent name Inode.typeDir 0o755

def create (parent : Nat) (name : String) : Act env Nat :=
  createNode parent name Inode.typeRegular 0o644

def symlink (parent : Nat) (name target : String) : Act env Nat :=
  if target.isEmpty then Within.fail .invalid
  else do
    let id ← createNode parent name Inode.typeLink 0o777
    let in_ ← getInode id
    setData id in_ (Utf8.encode target)
    return id

/-- One less, but not below zero. -/
def pred32 (n : UInt32) : UInt32 := if 0 < n then n - 1 else n

/-- Drop one name of an inode: reclaim it if that was the last one and nobody has
it open, and record the new count otherwise. -/
def dropLink (id : Nat) (in_ : Inode) : Act env Unit := do
  let in_ := { in_ with nlink := pred32 in_.nlink }
  let s ← Within.get
  if in_.nlink = 0 ∧ s.openCountOf id = 0 then reclaim id in_
  else do
    let in_ ← touchMeta in_
    putInode id in_

def unlink (parent : Nat) (name : String) : Act env Unit := do
  let h ← checkoutDir parent
  match h.dir.find env name with
  | none => Within.fail .notFound
  | some id => do
      let child ← getInode id
      if child.kind = Inode.typeDir then Within.fail .isDir
      else do
        let h ← delName h name
        commitDir parent h
        dropLink id child

def rmdir (parent : Nat) (name : String) : Act env Unit := do
  let h ← checkoutDir parent
  match h.dir.find env name with
  | none => Within.fail .notFound
  | some id => do
      let child ← getInode id
      if child.kind ≠ Inode.typeDir then Within.fail .notDir
      else do
        let s ← Within.get
        let ch ← Within.ofExcept (s.loadDir env id)
        if ¬ ch.dir.isEmpty then Within.fail .notEmpty
        else do
          let h ← delName h name
          commitDir parent { h with in_ := { h.in_ with nlink := pred32 h.in_.nlink } }
          reclaim id child

def link (parent : Nat) (name : String) (target : Nat) : Act env Unit := do
  let in_ ← getInode target
  if in_.kind = Inode.typeDir then Within.fail .notFile
  else do
    let h ← checkoutDir parent
    if (h.dir.find env name).isSome then Within.fail .exists_
    else do
      let nlink ← succ32 in_.nlink
      let in_ ← touchMeta { in_ with nlink := nlink }
      putInode target in_
      commitDir parent (h.add env name target).2

/-- Drop the link of an existing destination.  `none` means that the destination
already names `id`. -/
def renameOverwrite (dh : CachedDir) (dn : String) (id : Nat) : Act env (Option CachedDir) :=
  match dh.dir.find env dn with
  | none => return some dh
  | some old =>
      if old = id then return none
      else do
        let in_ ← getInode old
        dropLink old in_
        return some (← delName dh dn)

def touchMoved (id : Nat) : Act env Unit := do
  let s ← Within.get
  match s.getInode id with
  | .error _ => return ()
  | .ok in_ => do
      let in_ ← touchMeta in_
      putInode id in_

/-- Whether moving `id` under `dst` would put a directory below itself. -/
def loops (s : FS) (env : Env) (src dst id : Nat) : Except (Fault Error) Bool :=
  if src = dst then .ok false
  else do
    let in_ ← s.getInode id
    if in_.kind = Inode.typeDir then s.dirSubtreeContains env id dst else return false

def rename (src : Nat) (sn : String) (dst : Nat) (dn : String) : Act env Unit := do
  let sh ← checkoutDir src
  match sh.dir.find env sn with
  | none => Within.fail .notFound
  | some id => do
      if dst = id then Within.fail .invalid
      else do
        let s ← Within.get
        if ← Within.ofExcept (loops s env src dst id) then Within.fail .invalid
        else if src = dst then do
          -- both edits land on one working copy
          match ← renameOverwrite sh dn id with
          | none => return ()
          | some sh => do
              let sh ← delName (sh.add env dn id).2 sn
              touchMoved id
              commitDir src sh
        else do
          let dh ← checkoutDir dst
          match ← renameOverwrite dh dn id with
          | none => return ()
          | some dh => do
              let sh ← delName sh sn
              touchMoved id
              commitDir dst (dh.add env dn id).2
              commitDir src sh

/-! ## Contents -/

def writeFile (id : Nat) (data : Bytes) : Act env Unit := do
  let s ← Within.get
  let in_ ← Within.ofExcept (s.regular id)
  setData id in_ data

def writeAt (id off : Nat) (data : Bytes) : Act env Unit := do
  let s ← Within.get
  let in_ ← Within.ofExcept (s.regular id)
  let _ ← writeAtLocked id in_ off data

/-- Write at the end of the file and return the offset. -/
def append (id : Nat) (data : Bytes) : Act env Nat := do
  let s ← Within.get
  let in_ ← Within.ofExcept (s.regular id)
  let _ ← writeAtLocked id in_ in_.size.toNat data
  return in_.size.toNat

def resize (b : Bytes) (n : Nat) : Bytes := b.take n ++ List.replicate (n - b.length) 0

def truncate (id newSize : Nat) : Act env Unit := do
  let s ← Within.get
  let in_ ← Within.ofExcept (s.regular id)
  if newSize = in_.size.toNat then return ()
  else do
    let blob ← Within.ofExcept (s.getData env in_)
    setData id in_ (resize blob newSize)

/-! ## Handles -/

def openFile (id : Nat) : Act env Handle := do
  let s ← Within.get
  let _ ← Within.ofExcept (s.regular id)
  let n ← succ32 (s.openCountOf id)
  setOpenCount (s.openCount.insert id n)
  return ⟨id, false⟩

/-- Drop an open reference.  The storage of a file unlinked while open is
reclaimed with its last handle. -/
def close (h : Handle) : Act env Unit :=
  if h.closed then pure ()
  else do
    let s ← Within.get
    let n := pred32 (s.openCountOf h.id)
    if n = 0 then do
      setOpenCount (s.openCount.erase h.id)
      let in_ ← getInode h.id
      if in_.nlink = 0 then reclaim h.id in_ else return ()
    else
      setOpenCount (s.openCount.insert h.id n)

/-- Turn the directory cache on or off, dropping what it holds. -/
def setDirCache (on : Bool) : Act env Unit := setCache (if on then some .new else none)

end Ops

end Fs
end BloomFS

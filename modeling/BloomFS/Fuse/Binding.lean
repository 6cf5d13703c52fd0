/-
The FUSE binding.

Every handler translates a request of the kernel to calls of the file system and the
error of a call to an errno.  The kernel counts inodes from 1, the file system from 0.
A handler that replies with an errno ends in `Fault.err`.
-/
import BloomFS.Fs.Run

namespace BloomFS
namespace Fuse

open Bytes Exec Fs

inductive Errno where
  | eacces
  | eexist
  | einval
  | eio
  | eisdir
  | enoent
  | enospc
  | enotdir
  | enotempty
  | eopnotsupp
  deriving Repr, DecidableEq

/-- The errno of a file system error; anything unexpected is `EIO`. -/
def errno : Fs.Error → Errno
  | .notFound => .enoent
  | .exists_ => .eexist
  | .notDir => .enotdir
  | .isDir => .eisdir
  | .notEmpty => .enotempty
  | .noInodes => .enospc
  | .noSpace => .enospc
  | .invalid => .einval
  | .notFile => .einval
  | .permission => .eacces
  | _ => .eio

inductive FileType where
  | directory
  | symlink
  | regularFile
  deriving Repr, DecidableEq

def fileType (kind : UInt8) : FileType :=
  if kind = Inode.typeDir then .directory
  else if kind = Inode.typeLink then .symlink
  else .regularFile

/-- The kernel's number of inode `id`. -/
def inoOf (id : Nat) : Except (Fault Errno) UInt64 :=
  if id + 1 < 2 ^ 64 then .ok (UInt64.ofNat (id + 1)) else .error .panic

def idOf (ino : UInt64) : Except (Fault Errno) Nat :=
  if ino = 0 then .error .panic else .ok (ino.toNat - 1)

/-- Times are nanoseconds since the epoch. -/
structure FileAttr where
  ino : UInt64
  size : UInt64
  blocks : UInt64
  atime : UInt64
  mtime : UInt64
  ctime : UInt64
  crtime : UInt64
  kind : FileType
  perm : UInt16
  nlink : UInt32
  uid : UInt32
  gid : UInt32
  rdev : UInt32
  blksize : UInt32
  flags : UInt32

def fillAttr (st : Stat) : Except (Fault Errno) FileAttr := do
  let ino ← inoOf st.ino
  return { ino := ino, size := st.size, blocks := UInt64.ofNat ((st.size.toNat + 511) / 512)
           atime := st.atime, mtime := st.mtime, ctime := st.ctime, crtime := st.ctime
           kind := fileType st.kind, perm := st.mode &&& 0o7777, nlink := st.nlink, uid := st.uid
           gid := st.gid, rdev := 0, blksize := UInt32.ofNat Block.size, flags := 0 }

/-- A row of a frozen listing. -/
structure DirEntrySnapshot where
  ino : UInt64
  kind : FileType
  name : String
  deriving Repr, DecidableEq

structure BloomFuse where
  fs : FS
  handles : AList (fun _ : UInt64 => Handle)
  dirHandles : AList (fun _ : UInt64 => List DirEntrySnapshot)
  nextFh : UInt64

namespace BloomFuse

def new (fs : FS) : BloomFuse := ⟨fs, ∅, ∅, 1⟩

end BloomFuse

abbrev Handler (α : Type) := Exec Errno BloomFuse α

/-- Call the file system; its error is sent as an errno. -/
def onFsExec {α : Type} (x : Exec Fs.Error FS α) : Handler α :=
  zoom BloomFuse.fs (fun fs f => { f with fs := fs }) errno x

def onFs (env : Env) {α : Type} (x : Act env α) : Handler α := onFsExec x.1

/-- A path component as a string, if it is one. -/
def toStr (name : Bytes) : Handler String :=
  let s := Utf8.fromUtf8Lossy name
  if Utf8.encode s = name then pure s else fail .einval

def takeFh : Handler UInt64 := do
  let f ← get
  if f.nextFh.toNat + 1 < 2 ^ 64 then
    set { f with nextFh := f.nextFh + 1 }
    return f.nextFh
  else panic

def insertHandle (h : Handle) : Handler UInt64 := do
  let fh ← takeFh
  modify fun f => { f with handles := f.handles.insert fh h }
  return fh

structure Request where
  uid : UInt32
  gid : UInt32

inductive TimeOrNow where
  | specificTime (t : Int)
  /-- with the reading of the system clock -/
  | now (t : Int)

/-- Nanoseconds since the epoch, none before it. -/
def fromSystime (t : Int) : UInt64 := UInt64.ofNat t.toNat

def resolve (t : Option TimeOrNow) (cur : UInt64) : UInt64 :=
  match t with
  | some (.specificTime v) => fromSystime v
  | some (.now v) => fromSystime v
  | none => cur

/-- `O_TRUNC` -/
def oTrunc : UInt32 := 0o1000

/-- The bytes of a `DirEntrySnapshot` in memory, and of the largest allocation. -/
def snapshotBytes : Nat := 40
def maxAlloc : Nat := 2 ^ 63 - 1

/-- What a readdir reply holds: the cookie resumes after the entry. -/
structure Row where
  entry : DirEntrySnapshot
  cookie : Int64

/-- Add entries to a reply that takes `room` of them and then reports that it is full. -/
def addRows : List (DirEntrySnapshot × Nat) → (room : Nat) → List Row
  | [], _ => []
  | _ :: _, 0 => []
  | (e, i) :: rest, room + 1 => ⟨e, (UInt64.ofNat (i + 1)).toInt64⟩ :: addRows rest room

section Handlers

variable (env : Env)

def statOf (id : Nat) : Handler Stat := onFs env (query env (FS.stat · id))

def attrOf (id : Nat) : Handler FileAttr := do
  Exec.ofExcept (fillAttr (← statOf env id))

/-- The attributes of an inode and its generation. -/
def entryOf (id : Nat) : Handler (FileAttr × UInt32) := do
  let st ← statOf env id
  return (← Exec.ofExcept (fillAttr st), st.generation)

def lookup (parent : UInt64) (name : Bytes) : Handler (FileAttr × UInt32) := do
  let name ← toStr name
  let parent ← Exec.ofExcept (idOf parent)
  let found ← onFs env (Fs.lookup parent name)
  match found with
  | some id => entryOf env id
  | none => fail .enoent

def getattr (ino : UInt64) : Handler FileAttr := do
  attrOf env (← Exec.ofExcept (idOf ino))

def setSize (id : Nat) (size : Option UInt64) : Handler Unit :=
  match size with
  | some sz => onFs env (Fs.truncate id sz.toNat)
  | none => pure ()

def setMode (id : Nat) (mode : Option UInt32) : Handler Unit :=
  match mode with
  | some m => onFs env (Fs.chmod id (m &&& 0o7777).toUInt16)
  | none => pure ()

def setOwner (id : Nat) (uid gid : Option UInt32) : Handler Unit :=
  if uid.isSome ∨ gid.isSome then do
    let st ← statOf env id
    onFs env (Fs.chown id (uid.getD st.uid) (gid.getD st.gid))
  else pure ()

def setTimes (id : Nat) (atime mtime : Option TimeOrNow) : Handler Unit :=
  if atime.isSome ∨ mtime.isSome then do
    let st ← statOf env id
    onFs env (Fs.utimes id (resolve atime st.atime) (resolve mtime st.mtime))
  else pure ()

def setattr (ino : UInt64) (mode uid gid : Option UInt32) (size : Option UInt64)
    (atime mtime : Option TimeOrNow) : Handler FileAttr := do
  let id ← Exec.ofExcept (idOf ino)
  setSize env id size
  setMode env id mode
  setOwner env id uid gid
  setTimes env id atime mtime
  attrOf env id

def readlink (ino : UInt64) : Handler String := do
  let id ← Exec.ofExcept (idOf ino)
  onFs env (query env (FS.readlink env · id))

/-- Give a new inode to the caller. -/
def adopt (req : Request) (id : Nat) (mode : UInt32) : Handler Unit := do
  onFs env (Fs.chmod id (mode &&& 0o7777).toUInt16)
  onFs env (Fs.chown id req.uid req.gid)

def mkdir (req : Request) (parent : UInt64) (name : Bytes) (mode : UInt32) :
    Handler (FileAttr × UInt32) := do
  let name ← toStr name
  let parent ← Exec.ofExcept (idOf parent)
  let id ← onFs env (Fs.mkdir parent name)
  adopt env req id mode
  entryOf env id

def unlink (parent : UInt64) (name : Bytes) : Handler Unit := do
  let name ← toStr name
  let parent ← Exec.ofExcept (idOf parent)
  onFs env (Fs.unlink parent name)

def rmdir (parent : UInt64) (name : Bytes) : Handler Unit := do
  let name ← toStr name
  let parent ← Exec.ofExcept (idOf parent)
  onFs env (Fs.rmdir parent name)

def symlink (req : Request) (parent : UInt64) (linkName target : Bytes) :
    Handler (FileAttr × UInt32) := do
  let name ← toStr linkName
  let target ← toStr target
  let parent ← Exec.ofExcept (idOf parent)
  let id ← onFs env (Fs.symlink parent name target)
  onFs env (Fs.chown id req.uid req.gid)
  entryOf env id

def rename (parent : UInt64) (name : Bytes) (newparent : UInt64) (newname : Bytes) :
    Handler Unit := do
  let name ← toStr name
  let newname ← toStr newname
  let parent ← Exec.ofExcept (idOf parent)
  let newparent ← Exec.ofExcept (idOf newparent)
  onFs env (Fs.rename parent name newparent newname)

def link (ino newparent : UInt64) (newname : Bytes) : Handler (FileAttr × UInt32) := do
  let newname ← toStr newname
  let target ← Exec.ofExcept (idOf ino)
  let newparent ← Exec.ofExcept (idOf newparent)
  onFs env (Fs.link newparent newname target)
  entryOf env target

def create (req : Request) (parent : UInt64) (name : Bytes) (mode : UInt32) :
    Handler ((FileAttr × UInt32) × UInt64) := do
  let name ← toStr name
  let parent ← Exec.ofExcept (idOf parent)
  let id ← onFs env (Fs.create parent name)
  adopt env req id mode
  let st ← statOf env id
  let h ← onFs env (Fs.openFile id)
  let fh ← insertHandle h
  return ((← Exec.ofExcept (fillAttr st), st.generation), fh)

/-- Close a handle whatever comes of it. -/
def closeQuietly (h : Handle) : Handler Unit :=
  handle (onFs env (Fs.close h)) fun _ => pure ()

/-- Empty a file that was opened for it, or close it again. -/
def truncateOpened (id : Nat) (h : Handle) (flags : Int32) : Handler Unit :=
  if flags.toUInt32 &&& oTrunc ≠ 0 then
    handle (onFs env (Fs.truncate id 0)) fun e => do
      closeQuietly env h
      fail e
  else pure ()

def openFile (ino : UInt64) (flags : Int32) : Handler UInt64 := do
  let id ← Exec.ofExcept (idOf ino)
  let h ← onFs env (Fs.openFile id)
  truncateOpened env id h flags
  insertHandle h

def read (ino : UInt64) (offset : Int64) (size : UInt32) : Handler Bytes := do
  let id ← Exec.ofExcept (idOf ino)
  onFs env (query env (FS.readAt env · id offset.toUInt64.toNat size.toNat))

def write (ino : UInt64) (offset : Int64) (data : Bytes) : Handler UInt32 := do
  let id ← Exec.ofExcept (idOf ino)
  onFs env (Fs.writeAt id offset.toUInt64.toNat data)
  return UInt32.ofNat data.length

def fsync : Handler Unit := onFsExec (Fs.commit env)

def fallocate (ino : UInt64) (length : Int64) (mode : Int32) : Handler Unit := do
  if mode ≠ 0 then fail .eopnotsupp
  else if length ≤ 0 then pure ()
  else
    let id ← Exec.ofExcept (idOf ino)
    onFs env (query env (FS.fallocate · id length.toUInt64.toNat))

def release (fh : UInt64) : Handler Unit := do
  let f ← get
  match f.handles.lookup fh with
  | some h =>
      set { f with handles := f.handles.erase fh }
      onFs env (Fs.close h)
  | none => pure ()

def snapshotRow (e : Dirent) : Handler DirEntrySnapshot := do
  return ⟨← Exec.ofExcept (inoOf e.ino), fileType e.kind, e.name⟩

/-- Freeze the entries of a directory, after the rows of itself and its parent. -/
def snapshotDir (ino : UInt64) : Handler (List DirEntrySnapshot) := do
  let id ← Exec.ofExcept (idOf ino)
  let ents ← onFs env (Fs.readdirents id)
  -- a vector larger than the address space is a panic
  if maxAlloc < (ents.length + 2) * snapshotBytes then panic
  else
    let rows ← ents.mapM snapshotRow
    return ⟨ino, .directory, "."⟩ :: ⟨ino, .directory, ".."⟩ :: rows

/-- Open a directory stream on a frozen listing. -/
def opendir (ino : UInt64) : Handler UInt64 := do
  let snap ← snapshotDir env ino
  let fh ← takeFh
  modify fun f => { f with dirHandles := f.dirHandles.insert fh snap }
  return fh

/-- The listing of a stream, or one made now if the stream is not known. -/
def openedDir (ino fh : UInt64) : Handler (List DirEntrySnapshot) := do
  let f ← get
  match f.dirHandles.lookup fh with
  | some snap => pure snap
  | none => snapshotDir env ino

/-- Serve the frozen listing from `offset` on, to a reply with room for `room` entries. -/
def readdir (ino fh : UInt64) (offset : Int64) (room : Nat) : Handler (List Row) := do
  let entries ← openedDir env ino fh
  return addRows (entries.zipIdx.drop offset.toUInt64.toNat) room

def releasedir (fh : UInt64) : Handler Unit :=
  modify fun f => { f with dirHandles := f.dirHandles.erase fh }

def access (req : Request) (ino : UInt64) (mask : Int32) : Handler Unit := do
  let id ← Exec.ofExcept (idOf ino)
  onFs env (query env (FS.access · id mask.toUInt32 req.uid req.gid []))

def statfs : Handler FsStat := onFs env (query env FS.statfs)

end Handlers

/-! ## Requests -/

/-- What the kernel may ask. -/
inductive Call where
  | lookup (parent : UInt64) (name : Bytes)
  | getattr (ino : UInt64)
  | setattr (ino : UInt64) (mode uid gid : Option UInt32) (size : Option UInt64)
      (atime mtime : Option TimeOrNow)
  | readlink (ino : UInt64)
  | mkdir (parent : UInt64) (name : Bytes) (mode : UInt32)
  | unlink (parent : UInt64) (name : Bytes)
  | rmdir (parent : UInt64) (name : Bytes)
  | symlink (parent : UInt64) (linkName target : Bytes)
  | rename (parent : UInt64) (name : Bytes) (newparent : UInt64) (newname : Bytes)
  | link (ino newparent : UInt64) (newname : Bytes)
  | create (parent : UInt64) (name : Bytes) (mode : UInt32)
  | openFile (ino : UInt64) (flags : Int32)
  | read (ino : UInt64) (offset : Int64) (size : UInt32)
  | write (ino : UInt64) (offset : Int64) (data : Bytes)
  | flush
  | fsync
  | fallocate (ino : UInt64) (length : Int64) (mode : Int32)
  | release (fh : UInt64)
  | opendir (ino : UInt64)
  | readdir (ino fh : UInt64) (offset : Int64) (room : Nat)
  | releasedir (fh : UInt64)
  | access (ino : UInt64) (mask : Int32)
  | statfs

inductive Answer where
  | ok
  | entry (attr : FileAttr) (generation : UInt32)
  | attr (attr : FileAttr)
  | data (b : Bytes)
  | text (s : String)
  | created (attr : FileAttr) (generation : UInt32) (fh : UInt64)
  | opened (fh : UInt64)
  | written (n : UInt32)
  | rows (l : List Row)
  | stat (st : FsStat)

def Answer.ofEntry (e : FileAttr × UInt32) : Answer := .entry e.1 e.2

def Answer.ofCreated (e : (FileAttr × UInt32) × UInt64) : Answer := .created e.1.1 e.1.2 e.2

/-- The handler of a call. -/
def handler (env : Env) (req : Request) : Call → Handler Answer
  | .lookup parent name => Answer.ofEntry <$> lookup env parent name
  | .getattr ino => Answer.attr <$> getattr env ino
  | .setattr ino mode uid gid size atime mtime =>
      Answer.attr <$> setattr env ino mode uid gid size atime mtime
  | .readlink ino => Answer.text <$> readlink env ino
  | .mkdir parent name mode => Answer.ofEntry <$> mkdir env req parent name mode
  | .unlink parent name => (fun _ => Answer.ok) <$> unlink env parent name
  | .rmdir parent name => (fun _ => Answer.ok) <$> rmdir env parent name
  | .symlink parent linkName target => Answer.ofEntry <$> symlink env req parent linkName target
  | .rename parent name newparent newname =>
      (fun _ => Answer.ok) <$> rename env parent name newparent newname
  | .link ino newparent newname => Answer.ofEntry <$> link env ino newparent newname
  | .create parent name mode => Answer.ofCreated <$> create env req parent name mode
  | .openFile ino flags => Answer.opened <$> openFile env ino flags
  | .read ino offset size => Answer.data <$> read env ino offset size
  | .write ino offset data => Answer.written <$> write env ino offset data
  | .flush => pure .ok
  | .fsync => (fun _ => Answer.ok) <$> fsync env
  | .fallocate ino length mode => (fun _ => Answer.ok) <$> fallocate env ino length mode
  | .release fh => (fun _ => Answer.ok) <$> release env fh
  | .opendir ino => Answer.opened <$> opendir env ino
  | .readdir ino fh offset room => Answer.rows <$> readdir env ino fh offset room
  | .releasedir fh => (fun _ => Answer.ok) <$> releasedir fh
  | .access ino mask => (fun _ => Answer.ok) <$> access env req ino mask
  | .statfs => Answer.stat <$> statfs env

/-! ## One step of a handler -/

section Steps

variable {env : Env} {α : Type} {f : BloomFuse} {fs : FS} {e : Fs.Error}

theorem toStr_encode (s : String) : toStr (Utf8.encode s) f = .ok s f := by
  have hstr : toStr (Utf8.encode s) = pure s := by
    show (if Utf8.encode (Utf8.fromUtf8Lossy (Utf8.encode s)) = Utf8.encode s then
      pure (Utf8.fromUtf8Lossy (Utf8.encode s)) else fail .einval : Handler String) = _
    rw [Utf8.fromUtf8Lossy_encode, if_pos rfl]
  rw [hstr]
  rfl

theorem ofExcept_idOf {ino : UInt64} {id : Nat} (h : idOf ino = .ok id) :
    (Exec.ofExcept (idOf ino) : Handler Nat) f = .ok id f := by
  rw [h]
  rfl

theorem onFs_error {x : Act env α} (h : x.1 f.fs = .error (.err e) fs) :
    onFs env x f = .error (.err (errno e)) { f with fs := fs } := by
  unfold onFs onFsExec zoom
  rw [h]
  rfl

theorem onFs_ok {x : Act env α} {a : α} (h : x.1 f.fs = .ok a fs) :
    onFs env x f = .ok a { f with fs := fs } := by
  unfold onFs onFsExec zoom
  rw [h]

end Steps

end Fuse
end BloomFS

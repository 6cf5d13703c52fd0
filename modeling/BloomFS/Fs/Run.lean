/-
Formatting, mounting, and whole runs.

A session is a mounted file system with the handles its caller holds.  `Run` is a
run of public operations from a freshly formatted device, with the sessions it
went through.  Its parameters restrict the device and the steps, so that each
statement says which runs it is about.
-/
import BloomFS.Fs.Ops

namespace BloomFS
namespace Fs

open Bytes Exec Block Store

/-- Reclaimable slots below the high-water mark, the last one on top. -/
def rebuildFreeInodes (t : Inode.Table) : List Nat :=
  ((List.range t.count).filter fun id => (t.slots id).nlink = 0).reverse

variable (env : Env)

/-- Open an existing file system.  `ticks` and `orders` count the runtime's
choices so far. -/
def mount (key : Option Bytes) (ticks orders : Nat) (dev : Disk) : Except (Fault Error) FS := do
  let (ub, bm, ddt, inodes) ← (Cow.mount env dev).mapError (Fault.map .cow)
  let bs ← (BlockStore.new key).mapError fun e => .err (.store e)
  if 2 ^ 64 ≤ ub.metaBlocks.toNat * Block.size then throw .panic
  else
    return { dev := dev, ub := ub, bm := bm, ddt := ddt, inodes := inodes, bs := bs
             openCount := ∅, freeInodes := rebuildFreeInodes inodes, ticks := ticks
             orders := orders, metaBuf := List.replicate (ub.metaBlocks.toNat * Block.size) 0
             dirCache := some .new }

def rootInode (t : UInt64) : Inode :=
  { Inode.default with kind := Inode.typeDir, nlink := 2, mode := 0o755
                       atime := t, mtime := t, ctime := t }

variable {env} in
/-- Create the root directory of a fresh file system. -/
def makeRoot : Act env Unit := do
  let t ← now
  let s ← Within.get
  putInode s.ub.rootInode.toNat (rootInode t)

/-- Create the root directory of a fresh file system and commit. -/
def initialise : Exec Error FS Unit := do
  (makeRoot : Act env Unit).1
  commit env

/-- Create a fresh file system with the given capacities and mount it. -/
def formatSized (inodeCount ddtReserve : Nat) (key : Option Bytes) (dev : Disk) :
    Except (Fault Error) FS :=
  match Cow.format env inodeCount ddtReserve dev with
  | .error f _ => .error (f.map .cow)
  | .ok _ dev => do
      let fs ← mount env key 0 0 dev
      match initialise env fs with
      | .error f _ => throw f
      | .ok _ fs => return fs

/-- Create a fresh file system and mount it. -/
def format (key : Option Bytes) (dev : Disk) : Except (Fault Error) FS :=
  formatSized env defaultInodeCount defaultDdtReserve key dev

/-! ## Sessions -/

structure Session where
  fs : FS
  handles : List Handle

inductive Op where
  | lookup (parent : Nat) (name : String)
  | readdir (id : Nat)
  | readdirents (id : Nat)
  | openDirStream (id : Nat)
  | stat (id : Nat)
  | statfs
  | fallocate (id length : Nat)
  | access (id : Nat) (mask uid gid : UInt32) (gids : List UInt32)
  | mkdir (parent : Nat) (name : String)
  | create (parent : Nat) (name : String)
  | symlink (parent : Nat) (name target : String)
  | readlink (id : Nat)
  | writeFile (id : Nat) (data : Bytes)
  | readFile (id : Nat)
  | readAt (id off length : Nat)
  | writeAt (id off : Nat) (data : Bytes)
  | append (id : Nat) (data : Bytes)
  | truncate (id newSize : Nat)
  | unlink (parent : Nat) (name : String)
  | rmdir (parent : Nat) (name : String)
  | chmod (id : Nat) (mode : UInt16)
  | chown (id : Nat) (uid gid : UInt32)
  | utimes (id : Nat) (atime mtime : UInt64)
  | link (parent : Nat) (name : String) (target : Nat)
  | rename (src : Nat) (sn : String) (dst : Nat) (dn : String)
  | openFile (id : Nat)
  | handleRead (handle : Nat)
  | close (handle : Nat)
  | commit
  | setDirCache (on : Bool)
  | remount (key : Option Bytes)

inductive Reply where
  | unit
  | id (n : Nat)
  | found (n : Option Nat)
  | names (l : List String)
  | dirents (l : List Dirent)
  | stat (st : Stat)
  | fsStat (st : FsStat)
  | bytes (b : Bytes)
  | text (t : String)

def query {α : Type} (f : FS → Except (Fault Error) α) : Act env α := do
  let s ← Within.get
  Within.ofExcept (f s)

/-- The operation as a computation on the file system, given the handles the
caller holds.  Opening and closing also change those. -/
def actOf (handles : List Handle) : Op → Act env Reply
  | .lookup parent name => Reply.found <$> lookup parent name
  | .readdir id => Reply.names <$> readdir id
  | .readdirents id => Reply.dirents <$> readdirents id
  | .openDirStream id => Reply.names <$> openDirStream id
  | .stat id => Reply.stat <$> query env (FS.stat · id)
  | .statfs => Reply.fsStat <$> query env FS.statfs
  | .fallocate id length => (fun _ => Reply.unit) <$> query env (FS.fallocate · id length)
  | .access id mask uid gid gids =>
      (fun _ => Reply.unit) <$> query env (FS.access · id mask uid gid gids)
  | .mkdir parent name => Reply.id <$> mkdir parent name
  | .create parent name => Reply.id <$> create parent name
  | .symlink parent name target => Reply.id <$> symlink parent name target
  | .readlink id => Reply.text <$> query env (FS.readlink env · id)
  | .writeFile id data => (fun _ => Reply.unit) <$> writeFile id data
  | .readFile id => Reply.bytes <$> query env (FS.readFile env · id)
  | .readAt id off length => Reply.bytes <$> query env (FS.readAt env · id off length)
  | .writeAt id off data => (fun _ => Reply.unit) <$> writeAt id off data
  | .append id data => Reply.id <$> append id data
  | .truncate id newSize => (fun _ => Reply.unit) <$> truncate id newSize
  | .unlink parent name => (fun _ => Reply.unit) <$> unlink parent name
  | .rmdir parent name => (fun _ => Reply.unit) <$> rmdir parent name
  | .chmod id mode => (fun _ => Reply.unit) <$> chmod id mode
  | .chown id uid gid => (fun _ => Reply.unit) <$> chown id uid gid
  | .utimes id atime mtime => (fun _ => Reply.unit) <$> utimes id atime mtime
  | .link parent name target => (fun _ => Reply.unit) <$> link parent name target
  | .rename src sn dst dn => (fun _ => Reply.unit) <$> rename src sn dst dn
  | .openFile id => (fun h => Reply.id h.id) <$> openFile id
  | .handleRead i =>
      match handles[i]? with
      | none => pure .unit
      | some h => Reply.bytes <$> query env (FS.handleRead env · h)
  | .close i =>
      match handles[i]? with
      | none => pure .unit
      | some h => (fun _ => Reply.unit) <$> close h
  | .setDirCache on => (fun _ => Reply.unit) <$> setDirCache on
  -- these two are not calls of `Act`
  | .commit => pure .unit
  | .remount _ => pure .unit

/-- The handles after an operation: a successful open adds one, and a close marks
its handle whether it succeeds or not. -/
def handlesAfter (op : Op) (succeeded : Bool) (handles : List Handle) : List Handle :=
  match op with
  | .openFile id => if succeeded then handles ++ [⟨id, false⟩] else handles
  | .close i => handles.modify i fun h => { h with closed := true }
  | _ => handles

abbrev Outcome := Except (Fault Error) Reply

/-- The operation as a computation on the file system. -/
def execOf (handles : List Handle) : Op → Exec Error FS Reply
  | .commit => (fun _ => Reply.unit) <$> commit env
  | op => (actOf env handles op).1

def call (op : Op) (s : Session) : Outcome × Session :=
  match execOf env s.handles op s.fs with
  | .ok r fs => (.ok r, ⟨fs, handlesAfter op true s.handles⟩)
  | .error f fs => (.error f, ⟨fs, handlesAfter op false s.handles⟩)

def perform (op : Op) (s : Session) : Outcome × Session :=
  match op with
  | .remount key =>
      -- the device passes from one mount to the next, the handles are gone
      match mount env key s.fs.ticks s.fs.orders s.fs.dev with
      | .ok fs => (.ok .unit, ⟨fs, []⟩)
      | .error f => (.error f, s)
  | op => call env op s

/-- A zeroed device that nothing was written to. -/
structure Blank (d : Disk) : Prop where
  image : d.image = fun _ => zeroBlock
  trace : d.trace = []

/-- A run from a formatted device, with the sessions it went through, the last
one last. -/
inductive Run (D : Disk → Prop) (P : Session → Op → Outcome → Prop) : List Session → Session → Prop
  | start {key : Option Bytes} {d : Disk} {fs : FS} (blank : Blank d) (hd : D d)
      (run : format env key d = .ok fs) : Run D P [⟨fs, []⟩] ⟨fs, []⟩
  | step {past : List Session} {s s' : Session} {op : Op} {out : Outcome} (run : Run D P past s)
      (does : perform env op s = (out, s')) (hp : P s op out) : Run D P (past ++ [s']) s'

end Fs
end BloomFS

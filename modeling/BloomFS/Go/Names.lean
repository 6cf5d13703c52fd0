/-
The name operations of `fs.go`.

A directory is resident in the cache, as an object that the operations change and flush, or
it is read from the disk.  Every name that is added to a directory is added to the membership
gate, and every name that is taken is buried there.  `walkBuildGate` builds the gate again
from the directories that the root leads to; one that cannot be read is left out.

The cache makes room between the calls only.  In a call that would evict a directory it holds,
the directory is not opened again, so the flush at the end leaves the same state.  A walk for
the gate leaves the cache as it is.  Of an inode the model has the type and the number of
links, so new times are no change.  The pages of a directory are one list, which a flush writes
or, if it fails, leaves in any state.
-/
import BloomFS.Go.Gate
import BloomFS.Lib.Exec

namespace BloomFS
namespace Go

open Bytes Dir Exec

inductive Kind where
  | regular
  | dir
  | link
  deriving Repr, DecidableEq

/-- A freed slot is a regular file without links. -/
structure Inode where
  kind : Kind
  nlink : Nat
  deriving Repr, DecidableEq

inductive Error where
  | exists_
  | notFound
  | notDir
  | isDir
  | notFile
  | notEmpty
  | noInodes
  | invalid
  /-- an inode id beyond the table -/
  | range
  /-- an error of the store -/
  | store
  deriving Repr, DecidableEq

/-- A resident directory, with the copy of its inode. -/
structure CachedDir where
  in_ : Inode
  entries : List DirEntry
  deriving Repr, DecidableEq

namespace CachedDir

def find (h : CachedDir) (name : String) : Option Nat :=
  (h.entries.find? (·.name = name)).map (·.inode)

def add (h : CachedDir) (name : String) (id : Nat) : CachedDir :=
  if (h.find name).isSome then h else { h with entries := h.entries ++ [⟨name, id⟩] }

def del (h : CachedDir) (name : String) : CachedDir :=
  { h with entries := h.entries.filter (·.name ≠ name) }

/-- The directory with another number of links. -/
def links (h : CachedDir) (k : Nat → Nat) : CachedDir :=
  { h with in_ := { h.in_ with nlink := k h.in_.nlink } }

end CachedDir

/-- The errors of the store.  Flush `n` fails if `flush n` is some inode with its data, which
it leaves, and the data of inode `id` cannot be released if `release id`. -/
structure Faults where
  flush : Nat → Option (Inode × Option (List DirEntry))
  release : Nat → Bool

def Faults.none : Faults := ⟨fun _ => Option.none, fun _ => false⟩

/-- What a commit writes.  `stored` is what the data of a directory decode to, none if they
cannot be read. -/
structure Image where
  root : Nat
  cap : Nat
  nextInode : Nat
  /-- the number of slots that were written -/
  count : Nat
  inodes : Nat → Inode
  stored : Nat → Option (List DirEntry)

/-- `freeInodes` has the top of the stack first. -/
structure FS (L : Lib) extends Image where
  freeInodes : List Nat
  openCount : Nat → Nat
  dcache : Nat → Option CachedDir
  gate : Gate L
  flushes : Nat
  faults : Faults

variable {L : Lib}

abbrev Act (L : Lib) (α : Type) := Exec Error (FS L) α

def getInode (id : Nat) : Act L Inode := do
  let f ← get
  if id < f.cap then return f.inodes id else fail .range

def putInode (id : Nat) (in_ : Inode) : Act L Unit := do
  let f ← get
  if id < f.cap then
    set { f with inodes := Function.update f.inodes id in_, count := max f.count (id + 1) }
  else fail .range

/-- Put an inode that has no data. -/
def putFresh (id : Nat) (in_ : Inode) : Act L Unit := do
  let f ← get
  if id < f.cap then
    set { f with inodes := Function.update f.inodes id in_
                 stored := Function.update f.stored id (some [])
                 count := max f.count (id + 1) }
  else fail .range

def openDir (id : Nat) : Act L CachedDir := do
  let f ← get
  match f.dcache id with
  | some h => return h
  | none =>
      let in_ ← getInode id
      if in_.kind ≠ .dir then fail .notDir
      else match f.stored id with
        | none => fail .store
        | some entries =>
            set { f with dcache := Function.update f.dcache id (some ⟨in_, entries⟩) }
            return ⟨in_, entries⟩

/-- Change a directory that is open.  One that has left the cache stays out of it. -/
def setDir (id : Nat) (h : CachedDir) : Act L Unit :=
  modify fun f =>
    if (f.dcache id).isSome then { f with dcache := Function.update f.dcache id (some h) } else f

def flushDir (id : Nat) (h : CachedDir) : Act L Unit := do
  let f ← get
  match f.faults.flush f.flushes with
  | none =>
      set { f with inodes := Function.update f.inodes id h.in_
                   stored := Function.update f.stored id (some h.entries)
                   count := max f.count (id + 1)
                   flushes := f.flushes + 1 }
  | some left =>
      set { f with inodes := Function.update f.inodes id left.1
                   stored := Function.update f.stored id left.2
                   flushes := f.flushes + 1 }
      fail .store

def allocInode : Act L Nat := do
  let f ← get
  match f.freeInodes with
  | id :: rest =>
      set { f with freeInodes := rest }
      return id
  | [] =>
      if f.cap ≤ f.nextInode then fail .noInodes
      else
        set { f with nextInode := f.nextInode + 1 }
        return f.nextInode

/-- Directory `id` leaves the cache. -/
def FS.evict (f : FS L) (id : Nat) : FS L :=
  { f with dcache := Function.update f.dcache id none }

/-- Give the slot of an inode back. -/
def reclaim (id : Nat) : Act L Unit := do
  let f ← get
  if f.faults.release id then fail .store
  else
    modify (FS.evict · id)
    putFresh id ⟨.regular, 0⟩
    modify fun f => { f with freeInodes := id :: f.freeInodes }

/-- Drop a link of inode `id`, and the inode with the last one if it is not open. -/
def dropLink (id : Nat) (in_ : Inode) : Act L Unit := do
  let f ← get
  if in_.nlink - 1 = 0 ∧ f.openCount id = 0 then reclaim id
  else putInode id { in_ with nlink := in_.nlink - 1 }

/-- Change a directory that is open, and the gate, and flush. -/
def update (d : Nat) (h : CachedDir) (g : Gate L → Gate L) : Act L Unit := do
  setDir d h
  modify fun f => { f with gate := g f.gate }
  flushDir d h

/-- A new subdirectory's `..` links back to the parent. -/
def createLocked (parent : Nat) (name : String) (typ : Kind) : Act L Nat := do
  let h ← openDir parent
  if (h.find name).isSome then fail .exists_
  else
    let id ← allocInode
    let _ ← getInode id
    putFresh id ⟨typ, if typ = .dir then 2 else 1⟩
    update parent ((h.add name id).links fun n => if typ = .dir then n + 1 else n)
      (·.add parent name)
    return id

def mkdir (parent : Nat) (name : String) : Act L Nat := createLocked parent name .dir

def create (parent : Nat) (name : String) : Act L Nat := createLocked parent name .regular

/-- The target is written after the link has its name. -/
def symlink (parent : Nat) (name target : String) : Act L Nat :=
  if target = "" then fail .invalid else createLocked parent name .link

def unlink (parent : Nat) (name : String) : Act L Unit := do
  let h ← openDir parent
  match h.find name with
  | none => fail .notFound
  | some id =>
      let child ← getInode id
      if child.kind = .dir then fail .isDir
      else
        update parent (h.del name) (·.remove parent name)
        dropLink id child

def rmdir (parent : Nat) (name : String) : Act L Unit := do
  let h ← openDir parent
  match h.find name with
  | none => fail .notFound
  | some id =>
      let child ← getInode id
      if child.kind ≠ .dir then fail .notDir
      else
        let ch ← openDir id
        if 0 < ch.entries.length then fail .notEmpty
        else
          update parent ((h.del name).links (· - 1)) (·.remove parent name)
          reclaim id

def link (parent : Nat) (name : String) (targetID : Nat) : Act L Unit := do
  let target ← getInode targetID
  if target.kind = .dir then fail .notFile
  else
    let h ← openDir parent
    if (h.find name).isSome then fail .exists_
    else
      putInode targetID { target with nlink := target.nlink + 1 }
      update parent (h.add name targetID) (·.add parent name)

/-- The directories among some entries.  An entry beyond the table is an error. -/
def pushDirs : List DirEntry → Act L (List Nat)
  | [] => pure []
  | e :: es => do
      let in_ ← getInode e.inode
      let rest ← pushDirs es
      return if in_.kind = .dir then rest ++ [e.inode] else rest

/-- Whether `target` is in the subtree of one of the directories of the stack, the top first.
The first argument bounds the number of directories that are opened. -/
def dirSubtreeContains (target : Nat) : Nat → List Nat → Act L Bool
  | 0, _ => throw .hang
  | _ + 1, [] => return false
  | fuel + 1, d :: stack =>
      if d = target then return true
      else do
        let h ← openDir d
        let pushed ← pushDirs h.entries
        dirSubtreeContains target fuel (pushed ++ stack)

/-- Reject a move of a directory below itself. -/
def checkLoop (fuel srcParent dstParent id : Nat) : Act L Unit :=
  if dstParent = id then fail .invalid
  else if srcParent = dstParent then pure ()
  else do
    let moved ← getInode id
    if moved.kind = .dir then do
      let contains ← dirSubtreeContains dstParent fuel [id]
      if contains then fail .invalid else pure ()
    else pure ()

/-- Give inode `id` its new name and take the old one. -/
def moveName (srcParent : Nat) (srcName : String) (sh : CachedDir) (dstParent : Nat)
    (dstName : String) (dh : CachedDir) (id : Nat) : Act L Unit := do
  let dh := dh.add dstName id
  -- the two are one object if the directory is the same
  let sh := (if dstParent = srcParent then dh else sh).del srcName
  modify fun f => { f with gate := (f.gate.add dstParent dstName).remove srcParent srcName }
  if dstParent = srcParent then
    setDir srcParent sh
    flushDir srcParent sh
  else
    setDir dstParent dh
    setDir srcParent sh
    flushDir dstParent dh
    flushDir srcParent sh

/-- The search for a loop opens fewer than `fuel` directories or counts as one that hangs. -/
def rename (fuel srcParent : Nat) (srcName : String) (dstParent : Nat) (dstName : String) :
    Act L Unit := do
  let sh ← openDir srcParent
  match sh.find srcName with
  | none => fail .notFound
  | some id =>
      let dh ← openDir dstParent
      checkLoop fuel srcParent dstParent id
      match dh.find dstName with
      | none => moveName srcParent srcName sh dstParent dstName dh id
      | some oldID =>
          if oldID = id then pure ()
          else
            let old ← getInode oldID
            dropLink oldID old
            modify fun f => { f with gate := f.gate.remove dstParent dstName }
            moveName srcParent srcName sh dstParent dstName (dh.del dstName) id

/-! ## Handles -/

def openFile (id : Nat) : Act L Unit := do
  let in_ ← getInode id
  if in_.kind ≠ .regular then fail .notFile
  else modify fun f => { f with openCount := Function.update f.openCount id (f.openCount id + 1) }

/-- Close a handle on `id`.  A file that was unlinked while open goes with its last handle. -/
def close (id : Nat) : Act L Unit := do
  modify fun f => { f with openCount := Function.update f.openCount id (f.openCount id - 1) }
  let f ← get
  if f.openCount id = 0 then
    let in_ ← getInode id
    if in_.nlink = 0 then reclaim id else pure ()
  else pure ()

/-! ## The gate of a tree -/

/-- What a walk has seen and found. -/
structure Found where
  seen : Finset Nat
  pairs : List (Nat × String)

/-- What `openDir` finds in a directory, none if it fails. -/
def FS.look (f : FS L) (id : Nat) : Option (List DirEntry) :=
  match f.dcache id with
  | some h => some h.entries
  | none => if id < f.cap ∧ (f.inodes id).kind = .dir then f.stored id else none

def FS.isDir (f : FS L) (id : Nat) : Bool := id < f.cap ∧ (f.inodes id).kind = .dir

/-- List an entry of directory `id`, and walk on if it is a directory. -/
def FS.visit (f : FS L) (walk : Nat → Found → Found) (id : Nat) (w : Found) (e : DirEntry) :
    Found :=
  let w := { w with pairs := w.pairs ++ [(id, e.name)] }
  if f.isDir e.inode then walk e.inode w else w

/-- Walk from directory `id`.  The first argument bounds the depth. -/
def FS.walk (f : FS L) : Nat → Nat → Found → Found
  | 0, _, w => w
  | fuel + 1, id, w =>
      if id ∈ w.seen then w
      else
        let w := { w with seen := insert id w.seen }
        match f.look id with
        | none => w
        | some entries => entries.foldl (f.visit (f.walk fuel) id) w

def FS.walkBuildGate (f : FS L) : Gate L :=
  let w := if f.isDir f.root then f.walk (f.cap + 1) f.root ⟨∅, []⟩ else ⟨∅, []⟩
  w.pairs.foldl (fun g p => g.add p.1 p.2) (Gate.new L w.pairs.length)

/-- The gate of a mounted volume, from a snapshot or by a walk. -/
def FS.installGate (C : Codec L) (f : FS L) (seq : UInt64) (snapshot : Bytes) : FS L :=
  if 8 ≤ snapshot.length ∧ leNat (slice snapshot 0 8) = seq.toNat then
    match Gate.unmarshalGate C (snapshot.drop 8) with
    | .ok g => { f with gate := g }
    | .error _ => { f with gate := f.walkBuildGate }
  else { f with gate := f.walkBuildGate }

def FS.maybeRebuildGate (f : FS L) : FS L :=
  if f.gate.needsRebuild then { f with gate := f.walkBuildGate } else f

/-- A resident directory is asked at once, any other one only if the gate lets the name
pass. -/
def lookup (parent : Nat) (name : String) : Act L (Option Nat) := do
  let f ← get
  match f.dcache parent with
  | some h => return h.find name
  | none =>
      if f.gate.test parent name = false then return none
      else
        let h ← openDir parent
        return h.find name

def readdir (id : Nat) : Act L (List String) := do
  let h ← openDir id
  return h.entries.map (·.name)

end Go
end BloomFS

/-
The file system without its store.

The abstract machine keeps the contents of every inode as plain data: a byte string
for a file, a list of pages of entries for a directory.  There is no cache, no
block map and no reference count.  Its operations follow the source step by step,
so that errors, panics, clock readings and the order of updates are the same.

`paid` collects the contents the file system stored, `log` what it charges for
them, and `clean` is lost when an inode that still has contents is handed out again.
-/
import BloomFS.Fs.Writes
import BloomFS.Lib.Sim

namespace BloomFS
namespace Spec

open Bytes Exec Dir Fs Store

/-- An inode with its contents. -/
structure Node where
  kind : UInt8 := 0
  nlink : UInt32 := 0
  generation : UInt32 := 0
  uid : UInt32 := 0
  gid : UInt32 := 0
  mode : UInt16 := 0
  atime : UInt64 := 0
  mtime : UInt64 := 0
  ctime : UInt64 := 0
  data : Bytes := []
  pages : List (List DirEntry) := []
  deriving DecidableEq

/-- A page as it is stored. -/
def pageBytes (entries : List DirEntry) : Bytes :=
  pageBody entries ++ List.replicate (dirPageSize - pageUsed entries) 0

def dirBytes (pages : List (List DirEntry)) : Bytes := pages.flatMap pageBytes

namespace Node

def isDir (n : Node) : Prop := n.kind = Inode.typeDir

instance (n : Node) : Decidable n.isDir := inferInstanceAs (Decidable (_ = _))

/-- The contents as bytes. -/
def blob (n : Node) : Bytes := if n.isDir then dirBytes n.pages else n.data

theorem blob_of_file {n : Node} (h : ¬ n.isDir) : n.blob = n.data := if_neg h

theorem blob_of_dir {n : Node} (h : n.isDir) : n.blob = dirBytes n.pages := if_pos h

def entries (n : Node) : List DirEntry := n.pages.flatten

end Node

/-- Contents that were stored. -/
inductive Payment where
  | data (blob : Bytes)
  | dir (pages : List (List DirEntry))
  deriving DecidableEq

def Payment.blob : Payment → Bytes
  | .data blob => blob
  | .dir pages => dirBytes pages

structure State where
  node : Nat → Node
  cap : Nat
  /-- The slots from here on were never written. -/
  count : Nat
  next : Nat
  free : List Nat
  opens : Nat → UInt32
  ticks : Nat
  orders : Nat
  paid : List Payment
  clean : Bool

/-- What the run so far is charged. -/
def State.log (t : State) : List Charge := t.paid.flatMap fun p => charge p.blob

theorem State.log_paid (t : State) (p : Payment) :
    { t with paid := t.paid ++ [p] }.log = t.log ++ charge p.blob := by
  unfold State.log
  rw [List.flatMap_append, List.flatMap_singleton]

/-- The ledger only grows. -/
def State.Le (t t' : State) : Prop := t.log <+: t'.log

instance : Std.Refl State.Le := ⟨fun t => List.prefix_refl t.log⟩

instance : IsTrans State State.Le := ⟨fun _ _ _ h h' => List.IsPrefix.trans h h'⟩

def State.setNode (t : State) (id : Nat) (n : Node) : State :=
  { t with node := Function.update t.node id n, count := max t.count (id + 1) }

/-- A mount has no handles, and takes the slots without links for the free list. -/
def State.reopen (t : State) : State :=
  { t with opens := fun _ => 0, free := ((List.range t.count).filter fun id =>
    (t.node id).nlink = 0).reverse }

theorem node_setNode_self {t : State} {id : Nat} {n : Node} : (t.setNode id n).node id = n :=
  Function.update_self ..

theorem node_setNode_ne {t : State} {id i : Nat} {n : Node} (h : i ≠ id) :
    (t.setNode id n).node i = t.node i := Function.update_of_ne h ..

abbrev Step (α : Type) := Plan State.Le Fs.Error α

def update (f : State → State) (hf : ∀ t, (f t).log = t.log) : Step Unit :=
  Within.modify f (grows_of fun t => by
    unfold State.Le
    rw [hf t])

def pay (p : Payment) : Step Unit :=
  Within.modify (fun t => { t with paid := t.paid ++ [p] })
    (grows_of fun t => by
      unfold State.Le
      rw [State.log_paid]
      exact List.prefix_append _ _)

def getNode (id : Nat) : Step Node := do
  let t ← Within.get
  if t.cap ≤ id then Within.fail (.inode .outOfRange) else return t.node id

def putNode (id : Nat) (n : Node) : Step Unit := do
  let t ← Within.get
  if t.cap ≤ id then Within.fail (.inode .outOfRange)
  else update (·.setNode id n) (fun _ => rfl)

section Ops

variable (env : Env)

def now : Step UInt64 := do
  let t ← Within.get
  update (fun t => { t with ticks := t.ticks + 1 }) (fun _ => rfl)
  return env.clock t.ticks

def iterate (l : List Nat) : Step (List Nat) := do
  let t ← Within.get
  update (fun t => { t with orders := t.orders + 1 }) (fun _ => rfl)
  return env.order t.orders l

def succ32 (n : UInt32) : Step UInt32 :=
  if n.toNat + 1 < 2 ^ 32 then pure (n + 1) else Within.panic

/-! ## Contents -/

def setData (id : Nat) (n : Node) (blob : Bytes) : Step Unit :=
  if 2 ^ 64 ≤ blob.length then Within.panic
  else do
    pay (.data blob)
    let t ← now env
    putNode id { n with data := blob, mtime := t, ctime := t }

def writeRange (id : Nat) (n : Node) (off : Nat) (data : Bytes) : Step Unit :=
  if data.isEmpty then pure ()
  else if 2 ^ 64 ≤ off + data.length then Within.panic
  else do
    pay (.data (overwrite n.data off data))
    let t ← now env
    putNode id { n with data := overwrite n.data off data, mtime := t, ctime := t }

/-! ## Directories -/

/-- A directory taken out for editing: the inode as it was read, its pages as they
are edited, and the pages that changed. -/
structure Work where
  node : Node
  pages : List (List DirEntry)
  dirty : List Nat

namespace Work

def entries (w : Work) : List DirEntry := w.pages.flatten

def find (w : Work) (name : String) : Option Nat :=
  (w.entries.find? (·.name = name)).map (·.inode)

def marked (w : Work) (p : Nat) : List Nat := if p ∈ w.dirty then w.dirty else p :: w.dirty

/-- The first page with room for `need` bytes, opening a new page if there is
none. -/
def pageFor (pages : List (List DirEntry)) (need : Nat) : Nat × List (List DirEntry) :=
  match pages.findIdx? (fun l => pageUsed l + need ≤ dirPageSize) with
  | some i => (i, pages)
  | none => (pages.length, pages ++ [[]])

def add (w : Work) (name : String) (id : Nat) : Work :=
  let (p, pages) := pageFor w.pages (entryBytes name)
  { w with pages := pages.modify p (· ++ [⟨name, id⟩]), dirty := w.marked p }

def del (w : Work) (name : String) : Work :=
  match w.pages.findIdx? (fun l => l.any (·.name = name)) with
  | none => w
  | some p => { w with pages := w.pages.modify p (·.eraseP (·.name = name)), dirty := w.marked p }

end Work

/-- `l` with page `p` replaced, and with empty pages up to it. -/
def putPage (l : List (List DirEntry)) (p : Nat) (c : List DirEntry) : List (List DirEntry) :=
  (l ++ List.replicate (p + 1 - l.length) []).set p c

def checkout (id : Nat) : Step Work := do
  let n ← getNode id
  if n.isDir then return ⟨n, n.pages, []⟩ else Within.fail .notDir

def flushPage (id : Nat) (pages : List (List DirEntry)) (n : Node) (p : Nat) : Step Node :=
  match pages[p]? with
  | none => Within.panic
  | some c =>
      if dirPageSize < pageUsed c ∨ 2 ^ 64 ≤ p * dirPageSize + dirPageSize then Within.panic
      else do
        pay (.dir (putPage n.pages p c))
        let t ← now env
        let n := { n with pages := putPage n.pages p c, mtime := t, ctime := t }
        putNode id n
        return n

def flush (id : Nat) (w : Work) : Step Unit := do
  let dirty ← iterate env w.dirty
  let _ ← dirty.foldlM (flushPage env id w.pages) w.node

def lookup (parent : Nat) (name : String) : Step (Option Nat) := do
  return (← checkout parent).find name

def listDir (id : Nat) : Step (List DirEntry) := do
  return (← checkout id).entries

def readdir (id : Nat) : Step (List String) := do
  return (← listDir id).map (·.name)

def readdirents (id : Nat) : Step (List Dirent) := do
  (← listDir id).mapM fun e => do
    let n ← getNode e.inode
    return { name := e.name, ino := e.inode, kind := n.kind }

/-! ## Inodes -/

def allocInode : Step Nat := do
  let t ← Within.get
  match t.free with
  | id :: rest => do
      update (fun t => { t with free := rest }) (fun _ => rfl)
      return id
  | [] =>
      if t.cap ≤ t.next then Within.fail .noInodes
      else do
        update (fun t => { t with next := t.next + 1 }) (fun _ => rfl)
        return t.next

def reclaim (id : Nat) (n : Node) : Step Unit := do
  let generation ← succ32 n.generation
  putNode id { generation := generation }
  update (fun t => { t with free := id :: t.free }) (fun _ => rfl)

def mutate (id : Nat) (f : Node → Node) : Step Unit := do
  let n ← getNode id
  putNode id (f n)

def chmod (id : Nat) (mode : UInt16) : Step Unit := do
  let t ← now env
  mutate id fun n => { n with mode := mode, ctime := t }

def chown (id : Nat) (uid gid : UInt32) : Step Unit := do
  let t ← now env
  mutate id fun n => { n with uid := uid, gid := gid, ctime := t }

def utimes (id : Nat) (atime mtime : UInt64) : Step Unit := do
  let t ← now env
  mutate id fun n => { n with atime := atime, mtime := mtime, ctime := t }

/-! ## Names -/

def child (kind : UInt8) (mode : UInt16) (generation : UInt32) (t : UInt64) : Node :=
  { kind := kind, nlink := if kind = Inode.typeDir then 2 else 1, mode := mode
    generation := generation, atime := t, mtime := t, ctime := t }

def renew (id : Nat) (n : Node) : Step Unit := do
  let old ← getNode id
  update (fun t => { t with clean := t.clean && old.blob.isEmpty }) (fun _ => rfl)
  putNode id n

def createNode (parent : Nat) (name : String) (kind : UInt8) (mode : UInt16) : Step Nat := do
  let w ← checkout parent
  if (w.find name).isSome then Within.fail .exists_
  else do
    let id ← allocInode
    let prev ← getNode id
    let t ← now env
    renew id (child kind mode prev.generation t)
    let nlink ← if kind = Inode.typeDir then succ32 w.node.nlink else pure w.node.nlink
    flush env parent { w.add name id with node := { w.node with nlink := nlink } }
    return id

def symlink (parent : Nat) (name target : String) : Step Nat :=
  if target.isEmpty then Within.fail .invalid
  else do
    let id ← createNode env parent name Inode.typeLink 0o777
    let n ← getNode id
    setData env id n (Utf8.encode target)
    return id

def dropLink (id : Nat) (n : Node) : Step Unit := do
  let n := { n with nlink := pred32 n.nlink }
  let t ← Within.get
  if n.nlink = 0 ∧ t.opens id = 0 then reclaim id n
  else do
    let t ← now env
    putNode id { n with ctime := t }

def unlink (parent : Nat) (name : String) : Step Unit := do
  let w ← checkout parent
  match w.find name with
  | none => Within.fail .notFound
  | some id => do
      let child ← getNode id
      if child.isDir then Within.fail .isDir
      else do
        flush env parent (w.del name)
        dropLink env id child

def rmdir (parent : Nat) (name : String) : Step Unit := do
  let w ← checkout parent
  match w.find name with
  | none => Within.fail .notFound
  | some id => do
      let child ← getNode id
      if ¬ child.isDir then Within.fail .notDir
      else if ¬ child.entries.isEmpty then Within.fail .notEmpty
      else do
        flush env parent { w.del name with node := { w.node with nlink := pred32 w.node.nlink } }
        reclaim id child

def link (parent : Nat) (name : String) (target : Nat) : Step Unit := do
  let n ← getNode target
  if n.isDir then Within.fail .notFile
  else do
    let w ← checkout parent
    if (w.find name).isSome then Within.fail .exists_
    else do
      let nlink ← succ32 n.nlink
      let t ← now env
      putNode target { n with nlink := nlink, ctime := t }
      flush env parent (w.add name target)

/-- The ids among `entries` that are directories. -/
def subdirs (t : State) : List DirEntry → Except (Fault Fs.Error) (List Nat)
  | [] => .ok []
  | e :: l =>
      if t.cap ≤ e.inode then .error (.err (.inode .outOfRange))
      else do
        let rest ← subdirs t l
        return if (t.node e.inode).isDir then e.inode :: rest else rest

/-- Depth-first search for `target`, the top of the stack first. -/
def walk (t : State) (target : Nat) : Nat → List Nat → Except (Fault Fs.Error) Bool
  | 0, _ => .error .hang
  | _, [] => .ok false
  | fuel + 1, d :: stack =>
      if d = target then .ok true
      else if t.cap ≤ d then .error (.err (.inode .outOfRange))
      else if ¬ (t.node d).isDir then .error (.err .notDir)
      else do
        let below ← subdirs t (t.node d).entries
        walk t target fuel (below.reverse ++ stack)

/-- Whether moving `id` under `dst` would put a directory below itself. -/
def loops (t : State) (src dst id : Nat) : Except (Fault Fs.Error) Bool :=
  if src = dst then .ok false
  else if t.cap ≤ id then .error (.err (.inode .outOfRange))
  else if (t.node id).isDir then walk t dst FS.walkFuel [id] else .ok false

/-- Drop the link of an existing destination.  `none` means that the destination
already names `id`. -/
def renameOverwrite (w : Work) (dn : String) (id : Nat) : Step (Option Work) :=
  match w.find dn with
  | none => return some w
  | some old =>
      if old = id then return none
      else do
        let n ← getNode old
        dropLink env old n
        return some (w.del dn)

def touchMoved (id : Nat) : Step Unit := do
  let t ← Within.get
  if t.cap ≤ id then return ()
  else do
    let c ← now env
    putNode id { t.node id with ctime := c }

def rename (src : Nat) (sn : String) (dst : Nat) (dn : String) : Step Unit := do
  let sw ← checkout src
  match sw.find sn with
  | none => Within.fail .notFound
  | some id => do
      if dst = id then Within.fail .invalid
      else do
        let t ← Within.get
        if ← Within.ofExcept (loops t src dst id) then Within.fail .invalid
        else if src = dst then do
          match ← renameOverwrite env sw dn id with
          | none => return ()
          | some sw => do
              touchMoved env id
              flush env src ((sw.add dn id).del sn)
        else do
          let dw ← checkout dst
          match ← renameOverwrite env dw dn id with
          | none => return ()
          | some dw => do
              touchMoved env id
              flush env dst (dw.add dn id)
              flush env src (sw.del sn)

/-! ## Files and handles -/

def regular (id : Nat) : Step Node := do
  let n ← getNode id
  if n.kind ≠ Inode.typeRegular then Within.fail .notFile else return n

def writeFile (id : Nat) (data : Bytes) : Step Unit := do
  let n ← regular id
  setData env id n data

def writeAt (id off : Nat) (data : Bytes) : Step Unit := do
  let n ← regular id
  writeRange env id n off data

def append (id : Nat) (data : Bytes) : Step Nat := do
  let n ← regular id
  writeRange env id n n.data.length data
  return n.data.length

def truncate (id newSize : Nat) : Step Unit := do
  let n ← regular id
  if newSize = n.data.length then return () else setData env id n (resize n.data newSize)

def readAt (id off length : Nat) : Step Bytes := do
  let n ← regular id
  if length = 0 ∨ n.data.length ≤ off then return []
  else if 2 ^ 64 ≤ off + length then Within.panic
  else return slice n.data off length

def readFile (id : Nat) : Step Bytes := do
  let n ← regular id
  return n.data

def readlink (id : Nat) : Step String := do
  let n ← getNode id
  if n.kind ≠ Inode.typeLink then Within.fail .invalid else return Utf8.fromUtf8Lossy n.data

def stat (id : Nat) : Step Stat := do
  let n ← getNode id
  return { ino := id, size := UInt64.ofNat n.blob.length, nlink := n.nlink
           generation := n.generation, mode := n.mode, kind := n.kind, uid := n.uid, gid := n.gid
           atime := n.atime, mtime := n.mtime, ctime := n.ctime }

def access (id : Nat) (mask uid gid : UInt32) (gids : List UInt32) : Step Unit := do
  let n ← getNode id
  if mask = 0 then return ()
  else
    let perm := n.mode.toUInt32 &&& 0o777
    if uid = 0 then
      if mask &&& 1 ≠ 0 ∧ n.kind ≠ Inode.typeDir ∧ perm &&& 0o111 = 0 then Within.fail .permission
      else return ()
    else
      let shift : UInt32 :=
        if uid = n.uid then 6 else if gid = n.gid ∨ n.gid ∈ gids then 3 else 0
      let allowed := (perm >>> shift) &&& 7
      if mask &&& allowed ≠ mask then Within.fail .permission else return ()

def handleRead (h : Handle) : Step Bytes := do
  let n ← getNode h.id
  return n.blob

def openFile (id : Nat) : Step Handle := do
  let _ ← regular id
  let t ← Within.get
  let c ← succ32 (t.opens id)
  update (fun t => { t with opens := Function.update t.opens id c }) (fun _ => rfl)
  return ⟨id, false⟩

def close (h : Handle) : Step Unit :=
  if h.closed then pure ()
  else do
    let t ← Within.get
    let c := pred32 (t.opens h.id)
    update (fun t => { t with opens := Function.update t.opens h.id c }) (fun _ => rfl)
    if c = 0 then do
      let n ← getNode h.id
      if n.nlink = 0 then reclaim h.id n else return ()
    else return ()

end Ops

end Spec
end BloomFS

/-
The mounted file system and the few calls that change its pool.

`Act env` is the monad the operations are written in.  An operation reaches the
device, the bitmap and the dedup table only through `storeWrite`, `bsRelease` and
the automatic commit of a full bitmap, and changes the rest of the state through
`update`.  An invariant that these keep is `Closed`, and every operation keeps it
by its type.  Only an explicit commit stands outside `Act`.

Integer overflow is a panic, as in a checked build.  Memory is unbounded, so an
allocation never fails.  The tick of the directory cache is a `Nat`.
-/
import BloomFS.Cow.Commit
import BloomFS.Fs.Layout
import BloomFS.Lib.Within

namespace BloomFS
namespace Fs

open Bytes Exec Block Store Dir

def defaultInodeCount : Nat := 4096

def defaultDdtReserve : Nat := 256 * 1024

def dirCacheCap : Nat := 256

inductive Error where
  | notDir
  | notFile
  | exists_
  | notFound
  | corrupt
  | noInodes
  | isDir
  | notEmpty
  | invalid
  | permission
  | noSpace
  | cow (e : Cow.Error)
  | store (e : Store.Error)
  | inode (e : Inode.Error)
  deriving Repr, DecidableEq

/-- The store or a commit failed, for lack of space or on the device. -/
def Error.Storage : Error → Prop
  | .cow _ => True
  | .store _ => True
  | _ => False

/-! ## The directory cache -/

/-- The entries of a page and the bytes they occupy, header included. -/
structure Page where
  entries : List DirEntry
  used : Nat

/-- A resident directory: its name index, the pages it persists to, where each
name lies, and the pages changed since they were last written. -/
structure CachedDir where
  dir : Directory
  in_ : Inode
  pages : List Page
  pageOf : AList (fun _ : String => Nat)
  dirty : List Nat
  lruTick : Nat

namespace CachedDir

variable (env : Env)

/-- The set of changed pages with `p` added. -/
def marked (h : CachedDir) (p : Nat) : List Nat := if p ∈ h.dirty then h.dirty else p :: h.dirty

/-- The first page with room for `need` bytes, opening a new page if there is
none. -/
def pageFor (pages : List Page) (need : Nat) : Nat × List Page :=
  match pages.findIdx? (fun pg => pg.used + need ≤ dirPageSize) with
  | some i => (i, pages)
  | none => (pages.length, pages ++ [⟨[], 4⟩])

def add (h : CachedDir) (name : String) (id : Nat) : Bool × CachedDir :=
  match h.dir.add env name id with
  | (false, _) => (false, h)
  | (true, dir) =>
      let need := entryBytes name
      let (p, pages) := pageFor h.pages need
      (true, { h with dir := dir
                      pages := pages.modify p fun pg => ⟨pg.entries ++ [⟨name, id⟩], pg.used + need⟩
                      pageOf := h.pageOf.insert name p
                      dirty := h.marked p })

/-- `none` is a panic: a page index out of range or an underflow of its size. -/
def del (h : CachedDir) (name : String) : Option (Bool × CachedDir) :=
  match h.pageOf.lookup name with
  | none => some (false, h)
  | some p =>
      match h.pages[p]? with
      | none => none
      | some pg =>
          if pg.used < entryBytes name then none
          else some (true,
            { h with dir := (h.dir.delete env name).2
                     pages := h.pages.set p
                       ⟨pg.entries.eraseP (·.name = name), pg.used - entryBytes name⟩
                     pageOf := h.pageOf.erase name
                     dirty := h.marked p })

end CachedDir

structure DirCache where
  entries : AList (fun _ : Nat => CachedDir)
  tick : Nat

namespace DirCache

def new : DirCache := ⟨∅, 0⟩

/-- Record an access to `id`. -/
def touch (c : DirCache) (id : Nat) : DirCache :=
  match c.entries.lookup id with
  | some h => ⟨c.entries.insert id { h with lruTick := c.tick + 1 }, c.tick + 1⟩
  | none => { c with tick := c.tick + 1 }

/-- The id of the least recently used entry. -/
def victim (c : DirCache) : Option Nat := (c.entries.entries.minOn? fun x => x.2.lruTick).map (·.1)

/-- Insert an entry, dropping the least recently used one when the cache is
full. -/
def insert (c : DirCache) (id : Nat) (h : CachedDir) : DirCache :=
  let kept :=
    if dirCacheCap ≤ c.entries.keys.length ∧ id ∉ c.entries then
      match c.victim with
      | some v => c.entries.erase v
      | none => c.entries
    else c.entries
  ⟨kept.insert id { h with lruTick := c.tick + 1 }, c.tick + 1⟩

end DirCache

/-! ## The file system -/

structure FS where
  dev : Disk
  ub : Cow.Uberblock
  bm : Alloc.Bitmap
  ddt : Dedup.Table
  inodes : Inode.Table
  bs : BlockStore
  openCount : AList (fun _ : Nat => UInt32)
  /-- the reuse stack, its top first -/
  freeInodes : List Nat
  /-- readings of the clock so far -/
  ticks : Nat
  /-- iterations over a hash set so far -/
  orders : Nat
  metaBuf : Bytes
  dirCache : Option DirCache

namespace FS

def pool (s : FS) : Pool := ⟨s.dev, s.bm, s.ddt⟩

def setPool (p : Pool) (s : FS) : FS := { s with dev := p.dev, bm := p.bm, ddt := p.ddt }

def commitState (s : FS) : Cow.CommitState := ⟨s.dev, s.bm, some s.metaBuf⟩

def setCommitState (c : Cow.CommitState) (s : FS) : FS :=
  { s with dev := c.dev, bm := c.bm, metaBuf := c.scratch.getD s.metaBuf }

def getInode (s : FS) (id : Nat) : Except (Fault Error) Inode :=
  (s.inodes.get id).mapError fun e => .err (.inode e)

/-- The state with slot `id` replaced, if there is one. -/
def setInode (s : FS) (id : Nat) (in_ : Inode) : FS :=
  match s.inodes.put id in_ with
  | .ok t => { s with inodes := t }
  | .error _ => s

def openCountOf (s : FS) (id : Nat) : UInt32 := (s.openCount.lookup id).getD 0

end FS

/-- Nothing but the in-memory tables, counters and caches differs. -/
structure SamePool (s s' : FS) : Prop where
  dev : s'.dev = s.dev
  bm : s'.bm = s.bm
  ddt : s'.ddt = s.ddt
  bs : s'.bs = s.bs
  ub : ∃ n, s'.ub = { s.ub with nextInode := n }
  cap : s'.inodes.cap = s.inodes.cap

section Primitives

variable (env : Env)

def storeWrite (plaintext : Bytes) : Exec Error FS Ref := fun s =>
  zoom FS.pool FS.setPool Error.store (Store.write env s.bs plaintext) s

def storeRelease (r : Ref) : Exec Error FS Unit :=
  zoom FS.pool FS.setPool Error.store (Store.release r)

/-- Persist the current state as one transaction. -/
def commit : Exec Error FS Unit := do
  let s ← get
  let ub ← zoom FS.commitState FS.setCommitState Error.cow
    (Cow.commit env s.ub s.ddt s.inodes s.ub.rootInode s.ub.nextInode)
  modify fun s => { s with ub := ub }

/-- Record that the store could not take a block. -/
def refuse (s : FS) : FS := { s with dev := s.dev.note .refused }

/-- The commit that makes room for a refused block. -/
def autoCommit : Exec Error FS Unit := do
  modify refuse
  commit env

/-- Invariants that the pool's own calls keep and that do not look at the rest of
the state. -/
structure Closed (I : FS → Prop) : Prop where
  other : ∀ s s', SamePool s s' → I s → I s'
  write : ∀ b, Keeps I (storeWrite env b)
  release : ∀ r, Keeps I (storeRelease r)
  autoCommit : Keeps I (autoCommit env)
  refuse : ∀ s, I s → I (refuse s)

/-- The monad of the file system's operations. -/
abbrev Act (α : Type) := Within (Closed env) Error α

variable {env}

/-- Change the state outside the pool. -/
def update (f : FS → FS) (hf : ∀ s, SamePool s (f s)) : Act env Unit :=
  Within.modify f fun _ hI s hs => hI.other s (f s) (hf s) hs

def bsRelease (r : Ref) : Act env Unit := ⟨storeRelease r, fun _ h => h.release r⟩

/-- Store a block.  When the bitmap is full but released clusters wait for a
commit, commit and try once more. -/
def bsWrite (plaintext : Bytes) : Act env Ref :=
  Within.handle ⟨storeWrite env plaintext, fun _ h => h.write plaintext⟩ fun e => do
    let s ← Within.get
    if e = .store (.alloc .noSpace) ∧ 0 < s.bm.pending then
      (⟨autoCommit env, fun _ h => h.autoCommit⟩ : Act env Unit)
      ⟨storeWrite env plaintext, fun _ h => h.write plaintext⟩
    else
      Within.modify refuse fun _ h s hs => h.refuse s hs
      Within.fail e

def now : Act env UInt64 := do
  let s ← Within.get
  update (fun s => { s with ticks := s.ticks + 1 }) fun _ => ⟨rfl, rfl, rfl, rfl, ⟨_, rfl⟩, rfl⟩
  return env.clock s.ticks

theorem setInode_samePool (s : FS) (id : Nat) (in_ : Inode) : SamePool s (s.setInode id in_) := by
  unfold FS.setInode
  cases h : s.inodes.put id in_ with
  | ok t => exact ⟨rfl, rfl, rfl, rfl, ⟨_, rfl⟩, (Inode.Table.put_ok h).2.2.1⟩
  | error e => exact ⟨rfl, rfl, rfl, rfl, ⟨_, rfl⟩, rfl⟩

def getInode (id : Nat) : Act env Inode := do
  let s ← Within.get
  Within.ofExcept (s.getInode id)

def putInode (id : Nat) (in_ : Inode) : Act env Unit := do
  let s ← Within.get
  match s.inodes.put id in_ with
  | .error e => Within.fail (.inode e)
  | .ok _ => update (·.setInode id in_) (fun s => setInode_samePool s id in_)

theorem setInode_of_lt {s : FS} {id : Nat} (h : id < s.inodes.cap) (in_ : Inode) :
    s.setInode id in_ = { s with inodes := s.inodes.store id h in_ } := by
  unfold FS.setInode
  rw [Inode.Table.put_of_lt h]

theorem putInode_of_lt {id : Nat} {s : FS} (h : id < s.inodes.cap) (in_ : Inode) :
    (putInode id in_ : Act env Unit).1 s = .ok () (s.setInode id in_) := by
  rw [putInode, Within.get_bind_run, Inode.Table.put_of_lt h in_]
  rfl

def setCache (c : Option DirCache) : Act env Unit :=
  update (fun s => { s with dirCache := c }) fun _ => ⟨rfl, rfl, rfl, rfl, ⟨_, rfl⟩, rfl⟩

def setOpenCount (m : AList (fun _ : Nat => UInt32)) : Act env Unit :=
  update (fun s => { s with openCount := m }) fun _ => ⟨rfl, rfl, rfl, rfl, ⟨_, rfl⟩, rfl⟩

def setFreeInodes (l : List Nat) : Act env Unit :=
  update (fun s => { s with freeInodes := l }) fun _ => ⟨rfl, rfl, rfl, rfl, ⟨_, rfl⟩, rfl⟩

def setNextInode (n : UInt64) : Act env Unit :=
  update (fun s => { s with ub := { s.ub with nextInode := n } })
    fun _ => ⟨rfl, rfl, rfl, rfl, ⟨_, rfl⟩, rfl⟩

/-- Visit the elements of a hash set, in the order the runtime picks. -/
def iterate (l : List Nat) : Act env (List Nat) := do
  let s ← Within.get
  update (fun s => { s with orders := s.orders + 1 }) fun _ => ⟨rfl, rfl, rfl, rfl, ⟨_, rfl⟩, rfl⟩
  return env.order s.orders l

def succ32 (n : UInt32) : Act env UInt32 :=
  if n.toNat + 1 < 2 ^ 32 then pure (n + 1) else Within.panic

end Primitives

end Fs
end BloomFS

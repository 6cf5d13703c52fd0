/-
Directories on top of file contents, behind a resident cache.

A mutation takes the directory out of the cache, edits it, writes its changed
pages and puts it back.  Without the cache, or on a miss, the directory is loaded
from its pages.
-/
import BloomFS.Fs.Data

namespace BloomFS
namespace Fs

open Bytes Exec Block Store Dir

namespace FS

variable (env : Env) (s : FS)

def dirData (id : Nat) : Except (Fault Error) (Inode × Bytes) := do
  let in_ ← s.getInode id
  if in_.kind ≠ Inode.typeDir then throw (.err .notDir)
  else
    let blob ← s.getData env in_
    return (in_, blob)

def decodePages (blob : Bytes) : Except (Fault Error) (List Page) :=
  match (splitPages blob).mapM decodeDirPage with
  | none => .error (.err .corrupt)
  | some pages => .ok (pages.map fun p => ⟨p.1, p.2⟩)

end FS

/-- The name index of a list of entries. -/
def indexOf (env : Env) (l : List DirEntry) : Directory :=
  l.foldl (fun d e => (d.add env e.name e.inode).2) (Directory.new env)

/-- Where each name lies, the last page winning. -/
def locate (pages : List Page) : AList (fun _ : String => Nat) :=
  pages.zipIdx.foldl (fun m x => x.1.entries.foldl (fun m e => m.insert e.name x.2) m) ∅

namespace FS

variable (env : Env) (s : FS)

def loadDir (id : Nat) : Except (Fault Error) CachedDir := do
  let (in_, blob) ← s.dirData env id
  let pages ← decodePages blob
  return { dir := indexOf env (pages.flatMap (·.entries)), in_ := in_, pages := pages
           pageOf := locate pages, dirty := [], lruTick := 0 }

/-- The entries of directory `id`, without its index. -/
def readDirPages (id : Nat) : Except (Fault Error) (List DirEntry) := do
  let (_, blob) ← s.dirData env id
  let pages ← decodePages blob
  return pages.flatMap (·.entries)

/-- The ids among `entries` that are directories. -/
def subdirs : List DirEntry → Except (Fault Error) (List Nat)
  | [] => .ok []
  | e :: l => do
      let in_ ← s.getInode e.inode
      let rest ← subdirs l
      return if in_.kind = Inode.typeDir then e.inode :: rest else rest

/-- Depth-first search for `target`, the top of the stack first.  The first
argument bounds the number of steps. -/
def walk (target : Nat) : Nat → List Nat → Except (Fault Error) Bool
  | 0, _ => .error .hang
  | _, [] => .ok false
  | fuel + 1, d :: stack =>
      if d = target then .ok true
      else do
        let entries ← s.readDirPages env d
        let below ← s.subdirs entries
        walk target fuel (below.reverse ++ stack)

/-- More steps than a search of any real tree takes. -/
def walkFuel : Nat := 2 ^ 64

/-- Whether `target` lies in the subtree of directory `root`. -/
def dirSubtreeContains (root target : Nat) : Except (Fault Error) Bool :=
  s.walk env target walkFuel [root]

end FS

section Ops

variable {env : Env}

/-- A working copy of directory `id`, taken out of the cache if it is there. -/
def checkoutDir (id : Nat) : Act env CachedDir := do
  let s ← Within.get
  match s.dirCache with
  | none => Within.ofExcept (s.loadDir env id)
  | some cache =>
      match cache.entries.lookup id with
      | none => Within.ofExcept (s.loadDir env id)
      | some h => do
          setCache (some { cache with entries := cache.entries.erase id })
          -- the index is authoritative for the entries, the table for the inode
          let in_ ← getInode id
          return { h with in_ := in_ }

/-- Write page `p` of a working directory and return its new inode. -/
def flushPage (id : Nat) (pages : List Page) (in_ : Inode) (p : Nat) : Act env Inode :=
  match (pages[p]?).bind fun pg => encodeDirPage pg.entries with
  | none => Within.panic
  | some page => writeAtLocked id in_ (p * dirPageSize) page

def flushDir (id : Nat) (h : CachedDir) : Act env CachedDir := do
  let dirty ← iterate h.dirty
  let in_ ← dirty.foldlM (flushPage id h.pages) h.in_
  return { h with in_ := in_, dirty := [] }

/-- Write the changed pages and put the directory into the cache. -/
def commitDir (id : Nat) (h : CachedDir) : Act env Unit := do
  let h ← flushDir id h
  let s ← Within.get
  match s.dirCache with
  | none => return ()
  | some cache => setCache (some (cache.insert id h))

def evictDir (id : Nat) : Act env Unit := do
  let s ← Within.get
  match s.dirCache with
  | none => return ()
  | some cache => setCache (some { cache with entries := cache.entries.erase id })

/-- Look at directory `id` through the cache, loading it on a miss.  `none` means
that the cache is off. -/
def cachePeek {α : Type} (id : Nat) (f : CachedDir → α) : Act env (Option α) := do
  let s ← Within.get
  match s.dirCache with
  | none => return none
  | some cache =>
      match cache.entries.lookup id with
      | some h => do
          setCache (some (cache.touch id))
          return some (f h)
      | none => do
          let h ← Within.ofExcept (s.loadDir env id)
          setCache (some (cache.insert id h))
          return some (f h)

def delName (h : CachedDir) (name : String) : Act env CachedDir :=
  match h.del env name with
  | none => Within.panic
  | some r => pure r.2

end Ops

end Fs
end BloomFS

/-
The calls of a session, as the machine without a store answers them.
-/
import BloomFS.Fs.Run
import BloomFS.Spec.Machine

namespace BloomFS
namespace Spec

open Bytes Exec Dir Fs Store

variable (env : Env)

/-- The operation as a step of the machine.  The capacity reports look at the pool,
and a commit and a mount at the device, so the machine does not answer those. -/
def planOf (handles : List Handle) : Op → Step Reply
  | .lookup parent name => Reply.found <$> lookup parent name
  | .readdir id => Reply.names <$> readdir id
  | .readdirents id => Reply.dirents <$> readdirents id
  | .openDirStream id => Reply.names <$> readdir id
  | .stat id => Reply.stat <$> stat id
  | .access id mask uid gid gids => (fun _ => Reply.unit) <$> access id mask uid gid gids
  | .mkdir parent name => Reply.id <$> createNode env parent name Inode.typeDir 0o755
  | .create parent name => Reply.id <$> createNode env parent name Inode.typeRegular 0o644
  | .symlink parent name target => Reply.id <$> symlink env parent name target
  | .readlink id => Reply.text <$> readlink id
  | .writeFile id data => (fun _ => Reply.unit) <$> writeFile env id data
  | .readFile id => Reply.bytes <$> readFile id
  | .readAt id off length => Reply.bytes <$> readAt id off length
  | .writeAt id off data => (fun _ => Reply.unit) <$> writeAt env id off data
  | .append id data => Reply.id <$> append env id data
  | .truncate id newSize => (fun _ => Reply.unit) <$> truncate env id newSize
  | .unlink parent name => (fun _ => Reply.unit) <$> unlink env parent name
  | .rmdir parent name => (fun _ => Reply.unit) <$> rmdir env parent name
  | .chmod id mode => (fun _ => Reply.unit) <$> chmod env id mode
  | .chown id uid gid => (fun _ => Reply.unit) <$> chown env id uid gid
  | .utimes id atime mtime => (fun _ => Reply.unit) <$> utimes env id atime mtime
  | .link parent name target => (fun _ => Reply.unit) <$> link env parent name target
  | .rename src sn dst dn => (fun _ => Reply.unit) <$> rename env src sn dst dn
  | .openFile id => (fun h => Reply.id h.id) <$> openFile id
  | .handleRead i =>
      match handles[i]? with
      | none => pure .unit
      | some h => Reply.bytes <$> handleRead h
  | .close i =>
      match handles[i]? with
      | none => pure .unit
      | some h => (fun _ => Reply.unit) <$> close h
  | .setDirCache _ => pure .unit
  | .statfs => pure .unit
  | .fallocate _ _ => pure .unit
  | .commit => pure .unit
  | .remount _ => pure .unit

variable {env} in
/-- The machine asks the environment for the time and for the order of a hash set only. -/
theorem planOf_congr {env' : Env} (hclock : env.clock = env'.clock)
    (horder : env.order = env'.order) (handles : List Handle) (op : Op) :
    planOf env handles op = planOf env' handles op := by
  have hnow : now env = now env' := by
    unfold now
    rw [hclock]
  have hflush : flush env = flush env' := by
    have hpage : flushPage env = flushPage env' := by
      unfold flushPage
      rw [hnow]
    unfold flush iterate
    rw [hpage, horder]
  cases op <;> simp only [planOf, createNode, symlink, setData, writeFile, writeAt, writeRange,
    append, truncate, unlink, rmdir, dropLink, chmod, chown, utimes, link, rename, renameOverwrite,
    touchMoved, hnow, hflush]

/-- The machine answers the operation. -/
def Answers : Op → Prop
  | .statfs => False
  | .fallocate _ _ => False
  | .commit => False
  | .remount _ => False
  | _ => True

end Spec
end BloomFS

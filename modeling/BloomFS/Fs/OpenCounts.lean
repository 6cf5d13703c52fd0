/-
The open counts.

Only an open and a close touch the table of open counts: every other call leaves it,
whether it returns, fails or panics, and whatever the device does.  So the count of an
inode is the number of handles on it that are not closed.
-/
import BloomFS.Fs.Start
import BloomFS.Fs.Stocked

namespace BloomFS
namespace Fs

open Bytes Exec Block Store

variable {env : Env} {α β : Type}

/-! ## Calls that leave the open counts -/

/-- The call leaves the open counts, whatever becomes of it. -/
def OpenFixed (env : Env) (x : Act env α) : Prop := ∀ m, Keeps (fun s => s.openCount = m) x.1

namespace OpenFixed

theorem pure (a : α) : OpenFixed env (Pure.pure a) := fun _ => keeps_pure a

theorem bind {x : Act env α} {f : α → Act env β} (hx : OpenFixed env x)
    (hf : ∀ a, OpenFixed env (f a)) :
    OpenFixed env (x >>= f) := fun m => keeps_bind (hx m) fun a => hf a m

theorem get : OpenFixed env Within.get := fun _ => keeps_get

theorem fail (e : Error) : OpenFixed env (Within.fail e : Act env α) := fun _ => keeps_fail e

theorem panic : OpenFixed env (Within.panic : Act env α) := fun _ => keeps_panic

theorem ofExcept (x : Except (Fault Error) α) : OpenFixed env (Within.ofExcept x) :=
  fun _ => keeps_ofExcept x

theorem ite {c : Prop} [Decidable c] {x y : Act env α} (hx : OpenFixed env x)
    (hy : OpenFixed env y) : OpenFixed env (if c then x else y) := by
  split
  · exact hx
  · exact hy

theorem mapM {f : α → Act env β} (hf : ∀ a, OpenFixed env (f a)) (l : List α) :
    OpenFixed env (l.mapM f) := by
  induction l with
  | nil => exact pure []
  | cons a l ih =>
    rw [List.mapM_cons]
    exact bind (hf a) fun _ => bind ih fun _ => pure _

theorem forM {f : α → Act env PUnit} (hf : ∀ a, OpenFixed env (f a)) (l : List α) :
    OpenFixed env (l.forM f) := by
  induction l with
  | nil => exact pure _
  | cons a l ih => exact bind (hf a) fun _ => ih

theorem foldlM {f : β → α → Act env β} (hf : ∀ b a, OpenFixed env (f b a)) (l : List α) (b : β) :
    OpenFixed env (l.foldlM f b) := by
  induction l generalizing b with
  | nil => exact pure b
  | cons a l ih =>
    rw [List.foldlM_cons]
    exact bind (hf b a) fun b => ih b

theorem update {f : FS → FS} {hf : ∀ s, SamePool s (f s)} (h : ∀ s, (f s).openCount = s.openCount) :
    OpenFixed env (Fs.update f hf) := fun _ => keeps_modify fun s hs => (h s).trans hs

end OpenFixed

/-! ## The primitives -/

theorem openFixed_storeWrite (b : Bytes) (m : AList fun _ : Nat => UInt32) :
    Keeps (fun s => s.openCount = m) (storeWrite env b) := fun s hs =>
  (storeWrite_sat b s).mono (fun _ _ h => by rw [h.1]; exact hs)
    (fun _ _ h => by rw [h.1]; exact hs)

theorem openFixed_storeRelease (r : Ref) (m : AList fun _ : Nat => UInt32) :
    Keeps (fun s => s.openCount = m) (storeRelease r) := fun s hs =>
  (storeRelease_sat r s).mono (fun _ _ h => by rw [h.1]; exact hs) (fun _ _ h => h.2.1 ▸ hs)

theorem openFixed_commit (m : AList fun _ : Nat => UInt32) :
    Keeps (fun s => s.openCount = m) (commit env) := fun s hs =>
  (commit_sat s).mono (fun _ _ h => by rw [h.rest]; exact hs)
    (fun _ _ h => by rw [h.rest]; exact hs)

theorem openFixed_bsRelease (r : Ref) : OpenFixed env (bsRelease r) := openFixed_storeRelease r

theorem openFixed_bsWrite (b : Bytes) : OpenFixed env (bsWrite b) := by
  intro m
  refine keeps_handle (openFixed_storeWrite b m) fun e => ?_
  refine OpenFixed.bind OpenFixed.get (fun s => ?_) m
  refine OpenFixed.ite ?_ ?_
  · refine OpenFixed.bind (fun m => ?_) fun _ => fun m => openFixed_storeWrite b m
    exact keeps_bind (keeps_modify fun _ hs => hs) fun _ => openFixed_commit m
  · exact OpenFixed.bind (fun m => keeps_modify fun _ hs => hs) fun _ => OpenFixed.fail e

theorem openFixed_now : OpenFixed env now :=
  .bind .get fun _ => .bind (.update fun _ => rfl) fun _ => .pure _

theorem openFixed_getInode (id : Nat) : OpenFixed env (getInode id) :=
  .bind .get fun _ => .ofExcept _

theorem openFixed_putInode (id : Nat) (in_ : Inode) : OpenFixed env (putInode id in_) := by
  refine .bind .get fun s => ?_
  cases s.inodes.put id in_ with
  | error e => exact .fail _
  | ok t =>
    refine .update fun s => ?_
    unfold FS.setInode
    cases s.inodes.put id in_ <;> rfl

theorem openFixed_setCache (c : Option DirCache) : OpenFixed env (setCache c) :=
    .update fun _ => rfl

theorem openFixed_setFreeInodes (l : List Nat) : OpenFixed env (setFreeInodes l) :=
    .update fun _ => rfl

theorem openFixed_succ32 (n : UInt32) : OpenFixed env (succ32 n) := .ite (.pure _) .panic

/-! ## Contents -/

theorem openFixed_touchMod (in_ : Inode) : OpenFixed env (touchMod in_) :=
  .bind openFixed_now fun _ => .pure _

theorem openFixed_touchMeta (in_ : Inode) : OpenFixed env (touchMeta in_) :=
  .bind openFixed_now fun _ => .pure _

theorem openFixed_storeRefs (in_ : Inode) (refs : List Ref) (size : UInt64) (log2 : UInt8) :
    OpenFixed env (storeRefs in_ refs size log2) := by
  rcases refs with _ | ⟨r, _ | ⟨r', rest⟩⟩
  · exact .pure _
  · exact .pure _
  · exact .bind (openFixed_bsWrite _) fun _ => .pure _

theorem openFixed_releaseData (in_ : Inode) : OpenFixed env (releaseData in_) :=
  .ite (.pure _) (.ite (openFixed_bsRelease _) (.bind .get fun _ => .bind (.ofExcept _) fun refs =>
    .bind (.forM openFixed_bsRelease refs) fun _ => openFixed_bsRelease _))

theorem openFixed_setData (id : Nat) (in_ : Inode) (blob : Bytes) :
    OpenFixed env (setData id in_ blob) :=
  .ite .panic (.bind (.mapM openFixed_bsWrite _) fun refs =>
      .bind (openFixed_storeRefs in_ refs _ _) fun _ =>
    .bind (openFixed_releaseData in_) fun _ => .bind (openFixed_touchMod _) fun new =>
      openFixed_putInode id new)

theorem openFixed_writeRecord (oldRefs : List Ref) (oldSize newSize rs off : Nat)
    (data : Bytes) (i : Nat) :
    OpenFixed env (writeRecord oldRefs oldSize newSize rs off data i) := by
  refine .ite .panic ?_
  cases oldRefs[i]? with
  | none => exact .bind (openFixed_bsWrite _) fun _ => .pure _
  | some old =>
    exact .ite (.pure _) (.bind .get fun _ => .bind (.ofExcept _) fun _ =>
      .bind (openFixed_bsWrite _) fun _ => .pure _)

theorem openFixed_writeAtLocked (id : Nat) (in_ : Inode) (off : Nat) (data : Bytes) :
    OpenFixed env (writeAtLocked id in_ off data) :=
  .ite (.pure _) (.bind .get fun _ => .bind (.ofExcept _) fun oldRefs => .ite .panic
    (.bind (.ofExcept _) fun x => .bind (.mapM (openFixed_writeRecord oldRefs _ _ x.1 off data) _)
      fun _ =>
      .bind (openFixed_storeRefs in_ _ _ _) fun _ => .bind (.forM openFixed_bsRelease _) fun _ =>
        .bind (.forM openFixed_bsRelease _) fun _ => .bind (openFixed_touchMod _) fun new =>
          .bind (openFixed_putInode id new) fun _ => .pure _))

/-! ## Directories -/

theorem openFixed_checkoutDir (id : Nat) : OpenFixed env (checkoutDir id) := by
  refine .bind .get fun s => ?_
  cases s.dirCache with
  | none => exact .ofExcept _
  | some cache =>
    dsimp only
    cases cache.entries.lookup id with
    | none => exact .ofExcept _
    | some h =>
      exact .bind (openFixed_setCache _) fun _ => .bind (openFixed_getInode id) fun _ => .pure _

theorem openFixed_commitDir (id : Nat) (h : CachedDir) : OpenFixed env (commitDir id h) := by
  have hpage : ∀ in_ p, OpenFixed env (flushPage id h.pages in_ p) := by
    intro in_ p
    unfold flushPage
    cases (h.pages[p]?).bind fun pg => encodeDirPage pg.entries with
    | none => exact .panic
    | some page => exact openFixed_writeAtLocked id in_ _ page
  have hiter : OpenFixed env (iterate h.dirty) :=
    .bind .get fun _ => .bind (.update fun _ => rfl) fun _ => .pure _
  refine .bind (.bind hiter fun dirty => .bind (.foldlM hpage dirty _) fun _ => .pure _) fun h' =>
    .bind .get fun s => ?_
  cases s.dirCache with
  | none => exact .pure _
  | some cache => exact openFixed_setCache _

theorem openFixed_evictDir (id : Nat) : OpenFixed env (evictDir id) := by
  refine .bind .get fun s => ?_
  cases s.dirCache with
  | none => exact .pure _
  | some cache => exact openFixed_setCache _

theorem openFixed_cachePeek (id : Nat) (f : CachedDir → α) : OpenFixed env (cachePeek id f) := by
  refine .bind .get fun s => ?_
  cases s.dirCache with
  | none => exact .pure _
  | some cache =>
    dsimp only
    cases cache.entries.lookup id with
    | none => exact .bind (.ofExcept _) fun _ => .bind (openFixed_setCache _) fun _ => .pure _
    | some h => exact .bind (openFixed_setCache _) fun _ => .pure _

theorem openFixed_delName (h : CachedDir) (name : String) : OpenFixed env (delName h name) := by
  unfold delName
  cases h.del env name with
  | none => exact .panic
  | some r => exact .pure _

theorem openFixed_lookup (parent : Nat) (name : String) : OpenFixed env (lookup parent name) := by
  refine .bind (openFixed_cachePeek parent _) fun found => ?_
  cases found with
  | none => exact .bind .get fun _ => .bind (.ofExcept _) fun _ => .pure _
  | some x => exact .pure _

theorem openFixed_listDir (id : Nat) : OpenFixed env (listDir id) := by
  refine .bind (openFixed_cachePeek id _) fun l => ?_
  cases l with
  | none => exact .bind .get fun _ => .ofExcept _
  | some x => exact .pure _

theorem openFixed_readdirents (id : Nat) : OpenFixed env (readdirents id) :=
  .bind (openFixed_listDir id) fun l =>
    .mapM (fun _ => .bind (openFixed_getInode _) fun _ => .pure _) l

/-! ## Inodes and names -/

theorem openFixed_allocInode : OpenFixed env allocInode := by
  refine .bind .get fun s => ?_
  cases s.freeInodes with
  | nil => exact .ite (.fail _) (.bind (.update fun _ => rfl) fun _ => .pure _)
  | cons id rest => exact .bind (openFixed_setFreeInodes rest) fun _ => .pure _

theorem openFixed_reclaim (id : Nat) (in_ : Inode) : OpenFixed env (reclaim id in_) :=
  .bind (openFixed_evictDir id) fun _ => .bind (openFixed_releaseData in_) fun _ =>
    .bind (openFixed_succ32 _) fun _ => .bind (openFixed_putInode id _) fun _ =>
      .bind .get fun _ => openFixed_setFreeInodes _

theorem openFixed_mutateInode (id : Nat) (f : Inode → Inode) : OpenFixed env (mutateInode id f) :=
  .bind (openFixed_getInode id) fun _ => openFixed_putInode id _

theorem openFixed_createNode (parent : Nat) (name : String) (kind : UInt8) (mode : UInt16) :
    OpenFixed env (createNode parent name kind mode) :=
  .bind (openFixed_checkoutDir parent) fun _ => .ite (.fail _) (.bind openFixed_allocInode fun id =>
    .bind (openFixed_getInode id) fun _ => .bind openFixed_now fun _ =>
        .bind (openFixed_putInode id _) fun _ =>
      .ite (.bind (openFixed_succ32 _) fun _ => .bind (openFixed_commitDir parent _)
        fun _ => .pure _)
        (.bind (.pure _) fun _ => .bind (openFixed_commitDir parent _) fun _ => .pure _))

theorem openFixed_symlink (parent : Nat) (name target : String) :
    OpenFixed env (symlink parent name target) :=
  .ite (.fail _) (.bind (openFixed_createNode parent name _ _) fun id =>
      .bind (openFixed_getInode id) fun in_ =>
    .bind (openFixed_setData id in_ _) fun _ => .pure _)

theorem openFixed_dropLink (id : Nat) (in_ : Inode) : OpenFixed env (dropLink id in_) :=
  .bind .get fun _ => .ite (openFixed_reclaim id _) (.bind (openFixed_touchMeta _) fun _ =>
    openFixed_putInode id _)

theorem openFixed_unlink (parent : Nat) (name : String) : OpenFixed env (unlink parent name) := by
  refine .bind (openFixed_checkoutDir parent) fun h => ?_
  cases h.dir.find env name with
  | none => exact .fail _
  | some id =>
    exact .bind (openFixed_getInode id) fun child =>
        .ite (.fail _) (.bind (openFixed_delName h name) fun h' =>
      .bind (openFixed_commitDir parent h') fun _ => openFixed_dropLink id child)

theorem openFixed_rmdir (parent : Nat) (name : String) : OpenFixed env (rmdir parent name) := by
  refine .bind (openFixed_checkoutDir parent) fun h => ?_
  cases h.dir.find env name with
  | none => exact .fail _
  | some id =>
    exact .bind (openFixed_getInode id) fun child =>
        .ite (.fail _) (.bind .get fun _ => .bind (.ofExcept _) fun ch =>
      .ite (.fail _) (.bind (openFixed_delName h name) fun h' =>
          .bind (openFixed_commitDir parent _) fun _ =>
        openFixed_reclaim id child))

theorem openFixed_link (parent : Nat) (name : String) (target : Nat) :
    OpenFixed env (link parent name target) :=
  .bind (openFixed_getInode target) fun _ =>
      .ite (.fail _) (.bind (openFixed_checkoutDir parent) fun _ =>
    .ite (.fail _) (.bind (openFixed_succ32 _) fun _ => .bind (openFixed_touchMeta _) fun _ =>
      .bind (openFixed_putInode target _) fun _ => openFixed_commitDir parent _))

theorem openFixed_renameOverwrite (dh : CachedDir) (dn : String) (id : Nat) :
    OpenFixed env (renameOverwrite dh dn id) := by
  unfold renameOverwrite
  cases dh.dir.find env dn with
  | none => exact .pure _
  | some old =>
    exact .ite (.pure _) (.bind (openFixed_getInode old) fun in_ =>
        .bind (openFixed_dropLink old in_) fun _ =>
      .bind (openFixed_delName dh dn) fun _ => .pure _)

theorem openFixed_touchMoved (id : Nat) : OpenFixed env (touchMoved id) := by
  refine .bind .get fun s => ?_
  cases s.getInode id with
  | error e => exact .pure _
  | ok in_ => exact .bind (openFixed_touchMeta in_) fun _ => openFixed_putInode id _

theorem openFixed_rename (src : Nat) (sn : String) (dst : Nat) (dn : String) :
    OpenFixed env (rename src sn dst dn) := by
  refine .bind (openFixed_checkoutDir src) fun sh => ?_
  cases sh.dir.find env sn with
  | none => exact .fail _
  | some id =>
    refine .ite (.fail _) (.bind .get fun s => .bind (.ofExcept _) fun loop =>
      .ite (.fail _) (.ite ?_ ?_))
    · refine .bind (openFixed_renameOverwrite sh dn id) fun x => ?_
      cases x with
      | none => exact .pure _
      | some sh' =>
        exact .bind (openFixed_delName _ sn) fun _ => .bind (openFixed_touchMoved id) fun _ =>
          openFixed_commitDir src _
    · refine .bind (openFixed_checkoutDir dst) fun dh => .bind (openFixed_renameOverwrite dh dn id)
        fun x => ?_
      cases x with
      | none => exact .pure _
      | some dh' =>
        exact .bind (openFixed_delName sh sn) fun _ => .bind (openFixed_touchMoved id) fun _ =>
          .bind (openFixed_commitDir dst _) fun _ => openFixed_commitDir src _

/-! ## Calls of a session -/

/-- The operation is no open and no close. -/
def Op.Uncounted : Op → Prop
  | .openFile _ => False
  | .close _ => False
  | _ => True

theorem openFixed_query (f : FS → Except (Fault Error) α) : OpenFixed env (query env f) :=
  .bind .get fun _ => .ofExcept _

theorem OpenFixed.map {x : Act env α} (hx : OpenFixed env x) (g : α → β) :
    OpenFixed env (g <$> x) :=
  .bind hx fun _ => .pure _

theorem openFixed_actOf (handles : List Handle) {op : Op} (h : op.Uncounted) :
    OpenFixed env (actOf env handles op) := by
  cases op with
  | lookup parent name => exact (openFixed_lookup parent name).map _
  | readdir id => exact .map (.bind (openFixed_listDir id) fun _ => .pure _) _
  | readdirents id => exact (openFixed_readdirents id).map _
  | openDirStream id => exact .map (.bind (openFixed_listDir id) fun _ => .pure _) _
  | stat | statfs | fallocate | access | readlink | readFile | readAt =>
      exact (openFixed_query _).map _
  | mkdir parent name => exact (openFixed_createNode parent name _ _).map _
  | create parent name => exact (openFixed_createNode parent name _ _).map _
  | symlink parent name target => exact (openFixed_symlink parent name target).map _
  | writeFile id data =>
    exact .map (.bind .get fun _ => .bind (.ofExcept _) fun in_ => openFixed_setData id in_ data) _
  | writeAt id off data =>
    exact .map (.bind .get fun _ => .bind (.ofExcept _) fun in_ =>
      .bind (openFixed_writeAtLocked id in_ off data) fun _ => .pure _) _
  | append id data =>
    exact .map (.bind .get fun _ => .bind (.ofExcept _) fun in_ =>
      .bind (openFixed_writeAtLocked id in_ _ data) fun _ => .pure _) _
  | truncate id newSize =>
    exact .map (.bind .get fun _ => .bind (.ofExcept _) fun in_ => .ite (.pure _)
      (.bind (.ofExcept _) fun blob => openFixed_setData id in_ _)) _
  | unlink parent name => exact (openFixed_unlink parent name).map _
  | rmdir parent name => exact (openFixed_rmdir parent name).map _
  | chmod id mode => exact .map (.bind openFixed_now fun _ => openFixed_mutateInode id _) _
  | chown id uid gid => exact .map (.bind openFixed_now fun _ => openFixed_mutateInode id _) _
  | utimes id atime mtime => exact .map (.bind openFixed_now fun _ => openFixed_mutateInode id _) _
  | link parent name target => exact (openFixed_link parent name target).map _
  | rename src sn dst dn => exact (openFixed_rename src sn dst dn).map _
  | handleRead i =>
    unfold actOf
    dsimp only
    cases handles[i]? with
    | none => exact .pure _
    | some h => exact (openFixed_query _).map _
  | setDirCache on => exact (openFixed_setCache _).map _
  | commit | remount => exact .pure _
  | openFile | close => exact h.elim

theorem openFixed_execOf (handles : List Handle) {op : Op} (h : op.Uncounted)
    (m : AList fun _ : Nat => UInt32) :
    Keeps (fun s => s.openCount = m) (execOf env handles op) := by
  cases op with
  | commit => exact keeps_map (openFixed_commit m)
  | _ => exact openFixed_actOf handles h m

theorem openCountOf_insert (s : FS) (id i : Nat) (n : UInt32) :
    FS.openCountOf { s with openCount := s.openCount.insert id n } i =
      if i = id then n else s.openCountOf i := by
  unfold FS.openCountOf
  dsimp only
  by_cases hi : i = id
  · subst hi
    rw [AList.lookup_insert, if_pos rfl]
    rfl
  · rw [AList.lookup_insert_ne hi, if_neg hi]

theorem openCountOf_erase (s : FS) (id i : Nat) :
    FS.openCountOf { s with openCount := s.openCount.erase id } i = if i = id then 0
    else s.openCountOf i := by
  unfold FS.openCountOf
  dsimp only
  by_cases hi : i = id
  · subst hi
    rw [AList.lookup_erase, if_pos rfl]
    rfl
  · rw [AList.lookup_erase_ne hi, if_neg hi]

theorem openCountOf_congr {s s' : FS} (h : s'.openCount = s.openCount) (i : Nat) :
    s'.openCountOf i = s.openCountOf i := by
  unfold FS.openCountOf
  rw [h]

theorem openFile_counts (id : Nat) (s : FS) :
    Sat (openFile id : Act env Handle).1 s
      (fun _ s' => (s.openCountOf id).toNat + 1 < 2 ^ 32 ∧
        ∀ i, s'.openCountOf i = if i = id then s.openCountOf id + 1 else s.openCountOf i)
      (fun _ s' => s'.openCount = s.openCount) := by
  have hread : Sat (Within.ofExcept (s.regular id) : Act env Inode).1 s (fun _ s' => s' = s)
      (fun _ s' => s'.openCount = s.openCount) := sat_ofExcept (fun _ _ => rfl) fun _ _ => rfl
  refine sat_get_bind (sat_bind hread (fun _ s' hs' => ?_) fun _ _ h => h)
  rw [hs']
  unfold succ32
  by_cases hlt : (s.openCountOf id).toNat + 1 < 2 ^ 32
  · rw [if_pos hlt]
    exact ⟨hlt, fun i => openCountOf_insert s id i _⟩
  · rw [if_neg hlt]
    exact sat_panic rfl

theorem close_counts (h : Handle) (s : FS) :
    Sat (close h : Act env Unit).1 s
      (fun _ s' => ∀ i, s'.openCountOf i = if i = h.id ∧
        ¬ h.closed then pred32 (s.openCountOf i) else s.openCountOf i)
      (fun _ s' => ∀ i, s'.openCountOf i =
        if i = h.id ∧ ¬ h.closed then pred32 (s.openCountOf i) else s.openCountOf i) := by
  refine Within.sat_ite (fun hc => ?_) fun hc => ?_
  · exact sat_pure fun i => by rw [if_neg fun hand => hand.2 hc]
  · refine sat_get_bind (Within.sat_ite (fun h0 => ?_) fun _ => ?_)
    · -- the last handle: what follows leaves the counts
      have hrest : OpenFixed env (do
          let in_ ← getInode h.id
          if in_.nlink = 0 then reclaim h.id in_ else return ()) :=
        .bind (openFixed_getInode h.id) fun in_ => .ite (openFixed_reclaim h.id in_) (.pure _)
      have hcount : ∀ s' : FS, s'.openCount = s.openCount.erase h.id → ∀ i, s'.openCountOf i =
          if i = h.id ∧ ¬ h.closed then pred32 (s.openCountOf i) else s.openCountOf i := by
        intro s' hs' i
        rw [openCountOf_congr (s := { s with openCount := s.openCount.erase h.id }) hs',
          openCountOf_erase]
        by_cases hi : i = h.id
        · subst hi
          rw [if_pos rfl, if_pos ⟨rfl, hc⟩, h0]
        · rw [if_neg hi, if_neg fun hand => hi hand.1]
      exact (hrest (s.openCount.erase h.id) _ rfl).mono (fun _ s' => hcount s')
        (fun _ s' => hcount s')
    · intro i
      rw [openCountOf_insert]
      by_cases hi : i = h.id
      · subst hi
        rw [if_pos rfl, if_pos ⟨rfl, hc⟩]
      · rw [if_neg hi, if_neg fun hand => hi hand.1]

end Fs
end BloomFS

/-
Volumes, from the command line.

`bloomfs format` makes a volume and hands its root to the user, and `bloomfs mount` serves
the requests of the kernel until it is stopped and the binding commits.  Whatever is asked
in between, the volume mounts again under its key, with what was there when it was
unmounted.  The commands are generic in the device, which is a disk here.
-/
import BloomFS.Cli.Key
import BloomFS.Fuse.Sessions

namespace BloomFS

namespace Fuse

/-- The end of a session.  An error of the commit is dropped. -/
def BloomFuse.drop (env : Env) : Handler Unit := Exec.handle (fsync env) fun _ => pure ()

end Fuse

namespace Cli

open Bytes Exec Block Fs Fuse Runs

/-- The step that a command failed in, with its error. -/
inductive Failure where
  | key (text : String)
  | format (e : Fs.Error)
  | chownRoot (e : Fs.Error)
  | commit (e : Fs.Error)
  | mountFs (e : Fs.Error)

variable (env : Env)

/-- Format the device and hand the root to the user.  The result is the file system that is
dropped at the end, with the device. -/
def doFormatOn (key : Option Bytes) (uid gid : UInt32) (dev : Disk) :
    Except (Fault Failure) FS := do
  let fs ← (Fs.format env key dev).mapError (Fault.map .format)
  match (chown fs.ub.rootInode.toNat uid gid : Act env Unit).1 fs with
  | .error f _ => throw (f.map .chownRoot)
  | .ok _ fs =>
      match Fs.commit env fs with
      | .error f _ => throw (f.map .commit)
      | .ok _ fs => return fs

def doFormat (keyHex : String) (uid gid : UInt32) (dev : Disk) : Except (Fault Failure) FS := do
  let key ← (parseKey keyHex).mapError (Fault.map .key)
  doFormatOn env key uid gid dev

/-- Mount the device and bind the file system.  `ticks` and `orders` count the runtime's
choices so far. -/
def doMountOn (key : Option Bytes) (noDirCache : Bool) (ticks orders : Nat) (dev : Disk) :
    Except (Fault Failure) BloomFuse := do
  let fs ← (Fs.mount env key ticks orders dev).mapError (Fault.map .mountFs)
  return .new (if noDirCache then { fs with dirCache := none } else fs)

def doMount (keyHex : String) (noDirCache : Bool) (ticks orders : Nat) (dev : Disk) :
    Except (Fault Failure) BloomFuse := do
  let key ← (parseKey keyHex).mapError (Fault.map .key)
  doMountOn env key noDirCache ticks orders dev

/-- A volume that is not mounted, with the file system as it was dropped.  It was formatted
and then mounted any number of times under the same key, for any requests that were
answered.  The flag says that the last session ended with a commit. -/
inductive Shelved (keyHex : String) : Bool → FS → Prop
  | formatted {d : Disk} {uid gid : UInt32} {fs : FS} (blank : Blank d) (hd : Cow.MetaSound d)
      (run : doFormat env keyHex uid gid d = .ok fs) : Shelved keyHex true fs
  | unmounted {b b' noDirCache : Bool} {s : FS} {f f₁ f₂ : BloomFuse} (h : Shelved keyHex b s)
      (mounts : doMount env keyHex noDirCache s.ticks s.orders s.dev = .ok f)
      (served : Served env f.fs f₁)
      (drops : BloomFuse.drop env f₁ = .ok () f₂) (saved : b' = true → fsync env f₁ = .ok () f₂) :
      Shelved keyHex b' f₂.fs

variable {env} {keyHex : String} {b : Bool} {s : FS}

/-! ## The key of a volume -/

def Keyed (key : Option Bytes) (s : FS) : Prop := s.bs.key = key

theorem keyed_commit (key : Option Bytes) : Keeps (Keyed key) (Fs.commit env) := fun s hs =>
  (commit_sat s).mono
    (fun _ s' h => by
      unfold Keyed
      rw [h.rest]
      exact hs)
    (fun _ s' h => by
      unfold Keyed
      rw [h.rest]
      exact hs)

theorem keyed_closed (key : Option Bytes) : Closed env (Keyed key) where
  other s s' h hs := by
    unfold Keyed
    rw [h.bs]
    exact hs
  write b s hs := (storeWrite_sat b s).mono
    (fun _ s' h => by
      unfold Keyed
      rw [h.1]
      exact hs)
    (fun _ s' h => by
      unfold Keyed
      rw [h.1]
      exact hs)
  release r s hs := (storeRelease_sat r s).mono
    (fun _ s' h => by
      unfold Keyed
      rw [h.1]
      exact hs)
    (fun _ s' h => h.2.1 ▸ hs)
  autoCommit := keeps_bind (keeps_modify fun _ hs => hs) fun _ => keyed_commit key
  refuse _ hs := hs

theorem key_of_new {key : Option Bytes} {bs : Store.BlockStore}
    (h : Store.BlockStore.new key = .ok bs) : bs.key = key := by
  cases key with
  | none =>
    cases h
    rfl
  | some k =>
    unfold Store.BlockStore.new at h
    dsimp only at h
    split at h
    · cases h
      rfl
    · cases h

/-! ## What the commands do -/

theorem doFormat_ok {uid gid : UInt32} {d : Disk} {fs : FS}
    (h : doFormat env keyHex uid gid d = .ok fs) :
    ∃ key fs₀ fs₁, parseKey keyHex = .ok key ∧ Fs.format env key d = .ok fs₀ ∧
      (chown fs₀.ub.rootInode.toNat uid gid : Act env Unit).1 fs₀ = .ok () fs₁ ∧
      Fs.commit env fs₁ = .ok () fs := by
  unfold doFormat doFormatOn at h
  cases hkey : parseKey keyHex with
  | error e => rw [hkey] at h; cases h
  | ok key =>
    cases hf : Fs.format env key d with
    | error e => rw [hkey, mapError_ok, ok_bind, hf] at h; cases h
    | ok fs₀ =>
      rw [hkey, mapError_ok, ok_bind, hf, mapError_ok, ok_bind] at h
      split at h
      · cases h
      · next fs₁ hchown =>
        split at h
        · cases h
        · next fs₂ hcommit =>
          cases h
          exact ⟨key, fs₀, fs₁, rfl, hf, hchown, hcommit⟩

theorem doFormat_eq {key : Option Bytes} {uid gid : UInt32} {d : Disk} {fs₀ fs₁ fs : FS}
    (hkey : parseKey keyHex = .ok key) (hf : Fs.format env key d = .ok fs₀)
    (hchown : (chown fs₀.ub.rootInode.toNat uid gid : Act env Unit).1 fs₀ = .ok () fs₁)
    (hcommit : Fs.commit env fs₁ = .ok () fs) : doFormat env keyHex uid gid d = .ok fs := by
  unfold doFormat doFormatOn
  rw [hkey, mapError_ok, ok_bind, hf, mapError_ok, ok_bind, hchown]
  dsimp only
  rw [hcommit]
  rfl

theorem doMount_ok {noDirCache : Bool} {ticks orders : Nat} {dev : Disk} {f : BloomFuse}
    (h : doMount env keyHex noDirCache ticks orders dev = .ok f) :
    ∃ key fs, parseKey keyHex = .ok key ∧ Fs.mount env key ticks orders dev = .ok fs ∧
      f = .new (if noDirCache then { fs with dirCache := none } else fs) := by
  unfold doMount doMountOn at h
  cases hkey : parseKey keyHex with
  | error e => rw [hkey] at h; cases h
  | ok key =>
    cases hm : Fs.mount env key ticks orders dev with
    | error e => rw [hkey, mapError_ok, ok_bind, hm] at h; cases h
    | ok fs =>
      rw [hkey, mapError_ok, ok_bind, hm, mapError_ok, ok_bind] at h
      cases h
      exact ⟨key, fs, rfl, hm, rfl⟩

theorem doMount_eq {key : Option Bytes} {noDirCache : Bool} {ticks orders : Nat}
    {dev : Disk} {fs : FS}
    (hkey : parseKey keyHex = .ok key) (hm : Fs.mount env key ticks orders dev = .ok fs) :
    doMount env keyHex noDirCache ticks orders dev =
      .ok (.new (if noDirCache then { fs with dirCache := none } else fs)) := by
  unfold doMount doMountOn
  rw [hkey, mapError_ok, ok_bind, hm, mapError_ok, ok_bind]
  rfl

/-! ## Volumes as runs -/

/-- A session of a run of calls and mounts, under the key. -/
def Underway (env : Env) (key : Option Bytes) (s : Session) : Prop :=
  (∃ past, Run env Cow.MetaSound (fun _ _ _ => True) past s) ∧ Keyed key s.fs

theorem Underway.perform {key : Option Bytes} {s s' : Session} {op : Op} {out : Outcome}
    (h : Underway env key s)
    (hop : op.InSession) (does : Fs.perform env op s = (out, s')) : Underway env key s' := by
  obtain ⟨⟨past, hrun⟩, hkey⟩ := h
  exact ⟨⟨_, hrun.step does trivial⟩,
    (keyed_closed key).of_perform (keyed_commit key) hop does hkey⟩

theorem Underway.held {key : Option Bytes} {s : Session} (h : Underway env key s) :
    Held env s.fs := by
  obtain ⟨⟨past, hrun⟩, -⟩ := h
  exact held_of_run hrun

theorem underway_ongoing (env : Env) (key : Option Bytes) : Ongoing env (Underway env key) :=
  fun _ _ _ _ h hop does => h.perform hop does

theorem perform_committed {s s' : FS} (h : Fs.commit env s = .ok () s') (handles : List Handle) :
    Fs.perform env .commit ⟨s, handles⟩ = (.ok .unit, ⟨s', handles⟩) :=
  perform_of_ok (show Op.InSession .commit from trivial) (bind_of_ok h)

theorem underway_format {key : Option Bytes} {d : Disk} {fs : FS} (blank : Blank d)
    (hd : Cow.MetaSound d) (h : Fs.format env key d = .ok fs) : Underway env key ⟨fs, []⟩ :=
  ⟨⟨_, .start blank hd h⟩, (keyed_closed key).of_format (keyed_commit key) blank h fun _ hs =>
    key_of_new hs.bs⟩

/-- The session that a mount starts. -/
theorem Underway.mount {key : Option Bytes} {handles : List Handle} {fs : FS}
    (h : Underway env key ⟨s, handles⟩)
    (hm : Fs.mount env key s.ticks s.orders s.dev = .ok fs) (noDirCache : Bool) :
    Underway env key ⟨if noDirCache then { fs with dirCache := none } else fs, []⟩ := by
  obtain ⟨⟨past, hrun⟩, -⟩ := h
  obtain ⟨r, bs, -, hbs, hfs⟩ := mount_ok hm
  have hkey : Keyed key fs := by
    rw [hfs]
    exact key_of_new hbs
  have hstart : Underway env key ⟨fs, []⟩ :=
    ⟨⟨_, hrun.step (perform_of_mount (s := ⟨s, handles⟩) hm) trivial⟩, hkey⟩
  cases noDirCache with
  | false => exact hstart
  | true => exact hstart.perform (show Op.InSession (.setDirCache false) from trivial) rfl

/-- The binding is dropped after a commit, whether it succeeded or not. -/
theorem drop_backed {key : Option Bytes} {f : BloomFuse} (hf : Backed (Underway env key) [] f) :
    Sat (BloomFuse.drop env) f (fun _ f' => Backed (Underway env key) [] f') (fun _ _ => True) :=
  sat_handle (fsync_backed (underway_ongoing env key) f hf) (fun _ _ h => sat_pure h)
    (fun _ _ => trivial) (fun _ _ => trivial)

theorem fsync_ok {f f' : BloomFuse} (h : fsync env f = .ok () f') :
    Fs.commit env f.fs = .ok () f'.fs := by
  unfold fsync onFsExec zoom at h
  cases hc : Fs.commit env f.fs with
  | ok u fs =>
    rw [hc] at h
    cases h
    rfl
  | error e fs =>
    rw [hc] at h
    cases h

/-- A volume is in a state of a run, and if its last session ended with a commit it is the
state after that commit. -/
structure Settled (env : Env) (keyHex : String) (b : Bool) (s : FS) : Prop where
  run : ∃ key handles, parseKey keyHex = .ok key ∧ Underway env key ⟨s, handles⟩
  saved : b = true → ∃ s₀, Held env s₀ ∧ Committed env s₀ s

theorem Shelved.settled (h : Shelved env keyHex b s) : Settled env keyHex b s := by
  induction h with
  | @formatted d uid gid fs blank hd run =>
    obtain ⟨key, fs₀, fs₁, hkey, hformat, hchown, hcommit⟩ := doFormat_ok run
    have hstart := underway_format blank hd hformat
    have hchown : Fs.perform env (.chown fs₀.ub.rootInode.toNat uid gid) ⟨fs₀, []⟩ =
        (.ok .unit, ⟨fs₁, []⟩) :=
      perform_of_ok (show Op.InSession (.chown _ uid gid) from trivial) (bind_of_ok hchown)
    have hroot := hstart.perform (show Op.InSession (.chown _ uid gid) from trivial) hchown
    have hend := hroot.perform (show Op.InSession .commit from trivial)
      (perform_committed hcommit [])
    exact ⟨⟨key, [], hkey, hend⟩, fun _ => ⟨fs₁, hroot.held, (commit_sat fs₁).ok hcommit⟩⟩
  | @unmounted b b' noDirCache s f f₁ f₂ _ mounts served drops saved ih =>
    obtain ⟨key, handles, hkey, hrun⟩ := ih.run
    obtain ⟨key', fs, hkey', hm, rfl⟩ := doMount_ok mounts
    rw [hkey] at hkey'
    cases hkey'
    have hback := served.backed (underway_ongoing env key) (hrun.mount hm noDirCache)
    obtain ⟨s₂, hs₂, hserves₂⟩ := (drop_backed hback).ok drops
    refine ⟨⟨key, s₂.handles, hkey, ?_⟩, fun hb => ?_⟩
    · rw [← hserves₂.fs]
      exact hs₂
    · obtain ⟨s₁, hs₁, hserves₁⟩ := hback
      exact ⟨f₁.fs, hserves₁.fs ▸ hs₁.held, (commit_sat f₁.fs).ok (fsync_ok (saved hb))⟩

/-- The readers look at the device, the key and the inodes alone. -/
theorem restores_of_same {s fs : FS} (hdev : fs.dev = s.dev) (hbs : fs.bs = s.bs)
    (hin : fs.inodes = s.inodes) : Restores env s fs := by
  obtain ⟨dev, ub, bm, ddt, inodes, bs, openCount, freeInodes, ticks, orders, metaBuf, dirCache⟩ :=
    fs
  cases hdev
  cases hbs
  cases hin
  exact ⟨rfl, fun _ => rfl, fun _ _ _ => rfl, fun _ => rfl, fun _ => rfl⟩

/-- A volume on a device that was blank and that refuses no write of metadata mounts under its
key, whatever was asked in its sessions and however they ended.  The commit of an unmount then
fails only if the metadata outgrow their slot or the sequence number is the last one.  The
volume is in a state of a run of calls and mounts, and after a session that ended with a
commit the next mount finds the inodes, the contents of the files, the directories and the
links as they were. -/
theorem volume_mounts_back (h : Shelved env keyHex b s) (noDirCache : Bool) (ticks orders : Nat) :
    (∃ past handles, Run env Cow.MetaSound (fun _ _ _ => True) past ⟨s, handles⟩) ∧
      ∃ f, doMount env keyHex noDirCache ticks orders s.dev = .ok f ∧
      (b = true → Restores env s f.fs) := by
  obtain ⟨⟨key, handles, hkey, hrun⟩, hsaved⟩ := h.settled
  obtain ⟨k₀, C, hchain, ht⟩ := hrun.held
  obtain ⟨r, -, hm⟩ := mount_of_root hchain.last ht.slot s.bs ticks orders
  obtain ⟨⟨past, hpast⟩, hk⟩ := hrun
  have hk : s.bs.key = key := hk
  refine ⟨⟨past, handles, hpast⟩, _, doMount_eq hkey (hk ▸ hm), fun hb => ?_⟩
  obtain ⟨s₀, held, hc⟩ := hsaved hb
  obtain ⟨r', bs, -, hfs, hreads⟩ := held.reload hc hm
  have hin : (mounted s.dev s.bs ticks orders r).inodes = s.inodes := by
    rw [show mounted s.dev s.bs ticks orders r = _ from hfs, hc.rest]
    exact hreads.tbl
  cases noDirCache with
  | false => exact restores_of_same rfl rfl hin
  | true => exact restores_of_same rfl rfl hin

theorem fsync_eq {f : BloomFuse} {fs : FS} (h : Fs.commit env f.fs = .ok () fs) :
    fsync env f = .ok () { f with fs := fs } := by
  unfold fsync onFsExec zoom
  rw [h]

theorem drop_eq {f f' : BloomFuse} (h : fsync env f = .ok () f') :
    BloomFuse.drop env f = .ok () f' := by
  unfold BloomFuse.drop Exec.handle
  rw [h]

open Spec Refine in
/-- A volume is formatted for user 7 and mounted, a file is created on it and written, and
after the unmount it is mounted without the resident directories, with the file as it was. -/
theorem volume_mounts_back_written : ∃ s₀ f₀ a f₁ f₂ f₃ f, Shelved Env.plain "" true s₀ ∧
    doMount Env.plain "" false s₀.ticks s₀.orders s₀.dev = .ok f₀ ∧
    handler Env.plain ⟨7, 7⟩ (.create 1 (Utf8.encode "a") 0o640) f₀ = .ok a f₁ ∧
    handler Env.plain ⟨7, 7⟩ (.write 2 0 [7]) f₁ = .ok (.written 1) f₂ ∧
    BloomFuse.drop Env.plain f₂ = .ok () f₃ ∧ Shelved Env.plain "" true f₃.fs ∧
    doMount Env.plain "" true 0 0 f₃.fs.dev = .ok f ∧ Restores Env.plain f₃.fs f.fs ∧
    f.fs.readFile Env.plain 1 = .ok [7] := by
  have htrail : ∃ x ∈ trail Env.plain Fair [.chown 0 7 7] (fresh Env.plain) [],
      ∃ y ∈ trail Env.plain Fair [.create 0 "a", .chmod 1 0o640, .chown 1 7 7, .openFile 1]
        x.1.reopen [],
      ∃ z ∈ trail Env.plain Fair [.writeAt 1 0 [7]] y.1 y.2.1,
        ((∀ id < x.1.next, (x.1.node id).nlink ≠ 0) ∧ x.1.count = x.1.next) ∧ y.2.2 = [(1, 0)] ∧
        (1 < z.1.cap ∧ (z.1.node 1).kind = Inode.typeRegular ∧ (z.1.node 1).blob = [7]) ∧
        Sketched z.1.paid ∧ z.1.paid.length ≤ 256 := by
    decide
  obtain ⟨⟨t, handles, b⟩, hx, ⟨t', handles', b'⟩, hy, ⟨t'', handles'', b''⟩, hz,
    ⟨hlinks, hlev⟩, rfl, ⟨hcap, hkind, hblob⟩, hsketch, hfew⟩ := htrail
  obtain ⟨hclear, hblank, fs₀, hfs₀, htrack⟩ := start_format hsketch hfew
  have hfair : ∀ v op, Fair v op → Fair v op := fun _ _ h => h
  have hpre' : t'.log <+: t''.log := trail_grows hz
  have hpre : t.reopen.log <+: t''.log := (trail_grows hy).trans hpre'
  obtain ⟨r, s₁, t₁, b₁, does, -, htrack₁, ho₁, hx₁, -⟩ :=
    trail_step hclear hfair htrack (orderly_fresh _) hx hpre trivial
  cases hx₁
  have hroot : fs₀.ub.rootInode = 0 := (formatted_of_ok hblank hfs₀).rootId
  have hchown : (Fs.chown fs₀.ub.rootInode.toNat 7 7 : Act Env.plain Unit).1 fs₀ =
      .ok () s₁.fs := by
    rw [hroot]
    exact ran_of_perform does trivial rfl
  -- the format ends with a commit, and the first session mounts what it left
  have hop : Op.InSession (.chown 0 7 7) := trivial
  have hunder := (underway_format hblank metaSound_smallDisk hfs₀).perform hop does
  have htwo : Track Env.plain t''.log (1 + 1) s₁ t := htrack₁.mono (by decide)
  obtain ⟨s₂, s₃, commits, mounts, hnone, htrack₃⟩ := htwo.reopened hunder.held
  obtain ⟨hcommit, -⟩ := perform_commit commits ⟨_, rfl⟩
  obtain ⟨hmount, -⟩ := perform_remount mounts
  have hformat : doFormat Env.plain "" 7 7 smallDisk = .ok s₂.fs :=
    doFormat_eq rfl hfs₀ hchown hcommit
  have hkey : s₁.fs.bs.key = none := hunder.2
  rw [hkey] at hmount
  have hsession : doMount Env.plain "" false s₂.fs.ticks s₂.fs.orders s₂.fs.dev =
      .ok (.new s₃.fs) :=
    doMount_eq rfl hmount
  have hshelved := Shelved.formatted hblank metaSound_smallDisk hformat
  -- a file is made and written, and the binding commits
  have ho₃ : Orderly t.reopen.view s₃.handles := by
    rw [hnone]
    exact ho₁.reopen (fun id hd => hlinks id (ho₁.1.used_of_dir hd).1) hlev
  rw [← hnone] at hy
  obtain ⟨a, s₄, hcreate, rfl, htrack₄, ho₄⟩ :=
    create_of_trail (f := .new s₃.fs) hclear htrack₃ ho₃ hy hpre' rfl
      (show idOf 1 = .ok 0 from rfl) (show ((0o640 : UInt32) &&& 0o7777).toUInt16 = 0o640 from rfl)
      (show 1 + 1 < 2 ^ 64 by decide) (show (1 : UInt64).toNat + 1 < 2 ^ 64 by decide)
  obtain ⟨r₅, s₅, t₅, b₅, does₅, -, htrack₅, -, hz₁, -⟩ :=
    trail_step hclear hfair htrack₄ ho₄ hz (List.prefix_refl _) trivial
  cases hz₁
  have hwrite : handler Env.plain ⟨7, 7⟩ (.write 2 0 [7])
      ⟨s₄.fs, AList.insert 1 ⟨1, false⟩ ∅, ∅, 2⟩ = .ok (.written 1) _ :=
    write_ok rfl (ran_of_perform does₅ trivial rfl)
  have hone : Track Env.plain t''.log (0 + 1) s₅ t'' := htrack₅.mono (by decide)
  obtain ⟨s₆, commits₆, -, htrack₆⟩ := hone.committed
  have hsync := fsync_eq (f := ⟨s₅.fs, AList.insert 1 ⟨1, false⟩ ∅, ∅, 2⟩)
    (perform_commit commits₆ ⟨_, rfl⟩).1
  have hended : Shelved Env.plain "" true s₆.fs :=
    hshelved.unmounted hsession ((Served.start.answered hcreate).answered hwrite)
      (drop_eq hsync) fun _ => hsync
  obtain ⟨-, f, hf, hrestores⟩ := volume_mounts_back hended true 0 0
  refine ⟨s₂.fs, _, a, _, _, _, f, hshelved, hsession, hcreate, hwrite, drop_eq hsync, hended, hf,
    hrestores rfl, ?_⟩
  rw [(hrestores rfl).readFile, readFile_of_rep Env.plain_lawful htrack₆.rep hcap hkind, hblob]

end Cli
end BloomFS

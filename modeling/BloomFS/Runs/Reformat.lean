/-
Formatting over a file system with a file.

After two commits one of them lies in the uberblock slot that `format` does not write.
The device is formatted again, and the file system that comes back has an inode in use
that no directory names.
-/
import BloomFS.Fs.Reformat
import BloomFS.Runs.OneFile

namespace BloomFS
namespace Runs

open Bytes Exec Block Dir Fs Store Spec Refine

variable {env : Env} {past : List Session} {s s' : Session}

/-- The inodes of a session whose commit went to slot 0 stay in use when the device is
formatted. -/
theorem inodes_of_reformat (run : Run env Disk.Reliable inSession past s)
    (does : perform env .commit s = (.ok .unit, s')) (heven : (s.fs.ub.seq.toNat + 1) % 2 = 0)
    {key : Option Bytes} (h : Formats env key s'.fs.dev) :
    s.fs.ub.nextInode.toNat = (rebuildFreeInodes s.fs.inodes).length + 1 := by
  obtain ⟨hrun, -⟩ := perform_commit does ⟨_, rfl⟩
  have hc : Committed env s.fs s'.fs := (commit_sat s.fs).ok hrun
  have hheld : Held env s.fs := held_of_run (run.mono (fun _ => metaSound_of_reliable)
    fun _ _ _ h => h)
  obtain ⟨-, hslot, hcap⟩ := layout_of_run run
  obtain ⟨tail, -, hx⟩ := hc.dev
  obtain ⟨old, fs, hfound, hspare, -⟩ := formats_iff.mp h
  obtain ⟨hnext, hinodes, hfree, -⟩ := hfound.old hheld hc heven (by rw [hx.blocks]; exact hslot)
  have hcount := (statfs_free_iff old _).mp hspare.free
  rw [hnext, hinodes, hfree, hcap] at hcount
  have hmany : 1 ≤ defaultInodeCount := by decide
  omega

/-- A device that was formatted can be formatted again. -/
theorem formattable_of_run (run : Run env Disk.Reliable inSession past s) :
    Cow.Formattable s.fs.dev.blocks defaultInodeCount defaultDdtReserve := by
  obtain ⟨-, hslot, -⟩ := layout_of_run run
  have hplaced := (working_of_run run).placed
  have hroom := hplaced.room
  have hlt := s.fs.dev.blocks_lt
  rw [hplaced.dataStart, hslot] at hroom
  have hsize : defaultDdtReserve + defaultInodeCount * Inode.inodeSize < 2 ^ 60 := by decide
  unfold Cow.Formattable
  omega

/-- The free list of the mount that would follow a commit. -/
theorem rebuildFreeInodes_of_track {l : List Charge} {k : Nat} {t : State}
    (h : Track env l (k + 1) s t)
    (hheld : Held env s.fs) : rebuildFreeInodes s.fs.inodes = t.reopen.free := by
  obtain ⟨s₁, s₂, commits, mounts, -, h₂⟩ := h.reopened hheld
  obtain ⟨hrun, -⟩ := perform_commit commits ⟨_, rfl⟩
  obtain ⟨hmount, -⟩ := perform_remount mounts
  obtain ⟨r, bs, -, hfs, hreads⟩ := hheld.reload ((commit_sat s.fs).ok hrun) hmount
  have hfree : s₂.fs.freeInodes = rebuildFreeInodes r.2.2.2 := by
    rw [hfs]
    rfl
  rw [h₂.rep.free, hfree, hreads.tbl]

/-- The device of a session with one file in it, after a commit to slot 0. -/
theorem not_formats_of_file {l : List Charge} {k : Nat} {t : State}
    (run : Run env Disk.Reliable inSession past s)
    (h : Track env l (k + 1) s t) (hnext : t.next = 2)
    (hfree : t.reopen.free = []) (does : perform env .commit s = (.ok .unit, s'))
    (heven : (s.fs.ub.seq.toNat + 1) % 2 = 0) (key : Option Bytes) :
        ¬ Formats env key s'.fs.dev := by
  intro hformats
  have hheld : Held env s.fs := held_of_run (run.mono (fun _ => metaSound_of_reliable)
    fun _ _ _ h => h)
  have hcount := inodes_of_reformat run does heven hformats
  rw [rebuildFreeInodes_of_track h hheld, hfree, ← h.rep.next, hnext] at hcount
  cases hcount

/-- A device with one file on it, formatted again, is not empty. -/
theorem reformat_keeps_inode : ∃ past s, Run Env.plain Disk.Reliable inSession past s ∧
    Cow.Formattable s.fs.dev.blocks defaultInodeCount defaultDdtReserve ∧
      ∀ key, ¬ Formats Env.plain key s.fs.dev := by
  have hscript : ∃ x ∈ script Env.plain Fair [.create 0 "a"] (fresh Env.plain) [],
      x.1.next = 2 ∧ x.1.reopen.free = [] ∧ Sketched x.1.paid ∧ x.1.paid.length ≤ 256 := by
    decide
  obtain ⟨⟨t, handles⟩, hx, hnext, hfree, hsketch, hfew⟩ := hscript
  obtain ⟨-, past, s, run, -, htrack, -⟩ := run_script (P := inSession) (reliable_zeroed _ _)
    (fun _ _ h => h) (fun _ _ _ _ _ _ hop _ _ _ => hop.inSession) (by simp [Plays, Answers])
    (by decide) hx
    hsketch hfew
  -- of two commits in a row one goes to slot 0
  obtain ⟨s₁, does₁, -, htrack₁⟩ := (htrack.mono (show 2 + 1 ≤ 2 ^ 32 by decide)).committed
  obtain ⟨s₂, does₂, -, -⟩ := htrack₁.committed
  have run₁ := run.step does₁ trivial
  have run₂ := run₁.step does₂ trivial
  by_cases heven : (s.fs.ub.seq.toNat + 1) % 2 = 0
  · exact ⟨_, s₁, run₁, formattable_of_run run₁,
      not_formats_of_file run (htrack.mono (show 0 + 1 ≤ 2 ^ 32 by decide)) hnext hfree does₁ heven⟩
  · have hseq : s₁.fs.ub.seq.toNat = s.fs.ub.seq.toNat + 1 := by
      obtain ⟨hrun, -⟩ := perform_commit does₁ ⟨_, rfl⟩
      have hc : Committed Env.plain s.fs s₁.fs := (commit_sat s.fs).ok hrun
      rw [hc.ub]
      exact hc.advance.seq s.fs.ub.rootInode s.fs.ub.nextInode
    exact ⟨_, s₂, run₂, formattable_of_run run₂,
      not_formats_of_file run₁ (htrack₁.mono (show 0 + 1 ≤ 2 by decide)) hnext hfree does₂
      (by omega)⟩

end Runs
end BloomFS

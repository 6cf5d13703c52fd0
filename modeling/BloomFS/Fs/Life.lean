/-
Runs over several sessions.

A session ends with a commit, and the next one mounts the same device under the same
key, without the handles of the one before.  `Life` also keeps a record of the inodes
that were made: their ids, with the generations they had then.
-/
import BloomFS.Fs.Namespace
import BloomFS.Fs.Pinned

namespace BloomFS
namespace Fs

open Bytes Exec Block Store

/-- The id of the inode that a call made. -/
def Op.made (op : Op) (out : Outcome) : Option Nat :=
  match op, out with
  | .mkdir _ _, .ok (.id id) => some id
  | .create _ _, .ok (.id id) => some id
  | .symlink _ _ _, .ok (.id id) => some id
  | _, _ => none

/-- The inode that a call made, with its generation after the call. -/
def births (op : Op) (out : Outcome) (s' : Session) : List (Nat × Nat) :=
  (op.made out).toList.map fun id => (id, (s'.fs.inodes.slots id).generation.toNat)

theorem makes_of_made {op : Op} {out : Outcome} {id : Nat} (h : op.made out = some id) :
    op.Makes ∧ out = .ok (.id id) := by
  unfold Op.made at h
  split at h
  all_goals
    cases h
    try exact ⟨trivial, rfl⟩

variable (env : Env)

/-- A run of sessions from a formatted device.  `P` says which calls are made, and `R`
in which states a session is ended. -/
inductive Life (D : Disk → Prop) (P : Session → Op → Outcome → Prop) (R : Session → Prop) :
    List (Nat × Nat) → Session → Prop
  | start {key : Option Bytes} {d : Disk} {fs : FS} (blank : Blank d) (hd : D d)
      (run : format env key d = .ok fs) : Life D P R [] ⟨fs, []⟩
  | call {born : List (Nat × Nat)} {s s' : Session} {op : Op} {out : Outcome}
      (life : Life D P R born s)
      (does : perform env op s = (out, s')) (hop : op.InSession) (hp : P s op out) :
      Life D P R (born ++ births op out s') s'
  | reopen {born : List (Nat × Nat)} {s s₁ s₂ : Session} (life : Life D P R born s)
      (commits : perform env .commit s = (.ok .unit, s₁))
      (mounts : perform env (.remount s.fs.bs.key) s₁ = (.ok .unit, s₂)) (hr : R s) :
        Life D P R born s₂

variable {env} {D : Disk → Prop} {P : Session → Op → Outcome → Prop} {R : Session → Prop}
  {born : List (Nat × Nat)} {s s' : Session}

theorem Life.of_run {D' : Disk → Prop} {P' : Session → Op → Outcome → Prop} {past : List Session}
    (hD : ∀ d, D' d → D d) (hP : ∀ s op out, P' s op out → op.InSession ∧ P s op out)
    (run : Run env D' P' past s) : ∃ born, Life env D P R born s := by
  induction run with
  | start blank hd run => exact ⟨[], .start blank (hD _ hd) run⟩
  | step _ does hp ih =>
    obtain ⟨born, life⟩ := ih
    obtain ⟨hop, hp⟩ := hP _ _ _ hp
    exact ⟨_, .call life does hop hp⟩

theorem Life.sound {D' : Disk → Prop} (hD : ∀ d, D d → D' d) (life : Life env D P R born s) :
    Life env D' P R born s := by
  induction life with
  | start blank hd run => exact .start blank (hD _ hd) run
  | call _ does hop hp ih => exact .call ih does hop hp
  | reopen _ commits mounts hr ih => exact .reopen ih commits mounts hr

theorem Life.run (life : Life env D P R born s) :
    ∃ past, Run env D (fun _ _ _ => True) past s := by
  induction life with
  | start blank hd run => exact ⟨_, .start blank hd run⟩
  | call _ does _ _ ih =>
    obtain ⟨past, run⟩ := ih
    exact ⟨_, run.step does trivial⟩
  | reopen _ commits mounts _ ih =>
    obtain ⟨past, run⟩ := ih
    exact ⟨_, (run.step commits trivial).step mounts trivial⟩

theorem Life.held (hD : ∀ d, D d → Cow.MetaSound d) (life : Life env D P R born s) :
    Held env s.fs := by
  obtain ⟨past, run⟩ := (life.sound hD).run
  exact held_of_run run

theorem perform_commit {out : Outcome}
    (h : perform env .commit s = (out, s')) (hout : Succeeds out) :
    commit env s.fs = .ok () s'.fs ∧ s'.handles = s.handles := by
  obtain ⟨r, rfl⟩ := hout
  have hcall : call env .commit s = (.ok r, s') := h
  unfold call at hcall
  cases hc : commit env s.fs with
  | ok u fs =>
    have hrun : execOf env s.handles .commit s.fs = .ok .unit fs := bind_of_ok hc
    rw [hrun] at hcall
    cases hcall
    exact ⟨rfl, rfl⟩
  | error f fs =>
    have hrun : execOf env s.handles .commit s.fs = .error f fs := bind_of_error hc
    rw [hrun] at hcall
    cases hcall

theorem perform_remount {key : Option Bytes} (h : perform env (.remount key) s = (.ok .unit, s')) :
    mount env key s.fs.ticks s.fs.orders s.fs.dev = .ok s'.fs ∧ s'.handles = [] := by
  simp only [perform] at h
  split at h
  · next fs hfs =>
    cases h
    exact ⟨hfs, rfl⟩
  · cases h

theorem perform_of_mount {key : Option Bytes} {fs : FS}
    (h : mount env key s.fs.ticks s.fs.orders s.fs.dev = .ok fs) :
    perform env (.remount key) s = (.ok .unit, ⟨fs, []⟩) := by
  simp only [perform]
  rw [h]

end Fs
end BloomFS

/-
Owners and modes along runs.

Who owns an inode and what its mode is depends on the creations and on the calls of chmod
and chown alone.  Links, renames, writes, failed calls and crashes leave it, and so the
permission checks answer from the last grant.
-/
import BloomFS.Runs.Crashes
import BloomFS.Spec.Owners

namespace BloomFS
namespace Spec

/-- The three bits of the class that the caller is in: the owner, the group or the others. -/
def Perms.rights (p : Perms) (uid gid : UInt32) (gids : List UInt32) : UInt32 :=
  let perm := p.mode.toUInt32 &&& 0o777
  let shift : UInt32 := if uid = p.uid then 6 else if gid = p.gid ∨ p.gid ∈ gids then 3 else 0
  (perm >>> shift) &&& 7

/-- The superuser may do anything but run a file that nobody may run.  The others may do
what their class may. -/
def Perms.allows (p : Perms) (dir : Bool) (mask uid gid : UInt32) (gids : List UInt32) : Bool :=
  if uid = 0 then mask &&& 1 = 0 || dir || p.mode.toUInt32 &&& 0o777 &&& 0o111 ≠ 0
  else mask &&& p.rights uid gid gids = mask

end Spec

namespace Runs

open Bytes Exec Block Dir Fs Store Spec Refine

variable {env : Env} {s : Session} {o : Owners}

/-- The root of a fresh file system belongs to the superuser. -/
def rootOwned : Owners := fun _ => ⟨0o755, 0, 0⟩

/-- The owner and the mode of an inode as it is stored. -/
def permsOf (in_ : Inode) : Perms := ⟨in_.mode, in_.uid, in_.gid⟩

theorem owners_of_quiet {op : Op} {out : Outcome} (h : ¬ Answers op ∨ ∃ f, out = .error f)
    (o : Owners) : o.after op out = o := by
  rcases h with h | ⟨f, rfl⟩
  · cases op with
    | commit | remount | statfs | fallocate => rfl
    | _ => exact absurd trivial h
  · cases op <;> rfl

theorem hold_fresh (env : Env) : rootOwned.Hold (fresh env) := by
  rintro id ⟨hlt, -⟩
  have hlt : id < 1 := hlt
  obtain rfl : id = 0 := by omega
  rfl

/-- The inodes in use have the owners and modes of the record. -/
theorem permsOf_of_recorded (hl : env.Lawful) (h : Recorded env rootOwned Owners.after s o)
    (hplay : InPlay env s.fs.dev.trace) {id : Nat} (hid : s.fs.InUse id) :
    id < s.fs.inodes.cap ∧ permsOf (s.fs.inodes.slots id) = o id := by
  obtain ⟨t, hrep, ho, -, hhold⟩ := Recorded.machine hl (J := fun t o => o.Hold t) (hold_fresh env)
    (fun handles t t' op r o ho _ hrun hhold => (planOf_hold ho.1 hhold op).ok hrun)
    (fun handles t t' op out o ho hview hno hwhy hhold => by
      rw [owners_of_quiet hno]
      rcases hwhy with hnode | ⟨f, hrun⟩
      · intro id hu
        rw [hnode]
        exact hhold id (hview ▸ hu)
      · exact ((planOf_hold ho.1 hhold op).error hrun).hold hview)
    (fun t t' o hnode hused hhold id hu => by
      rw [hnode]
      exact hhold id (hused id hu)) h hplay
  have hused := hrep.inUse.mp hid
  have hlt : id < s.fs.inodes.cap := hrep.cap ▸ Nat.lt_of_lt_of_le hused.1 ho.1.next_le
  have hnode := hrep.nodes id hlt
  refine ⟨hlt, ?_⟩
  rw [← hhold id hused]
  unfold permsOf Node.perms
  rw [hnode.mode, hnode.uid, hnode.gid]

theorem perform_query (op : Op) {α : Type} {f : FS → Except (Fault Fs.Error) α} {g : α → Reply}
    (hop : Answers op) (hact : actOf env s.handles op = g <$> query env f)
    (hhandles : ∀ b, handlesAfter op b s.handles = s.handles) :
    perform env op s = ((f s.fs).map g, s) := by
  have hexec : execOf env s.handles op = (g <$> query env f : Act env Reply).1 := by
    rw [execOf_eq_actOf hop, hact]
  have hquery : (query env f).1 s.fs = (Exec.ofExcept (f s.fs) : Exec Fs.Error FS α) s.fs := rfl
  cases hf : f s.fs with
  | ok a =>
    rw [hf] at hquery
    have hrun : execOf env s.handles op s.fs = .ok (g a) s.fs := by
      rw [hexec]
      exact bind_of_ok hquery
    rw [perform_of_ok (inSession_of_answers hop) hrun, hhandles]
    rfl
  | error e =>
    rw [hf] at hquery
    have hrun : execOf env s.handles op s.fs = .error e s.fs := by
      rw [hexec]
      exact bind_of_error hquery
    rw [perform_of_error (inSession_of_answers hop) hrun, hhandles]
    rfl

/-- The check of the source, on the owner and the mode. -/
theorem access_eq {fs : FS} {id : Nat} {in_ : Inode} (hget : fs.getInode id = .ok in_)
    (mask uid gid : UInt32) (gids : List UInt32) :
    fs.access id mask uid gid gids =
      if (permsOf in_).allows (in_.kind = Inode.typeDir) mask uid gid gids then .ok ()
      else .error (.err .permission) := by
  unfold FS.access Perms.allows Perms.rights permsOf
  rw [hget, ok_bind]
  by_cases hmask : mask = 0
  · subst hmask
    simp
    rfl
  · rw [if_neg hmask]
    dsimp only
    by_cases huid : uid = 0
    · rw [if_pos huid, if_pos huid]
      by_cases hrun : mask &&& 1 ≠ 0 ∧ in_.kind ≠ Inode.typeDir ∧
        in_.mode.toUInt32 &&& 0o777 &&& 0o111 = 0
      · rw [if_pos hrun, if_neg (by simpa [and_assoc] using hrun)]
        rfl
      · rw [if_neg hrun]
        rw [not_and_or, not_and_or] at hrun
        rw [if_pos (by simpa [or_assoc] using hrun)]
        rfl
    · rw [if_neg huid, if_neg huid]
      simp only [decide_eq_true_eq, ne_eq, ite_not]
      rfl

/-- Inode `id` is reported with permissions `p`, and checks of access answer from them. -/
structure Guarded (env : Env) (s : Session) (id : Nat) (p : Perms) : Prop where
  stat : ∃ st, perform env (.stat id) s = (.ok (.stat st), s) ∧
    (⟨st.mode, st.uid, st.gid⟩ : Perms) = p
  access : ∀ mask uid gid gids, perform env (.access id mask uid gid gids) s =
    (if p.allows ((s.fs.inodes.slots id).kind = Inode.typeDir) mask uid gid gids then .ok .unit
      else .error (.err .permission), s)

/-- Owners and modes follow the grants.  After any prompt calls and any crashes to a commit
with every directory linked, on a device that refuses no write of metadata, the inodes in use
have the owners and modes that their creation and the calls of chmod and chown since then
gave them, as of the last commit after a crash.  They are reported so, and every check of
access answers from them. -/
theorem owners_follow_grants (hl : env.Lawful) (h : Recorded env rootOwned Owners.after s o)
    (hplay : InPlay env s.fs.dev.trace) {id : Nat} (hid : s.fs.InUse id) :
    Guarded env s id (o id) := by
  obtain ⟨hlt, hperms⟩ := permsOf_of_recorded hl h hplay hid
  have hget : s.fs.getInode id = .ok (s.fs.inodes.slots id) := by
    unfold FS.getInode
    rw [Inode.Table.get_of_lt hlt]
    rfl
  have hstat : ∃ st, s.fs.stat id = .ok st ∧
      (⟨st.mode, st.uid, st.gid⟩ : Perms) = permsOf (s.fs.inodes.slots id) := by
    unfold FS.stat
    rw [hget]
    exact ⟨_, rfl, rfl⟩
  obtain ⟨st, hst, hsame⟩ := hstat
  rw [← hperms]
  refine ⟨⟨st, (perform_query (.stat id) (f := (FS.stat · id))
    (g := Reply.stat) trivial rfl fun _ => rfl).trans ?_, hsame⟩, fun mask uid gid gids => ?_⟩
  · rw [hst]
    rfl
  · refine (perform_query (.access id mask uid gid gids) (f := (FS.access · id mask uid gid gids))
      (g := fun _ => Reply.unit) trivial rfl fun _ => rfl).trans ?_
    rw [access_eq hget]
    split <;> rfl

/-- A file is given away and closed to the others, then written and renamed.  Its owner may
read it, and another caller may not. -/
theorem owners_follow_grants_given : ∃ s o,
    Recorded Env.plain rootOwned Owners.after s o ∧ InPlay Env.plain s.fs.dev.trace ∧ s.fs.InUse 1 ∧
      perform Env.plain (.access 1 4 7 7 []) s = (.ok .unit, s) ∧
      perform Env.plain (.access 1 4 8 8 []) s = (.error (.err .permission), s) := by
  have htrail : ∃ x ∈ trail Env.plain Tended [.create 0 "a", .chmod 1 0o600, .chown 1 7 7,
    .writeFile 1 [7], .rename 0 "a" 0 "b"] (fresh Env.plain) [],
      (1 < x.1.next ∧ 1 ∉ x.1.free) ∧ Sketched x.1.paid ∧ x.1.paid.length ≤ 256 ∧
        (x.1.node 1).perms = ⟨0o600, 7, 7⟩ := by
    decide
  obtain ⟨⟨t, handles, b⟩, hx, hused, hsketch, hfew, hnode⟩ := htrail
  obtain ⟨hclear, hblank, fs, hfs, htrack⟩ := start_format hsketch hfew
  obtain ⟨s, ⟨o, h⟩, -, htrack₁, ho⟩ := trail_exact (k := 0) (b := []) (P := Prompt Env.plain)
    (R := fun _ s => ∃ o, Recorded Env.plain rootOwned Owners.after s o)
    (J := fun t handles => Orderly t.view handles) hclear
    (fun _ _ _ _ _ hr does hop hp => hr.elim fun _ h => ⟨_, h.call does hop hp⟩)
      (fun _ _ => Orderly.ready)
    (fun _ _ _ _ _ hj hC => hj.step hC.1)
    (fun _ s t op r _ hop hrep hj hC =>
      ⟨apart_of_fair hC.1, prompt_of_tended Env.plain_lawful s t op r hop hrep hj hC⟩)
    (by simp [Plays, Answers]) ⟨_, .start hblank metaSound_smallDisk hfs⟩ (htrack.mono (by decide))
    (orderly_fresh _) hx (List.prefix_refl _)
  have hplay := (htrack₁.undisturbed hclear).1
  have hid : s.fs.InUse 1 := htrack₁.rep.inUse.mpr hused
  obtain ⟨hlt, hperms⟩ := permsOf_of_recorded Env.plain_lawful h hplay hid
  have hone : o 1 = ⟨0o600, 7, 7⟩ := by
    have hm := htrack₁.rep.nodes 1 hlt
    rw [← hperms, ← hnode]
    unfold permsOf Node.perms
    rw [hm.mode, hm.uid, hm.gid]
  have hguard := owners_follow_grants Env.plain_lawful h hplay hid
  rw [hone] at hguard
  refine ⟨s, o, h, hplay, hid, (hguard.access 4 7 7 []).trans ?_, (hguard.access 4 8 8 []).trans ?_⟩
  · rfl
  · rfl

end Runs
end BloomFS

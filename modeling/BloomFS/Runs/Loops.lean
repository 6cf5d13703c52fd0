/-
The loop check over whole sessions.

While no call fails in the store and renames replace no directory, the directories
stay a tree.  The search of `rename` therefore ends, and refuses exactly the moves that
would put a directory below itself.
-/
import BloomFS.Runs.Tree
import BloomFS.Spec.Loops

namespace BloomFS
namespace Runs

open Bytes Exec Block Dir Fs Store Spec Refine
open Relation (ReflTransGen TransGen)

variable {env : Env}

/-- Calls that return and do not fail in the store, are given known ids and replace
no directory. -/
def Tame (env : Env) (s : Session) (op : Op) (out : Outcome) : Prop :=
  op.InSession ∧ Returns out ∧ (∀ e, out = .error (.err e) → ¬ e.Storage) ∧
    op.Known env s.fs ∧ op.Sparing env s.fs

/-- No directory lies below itself. -/
def Acyclic (env : Env) (s : FS) : Prop := ∀ d, ¬ TransGen (s.Sub env) d d

section Step

variable {D : Disk → Prop} {past : List Session} {s : Session} {t : State}

theorem Tame.fair (hl : env.Lawful) (run : Run env D (Tame env) past s) (hrep : Rep env s.fs t)
    (ha : Arranged t.view s.handles) {op : Op} {out : Outcome} (hp : Tame env s op out) :
    Fair t.view op ∧ Spares t.view op := by
  obtain ⟨-, -, -, hknown, hspare⟩ := hp
  have hroot := root_of_run (fun _ _ _ hp => hp.1) run
  have hsp := hrep.spares hl ha.ready.neat ha.slots hspare
  exact ⟨fair_of_spares hrep ha (current_of_known hl hrep ha hroot hknown) hsp, hsp⟩

theorem tame_calls : Calls env (Tame env) (InPlay env) :=
  calls_stored fun _ _ _ hp => ⟨hp.1, hp.2.1, hp.2.2.1⟩

theorem tame_arranged (hl : env.Lawful) (run : Run env D (Tame env) past s)
    (hplay : InPlay env s.fs.dev.trace) : ∃ t, Rep env s.fs t ∧ Arranged t.view s.handles := by
  refine lift (J := Arranged) hl tame_calls (arranged_fresh env) (fun _ _ => Arranged.ready)
    (fun _ s t op out run hp hrep ha => ?_) run hplay
  obtain ⟨hfair, hsp⟩ := hp.fair hl run hrep ha
  exact ⟨apart_of_fair hfair, fun r v' => ha.step hfair hsp⟩

end Step

section Observe

variable {s : FS} {t : State} {handles : List Handle}

theorem sub_eq (hl : env.Lawful) (hrep : Rep env s t) (ha : Arranged t.view handles) :
    s.Sub env = t.view.Sub := by
  funext d c
  exact propext (sub_iff hl hrep ha)

theorem acyclic_of_arranged (hl : env.Lawful) (hrep : Rep env s t) (ha : Arranged t.view handles) :
    Acyclic env s := by
  unfold Acyclic
  rw [sub_eq hl hrep ha]
  exact ha.acyclic

/-- The search from a directory ends and decides what lies below it. -/
theorem dirSubtreeContains_of_dir (hl : env.Lawful) (hrep : Rep env s t)
    (ha : Arranged t.view handles) {root : Nat} (hd : s.IsDir root) (target : Nat) :
    ∃ b, s.dirSubtreeContains env root target = .ok b ∧
      (b = true ↔ ReflTransGen (s.Sub env) root target) := by
  unfold FS.dirSubtreeContains
  rw [hrep.walk hl ha.ready.neat, sub_eq hl hrep ha]
  exact walk_exact ha ((isDir_iff hrep ha.slots).mp hd) target ha.slots.cap_lt

/-- From anything else it looks at the start only. -/
theorem dirSubtreeContains_of_not_dir (hl : env.Lawful) (hrep : Rep env s t)
    (ha : Arranged t.view handles) {root : Nat} (hd : ¬ s.IsDir root) (target : Nat) :
    s.dirSubtreeContains env root target = .ok true ∧ root = target ∨
      ∃ e, s.dirSubtreeContains env root target = .error (.err e) := by
  unfold FS.dirSubtreeContains
  rw [hrep.walk hl ha.ready.neat]
  have hnode : ¬ (t.node root).isDir := (isDir_iff hrep ha.slots).not.mp hd
  have hfuel : FS.walkFuel = (2 ^ 64 - 1) + 1 := rfl
  rw [hfuel, walk]
  by_cases heq : root = target
  · rw [if_pos heq]
    exact .inl ⟨rfl, heq⟩
  · rw [if_neg heq]
    by_cases hcap : t.cap ≤ root
    · rw [if_pos hcap]
      exact .inr ⟨_, rfl⟩
    · rw [if_neg hcap, if_pos hnode]
      exact .inr ⟨_, rfl⟩

/-- A directory cannot be moved below itself. -/
theorem rename_into_itself (hl : env.Lawful) (hrep : Rep env s t) (ha : Arranged t.view handles)
    {src dst id : Nat} {sn dn : String} (hne : src ≠ dst) (hsrc : s.IsDir src)
    (hm : ⟨sn, id⟩ ∈ s.entriesOf env src) (hid : s.IsDir id)
    (hpath : ReflTransGen (s.Sub env) id dst) :
    Sat (Fs.rename src sn dst dn : Act env Unit).1 s (fun _ _ => False)
      (fun f _ => f = .err .invalid) := by
  obtain ⟨hlt, hdir⟩ := hrep.isDir.mp hsrc
  obtain ⟨sh, s', hrun, hrep', -, -, hw⟩ :=
    hrep.checkoutDir hl ha.ready.neat (Nat.not_le.mpr hlt) hdir
  have hfind : sh.dir.find env sn = some id := by
    rw [hw.mirror.find]
    exact (find_some_iff (ha.linked.paged src hlt hdir)).mpr
      ((mem_entries_iff hl hrep ha hsrc).mp hm)
  rw [sub_eq hl hrep ha] at hpath
  obtain ⟨b, hloops, hb⟩ := loops_exact ha hne ((isDir_iff hrep ha.slots).mp hid)
  rw [hb.mpr hpath, ← hrep'.loops hl ha.ready.neat] at hloops
  unfold Fs.rename
  refine sat_bind (Q := fun h s₁ => h = sh ∧ s₁ = s') (E := fun _ _ => False) ?_ ?_
    (fun _ _ => False.elim)
  · unfold Sat
    rw [hrun]
    exact ⟨rfl, rfl⟩
  rintro _ _ ⟨rfl, rfl⟩
  dsimp only
  rw [hfind]
  refine Within.sat_ite (fun _ => sat_fail rfl) (fun _ => sat_get_bind ?_)
  exact sat_bind (sat_ofExcept (Q := fun a _ => a = true) (E := fun _ _ => False)
    (fun _ hok => Except.ok.inj (hok.symm.trans hloops))
    (fun _ hf => by rw [hloops] at hf; cases hf))
    (fun _ _ htrue => Within.sat_ite (fun _ => sat_fail rfl) (absurd htrue)) (fun _ _ => False.elim)

theorem perform_rename_into_itself (hl : env.Lawful) (hrep : Rep env s t)
    (ha : Arranged t.view handles)
    {src dst id : Nat} {sn dn : String} (hne : src ≠ dst) (hsrc : s.IsDir src)
    (hm : ⟨sn, id⟩ ∈ s.entriesOf env src) (hid : s.IsDir id)
    (hpath : ReflTransGen (s.Sub env) id dst) (handles : List Handle) :
    (perform env (.rename src sn dst dn) ⟨s, handles⟩).1 = .error (.err .invalid) := by
  have hsat : Sat (execOf env handles (.rename src sn dst dn)) s (fun _ _ => False)
      (fun f _ => f = .err .invalid) :=
    sat_map (rename_into_itself hl hrep ha hne hsrc hm hid hpath)
  rw [perform_eq_call (show Op.InSession (.rename src sn dst dn) from trivial), call]
  cases hx : execOf env handles (.rename src sn dst dn) s with
  | ok r s' => exact (hsat.ok hx).elim
  | error f s' => rw [hsat.error hx]

end Observe

/-- In a tame session no directory lies below itself; the search of a rename ends and
is right; a directory is refused another parent exactly when that is the directory or
lies below it; and a rename that succeeds makes no loop. -/
theorem rename_makes_no_loop (hl : env.Lawful) {D : Disk → Prop} {past : List Session} {s : Session}
    (run : Run env D (Tame env) past s) (hplay : InPlay env s.fs.dev.trace) :
    Acyclic env s.fs ∧
    (∀ root target, s.fs.dirSubtreeContains env root target ≠ .error .hang ∧
      (s.fs.IsDir root → ∃ b, s.fs.dirSubtreeContains env root target = .ok b) ∧
      ∀ b, s.fs.dirSubtreeContains env root target = .ok b →
        (b = true ↔ ReflTransGen (s.fs.Sub env) root target)) ∧
    (∀ src sn dst dn id, src ≠ dst → s.fs.IsDir src → ⟨sn, id⟩ ∈ s.fs.entriesOf env src →
      s.fs.IsDir id →
        (ReflTransGen (s.fs.Sub env) id dst →
          (perform env (.rename src sn dst dn) s).1 = .error (.err .invalid)) ∧
        ∀ s', Tame env s (.rename src sn dst dn) (.error (.err .invalid)) →
          perform env (.rename src sn dst dn) s = (.error (.err .invalid), s') →
          InPlay env s'.fs.dev.trace → ReflTransGen (s.fs.Sub env) id dst) ∧
    ∀ src sn dst dn r s', Tame env s (.rename src sn dst dn) (.ok r) →
      perform env (.rename src sn dst dn) s = (.ok r, s') → InPlay env s'.fs.dev.trace →
        Acyclic env s'.fs := by
  obtain ⟨t, hrep, ha⟩ := tame_arranged hl run hplay
  refine ⟨acyclic_of_arranged hl hrep ha, fun root target => ?_,
      fun src sn dst dn id hne hsrc hm hid =>
    ⟨fun hpath => perform_rename_into_itself hl hrep ha hne hsrc hm hid hpath _,
      fun s' hp does hplay' => ?_⟩,
    fun src sn dst dn r s' hp does hplay' => ?_⟩
  · by_cases hd : s.fs.IsDir root
    · obtain ⟨b, hb, hiff⟩ := dirSubtreeContains_of_dir hl hrep ha hd target
      rw [hb]
      exact ⟨nofun, fun _ => ⟨b, rfl⟩, fun b' h => Except.ok.inj h ▸ hiff⟩
    · rcases dirSubtreeContains_of_not_dir hl hrep ha hd target with ⟨h, rfl⟩ | ⟨e, h⟩
      · rw [h]
        exact ⟨nofun, fun hdir => absurd hdir hd,
          fun b' h => iff_of_true (Except.ok.inj h).symm .refl⟩
      · rw [h]
        exact ⟨nofun, fun hdir => absurd hdir hd, nofun⟩
  · obtain ⟨hfair, -⟩ := hp.fair hl run hrep ha
    obtain ⟨-, ⟨t', hran, -⟩ | hstop⟩ :=
      perform_rep hl hrep ha.ready hp.1 (apart_of_fair hfair) hplay' does
    · cases hran with
      | failed hans hrun =>
        have hsat : Sat (planOf env s.handles (.rename src sn dst dn)).1 t
            (fun _ _ => ¬ ReflTransGen t.view.Sub id dst)
            (fun f _ => f = .err .invalid ↔ ReflTransGen t.view.Sub id dst) :=
          sat_map (rename_invalid env ha hne ((isDir_iff hrep ha.slots).mp hsrc)
            ((mem_entries_iff hl hrep ha hsrc).mp hm) ((isDir_iff hrep ha.slots).mp hid))
        rw [sub_eq hl hrep ha]
        exact (hsat.error hrun).mp rfl
      | beside hno => exact absurd trivial hno
    · exact absurd hstop (tame_calls.returns s _ _ _ hp hplay')
  · obtain ⟨t', hrep', ha'⟩ := tame_arranged hl (.step run does hp) hplay'
    exact acyclic_of_arranged hl hrep' ha'

theorem tame_of_fair (hl : env.Lawful) {D : Disk → Prop} (past : List Session)
    (s : Session) (t : State)
    (op : Op) (r : Reply) (run : Run env D (Tame env) past s) (hop : Plays op)
      (hrep : Rep env s.fs t)
    (hj : Orderly t.view s.handles) (hf : Fair t.view op ∧ Yields t.view op ∧ Rooted t.view op) :
    Tame env s op (.ok r) :=
  ⟨hop.inSession, .inl ⟨r, rfl⟩, nofun,
    known_of_rooted hl hrep hj (root_of_run (fun _ _ _ hp => hp.1) run) hf.2.2,
    sparing_of_yields hl hrep hj.ready.neat hf.2.1⟩

/-- A directory cannot move into the one that was moved into it. -/
theorem rename_makes_no_loop_nested : ∃ past s,
    Run Env.plain Disk.Reliable (Tame Env.plain) past s ∧ InPlay Env.plain s.fs.dev.trace ∧
      (perform Env.plain (.rename 0 "a" 2 "c") s).1 = .error (.err .invalid) := by
  have hscript : ∃ x ∈ script Env.plain (fun v op => Fair v op ∧ Yields v op ∧ Rooted v op)
      [.mkdir 0 "a", .mkdir 0 "b", .rename 0 "b" 1 "b"] (fresh Env.plain) [],
      ((x.1.view.node 0).isDir ∧ (x.1.view.node 1).isDir ∧ (x.1.view.node 2).isDir ∧
        (x.1.view.node 0).entries = [⟨"a", 1⟩] ∧ (x.1.view.node 1).entries = [⟨"b", 2⟩]) ∧
        Sketched x.1.paid ∧ x.1.paid.length ≤ 256 := by
    decide
  obtain ⟨⟨t, handles⟩, hscript, ⟨hd0, hd1, hd2, hroot, hone⟩, hsketch, hfew⟩ := hscript
  obtain ⟨hclear, past, s, run, rfl, htrack, hj⟩ := run_script (D := Disk.Reliable)
    (P := Tame Env.plain) (reliable_zeroed _ _) (fun _ _ h => h.1) (tame_of_fair Env.plain_lawful)
    (by simp [Plays, Answers]) (by decide) hscript hsketch hfew
  have hplay : InPlay Env.plain s.fs.dev.trace := (htrack.undisturbed hclear).1
  have hdir : ∀ d, (t.view.node d).isDir → s.fs.IsDir d := fun d => (isDir_iff htrack.rep hj.1).mpr
  have hmem : ∀ d e, (t.view.node d).isDir → e ∈ (t.view.node d).entries →
      e ∈ s.fs.entriesOf Env.plain d :=
    fun d e hd he => (htrack.rep.mem_entriesOf Env.plain_lawful hj.ready.neat).mpr
      ⟨(htrack.rep.isDir.mp (hdir d hd)).1, hd, he⟩
  refine ⟨past, s, run, hplay, ?_⟩
  refine ((rename_makes_no_loop Env.plain_lawful run hplay).2.2.1 0 "a" 2 "c" 1
    (by decide) (hdir 0 hd0) (hmem 0 _ hd0 (by rw [hroot]; simp)) (hdir 1 hd1)).1 ?_
  exact .single ⟨hdir 1 hd1, hdir 2 hd2, ⟨"b", 2⟩, hmem 1 _ hd1 (by rw [hone]; simp), rfl⟩

end Runs
end BloomFS

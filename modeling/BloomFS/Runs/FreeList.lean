/-
The free list of inodes over whole sessions.

As long as the ids that are linked or opened are handed out and nothing is refused
by the device, an id on the free list is on it once, no entry names it and no handle
holds it.  A stale id breaks this: opening and closing it frees it a second time.
-/
import BloomFS.Refine.Plain

namespace BloomFS
namespace Runs

open Bytes Exec Block Dir Fs Store Spec Refine

variable {env : Env}

/-- Calls that return, on ids that are handed out. -/
def Careful (env : Env) (s : Session) (op : Op) (out : Outcome) : Prop :=
  op.InSession ∧ Returns out ∧ op.Current s.fs ∧ op.Aside env s.fs

/-- A careful session follows the machine, whose free list and links are in order. -/
theorem careful_orderly (hl : env.Lawful) {D : Disk → Prop} {past : List Session} {s : Session}
    (run : Run env D (Careful env) past s) (hu : Undisturbed env s) :
    ∃ t, Rep env s.fs t ∧ Orderly t.view s.handles := by
  have hcalls : Calls env (Careful env) (fun tr => InPlay env tr ∧ .refused ∉ tr) :=
    calls_return fun _ _ _ hp => ⟨hp.1, hp.2.1⟩
  refine lift (J := Orderly) hl hcalls (orderly_fresh env) (fun _ _ => Orderly.ready)
    (fun _ s t op out _ hp hrep hj => ?_) run hu
  have hfair := (hrep.fair hl hj.ready.neat).mpr hp.2.2
  exact ⟨apart_of_fair hfair, fun r v' => hj.step hfair⟩

/-- An id that is not handed out has no name and no open handle. -/
theorem idle_of_unused (hl : env.Lawful) {s : Session} {t : State} {gone : Nat → Nat}
    (hrep : Rep env s.fs t) (hs : Slots t.view s.handles) (hn : Linked t.view gone) {id : Nat}
    (hid : ¬ t.view.Used id) : s.fs.nameCount env id = 0 ∧ s.fs.openCountOf id = 0 ∧
      ∀ h ∈ s.handles, h.id = id → h.closed = true := by
  have hopens : t.view.opens id = 0 := by
    by_contra hne
    exact hid (hs.opened id hne).1
  refine ⟨?_, ?_, fun h hh heq => ?_⟩
  · rw [hrep.nameCount hl (ready_of hs hn).neat]
    by_contra hne
    exact hid (hn.named id (by omega))
  · rw [← hrep.opens id]
    exact hopens
  · have hheld := hs.held id
    rw [hopens] at hheld
    have hnone := List.countP_eq_zero.mp hheld.symm h hh
    simpa [heq] using hnone

/-- The id that a call makes was not handed out before. -/
theorem unused_of_made (hl : env.Lawful) {s s' : Session} {t : State} {gone : Nat → Nat}
    (hrep : Rep env s.fs t) (hs : Slots t.view s.handles) (hn : Linked t.view gone)
    {op : Op} {id : Nat}
    (hop : op.Makes) (does : perform env op s = (.ok (.id id), s'))
    (hplay : InPlay env s'.fs.dev.trace) : ¬ t.view.Used id := by
  obtain ⟨hans, hin, ⟨parent, name, kind, data⟩, hmakes⟩ := creates_of_makes hop
  have hready := ready_of hs hn
  have hap : Apart t op := by
    cases op with
    | rename => exact hop.elim
    | _ => exact trivial
  obtain ⟨-, ⟨t', hran, -⟩ | ⟨f, hf, -⟩⟩ := perform_rep hl hrep hready hin hap hplay does
  · cases hran with
    | answered _ hrun =>
      obtain ⟨i, hi, hmade⟩ := ((planOf_change hl hready hans).ok hrun).created hmakes
      cases hi
      exact hmade.not_used
    | beside hno => exact absurd hans hno
  · cases hf

/-- In a careful session that nothing disturbs, an id on the free list is on it
once, has no name and no open handle, and a new inode gets such an id or a fresh
one. -/
theorem free_ids_idle (hl : env.Lawful) {D : Disk → Prop} {past : List Session} {s : Session}
    (run : Run env D (Careful env) past s) (hu : Undisturbed env s) :
    s.fs.freeInodes.Nodup ∧
      (∀ id ∈ s.fs.freeInodes, s.fs.nameCount env id = 0 ∧ s.fs.openCountOf id = 0 ∧
        ∀ h ∈ s.handles, h.id = id → h.closed = true) ∧
      ∀ op id s', op.Makes → perform env op s = (.ok (.id id), s') → InPlay env s'.fs.dev.trace →
        s.fs.nameCount env id = 0 ∧ s.fs.openCountOf id = 0 ∧
          ∀ h ∈ s.handles, h.id = id → h.closed = true := by
  obtain ⟨t, hrep, hs, gone, hn⟩ := careful_orderly hl run hu
  have hfree : t.view.free = s.fs.freeInodes := hrep.free
  refine ⟨hfree ▸ hs.nodup, fun id hid => ?_, fun op id s' hop does hplay => ?_⟩
  · refine idle_of_unused hl hrep hs hn fun hu => ?_
    exact hu.2 (hfree.symm ▸ hid)
  · exact idle_of_unused hl hrep hs hn (unused_of_made hl hrep hs hn hop does hplay)

theorem careful_of_fair (hl : env.Lawful) (s : Session) (t : State) (op : Op) (r : Reply)
    (hop : Plays op) (hrep : Rep env s.fs t) (hj : Orderly t.view s.handles) (hf : Fair t.view op) :
    Careful env s op (.ok r) :=
  ⟨hop.inSession, .inl ⟨r, rfl⟩, (hrep.fair hl hj.ready.neat).mp hf⟩

/-- A file that is unlinked while it is open is on the free list once it is closed. -/
theorem free_ids_idle_after_close :
    ∃ past s, Run Env.plain Disk.Reliable (Careful Env.plain) past s ∧
    Undisturbed Env.plain s ∧ s.fs.freeInodes = [1] ∧ s.fs.nameCount Env.plain 1 = 0 := by
  have hscript : ∃ x ∈ script Env.plain Fair [.create 0 "a", .openFile 1, .unlink 0 "a", .close 0]
      (fresh Env.plain) [], x.1.free = [1] ∧ Sketched x.1.paid ∧ x.1.paid.length ≤ 256 := by
    decide
  obtain ⟨⟨t, handles⟩, hscript, hfree, hsketch, hfew⟩ := hscript
  obtain ⟨hclear, past, s, run, -, htrack, -⟩ := run_script (D := Disk.Reliable)
    (P := Careful Env.plain) (reliable_zeroed _ _) (fun _ _ h => h)
    (fun _ s t op r _ => careful_of_fair Env.plain_lawful s t op r) (by simp [Plays, Answers])
      (by decide) hscript hsketch hfew
  have hu : Undisturbed Env.plain s := htrack.undisturbed hclear
  have hids : s.fs.freeInodes = [1] := htrack.rep.free.symm.trans hfree
  refine ⟨past, s, run, hu, hids, ?_⟩
  exact ((free_ids_idle Env.plain_lawful run hu).2.1 1 (hids ▸ List.mem_cons_self)).1

/-- Opening and closing an id that was given back gives it back again. -/
theorem stale_open_frees_twice : ∃ past s,
    Run Env.plain Disk.Reliable Smooth past s ∧
      Undisturbed Env.plain s ∧ s.fs.freeInodes = [1, 1] := by
  have hscript : ∃ x ∈ script Env.plain Fair [.create 0 "a", .unlink 0 "a"] (fresh Env.plain) [],
      ∃ y ∈ script Env.plain (fun _ op => mild op) [.openFile 1] x.1 x.2,
      ∃ z ∈ script Env.plain (fun _ _ => True) [.close 0] y.1 y.2,
        z.1.free = [1, 1] ∧ Sketched z.1.paid ∧ z.1.paid.length ≤ 256 := by
    decide
  obtain ⟨⟨t₁, h₁⟩, hx, ⟨t₂, h₂⟩, hy, ⟨t₃, h₃⟩, hz, hfree, hsketch, hfew⟩ := hscript
  have hpre₂ : t₂.log <+: t₃.log := script_grows hz
  have hpre₁ : t₁.log <+: t₃.log := (script_grows hy).trans hpre₂
  have hP : ∀ (s : Session) (op : Op) (r : Reply), Plays op → Smooth s op (.ok r) :=
    fun _ _ r hop => ⟨hop.inSession, r, rfl⟩
  obtain ⟨hclear, fs, run, h⟩ := start_track (P := Smooth) hsketch hfew (reliable_zeroed _ _)
  obtain ⟨past₁, s₁, run₁, rfl, h, hj⟩ := fair_exact (k := 1) hclear (fun _ _ h => h)
    (fun _ s _ op r _ hop _ _ _ => hP s op r hop) (by simp [Plays, Answers]) run
    (h.mono (by decide))
    (orderly_fresh _) hx hpre₁
  obtain ⟨past₂, s₂, run₂, rfl, h, hj⟩ := mild_exact (k := 0) hclear (fun _ _ h => h)
    (fun _ s _ op r _ hop _ _ _ => hP s op r hop) (by simp [Plays, Answers]) run₁
    (h.mono (by decide))
    hj.ready hy hpre₂
  have hclose : Answers (.close 0) := trivial
  obtain ⟨past₃, s₃, run₃, -, h⟩ :=
    last_exact hclear (fun r => hP _ _ r (.inl hclose)) hclose trivial
    run₂ h hj hz (List.prefix_refl _)
  exact ⟨past₃, s₃, run₃, h.undisturbed hclear, h.rep.free.symm.trans hfree⟩

end Runs
end BloomFS

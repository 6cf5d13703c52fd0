/-
Generations over several sessions.

An id gets a new generation whenever it is given back, so the inodes made over any
number of sessions differ in id or generation.  A mount breaks this when it finds a
file without links that was held open at the commit: it takes the id for free
without a new generation.
-/
import BloomFS.Refine.Plain

namespace BloomFS
namespace Runs

open Bytes Exec Block Dir Fs Store Spec Refine

variable {env : Env} {born : List (Nat × Nat)} {s : Session} {t : State}

/-- Calls that return without a failure of the store, on ids that are handed out. -/
def Valid (env : Env) (s : Session) (op : Op) (out : Outcome) : Prop :=
  op.InSession ∧ Returns out ∧ (∀ e, out = .error (.err e) → ¬ e.Storage) ∧
    (∀ id ∈ op.subjects, s.fs.InUse id) ∧ op.Aside env s.fs

/-- Every inode that is handed out has links. -/
def Linking (s : Session) : Prop := ∀ id, s.fs.InUse id → (s.fs.inodes.slots id).nlink ≠ 0

theorem linking_iff (hrep : Rep env s.fs t) (hle : t.next ≤ t.cap) :
    Linking s ↔ ∀ id, t.view.Used id → (t.view.node id).nlink ≠ 0 := by
  refine forall_congr' fun id => ?_
  rw [hrep.inUse]
  refine forall_congr' fun hu => ?_
  have hlt : id < s.fs.inodes.cap := hrep.cap ▸ Nat.lt_of_lt_of_le hu.1 hle
  rw [(hrep.nodes id hlt).nlink]
  exact Iff.rfl

/-- A mount in such a state hands out what was handed out before. -/
theorem ages_reopen (ho : Orderly t.view s.handles)
    (hlinks : ∀ id, t.view.Used id → (t.view.node id).nlink ≠ 0)
    (hlev : t.count = t.next) : Ages t.view t.reopen.view := by
  obtain ⟨hs, gone, hn⟩ := ho
  exact ⟨fun _ => Nat.le_refl _, fun id _ hu => (used_reopen hs hn hlev).mpr ⟨hu, hlinks id hu⟩⟩

theorem valid_dated (hl : env.Lawful) (life : Life env Cow.MetaSound (Valid env) Linking born s)
    (hplay : InPlay env s.fs.dev.trace) :
    ∃ t, Rep env s.fs t ∧ (Orderly t.view s.handles ∧ Dated born t.view) ∧ t.count = t.next := by
  have hcalls : Calls env (Valid env) (InPlay env) :=
    calls_stored fun _ _ _ hp => ⟨hp.1, hp.2.1, hp.2.2.1⟩
  refine lift_life (J := fun born v handles => Orderly v handles ∧ Dated born v) hl hcalls
    (fun _ _ _ hp => hp.2.2.2.1) ⟨orderly_fresh env, .nil⟩ (fun _ _ _ h => h.1)
    (fun born s t op out _ hp hrep hj => ?_) (fun born s t _ hr hrep hj hlev => ?_) life hplay
  · obtain ⟨ho, hd⟩ := hj
    have hfair := (hrep.fair hl ho.ready.neat).mpr ⟨Op.current_of_subjects hp.2.2.2.1, hp.2.2.2.2⟩
    exact ⟨apart_of_fair hfair, fun r v' hc => ⟨ho.step hfair hc, dated_step hd hc ho hfair⟩⟩
  · obtain ⟨ho, hd⟩ := hj
    have hlinks := (linking_iff hrep ho.1.next_le).mp hr
    exact ⟨ho.reopen (fun id hdir => hlinks id (ho.1.used_of_dir hdir)) hlev,
      hd.mono (ages_reopen ho hlinks hlev)⟩

/-- Over any number of sessions, no two inodes are made with the same id and
generation. -/
theorem generations_differ (hl : env.Lawful)
    (life : Life env Cow.MetaSound (Valid env) Linking born s)
    (hplay : InPlay env s.fs.dev.trace) : born.Nodup := by
  obtain ⟨t, -, ⟨-, hd⟩, -⟩ := valid_dated hl life hplay
  exact hd.nodup

/-- A fair operation on ids that are handed out. -/
def Tended (v : View) (op : Op) : Prop := Fair v op ∧ ∀ id ∈ op.subjects, v.Used id

instance (v : View) (op : Op) : Decidable (Tended v op) :=
  inferInstanceAs (Decidable (Fair v op ∧ ∀ id ∈ op.subjects, id < v.next ∧ id ∉ v.free))

theorem valid_of_tended (hl : env.Lawful) (s : Session) (t : State) (op : Op) (r : Reply)
    (hop : Plays op)
    (hrep : Rep env s.fs t) (hj : Orderly t.view s.handles) (h : Tended t.view op) :
        Valid env s op (.ok r) :=
  ⟨hop.inSession, .inl ⟨r, rfl⟩, fun _ he => (by cases he),
    fun id hid => hrep.inUse.mpr (h.2 id hid), ((hrep.fair hl hj.ready.neat).mp h.1).2⟩

/-- Three owners of one id, the last one after a mount. -/
theorem generations_differ_reused : ∃ born s,
    Life Env.plain Cow.MetaSound (Valid Env.plain) Linking born s ∧
    InPlay Env.plain s.fs.dev.trace ∧
      born = [(1, 0), (1, 1), (1, 2)] ∧ born.Nodup := by
  have htrail : ∃ x ∈ trail Env.plain Tended [.create 0 "a", .unlink 0 "a", .create 0 "b"]
    (fresh Env.plain) [],
      x.2.2 = [(1, 0), (1, 1)] ∧ (∀ id < x.1.next, (x.1.node id).nlink ≠ 0) ∧ x.1.count = x.1.next ∧
      x.1.next ≤ x.1.cap ∧ ∃ y ∈ trail Env.plain Tended [.unlink 0 "b", .mkdir 0 "c"] x.1.reopen [],
        y.2.2 = [(1, 2)] ∧ Sketched y.1.paid ∧ y.1.paid.length ≤ 256 := by
    decide
  obtain ⟨⟨t₁, h₁, b₁⟩, hx, hb₁, hlinks, hlev, hle, ⟨t₂, h₂, b₂⟩, hy, hb₂, hsketch, hfew⟩ := htrail
  obtain ⟨hclear, fs, life, htrack⟩ := start_life (P := Valid Env.plain) (R := Linking) hsketch hfew
    metaSound_smallDisk
  have hpre : t₁.reopen.log <+: t₂.log := trail_grows hy
  have hP := fun (born : List (Nat × Nat)) (s : Session) (t : State) (op : Op) (r : Reply)
    (_ : Life Env.plain Cow.MetaSound (Valid Env.plain) Linking born s) =>
    valid_of_tended Env.plain_lawful s t op r
  have hused : ∀ id, t₁.view.Used id → (t₁.view.node id).nlink ≠ 0 := fun id hu => hlinks id hu.1
  obtain ⟨s₁, life₁, hnone, htrack₁, ho⟩ :=
    life_reopens (k := 2) hclear (fun _ h => h) (fun _ _ h => h.1) hP
    (by simp [Plays, Answers]) life (htrack.mono (by decide)) (orderly_fresh _) hx hpre
    (fun s hrep _ => (linking_iff hrep hle).mpr hused)
  have ho₁ := ho.reopen (fun id hd => hused id (ho.1.used_of_dir hd)) hlev
  rw [← hnone] at hy ho₁
  obtain ⟨s₂, life₂, -, htrack₂, -⟩ := life_exact (k := 0) hclear (fun _ _ h => h.1) hP
    (by simp [Plays, Answers]) life₁ (htrack₁.mono (by decide)) ho₁ hy (List.prefix_refl _)
  have hplay := (htrack₂.undisturbed hclear).1
  refine ⟨_, s₂, life₂, hplay, ?_, generations_differ Env.plain_lawful life₂ hplay⟩
  rw [show b₁ = _ from hb₁, show b₂ = _ from hb₂]
  rfl

/-- A file that is unlinked but open at the commit: the mount hands out its id with
the same generation. -/
theorem orphan_repeats_generation : ∃ born s,
    Life Env.plain Disk.Reliable Smooth (fun _ => True) born s ∧ InPlay Env.plain s.fs.dev.trace ∧
      born = [(1, 0), (1, 0)] := by
  have htrail : ∃ x ∈ trail Env.plain Fair [.create 0 "a", .openFile 1, .unlink 0 "a"]
    (fresh Env.plain) [],
      x.2.2 = [(1, 0)] ∧ (∀ id < x.1.next, (x.1.node id).isDir → (x.1.node id).nlink ≠ 0) ∧
      x.1.count = x.1.next ∧
      ∃ y ∈ trail Env.plain Fair [.create 0 "b"] x.1.reopen [],
        y.2.2 = [(1, 0)] ∧ Sketched y.1.paid ∧ y.1.paid.length ≤ 256 := by
    decide
  obtain ⟨⟨t₁, h₁, b₁⟩, hx, hb₁, hlinks, hlev, ⟨t₂, h₂, b₂⟩, hy, hb₂, hsketch, hfew⟩ := htrail
  obtain ⟨hclear, fs, life, htrack⟩ := start_life (P := Smooth) (R := fun _ => True) hsketch hfew
    (reliable_zeroed _ _)
  have hpre : t₁.reopen.log <+: t₂.log := trail_grows hy
  have hP := fun (born : List (Nat × Nat)) (s : Session) (t : State) (op : Op) (r : Reply)
    (_ : Life Env.plain Disk.Reliable Smooth (fun _ => True) born s) (hop : Plays op)
    (_ : Rep Env.plain s.fs t)
    (_ : Orderly t.view s.handles) (_ : Fair t.view op) =>
    show Smooth s op (.ok r) from ⟨hop.inSession, r, rfl⟩
  obtain ⟨s₁, life₁, hnone, htrack₁, ho⟩ := life_reopens (k := 1) hclear
    (fun _ h => ⟨h _, h _, h _⟩) (fun _ _ h => h) hP
    (by simp [Plays, Answers]) life (htrack.mono (by decide)) (orderly_fresh _) hx hpre
      (fun _ _ _ => trivial)
  have ho₁ := ho.reopen (fun id hd => hlinks id (ho.1.used_of_dir hd).1 hd) hlev
  rw [← hnone] at hy ho₁
  obtain ⟨s₂, life₂, -, htrack₂, -⟩ := life_exact (k := 0) hclear (fun _ _ h => h) hP
    (by simp [Plays, Answers]) life₁ (htrack₁.mono (by decide)) ho₁ hy (List.prefix_refl _)
  refine ⟨_, s₂, life₂, (htrack₂.undisturbed hclear).1, ?_⟩
  rw [show b₁ = _ from hb₁, show b₂ = _ from hb₂]
  rfl

end Runs
end BloomFS

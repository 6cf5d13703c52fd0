/-
What a mount makes of the inodes.

A mount takes the slots without links for the free list.  It gives back exactly what
was free as long as everything handed out has links: a file that is open without a
name then keeps its blocks, and a directory whose link count has dropped to zero is
handed out again.
-/
import BloomFS.Runs.FreeList
import BloomFS.Runs.Generations
import BloomFS.Runs.Links

namespace BloomFS
namespace Runs

open Bytes Exec Block Dir Fs Store Spec Refine

variable {env : Env} {born : List (Nat × Nat)} {s s₁ s₂ : Session} {t : State}

/-! ## Orphans -/

theorem targets_subset_subjects (op : Op) : op.targets ⊆ op.subjects := by
  cases op <;> simp [Op.targets, Op.subjects]

theorem Tended.step {v v' : View} {handles : List Handle} {op : Op} {r : Reply} (h : Tended v op)
    (ho : Orderly v handles) (ht : Tidy v) (hc : Change handles v op r v') :
    Orderly v' (handlesAfter op true handles) ∧ Tidy v' := by
  have hw : ∀ id f, writes op = some (id, f) → v.Used id := fun id f hw =>
    h.2 id (targets_subset_subjects op (mem_targets_of_writes hw).1)
  refine ⟨ho.step h.1 hc, ?_⟩
  obtain ⟨hs, gone, hn⟩ := ho
  exact hc.tidy hs hn h.1 hw ht

theorem valid_tidy (hl : env.Lawful) (life : Life env Cow.MetaSound (Valid env) Linking born s)
    (hplay : InPlay env s.fs.dev.trace) :
    ∃ t, Rep env s.fs t ∧ (Orderly t.view s.handles ∧ Tidy t.view) ∧ t.count = t.next := by
  have hcalls : Calls env (Valid env) (InPlay env) :=
    calls_stored fun _ _ _ hp => ⟨hp.1, hp.2.1, hp.2.2.1⟩
  refine lift_life (J := fun _ v handles => Orderly v handles ∧ Tidy v) hl hcalls
    (fun _ _ _ hp => hp.2.2.2.1) ⟨orderly_fresh env, tidy_fresh env⟩ (fun _ _ _ h => h.1)
    (fun _ s t op out _ hp hrep hj => ?_) (fun _ s t _ hr hrep hj hlev => ?_) life hplay
  · obtain ⟨ho, htidy⟩ := hj
    obtain ⟨-, -, -, hsub, haside⟩ := hp
    have hfair := (hrep.fair hl ho.ready.neat).mpr ⟨Op.current_of_subjects hsub, haside⟩
    have htend : Tended t.view op := ⟨hfair, fun id hid => hrep.inUse.mp (hsub id hid)⟩
    exact ⟨apart_of_fair hfair, fun r v' hc => htend.step ho htidy hc⟩
  · obtain ⟨ho, htidy⟩ := hj
    have hlinks := (linking_iff hrep ho.1.next_le).mp hr
    refine ⟨ho.reopen (fun id hd => hlinks id (ho.1.used_of_dir hd)) hlev, ?_⟩
    obtain ⟨hs, gone, hn⟩ := ho
    exact htidy.reopen hs hn hlinks hlev

/-- The references to `k` from the inodes that are not on the free list. -/
def ownedInUse (env : Env) (s : FS) (k : Dedup.Key) : Nat :=
  ∑ id ∈ (Finset.range s.inodes.cap).filter (· ∉ s.freeInodes),
    (s.refsOf env id).countP (·.hash = k)

/-- After a mount every id on the free list is empty, and the other inodes hold every
reference of the store. -/
theorem mount_finds_no_orphan (hl : env.Lawful)
    (life : Life env Cow.MetaSound (Valid env) Linking born s)
    (hlinks : Linking s) (commits : perform env .commit s = (.ok .unit, s₁))
    (mounts : perform env (.remount s.fs.bs.key) s₁ = (.ok .unit, s₂))
      (hplay : InPlay env s₂.fs.dev.trace) :
    (∀ id ∈ s₂.fs.freeInodes, (s₂.fs.inodes.slots id).size = 0 ∧ s₂.fs.refsOf env id = []) ∧
      ∀ k, s₂.fs.ddt.refs k = ownedInUse env s₂.fs k := by
  obtain ⟨t, hrep, ⟨⟨hs, gone, hn⟩, htidy⟩, -⟩ :=
    valid_tidy hl (life.reopen commits mounts hlinks) hplay
  obtain ⟨refs, lost, hf, hclean⟩ := hrep.filled
  have hfree : t.view.free = s₂.fs.freeInodes := hrep.free
  have hempty : ∀ id ∈ s₂.fs.freeInodes,
      (s₂.fs.inodes.slots id).size = 0 ∧ s₂.fs.refsOf env id = [] := by
    intro id hid
    have hlt : id < s₂.fs.inodes.cap :=
      hrep.cap ▸ Nat.lt_of_lt_of_le (hs.free_lt id (hfree ▸ hid)) hs.next_le
    obtain ⟨g, hblank⟩ := htidy.blank id fun hu => hu.2 (hfree ▸ hid)
    have hsize : (s₂.fs.inodes.slots id).size = 0 := by
      refine UInt64.toNat_inj.mp ?_
      rw [hrep.size hlt]
      show (t.view.node id).blob.length = 0
      rw [hblank]
      rfl
    refine ⟨hsize, ?_⟩
    have hlaid := hf.laid id hlt
    rw [hlaid.refsOf hl]
    have hnone := hlaid.tokens_empty hsize
    exact List.map_eq_nil_iff.mp (Multiset.coe_eq_zero _ |>.mp hnone)
  refine ⟨hempty, fun k => ?_⟩
  have hall : s₂.fs.ddt.refs k = owned env s₂.fs k := by
    rw [Filled.owned_eq hl hf, ← add_zero (total _ _), ← hclean.mp htidy.clean]
    exact hf.stocked.stock.refs k
  rw [hall]
  symm
  refine Finset.sum_filter_of_ne ?_
  intro id _ hne hid
  refine hne ?_
  rw [(hempty id hid).2]
  rfl

/-- A file that loses its name while it is open and is closed before the commit leaves
nothing behind. -/
theorem mount_finds_no_orphan_closed : ∃ born s s₁ s₂,
    Life Env.plain Cow.MetaSound (Valid Env.plain) Linking born s ∧ Linking s ∧
      perform Env.plain .commit s = (.ok .unit, s₁) ∧
      perform Env.plain (.remount s.fs.bs.key) s₁ = (.ok .unit, s₂) ∧
        InPlay Env.plain s₂.fs.dev.trace ∧
      s₂.fs.freeInodes = [1] ∧ (s₂.fs.inodes.slots 1).size = 0 := by
  have htrail : ∃ x ∈ trail Env.plain Tended
      [.create 0 "a", .writeFile 1 [7], .openFile 1, .unlink 0 "a", .close 0, .create 0 "b",
        .create 0 "c", .unlink 0 "b"] (fresh Env.plain) [],
      (∀ id < x.1.next, id ∉ x.1.free → (x.1.node id).nlink ≠ 0) ∧ x.1.next ≤ x.1.cap ∧
        x.1.reopen.free = [1] ∧ Sketched x.1.paid ∧ x.1.paid.length ≤ 256 := by
    decide
  obtain ⟨⟨t, handles, b⟩, hx, hlinks, hle, hfree, hsketch, hfew⟩ := htrail
  obtain ⟨hclear, fs, life, htrack⟩ := start_life (P := Valid Env.plain) (R := Linking) hsketch hfew
    metaSound_smallDisk
  obtain ⟨s, life₁, -, htrack₁, -⟩ := life_exact (k := 1) hclear (fun _ _ h => h.1)
    (fun _ s t op r _ => valid_of_tended Env.plain_lawful s t op r) (by simp [Plays, Answers]) life
    (htrack.mono (by decide)) (orderly_fresh _) hx (List.prefix_refl _)
  have hused : Linking s := (linking_iff htrack₁.rep hle).mpr fun id hu => hlinks id hu.1 hu.2
  obtain ⟨s₁, s₂, commits, mounts, -, htrack₂⟩ := htrack₁.reopened (life₁.held fun _ h => h)
  have hplay := (htrack₂.undisturbed hclear).1
  have hids : s₂.fs.freeInodes = [1] := htrack₂.rep.free.symm.trans hfree
  refine ⟨_, s, s₁, s₂, life₁, hused, commits, mounts, hplay, hids, ?_⟩
  have hnone := mount_finds_no_orphan Env.plain_lawful life₁ hused commits mounts hplay
  exact (hnone.1 1 (hids ▸ List.mem_cons_self)).1

/-- A file that is open without a name at the commit is on the free list of the mount
with its contents. -/
theorem mount_keeps_orphan : ∃ born s s₁ s₂,
    Life Env.plain Disk.Reliable Smooth (fun _ => True) born s ∧
      perform Env.plain .commit s = (.ok .unit, s₁) ∧
      perform Env.plain (.remount s.fs.bs.key) s₁ = (.ok .unit, s₂) ∧
        InPlay Env.plain s₂.fs.dev.trace ∧
      s₂.fs.freeInodes = [1] ∧ (s₂.fs.inodes.slots 1).size.toNat = 1 := by
  have htrail : ∃ x ∈ trail Env.plain Fair [.create 0 "a", .writeFile 1 [7], .openFile 1,
    .unlink 0 "a"]
      (fresh Env.plain) [], 1 < x.1.cap ∧ (x.1.node 1).blob.length = 1 ∧ x.1.reopen.free = [1] ∧
        Sketched x.1.paid ∧ x.1.paid.length ≤ 256 := by
    decide
  obtain ⟨⟨t, handles, b⟩, hx, hlt, hlen, hfree, hsketch, hfew⟩ := htrail
  obtain ⟨hclear, fs, life, htrack⟩ := start_life (P := Smooth) (R := fun _ => True) hsketch hfew
    (reliable_zeroed _ _)
  obtain ⟨s, life₁, -, htrack₁, -⟩ := life_exact (k := 1) hclear (fun _ _ h => h)
    (fun _ _ _ _ r _ hop _ _ _ => ⟨hop.inSession, r, rfl⟩) (by simp [Plays, Answers]) life
    (htrack.mono (by decide)) (orderly_fresh _) hx (List.prefix_refl _)
  obtain ⟨s₁, s₂, commits, mounts, -, htrack₂⟩ :=
    htrack₁.reopened (life₁.held fun _ h => ⟨h _, h _, h _⟩)
  refine ⟨_, s, s₁, s₂, life₁, commits, mounts, (htrack₂.undisturbed hclear).1,
    htrack₂.rep.free.symm.trans hfree, ?_⟩
  rw [htrack₂.rep.size (htrack₂.rep.cap ▸ hlt)]
  exact hlen

/-! ## Live ids -/

/-- Calls that keep the tree and its link counts, on ids that are handed out. -/
def Steered (env : Env) (s : Session) (op : Op) (out : Outcome) : Prop :=
  Settled env s op out ∧ ∀ id ∈ op.subjects, s.fs.InUse id

theorem nlink_of_counted {v : View} (h : Spec.Counted v) (id : Nat) (hd : (v.node id).isDir) :
    (v.node id).nlink ≠ 0 := by
  intro h0
  have hcount := h id hd
  rw [h0, UInt32.toNat_zero] at hcount
  omega

theorem steered_arranged (hl : env.Lawful)
    (life : Life env Cow.MetaSound (Steered env) (fun _ => True) born s)
    (hplay : InPlay env s.fs.dev.trace) :
    ∃ t, Rep env s.fs t ∧ (Arranged t.view s.handles ∧ Spec.Counted t.view) ∧ t.count = t.next := by
  have hcalls : Calls env (Steered env) (InPlay env) := calls_succeed fun _ _ _ hp => hp.1.1.1
  refine lift_life (J := fun _ v handles => Arranged v handles ∧ Spec.Counted v) hl hcalls
    (fun _ _ _ hp => hp.2) ⟨arranged_fresh env, counted_fresh env⟩
    (fun _ _ _ h => ⟨h.1.slots, _, h.1.linked⟩)
    (fun _ s t op out _ hp hrep hj => ?_) (fun _ s t _ _ _ hj hlev => ?_) life hplay
  · obtain ⟨ha, hcount⟩ := hj
    have hsp := hrep.spares hl ha.ready.neat ha.slots hp.1.1.2.2
    have hfair := fair_of_spares hrep ha hp.1.1.2.1 hsp
    refine ⟨apart_of_fair hfair, fun r v' hc => ⟨ha.step hfair hsp hc, ?_⟩⟩
    exact hc.counted ha.slots ha.linked hcount hsp (local_view hl hrep ha hp.1.2)
  · obtain ⟨ha, hcount⟩ := hj
    have hdirs := nlink_of_counted hcount
    exact ⟨⟨slots_reopen ha.slots ha.linked hdirs hlev, linked_reopen ha.slots ha.linked hdirs hlev,
      ha.tree⟩, hcount⟩

/-- The id is the root, or an entry of a directory found from the root names it. -/
def LiveId (env : Env) (s : FS) (id : Nat) : Prop :=
  id = s.ub.rootInode.toNat ∨ ∃ d, s.Reached env d ∧ ∃ e ∈ s.entriesOf env d, e.inode = id

theorem used_of_liveId (hl : env.Lawful) (hrep : Rep env s.fs t) (ha : Arranged t.view s.handles)
    (hroot : s.fs.ub.rootInode = 0) {id : Nat} (h : LiveId env s.fs id) : t.view.Used id := by
  rcases h with h | ⟨d, -, e, he, rfl⟩
  · rw [h, hroot]
    exact ha.slots.root.1
  · obtain ⟨hd, hdir, he⟩ := (hrep.mem_entriesOf hl ha.ready.neat).mp he
    exact (ha.linked.of_mem hd hdir (show ⟨e.name, e.inode⟩ ∈ (t.view.node d).entries from he)).1

/-- Over any number of sessions no live id is on the free list, and no call makes an
inode under a live id. -/
theorem live_ids_kept (hl : env.Lawful)
    (life : Life env Cow.MetaSound (Steered env) (fun _ => True) born s)
    (hplay : InPlay env s.fs.dev.trace) :
    (∀ id ∈ s.fs.freeInodes, ¬ LiveId env s.fs id) ∧
      ∀ op id s', op.Makes → perform env op s = (.ok (.id id), s') → InPlay env s'.fs.dev.trace →
        ¬ LiveId env s.fs id := by
  obtain ⟨t, hrep, ⟨ha, -⟩, -⟩ := steered_arranged hl life hplay
  have hroot := root_of_life life
  have hfree : t.view.free = s.fs.freeInodes := hrep.free
  refine ⟨fun id hid hlive => ?_, fun op id s' hop does hplay' hlive => ?_⟩
  · exact (used_of_liveId hl hrep ha hroot hlive).2 (hfree ▸ hid)
  · exact unused_of_made hl hrep ha.slots ha.linked hop does hplay'
      (used_of_liveId hl hrep ha hroot hlive)

theorem steered_of_tended (hl : env.Lawful) (s : Session) (t : State) (op : Op) (r : Reply)
    (hop : Plays op) (hrep : Rep env s.fs t) (hj : Orderly t.view s.handles)
    (h : Tended t.view op ∧ Yields t.view op ∧ Stays op) : Steered env s op (.ok r) :=
  ⟨settled_of_fair hl s t op r hop hrep hj ⟨h.1.1, h.2⟩,
    fun id hid => hrep.inUse.mpr (h.1.2 id hid)⟩

/-- A mount finds the id of a file that was unlinked, below a directory that it keeps. -/
theorem live_ids_kept_remount : ∃ born s,
    Life Env.plain Cow.MetaSound (Steered Env.plain) (fun _ => True) born s ∧
      InPlay Env.plain s.fs.dev.trace ∧ s.fs.freeInodes = [3] ∧ ¬ LiveId Env.plain s.fs 3 := by
  have htrail : ∃ x ∈ trail Env.plain (fun v op => Tended v op ∧ Yields v op ∧ Stays op)
      [.mkdir 0 "a", .mkdir 1 "b", .create 2 "c", .unlink 2 "c"] (fresh Env.plain) [],
      x.1.reopen.free = [3] ∧ Sketched x.1.paid ∧ x.1.paid.length ≤ 256 := by
    decide
  obtain ⟨⟨t, handles, b⟩, hx, hfree, hsketch, hfew⟩ := htrail
  obtain ⟨hclear, fs, life, htrack⟩ :=
    start_life (P := Steered Env.plain) (R := fun _ => True) hsketch hfew metaSound_smallDisk
  obtain ⟨s, life₁, -, htrack₁, -⟩ :=
    life_reopens (k := 0) hclear (fun _ h => h) (fun _ _ h => h.1.1)
    (fun _ s t op r _ => steered_of_tended Env.plain_lawful s t op r)
      (by simp [Plays, Answers]) life
    (htrack.mono (by decide)) (orderly_fresh _) hx (List.prefix_refl _) (fun _ _ _ => trivial)
  have hplay := (htrack₁.undisturbed hclear).1
  have hids : s.fs.freeInodes = [3] := htrack₁.rep.free.symm.trans hfree
  exact ⟨_, s, life₁, hplay, hids, (live_ids_kept Env.plain_lawful life₁ hplay).1 3
    (hids ▸ List.mem_cons_self)⟩

/-- The operation makes, moves or removes a name. -/
def renames : Op → Bool
  | .mkdir _ _ => true
  | .create _ _ => true
  | .symlink _ _ _ => true
  | .link _ _ _ => true
  | .unlink _ _ => true
  | .rmdir _ _ => true
  | .rename _ _ _ _ => true
  | _ => false

/-- Each directory that is moved into another one and removed there takes one of its
links.  After two of them a mount finds it free. -/
theorem mount_frees_live_directory : ∃ born s,
    Life Env.plain Disk.Reliable (fun s op out => Smooth s op out ∧ renames op)
    (fun _ => True) born s ∧
      InPlay Env.plain s.fs.dev.trace ∧ 1 ∈ s.fs.freeInodes ∧ LiveId Env.plain s.fs 1 := by
  have htrail : ∃ x ∈ trail Env.plain (fun v op => Fair v op ∧ renames op)
      [.mkdir 0 "b", .mkdir 0 "d", .rename 0 "d" 1 "d", .rmdir 1 "d", .mkdir 0 "d",
        .rename 0 "d" 1 "d", .rmdir 1 "d"] (fresh Env.plain) [],
      1 ∈ x.1.reopen.free ∧ 0 < x.1.cap ∧ (x.1.node 0).isDir ∧ ⟨"b", 1⟩ ∈ (x.1.node 0).entries ∧
        Sketched x.1.paid ∧ x.1.paid.length ≤ 256 := by
    decide
  obtain ⟨⟨t, handles, b⟩, hx, hfree, hcap, hdir, hname, hsketch, hfew⟩ := htrail
  obtain ⟨hclear, fs, life, htrack⟩ :=
    start_life (P := fun s op out => Smooth s op out ∧ renames op)
    (R := fun _ => True) hsketch hfew (reliable_zeroed _ _)
  obtain ⟨s, life₁, -, htrack₁, ho⟩ := life_reopens (k := 0) hclear (fun _ h => ⟨h _, h _, h _⟩)
    (fun _ _ h => h.1) (fun _ _ _ _ r _ hop _ _ h => ⟨⟨hop.inSession, r, rfl⟩, h.2⟩)
    (by simp [Plays, Answers]) life (htrack.mono (by decide)) (orderly_fresh _) hx
      (List.prefix_refl _)
    (fun _ _ _ => trivial)
  have hneat : Neat t.reopen := ho.ready.neat
  refine ⟨_, s, life₁, (htrack₁.undisturbed hclear).1, htrack₁.rep.free ▸ hfree,
    .inr ⟨0, ?_, ⟨"b", 1⟩, ?_, rfl⟩⟩
  · unfold FS.Reached
    rw [root_of_life (life₁.sound fun _ h => ⟨h _, h _, h _⟩)]
    exact .refl
  · exact (htrack₁.rep.mem_entriesOf Env.plain_lawful hneat).mpr ⟨hcap, hdir, hname⟩

end Runs
end BloomFS

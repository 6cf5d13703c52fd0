/-
The clusters of the device.

Within a session the set bits of the bitmap are the reserved clusters, those of the
dedup entries and the deferred ones. A commit writes the bitmap before it applies the
deferred frees. The mount that follows therefore finds the bitmap of the state in memory
only if nothing was deferred; otherwise the freed clusters stay in use, although no entry
covers them.
-/
import BloomFS.Fs.Partition
import BloomFS.Runs.Mounts

namespace BloomFS
namespace Runs

open Bytes Exec Block Dir Fs Store Spec Refine

variable {env : Env} {born : List (Nat × Nat)} {s s₁ s₂ : Session} {t : State}
  {P : Session → Op → Outcome → Prop}

/-! ## One session -/

/-- The clusters of a session are partitioned, with any operations failing or not and a
device that may fail. -/
theorem partitioned_of_run {past : List Session} (run : Run env (fun _ => True) inSession past s)
    (hfit : CountsFit env s.fs) : Partitioned s.fs :=
  partition_closed.of_run partition_commit (fun _ _ _ _ _ hm _ => hm.partitioned) run hfit

theorem used_le_of_partitioned {fs : FS} (h : Partitioned fs) : fs.bm.used ≤ fs.bm.total := by
  have hcount : fs.bm.used = Alloc.Bitmap.setBits fs.bm.bits fs.bm.total := h.counted
  rw [hcount]
  exact Alloc.Bitmap.setBits_le _ _

/-- In every state of a session, with any operations failing or not and a device
that may fail, the clusters are partitioned, and what is free or about to be is what the
dedup entries leave of the data area.  `statfs` reports that number, unless its count of
inodes underflows. -/
theorem space_partition {past : List Session} (run : Run env (fun _ => True) inSession past s)
    (hfit : CountsFit env s.fs) :
    Partitioned s.fs ∧ s.fs.bm.used = Alloc.Bitmap.setBits s.fs.bm.bits s.fs.bm.total ∧
      s.fs.bm.used ≤ s.fs.bm.total ∧
      s.fs.ub.dataStart.toNat + Space.entryClusters s.fs.ddt ≤ s.fs.bm.total ∧
      s.fs.bm.available + s.fs.bm.deferredCount =
        s.fs.bm.total - s.fs.ub.dataStart.toNat - Space.entryClusters s.fs.ddt ∧
      ((∃ st, s.fs.statfs = .ok st ∧ st.blocksFree =
          s.fs.bm.total - s.fs.ub.dataStart.toNat - Space.entryClusters s.fs.ddt) ↔
        s.fs.freeInodes.length ≤ s.fs.ub.nextInode.toNat ∧
          s.fs.ub.nextInode.toNat - s.fs.freeInodes.length ≤ s.fs.inodes.cap) := by
  have hp := partitioned_of_run run hfit
  have hused : s.fs.bm.used = s.fs.ub.dataStart.toNat + Space.entryClusters s.fs.ddt +
      s.fs.bm.deferredCount := hp.used
  have hle := used_le_of_partitioned hp
  have hfree : s.fs.bm.available + s.fs.bm.deferredCount =
      s.fs.bm.total - s.fs.ub.dataStart.toNat - Space.entryClusters s.fs.ddt := by
    rw [Alloc.Bitmap.available]
    omega
  refine ⟨hp, hp.counted, hle, by omega, hfree, ?_⟩
  simp only [FS.statfs_ok_iff]
  constructor
  · rintro ⟨st, ⟨hids, -, hcap, -⟩, -⟩
    exact ⟨hids, hcap⟩
  · rintro ⟨hids, hcap⟩
    exact ⟨_, ⟨hids, hle, hcap, rfl⟩, hfree⟩

theorem countsFit_of_inPlay {fs : FS} (h : InPlay env fs.dev.trace) : CountsFit env fs :=
    fun b hb c _ =>
  clusters_lt (lt_of_le_of_lt (length_payloadOf_le b c) (h.short b hb))

/-- A file that was written, committed and emptied, and another that is gone. -/
theorem space_partition_emptied : ∃ past s,
    Run Env.plain (fun _ => True) inSession past s ∧ CountsFit Env.plain s.fs ∧
      s.fs.ub.nextInode = 3 ∧ s.fs.freeInodes = [2] ∧ s.fs.bm.used ≤ s.fs.bm.total ∧
      ∃ st, s.fs.statfs = .ok st ∧ st.blocksFree =
        s.fs.bm.total - s.fs.ub.dataStart.toNat - Space.entryClusters s.fs.ddt := by
  have hscript : ∃ x ∈ script Env.plain Fair
      [.create 0 "a", .writeFile 1 [7], .create 0 "b", .writeFile 2 [8], .commit, .truncate 1 0,
        .unlink 0 "b"] (fresh Env.plain) [],
      x.1.next = 3 ∧ x.1.free = [2] ∧ x.1.cap = 4096 ∧ Sketched x.1.paid ∧
        x.1.paid.length ≤ 256 := by
    decide
  obtain ⟨⟨t, handles⟩, hx, hnext, hfree, hcap, hsketch, hfew⟩ := hscript
  obtain ⟨hclear, past, s, run, -, htrack, -⟩ :=
    run_script (D := fun _ => True) (P := inSession) trivial
    (fun _ _ h => h) (fun _ _ _ _ _ _ hop _ _ _ => hop.inSession) (by simp [Plays, Answers])
      (by decide) hx
    hsketch hfew
  have hfit := countsFit_of_inPlay (htrack.undisturbed hclear).1
  have hids : s.fs.ub.nextInode.toNat = 3 := htrack.rep.next.symm.trans hnext
  have hlist : s.fs.freeInodes = [2] := htrack.rep.free.symm.trans hfree
  have hslots : s.fs.inodes.cap = 4096 := htrack.rep.cap.symm.trans hcap
  obtain ⟨-, -, hle, -, -, hstat⟩ := space_partition run hfit
  refine ⟨past, s, run, hfit, UInt64.toNat_inj.mp hids, hlist, hle, hstat.mpr ?_⟩
  rw [hids, hlist, hslots]
  decide

/-- A file is unlinked, and its id is opened and closed twice more.  Then the free list is
longer than the ids that were handed out, and `statfs` panics. -/
theorem statfs_panics : ∃ past s, Run Env.plain Disk.Reliable Smooth past s ∧
    CountsFit Env.plain s.fs ∧ s.fs.ub.nextInode = 2 ∧ s.fs.freeInodes = [1, 1, 1] ∧
      s.fs.statfs = .error .panic := by
  have hscript : ∃ x ∈ script Env.plain Fair [.create 0 "a", .unlink 0 "a"] (fresh Env.plain) [],
      ∃ y ∈ script Env.plain (fun _ op => mild op)
        [.openFile 1, .close 0, .openFile 1, .close 1] x.1 x.2,
        y.1.next = 2 ∧ y.1.free = [1, 1, 1] ∧ Sketched y.1.paid ∧ y.1.paid.length ≤ 256 := by
    decide
  obtain ⟨⟨t₁, h₁⟩, hx, ⟨t₂, h₂⟩, hy, hnext, hfree, hsketch, hfew⟩ := hscript
  have hP : ∀ (s : Session) (op : Op) (r : Reply), Plays op → Smooth s op (.ok r) :=
    fun _ _ r hop => ⟨hop.inSession, r, rfl⟩
  obtain ⟨hclear, fs, run, h⟩ := start_track (P := Smooth) hsketch hfew (reliable_zeroed _ _)
  obtain ⟨past₁, s₁, run₁, rfl, h, hj⟩ := fair_exact (k := 4) hclear (fun _ _ h => h)
    (fun _ s _ op r _ hop _ _ _ => hP s op r hop) (by simp [Plays, Answers]) run
    (h.mono (by decide)) (orderly_fresh _) hx (script_grows hy)
  obtain ⟨past₂, s₂, run₂, -, h, -⟩ := mild_exact (k := 0) hclear (fun _ _ h => h)
    (fun _ s _ op r _ hop _ _ _ => hP s op r hop) (by simp [Plays, Answers]) run₁
    (h.mono (by decide)) hj.ready hy (List.prefix_refl _)
  have hids : s₂.fs.ub.nextInode.toNat = 2 := h.rep.next.symm.trans hnext
  have hlist : s₂.fs.freeInodes = [1, 1, 1] := h.rep.free.symm.trans hfree
  refine ⟨past₂, s₂, run₂, countsFit_of_inPlay (h.undisturbed hclear).1, UInt64.toNat_inj.mp hids,
    hlist, ?_⟩
  rw [FS.statfs, hids, hlist]
  rfl

/-! ## Mounts -/

/-- Nothing was freed since the last commit. -/
def Swept (s : Session) : Prop := s.fs.bm.deferred = []

/-- A mount after a commit with nothing deferred finds a partitioned device. -/
theorem partitioned_reopen {fs fs₁ fs₂ : FS} (hheld : Fs.Held env fs) (hp : Partitioned fs)
    (hsw : fs.bm.deferred = []) (hc : Committed env fs fs₁) {key : Option Bytes}
    {ticks orders : Nat}
    (hm : mount env key ticks orders fs₁.dev = .ok fs₂) : Partitioned fs₂ := by
  obtain ⟨r, bs, -, rfl, hreads⟩ := hheld.reload hc hm
  have hsp : Space _ _ (mounted fs₁.dev bs ticks orders r).pool :=
    Space.of_reload hp hreads.counted hreads.total hreads.deferred hreads.bits hreads.ddt
  have hub : r.1.dataStart = fs.ub.dataStart := by
    rw [hreads.ub]
    rfl
  show Space r.1.dataStart.toNat _ _
  rw [hub]
  refine hsp.of_lost fun i => ⟨?_, False.elim⟩
  rintro (hno | ⟨r, hr, -⟩)
  · exact hno
  · rw [show fs.pool.bm.deferred = _ from hsw] at hr
    cases hr

theorem swept_partitioned (life : Life env Cow.MetaSound P Swept born s) :
    CountsFit env s.fs → Partitioned s.fs := by
  induction life with
  | start blank _ run =>
    exact partition_closed.of_format partition_commit blank run fun s hs _ => hs.partitioned
  | call _ does hop _ ih => exact partition_closed.of_perform partition_commit hop does ih
  | @reopen born s s₁ s₂ life commits mounts hr ih =>
    intro hfit
    obtain ⟨hrun, -⟩ := perform_commit commits ⟨_, rfl⟩
    obtain ⟨hmount, -⟩ := perform_remount mounts
    obtain ⟨r, bs, -, -, hfs⟩ := mount_ok hmount
    have hpre : s.fs.dev.trace <+: s₂.fs.dev.trace := by
      rw [hfs]
      exact trace_grows (show Op.InSession .commit from trivial) commits
    exact partitioned_reopen (life.held fun _ h => h) (ih (hfit.of_prefix hpre)) hr
      ((commit_sat s.fs).ok hrun) hmount

/-- After a commit with nothing deferred a mount finds the bitmap that is in memory,
and its set bits are the reserved clusters and those of the committed entries. -/
theorem mount_finds_bitmap (life : Life env Cow.MetaSound P Swept born s)
    (hfit : CountsFit env s.fs)
    (hsw : Swept s) (commits : perform env .commit s = (.ok .unit, s₁)) :
    ∃ s₂, perform env (.remount s.fs.bs.key) s₁ = (.ok .unit, s₂) ∧
      s₂.fs.bm.total = s₁.fs.bm.total ∧
      ∀ i, i < s₁.fs.bm.total → s₂.fs.bm.bits i = s₁.fs.bm.bits i ∧
        (s₂.fs.bm.bits i = true ↔ i < s₁.fs.ub.dataStart.toNat ∨ Owned s₁.fs.ddt i) := by
  have hheld := life.held fun _ h => h
  have hp : Space _ _ s.fs.pool := swept_partitioned life hfit
  obtain ⟨hrun, -⟩ := perform_commit commits ⟨_, rfl⟩
  have hc := (commit_sat s.fs).ok hrun
  obtain ⟨fs, hmount⟩ := hheld.mounts hc s₁.fs.ticks s₁.fs.orders
  obtain ⟨r, bs, -, hfs, hreads⟩ := hheld.reload hc hmount
  have hsame : s₁.fs.bm = s.fs.bm := by
    rw [hc.bm]
    exact Alloc.Bitmap.applyDeferred_nil hsw
  refine ⟨⟨fs, []⟩, perform_of_mount hmount, ?_, fun i hi => ?_⟩
  · rw [hsame, hfs]
    exact hreads.total
  · rw [hsame] at hi ⊢
    have hbit : fs.bm.bits i = s.fs.bm.bits i := by
      rw [hfs]
      exact hreads.bits i hi
    have hds : s₁.fs.ub.dataStart = s.fs.ub.dataStart := by
      rw [hc.ub]
      rfl
    have hddt : s₁.fs.ddt = s.fs.ddt := by rw [hc.rest]
    refine ⟨hbit, ?_⟩
    show fs.bm.bits i = true ↔ _
    rw [hbit, hds, hddt]
    refine (hp.bits i hi).trans (or_congr_right ⟨?_, .inl⟩)
    rintro (hown | ⟨q, hq, -⟩ | hno)
    · exact hown
    · rw [show s.fs.pool.bm.deferred = _ from hsw] at hq
      cases hq
    · exact hno.elim

/-- Of two commits in a row the second has nothing to free. -/
theorem mount_finds_bitmap_twice : ∃ born s s₁ s₂,
    Life Env.plain Cow.MetaSound (Valid Env.plain) Swept born s ∧ CountsFit Env.plain s.fs ∧
    Swept s ∧
      perform Env.plain .commit s = (.ok .unit, s₁) ∧
      perform Env.plain (.remount s.fs.bs.key) s₁ = (.ok .unit, s₂) ∧
      ∀ i, i < s₁.fs.bm.total → s₂.fs.bm.bits i = s₁.fs.bm.bits i := by
  have htrail : ∃ x ∈ trail Env.plain Tended [.create 0 "a", .writeFile 1 [7], .truncate 1 0]
    (fresh Env.plain) [], Sketched x.1.paid ∧ x.1.paid.length ≤ 256 := by
    decide
  obtain ⟨⟨t, handles, b⟩, hx, hsketch, hfew⟩ := htrail
  obtain ⟨hclear, fs, life, htrack⟩ := start_life (P := Valid Env.plain) (R := Swept) hsketch hfew
    metaSound_smallDisk
  obtain ⟨s, life₁, -, htrack₁, -⟩ := life_exact (k := 2) hclear (fun _ _ h => h.1)
    (fun _ s t op r _ => valid_of_tended Env.plain_lawful s t op r) (by simp [Plays, Answers]) life
    (htrack.mono (by decide)) (orderly_fresh _) hx (List.prefix_refl _)
  obtain ⟨s', commits, -, htrack₂⟩ := htrack₁.committed
  have life₂ := life₁.call commits (show Op.InSession .commit from trivial)
    ⟨trivial, .inl ⟨_, rfl⟩, fun _ he => (by cases he), fun _ hid => (by cases hid), trivial⟩
  obtain ⟨s₁, commits₁, -, htrack₃⟩ := htrack₂.committed
  have hsw : Swept s' := by
    have hc := (commit_sat s.fs).ok (perform_commit commits ⟨_, rfl⟩).1
    have hcounted := (swept_partitioned life₁
      (countsFit_of_inPlay (htrack₁.undisturbed hclear).1)).counted
    unfold Swept
    rw [hc.bm]
    exact (Alloc.Bitmap.applyDeferred_spec hcounted).2.1
  have hfit := countsFit_of_inPlay (htrack₂.undisturbed hclear).1
  obtain ⟨s₂, mounts, -, hbits⟩ := mount_finds_bitmap life₂ hfit hsw commits₁
  exact ⟨_, s', s₁, s₂, life₂, hfit, hsw, commits₁, mounts, fun i hi => (hbits i hi).1⟩

/-! ## A cluster that stays in use -/

theorem backed_closed (k : Dedup.Key) :
    Closed env (fun s => .refused ∈ s.dev.trace ∨ Backed k s.pool) where
  other s s' h hs := by
    have hp : s'.pool = s.pool := by simp only [FS.pool, h.dev, h.bm, h.ddt]
    rw [h.dev, hp]
    exact hs
  write b s hs := (storeWrite_sat b s).mono
    (fun r s' ⟨_, hw⟩ => by
      obtain ⟨es, hx, -⟩ := hw.extends
      exact hs.imp (fun hr => (after_of_extends hx).subset hr) hw.backed)
    (fun e s' ⟨_, e', _, hw⟩ => by
      obtain ⟨es, hx, -⟩ := hw.extends
      exact hs.imp (fun hr => (after_of_extends hx).subset hr) hw.backed)
  release r s hs := (storeRelease_sat r s).mono
    (fun _ s' ⟨_, hr⟩ => by
      have hdev : s'.dev = s.dev := Released.dev_eq hr
      exact hs.imp (fun h => hdev ▸ h) hr.backed)
    (fun _ s' h => h.2.1 ▸ hs)
  autoCommit := fun s _ => sat_modify_bind
    ((lasting_commit refused_lasting (refuse s) (mem_refuse s)).mono
    (fun _ _ h => .inl h) (fun _ _ h => .inl h))
  refuse s _ := .inl (mem_refuse s)

theorem hashed_of_names (hl : env.Lawful) {fs : FS} {T : Multiset Dedup.Key} (h : Stocked env fs T)
    {r : Ref}
    {b : Bytes} (hn : Names env fs r b) : .hash b ∈ fs.dev.trace ∧ env.blake3 b = r.hash := by
  obtain ⟨e, he, hr, hst⟩ := hn
  obtain ⟨b', hb', hst'⟩ := h.stock.stored r.hash e he
  have heq : b = b' := Names.unique hl ⟨e, he, hr, hst⟩ ⟨e, he, hr, hst'⟩
  exact ⟨heq ▸ hb', hst.key⟩

/-- The block of a file of one record is in the store. -/
theorem backed_of_small (hl : env.Lawful) (hrep : Rep env s.fs t) {id : Nat} (hid : id < t.cap)
    (hne : (t.node id).blob ≠ []) (hsmall : (t.node id).blob.length ≤ 4096) :
    .hash (t.node id).blob ∈ s.fs.dev.trace ∧ Backed (env.blake3 (t.node id).blob) s.fs.pool := by
  obtain ⟨refs, lost, hf, -⟩ := hrep.filled
  have hlaid := hf.laid id (hrep.cap ▸ hid)
  have hsize : (s.fs.inodes.slots id).size ≠ 0 := fun h0 => hne (hlaid.blob_eq_nil_iff.mpr h0)
  have hrec := hlaid.records hsize
  have hle : 2 ^ 12 ≤ 2 ^ (s.fs.inodes.slots id).recordSizeLog2.toNat :=
    Nat.pow_le_pow_right (by decide) (hlaid.log2 hsize).1
  rw [splitRecords_small (hsmall.trans hle) hne] at hrec
  obtain ⟨r, _, hgood, -, -⟩ := List.forall₂_cons_right_iff.mp hrec
  obtain ⟨htrace, hkey⟩ := hashed_of_names hl hf.stocked hgood
  obtain ⟨e, he, -, hst⟩ := hgood
  exact ⟨htrace, .inl ⟨e, by rw [hkey]; exact he, hst.count_ne_zero⟩⟩

/-- A block in the store is a record of some inode or the list of its records. -/
theorem block_of_tracked (hl : env.Lawful) (hrep : Rep env s.fs t) (hclean : t.clean = true)
    (hplay : InPlay env s.fs.dev.trace) {b : Bytes} (hb : .hash b ∈ s.fs.dev.trace)
    {e : Dedup.Entry}
    (he : s.fs.ddt.lookup (env.blake3 b) = some e) :
    ∃ id < t.cap, (t.node id).blob ≠ [] ∧
      ((∃ n, 12 ≤ n ∧ b ∈ splitRecords (t.node id).blob (2 ^ n)) ∨ ∃ refs,
        b = encodeRefs refs) := by
  obtain ⟨refs, lost, hf, hlost⟩ := hrep.filled
  have hst := hf.stocked
  rw [hlost.mp hclean, add_zero] at hst
  have hmem : env.blake3 b ∈ total s.fs.inodes refs := hst.stock.mem_of_lookup he
  obtain ⟨id, hid, hk⟩ := Multiset.mem_sum.mp hmem
  have hlt := Finset.mem_range.mp hid
  have hlaid := hf.laid id hlt
  have hne : (t.node id).blob ≠ [] := by
    intro h0
    rw [hlaid.tokens_eq_zero_iff.mpr h0] at hk
    exact Multiset.notMem_zero _ hk
  have hsize : (s.fs.inodes.slots id).size ≠ 0 := fun h0 => hne (hlaid.blob_eq_nil_iff.mpr h0)
  obtain ⟨r, hr, hrk⟩ := List.mem_map.mp (Multiset.mem_coe.mp hk)
  have hsame : ∀ c, Names env s.fs r c → c = b := fun c hc => by
    obtain ⟨htr, hkey⟩ := hashed_of_names hl hst hc
    exact hplay.inj c b htr hb (hkey.trans hrk)
  obtain ⟨c, hgood, hc⟩ := hlaid.good_of_mem hr
  rw [hsame c hgood] at hc
  exact ⟨id, hrep.cap ▸ hlt, hne, hc.imp (fun h => ⟨_, (hlaid.log2 hsize).1, h⟩) fun h => ⟨_, h⟩⟩

/-- A block too short for a list of records is not in the store if every file is one
longer record. -/
theorem untracked_of_short (hl : env.Lawful) (hrep : Rep env s.fs t) (hclean : t.clean = true)
    (hplay : InPlay env s.fs.dev.trace) {b : Bytes} (hb : .hash b ∈ s.fs.dev.trace)
    (hshort : b.length < 4)
    (hlong : ∀ id < t.cap, (t.node id).blob ≠ [] →
      b.length < (t.node id).blob.length ∧ (t.node id).blob.length ≤ 4096) :
    s.fs.ddt.lookup (env.blake3 b) = none := by
  cases he : s.fs.ddt.lookup (env.blake3 b) with
  | none => rfl
  | some e =>
    obtain ⟨id, hid, hne, ⟨n, hn, hm⟩ | ⟨refs, rfl⟩⟩ := block_of_tracked hl hrep hclean hplay hb he
    · obtain ⟨hlt, hle⟩ := hlong id hid hne
      have hpow : 2 ^ 12 ≤ 2 ^ n := Nat.pow_le_pow_right (by decide) hn
      rw [splitRecords_small (hle.trans hpow) hne, List.mem_singleton] at hm
      rw [hm] at hlt
      exact absurd hlt (lt_irrefl _)
    · rw [length_encodeRefs] at hshort
      omega

theorem deferred_of_dropped {op : Op} (hop : Answers op) {out : Outcome} {k : Dedup.Key}
    (does : perform env op s = (out, s₁)) (hb : Backed k s.fs.pool)
    (href : .refused ∉ s₁.fs.dev.trace)
    (hgone : s₁.fs.ddt.lookup k = none) : ∃ r ∈ s₁.fs.bm.deferred, r.count ≠ 0 := by
  have hkeep : .refused ∈ s₁.fs.dev.trace ∨ Backed k s₁.fs.pool := by
    rw [perform_eq_call (inSession_of_answers hop), call, execOf_eq_actOf hop] at does
    have hk := (actOf env s.handles op).2 _ (backed_closed k)
    cases hr : (actOf env s.handles op).1 s.fs with
    | ok r fs =>
      rw [hr] at does
      cases does
      exact hk.ok (.inr hb) hr
    | error f fs =>
      rw [hr] at does
      cases does
      exact hk.error (.inr hb) hr
  rcases hkeep with hno | ⟨e, he, -⟩ | h
  · exact absurd hno href
  · cases hgone.symm.trans he
  · exact h

/-- A commit frees what was deferred, after the bitmap was written. -/
theorem freed_of_deferred {fs fs₁ : FS} {ds : Nat} {L : Nat → Prop} (hsp : Space ds L fs.pool)
    {r : Alloc.FreeRange} (hr : r ∈ fs.bm.deferred) (hpos : r.count ≠ 0)
    (hc : Committed env fs fs₁) :
    r.start < fs.bm.total ∧ fs₁.bm.total = fs.bm.total ∧ fs₁.bm.bits r.start = false ∧
      fs.bm.bits r.start = true ∧ ds ≤ r.start ∧ ¬ Owned fs.ddt r.start := by
  obtain ⟨hds, hin⟩ := hsp.deferred_in r hr
  have hcov : r.Covers r.start := ⟨le_rfl, by omega⟩
  obtain ⟨htot, -, -, hbits⟩ := Alloc.Bitmap.applyDeferred_spec hsp.counted
  have hlt : r.start < fs.bm.total := by
    show r.start < fs.pool.bm.total
    omega
  refine ⟨hlt, ?_, ?_, (hsp.bits _ hlt).mpr (.inr (.inr (.inl ⟨r, hr, hcov⟩))), hds,
    hsp.apart r hr _ hcov⟩
  · rw [hc.bm]
    exact htot
  · rw [hc.bm, Bool.eq_false_iff]
    intro hbit
    exact ((hbits r.start).mp hbit).2 hlt ⟨r, hr, hcov⟩

theorem trail_tidy (hl : env.Lawful) {ops : List Op} {t t' : State} {handles handles' : List Handle}
    {b : List (Nat × Nat)} (hops : ∀ op ∈ ops, Answers op)
    (h : trail env Tended ops t handles = some (t', handles', b)) (ho : Orderly t.view handles)
    (ht : Tidy t.view) : Orderly t'.view handles' ∧ Tidy t'.view := by
  induction ops generalizing t handles b with
  | nil =>
    cases h
    exact ⟨ho, ht⟩
  | cons op ops ih =>
    obtain ⟨hC, r, t₁, b₁, hrun, hrest, -⟩ := trail_cons h
    have hchange := (planOf_change hl ho.ready (hops op List.mem_cons_self)).ok hrun
    obtain ⟨ho₁, ht₁⟩ := hC.step ho ht hchange
    exact ih (fun op hop => hops op (List.mem_cons_of_mem _ hop)) hrest ho₁ ht₁

/-- The clusters of a file that was emptied before the commit are free in memory and in
use after the mount. -/
theorem mount_keeps_freed : ∃ born s s₁ s₂,
    Life Env.plain Disk.Reliable Smooth (fun _ => True) born s ∧
      perform Env.plain .commit s = (.ok .unit, s₁) ∧
      perform Env.plain (.remount s.fs.bs.key) s₁ = (.ok .unit, s₂) ∧
        InPlay Env.plain s₂.fs.dev.trace ∧
      ∃ i < s₁.fs.bm.total, s₁.fs.bm.bits i = false ∧ s₂.fs.bm.bits i = true ∧
        s₁.fs.ub.dataStart.toNat ≤ i ∧ ¬ Owned s₂.fs.ddt i := by
  have htrail : ∃ x ∈ trail Env.plain Tended [.create 0 "a", .writeFile 1 [7]] (fresh Env.plain) [],
      1 < x.1.cap ∧ (x.1.node 1).blob = [7] ∧
      ∃ y ∈ trail Env.plain Tended [.truncate 1 0] x.1 x.2.1,
        y.1.next = 2 ∧ (y.1.node 0).blob.length = 4096 ∧ (y.1.node 1).blob = [] ∧
        Sketched y.1.paid ∧
          y.1.paid.length ≤ 256 := by
    decide +kernel
  obtain ⟨⟨t₁, h₁, b₁⟩, hx, hlt, hblob, ⟨t₂, h₂, b₂⟩, hy, hnext, hroot, hempty, hsketch, hfew⟩ :=
    htrail
  obtain ⟨hclear, fs, life, htrack⟩ := start_life (P := Smooth) (R := fun _ => True) hsketch hfew
    (reliable_zeroed _ _)
  obtain ⟨s₁, life₁, hh, htrack₁, ho⟩ := life_exact (k := 1) hclear (fun _ _ h => h.1)
    (fun _ _ _ _ r _ hop _ _ _ => ⟨hop.inSession, r, rfl⟩) (by simp [Plays, Answers]) life
    (htrack.mono (by decide)) (orderly_fresh _) hx (trail_grows hy)
  obtain ⟨hsum, hkept⟩ := backed_of_small Env.plain_lawful htrack₁.rep hlt (hblob ▸ by decide)
    (hblob ▸ by decide)
  rw [hblob] at hsum hkept
  obtain ⟨ho₁, ht₁⟩ := trail_tidy Env.plain_lawful (by simp [Answers]) hx (orderly_fresh _)
    (tidy_fresh _)
  obtain ⟨ho₂, ht₂⟩ := trail_tidy Env.plain_lawful (by simp [Answers]) hy ho₁ ht₁
  obtain ⟨hC, r, t, b, hrun, hrest, -⟩ := trail_cons hy
  have hans : Answers (.truncate 1 0) := trivial
  cases hrest
  subst hh
  obtain ⟨s, does, -, htrack₂⟩ := htrack₁.act hclear ho.ready hans (apart_of_fair hC.1) hrun
    (List.prefix_refl _)
  have life₂ := life₁.call does trivial ⟨trivial, _, rfl⟩
  obtain ⟨hplay, href⟩ := htrack₂.undisturbed hclear
  have hsum₂ : .hash [7] ∈ s.fs.dev.trace :=
    (trace_grows (inSession_of_answers hans) does).subset hsum
  have hgone : s.fs.ddt.lookup (Env.plain.blake3 [7]) = none := by
    refine untracked_of_short Env.plain_lawful htrack₂.rep ht₂.clean hplay hsum₂ (by decide)
      fun id _ hne => ?_
    -- only the root directory has contents
    rcases Nat.lt_or_ge id 2 with hlt | hge
    · have hid : id = 0 := by
        by_contra hid
        obtain rfl : id = 1 := by omega
        exact hne hempty
      rw [hid, hroot]
      decide
    · obtain ⟨g, hblank⟩ := ht₂.blank id fun hu => absurd (hnext ▸ hu.1) (not_lt.mpr hge)
      exact absurd (congrArg Outline.blob hblank) hne
  obtain ⟨r, hr, hpos⟩ := deferred_of_dropped hans does hkept href hgone
  have hheld := life₂.held fun _ h => ⟨h _, h _, h _⟩
  obtain ⟨s₂, s₃, commits, mounts, -, htrack₃⟩ := htrack₂.reopened hheld
  have hc := (commit_sat s.fs).ok (perform_commit commits ⟨_, rfl⟩).1
  obtain ⟨refs, lost, hf, -⟩ := htrack₂.rep.filled
  obtain ⟨L, hsp⟩ := hf.stocked.stock.space
  obtain ⟨hin, htot, hfree, hset, hds, hown⟩ := freed_of_deferred hsp hr hpos hc
  obtain ⟨q, bs, -, hfs, hreads⟩ := hheld.reload hc (perform_remount mounts).1
  refine ⟨_, s, s₂, s₃, life₂, commits, mounts, (htrack₃.undisturbed hclear).1, r.start, htot ▸ hin,
    hfree, ?_, ?_, ?_⟩
  · rw [hfs]
    exact (hreads.bits _ hin).trans hset
  · rw [hc.ub]
    exact hds
  · rw [hfs]
    rintro ⟨k, e, he, hcov⟩
    exact hown ⟨k, e, (hreads.ddt k).symm.trans he, hcov⟩

end Runs
end BloomFS

/-
Commits that fail, and commits after them.

The device may fail any write or sync of a commit.  A write that fails leaves the old
block, the new one or a torn one, and a sync that fails may lose what was written since
the sync before it.  The file system goes on with the uberblock it had, so the next
attempt has the same sequence number and the same metadata slot.  This is safe as long as
the failed attempt did not leave its uberblock on the device.  If it did, the next attempt
overwrites the tables of the uberblock that a mount will find.
-/
import BloomFS.Cow.History

namespace BloomFS
namespace Cow

open Bytes Exec Block

/-- An attempt to record `a` after the uberblock `u` that returns an error, and the calls it
makes. -/
structure Fails (env : Env) (d : Disk) (u : Uberblock) (a : Commit) (d' : Disk)
    (es : List Event) : Prop where
  run : ∃ root next scratch e s', a.ub = withLens (u.successor root next) a.bm a.ddt a.tbl ∧
    commit env u a.ddt a.tbl root next ⟨d, a.bm, scratch⟩ = .error (.err e) s' ∧ s'.dev = d'
  trace : d'.trace = d.trace ++ es

/-- What the calls `es` leave when the last of them fails: each block as it is after them, or
as it was at some point since the last sync before that. -/
def Survives (image : Nat → Bytes) (es : List Event) (image' : Nat → Bytes) : Prop :=
  ∃ k, (∀ j, k ≤ j → j + 1 < es.length → es[j]? ≠ some .sync) ∧
    ∀ n, image' n = replay image es n ∨ image' n = replay image (es.take k) n

/-- `Tries env L d u c as`: on the disk `d` the uberblock in memory is `u`, `c` is the last
commit that succeeded and `as` are the attempts that failed since.  Each attempt has its own
faults, and `L` is what every attempt finds when it starts.  A crash inside an attempt is
an attempt that fails at that call. -/
inductive Tries (env : Env) (L : Uberblock → (Nat → Bytes) → Prop) :
    Disk → Uberblock → Commit → List Commit → Prop
  | format {n : Nat} (h : n < 2 ^ 64) {inodes reserve : Nat} {u : Uberblock} {d : Disk}
      (run : format env inodes reserve (Disk.zeroed n h) = .ok u d)
      (hsmall : Small ((Alloc.Bitmap.new n).reserve 0 u.dataStart.toNat) .new
        (.new u.inodeCount.toNat)) :
      Tries env L d u
        ⟨u, (Alloc.Bitmap.new n).reserve 0 u.dataStart.toNat, .new, .new u.inodeCount.toNat⟩ []
  -- reads, and writes of data clusters
  | data {d d' : Disk} {u : Uberblock} {c : Commit} {as : List Commit}
      (tries : Tries env L d u c as)
      (blocks : d'.blocks = d.blocks) (kept : ∀ n, n < u.dataStart.toNat → d'.image n = d.image n) :
      Tries env L d' u c as
  | ok {d d' : Disk} {u : Uberblock} {c c' : Commit} {as : List Commit} {es : List Event}
      (fault : Call → Nat → Option (Option Bytes)) (tries : Tries env L d u c as)
      (start : L u d.image)
      (hcap : c'.tbl.cap = c.ub.inodeCount.toNat) (hsmall : Small c'.bm c'.ddt c'.tbl)
      (run : Commits env { d with fault := fault } u c' d' es) : Tries env L d' c'.ub c' []
  | err {d d' : Disk} {u : Uberblock} {c a : Commit} {as : List Commit} {es : List Event}
      {image : Nat → Bytes} (fault : Call → Nat → Option (Option Bytes))
      (tries : Tries env L d u c as)
      (start : L u d.image) (hcap : a.tbl.cap = c.ub.inodeCount.toNat)
        (hsmall : Small a.bm a.ddt a.tbl)
      (run : Fails env { d with fault := fault } u a d' es) (survives : Survives d.image es image)
      (torn : Leaves env .uber (d.image ((u.seq.toNat + 1) % 2)) (a.ub.marshalBinary env)
        (image ((u.seq.toNat + 1) % 2))) :
      Tries env L { d' with image := image } u c (a :: as)

/-- The uberblock slot that comes after `u` holds nothing newer. -/
def NotFlipped (env : Env) (u : Uberblock) (image : Nat → Bytes) : Prop :=
  ∀ v, parseUber env (image ((u.seq.toNat + 1) % 2)) = .ok v → v.seq.toNat < u.seq.toNat

/-! ## The calls of a failed attempt -/

section Calls

variable {env : Env}

theorem writeUber_writes (u : Uberblock) (s : CommitState) :
    Sat (writeUber env u) s (fun _ _ => True)
      (fun _ s' => ∃ es, Disk.Extends s.dev s'.dev es ∧ ∀ o n b, .write o n b ∈ es →
        n = u.seq.toNat % 2) := by
  unfold writeUber
  refine sat_bind (onDev_writeBlock_sat .uber (u.seq.toNat % 2) _ s) ?_ ?_
  · rintro - s₁ ⟨-, hx₁⟩
    refine Sat.mono (onDev_sync_sat s₁) (fun _ _ _ => trivial) ?_
    rintro e s₂ ⟨-, hx₂, -⟩
    refine ⟨_, hx₁.trans hx₂, ?_⟩
    intro o n b hm
    simp only [List.cons_append, List.nil_append, List.mem_cons, List.not_mem_nil, or_false,
      reduceCtorEq] at hm
    injection hm
  · rintro e s₁ ⟨-, es, hx₁, hes, -⟩
    refine ⟨es, hx₁, ?_⟩
    intro o n b hm
    obtain ⟨b', hb⟩ := hes _ hm
    injection hb

/-- The calls of an attempt that fails: it stops before its uberblock, or its snapshot is
written and synced and it fails at the uberblock. -/
theorem commit_fails (prev : Uberblock) (ddt : Dedup.Table) (tbl : Inode.Table) (root next : UInt64)
    (s : CommitState) :
    Sat (commit env prev ddt tbl root next) s (fun _ _ => True)
      (fun _ s' => ∃ es, Disk.Extends s.dev s'.dev es ∧
        ((∀ n b, .write .uber n b ∉ es) ∨
          prev.CanAdvance ∧ Fits prev s.bm ddt tbl ∧ ∃ tail fs,
            prev.metaBlocks.toNat * blk ≤ (tables s.bm ddt tbl ++ tail).length ∧ fs ≠ [] ∧
            es = beforeFlip (prev.successor root next) (tables s.bm ddt tbl ++ tail) ++ fs ∧
            ∀ o n b, .write o n b ∈ fs → n = (prev.successor root next).seq.toNat % 2)) := by
  unfold commit
  refine sat_ite (fun _ => sat_panic ⟨[], Disk.Extends.refl _, .inl nofun⟩) fun hseq =>
    sat_ite (fun _ => sat_panic ⟨[], Disk.Extends.refl _, .inl nofun⟩) fun hact => ?_
  have hadv : prev.CanAdvance := ⟨by omega, by omega⟩
  refine sat_bind (Q := fun _ _ => True) ?_ (fun _ _ _ => sat_modify_bind (sat_pure trivial))
    (fun _ _ h => h)
  unfold writeCommit
  refine sat_bind (writeSnapshot_sat (prev.successor root next) ddt tbl s) ?_ ?_
  · rintro u' s₁ ⟨rfl, hfits, -, tail, hlen, hx⟩
    refine sat_bind (writeUber_writes _ s₁) (fun _ _ _ => sat_pure trivial) ?_
    rintro f s₂ ⟨fs, hx₂, hfs⟩
    refine ⟨_, hx.trans hx₂, ?_⟩
    by_cases hnil : fs = []
    · subst hnil
      rw [List.append_nil]
      exact .inl (uber_notMem_beforeFlip _ _)
    · exact .inr ⟨hadv, hfits, tail, fs, hlen, hnil, rfl, hfs⟩
  · rintro f s₁ ⟨-, es, hx, hes, -⟩
    exact ⟨es, hx, .inl fun n b hm => (hes _ hm).2 n b rfl⟩

end Calls

/-! ## One attempt -/

section Step

variable {env : Env} {d d' : Disk} {c a : Commit} {es : List Event} {image : Nat → Bytes}

theorem Root.withFault (h : Root env d c) (fault : Call → Nat → Option (Option Bytes)) :
    Root env { d with fault := fault } c := h.of_agree rfl rfl (fun _ _ => rfl) h.other

/-- A block that the calls do not write survives as it was. -/
theorem Survives.kept (h : Survives d.image es image) {n : Nat} (hn : ∀ o b, .write o n b ∉ es) :
    image n = d.image n := by
  obtain ⟨k, -, h⟩ := h
  rcases h n with h | h
  · exact h.trans (replay_of_not_written hn _)
  · exact h.trans (replay_of_not_written (fun o b hm => hn o b (List.mem_of_mem_take hm)) _)

/-- A snapshot that was synced survives an error of the calls after it. -/
theorem Survives.synced {u : Uberblock} {buf : Bytes} {fs : List Event}
    (h : Survives d.image (beforeFlip u buf ++ fs) image) (hne : fs ≠ []) {n : Nat}
    (hn : ∀ o b, .write o n b ∉ fs) : image n = replay d.image (beforeFlip u buf) n := by
  obtain ⟨k, hk, h⟩ := h
  have hlong : (beforeFlip u buf).length ≤ k := by
    by_contra hlt
    -- otherwise the sync at the end of the snapshot lies after `k`
    have hpos := List.length_pos_iff.mpr hne
    have hlen : (beforeFlip u buf).length =
        (snapshotEvents u.metaStart u.metaBlocks.toNat buf).length + 1 := by
      simp [beforeFlip]
    apply hk (snapshotEvents u.metaStart u.metaBlocks.toNat buf).length (by omega)
    · rw [List.length_append]
      omega
    · simp [beforeFlip]
  rcases h n with h | h
  · rw [h, replay_append]
    exact replay_of_not_written hn _
  · rw [h, List.take_append, List.take_of_length_le hlong, replay_append]
    exact replay_of_not_written (fun o b hm => hn o b (List.mem_of_mem_take hm)) _

theorem Fails.spec {fault : Call → Nat → Option (Option Bytes)}
    (h : Fails env { d with fault := fault } c.ub a d' es) :
    d'.blocks = d.blocks ∧ ∃ root next,
      (∀ e ∈ es, c.ub.CanAdvance ∧ Allowed (c.ub.successor root next) e) ∧
      ((∀ n b, .write .uber n b ∉ es) ∨ ∃ tail fs fs',
        Follows env c a root next tail fs' ∧ fs ≠ [] ∧
        es = beforeFlip a.ub (tables a.bm a.ddt a.tbl ++ tail) ++ fs ∧
        ∀ o n b, .write o n b ∈ fs → n = a.ub.seq.toNat % 2) := by
  obtain ⟨root, next, scratch, e, s', hub, hrun, rfl⟩ := h.run
  obtain ⟨-, es₁, hx₁, hes₁, -⟩ := (commit_sat env c.ub a.ddt a.tbl root next _).error hrun
  obtain ⟨es₂, hx₂, hshape⟩ := (commit_fails c.ub a.ddt a.tbl root next _).error hrun
  obtain rfl : es₁ = es := List.append_cancel_left (hx₁.trace.symm.trans h.trace)
  obtain rfl : es₂ = es₁ := List.append_cancel_left (hx₂.trace.symm.trans h.trace)
  refine ⟨hx₁.blocks, root, next, hes₁, ?_⟩
  rcases hshape with hno | ⟨hadv, hfits, tail, fs, hlen, hne, hes, hfs⟩
  · exact .inl hno
  · refine .inr ⟨tail, fs, _, ⟨hadv, hub, hfits, hlen, rfl⟩, hne, ?_, ?_⟩
    · rw [hub]
      exact hes
    · rw [hub]
      exact hfs

/-- A failed attempt leaves the commit before it on disk, or it is itself there as a whole. -/
theorem Fails.root {fault : Call → Nat → Option (Option Bytes)} (hroot : Root env d c)
    (hcap : a.tbl.cap = c.ub.inodeCount.toNat) (hsmall : Small a.bm a.ddt a.tbl)
    (h : Fails env { d with fault := fault } c.ub a d' es) (hs : Survives d.image es image)
    (torn : Leaves env .uber (d.image ((c.ub.seq.toNat + 1) % 2)) (a.ub.marshalBinary env)
      (image ((c.ub.seq.toNat + 1) % 2))) :
    Root env { d' with image := image } c ∨
      ¬ NotFlipped env c.ub image ∧ a.ub.dataStart = c.ub.dataStart ∧
      Root env { d' with image := image } a := by
  obtain ⟨hblocks, root, next, hes, hshape⟩ := h.spec
  by_cases hnot : NotFlipped env c.ub image
  · -- the attempt writes neither the uberblock nor the tables of the commit before it
    refine .inl (hroot.of_agree hblocks (hs.kept ?_) (fun i hi => hs.kept ?_) hnot)
    · intro o b hm
      exact (hroot.placed.allowed_disjoint (hes _ hm).1 (hes _ hm).2).1 rfl
    · intro o b hm
      exact (hroot.placed.allowed_disjoint (hes _ hm).1 (hes _ hm).2).2.1 i hi rfl
  · have hold : image ((c.ub.seq.toNat + 1) % 2) ≠ d.image ((c.ub.seq.toNat + 1) % 2) := by
      intro hsame
      apply hnot
      unfold NotFlipped
      rw [hsame]
      exact hroot.other
    have hnew : image ((c.ub.seq.toNat + 1) % 2) = a.ub.marshalBinary env := by
      rcases torn with h | h | h
      · exact (hold h).elim
      · exact h
      · obtain ⟨e, he⟩ := h rfl
        refine (hnot fun v hv => ?_).elim
        rw [he] at hv
        cases hv
    rcases hshape with hno | ⟨tail, fs, fs', hfol, hne, rfl, hfs⟩
    · refine (hold (hs.kept ?_)).elim
      intro o b hm
      have hall := hes _ hm
      cases o with
      | snapshot => exact (hroot.placed.allowed_disjoint hall.1 hall.2).2.2.2 rfl rfl
      | uber => exact hno _ _ hm
      | _ => exact hall.2
    · refine .inr ⟨hnot, ?_, hfol.root hroot hcap hsmall hblocks ?_⟩
      · rw [hfol.ub]
        rfl
      · have hslot : a.ub.seq.toNat % 2 = (c.ub.seq.toNat + 1) % 2 := by rw [hfol.seq]
        rw [hfol.events, replay_commitEvents]
        funext n
        by_cases hn : n = a.ub.seq.toNat % 2
        · subst hn
          rw [Function.update_self, hslot]
          exact hnew
        · have hsync := hs.synced hne (n := n) fun o b hm => hn (hfs o n b hm)
          rw [beforeFlip, replay_append] at hsync
          rw [Function.update_of_ne hn]
          exact hsync

theorem Root.of_data (hroot : Root env d c) (hblocks : d'.blocks = d.blocks)
    (hkept : ∀ n, n < c.ub.dataStart.toNat → d'.image n = d.image n) : Root env d' c := by
  have hend := hroot.placed.metaEnd_le
  have hds := hroot.placed.dataStart
  refine hroot.of_agree hblocks (hkept _ (by omega)) (fun i hi => hkept _ (by omega)) ?_
  rw [hkept _ (by omega)]
  exact hroot.other

end Step

/-! ## A failed attempt that leaves its uberblock -/

section Leaves

variable {env : Env} {d : Disk} {c a c' : Commit} {root next : UInt64}

/-- A write of the uberblock that fails but leaves `b`. -/
theorem writeUber_leaves (u : Uberblock) {s : CommitState} {b : Bytes}
    (hfault : ∀ n, s.dev.fault (.write .uber) n = some (some b)) (htwo : 2 ≤ s.dev.blocks) :
    Sat (writeUber env u) s (fun _ _ => False)
      (fun f s' => f = .err (.block .io) ∧
        Disk.Extends s.dev s'.dev [.write .uber (u.seq.toNat % 2) b]) := by
  have hlen := Uberblock.length_marshalBinary env u
  have hrange : ¬ s.dev.blocks ≤ u.seq.toNat % 2 := by omega
  have hwrite : Sat (Disk.writeBlock .uber (u.seq.toNat % 2) (u.marshalBinary env)) s.dev
    (fun _ _ => False)
      (fun f d' => f = .err .io ∧ Disk.Extends s.dev d' [.write .uber (u.seq.toNat % 2) b]) := by
    unfold Sat Disk.writeBlock
    rw [if_neg hrange, if_neg (not_not.mpr hlen), hfault]
    exact ⟨rfl, rfl, rfl, rfl, rfl⟩
  unfold writeUber
  refine sat_bind (Q := fun _ _ => False) ?_ (fun _ _ h => h.elim) (fun _ _ h => h)
  refine sat_zoom hwrite (fun _ _ h => h) ?_
  intro f d' ⟨hf, hx⟩
  subst hf
  exact ⟨rfl, hx⟩

/-- An attempt whose uberblock write fails but leaves `b`. -/
theorem commit_leaves (env : Env) {prev : Uberblock} {ddt : Dedup.Table} {tbl : Inode.Table}
    {s : CommitState} {b : Bytes} (root next : UInt64)
    (hsnap : s.dev.Sound (.write .snapshot)) (hsync : s.dev.Sound .sync)
    (hfault : ∀ n, s.dev.fault (.write .uber) n = some (some b))
    (hplaced : (prev.successor root next).Placed s.dev.blocks) (hadv : prev.CanAdvance)
    (hfits : Fits prev s.bm ddt tbl) :
    Sat (commit env prev ddt tbl root next) s (fun _ _ => False)
      (fun f s' => f = .err (.block .io) ∧ ∃ tail,
        prev.metaBlocks.toNat * blk ≤ (tables s.bm ddt tbl ++ tail).length ∧
        Disk.Extends s.dev s'.dev (beforeFlip (prev.successor root next)
          (tables s.bm ddt tbl ++ tail) ++
          [.write .uber ((prev.successor root next).seq.toNat % 2) b])) := by
  have hend := hplaced.metaEnd_le
  have hroom := hplaced.room
  unfold commit
  refine sat_ite (fun hseq => absurd hadv.1 (by omega)) fun _ =>
    sat_ite (fun hact => absurd hadv.2 (by omega)) fun _ => ?_
  refine sat_bind (Q := fun _ _ => False) ?_ (fun _ _ h => h.elim) (fun _ _ h => h)
  unfold writeCommit
  refine sat_bind (writeSnapshot_sat (prev.successor root next) ddt tbl s) ?_ ?_
  · rintro u' s₁ ⟨rfl, -, -, tail, hlen, hx⟩
    have hfault₁ : ∀ n, s₁.dev.fault (.write .uber) n = some (some b) := by
      rw [hx.fault]
      exact hfault
    have htwo : 2 ≤ s₁.dev.blocks := by
      rw [hx.blocks]
      exact hplaced.two_le
    refine sat_bind (Q := fun _ _ => False) ((writeUber_leaves _ hfault₁ htwo).mono
      (fun _ _ h => h) ?_) (fun _ _ h => h.elim) (fun _ _ h => h)
    intro f s₂ ⟨hf, hx₂⟩
    exact ⟨hf, tail, hlen, hx.trans hx₂⟩
  · rintro f s₁ ⟨-, es, -, -, hno⟩
    obtain ⟨-, -, hbig⟩ := hno hsnap hsync (by show _ ≤ s.dev.blocks; omega)
    exact absurd hfits hbig

theorem exists_fails (env : Env) (hplaced : c.ub.Placed d.blocks) (hadv : c.ub.CanAdvance)
    (hfits : Fits c.ub a.bm a.ddt a.tbl)
    (hub : a.ub = withLens (c.ub.successor root next) a.bm a.ddt a.tbl) :
    ∃ fault d' tail es fs, Fails env { d with fault := fault } c.ub a d' es ∧
      Follows env c a root next tail fs ∧ d'.blocks = d.blocks ∧
      d'.image = replay d.image es ∧ replay d.image es = replay d.image fs := by
  let fault : Call → Nat → Option (Option Bytes) := fun call _ =>
    if call = .write .uber then some (some (a.ub.marshalBinary env)) else none
  have hsat := commit_leaves env (s := ⟨{ d with fault := fault }, a.bm, none⟩) root next
    (fun _ => rfl) (fun _ => rfl) (fun _ => rfl) (hplaced.successor hadv root next) hadv hfits
  cases hrun : commit env c.ub a.ddt a.tbl root next ⟨{ d with fault := fault }, a.bm, none⟩ with
  | ok u s' => exact (hsat.ok hrun).elim
  | error f s' =>
      obtain ⟨rfl, tail, hlen, hx⟩ := hsat.error hrun
      refine ⟨fault, s'.dev, tail, _, _, ⟨⟨root, next, none, _, s', hub, hrun, rfl⟩, hx.trace⟩,
        ⟨hadv, hub, hfits, hlen, rfl⟩, hx.blocks, hx.image, ?_⟩
      rw [replay_commitEvents, replay_append, beforeFlip, replay_append, hub]
      rfl

/-- From any commit on disk, the next attempt can fail with its uberblock on the device. -/
theorem Tries.flip {L : Uberblock → (Nat → Bytes) → Prop} {as : List Commit}
    (tries : Tries env L d c.ub c as) (start : L c.ub d.image) (hroot : Root env d c)
    (hadv : c.ub.CanAdvance)
    (hub : a.ub = withLens (c.ub.successor root next) a.bm a.ddt a.tbl) (hcap : a.tbl.cap =
      c.ub.inodeCount.toNat)
    (hfits : Fits c.ub a.bm a.ddt a.tbl) (hsmall : Small a.bm a.ddt a.tbl) :
    ∃ d₁ tail fs, Tries env L d₁ c.ub c (a :: as) ∧ Follows env c a root next tail fs ∧
      d₁.blocks = d.blocks ∧ d₁.image = replay d.image fs := by
  obtain ⟨fault, d₁, tail, es, fs, hfails, hfol, hblocks, himage, hsame⟩ :=
    exists_fails env hroot.placed hadv hfits hub
  have hroot₁ : Root env d₁ a := hfol.root hroot hcap hsmall hblocks (himage.trans hsame)
  have hsurvives : Survives d.image es d₁.image :=
    ⟨es.length, fun j _ _ => by omega, fun m => .inl (congrFun himage m)⟩
  have hslot := hroot₁.slot
  rw [hfol.seq] at hslot
  exact ⟨d₁, tail, fs, .err fault tries start hcap hsmall hfails hsurvives (.inr (.inl hslot)),
    hfol, hblocks, himage.trans hsame⟩

end Leaves

/-! ## Whole runs -/

section Runs

variable {env : Env} {d : Disk} {u : Uberblock} {c : Commit} {as : List Commit}

/-- If no attempt starts with a newer uberblock on the device, one whole attempt is on the
device: the last commit that succeeded, unless a later one left its uberblock. -/
theorem Tries.root (h : Tries env (NotFlipped env) d u c as) :
    u = c.ub ∧ ∃ a ∈ c :: as, a.ub.dataStart = u.dataStart ∧ Root env d a ∧
      (NotFlipped env u d.image → a = c) := by
  induction h with
  | format hn run hsmall =>
      exact ⟨rfl, _, List.mem_cons_self, rfl, root_of_format (nothingNewer_of_zero rfl) run hsmall,
        fun _ => rfl⟩
  | @data d d' u c as tries blocks kept ih =>
      obtain ⟨hu, a, ha, hds, hroot, hlast⟩ := ih
      rw [← hds] at kept
      refine ⟨hu, a, ha, hds, hroot.of_data blocks kept, fun hnot => hlast ?_⟩
      have hpos := hroot.placed.dataStart
      unfold NotFlipped at hnot
      rw [kept _ (by omega)] at hnot
      exact hnot
  | ok fault tries start hcap hsmall run ih =>
      obtain ⟨rfl, a, -, -, hroot, hlast⟩ := ih
      obtain rfl := hlast start
      obtain ⟨root, next, tail, hfol, hx⟩ := run.spec
      exact ⟨rfl, _, List.mem_cons_self, rfl,
        hfol.root (hroot.withFault fault) hcap hsmall hx.blocks hx.image, fun _ => rfl⟩
  | @err d d' u c a as es image fault tries start hcap hsmall run survives torn ih =>
      obtain ⟨rfl, b, -, -, hroot, hlast⟩ := ih
      obtain rfl := hlast start
      refine ⟨rfl, ?_⟩
      rcases run.root hroot hcap hsmall survives torn with h | ⟨hflip, hds, h⟩
      · exact ⟨b, List.mem_cons_self, rfl, h, fun _ => rfl⟩
      · exact ⟨a, List.mem_cons_of_mem _ List.mem_cons_self, hds, h, fun hnot => (hflip hnot).elim⟩

theorem exists_tries (L : Uberblock → (Nat → Bytes) → Prop) : ∃ n d u bm tbl,
    Tries Env.plain L d u ⟨u, bm, .new, tbl⟩ [] ∧ Root Env.plain d ⟨u, bm, .new, tbl⟩ ∧
    u.CanAdvance ∧
      Small bm .new tbl ∧ bm = (Alloc.Bitmap.new n).reserve 0 u.dataStart.toNat ∧
      u.dataStart.toNat < n := by
  obtain ⟨n, inodes, hn, u, d, hrun, hsmall, hseq, hblocks, -⟩ := exists_formatted
  have hroot := root_of_format (nothingNewer_of_zero rfl) hrun hsmall
  have hadv : u.CanAdvance := by
    refine ⟨by omega, ?_⟩
    rw [hroot.placed.active]
    omega
  exact ⟨n, d, u, _, _, .format hn hrun hsmall, hroot, hadv, hsmall, rfl,
    hblocks ▸ hroot.placed.room⟩

/-- In every run in which no attempt starts while the device holds a newer uberblock than
the one in memory, every mount finds one whole attempt no older than the last commit that
succeeded, and so does every mount after a crash in a further commit. -/
theorem retry_safe (h : Tries env (NotFlipped env) d u c as) :
    (∃ a ∈ c :: as, ∃ r, mount env d = .ok r ∧ Reads a r) ∧
      (NotFlipped env u d.image → ∀ fault c' d' es, c'.tbl.cap = c.ub.inodeCount.toNat →
        Small c'.bm c'.ddt c'.tbl → Commits env { d with fault := fault } u c' d' es →
        ∀ image flipped, Crash env d.image es image flipped →
          ∃ a, (flipped ∧ a = c' ∨ ¬ flipped ∧ a = c) ∧
            ∃ r, mount env { d with image := image } = .ok r ∧ Reads a r) := by
  obtain ⟨rfl, a, ha, -, hroot, hlast⟩ := h.root
  refine ⟨⟨a, ha, mount_of_root hroot⟩, ?_⟩
  intro start fault c' d' es hcap hsmall run image flipped hcrash
  obtain rfl := hlast start
  obtain ⟨root, next, tail, hfol, -⟩ := run.spec
  exact hfol.mount_of_crash hroot hcap hsmall hcrash

/-- A device of 64 blocks is formatted and the first attempt fails with its uberblock on the
device. -/
theorem retry_safe_flipped : ∃ d u c a, Tries Env.plain (NotFlipped Env.plain) d u c [a] ∧
    ∃ b ∈ [c, a], ∃ r, mount Env.plain d = .ok r ∧ Reads b r := by
  obtain ⟨n, d, u, bm, tbl, tries, hroot, hadv, hsmall, -⟩ := exists_tries (NotFlipped Env.plain)
  obtain ⟨d₁, tail, fs, htries, -⟩ :=
    tries.flip (a := ⟨withLens (u.successor 0 5) bm .new tbl, bm, .new, tbl⟩)
    hroot.other hroot hadv rfl hroot.cap hroot.fits hsmall
  exact ⟨d₁, u, _, _, htries, (retry_safe htries).1⟩

end Runs

/-! ## Mixed attempts -/

section Mixed

variable {env : Env} {d : Disk} {c a c' : Commit}

/-- The next attempt overwrites the tables of the uberblock that the failed one left. -/
theorem Follows.mixed {rt rt' nx nx' : UInt64} {tail tail' : Bytes} {es es' : List Event}
    (hroot : Root env d c) (h : Follows env c a rt nx tail es)
    (h' : Follows env c c' rt' nx' tail' es')
    (hcap : a.tbl.cap = c.ub.inodeCount.toNat) (hsmall : Small a.bm a.ddt a.tbl)
    (hcap' : c'.tbl.cap = c.ub.inodeCount.toNat) (hbm : c'.bm.marshalLen = a.bm.marshalLen)
    (hddt : c'.ddt.marshalLen = a.ddt.marshalLen) (htbl : c'.tbl.marshalLen = a.tbl.marshalLen)
      {d' : Disk}
    (hblocks : d'.blocks = d.blocks)
    (himage : d'.image = replay (replay d.image es) (es'.take c.ub.metaBlocks.toNat)) :
    Root env d' ⟨a.ub, c'.bm, c'.ddt, c'.tbl⟩ := by
  have hroot₁ : Root env { d with image := replay d.image es } a := h.root hroot hcap hsmall rfl rfl
  have hge := hroot₁.placed.metaStart_ge
  have hblk : a.ub.metaBlocks = c.ub.metaBlocks := by rw [h.ub]; rfl
  have hsnap : es'.take c.ub.metaBlocks.toNat =
      snapshotEvents a.ub.metaStart a.ub.metaBlocks.toNat
      (tables c'.bm c'.ddt c'.tbl ++ tail') := by
    have hlen : (snapshotEvents c'.ub.metaStart c'.ub.metaBlocks.toNat
        (tables c'.bm c'.ddt c'.tbl ++ tail')).length = c.ub.metaBlocks.toNat := by
      rw [h'.ub]
      simp [snapshotEvents, withLens, Uberblock.successor]
    rw [h'.events, commitEvents, List.append_assoc, List.take_left' hlen, h'.ub, h.ub]
    rfl
  rw [hsnap] at himage
  have hout : ∀ n, n < 2 → d'.image n = replay d.image es n := by
    intro n hn
    rw [himage, replay_snapshotEvents, if_neg (by omega)]
  refine ⟨⟨hblocks ▸ hroot₁.placed, ?_, ?_, ?_, tail', ?_, ?_⟩, ⟨?_, ?_, ?_⟩, ?_⟩
  · unfold Fits
    rw [hblk]
    exact h'.fits
  · rw [hout _ (by omega)]
    exact hroot₁.slot
  · rw [hout _ (by omega)]
    exact hroot₁.other
  · rw [hblk]
    exact h'.length
  · intro i hi
    dsimp only at hi ⊢
    rw [himage, replay_snapshotEvents, if_pos (by omega), Nat.add_sub_cancel_left]
  · exact hroot₁.lens.bm.trans hbm.symm
  · exact hroot₁.lens.ddt.trans hddt.symm
  · exact hroot₁.lens.tbl.trans htbl.symm
  · rw [h.ub]
    exact hcap'

/-- From any commit on disk, two attempts whose tables have the same lengths can be mixed: the
first fails with its uberblock on the device, and the second is interrupted after its
snapshot. -/
theorem Tries.mixed {as : List Commit} {rt rt' nx nx' : UInt64}
    (tries : Tries env (fun _ _ => True) d c.ub c as) (hroot : Root env d c)
    (hadv : c.ub.CanAdvance)
    (hub : a.ub = withLens (c.ub.successor rt nx) a.bm a.ddt a.tbl) (hcap : a.tbl.cap =
      c.ub.inodeCount.toNat)
    (hfits : Fits c.ub a.bm a.ddt a.tbl) (hsmall : Small a.bm a.ddt a.tbl)
    (hub' : c'.ub = withLens (c.ub.successor rt' nx') c'.bm c'.ddt c'.tbl)
    (hcap' : c'.tbl.cap = c.ub.inodeCount.toNat) (hbm : c'.bm.marshalLen = a.bm.marshalLen)
    (hddt : c'.ddt.marshalLen = a.ddt.marshalLen) (htbl : c'.tbl.marshalLen = a.tbl.marshalLen) :
    ∃ d₁ d₂ es image flipped, Tries env (fun _ _ => True) d₁ c.ub c (a :: as) ∧
      Commits env { d₁ with fault := fun _ _ => none } c.ub c' d₂ es ∧
      Crash env d₁.image es image flipped ∧
      Root env { d₁ with image := image } ⟨a.ub, c'.bm, c'.ddt, c'.tbl⟩ := by
  obtain ⟨d₁, tail, fs, htries, hfol, hblocks, himage⟩ :=
    tries.flip trivial hroot hadv hub hcap hfits hsmall
  -- the next attempt starts from the same uberblock
  have hplaced : c.ub.Placed d₁.blocks := hblocks ▸ hroot.placed
  have hfits' : Fits c.ub c'.bm c'.ddt c'.tbl := by
    unfold Fits
    rw [hbm, hddt, htbl]
    exact hfits
  obtain ⟨d₂, tail', es', hcommits, hfol', -⟩ :=
    exists_commits (d := { d₁ with fault := fun _ _ => none }) env
      ⟨fun _ => rfl, fun _ => rfl, fun _ => rfl⟩ hplaced hadv hfits' hub'
  refine ⟨d₁, d₂, es', _, _, htries, hcommits, .between c.ub.metaBlocks.toNat, ?_⟩
  refine hfol.mixed hroot hfol' hcap hsmall hcap' hbm hddt htbl hblocks ?_
  rw [← himage]

/-- On a device of 64 blocks, two attempts after `format` are mixed: a mount finds the
uberblock of the first with the bitmap of the second. -/
theorem retry_mixes : ∃ d u c as, Tries Env.plain (fun _ _ => True) d u c as ∧
    ∃ fault c' d' es, c'.tbl.cap = c.ub.inodeCount.toNat ∧ Small c'.bm c'.ddt c'.tbl ∧
      Commits Env.plain { d with fault := fault } u c' d' es ∧
      ∃ image flipped, Crash Env.plain d.image es image flipped ∧
        ∃ r, mount Env.plain { d with image := image } = .ok r ∧ ∀ a ∈ c' :: c :: as,
        ¬ Reads a r := by
  obtain ⟨n, d, u, bm, tbl, tries, hroot, hadv, hsmall, hbm, hroom⟩ := exists_tries fun _ _ => True
  obtain ⟨bm', hbm'⟩ : ∃ bm', bm' = (Alloc.Bitmap.new n).reserve 0 (u.dataStart.toNat + 1) :=
    ⟨_, rfl⟩
  obtain ⟨htotal, -, -, hbits⟩ := Alloc.Bitmap.reserve_spec (Alloc.Bitmap.new_counted n) 0
    u.dataStart.toNat
  obtain ⟨htotal', -, -, hbits'⟩ :=
    Alloc.Bitmap.reserve_spec (Alloc.Bitmap.new_counted n) 0 (u.dataStart.toNat + 1)
  rw [← hbm] at htotal hbits
  rw [← hbm'] at htotal' hbits'
  have hlen : bm'.marshalLen = bm.marshalLen := by
    rw [Alloc.Bitmap.marshalLen, Alloc.Bitmap.marshalLen, Alloc.Bitmap.words, Alloc.Bitmap.words,
      htotal, htotal']
  have hsmall' : Small bm' .new tbl := by
    unfold Small
    rw [hlen]
    exact hsmall
  obtain ⟨a, ha⟩ : ∃ a : Commit, a = ⟨withLens (u.successor 0 5) bm .new tbl, bm, .new, tbl⟩ :=
    ⟨_, rfl⟩
  obtain ⟨c', hc'⟩ : ∃ c' : Commit, c' = ⟨withLens (u.successor 0 6) bm' .new tbl, bm', .new,
    tbl⟩ := ⟨_, rfl⟩
  obtain ⟨d₁, d₂, es, image, flipped, htries₁, hcommits, hcrash, hmixed⟩ : ∃ d₁ d₂ es image flipped,
      Tries Env.plain (fun _ _ => True) d₁ u ⟨u, bm, .new, tbl⟩ [a] ∧
      Commits Env.plain { d₁ with fault := fun _ _ => none } u c' d₂ es ∧
      Crash Env.plain d₁.image es image flipped ∧
      Root Env.plain { d₁ with image := image } ⟨a.ub, c'.bm, c'.ddt, c'.tbl⟩ := by
    subst ha hc'
    exact tries.mixed hroot hadv rfl hroot.cap hroot.fits hsmall rfl hroot.cap hlen rfl rfl
  obtain ⟨r, hr, hreads⟩ := mount_of_root hmixed
  have hcap : c'.tbl.cap = u.inodeCount.toNat := by
    rw [hc']
    exact hroot.cap
  have hsmall₁ : Small c'.bm c'.ddt c'.tbl := by
    rw [hc']
    exact hsmall'
  refine ⟨d₁, u, _, [a], htries₁, _, c', d₂, es, hcap, hsmall₁, hcommits, image, flipped,
    hcrash, r, hr, ?_⟩
  intro b hb h
  have hub : a.ub = b.ub := hreads.ub.symm.trans h.ub
  rw [ha] at hub
  simp only [List.mem_cons, List.not_mem_nil, or_false] at hb
  rcases hb with hb | hb | hb
  · rw [hb, hc'] at hub
    exact absurd (congrArg Uberblock.nextInode hub) (show (5 : UInt64) ≠ 6 by decide)
  · rw [hb] at hub
    have hnext : u.seq.toNat + 1 = u.seq.toNat := by
      rw [← hadv.seq 0 5]
      exact congrArg (fun v => v.seq.toNat) hub
    omega
  · -- the bit of the first data block tells the two bitmaps apart
    have hbit := hreads.bits u.dataStart.toNat
    have hbit' := h.bits u.dataStart.toNat
    rw [hc'] at hbit
    rw [hb, ha] at hbit'
    have heq := (hbit (htotal'.symm ▸ hroom)).symm.trans (hbit' (htotal.symm ▸ hroom))
    rw [hbits, hbits'] at heq
    simp [Alloc.Bitmap.new, hroom] at heq

end Mixed

end Cow
end BloomFS

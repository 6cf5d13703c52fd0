/-
Committed data is pinned.

`Chain env d k₀ C` follows the commit that a crash falls back to through the
history of `d`: `C k` is the one a mount finds after the first `k` recorded calls.
Only an uberblock write changes it, snapshots stay below the data area, and a
block write of the data path hits a cluster that `C k` does not own.  Every run has
such a chain.
-/
import BloomFS.Fs.Start

namespace BloomFS
namespace Fs

open Bytes Exec Block Store

variable {env : Env}

/-- Block `n` lies in the data area and holds nothing of the commit. -/
structure Unpinned (c : Cow.Commit) (blocks n : Nat) : Prop where
  start_le : c.ub.dataStart.toNat ≤ n
  lt_blocks : n < blocks
  unowned : ¬ Owned c.ddt n

/-- What one recorded call does to the commit a crash falls back to. -/
def Advances (env : Env) (blocks : Nat) (c c' : Cow.Commit) : Event → Prop
  | .write .data n _ => c' = c ∧ Unpinned c blocks n
  | .write .snapshot n _ => c' = c ∧ n < c.ub.dataStart.toNat
  | .write .uber _ b => b = c'.ub.marshalBinary env
  | _ => c' = c

/-- What the commit owns lies in the data area. -/
def InDataArea (c : Cow.Commit) : Prop := ∀ n, Owned c.ddt n → c.ub.dataStart.toNat ≤ n

structure Chain (env : Env) (d : Disk) (k₀ : Nat) (C : Nat → Cow.Commit) : Prop where
  consistent : d.Consistent
  start : k₀ ≤ d.trace.length
  root : ∀ k, k₀ ≤ k → k ≤ d.trace.length → Cow.Root env (d.crashAt k) (C k)
  step : ∀ k ev, k₀ ≤ k → d.trace[k]? = some ev → Advances env d.blocks (C k) (C (k + 1)) ev
  owns : ∀ k, k₀ ≤ k → k ≤ d.trace.length → InDataArea (C k)
  after : ∀ k n b, d.trace[k]? = some (.write .data n b) → k₀ ≤ k

theorem root_congr {d d' : Disk} {c : Cow.Commit} (h : Cow.Root env d c)
    (hblocks : d'.blocks = d.blocks) (himage : d'.image = d.image) : Cow.Root env d' c :=
  h.of_agree hblocks (by rw [himage]) (fun i _ => by rw [himage]) (by rw [himage]; exact h.other)

namespace Chain

variable {d d' : Disk} {k₀ : Nat} {C C' : Nat → Cow.Commit} {es : List Event}

theorem last (h : Chain env d k₀ C) : Cow.Root env d (C d.trace.length) :=
  root_congr (h.root _ h.start le_rfl) rfl (Disk.crashAt_length h.consistent).symm

theorem append (h : Chain env d k₀ C) (hx : Disk.Extends d d' es)
    (hC : ∀ k, k ≤ d.trace.length → C' k = C k)
    (hroot : ∀ j, j ≤ es.length →
      Cow.Root env { d with image := replay d.image (es.take j) } (C' (d.trace.length + j)))
    (hstep : ∀ j ev, es[j]? = some ev →
      Advances env d.blocks (C' (d.trace.length + j)) (C' (d.trace.length + j + 1)) ev)
    (howns : ∀ j, InDataArea (C' (d.trace.length + j))) :
    Chain env d' k₀ C' where
  consistent := hx.consistent h.consistent
  start := by
    rw [hx.trace, List.length_append]
    exact Nat.le_add_right_of_le h.start
  root := by
    intro k hk hle
    rw [hx.trace, List.length_append] at hle
    by_cases hkl : k ≤ d.trace.length
    · rw [hC k hkl]
      refine root_congr (h.root k hk hkl) hx.blocks ?_
      show replay _ (d'.trace.take k) = replay _ (d.trace.take k)
      rw [hx.trace, List.take_append_of_le_length hkl]
    · obtain ⟨j, rfl⟩ := Nat.exists_eq_add_of_le (Nat.le_of_not_le hkl)
      refine root_congr (hroot j (by omega)) hx.blocks ?_
      show replay _ (d'.trace.take _) = replay d.image _
      rw [hx.trace, List.take_length_add_append, replay_append, ← h.consistent]
  step := by
    intro k ev hk hev
    rw [hx.blocks]
    rw [hx.trace] at hev
    by_cases hkl : k < d.trace.length
    · rw [List.getElem?_append_left hkl] at hev
      rw [hC k hkl.le, hC (k + 1) hkl]
      exact h.step k ev hk hev
    · obtain ⟨j, rfl⟩ := Nat.exists_eq_add_of_le (Nat.le_of_not_lt hkl)
      rw [List.getElem?_append_right (Nat.le_add_right _ _), Nat.add_sub_cancel_left] at hev
      exact hstep j ev hev
  owns := by
    intro k hk _
    by_cases hkl : k ≤ d.trace.length
    · rw [hC k hkl]
      exact h.owns k hk hkl
    · obtain ⟨j, rfl⟩ := Nat.exists_eq_add_of_le (Nat.le_of_not_le hkl)
      exact howns j
  after := by
    intro k n b hev
    rw [hx.trace] at hev
    by_cases hkl : k < d.trace.length
    · rw [List.getElem?_append_left hkl] at hev
      exact h.after k n b hev
    · exact h.start.trans (Nat.le_of_not_lt hkl)

/-- Calls of the data path: block writes that hit nothing of the commit, and
notes. -/
def Quiet (c : Cow.Commit) (blocks : Nat) : Event → Prop
  | .write .data n _ => Unpinned c blocks n
  | .write _ _ _ => False
  | _ => True

theorem root_of_quiet {c : Cow.Commit} (h : Cow.Root env d c)
    (hes : ∀ ev ∈ es, Quiet c d.blocks ev) :
    Cow.Root env { d with image := replay d.image es } c := by
  have hkeep : ∀ n, n < c.ub.dataStart.toNat → replay d.image es n = d.image n := by
    intro n hn
    refine replay_of_not_written (fun o left hm => ?_) _
    cases o with
    | data => exact absurd (hes _ hm).start_le (Nat.not_le_of_lt hn)
    | snapshot => exact hes _ hm
    | uber => exact hes _ hm
  have hds : 2 ≤ c.ub.dataStart.toNat := by rw [h.placed.dataStart]; omega
  refine h.of_agree rfl (hkeep _ (by omega)) (fun i hi => hkeep _ ?_) ?_
  · have := h.placed.metaEnd_le
    omega
  · show ∀ u, Cow.parseUber env (replay d.image es _) = .ok u → _
    rw [hkeep _ (by omega)]
    exact h.other

theorem quiet (h : Chain env d k₀ C) (hx : Disk.Extends d d' es)
    (hes : ∀ ev ∈ es, Quiet (C d.trace.length) d.blocks ev) :
    Chain env d' k₀ (fun k => C (min k d.trace.length)) := by
  refine h.append hx (fun k hk => by simp [hk]) (fun j _ => ?_) (fun j ev hev => ?_) (fun j => ?_)
  · simp only [Nat.min_eq_right (Nat.le_add_right _ _)]
    exact root_of_quiet h.last (fun ev hev => hes ev (List.mem_of_mem_take hev))
  · have hq := hes ev (List.mem_of_getElem? hev)
    have hmin : min (d.trace.length + j + 1) d.trace.length = d.trace.length := by omega
    simp only [Nat.min_eq_right (Nat.le_add_right _ _), hmin]
    cases ev with
    | write o n b => cases o <;> first | exact ⟨rfl, hq⟩ | exact hq.elim
    | _ => rfl
  · simp only [Nat.min_eq_right (Nat.le_add_right _ _)]
    exact h.owns _ h.start le_rfl

/-- The chain after a commit: the new one from its uberblock write on. -/
def flip (C : Nat → Cow.Commit) (len : Nat) (c' : Cow.Commit) (at_ : Nat) : Nat → Cow.Commit :=
  fun k => if k ≤ at_ then C (min k len) else c'

theorem commit (h : Chain env d k₀ C) (hx : Disk.Extends d d' es) {c' : Cow.Commit}
    {rt nx : UInt64} {tail : Bytes} (hfol : Cow.Follows env (C d.trace.length) c' rt nx tail es)
    (hcap : c'.tbl.cap = (C d.trace.length).ub.inodeCount.toNat)
    (hsmall : Cow.Small c'.bm c'.ddt c'.tbl) (howns : InDataArea c') :
    ∃ C', (∀ k, k ≤ d.trace.length → C' k = C k) ∧ Chain env d' k₀ C' ∧
      C' d'.trace.length = c' := by
  set c := C d.trace.length with hc
  set pre := Cow.beforeFlip c'.ub (Cow.tables c'.bm c'.ddt c'.tbl ++ tail) with hpre
  have hes : es = pre ++ [.write .uber (c'.ub.seq.toNat % 2) (c'.ub.marshalBinary env), .sync] := by
    rw [hfol.events, Cow.commitEvents_eq]
  have hlow : ∀ j, j ≤ pre.length → flip C d.trace.length c' (d.trace.length + pre.length)
      (d.trace.length + j) = c := by
    intro j hj
    rw [flip, if_pos (by omega), Nat.min_eq_right (Nat.le_add_right _ _)]
  have hhigh : ∀ j, pre.length < j → flip C d.trace.length c' (d.trace.length + pre.length)
      (d.trace.length + j) = c' := by
    intro j hj
    rw [flip, if_neg (by omega)]
  have hpast : ∀ k, k ≤ d.trace.length →
      flip C d.trace.length c' (d.trace.length + pre.length) k = C k := by
    intro k hk
    rw [flip, if_pos (by omega), Nat.min_eq_left hk]
  refine ⟨flip C d.trace.length c' (d.trace.length + pre.length), hpast,
    h.append hx hpast ?_ ?_ ?_, ?_⟩
  · intro j hj
    obtain ⟨hnew, hold⟩ := hfol.root_of_crash h.last hcap hsmall (.between j)
    by_cases hjp : j ≤ pre.length
    · rw [hlow j hjp]
      refine hold ?_
      rintro ⟨n, b, hm⟩
      rw [hes, List.take_append_of_le_length hjp] at hm
      exact Cow.uber_notMem_beforeFlip _ _ n b (List.mem_of_mem_take hm)
    · rw [hhigh j (by omega)]
      refine hnew ⟨c'.ub.seq.toNat % 2, c'.ub.marshalBinary env, ?_⟩
      obtain ⟨i, rfl⟩ : ∃ i, j = pre.length + (i + 1) := ⟨j - pre.length - 1, by omega⟩
      rw [hes, List.take_length_add_append]
      simp
  · intro j ev hev
    rw [hes] at hev
    by_cases hjp : j < pre.length
    · rw [hlow j hjp.le, Nat.add_assoc, hlow (j + 1) hjp]
      rw [List.getElem?_append_left hjp] at hev
      have hm : ev ∈ es := hes ▸ List.mem_append_left _ (List.mem_of_getElem? hev)
      cases ev with
      | sync => rfl
      | write o n b =>
        have hall := hfol.allowed hm
        cases o with
        | snapshot => exact ⟨rfl, (h.last.placed.allowed_disjoint hfol.advance hall).2.2.1⟩
        | uber => exact (Cow.uber_notMem_beforeFlip _ _ n b (List.mem_of_getElem? hev)).elim
        | data => exact hall.elim
      | _ => rfl
    · rw [List.getElem?_append_right (by omega)] at hev
      obtain ⟨i, rfl⟩ := Nat.exists_eq_add_of_le (Nat.le_of_not_lt hjp)
      rw [Nat.add_sub_cancel_left] at hev
      rw [Nat.add_assoc, hhigh (pre.length + i + 1) (by omega)]
      match i, hev with
      | 0, hev =>
        cases hev
        exact rfl
      | 1, hev =>
        cases hev
        exact (hhigh _ (by omega)).symm
  · intro j
    by_cases hjp : j ≤ pre.length
    · rw [hlow j hjp]
      exact h.owns _ h.start le_rfl
    · rw [hhigh j (by omega)]
      exact howns
  · rw [hx.trace, List.length_append]
    refine hhigh _ ?_
    rw [hes]
    simp

end Chain

/-! ## The file system and its last commit -/

/-- How the state in memory relates to the last commit `c`.  Every cluster that
`c` owns is in use. -/
structure Tied (c : Cow.Commit) (s : FS) : Prop where
  ub : ∃ n, s.ub = { c.ub with nextInode := n }
  cap : s.inodes.cap = c.ub.inodeCount.toNat
  kept : ∀ i, Owned c.ddt i → s.bm.bits i = true
  snapshot : ∃ L, Space c.ub.dataStart.toNat L ⟨s.dev, c.bm, c.ddt⟩
  space : ∃ L, Space c.ub.dataStart.toNat L s.pool
  total : s.bm.total = s.dev.blocks
  committed : c.bm.total = s.dev.blocks
  sound : Cow.MetaSound s.dev
  slot : c.ub.metaBlocks.toNat * Cow.blk < c.bm.marshalLen + 2 ^ 32

/-- The file system has a chain of commits and is tied to its last one. -/
def Held (env : Env) (s : FS) : Prop :=
  ∃ k₀ C, Chain env s.dev k₀ C ∧ Tied (C s.dev.trace.length) s

/-- The same with the start of the chain and its first `p` commits given. -/
def HeldFrom (env : Env) (k₀ p : Nat) (C₀ : Nat → Cow.Commit) (s : FS) : Prop :=
  p ≤ s.dev.trace.length ∧
    ∃ C, (∀ k, k ≤ p → C k = C₀ k) ∧ Chain env s.dev k₀ C ∧ Tied (C s.dev.trace.length) s

section HeldFrom

variable {k₀ p : Nat} {C₀ : Nat → Cow.Commit}

theorem Held.from {s : FS} (h : Held env s) : ∃ k₀ C₀, HeldFrom env k₀ 0 C₀ s := by
  obtain ⟨k₀, C, hchain, ht⟩ := h
  exact ⟨k₀, C, Nat.zero_le _, C, fun _ _ => rfl, hchain, ht⟩

theorem HeldFrom.held {s : FS} (h : HeldFrom env k₀ p C₀ s) : Held env s := by
  obtain ⟨-, C, -, hchain, ht⟩ := h
  exact ⟨k₀, C, hchain, ht⟩

theorem marshalLen_congr {b b' : Alloc.Bitmap} (h : b'.total = b.total) :
    b'.marshalLen = b.marshalLen := by
  unfold Alloc.Bitmap.marshalLen Alloc.Bitmap.words
  rw [h]

/-- Calls of the data path keep the state tied to the same commit. -/
theorem HeldFrom.quiet {s s' : FS} {es : List Event} (h : HeldFrom env k₀ p C₀ s)
    (hub : s'.ub = s.ub) (hcap : s'.inodes.cap = s.inodes.cap) (hx : Disk.Extends s.dev s'.dev es)
    (hes : ∀ ev ∈ es, (∀ o n b, ev ≠ .write o n b) ∨ IntoFree s.bm ev)
    (hbm : Keeping s.bm s'.bm)
    (hspace : ∀ ds L, Space ds L s.pool → ∃ L', Space ds L' s'.pool) :
    HeldFrom env k₀ p C₀ s' := by
  obtain ⟨hp, C, hC, hchain, ht⟩ := h
  obtain ⟨L, hsp⟩ := ht.space
  have hquiet : ∀ ev ∈ es, Chain.Quiet (C s.dev.trace.length) s.dev.blocks ev := by
    intro ev hev
    rcases hes ev hev with hno | ⟨n, left, rfl, hlt, hfree⟩
    · cases ev with
      | write o n b => exact (hno o n b rfl).elim
      | _ => trivial
    · refine ⟨?_, ht.total ▸ hlt, fun hown => ?_⟩
      · -- the clusters below the data area are in use
        by_contra hlow
        have := (hsp.bits n hlt).mpr (.inl (not_le.mp hlow))
        rw [show s.pool.bm.bits n = false from hfree] at this
        cases this
      · rw [ht.kept n hown] at hfree
        cases hfree
  have hlen : s.dev.trace.length ≤ s'.dev.trace.length := by
    rw [hx.trace, List.length_append]
    exact Nat.le_add_right _ _
  refine ⟨hp.trans hlen, _, fun k hk => ?_, hchain.quiet hx hquiet, ?_⟩
  · rw [Nat.min_eq_left (hk.trans hp)]
    exact hC k hk
  simp only [Nat.min_eq_right hlen]
  obtain ⟨Ls, hsnap⟩ := ht.snapshot
  exact ⟨hub ▸ ht.ub, hcap.trans ht.cap, fun i hi => hbm.bits i (ht.kept i hi),
    ⟨Ls, hsnap.of_places rfl (fun _ => rfl)⟩, hspace _ L hsp,
    hbm.total.trans (ht.total.trans hx.blocks.symm), ht.committed.trans hx.blocks.symm,
    ht.sound.of_extends hx, ht.slot⟩

/-- A commit moves the tie to the new commit. -/
theorem HeldFrom.commit_chain {s s' : FS} (h : HeldFrom env k₀ p C₀ s) (hc : Committed env s s') :
    p ≤ s'.dev.trace.length ∧ ∃ C, (∀ k, k ≤ p → C k = C₀ k) ∧ Chain env s'.dev k₀ C ∧
      C s'.dev.trace.length = ⟨s.nextUber, s.bm, s.ddt, s.inodes⟩ ∧
      Tied (C s'.dev.trace.length) s' := by
  obtain ⟨hp, C, hC, hchain, ht⟩ := h
  obtain ⟨L, hsp⟩ := ht.space
  obtain ⟨tail, hlen, hx⟩ := hc.dev
  set c := C s.dev.trace.length with hcdef
  obtain ⟨n, hub⟩ := ht.ub
  -- the lengths are recorded as they are, because the slot is not larger
  have hmarshal : s.bm.marshalLen = c.bm.marshalLen :=
    marshalLen_congr (ht.total.trans ht.committed.symm)
  have hbound : c.bm.marshalLen < 2 ^ 32 := by
    rw [← hchain.last.lens.bm]
    exact UInt32.toNat_lt _
  have hfits : s.bm.marshalLen + s.ddt.marshalLen + s.inodes.marshalLen ≤
      c.ub.metaBlocks.toNat * Cow.blk := by
    have := hc.fits
    rw [hub] at this
    exact this
  have hslot := ht.slot
  have hsmall : Cow.Small s.bm s.ddt s.inodes := ⟨by omega, by omega, by omega⟩
  have hfol : Cow.Follows env c ⟨s.nextUber, s.bm, s.ddt, s.inodes⟩ c.ub.rootInode n tail
      (Cow.commitEvents env s.nextUber (Cow.tables s.bm s.ddt s.inodes ++ tail)) := by
    have hadv := hc.advance
    rw [hub] at hadv hlen
    refine ⟨hadv, ?_, hfits, hlen, rfl⟩
    show Cow.withLens _ _ _ _ = _
    rw [hub]
    rfl
  have hnext : s.nextUber.dataStart = c.ub.dataStart ∧ s.nextUber.inodeCount = c.ub.inodeCount ∧
      s.nextUber.metaBlocks = c.ub.metaBlocks := by
    unfold FS.nextUber
    rw [hub]
    exact ⟨rfl, rfl, rfl⟩
  have howns : InDataArea ⟨s.nextUber, s.bm, s.ddt, s.inodes⟩ := by
    rintro n ⟨k, e, he, hcov⟩
    show s.nextUber.dataStart.toNat ≤ n
    rw [hnext.1]
    exact (hsp.entry_in k e he).1.trans hcov.1
  obtain ⟨C', hpast, hchain', hlast⟩ := hchain.commit hx hfol ht.cap hsmall howns
  refine ⟨hp.trans ?_, C', fun k hk => (hpast k (hk.trans hp)).trans (hC k hk), hchain', hlast, ?_⟩
  · rw [hx.trace, List.length_append]
    exact Nat.le_add_right _ _
  rw [hlast]
  have hspace' : Space _ _ s'.pool := hsp.of_commit hc.bm (by rw [hc.rest]; rfl)
  obtain ⟨htot, -, -, hbits⟩ := Alloc.Bitmap.applyDeferred_spec hsp.counted
  refine ⟨⟨s.nextUber.nextInode, hc.ub⟩, ?_, fun i hi => ?_,
    ⟨L, hnext.1 ▸ hsp.of_places rfl (fun _ => rfl)⟩, ⟨_, hnext.1 ▸ hspace'⟩, ?_,
    ht.total.trans hx.blocks.symm, ht.sound.of_extends hx, ?_⟩
  · rw [hc.rest]
    exact ht.cap.trans (congrArg UInt64.toNat hnext.2.1.symm)
  · -- what the new commit owns is in use and not deferred
    obtain ⟨k, e, he, hcov⟩ := hi
    have hin : i < s.bm.total :=
      lt_of_lt_of_le hcov.2 (hsp.entry_in k e he).2
    rw [hc.bm]
    exact (hbits i).mpr ⟨(hsp.bits i hin).mpr (.inr (.inl ⟨k, e, he, hcov⟩)),
      fun _ ⟨r, hr, hcr⟩ => hsp.apart r hr i hcr ⟨k, e, he, hcov⟩⟩
  · rw [hc.bm]
    exact htot.trans (ht.total.trans hx.blocks.symm)
  · show s.nextUber.metaBlocks.toNat * Cow.blk < s.bm.marshalLen + 2 ^ 32
    rw [hnext.2.2, hmarshal]
    exact ht.slot

theorem Held.commit_chain {s s' : FS} (h : Held env s) (hc : Committed env s s') :
    ∃ k₀ C, Chain env s'.dev k₀ C ∧
      C s'.dev.trace.length = ⟨s.nextUber, s.bm, s.ddt, s.inodes⟩ ∧
      Tied (C s'.dev.trace.length) s' := by
  obtain ⟨k₀, C₀, hfrom⟩ := h.from
  obtain ⟨-, C, -, hchain, hlast, ht⟩ := hfrom.commit_chain hc
  exact ⟨k₀, C, hchain, hlast, ht⟩

theorem HeldFrom.committed {s s' : FS} (h : HeldFrom env k₀ p C₀ s) (hc : Committed env s s') :
    HeldFrom env k₀ p C₀ s' := by
  obtain ⟨hp, C, hC, hchain, -, ht⟩ := h.commit_chain hc
  exact ⟨hp, C, hC, hchain, ht⟩

/-- A commit that fails on this device wrote nothing. -/
theorem HeldFrom.commitFailed {s s' : FS} {e : Fault Error} (h : HeldFrom env k₀ p C₀ s)
    (hc : CommitFailed s e s') : HeldFrom env k₀ p C₀ s' := by
  obtain ⟨es, hx, -, hnone⟩ := hc.dev
  have hplaced : s.ub.Placed s.dev.blocks := by
    obtain ⟨-, C, -, hchain, ht⟩ := h
    obtain ⟨n, hub⟩ := ht.ub
    have hp := hchain.last.placed
    rw [hub]
    exact ⟨hp.magic, hp.metaA, hp.metaB, hp.dataStart, hp.room, hp.active⟩
  have hsound : Cow.MetaSound s.dev := by
    obtain ⟨-, C, -, -, ht⟩ := h
    exact ht.sound
  obtain ⟨rfl, -⟩ := hnone hsound hplaced.two_le (nextSlot_le hplaced _ _)
  exact h.quiet (by rw [hc.rest]) (by rw [hc.rest]) hx (by simp) (by rw [hc.rest]; exact .refl _)
    (fun ds L hsp => ⟨L, hsp.of_places (by rw [hc.rest]; rfl) (fun _ => by rw [hc.rest]; rfl)⟩)

theorem heldFrom_refuse {s : FS} (h : HeldFrom env k₀ p C₀ s) : HeldFrom env k₀ p C₀ (refuse s) :=
  h.quiet rfl rfl (refuse_extends s) (by simp) (.refl _)
    (fun _ L hsp => ⟨L, hsp.of_places rfl (fun _ => rfl)⟩)

theorem heldFrom_commit : Keeps (HeldFrom env k₀ p C₀) (commit env) := fun s hs =>
  (commit_sat s).mono (fun _ _ h => hs.committed h) (fun _ _ h => hs.commitFailed h)

theorem heldFrom_closed : Closed env (HeldFrom env k₀ p C₀) where
  other s s' h hs := by
    obtain ⟨hp, C, hC, hchain, ht⟩ := hs
    obtain ⟨n, hn⟩ := h.ub
    obtain ⟨m, hm⟩ := ht.ub
    have hpool : s'.pool = s.pool := by unfold FS.pool; rw [h.dev, h.bm, h.ddt]
    refine ⟨h.dev ▸ hp, C, hC, h.dev ▸ hchain, ?_⟩
    rw [h.dev]
    exact ⟨⟨n, by rw [hn, hm]⟩, h.cap.trans ht.cap, h.bm ▸ ht.kept, h.dev ▸ ht.snapshot,
      hpool ▸ ht.space, by rw [h.bm, h.dev]; exact ht.total, h.dev ▸ ht.committed,
      h.dev ▸ ht.sound, ht.slot⟩
  write b s hs := (storeWrite_sat b s).mono
    (fun r s' ⟨hrest, hw⟩ => by
      obtain ⟨es, hx, hes⟩ := hw.extends
      refine hs.quiet (by rw [hrest]; rfl) (by rw [hrest]; rfl) hx ?_ hw.keeping
        (fun ds L hsp => ?_)
      · intro ev hev
        rcases List.mem_cons.mp hev with rfl | hev
        · exact .inl (by simp)
        · exact .inr (hes ev hev)
      · obtain ⟨L', hsp', -⟩ := hw.space hsp
        exact ⟨L', hsp'⟩)
    (fun e s' ⟨hrest, e', _, hw⟩ => by
      obtain ⟨es, hx, hes⟩ := hw.extends
      have hcounted : s.pool.bm.Counted := by
        obtain ⟨-, _, -, -, ht⟩ := hs
        obtain ⟨L, hsp⟩ := ht.space
        exact hsp.counted
      refine hs.quiet (by rw [hrest]; rfl) (by rw [hrest]; rfl) hx ?_ (hw.keeping hcounted)
        (fun ds L hsp => ⟨L, hw.space hsp⟩)
      intro ev hev
      rcases List.mem_cons.mp hev with rfl | hev
      · exact .inl (by simp)
      · exact .inr (hes ev hev))
  release r s hs := (storeRelease_sat r s).mono
    (fun _ s' ⟨hrest, hr⟩ => by
      have hx : Disk.Extends s.dev s'.dev [] := by
        rw [show s'.dev = s.dev from hr.dev_eq]
        exact .refl _
      exact hs.quiet (by rw [hrest]; rfl) (by rw [hrest]; rfl) hx (by simp) hr.keeping
        (fun ds L hsp => ⟨L, hr.space hsp⟩))
    (fun _ s' h => h.2.1 ▸ hs)
  autoCommit := keeps_bind (keeps_modify fun _ hs => heldFrom_refuse hs) fun _ => heldFrom_commit
  refuse _ hs := heldFrom_refuse hs

/-- What keeps every such chain keeps the file system held. -/
theorem keeps_held {α : Type} {x : Exec Error FS α}
    (h : ∀ k₀ C₀, Keeps (HeldFrom env k₀ 0 C₀) x) : Keeps (Held env) x := by
  intro s hs
  obtain ⟨k₀, C₀, hfrom⟩ := hs.from
  exact (h k₀ C₀ s hfrom).mono (fun _ _ h => h.held) (fun _ _ h => h.held)

theorem held_commit : Keeps (Held env) (commit env) := keeps_held fun _ _ => heldFrom_commit

theorem held_closed : Closed env (Held env) where
  other s s' h hs := by
    obtain ⟨k₀, C₀, hfrom⟩ := hs.from
    exact (heldFrom_closed.other s s' h hfrom).held
  write b := keeps_held fun _ _ => heldFrom_closed.write b
  release r := keeps_held fun _ _ => heldFrom_closed.release r
  autoCommit := keeps_held fun _ _ => heldFrom_closed.autoCommit
  refuse s hs := by
    obtain ⟨k₀, C₀, hfrom⟩ := hs.from
    exact (heldFrom_refuse hfrom).held

theorem Mounted.held {key : Option Bytes} {d : Disk} {s : FS} (hb : Blank d)
    (hd : Cow.MetaSound d) (h : Mounted env key d s) : Held env s := by
  obtain ⟨buf, hx⟩ := h.dev
  obtain ⟨htot, hfresh⟩ := freshBits_spec d s.ub
  have hcons : d.Consistent := by
    unfold Disk.Consistent
    rw [hb.image, hb.trace]
    rfl
  have hblocks : s.dev.blocks = d.blocks := hx.blocks
  have hroom : s.ub.dataStart.toNat < s.dev.blocks := h.root.placed.room
  have hds : s.ub.dataStart.toNat ≤ d.blocks := by omega
  have hnone : ∀ i, ¬ Owned Dedup.Table.new i := by
    rintro i ⟨k, e, he, -⟩
    cases he
  obtain ⟨-, hdeferred, hcounted, -⟩ :=
    Alloc.Bitmap.reserve_spec (Alloc.Bitmap.new_counted d.blocks) 0 s.ub.dataStart.toNat
  refine ⟨s.dev.trace.length, fun _ => ⟨s.ub, freshBits d s.ub, .new, .new s.ub.inodeCount.toNat⟩,
    ⟨hx.consistent hcons, le_rfl, ?_, ?_, fun _ _ _ n hn => (hnone n hn).elim, ?_⟩, ?_⟩
  · intro k h1 h2
    rw [Nat.le_antisymm h2 h1]
    exact root_congr h.root rfl (Disk.crashAt_length (hx.consistent hcons))
  · intro k ev hk hev
    rw [List.getElem?_eq_none hk] at hev
    cases hev
  · intro k n b hev
    have hm := List.mem_of_getElem? hev
    rw [hx.trace, hb.trace, List.nil_append] at hm
    rcases commit_events hm with ⟨_, _, h⟩ | ⟨_, _, h⟩ | h <;> cases h
  · refine ⟨⟨s.ub.nextInode, rfl⟩, ?_, fun i hi => (hnone i hi).elim, ⟨fun _ => False, ?_⟩, ?_, ?_,
      ?_, hd.of_extends hx, ?_⟩
    · rw [h.inodes]
      rfl
    · exact Space.of_fresh hcounted (htot.symm ▸ hds) (htot.symm ▸ d.blocks_lt) (fun _ => rfl)
        hdeferred (htot.symm ▸ hfresh)
    · exact ⟨_, Space.of_fresh h.counted (h.total.symm ▸ hds) (h.total.symm ▸ d.blocks_lt) h.ddt
        h.deferred (h.total.symm ▸ h.bits)⟩
    · exact h.total.trans hblocks.symm
    · exact htot.trans hblocks.symm
    · rw [marshalLen_congr (htot.trans h.total.symm)]
      exact h.slot

/-- A mount ties its state to the commit it found. -/
theorem HeldFrom.mount {s fs : FS} (h : HeldFrom env k₀ p C₀ s) {key : Option Bytes}
    {ticks orders : Nat} (hm : mount env key ticks orders s.dev = .ok fs) :
    HeldFrom env k₀ p C₀ fs := by
  obtain ⟨hp, C, hC, hchain, ht⟩ := h
  obtain ⟨r, bs, hr, -, rfl⟩ := mount_ok hm
  obtain ⟨r', hr', hreads⟩ := Cow.mount_of_root hchain.last
  rw [hr] at hr'
  cases hr'
  obtain ⟨L, hsnap⟩ := ht.snapshot
  refine ⟨hp, C, hC, hchain, ?_⟩
  show Tied (C s.dev.trace.length) _
  set c := C s.dev.trace.length with hc
  refine ⟨⟨c.ub.nextInode, hreads.ub⟩, ?_, fun i hi => ?_, ht.snapshot,
    ⟨_, hsnap.of_reload hreads.counted hreads.total hreads.deferred hreads.bits hreads.ddt⟩,
    hreads.total.trans ht.committed, ht.committed, ht.sound, ht.slot⟩
  · show r.2.2.2.cap = _
    rw [hreads.tbl]
    exact hchain.last.cap
  · have hlt : i < c.bm.total := by
      obtain ⟨k, e, he, hcov⟩ := hi
      exact lt_of_lt_of_le hcov.2 (hsnap.entry_in k e he).2
    show r.2.1.bits i = true
    rw [hreads.bits i hlt]
    exact (hsnap.bits i hlt).mpr (.inr (.inl hi))

theorem Held.mount {s fs : FS} (h : Held env s) {key : Option Bytes} {ticks orders : Nat}
    (hm : mount env key ticks orders s.dev = .ok fs) : Held env fs := by
  obtain ⟨k₀, C₀, hfrom⟩ := h.from
  exact (hfrom.mount hm).held

end HeldFrom

theorem Held.reload {s s' fs : FS} (h : Held env s) (hc : Committed env s s') {key : Option Bytes}
    {ticks orders : Nat} (hm : Fs.mount env key ticks orders s'.dev = .ok fs) :
    ∃ r bs, BlockStore.new key = .ok bs ∧ fs = mounted s'.dev bs ticks orders r ∧
      Cow.Reads ⟨s.nextUber, s.bm, s.ddt, s.inodes⟩ r := by
  obtain ⟨k₀, C, hchain, hlast, -⟩ := h.commit_chain hc
  obtain ⟨r, bs, hr, hbs, rfl⟩ := mount_ok hm
  obtain ⟨r', hr', hreads⟩ := Cow.mount_of_root hchain.last
  rw [hr] at hr'
  cases hr'
  rw [hlast] at hreads
  exact ⟨r, bs, hbs, rfl, hreads⟩

theorem new_of_key (bs : BlockStore) : BlockStore.new bs.key = .ok bs := by
  obtain ⟨key, hkey⟩ := bs
  cases key with
  | none => rfl
  | some k => exact dif_pos (hkey k rfl)

theorem Held.mounts {s s' : FS} (h : Held env s) (hc : Committed env s s') (ticks orders : Nat) :
    ∃ fs, Fs.mount env s.bs.key ticks orders s'.dev = .ok fs := by
  obtain ⟨k₀, C, hchain, -, ht⟩ := h.commit_chain hc
  obtain ⟨r, hr, hreads⟩ := Cow.mount_of_root hchain.last
  have hslot := ht.slot
  rw [← hreads.ub] at hslot
  have hlen : (C s'.dev.trace.length).bm.marshalLen < 2 ^ 32 := by
    rw [← hchain.last.lens.bm]
    exact UInt32.toNat_lt _
  have hsize : ¬ 2 ^ 64 ≤ r.1.metaBlocks.toNat * Block.size := by
    have hblk : Block.size = Cow.blk := rfl
    rw [hblk]
    omega
  refine ⟨mounted s'.dev s.bs ticks orders r, ?_⟩
  unfold Fs.mount
  rw [hr, new_of_key]
  simp only [mapError_ok, ok_bind]
  rw [if_neg hsize]
  rfl

theorem held_of_run {P : Session → Op → Outcome → Prop} {past : List Session} {s : Session}
    (run : Run env Cow.MetaSound P past s) : Held env s.fs := by
  induction run with
  | start blank hd run =>
    exact held_closed.of_format held_commit blank run (fun s hs => hs.held blank hd)
  | step _ does _ ih =>
    exact held_closed.of_perform_mount held_commit (fun _ _ _ _ _ h hm => h.mount hm) does ih

/-- Until the next uberblock write, the clusters of a commit keep their content. -/
theorem Chain.bytes_kept {d : Disk} {k₀ : Nat} {C : Nat → Cow.Commit} (h : Chain env d k₀ C)
    {i n : Nat} (hi : k₀ ≤ i) (hn : Owned (C i).ddt n) :
    ∀ j, (∀ k m b, i ≤ k → k < i + j → d.trace[k]? ≠ some (.write .uber m b)) →
      i + j ≤ d.trace.length →
      C (i + j) = C i ∧ (d.crashAt (i + j)).image n = (d.crashAt i).image n := by
  intro j
  induction j with
  | zero => exact fun _ _ => ⟨rfl, rfl⟩
  | succ j ih =>
    intro hno hle
    obtain ⟨hC, himg⟩ := ih (fun k m b h1 h2 => hno k m b h1 (by omega)) (by omega)
    have hlt : i + j < d.trace.length := by omega
    obtain ⟨ev, hev⟩ : ∃ ev, d.trace[i + j]? = some ev := ⟨_, List.getElem?_eq_getElem hlt⟩
    have hstep := h.step (i + j) ev (by omega) hev
    have hone : (d.crashAt (i + (j + 1))).image =
        replay (d.crashAt (i + j)).image [ev] := by
      show replay _ (d.trace.take (i + j + 1)) = _
      rw [List.take_add_one, hev, Option.toList_some, replay_append]
      rfl
    rw [hone, ← Nat.add_assoc]
    rw [hC] at hstep
    cases ev with
    | write o m b =>
      cases o with
      | uber => exact (hno (i + j) m b (by omega) (by omega) hev).elim
      | data =>
        have hne : n ≠ m := fun heq => hstep.2.unowned (heq ▸ hn)
        exact ⟨hstep.1, (Function.update_of_ne hne _ _).trans himg⟩
      | snapshot =>
        have hds := h.owns i hi (by omega) n hn
        have hne : n ≠ m := fun heq => absurd hstep.2 (by omega)
        exact ⟨hstep.1, (Function.update_of_ne hne _ _).trans himg⟩
    | _ => exact ⟨hstep, himg⟩

end Fs
end BloomFS

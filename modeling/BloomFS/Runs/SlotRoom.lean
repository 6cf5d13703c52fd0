/-
Room in the metadata slots.

`format` sizes a slot for the bitmap of the device, a full inode table and a dedup table
of `defaultDdtReserve` bytes.  Nothing stops the dedup table from growing further: from
then on no commit succeeds.
-/
import BloomFS.Runs.OneFile

namespace BloomFS
namespace Runs

open Bytes Exec Block Dir Fs Store Spec Refine
open Alloc.Bitmap (FreeRun)

variable {env : Env} {past : List Session} {s : Session}

/-- On a device without errors a commit fails for the size of its tables exactly when they
do not fit. -/
theorem metaTooBig_iff (hw : Fs.Working s.fs) (hadv : s.fs.ub.CanAdvance) :
    (∃ s', perform env .commit s = (.error (.err (.cow .metaTooBig)), s')) ↔
      ¬ Cow.Fits s.fs.ub s.fs.bm s.fs.ddt s.fs.inodes := by
  have hd := metaSound_of_reliable hw.reliable
  constructor
  · rintro ⟨s', hdoes⟩ hfits
    obtain ⟨fs, hrun, -⟩ : ∃ fs, commit env s.fs = .ok () fs ∧ Committed env s.fs fs :=
      commit_succeeds hd hw.placed hadv hfits
    have hexec : execOf env s.handles .commit s.fs = .ok .unit fs := bind_of_ok hrun
    have hcall : call env .commit s = _ := hdoes
    rw [call, hexec] at hcall
    cases hcall
  · intro hfits
    cases hc : commit env s.fs with
    | ok u fs =>
      have hcom : Committed env s.fs fs := (commit_sat s.fs).ok hc
      exact absurd hcom.fits hfits
    | error e fs =>
      obtain ⟨es, -, -, hwhy⟩ := ((commit_sat s.fs).error hc).dev
      obtain ⟨-, ⟨-, hno⟩ | ⟨rfl, -⟩⟩ := hwhy hd hw.placed.two_le (nextSlot_le hw.placed _ _)
      · exact (hno hadv).elim
      · have hexec : execOf env s.handles .commit s.fs = .error (.err (.cow .metaTooBig)) fs :=
          bind_of_error hc
        refine ⟨⟨fs, s.handles⟩, ?_⟩
        show call env .commit s = _
        rw [call, hexec]
        rfl

/-- The reserve is enough for a table that is no longer than it. -/
theorem fits_of_reserve (hw : Fs.Working s.fs)
    (hslot : s.fs.ub.metaBlocks.toNat =
      Cow.slotBlocks s.fs.dev.blocks defaultInodeCount defaultDdtReserve)
    (hcap : s.fs.inodes.cap = defaultInodeCount)
    (hfew : s.fs.ddt.len * Dedup.Table.recSize ≤ defaultDdtReserve) :
    Cow.Fits s.fs.ub s.fs.bm s.fs.ddt s.fs.inodes := by
  have hle : s.fs.bm.marshalLen + 57 + defaultDdtReserve + defaultInodeCount * Inode.inodeSize ≤
      Cow.slotBlocks s.fs.dev.blocks defaultInodeCount defaultDdtReserve * Cow.blk :=
    le_slotBlocks s.fs.bm hw.total
  have hcount : s.fs.inodes.marshalLen ≤ defaultInodeCount * Inode.inodeSize := by
    rw [← hcap]
    exact Nat.mul_le_mul_right _ s.fs.inodes.count_le
  unfold Cow.Fits Dedup.Table.marshalLen
  rw [hslot]
  omega

/-! ## A file of many records -/

/-- Keys that all have an entry. -/
theorem le_len {t : Dedup.Table} {keys : List Dedup.Key} (hnodup : keys.Nodup)
    (h : ∀ k ∈ keys, t.lookup k ≠ none) : keys.length ≤ t.len := by
  have hsub : keys ⊆ t.m.keys := fun k hk =>
    AList.lookup_isSome.mp (Option.isSome_iff_ne_none.mpr (h k hk))
  have hle := (hnodup.subperm hsub).length_le
  have hlen : t.m.keys.length = t.len := List.length_map _
  omega

/-- The blocks that are hashed add at most an entry each. -/
theorem len_le_of_adds {s s' : FS} {bs : List Bytes} (h : Adds env s s' bs) :
    s'.ddt.len ≤ s.ddt.len + bs.length := by
  have hsub : s'.ddt.m.keys ⊆ s.ddt.m.keys ++ bs.map env.blake3 := fun k hk => by
    have hk : s'.ddt.lookup k ≠ none := Option.isSome_iff_ne_none.mp (AList.lookup_isSome.mpr hk)
    rcases (h.known k).mp hk with hold | ⟨b, hb, rfl⟩
    · exact List.mem_append_left _
        (AList.lookup_isSome.mp (Option.isSome_iff_ne_none.mpr hold))
    · exact List.mem_append_right _ (List.mem_map_of_mem hb)
  have hle := (s'.ddt.m.keys_nodup.subperm hsub).length_le
  have hlen : ∀ t : Dedup.Table, t.m.keys.length = t.len := fun t => List.length_map _
  rw [List.length_append, List.length_map, hlen, hlen] at hle
  exact hle

/-- The device has `n` blocks and slots of `w` blocks, and there are entries for `m` records
and at most two other blocks. -/
structure Populated (n w m : Nat) (s : FS) : Prop where
  entries : m ≤ s.ddt.len
  few : s.ddt.len ≤ m + 2
  seq : s.ub.seq.toNat + 1 < 2 ^ 64
  slot : s.ub.metaBlocks.toNat = w
  blocks : s.dev.blocks = n

/-- A file of `m` records is written, all of them new. -/
theorem exists_populated {n w m : Nat} (hn : n < 2 ^ 34)
    (hslot : Cow.slotBlocks n defaultInodeCount defaultDdtReserve = w) (h64 : 64 ≤ m)
    (hm : m < 2 ^ 32 - 2) (hroom : 18 + 2 * w + (m * 8 + clusters (4 + m * refSize)) ≤ n) :
    ∃ past s, Run Env.plain Disk.Reliable Smooth past s ∧ Populated n w m s.fs := by
  obtain ⟨past, s, run, h, -⟩ := oneFile ground_plain hn hslot (by omega)
  have run := run.mono (fun _ hd => hd) fun _ _ _ hp => hp.1
  have hgoes := h.writeFile ground_plain length_zeros h64 hm hroom
  cases hr : (writeFile 1 (counting m) : Act Env.plain Unit).1 s.fs with
  | error f fs => exact (hgoes.error hr).elim
  | ok a fs =>
    have hexec : execOf Env.plain s.handles (.writeFile 1 (counting m)) s.fs = .ok .unit fs :=
      bind_of_ok hr
    have hdoes : perform Env.plain (.writeFile 1 (counting m)) s =
        (.ok .unit, ⟨fs, s.handles⟩) := by
      show call Env.plain _ s = _
      rw [call, hexec]
      rfl
    have hop : Op.InSession (.writeFile 1 (counting m)) := trivial
    have hsteady : Steady s.fs fs :=
      (steady_closed s.fs).of_perform (steady_commit s.fs) hop hdoes (.refl _)
    obtain ⟨hub, -, refs, p, hlaid⟩ := hgoes.ok hr
    refine ⟨_, _, run.step hdoes (show Smooth s _ _ from ⟨trivial, _, rfl⟩), ?_, ?_, ?_,
      hsteady.metaBlocks ▸ h.slot, hsteady.blocks.trans h.filling.blocks⟩
    · have hnodup := nodup_record length_zeros ground_plain (m := m) (by decide) (by omega)
      have hle := le_len (t := fs.ddt) hnodup fun k hk => by
        obtain ⟨i, hi, rfl⟩ := List.mem_map.mp hk
        exact (hlaid.adds.known _).mpr
          (.inr ⟨_, List.mem_append_left _ (List.mem_map_of_mem hi), rfl⟩)
      rwa [List.length_map, List.length_range] at hle
    · have hle := len_le_of_adds hlaid.adds
      have hone := h.single
      rw [List.length_append, List.length_map, List.length_range, List.length_singleton] at hle
      show fs.ddt.len ≤ m + 2
      omega
    · show fs.ub.seq.toNat + 1 < 2 ^ 64
      have := h.seq
      rw [hub]
      omega

/-! ## Commits -/

/-- In every state of a run on a device without errors, a commit does not fail for the
size of its tables if and only if they fit; within a session they do as long as the
entries of the dedup table fit the reserve. -/
theorem commit_has_room (run : Run env Disk.Reliable (fun _ _ _ => True) past s)
    (hseq : s.fs.ub.seq.toNat + 1 < 2 ^ 64) :
    ((∀ s', perform env .commit s ≠ (.error (.err (.cow .metaTooBig)), s')) ↔
      Cow.Fits s.fs.ub s.fs.bm s.fs.ddt s.fs.inodes) ∧
    (Run env Disk.Reliable inSession past s →
      s.fs.ddt.len * Dedup.Table.recSize ≤ defaultDdtReserve →
      ∀ s', perform env .commit s ≠ (.error (.err (.cow .metaTooBig)), s')) := by
  have hw := working_of_run run
  have hiff : (∃ s', perform env .commit s = (.error (.err (.cow .metaTooBig)), s')) ↔ _ :=
    metaTooBig_iff hw ⟨hseq, hw.placed.activeMeta_le⟩
  rw [← not_exists, hiff, not_not]
  refine ⟨Iff.rfl, fun run' hfew => ?_⟩
  obtain ⟨-, hslot, hcap⟩ := layout_of_run run'
  exact fits_of_reserve hw hslot hcap hfew

/-- A file of 1000 records is committed. -/
theorem commit_has_room_records : ∃ past s, Run Env.plain Disk.Reliable inSession past s ∧
    1000 ≤ s.fs.ddt.len ∧ s.fs.ddt.len * Dedup.Table.recSize ≤ defaultDdtReserve ∧
      s.fs.ub.seq.toNat + 1 < 2 ^ 64 ∧
      ∀ s', perform Env.plain .commit s ≠ (.error (.err (.cow .metaTooBig)), s') := by
  have hslot : Cow.slotBlocks 9000 defaultInodeCount defaultDdtReserve = 193 := by decide
  obtain ⟨past, s, run, h⟩ := exists_populated (m := 1000) (by decide) hslot (by decide) (by decide)
    (by decide)
  have hin := run.mono (fun _ hd => hd) fun _ _ _ hp => hp.1
  have hany := run.mono (fun _ hd => hd) fun _ _ _ _ => trivial
  have hfew : s.fs.ddt.len * Dedup.Table.recSize ≤ defaultDdtReserve := by
    have hlen := h.few
    rw [show Dedup.Table.recSize = 57 from rfl, show defaultDdtReserve = 262144 from rfl]
    omega
  exact ⟨past, s, hin, h.entries, hfew, h.seq, (commit_has_room hany h.seq).2 hin hfew⟩

/-! ## A table that outgrows the slot -/

/-- On a device of 113000 blocks a file of 14000 records is written, all of them new.  The
slots have room for 196 blocks, and the dedup table alone takes more. -/
theorem slot_outgrown : ∃ past s s', Run Env.plain Disk.Reliable Smooth past s ∧
    perform Env.plain .commit s = (.error (.err (.cow .metaTooBig)), s') := by
  have hslot : Cow.slotBlocks 113000 defaultInodeCount defaultDdtReserve = 196 := by decide
  obtain ⟨past, s, run, h⟩ := exists_populated (m := 14000) (by decide) hslot (by decide)
    (by decide) (by decide)
  have hw : Fs.Working s.fs := working_of_run run
  have hbig : ¬ Cow.Fits s.fs.ub s.fs.bm s.fs.ddt s.fs.inodes := by
    have hbm : s.fs.bm.marshalLen = 14136 := by
      unfold Alloc.Bitmap.marshalLen Alloc.Bitmap.words
      rw [hw.total, h.blocks]
    have hentries := h.entries
    unfold Cow.Fits Dedup.Table.marshalLen
    rw [h.slot, show Dedup.Table.recSize = 57 from rfl, show Cow.blk = 4096 from rfl]
    omega
  obtain ⟨s', hfails⟩ := (metaTooBig_iff hw ⟨h.seq, hw.placed.activeMeta_le⟩).mpr hbig
  exact ⟨past, s, s', run, hfails⟩

end Runs
end BloomFS

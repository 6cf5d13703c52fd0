/-
What a passing `fallocate` promises.

`fallocate` compares the clusters of the records and of the refs with all clusters that
are free or about to be.  It leaves out the four bytes of the header of the block map,
and it does not ask whether the clusters lie side by side.  Where they do, and the header
makes no difference, a write of that length into an empty file succeeds.
-/
import BloomFS.Fs.Promise
import BloomFS.Runs.Fragments

namespace BloomFS
namespace Runs

open Bytes Exec Block Dir Fs Store Spec Refine
open Alloc.Bitmap (FreeRun)

variable {env : Env}

/-- The clusters that `fallocate` counts for `length` bytes will do: as many as are needed
lie side by side, the header of the block map needs none of its own or there is one for
it, and no reference count is near its end. -/
structure Promised (s : FS) (length : Nat) : Prop where
  run : ∃ p, FreeRun s.bm.bits s.bm.total (min (worst length) (s.bm.available + s.bm.deferredCount))
    p
  header : worst length ≤ estimate length ∨ estimate length < s.bm.available + s.bm.deferredCount
  counts : ∀ key e, s.ddt.lookup key = some e → e.refs.toNat + (recordsOf length + 1) < 2 ^ 32
  few : recordsOf length + 2 < 2 ^ 32

theorem Promised.vacant {s : FS} {id length : Nat} (hw : Working s) (h : Promised s length)
    (hpos : 0 < length) (hok : s.fallocate id length = .ok ()) :
    Vacant s (worst length) (recordsOf length + 1) := by
  have hle : worst length ≤ s.bm.available + s.bm.deferredCount := by
    have hest := (fallocate_ok_iff hw.used_le hpos).mp hok
    have hone := worst_le length
    rcases h.header with hh | hh
    · omega
    · omega
  obtain ⟨p, hrun⟩ := h.run
  rw [Nat.min_eq_left hle] at hrun
  exact ⟨hw, ⟨p, hrun⟩, h.counts, by have := h.few; omega⟩

/-- In every state of a run on a device without errors, a `fallocate` that passes where
its clusters will do is followed by a `writeFile` that succeeds. -/
theorem fallocate_kept (hl : env.Lawful) (hcodec : ∀ b, ∃ c, env.encodeAll b = some c)
    {past : List Session} {s : Session} (run : Run env Disk.Reliable (fun _ _ _ => True) past s)
    {id : Nat} {in_ : Inode} {blob : Bytes} (hreg : s.fs.regular id = .ok in_)
      (hempty : in_.size = 0)
    (hpos : 0 < blob.length) (h64 : blob.length < 2 ^ 64) (hprom : Promised s.fs blob.length)
    (hok : s.fs.fallocate id blob.length = .ok ()) :
    ∃ s', perform env (.writeFile id blob) s = (.ok .unit, s') := by
  have hid : id < s.fs.inodes.cap := by
    by_contra hge
    unfold FS.regular FS.getInode Inode.Table.get at hreg
    rw [if_pos (by omega)] at hreg
    cases hreg
  have hv := hprom.vacant (working_of_run run) hpos hok
  have hwrite := hv.writeFile hl hcodec hreg hid hempty hpos h64
  cases hr : (writeFile id blob : Act env Unit).1 s.fs with
  | ok a fs =>
    have hexec : execOf env s.handles (.writeFile id blob) s.fs = .ok .unit fs := bind_of_ok hr
    refine ⟨⟨fs, s.handles⟩, ?_⟩
    show call env _ s = _
    rw [call, hexec]
    rfl
  | error f fs => exact (hwrite.error hr).elim

/-- 64 records and their block map into a new file, on a device with room. -/
theorem fallocate_kept_records : ∃ past s s',
    Run Env.plain Disk.Reliable (fun _ _ _ => True) past s ∧
      Promised s.fs (counting 64).length ∧ s.fs.fallocate 1 (counting 64).length = .ok () ∧
      perform Env.plain (.writeFile 1 (counting 64)) s = (.ok .unit, s') := by
  have hslot : Cow.slotBlocks 8192 defaultInodeCount defaultDdtReserve = 193 := by decide
  obtain ⟨past, s, run, h, -⟩ := oneFile ground_plain (by decide) hslot (by decide)
  have run := run.mono (fun _ hd => hd) fun _ _ _ _ => trivial
  have htotal : s.fs.bm.total = 8192 := h.filling.working.total.trans h.filling.blocks
  have hused : s.fs.bm.used = 389 := h.filling.used
  have havail : s.fs.bm.available = 7803 := by rw [Alloc.Bitmap.available, htotal, hused]
  have hlen : (counting 64).length = 2097152 := length_contents length_zeros 64
  have hworst : worst 2097152 = 513 := by decide
  have hest : estimate 2097152 = 513 := by decide
  have hrec : recordsOf 2097152 = 64 := by decide
  have hprom : Promised s.fs 2097152 := by
    have hv := h.vacant (m := 513) (k := 65) (by decide) (by decide)
    refine ⟨?_, .inl (by omega), fun key e he => ?_, by rw [hrec]; decide⟩
    · rw [hworst, Nat.min_eq_left (by omega)]
      exact hv.run
    · rw [hrec]
      exact hv.counts key e he
  have hok : s.fs.fallocate 1 2097152 = .ok () :=
    (fallocate_ok_iff h.filling.working.used_le (by decide)).mpr (by omega)
  rw [← hlen] at hprom hok
  obtain ⟨s', hwrite⟩ := fallocate_kept Env.plain_lawful ground_plain.codec run h.regular h.empty
    (by rw [hlen]; decide) (by rw [hlen]; decide) hprom hok
  exact ⟨past, s, s', run, hprom, hok, hwrite⟩

/-- A device of 903 blocks with 513 of them free, two of which lie apart from the others.
`fallocate` counts 512 clusters for 64 records and one for their refs, and passes.  Whatever
the codec, there are records that all take their eight clusters, and there is no room for the
last one. -/
theorem promise_broken : ∃ blocks records, ∀ z : Codec, ∃ x past s s',
    (∀ i, (x i).length = 32760) ∧
      Run (Env.coded z) Disk.Reliable (fun _ _ _ => True) past s ∧ s.fs.dev.blocks = blocks ∧
      Cow.Fits s.fs.ub s.fs.bm s.fs.ddt s.fs.inodes ∧
      s.fs.regular 2 = .ok (s.fs.inodes.slots 2) ∧ (s.fs.inodes.slots 2).size = 0 ∧
      s.fs.fallocate 2 (contents x records).length = .ok () ∧
      perform (Env.coded z) (.writeFile 2 (contents x records)) s =
        (.error (.err (.store (.alloc .noSpace))), s') := by
  refine ⟨903, 64, fun z => ?_⟩
  obtain ⟨x, hx⟩ := exists_bulky z
  obtain ⟨past, s, p, q, r, run, h, hfits, hcap, hreg, hempty⟩ := exists_fragmented (ground_coded z)
  have htotal : s.fs.bm.total = 903 := h.filling.working.total.trans h.filling.blocks
  have hused : s.fs.bm.used = 390 := h.filling.used
  have havail : s.fs.bm.available = 513 := by rw [Alloc.Bitmap.available, htotal, hused]
  have hlen : (contents x 64).length = 2097152 := length_contents hx.length 64
  have hest : estimate 2097152 = 513 := by decide
  have hok : s.fs.fallocate 2 (contents x 64).length = .ok () := by
    rw [hlen]
    exact (fallocate_ok_iff h.filling.working.used_le (by decide)).mpr (by omega)
  have hwrite : Sat (writeFile 2 (contents x 64) : Act (Env.coded z) Unit).1 s.fs
      (fun _ _ => False) (fun f _ => f = .err (.store (.alloc .noSpace))) := by
    refine sat_get_bind (sat_bind (sat_ofExcept (Q := fun in_ s' => in_ = s.fs.inodes.slots 2 ∧
      s.fs = s') (fun in_ hin => ?_) fun f hf => ?_) ?_ fun _ _ he => he)
    · cases hreg.symm.trans hin
      exact ⟨rfl, rfl⟩
    · cases hreg.symm.trans hf
    rintro _ _ ⟨rfl, rfl⟩
    refine Within.sat_ite (fun hbig => absurd hbig (by rw [hlen]; decide)) fun _ => ?_
    rw [chunk_contents hx.length (by decide) (recordSizeFor_long (by decide)), List.mapM_map]
    exact sat_bind (h.mapM (ground_coded z) hx (by decide) (by decide)) (fun _ _ hf => hf.elim)
      fun _ _ he => he
  cases hr : (writeFile 2 (contents x 64) : Act (Env.coded z) Unit).1 s.fs with
  | ok a fs => exact (hwrite.ok hr).elim
  | error f fs =>
    rw [hwrite.error hr] at hr
    have hexec : execOf (Env.coded z) s.handles (.writeFile 2 (contents x 64)) s.fs =
        .error (.err (.store (.alloc .noSpace))) fs := bind_of_error hr
    refine ⟨x, past, s, ⟨fs, s.handles⟩, fun i => by have := hx.length i; omega,
      run.mono (fun _ hd => hd) fun _ _ _ _ => trivial, h.filling.blocks, hfits, hreg, hempty,
      hok, ?_⟩
    show call (Env.coded z) _ s = _
    rw [call, hexec]
    rfl

end Runs
end BloomFS

/-
The snapshot of a commit reads back.

The round trip of one commit on its own: whatever the device, the scratch buffer
and the free slots held before, what `commit` recorded is what `mount` returns.
-/
import BloomFS.Cow.History

namespace BloomFS
namespace Cow

open Bytes Exec Block

/-- The fields of `u` that `format` fixes are as it lays them out on a device of
`blocks` blocks. -/
def Uberblock.Geometry (u : Uberblock) (blocks : Nat) : Prop :=
  ∃ inodeCount reserve, Formattable blocks (capacity inodeCount) reserve ∧
    u = { freshUber blocks (capacity inodeCount)
            (slotBlocks blocks (capacity inodeCount) reserve) with
          seq := u.seq, activeMeta := u.activeMeta, rootInode := u.rootInode,
          nextInode := u.nextInode, bitmapLen := u.bitmapLen, ddtLen := u.ddtLen,
          inodeLen := u.inodeLen }

variable {env : Env} {u : Uberblock} {blocks : Nat}

theorem Uberblock.Geometry.slots (h : u.Geometry blocks) (hb : blocks < 2 ^ 64) :
    u.magic = uberMagic ∧ 2 ≤ u.metaStart ∧ u.metaStart + u.metaBlocks.toNat ≤ blocks := by
  obtain ⟨n, reserve, hform, hu⟩ := h
  have hp := fresh_placed hb hform
  have hA : u.metaA.toNat = 2 := by
    rw [hu]
    exact hp.metaA
  have hB : u.metaB.toNat = 2 + u.metaBlocks.toNat := by
    rw [hu]
    exact hp.metaB
  have hroom : 2 + 2 * u.metaBlocks.toNat < blocks := by
    rw [hu]
    exact hp.dataStart ▸ hp.room
  have hmagic : u.magic = uberMagic := by
    rw [hu]
    exact hp.magic
  refine ⟨hmagic, ?_⟩
  unfold Uberblock.metaStart
  split <;> omega

/-- After a commit the image mounts to what was committed.  The other uberblock
slot, which held the previous commit, must not hold a newer one. -/
theorem mount_of_commit {s s' : CommitState} {prev : Uberblock} {ddt : Dedup.Table}
    {tbl : Inode.Table} {root next : UInt64} (hgeo : prev.Geometry s.dev.blocks)
    (hcounted : s.bm.Counted) (hstray : ∀ i, s.bm.total ≤ i → s.bm.bits i = false)
    (hcap : tbl.cap = prev.inodeCount.toNat) (hsmall : Small s.bm ddt tbl)
    (hother : ∀ v, parseUber env (s.dev.image (prev.seq.toNat % 2)) = .ok v → ¬ prev.seq < v.seq)
    (hok : commit env prev ddt tbl root next s = .ok u s') :
    ∃ ddt', mount env s'.dev = .ok (u, { s.bm with deferred := [] }, ddt', tbl) ∧
      ∀ k, ddt'.lookup k = ddt.lookup k := by
  obtain ⟨hadv, rfl, hfits, -, tail, hlen, hx⟩ := (commit_sat env prev ddt tbl root next s).ok hok
  have hseq := hadv.seq root next
  have hgeo' : (prev.successor root next).Geometry s.dev.blocks := by
    obtain ⟨n, reserve, hform, hu⟩ := hgeo
    refine ⟨n, reserve, hform, ?_⟩
    unfold Uberblock.successor
    rw [hu]
  obtain ⟨hmagic, hge, hrange⟩ := hgeo'.slots s.dev.blocks_lt
  have hold : ∀ v, parseUber env (s.dev.image (((prev.successor root next).seq.toNat + 1) % 2)) =
      .ok v → v.seq.toNat < (prev.successor root next).seq.toNat := by
    intro v hv
    rw [hseq] at hv ⊢
    have hpar : (prev.seq.toNat + 1 + 1) % 2 = prev.seq.toNat % 2 := by omega
    rw [hpar] at hv
    have hle := hother v hv
    rw [UInt64.lt_iff_toNat_lt] at hle
    omega
  have hw := Written.of_flip hmagic hge hrange (by omega) hfits hlen hold hx.blocks hx.image
  have hlens := hsmall.lens (prev.successor root next)
  obtain ⟨ddt', hddt', hlook⟩ := Dedup.Table.unmarshal_marshal hlens.bounds.2
  exact ⟨ddt', hw.mount hlens hcap
    (Alloc.Bitmap.unmarshal_marshal_eq hlens.bounds.1 hcounted hstray) hddt', hlook⟩

/-- A device of 64 blocks full of old bytes, with the previous uberblock, number 7, in its
slot, and a scratch buffer with the bytes of a longer snapshot.  The commit records a bitmap
with a deferred cluster, two blocks and two inodes. -/
theorem mount_of_commit_entries : ∃ (prev u : Uberblock) (s s' : CommitState) (ddt : Dedup.Table)
    (tbl : Inode.Table), prev.Geometry s.dev.blocks ∧ prev.seq = 7 ∧
    s.dev.image 1 = prev.marshalBinary Env.plain ∧
    (∀ n, n ≠ 1 → s.dev.image n = List.replicate blk 170) ∧
    s.scratch = some (List.replicate 9000 85) ∧ s.bm.bits 4 = true ∧ s.bm.deferred = [⟨3, 1⟩] ∧
    tbl.count = 2 ∧ tbl.slots 1 = someInode ∧
    commit Env.plain prev twoBlocks tbl 0 9 s = .ok u s' ∧
    mount Env.plain s'.dev = .ok (u, { s.bm with deferred := [] }, ddt, tbl) ∧
    ∀ k, ddt.lookup k = twoBlocks.lookup k := by
  obtain ⟨n, hn⟩ : ∃ n : Nat, n = 64 := ⟨_, rfl⟩
  have hn64 : n < 2 ^ 64 := by omega
  have hform : Formattable n (capacity 2) 1 := by
    simp only [Formattable, slotBlocks, capacity, Inode.inodeSize, blk, Block.size,
      if_neg (show 2 ≠ 0 by omega)]
    omega
  obtain ⟨prev, hprev⟩ : ∃ prev : Uberblock, prev =
      { freshUber n (capacity 2) (slotBlocks n (capacity 2) 1) with seq := 7 } := ⟨_, rfl⟩
  obtain ⟨bm, hbm⟩ : ∃ bm : Alloc.Bitmap, bm = ((Alloc.Bitmap.new n).reserve 0 5).defer 3 1 :=
    ⟨_, rfl⟩
  obtain ⟨tbl, htbl⟩ : ∃ tbl, tbl = ((Inode.Table.new 2).store 0 (show 0 < 2 by omega)
    someInode).store 1 (show 1 < 2 by omega) someInode := ⟨_, rfl⟩
  obtain ⟨s, hs⟩ : ∃ s : CommitState, s = ⟨{ Disk.zeroed n hn64 with
    image := Function.update (fun _ => List.replicate blk 170) 1 (prev.marshalBinary Env.plain) },
    bm, some (List.replicate 9000 85)⟩ := ⟨_, rfl⟩
  have hgeo : prev.Geometry s.dev.blocks := by
    rw [hs, hprev]
    exact ⟨2, 1, hform, rfl⟩
  have hseq : prev.seq = 7 := by rw [hprev]
  have hmagic := (hgeo.slots s.dev.blocks_lt).1
  have hadv : prev.CanAdvance := by
    rw [hprev]
    show (7 : UInt64).toNat + 1 < 2 ^ 64 ∧ (0 : UInt8).toNat ≤ 1
    decide
  have hnext : (prev.successor 0 9).Geometry s.dev.blocks := by
    rw [hs, hprev]
    exact ⟨2, 1, hform, rfl⟩
  -- the tables
  obtain ⟨htotal, hdef, hcounted, hbits⟩ :=
    Alloc.Bitmap.reserve_spec (Alloc.Bitmap.new_counted n) 0 5
  have hbmlen : bm.marshalLen = 16 := by
    rw [hbm]
    show 8 + (((Alloc.Bitmap.new n).reserve 0 5).total + 63) / 64 * 8 = 16
    rw [htotal]
    show 8 + (n + 63) / 64 * 8 = 16
    omega
  have htwo : twoBlocks.marshalLen = 122 := by decide
  have htbllen : tbl.marshalLen = 256 := by
    rw [htbl]
    rfl
  have hfits : Fits prev bm twoBlocks tbl := by
    have hfresh := fresh_fits hn64 hform
    have hmeta : prev.metaBlocks =
        (freshUber n (capacity 2) (slotBlocks n (capacity 2) 1)).metaBlocks := by rw [hprev]
    have hblk : blk = 4096 := rfl
    unfold Fits Alloc.Bitmap.marshalLen at hfresh
    unfold Fits
    rw [hmeta, hbmlen, htwo, htbllen, hblk]
    rw [hblk] at hfresh
    omega
  have hbms : s.bm = bm := by rw [hs]
  have hsmall : Small s.bm twoBlocks tbl := by
    rw [hbms]
    exact ⟨by omega, by omega, by omega⟩
  have hother : ∀ v, parseUber Env.plain (s.dev.image (prev.seq.toNat % 2)) = .ok v →
      ¬ prev.seq < v.seq := by
    intro v hv
    have himage : s.dev.image (prev.seq.toNat % 2) = prev.marshalBinary Env.plain := by
      rw [hseq, hs]
      rfl
    rw [himage, parseUber_marshalBinary Env.plain hmagic] at hv
    cases hv
    exact UInt64.lt_irrefl _
  have hsound : MetaSound s.dev := by
    rw [hs]
    exact ⟨fun _ => rfl, fun _ => rfl, fun _ => rfl⟩
  have hroom := (hnext.slots s.dev.blocks_lt).2
  obtain ⟨s', hrun⟩ := commit_completes Env.plain 0 9 hsound (by omega) hroom.2 hadv (hbms ▸ hfits)
  have hcount : s.bm.Counted := by
    rw [hbms, hbm]
    exact hcounted
  have hstray : ∀ i, s.bm.total ≤ i → s.bm.bits i = false := by
    intro i hi
    rw [hbms, hbm] at hi ⊢
    change ((Alloc.Bitmap.new n).reserve 0 5).total ≤ i at hi
    rw [htotal] at hi
    have hi : n ≤ i := hi
    show ((Alloc.Bitmap.new n).reserve 0 5).bits i = false
    rw [hbits]
    show (false || decide (0 ≤ i ∧ i < 0 + 5 ∧ i < n)) = false
    simp only [Bool.false_or, decide_eq_false_iff_not]
    omega
  have hcap : tbl.cap = prev.inodeCount.toNat := by
    rw [htbl, hprev]
    exact (capacity_toNat hform).symm
  obtain ⟨ddt, hmount, hlook⟩ := mount_of_commit hgeo hcount hstray hcap hsmall hother hrun
  refine ⟨prev, _, s, s', ddt, tbl, hgeo, hseq, by rw [hs]; rfl, fun i hi => ?_, by rw [hs], ?_, ?_,
    by rw [htbl]; rfl, by rw [htbl]; rfl, hrun, hmount, hlook⟩
  · rw [hs]
    show Function.update (fun _ => List.replicate blk 170) 1 _ i = _
    rw [Function.update_of_ne hi]
  · rw [hbms, hbm]
    show ((Alloc.Bitmap.new n).reserve 0 5).bits 4 = true
    rw [hbits]
    show (false || decide (0 ≤ 4 ∧ 4 < 0 + 5 ∧ 4 < n)) = true
    simp [hn]
  · rw [hbms, hbm, Alloc.Bitmap.defer, hdef]
    rfl

end Cow
end BloomFS

/-
Where a fresh image puts its parts, and that a metadata slot is large enough.

The slot is sized from a bitmap of whole bytes, while the bitmap is serialized in
whole words behind a header.  The slack in the formula covers both for every device
size, so a snapshot within the reserve always fits.
-/
import BloomFS.Cow.Root

namespace BloomFS
namespace Cow

open Bytes Exec Block

inductive Region where
  | uber
  | slotA
  | slotB
  | data
  deriving Repr, DecidableEq

/-- Block `i` lies in a region of the image that `u` describes. -/
def Region.Has (u : Uberblock) (i : Nat) : Region → Prop
  | .uber => i = uberSlot0 ∨ i = uberSlot1
  | .slotA => u.metaA.toNat ≤ i ∧ i < u.metaA.toNat + u.metaBlocks.toNat
  | .slotB => u.metaB.toNat ≤ i ∧ i < u.metaB.toNat + u.metaBlocks.toNat
  | .data => u.dataStart.toNat ≤ i ∧ i < u.totalBlocks.toNat

section Regions

variable {u : Uberblock} {i : Nat}

theorem Region.has_uber : Region.uber.Has u i ↔ i < 2 := by
  have hzero : uberSlot0 = 0 := rfl
  have hone : uberSlot1 = 1 := rfl
  show i = uberSlot0 ∨ i = uberSlot1 ↔ i < 2
  omega

/-- The region of a block, by where the next one starts. -/
def Region.of (u : Uberblock) (i : Nat) : Region :=
  if i < 2 then .uber
  else if i < u.metaB.toNat then .slotA
  else if i < u.dataStart.toNat then .slotB
  else .data

/-- Regions that follow one another share no block. -/
theorem Region.eq_of (hA : u.metaA.toNat = 2) (hB : u.metaB.toNat = 2 + u.metaBlocks.toNat)
    (hds : u.dataStart.toNat = 2 + u.metaBlocks.toNat + u.metaBlocks.toNat) {r : Region}
    (h : r.Has u i) : r = Region.of u i := by
  unfold Region.of
  cases r with
  | uber => rw [if_pos (Region.has_uber.mp h)]
  | slotA =>
    obtain ⟨h1, h2⟩ := h
    rw [if_neg (by omega), if_pos (by omega)]
  | slotB =>
    obtain ⟨h1, h2⟩ := h
    rw [if_neg (by omega), if_neg (by omega), if_pos (by omega)]
  | data =>
    obtain ⟨h1, h2⟩ := h
    rw [if_neg (by omega), if_neg (by omega), if_neg (by omega)]

/-- And they leave no gap. -/
theorem Region.exists_has (hA : u.metaA.toNat = 2) (hB : u.metaB.toNat = 2 + u.metaBlocks.toNat)
    (hds : u.dataStart.toNat = 2 + u.metaBlocks.toNat + u.metaBlocks.toNat)
    (hi : i < u.totalBlocks.toNat) : ∃ r : Region, r.Has u i := by
  by_cases h1 : i < 2
  · exact ⟨.uber, Region.has_uber.mpr h1⟩
  by_cases h2 : i < 2 + u.metaBlocks.toNat
  · exact ⟨.slotA, by omega, by omega⟩
  by_cases h3 : i < 2 + u.metaBlocks.toNat + u.metaBlocks.toNat
  · exact ⟨.slotB, by omega, by omega⟩
  · exact ⟨.data, by omega, hi⟩

theorem Region.has_lt (hA : u.metaA.toNat = 2) (hB : u.metaB.toNat = 2 + u.metaBlocks.toNat)
    (hroom : 2 + u.metaBlocks.toNat + u.metaBlocks.toNat < u.totalBlocks.toNat) {r : Region}
    (h : r.Has u i) : i < u.totalBlocks.toNat := by
  cases r with
  | uber =>
    have := Region.has_uber.mp h
    omega
  | slotA =>
    have := h.2
    omega
  | slotB =>
    have := h.2
    omega
  | data => exact h.2

end Regions

/-- Nothing that `format` computes from these sizes leaves 64 bits. -/
def Computable (total inodes reserve : Nat) : Prop :=
  64 + (8 + (total + 7) / 8) + reserve + inodes * Inode.inodeSize < 2 ^ 64 ∧
    slotBlocks total inodes reserve * blk < 2 ^ 64

/-- The first block of the data region. -/
def dataStartOf (total inodes reserve : Nat) : Nat :=
  2 + slotBlocks total inodes reserve + slotBlocks total inodes reserve

/-- A slot holds the tables of every later commit whose dedup table is within the
reserve. -/
theorem tables_le_slot {total inodes reserve : Nat} {bm : Alloc.Bitmap} {ddt : Dedup.Table}
    {tbl : Inode.Table} (hbm : bm.total = total) (hddt : ddt.marshalLen ≤ reserve)
    (htbl : tbl.cap = inodes) :
    bm.marshalLen + ddt.marshalLen + tbl.marshalLen ≤ slotBlocks total inodes reserve * blk := by
  have hcount : tbl.count * Inode.inodeSize ≤ inodes * Inode.inodeSize := by
    rw [← htbl]
    exact Nat.mul_le_mul_right _ tbl.count_le
  have hblk : blk = 4096 := rfl
  rw [Alloc.Bitmap.marshalLen, Alloc.Bitmap.words, hbm, Inode.Table.marshalLen, slotBlocks, hblk]
  omega

section Errors

theorem onDev_not_big {α : Type} (x : Exec Block.Error Disk α) (s : CommitState) :
    Sat (onDev x) s (fun _ s' => s'.bm = s.bm) (fun e _ => e ≠ .err .metaTooBig) := by
  have hx : Sat x s.dev (fun _ _ => True) (fun _ _ => True) := by
    rw [sat_iff]
    exact ⟨fun _ _ _ => trivial, fun _ _ _ => trivial⟩
  refine sat_zoom hx (fun _ _ _ => rfl) (fun e _ _ => ?_)
  cases e with
  | err e => simp [Fault.map]
  | panic => simp [Fault.map]
  | hang => simp [Fault.map]

theorem writeSnapshot_not_big {u : Uberblock} {ddt : Dedup.Table} {tbl : Inode.Table}
    {s : CommitState} (h : Fits u s.bm ddt tbl) :
    Sat (writeSnapshot u ddt tbl) s (fun _ _ => True) (fun e _ => e ≠ .err .metaTooBig) := by
  unfold writeSnapshot
  refine sat_get_bind (sat_ite (fun hbig => ?_) (fun _ => ?_))
  · exact absurd h (Nat.not_le.mpr hbig)
  refine sat_get_bind (sat_modify_bind ?_)
  apply sat_bind (Q := fun _ _ => True) (E := fun e _ => e ≠ .err .metaTooBig)
  · apply sat_forM (fun _ _ => True)
    · intro _ _ _ s' _ _
      exact (onDev_not_big _ s').mono (fun _ _ _ => trivial) (fun _ _ he => he)
    · trivial
  · intro _ s' _
    refine sat_bind (onDev_not_big _ s') (fun _ _ _ => sat_pure trivial) (fun _ _ he => he)
  · exact fun _ _ he => he

theorem commit_not_big {env : Env} {prev : Uberblock} {ddt : Dedup.Table} {tbl : Inode.Table}
    {root next : UInt64} {s : CommitState} (h : Fits prev s.bm ddt tbl) :
    Sat (commit env prev ddt tbl root next) s (fun _ _ => True)
      (fun e _ => e ≠ .err .metaTooBig) := by
  unfold commit
  refine sat_ite (fun _ => sat_panic (by simp)) (fun _ => sat_ite (fun _ => sat_panic (by simp))
    (fun _ => ?_))
  apply sat_bind (Q := fun _ _ => True) (E := fun e _ => e ≠ .err .metaTooBig)
  · unfold writeCommit
    refine sat_bind (writeSnapshot_not_big h) (fun u s₁ _ => ?_) (fun _ _ he => he)
    apply sat_bind (Q := fun _ _ => True) (E := fun e _ => e ≠ .err .metaTooBig)
    · unfold writeUber
      refine sat_bind (onDev_not_big _ s₁) (fun _ s₂ _ => ?_) (fun _ _ he => he)
      exact (onDev_not_big _ s₂).mono (fun _ _ _ => trivial) (fun _ _ he => he)
    · exact fun _ _ _ => sat_pure trivial
    · exact fun _ _ he => he
  · exact fun _ _ _ => sat_modify_bind (sat_pure trivial)
  · exact fun _ _ he => he

end Errors

theorem freshBitmap_spec {total mb : Nat} (h : 2 + mb + mb ≤ total) :
    (freshBitmap total mb).used = 2 + mb + mb ∧
      ∀ i, (freshBitmap total mb).bits i = true ↔ i < 2 + mb + mb := by
  obtain ⟨htot, -, hcnt, hbits⟩ :=
    Alloc.Bitmap.reserve_spec (Alloc.Bitmap.new_counted total) 0 (2 + mb + mb)
  have hbit : ∀ i, (freshBitmap total mb).bits i = true ↔ i < 2 + mb + mb := by
    intro i
    have hi := hbits i
    have htotal : (Alloc.Bitmap.new total).total = total := rfl
    rw [htotal] at hi
    unfold freshBitmap
    rw [hi]
    simp only [Alloc.Bitmap.new, Bool.false_or, decide_eq_true_eq]
    omega
  refine ⟨?_, hbit⟩
  have hused : (freshBitmap total mb).used =
      Alloc.Bitmap.setBits (freshBitmap total mb).bits (freshBitmap total mb).total := hcnt
  rw [hused, freshBitmap_total]
  have hranges := Alloc.Bitmap.setBits_ranges h (l := []) (freshBitmap total mb).bits (by simp)
    List.Pairwise.nil (fun i _ => by simp [hbit i])
  simpa using hranges

theorem image_of_format {env : Env} {inodeCount reserve : Nat} {d d' : Disk} {u : Uberblock}
    (h : format env inodeCount reserve d = .ok u d') :
    ∃ mb tail, mb = slotBlocks d.blocks (capacity inodeCount) reserve ∧
      u = withLens (freshUber d.blocks (capacity inodeCount) mb) (freshBitmap d.blocks mb) .new
        (.new (capacity inodeCount)) ∧ Formattable d.blocks (capacity inodeCount) reserve ∧
      ∀ i, i < mb → d'.image (2 + i) =
        slice ((freshBitmap d.blocks mb).marshal ++ tail) (i * blk) blk := by
  obtain ⟨mb, bm, tail, hmb, hform, rfl, hu, -, hx⟩ := (format_sat env inodeCount reserve d).ok h
  have hroom := hform.2
  rw [← hmb] at hroom
  have hlt := d.blocks_lt
  have hmbn : (UInt64.ofNat mb).toNat = mb :=
    UInt64.toNat_ofNat_of_lt' (by show _ < 2 ^ 64; omega)
  refine ⟨mb, Dedup.Table.new.marshal ++ ((Inode.Table.new (capacity inodeCount)).marshal ++ tail),
    hmb, hu, hform, fun i hi => ?_⟩
  have hstart : u.metaStart = 2 := by
    rw [hu]
    rfl
  have hslot : u.seq.toNat % 2 = 1 := by
    rw [hu]
    rfl
  have hcount : u.metaBlocks.toNat = mb := by
    rw [hu]
    exact hmbn
  rw [hx.image, replay_commitEvents, hslot, Function.update_of_ne (by omega), hstart, hcount,
    replay_snapshotEvents, if_pos (by omega), Nat.add_sub_cancel_left]
  rw [tables, List.append_assoc, List.append_assoc]

/-- On a device without errors `format` succeeds exactly when the metadata leaves room
for data.  Its regions then split the device, its bitmap marks what is not data, and
no commit on it is too big while the dedup table stays within the reserve. -/
theorem image_geometry (env : Env) (d : Disk) (hd : d.Reliable) (inodeCount reserve : Nat)
    (hc : Computable d.blocks (capacity inodeCount) reserve) :
    ((∃ u d', format env inodeCount reserve d = .ok u d') ↔
      dataStartOf d.blocks (capacity inodeCount) reserve < d.blocks) ∧
    ∀ u d', format env inodeCount reserve d = .ok u d' →
      u.dataStart.toNat = dataStartOf d.blocks (capacity inodeCount) reserve ∧
      (∀ i, i < d.blocks → ∃ r : Region, r.Has u i ∧ ∀ r' : Region, r'.Has u i → r' = r) ∧
      (∀ (i : Nat) (r : Region), r.Has u i → i < d.blocks) ∧
      (∃ (bm : Alloc.Bitmap) (tail : Bytes), bm.total = d.blocks ∧ bm.used = u.dataStart.toNat ∧
        (∀ i, bm.bits i = true ↔ i < u.dataStart.toNat) ∧
        ∀ i, i < u.metaBlocks.toNat →
          d'.image (u.metaA.toNat + i) = slice (bm.marshal ++ tail) (i * blk) blk) ∧
      ∀ (prev : Uberblock) (s : CommitState) (ddt : Dedup.Table) (tbl : Inode.Table)
        (root next : UInt64) (e : Fault Error) (s' : CommitState),
        prev.metaBlocks = u.metaBlocks → s.bm.total = d.blocks → ddt.marshalLen ≤ reserve →
        tbl.cap = capacity inodeCount → commit env prev ddt tbl root next s = .error e s' →
        e ≠ .err .metaTooBig := by
  have hlt := d.blocks_lt
  constructor
  · constructor
    · rintro ⟨u, d', h⟩
      obtain ⟨mb, -, -, -, hform, -⟩ := image_of_format h
      exact hform.2
    · intro hroom
      cases h : format env inodeCount reserve d with
      | ok u d' => exact ⟨u, d', rfl⟩
      | error e d' =>
        have hno := (format_sat env inodeCount reserve d).error h ⟨hd _, hd _, hd _⟩
        exact absurd ⟨hc.1, hroom⟩ hno
  · intro u d' h
    obtain ⟨mb, tail, hmb, hu, hform, himage⟩ := image_of_format h
    have hroom : 2 + mb + mb < d.blocks := by
      have := hform.2
      rwa [← hmb] at this
    have hds : u.dataStart.toNat = 2 + mb + mb := by
      rw [hu]
      exact UInt64.toNat_ofNat_of_lt' (by show _ < 2 ^ 64; omega)
    have hA : u.metaA.toNat = 2 := by
      rw [hu]
      rfl
    have hB : u.metaB.toNat = 2 + mb := by
      rw [hu]
      exact UInt64.toNat_ofNat_of_lt' (by show _ < 2 ^ 64; omega)
    have hn : u.metaBlocks.toNat = mb := by
      rw [hu]
      exact UInt64.toNat_ofNat_of_lt' (by show _ < 2 ^ 64; omega)
    have htot : u.totalBlocks.toNat = d.blocks := by
      rw [hu]
      exact UInt64.toNat_ofNat_of_lt' (by show _ < 2 ^ 64; omega)
    have hB' : u.metaB.toNat = 2 + u.metaBlocks.toNat := by rw [hB, hn]
    have hds' : u.dataStart.toNat = 2 + u.metaBlocks.toNat + u.metaBlocks.toNat := by rw [hds, hn]
    refine ⟨?_, fun i hi => ?_, fun i r hr => ?_, ?_, ?_⟩
    · rw [hds, dataStartOf, hmb]
    · obtain ⟨r, hr⟩ := Region.exists_has hA hB' hds' (htot ▸ hi)
      refine ⟨r, hr, fun r' hr' => ?_⟩
      rw [Region.eq_of hA hB' hds' hr, Region.eq_of hA hB' hds' hr']
    · have := Region.has_lt hA hB' (by omega) hr
      omega
    · obtain ⟨hused, hbits⟩ := freshBitmap_spec (show 2 + mb + mb ≤ d.blocks by omega)
      rw [hds, hn, hA]
      exact ⟨_, tail, freshBitmap_total _ _, hused, hbits, himage⟩
    · intro prev s ddt tbl root next e s' hprev hbm hddt htbl herr
      refine (commit_not_big ?_).error herr
      have hle := tables_le_slot hbm hddt htbl
      rw [← hmb, ← hn, ← hprev] at hle
      exact hle

/-- A device one block larger than its metadata, with the default inode count. -/
theorem image_geometry_smallest : ∃ (d : Disk) (u : Uberblock) (d' : Disk), d.blocks = 7 ∧
    format Env.plain 0 0 d = .ok u d' ∧ u.dataStart.toNat = 6 := by
  have hn : 7 < 2 ^ 64 := by decide
  have hc : Computable 7 (capacity 0) 0 := by
    unfold Computable
    decide
  have hstart : dataStartOf 7 (capacity 0) 0 = 6 := by decide
  have hgeo := image_geometry Env.plain (Disk.zeroed 7 hn) (fun _ _ => rfl) 0 0 hc
  obtain ⟨u, d', h⟩ := hgeo.1.mpr (show dataStartOf 7 (capacity 0) 0 < 7 by decide)
  exact ⟨_, u, d', rfl, h, (hgeo.2 u d' h).1.trans hstart⟩

end Cow
end BloomFS

/-
The commit root on disk.

`Root env d c` says that the image of `d` holds the commit `c`: its uberblock in
the slot of its sequence number, its three tables in the active metadata slot,
and nothing newer in the other uberblock slot.  `mount_of_root` reads such a
commit back.  `commit_sat` lists the block writes of a commit, and
`Root.of_snapshot` and `Root.of_flip` say what they do to the commit on disk:
everything before the flip leaves it alone, and the flip replaces it.
-/
import BloomFS.Cow.Commit

namespace BloomFS
namespace Cow

open Bytes Exec Block

/-! ## The uberblock codec -/

namespace Uberblock

@[simp] theorem length_header (u : Uberblock) : u.header.length = uberChecksumOff := by
  simp [header, uberChecksumOff]

@[simp] theorem length_marshalBinary (env : Env) (u : Uberblock) :
    (u.marshalBinary env).length = Block.size := by
  simp only [marshalBinary, List.flatten_cons, List.flatten_nil, List.length_append,
    length_header, Vector.length_toList, List.length_replicate, List.length_nil]
  rfl

theorem slice_header {env : Env} {u : Uberblock} {off len : Nat} (h : off + len ≤ uberChecksumOff) :
    slice (u.marshalBinary env) off len = slice u.header off len :=
  slice_append_left (by rw [length_header]; exact h)

theorem getD_header {env : Env} {u : Uberblock} {i : Nat} (h : i < uberChecksumOff) :
    (u.marshalBinary env).getD i 0 = u.header.getD i 0 :=
  getD_append_left (by rw [length_header]; exact h)

end Uberblock

theorem parseUber_marshalBinary (env : Env) {u : Uberblock} (hm : u.magic = uberMagic) :
    parseUber env (u.marshalBinary env) = .ok u := by
  have hall : slice (u.marshalBinary env) 0 uberChecksumOff = u.header := by
    rw [Uberblock.slice_header (by omega)]
    exact slice_self (Uberblock.length_header u)
  have hsum : slice (u.marshalBinary env) uberChecksumOff 32 = (env.blake3 u.header).toList :=
    slice_field (p := [_]) (by simp) (by simp)
  have hmagic : slice u.header 0 8 = leBytes 8 u.magic.toNat :=
    slice_field (p := []) (by simp) (by simp)
  have hseq : slice u.header 8 8 = leBytes 8 u.seq.toNat :=
    slice_field (p := [_]) (by simp) (by simp)
  have hbs : slice u.header 16 4 = leBytes 4 u.blockSize.toNat :=
    slice_field (p := [_, _]) (by simp) (by simp)
  have hact : u.header.getD 20 0 = u.activeMeta :=
    getD_field (p := [_, _, _]) (by simp)
  have htot : slice u.header 24 8 = leBytes 8 u.totalBlocks.toNat :=
    slice_field (p := [_, _, _, _, _]) (by simp) (by simp)
  have hma : slice u.header 32 8 = leBytes 8 u.metaA.toNat :=
    slice_field (p := [_, _, _, _, _, _]) (by simp) (by simp)
  have hmb : slice u.header 40 8 = leBytes 8 u.metaB.toNat :=
    slice_field (p := [_, _, _, _, _, _, _]) (by simp) (by simp)
  have hbl : slice u.header 48 8 = leBytes 8 u.metaBlocks.toNat :=
    slice_field (p := [_, _, _, _, _, _, _, _]) (by simp) (by simp)
  have hic : slice u.header 56 8 = leBytes 8 u.inodeCount.toNat :=
    slice_field (p := [_, _, _, _, _, _, _, _, _]) (by simp) (by simp)
  have hds : slice u.header 64 8 = leBytes 8 u.dataStart.toNat :=
    slice_field (p := [_, _, _, _, _, _, _, _, _, _]) (by simp) (by simp)
  have hrt : slice u.header 72 8 = leBytes 8 u.rootInode.toNat :=
    slice_field (p := [_, _, _, _, _, _, _, _, _, _, _]) (by simp) (by simp)
  have hnx : slice u.header 80 8 = leBytes 8 u.nextInode.toNat :=
    slice_field (p := [_, _, _, _, _, _, _, _, _, _, _, _]) (by simp) (by simp)
  have hbml : slice u.header 88 4 = leBytes 4 u.bitmapLen.toNat :=
    slice_field (p := [_, _, _, _, _, _, _, _, _, _, _, _, _]) (by simp) (by simp)
  have hddl : slice u.header 92 4 = leBytes 4 u.ddtLen.toNat :=
    slice_field (p := [_, _, _, _, _, _, _, _, _, _, _, _, _, _]) (by simp) (by simp)
  have hinl : slice u.header 96 4 = leBytes 4 u.inodeLen.toNat :=
    slice_field (p := [_, _, _, _, _, _, _, _, _, _, _, _, _, _, _]) (by simp) (by simp)
  have hlen : ¬ (u.marshalBinary env).length < Block.size := by simp
  have hle (off len : Nat) (h : off + len ≤ 104) :
      slice (u.marshalBinary env) off len = slice u.header off len := Uberblock.slice_header h
  rw [parseUber, if_neg hlen, hle 0 8 (by decide), hmagic, leNat_leBytes_u64,
    if_neg (by rw [hm]; simp), hall, hsum, if_neg (by simp),
    hle 8 8 (by decide), hle 16 4 (by decide), Uberblock.getD_header (by decide),
    hle 24 8 (by decide), hle 32 8 (by decide), hle 40 8 (by decide), hle 48 8 (by decide),
    hle 56 8 (by decide), hle 64 8 (by decide), hle 72 8 (by decide), hle 80 8 (by decide),
    hle 88 4 (by decide), hle 92 4 (by decide), hle 96 4 (by decide),
    hseq, hbs, hact, htot, hma, hmb, hbl, hic, hds, hrt, hnx, hbml, hddl, hinl]
  cases u
  simp_all

/-! ## What a commit writes -/

/-- The block writes that put `buf` into the metadata slot at `start`. -/
def snapshotEvents (start n : Nat) (buf : Bytes) : List Event :=
  (List.range n).map fun i => .write .snapshot (start + i) (slice buf (i * blk) blk)

/-- The calls that recording `u` may make. -/
def Allowed (u : Uberblock) : Event → Prop
  | .write .snapshot n _ => u.metaStart ≤ n ∧ n < u.metaStart + u.metaBlocks.toNat
  | .write .uber n _ => n = u.seq.toNat % 2
  | .sync => True
  | _ => False

/-- Commits on this device do not fail. -/
def MetaSound (d : Disk) : Prop :=
  d.Sound (.write .snapshot) ∧ d.Sound (.write .uber) ∧ d.Sound .sync

theorem MetaSound.of_extends {d d' : Disk} {es : List Event} (h : MetaSound d)
    (hx : Disk.Extends d d' es) : MetaSound d' :=
  ⟨hx.sound h.1, hx.sound h.2.1, hx.sound h.2.2⟩

theorem snapshotEvents_allowed (u : Uberblock) (buf : Bytes) :
    ∀ e ∈ snapshotEvents u.metaStart u.metaBlocks.toNat buf, Allowed u e := by
  intro e he
  obtain ⟨i, hi, rfl⟩ := List.mem_map.mp he
  have hi' : i < u.metaBlocks.toNat := List.mem_range.mp hi
  exact ⟨by omega, by omega⟩

/-- The three tables and their encoded lengths fit one metadata slot. -/
def Fits (u : Uberblock) (bm : Alloc.Bitmap) (ddt : Dedup.Table) (tbl : Inode.Table) : Prop :=
  bm.marshalLen + ddt.marshalLen + tbl.marshalLen ≤ u.metaBlocks.toNat * blk

/-- `u` with the lengths of the three tables filled in, as the 32-bit fields
hold them. -/
def withLens (u : Uberblock) (bm : Alloc.Bitmap) (ddt : Dedup.Table) (tbl : Inode.Table) :
    Uberblock :=
  { u with bitmapLen := UInt32.ofNat bm.marshalLen, ddtLen := UInt32.ofNat ddt.marshalLen,
           inodeLen := UInt32.ofNat tbl.marshalLen }

/-- The tables one after the other, as a snapshot lays them out. -/
def tables (bm : Alloc.Bitmap) (ddt : Dedup.Table) (tbl : Inode.Table) : Bytes :=
  bm.marshal ++ ddt.marshal ++ tbl.marshal

theorem length_tables (bm : Alloc.Bitmap) (ddt : Dedup.Table) (tbl : Inode.Table) :
    (tables bm ddt tbl).length = bm.marshalLen + ddt.marshalLen + tbl.marshalLen := by
  rw [tables, List.length_append, List.length_append, Alloc.Bitmap.length_marshal,
    Dedup.Table.length_marshal, Inode.Table.length_marshal]

theorem length_snapshotBuf (need : Nat) (scratch : Option Bytes) :
    need ≤ (snapshotBuf need scratch).length := by
  unfold snapshotBuf
  cases scratch with
  | none => simp
  | some s =>
    by_cases h : need ≤ s.length
    · simp only [if_pos h]; exact h
    · simp only [if_neg h]; simp

theorem patch_tables (bm : Alloc.Bitmap) (ddt : Dedup.Table) (tbl : Inode.Table) (buf : Bytes) :
    patch (patch (patch buf 0 bm.marshal) bm.marshalLen ddt.marshal)
      (bm.marshalLen + ddt.marshalLen) tbl.marshal =
        tables bm ddt tbl ++ buf.drop (tables bm ddt tbl).length := by
  have hbm : bm.marshal.length = bm.marshalLen := Alloc.Bitmap.length_marshal bm
  have hdd : ddt.marshal.length = ddt.marshalLen := Dedup.Table.length_marshal ddt
  have h1 : patch buf 0 bm.marshal = bm.marshal ++ buf.drop bm.marshal.length :=
    patch_append [] buf bm.marshal
  have h2 := patch_append bm.marshal (buf.drop bm.marshal.length) ddt.marshal
  have h3 := patch_append (bm.marshal ++ ddt.marshal)
    ((buf.drop bm.marshal.length).drop ddt.marshal.length) tbl.marshal
  rw [List.length_append] at h3
  rw [h1, ← hbm, ← hdd, h2, h3, List.drop_drop, List.drop_drop]
  simp only [tables, List.length_append, Nat.add_assoc]

theorem onDev_writeBlock_sat (o : Origin) (num : Nat) (data : Bytes) (s : CommitState) :
    Sat (onDev (Disk.writeBlock o num data)) s
      (fun _ s' => s'.bm = s.bm ∧ Disk.Extends s.dev s'.dev [.write o num data])
      (fun _ s' => s'.bm = s.bm ∧ ∃ es, Disk.Extends s.dev s'.dev es ∧
        (∀ e ∈ es, ∃ b, e = .write o num b) ∧
        (s.dev.Sound (.write o) → num < s.dev.blocks → data.length = Block.size → False)) := by
  refine sat_zoom (Disk.writeBlock_sat o num data s.dev) ?_ ?_
  · rintro - d ⟨-, -, hx⟩
    exact ⟨rfl, hx⟩
  · rintro e d ⟨hwhy, hx⟩
    refine ⟨rfl, ?_⟩
    have hno : s.dev.Sound (.write o) → num < s.dev.blocks → data.length = Block.size → False := by
      intro hs hn hl
      rcases hwhy with h | h | h
      · exact h hs
      · omega
      · exact h hl
    rcases hx with hx | ⟨-, b, hx⟩
    · exact ⟨[], hx, by simp, hno⟩
    · exact ⟨[.write o num b], hx, by simp, hno⟩

theorem onDev_sync_sat (s : CommitState) :
    Sat (onDev Disk.sync) s
      (fun _ s' => s'.bm = s.bm ∧ Disk.Extends s.dev s'.dev [.sync])
      (fun _ s' => s'.bm = s.bm ∧ Disk.Extends s.dev s'.dev [.sync] ∧ ¬ s.dev.Sound .sync) := by
  refine sat_zoom (Disk.sync_sat s.dev) ?_ ?_
  · rintro - d hx
    exact ⟨rfl, hx⟩
  · rintro e d ⟨hwhy, hx⟩
    exact ⟨rfl, hx, hwhy⟩

theorem writeBlocks_sat (u : Uberblock) {buf : Bytes} (hbuf : u.metaBlocks.toNat * blk ≤ buf.length)
    (s : CommitState) :
    Sat ((List.range u.metaBlocks.toNat).forM fun i =>
        onDev (Disk.writeBlock .snapshot (u.metaStart + i) (slice buf (i * blk) blk))) s
      (fun _ s' => s'.bm = s.bm ∧
        Disk.Extends s.dev s'.dev (snapshotEvents u.metaStart u.metaBlocks.toNat buf))
      (fun _ s' => s'.bm = s.bm ∧ ∃ es, Disk.Extends s.dev s'.dev es ∧
        (∀ e ∈ es, Allowed u e ∧ ∀ n b, e ≠ .write .uber n b) ∧
        (s.dev.Sound (.write .snapshot) → u.metaStart + u.metaBlocks.toNat ≤ s.dev.blocks →
            False)) := by
  -- the invariant: the blocks visited so far are written, in order
  refine Sat.mono (sat_forM (fun done s' => s'.bm = s.bm ∧ Disk.Extends s.dev s'.dev
      (done.map fun i => .write .snapshot (u.metaStart + i) (slice buf (i * blk) blk))) ?_
    ⟨rfl, Disk.Extends.refl _⟩) (fun _ _ h => h) (fun _ _ h => h)
  rintro done i rest s' hl ⟨hbm, hx⟩
  have hmem : ∀ j ∈ done ++ i :: rest, j < u.metaBlocks.toNat :=
    fun j hj => List.mem_range.mp (hl ▸ hj)
  have hi : i < u.metaBlocks.toNat := hmem i (by simp)
  refine Sat.mono (onDev_writeBlock_sat .snapshot (u.metaStart + i) _ s') ?_ ?_
  · rintro - s₁ ⟨hbm₁, hx₁⟩
    refine ⟨hbm₁.trans hbm, ?_⟩
    rw [List.map_append]
    exact hx.trans hx₁
  · rintro e s₁ ⟨hbm₁, es, hx₁, hes, hno⟩
    refine ⟨hbm₁.trans hbm, _, hx.trans hx₁, ?_, ?_⟩
    · intro ev hev
      rcases List.mem_append.mp hev with hev | hev
      · obtain ⟨j, hj, rfl⟩ := List.mem_map.mp hev
        have hj' : j < u.metaBlocks.toNat := hmem j (List.mem_append_left _ hj)
        exact ⟨⟨by omega, by omega⟩, nofun⟩
      · obtain ⟨b, rfl⟩ := hes ev hev
        exact ⟨⟨by omega, by omega⟩, nofun⟩
    · intro hsound hrange
      refine hno (hx.sound hsound) (by rw [hx.blocks]; omega) ?_
      have hmul : (i + 1) * blk ≤ u.metaBlocks.toNat * blk := Nat.mul_le_mul_right _ hi
      rw [Nat.add_mul] at hmul
      rw [length_slice]
      show min blk (buf.length - i * blk) = blk
      omega

/-- `writeSnapshot` fills the metadata slot, or fails having written only there. -/
theorem writeSnapshot_sat (u : Uberblock) (ddt : Dedup.Table) (tbl : Inode.Table)
    (s : CommitState) :
    Sat (writeSnapshot u ddt tbl) s
      (fun u' s' => u' = withLens u s.bm ddt tbl ∧ Fits u s.bm ddt tbl ∧ s'.bm = s.bm ∧
        ∃ tail, u.metaBlocks.toNat * blk ≤ (tables s.bm ddt tbl ++ tail).length ∧
          Disk.Extends s.dev s'.dev
            (snapshotEvents u.metaStart u.metaBlocks.toNat
              (tables s.bm ddt tbl ++ tail) ++ [.sync]))
      (fun e s' => s'.bm = s.bm ∧ ∃ es, Disk.Extends s.dev s'.dev es ∧
        (∀ ev ∈ es, Allowed u ev ∧ ∀ n b, ev ≠ .write .uber n b) ∧
        (s.dev.Sound (.write .snapshot) → s.dev.Sound .sync →
          u.metaStart + u.metaBlocks.toNat ≤ s.dev.blocks →
          es = [] ∧ e = .err .metaTooBig ∧ ¬ Fits u s.bm ddt tbl)) := by
  unfold writeSnapshot
  refine sat_get_bind (sat_ite (fun hbig => ?_) (fun hfit => ?_))
  · refine sat_fail ⟨rfl, [], Disk.Extends.refl _, by simp, fun _ _ _ => ⟨rfl, rfl, ?_⟩⟩
    unfold Fits
    omega
  have hfits : Fits u s.bm ddt tbl := Nat.le_of_not_lt hfit
  refine sat_get_bind (sat_modify_bind ?_)
  rw [patch_tables]
  generalize hbase : snapshotBuf (u.metaBlocks.toNat * blk) s.scratch = base
  have hlen : u.metaBlocks.toNat * blk ≤
      (tables s.bm ddt tbl ++ base.drop (tables s.bm ddt tbl).length).length := by
    have := length_snapshotBuf (u.metaBlocks.toNat * blk) s.scratch
    rw [hbase] at this
    rw [List.length_append, List.length_drop]
    omega
  refine sat_bind (writeBlocks_sat (withLens u s.bm ddt tbl) hlen _) ?_ ?_
  · rintro - s₁ ⟨hbm₁, hx₁⟩
    refine sat_bind (onDev_sync_sat s₁) ?_ ?_
    · rintro - s₂ ⟨hbm₂, hx₂⟩
      exact sat_pure ⟨rfl, hfits, hbm₂.trans hbm₁, _, hlen, hx₁.trans hx₂⟩
    · rintro e s₂ ⟨hbm₂, hx₂, hno⟩
      refine ⟨hbm₂.trans hbm₁, _, hx₁.trans hx₂, ?_, ?_⟩
      · intro ev hev
        rcases List.mem_append.mp hev with hev | hev
        · refine ⟨snapshotEvents_allowed u _ ev hev, ?_⟩
          obtain ⟨i, -, rfl⟩ := List.mem_map.mp hev
          nofun
        · rw [List.mem_singleton.mp hev]
          exact ⟨trivial, nofun⟩
      · intro _ hsync
        exact absurd (hx₁.sound hsync) hno
  · rintro e s₁ ⟨hbm₁, es, hx₁, hes, hno⟩
    exact ⟨hbm₁, es, hx₁, hes, fun hsnap _ hrange => (hno hsnap hrange).elim⟩

theorem writeUber_sat (env : Env) (u : Uberblock) (s : CommitState) :
    Sat (writeUber env u) s
      (fun _ s' => s'.bm = s.bm ∧ Disk.Extends s.dev s'.dev
        [.write .uber (u.seq.toNat % 2) (u.marshalBinary env), .sync])
      (fun _ s' => s'.bm = s.bm ∧ ∃ es, Disk.Extends s.dev s'.dev es ∧ (∀ ev ∈ es, Allowed u ev) ∧
        (MetaSound s.dev → 2 ≤ s.dev.blocks → False)) := by
  unfold writeUber
  refine sat_bind (onDev_writeBlock_sat .uber (u.seq.toNat % 2) _ s) ?_ ?_
  · rintro - s₁ ⟨hbm₁, hx₁⟩
    refine Sat.mono (onDev_sync_sat s₁) ?_ ?_
    · rintro - s₂ ⟨hbm₂, hx₂⟩
      exact ⟨hbm₂.trans hbm₁, hx₁.trans hx₂⟩
    · rintro e s₂ ⟨hbm₂, hx₂, hno⟩
      refine ⟨hbm₂.trans hbm₁, _, hx₁.trans hx₂, ?_,
        fun hsound => absurd (hx₁.sound hsound.2.2) hno⟩
      intro ev hev
      rcases List.mem_cons.mp hev with rfl | hev
      · rfl
      · rw [List.mem_singleton.mp hev]
        trivial
  · rintro e s₁ ⟨hbm₁, es, hx₁, hes, hno⟩
    refine ⟨hbm₁, es, hx₁, ?_, ?_⟩
    · intro ev hev
      obtain ⟨b, rfl⟩ := hes ev hev
      rfl
    · intro hsound htwo
      refine hno hsound.2.1 ?_ (Uberblock.length_marshalBinary env u)
      have := Nat.mod_lt u.seq.toNat (show 0 < 2 by decide)
      omega

/-- The calls of a whole commit. -/
def commitEvents (env : Env) (u : Uberblock) (buf : Bytes) : List Event :=
  snapshotEvents u.metaStart u.metaBlocks.toNat buf ++ [.sync] ++
    [.write .uber (u.seq.toNat % 2) (u.marshalBinary env), .sync]

theorem allowed_withLens {u : Uberblock} {bm : Alloc.Bitmap} {ddt : Dedup.Table}
    {tbl : Inode.Table} {ev : Event} : Allowed (withLens u bm ddt tbl) ev ↔ Allowed u ev := Iff.rfl

theorem commitEvents_allowed {env : Env} {u : Uberblock} {buf : Bytes} {ev : Event}
    (h : ev ∈ commitEvents env u buf) : Allowed u ev := by
  simp only [commitEvents, List.mem_append, List.mem_cons, List.not_mem_nil, or_false] at h
  rcases h with (h | rfl) | rfl | rfl
  · exact snapshotEvents_allowed u buf _ h
  · trivial
  · rfl
  · trivial

/-- `writeCommit` writes its snapshot and then its uberblock, or fails having
written only there. -/
theorem writeCommit_sat (env : Env) (u : Uberblock) (ddt : Dedup.Table) (tbl : Inode.Table)
    (s : CommitState) :
    Sat (writeCommit env u ddt tbl) s
      (fun u' s' => u' = withLens u s.bm ddt tbl ∧ Fits u s.bm ddt tbl ∧ s'.bm = s.bm ∧
        ∃ tail, u.metaBlocks.toNat * blk ≤ (tables s.bm ddt tbl ++ tail).length ∧
          Disk.Extends s.dev s'.dev (commitEvents env u' (tables s.bm ddt tbl ++ tail)))
      (fun e s' => s'.bm = s.bm ∧ ∃ es, Disk.Extends s.dev s'.dev es ∧ (∀ ev ∈ es, Allowed u ev) ∧
        (MetaSound s.dev → 2 ≤ s.dev.blocks → u.metaStart + u.metaBlocks.toNat ≤ s.dev.blocks →
          es = [] ∧ e = .err .metaTooBig ∧ ¬ Fits u s.bm ddt tbl)) := by
  unfold writeCommit
  refine sat_bind (writeSnapshot_sat u ddt tbl s) ?_ ?_
  · rintro u' s₁ ⟨rfl, hfits, hbm₁, tail, hlen, hx₁⟩
    refine sat_bind (writeUber_sat env _ s₁) ?_ ?_
    · rintro - s₂ ⟨hbm₂, hx₂⟩
      exact sat_pure ⟨rfl, hfits, hbm₂.trans hbm₁, tail, hlen, hx₁.trans hx₂⟩
    · rintro e s₂ ⟨hbm₂, es, hx₂, hes, hno⟩
      refine ⟨hbm₂.trans hbm₁, _, hx₁.trans hx₂, fun ev hev => ?_, fun hsound htwo _ => ?_⟩
      · rcases List.mem_append.mp hev with hev | hev
        · rcases List.mem_append.mp hev with hev | hev
          · exact snapshotEvents_allowed u _ ev hev
          · rw [List.mem_singleton.mp hev]
            trivial
        · exact hes ev hev
      · refine (hno ⟨hx₁.sound hsound.1, hx₁.sound hsound.2.1, hx₁.sound hsound.2.2⟩ ?_).elim
        rw [hx₁.blocks]
        exact htwo
  · rintro e s₁ ⟨hbm₁, es, hx₁, hes, hno⟩
    exact ⟨hbm₁, es, hx₁, fun ev hev => (hes ev hev).1, fun hsound _ hrange =>
      hno hsound.1 hsound.2.2 hrange⟩

/-- The uberblock a commit after `prev` records, before the lengths are known. -/
def Uberblock.successor (prev : Uberblock) (rootInode nextInode : UInt64) : Uberblock :=
  { prev with seq := prev.seq + 1, activeMeta := 1 - prev.activeMeta,
              rootInode := rootInode, nextInode := nextInode }

/-- The counters of `prev` leave room for one more commit. -/
def Uberblock.CanAdvance (prev : Uberblock) : Prop :=
  prev.seq.toNat + 1 < 2 ^ 64 ∧ prev.activeMeta.toNat ≤ 1

/-- A commit writes its snapshot and then its uberblock, or fails having written
only the inactive metadata slot and its own uberblock slot. -/
theorem commit_sat (env : Env) (prev : Uberblock) (ddt : Dedup.Table) (tbl : Inode.Table)
    (root next : UInt64) (s : CommitState) :
    Sat (commit env prev ddt tbl root next) s
      (fun u s' => prev.CanAdvance ∧ u = withLens (prev.successor root next) s.bm ddt tbl ∧
        Fits prev s.bm ddt tbl ∧ s'.bm = s.bm.applyDeferred ∧
        ∃ tail, prev.metaBlocks.toNat * blk ≤ (tables s.bm ddt tbl ++ tail).length ∧
          Disk.Extends s.dev s'.dev (commitEvents env u (tables s.bm ddt tbl ++ tail)))
      (fun e s' => s'.bm = s.bm ∧ ∃ es, Disk.Extends s.dev s'.dev es ∧
        (∀ ev ∈ es, prev.CanAdvance ∧ Allowed (prev.successor root next) ev) ∧
        (MetaSound s.dev → 2 ≤ s.dev.blocks →
          (prev.successor root next).metaStart + prev.metaBlocks.toNat ≤ s.dev.blocks →
          es = [] ∧ (e = .panic ∧ ¬ prev.CanAdvance ∨
            e = .err .metaTooBig ∧ ¬ Fits prev s.bm ddt tbl))) := by
  unfold commit
  refine sat_ite (fun hseq => ?_) (fun hseq => sat_ite (fun hact => ?_) (fun hact => ?_))
  · refine sat_panic ⟨rfl, [], Disk.Extends.refl _, by simp, fun _ _ _ => ⟨rfl, .inl ⟨rfl, ?_⟩⟩⟩
    rintro ⟨h, -⟩
    omega
  · refine sat_panic ⟨rfl, [], Disk.Extends.refl _, by simp, fun _ _ _ => ⟨rfl, .inl ⟨rfl, ?_⟩⟩⟩
    rintro ⟨-, h⟩
    omega
  have hadv : prev.CanAdvance := ⟨by omega, by omega⟩
  refine sat_bind (writeCommit_sat env (prev.successor root next) ddt tbl s) ?_ ?_
  · rintro u s₁ ⟨rfl, hfits, hbm₁, tail, hlen, hx₁⟩
    refine sat_modify_bind (sat_pure ⟨hadv, rfl, hfits, ?_, tail, hlen, hx₁⟩)
    show s₁.bm.applyDeferred = s.bm.applyDeferred
    rw [hbm₁]
  · rintro e s₁ ⟨hbm₁, es, hx₁, hes, hno⟩
    refine ⟨hbm₁, es, hx₁, fun ev hev => ⟨hadv, hes ev hev⟩, fun hsound htwo hrange => ?_⟩
    obtain ⟨hnil, he, hbig⟩ := hno hsound htwo hrange
    exact ⟨hnil, .inr ⟨he, hbig⟩⟩

theorem commit_completes (env : Env) {prev : Uberblock} {ddt : Dedup.Table} {tbl : Inode.Table}
    (root next : UInt64) {s : CommitState} (hd : MetaSound s.dev) (htwo : 2 ≤ s.dev.blocks)
    (hend : (prev.successor root next).metaStart + prev.metaBlocks.toNat ≤ s.dev.blocks)
    (hadv : prev.CanAdvance) (hfits : Fits prev s.bm ddt tbl) :
    ∃ s', commit env prev ddt tbl root next s =
      .ok (withLens (prev.successor root next) s.bm ddt tbl) s' := by
  have hsat := commit_sat env prev ddt tbl root next s
  cases hrun : commit env prev ddt tbl root next s with
  | ok u s' =>
    obtain ⟨-, rfl, -⟩ := hsat.ok hrun
    exact ⟨s', rfl⟩
  | error f s' =>
    obtain ⟨-, es, -, -, hno⟩ := hsat.error hrun
    obtain ⟨-, ⟨-, h⟩ | ⟨-, h⟩⟩ := hno hd htwo hend
    · exact absurd hadv h
    · exact absurd hfits h

/-! ## The commit an image holds -/

/-- A commit: its uberblock and the three tables it recorded. -/
structure Commit where
  ub : Uberblock
  bm : Alloc.Bitmap
  ddt : Dedup.Table
  tbl : Inode.Table

/-- What `mount` returns is the commit `c`: the same uberblock and inode table,
the same dedup entries, and the same bits. -/
structure Reads (c : Commit) (r : Uberblock × Alloc.Bitmap × Dedup.Table × Inode.Table) : Prop where
  ub : r.1 = c.ub
  total : r.2.1.total = c.bm.total
  bits : ∀ i, i < c.bm.total → r.2.1.bits i = c.bm.bits i
  deferred : r.2.1.deferred = []
  counted : r.2.1.Counted
  ddt : ∀ k, r.2.2.1.lookup k = c.ddt.lookup k
  tbl : r.2.2.2 = c.tbl

/-- Where the two metadata slots lie and which one is active. -/
structure Uberblock.Placed (u : Uberblock) (blocks : Nat) : Prop where
  magic : u.magic = uberMagic
  metaA : u.metaA.toNat = 2
  metaB : u.metaB.toNat = 2 + u.metaBlocks.toNat
  dataStart : u.dataStart.toNat = 2 + 2 * u.metaBlocks.toNat
  room : u.dataStart.toNat < blocks
  active : u.activeMeta.toNat = (u.seq.toNat + 1) % 2

/-- The recorded lengths are the lengths of the tables, which holds when none of
them reaches 4 GiB. -/
structure Lens (c : Commit) : Prop where
  bm : c.ub.bitmapLen.toNat = c.bm.marshalLen
  ddt : c.ub.ddtLen.toNat = c.ddt.marshalLen
  tbl : c.ub.inodeLen.toNat = c.tbl.marshalLen

/-- The blocks of a commit are on disk: its uberblock, with nothing newer in the
other slot, and its serialized tables. -/
structure OnDisk (env : Env) (d : Disk) (c : Commit) : Prop where
  placed : c.ub.Placed d.blocks
  fits : Fits c.ub c.bm c.ddt c.tbl
  slot : d.image (c.ub.seq.toNat % 2) = c.ub.marshalBinary env
  other : ∀ u, parseUber env (d.image ((c.ub.seq.toNat + 1) % 2)) = .ok u →
    u.seq.toNat < c.ub.seq.toNat
  snapshot : ∃ tail, c.ub.metaBlocks.toNat * blk ≤ (tables c.bm c.ddt c.tbl ++ tail).length ∧
    ∀ i, i < c.ub.metaBlocks.toNat → d.image (c.ub.metaStart + i) =
      slice (tables c.bm c.ddt c.tbl ++ tail) (i * blk) blk

/-- A commit is on disk with its lengths and capacity recorded as they are. -/
structure Root (env : Env) (d : Disk) (c : Commit) : Prop extends OnDisk env d c where
  lens : Lens c
  cap : c.tbl.cap = c.ub.inodeCount.toNat

namespace Uberblock.Placed

variable {u : Uberblock} {blocks : Nat}

/-- The active slot is the first or the second one, by the parity of the
sequence number. -/
theorem metaStart (h : u.Placed blocks) :
    u.metaStart = if u.seq.toNat % 2 = 0 then 2 + u.metaBlocks.toNat else 2 := by
  have hact := h.active
  unfold Uberblock.metaStart
  by_cases hpar : u.seq.toNat % 2 = 0
  · have hone : u.activeMeta = 1 := UInt8.toNat_inj.mp (by rw [hact]; simp; omega)
    rw [if_pos hone, if_pos hpar, h.metaB]
  · have hzero : u.activeMeta.toNat = 0 := by omega
    have hne : u.activeMeta ≠ 1 := by
      intro he
      rw [he] at hzero
      exact absurd hzero (by decide)
    rw [if_neg hne, if_neg hpar, h.metaA]

theorem metaStart_ge (h : u.Placed blocks) : 2 ≤ u.metaStart := by
  rw [h.metaStart]
  split <;> omega

theorem metaEnd_le (h : u.Placed blocks) :
    u.metaStart + u.metaBlocks.toNat ≤ u.dataStart.toNat := by
  rw [h.metaStart, h.dataStart]
  split <;> omega

theorem two_le (h : u.Placed blocks) : 2 ≤ blocks := by
  have h1 := h.room
  have h2 := h.dataStart
  omega

theorem activeMeta_le (h : u.Placed blocks) : u.activeMeta.toNat ≤ 1 := by
  have := h.active
  omega

theorem successor (h : u.Placed blocks) (hadv : u.CanAdvance) (root next : UInt64) :
    (u.successor root next).Placed blocks where
  magic := h.magic
  metaA := h.metaA
  metaB := h.metaB
  dataStart := h.dataStart
  room := h.room
  active := by
    have hact := h.active
    have hseq : (u.seq + 1).toNat = u.seq.toNat + 1 := by
      rw [UInt64.toNat_add]
      exact Nat.mod_eq_of_lt hadv.1
    have hsub : (1 - u.activeMeta).toNat = 1 - u.activeMeta.toNat :=
      UInt8.toNat_sub_of_le _ _ (UInt8.le_iff_toNat_le.mpr hadv.2)
    show (1 - u.activeMeta).toNat = ((u.seq + 1).toNat + 1) % 2
    rw [hseq, hsub]
    omega

theorem withNext (h : u.Placed blocks) (next : UInt64) :
    ({ u with nextInode := next } : Uberblock).Placed blocks where
  magic := h.magic
  metaA := h.metaA
  metaB := h.metaB
  dataStart := h.dataStart
  room := h.room
  active := h.active

theorem withLens (h : u.Placed blocks) (bm : Alloc.Bitmap) (ddt : Dedup.Table) (tbl : Inode.Table) :
    (Cow.withLens u bm ddt tbl).Placed blocks where
  magic := h.magic
  metaA := h.metaA
  metaB := h.metaB
  dataStart := h.dataStart
  room := h.room
  active := h.active

end Uberblock.Placed

theorem Uberblock.CanAdvance.seq {u : Uberblock} (h : u.CanAdvance) (root next : UInt64) :
    (u.successor root next).seq.toNat = u.seq.toNat + 1 := by
  show (u.seq + 1).toNat = _
  rw [UInt64.toNat_add]
  exact Nat.mod_eq_of_lt h.1

theorem better_slots {env : Env} {d : Disk} {u : Uberblock} (hm : u.magic = uberMagic)
    (hslot : d.image (u.seq.toNat % 2) = u.marshalBinary env)
    (hother : ∀ v, parseUber env (d.image ((u.seq.toNat + 1) % 2)) = .ok v →
      v.seq.toNat < u.seq.toNat) :
    better (better none (parseUber env (d.image 0))) (parseUber env (d.image 1)) = some u := by
  have hparse := parseUber_marshalBinary env hm
  rcases Nat.mod_two_eq_zero_or_one u.seq.toNat with hpar | hpar
  · have hpar' : (u.seq.toNat + 1) % 2 = 1 := by omega
    rw [hpar] at hslot
    rw [hpar'] at hother
    rw [hslot, hparse]
    cases hv : parseUber env (d.image 1) with
    | error e => rfl
    | ok v =>
      have hlt := hother v hv
      have hnot : ¬ u.seq < v.seq := by rw [UInt64.lt_iff_toNat_lt]; omega
      show (if u.seq < v.seq then some v else some u) = some u
      rw [if_neg hnot]
  · have hpar' : (u.seq.toNat + 1) % 2 = 0 := by omega
    rw [hpar] at hslot
    rw [hpar'] at hother
    rw [hslot, hparse]
    cases hv : parseUber env (d.image 0) with
    | error e => rfl
    | ok v =>
      have hlt := hother v hv
      have hyes : v.seq < u.seq := by rw [UInt64.lt_iff_toNat_lt]; omega
      show (if v.seq < u.seq then some u else some v) = some u
      rw [if_pos hyes]

theorem Lens.slices {c : Commit} (h : Lens c) {buf rest : Bytes}
    (hbuf : buf = c.bm.marshal ++ (c.ddt.marshal ++ (c.tbl.marshal ++ rest))) :
    c.ub.bitmapLen.toNat + c.ub.ddtLen.toNat + c.ub.inodeLen.toNat ≤ buf.length ∧
      slice buf 0 c.ub.bitmapLen.toNat = c.bm.marshal ∧
      slice buf c.ub.bitmapLen.toNat c.ub.ddtLen.toNat = c.ddt.marshal ∧
      slice buf (c.ub.bitmapLen.toNat + c.ub.ddtLen.toNat) c.ub.inodeLen.toNat = c.tbl.marshal := by
  have hbm : c.bm.marshal.length = c.ub.bitmapLen.toNat :=
    (Alloc.Bitmap.length_marshal _).trans h.bm.symm
  have hdd : c.ddt.marshal.length = c.ub.ddtLen.toNat :=
    (Dedup.Table.length_marshal _).trans h.ddt.symm
  have htb : c.tbl.marshal.length = c.ub.inodeLen.toNat :=
    (Inode.Table.length_marshal _).trans h.tbl.symm
  subst hbuf
  refine ⟨?_, slice_zero_append hbm, ?_, ?_⟩
  · simp only [List.length_append]
    omega
  · rw [slice_append_right (by omega), hbm, Nat.sub_self]
    exact slice_zero_append hdd
  · rw [slice_append_right (by omega), slice_append_right (by omega), hbm, hdd,
      Nat.add_sub_cancel_left, Nat.sub_self]
    exact slice_zero_append htb

/-- The recorded lengths bound the tables, so that their own codecs round-trip. -/
theorem Lens.bounds {c : Commit} (h : Lens c) : c.bm.total < 2 ^ 64 ∧ c.ddt.len < 2 ^ 64 := by
  have h1 := c.ub.bitmapLen.toNat_lt
  have h2 := h.bm
  have h3 := c.ub.ddtLen.toNat_lt
  have h4 := h.ddt
  unfold Alloc.Bitmap.marshalLen Alloc.Bitmap.words at h2
  unfold Dedup.Table.marshalLen Dedup.Table.recSize at h4
  omega

theorem readBlock_of_lt {d : Disk} {n : Nat} (h : n < d.blocks) :
    d.readBlock n = .ok (d.image n) := by
  rw [Disk.readBlock, if_neg (by omega)]

/-- The blocks of a commit are on disk, wherever its slots lie. -/
structure Written (env : Env) (d : Disk) (c : Commit) : Prop where
  magic : c.ub.magic = uberMagic
  two_le : 2 ≤ d.blocks
  range : c.ub.metaStart + c.ub.metaBlocks.toNat ≤ d.blocks
  fits : Fits c.ub c.bm c.ddt c.tbl
  slot : d.image (c.ub.seq.toNat % 2) = c.ub.marshalBinary env
  other : ∀ u, parseUber env (d.image ((c.ub.seq.toNat + 1) % 2)) = .ok u →
    u.seq.toNat < c.ub.seq.toNat
  snapshot : ∃ tail, c.ub.metaBlocks.toNat * blk ≤ (tables c.bm c.ddt c.tbl ++ tail).length ∧
    ∀ i, i < c.ub.metaBlocks.toNat → d.image (c.ub.metaStart + i) =
      slice (tables c.bm c.ddt c.tbl ++ tail) (i * blk) blk

theorem OnDisk.written {env : Env} {d : Disk} {c : Commit} (h : OnDisk env d c) :
    Written env d c := by
  have hend := h.placed.metaEnd_le
  have hroom := h.placed.room
  exact ⟨h.placed.magic, h.placed.two_le, by omega, h.fits, h.slot, h.other, h.snapshot⟩

theorem Written.reads_snapshot {env : Env} {d : Disk} {c : Commit} (h : Written env d c) :
    ∃ blocks rest, (List.range c.ub.metaBlocks.toNat).mapM (fun i =>
        (d.readBlock (c.ub.metaStart + i)).mapError ((.err ∘ .block) : _ → Fault Error)) =
          .ok blocks ∧
      blocks.flatten = c.bm.marshal ++ (c.ddt.marshal ++ (c.tbl.marshal ++ rest)) := by
  obtain ⟨tail, hlen, hblocks⟩ := h.snapshot
  have hrange := h.range
  have hfit : (tables c.bm c.ddt c.tbl).length ≤ c.ub.metaBlocks.toNat * blk := by
    rw [length_tables]
    exact h.fits
  refine ⟨(List.range c.ub.metaBlocks.toNat).map
    fun i => slice (tables c.bm c.ddt c.tbl ++ tail) (i * blk) blk,
    tail.take (c.ub.metaBlocks.toNat * blk - (tables c.bm c.ddt c.tbl).length),
    mapM_ok (fun i hi => ?_), ?_⟩
  · have hi' : i < c.ub.metaBlocks.toNat := List.mem_range.mp hi
    rw [readBlock_of_lt (by omega), hblocks i hi']
    rfl
  · have hflat := flatMap_slice_range (tables c.bm c.ddt c.tbl ++ tail) blk c.ub.metaBlocks.toNat
    rw [List.take_append, List.take_of_length_le hfit] at hflat
    rw [← List.flatMap_def, hflat]
    simp only [tables, List.append_assoc]

/-- What `mount` makes of the blocks of a commit: each table as it decodes. -/
theorem Written.mount {env : Env} {d : Disk} {c : Commit} (h : Written env d c) (hlens : Lens c)
    (hcap : c.tbl.cap = c.ub.inodeCount.toNat) {bm' : Alloc.Bitmap} {ddt' : Dedup.Table}
    (hbm' : Alloc.Bitmap.unmarshal c.bm.marshal = .ok bm')
    (hddt' : Dedup.Table.unmarshal c.ddt.marshal = .ok ddt') :
    Cow.mount env d = .ok (c.ub, bm', ddt', c.tbl) := by
  have htwo := h.two_le
  have hbest := better_slots h.magic h.slot h.other
  obtain ⟨blocks, rest, hmap, hflat⟩ := h.reads_snapshot
  obtain ⟨hlen, hbms, hddts, htbls⟩ := hlens.slices hflat
  have htbl := Inode.Table.unmarshalTable_marshal c.tbl
  rw [hcap] at htbl
  unfold Cow.mount
  rw [show uberSlot0 = 0 from rfl, show uberSlot1 = 1 from rfl, readBlock_of_lt (by omega),
    readBlock_of_lt (by omega)]
  have hbm : cut blocks.flatten 0 c.ub.bitmapLen.toNat = .ok c.bm.marshal := by
    rw [cut, if_neg (by omega), hbms]
  have hddt : cut blocks.flatten c.ub.bitmapLen.toNat c.ub.ddtLen.toNat = .ok c.ddt.marshal := by
    rw [cut, if_neg (by omega), hddts]
  have htb : cut blocks.flatten (c.ub.bitmapLen.toNat + c.ub.ddtLen.toNat) c.ub.inodeLen.toNat =
      .ok c.tbl.marshal := by
    rw [cut, if_neg (by omega), htbls]
  simp only [ok_bind, mapError_ok, hbest, hmap, hbm, hddt, htb, hbm', hddt', htbl]
  rfl

theorem mount_of_root {env : Env} {d : Disk} {c : Commit} (h : Root env d c) :
    ∃ r, mount env d = .ok r ∧ Reads c r := by
  obtain ⟨bm', hbm', hbtot, hbdef, hbcnt, hbits⟩ := Alloc.Bitmap.unmarshal_marshal h.lens.bounds.1
  obtain ⟨ddt', hddt', hlook⟩ := Dedup.Table.unmarshal_marshal h.lens.bounds.2
  exact ⟨_, h.written.mount h.lens h.cap hbm' hddt', ⟨rfl, hbtot, hbits, hbdef, hbcnt, hlook, rfl⟩⟩

/-- Changes outside the slots of a commit leave it on disk, as long as nothing
newer appears in the other uberblock slot. -/
theorem Root.of_agree {env : Env} {d d' : Disk} {c : Commit} (h : Root env d c)
    (hblocks : d'.blocks = d.blocks)
    (hslot : d'.image (c.ub.seq.toNat % 2) = d.image (c.ub.seq.toNat % 2))
    (hmeta : ∀ i, i < c.ub.metaBlocks.toNat →
      d'.image (c.ub.metaStart + i) = d.image (c.ub.metaStart + i))
    (hother : ∀ u, parseUber env (d'.image ((c.ub.seq.toNat + 1) % 2)) = .ok u →
      u.seq.toNat < c.ub.seq.toNat) : Root env d' c where
  placed := hblocks ▸ h.placed
  lens := h.lens
  fits := h.fits
  cap := h.cap
  slot := hslot.trans h.slot
  other := hother
  snapshot := by
    obtain ⟨tail, hlen, hblks⟩ := h.snapshot
    exact ⟨tail, hlen, fun i hi => (hmeta i hi).trans (hblks i hi)⟩

/-- What a call that records the successor of a commit may touch is disjoint from
where the commit lives. -/
theorem Uberblock.Placed.allowed_disjoint {u : Uberblock} {blocks : Nat} (h : u.Placed blocks)
    (hadv : u.CanAdvance) {root next : UInt64} {o : Origin} {n : Nat} {b : Bytes}
    (he : Allowed (u.successor root next) (.write o n b)) :
    n ≠ u.seq.toNat % 2 ∧ (∀ i, i < u.metaBlocks.toNat → n ≠ u.metaStart + i) ∧
      n < u.dataStart.toNat ∧ (o = .snapshot → n ≠ (u.seq.toNat + 1) % 2) := by
  have hs := h.successor hadv root next
  have hseq := hadv.seq root next
  have hstart := h.metaStart
  have hstart' := hs.metaStart
  rw [hseq] at hstart'
  have hmb : (u.successor root next).metaBlocks = u.metaBlocks := rfl
  have hds := h.dataStart
  rw [hmb] at hstart'
  cases o with
  | data => exact he.elim
  | snapshot =>
    obtain ⟨h1, h2⟩ := he
    rw [hmb] at h2
    refine ⟨?_, fun i hi => ?_, ?_, fun _ => ?_⟩
    all_goals (split at hstart <;> split at hstart' <;> omega)
  | uber =>
    have hn : n = (u.successor root next).seq.toNat % 2 := he
    rw [hseq] at hn
    refine ⟨by omega, fun i hi => ?_, by omega, by simp⟩
    have := h.metaStart_ge
    omega

theorem replay_snapshotEvents (image : Nat → Bytes) (start : Nat) (buf : Bytes) (n m : Nat) :
    replay image (snapshotEvents start n buf) m =
      if start ≤ m ∧ m < start + n then slice buf ((m - start) * blk) blk else image m :=
  replay_range .snapshot _ image start n m

theorem replay_commitEvents (env : Env) (image : Nat → Bytes) (u : Uberblock) (buf : Bytes) :
    replay image (commitEvents env u buf) =
      Function.update (replay image (snapshotEvents u.metaStart u.metaBlocks.toNat buf))
        (u.seq.toNat % 2) (u.marshalBinary env) := by
  rw [commitEvents, replay_append, replay_append]
  rfl

/-- Lengths below 4 GiB are recorded as they are. -/
def Small (bm : Alloc.Bitmap) (ddt : Dedup.Table) (tbl : Inode.Table) : Prop :=
  bm.marshalLen < 2 ^ 32 ∧ ddt.marshalLen < 2 ^ 32 ∧ tbl.marshalLen < 2 ^ 32

theorem Small.lens {bm : Alloc.Bitmap} {ddt : Dedup.Table} {tbl : Inode.Table}
    (h : Small bm ddt tbl) (u : Uberblock) : Lens ⟨withLens u bm ddt tbl, bm, ddt, tbl⟩ where
  bm := UInt32.toNat_ofNat_of_lt' h.1
  ddt := UInt32.toNat_ofNat_of_lt' h.2.1
  tbl := UInt32.toNat_ofNat_of_lt' h.2.2

/-- Writing the snapshot of `u` and then `u` itself puts that commit on disk,
when what the other uberblock slot holds is older or invalid. -/
theorem Written.of_flip {env : Env} {d d' : Disk} {u : Uberblock} {bm : Alloc.Bitmap}
    {ddt : Dedup.Table} {tbl : Inode.Table} {tail : Bytes}
    (hmagic : u.magic = uberMagic) (hge : 2 ≤ u.metaStart)
    (hrange : u.metaStart + u.metaBlocks.toNat ≤ d.blocks) (htwo : 2 ≤ d.blocks)
    (hfits : Fits u bm ddt tbl)
    (hlen : u.metaBlocks.toNat * blk ≤ (tables bm ddt tbl ++ tail).length)
    (hother : ∀ v, parseUber env (d.image ((u.seq.toNat + 1) % 2)) = .ok v →
      v.seq.toNat < u.seq.toNat)
    (hblocks : d'.blocks = d.blocks)
    (himage : d'.image =
      replay d.image (commitEvents env (withLens u bm ddt tbl) (tables bm ddt tbl ++ tail))) :
    Written env d' ⟨withLens u bm ddt tbl, bm, ddt, tbl⟩ := by
  have hge' : 2 ≤ (withLens u bm ddt tbl).metaStart := hge
  rw [replay_commitEvents] at himage
  have hmod := Nat.mod_lt u.seq.toNat (show 0 < 2 by decide)
  have hmod' := Nat.mod_lt (u.seq.toNat + 1) (show 0 < 2 by decide)
  refine ⟨hmagic, hblocks ▸ htwo, hblocks ▸ hrange, hfits, ?_, ?_, tail, hlen, ?_⟩
  · rw [himage]
    exact Function.update_self ..
  · have hsame : d'.image ((u.seq.toNat + 1) % 2) = d.image ((u.seq.toNat + 1) % 2) := by
      rw [himage, Function.update_of_ne (by show _ ≠ u.seq.toNat % 2; omega),
        replay_snapshotEvents, if_neg (by omega)]
    intro v hv
    exact hother v (hsame ▸ hv)
  · intro i hi
    have hi' : i < (withLens u bm ddt tbl).metaBlocks.toNat := hi
    show d'.image ((withLens u bm ddt tbl).metaStart + i) = _
    rw [himage, Function.update_of_ne (by show _ ≠ u.seq.toNat % 2; omega), replay_snapshotEvents,
      if_pos (by omega), Nat.add_sub_cancel_left]

theorem OnDisk.of_flip {env : Env} {d d' : Disk} {u : Uberblock} {bm : Alloc.Bitmap}
    {ddt : Dedup.Table} {tbl : Inode.Table} {tail : Bytes}
    (hp : (withLens u bm ddt tbl).Placed d.blocks) (hfits : Fits u bm ddt tbl)
    (hlen : u.metaBlocks.toNat * blk ≤ (tables bm ddt tbl ++ tail).length)
    (hother : ∀ v, parseUber env (d.image ((u.seq.toNat + 1) % 2)) = .ok v →
      v.seq.toNat < u.seq.toNat)
    (hblocks : d'.blocks = d.blocks)
    (himage : d'.image =
      replay d.image (commitEvents env (withLens u bm ddt tbl) (tables bm ddt tbl ++ tail))) :
    OnDisk env d' ⟨withLens u bm ddt tbl, bm, ddt, tbl⟩ := by
  have hrange : u.metaStart + u.metaBlocks.toNat ≤ d.blocks := hp.metaEnd_le.trans hp.room.le
  have h := Written.of_flip hp.magic hp.metaStart_ge hrange hp.two_le hfits hlen hother
    hblocks himage
  exact ⟨hblocks ▸ hp, hfits, h.slot, h.other, h.snapshot⟩

/-! ## Formatting -/

/-- Size of one metadata slot of a fresh image, in blocks. -/
def slotBlocks (total inodes reserve : Nat) : Nat :=
  (64 + (8 + (total + 7) / 8) + reserve + inodes * Inode.inodeSize + (blk - 1)) / blk

/-- The inode capacity `format` settles on. -/
def capacity (inodeCount : Nat) : Nat := if inodeCount = 0 then Inode.perBlock else inodeCount

/-- The bitmap of a fresh image, with both metadata slots taken. -/
def freshBitmap (total metaBlocks : Nat) : Alloc.Bitmap :=
  (Alloc.Bitmap.new total).reserve 0 (2 + metaBlocks + metaBlocks)

theorem freshBitmap_total (total metaBlocks : Nat) : (freshBitmap total metaBlocks).total = total :=
  (Alloc.Bitmap.reserve_spec (Alloc.Bitmap.new_counted total) 0 _).1

/-- The sizes are in range and the device is large enough. -/
def Formattable (total inodes reserve : Nat) : Prop :=
  64 + (8 + (total + 7) / 8) + reserve + inodes * Inode.inodeSize < 2 ^ 64 ∧
    2 + slotBlocks total inodes reserve + slotBlocks total inodes reserve < total

section Format

variable {total inodes reserve : Nat}

theorem fresh_fits (ht : total < 2 ^ 64) (h : Formattable total inodes reserve) :
    Fits (freshUber total inodes (slotBlocks total inodes reserve))
      (freshBitmap total (slotBlocks total inodes reserve)) .new (.new inodes) := by
  have hblk : blk = 4096 := rfl
  have hmb : (UInt64.ofNat (slotBlocks total inodes reserve)).toNat =
      slotBlocks total inodes reserve :=
    UInt64.toNat_ofNat_of_lt' (by have := h.2; show _ < 2 ^ 64; omega)
  show (freshBitmap total _).marshalLen + Dedup.Table.new.marshalLen +
    (Inode.Table.new inodes).marshalLen ≤ (UInt64.ofNat
      (slotBlocks total inodes reserve)).toNat * blk
  have hbm : (freshBitmap total (slotBlocks total inodes reserve)).marshalLen =
      8 + (total + 63) / 64 * 8 := by
    rw [Alloc.Bitmap.marshalLen, Alloc.Bitmap.words, freshBitmap_total]
  have hdd : Dedup.Table.new.marshalLen = 8 := rfl
  have htb : (Inode.Table.new inodes).marshalLen = 0 := Nat.zero_mul _
  rw [hmb, hbm, hdd, htb, slotBlocks, hblk]
  omega

theorem fresh_placed (ht : total < 2 ^ 64) (h : Formattable total inodes reserve) :
    (freshUber total inodes (slotBlocks total inodes reserve)).Placed total := by
  have hroom := h.2
  generalize slotBlocks total inodes reserve = mb at hroom ⊢
  have hmb : (UInt64.ofNat mb).toNat = mb :=
    UInt64.toNat_ofNat_of_lt' (by show _ < 2 ^ 64; omega)
  have hb : (UInt64.ofNat (2 + mb)).toNat = 2 + mb :=
    UInt64.toNat_ofNat_of_lt' (by show _ < 2 ^ 64; omega)
  have hds : (UInt64.ofNat (2 + mb + mb)).toNat = 2 + mb + mb :=
    UInt64.toNat_ofNat_of_lt' (by show _ < 2 ^ 64; omega)
  refine ⟨rfl, rfl, ?_, ?_, ?_, show (0 : UInt8).toNat = ((1 : UInt64).toNat + 1) % 2 by decide⟩
  · show (UInt64.ofNat (2 + mb)).toNat = 2 + (UInt64.ofNat mb).toNat
    rw [hb, hmb]
  · show (UInt64.ofNat (2 + mb + mb)).toNat = 2 + 2 * (UInt64.ofNat mb).toNat
    rw [hds, hmb]
    omega
  · show (UInt64.ofNat (2 + mb + mb)).toNat < total
    rw [hds]
    exact hroom

end Format

/-- `format` writes the first commit, and on a device that can hold it and does
not fail it succeeds. -/
theorem format_sat (env : Env) (inodeCount reserve : Nat) (d : Disk) :
    Sat (format env inodeCount reserve) d
      (fun u d' => ∃ mb bm tail, mb = slotBlocks d.blocks (capacity inodeCount) reserve ∧
        Formattable d.blocks (capacity inodeCount) reserve ∧ bm = freshBitmap d.blocks mb ∧
        u = withLens (freshUber d.blocks (capacity inodeCount) mb) bm .new
          (.new (capacity inodeCount)) ∧
        u.metaBlocks.toNat * blk ≤ (tables bm .new (.new (capacity inodeCount)) ++ tail).length ∧
        Disk.Extends d d' (commitEvents env u
          (tables bm .new (.new (capacity inodeCount)) ++ tail)))
      (fun _ _ => MetaSound d → ¬ Formattable d.blocks (capacity inodeCount) reserve) := by
  unfold format
  refine sat_get_bind ?_
  show Sat (if 2 ^ 64 ≤ 64 + (8 + (d.blocks + 7) / 8) + reserve +
    capacity inodeCount * Inode.inodeSize then _ else _) d _ _
  refine sat_ite (fun hbig => sat_panic (fun _ h => ?_)) (fun hbig => ?_)
  · have := h.1
    omega
  show Sat (if d.blocks ≤ 2 + slotBlocks d.blocks (capacity inodeCount) reserve +
    slotBlocks d.blocks (capacity inodeCount) reserve then _ else _) d _ _
  refine sat_ite (fun hsmall => sat_fail (fun _ h => ?_)) (fun hsmall => ?_)
  · have := h.2
    omega
  have hform : Formattable d.blocks (capacity inodeCount) reserve := ⟨by omega, by omega⟩
  have hplaced := fresh_placed d.blocks_lt hform
  have hfits := fresh_fits d.blocks_lt hform
  have hend := hplaced.metaEnd_le
  have hroom := hplaced.room
  have hrange := Nat.le_of_lt (Nat.lt_of_le_of_lt hend hroom)
  refine sat_zoom (writeCommit_sat env (freshUber d.blocks (capacity inodeCount)
    (slotBlocks d.blocks (capacity inodeCount) reserve)) .new (.new (capacity inodeCount))
    ⟨d, freshBitmap d.blocks (slotBlocks d.blocks (capacity inodeCount) reserve), none⟩) ?_ ?_
  · rintro u s₁ ⟨rfl, -, -, tail, hlen, hx⟩
    exact ⟨_, _, tail, rfl, hform, rfl, rfl, hlen, hx⟩
  · rintro e s₁ ⟨-, es, -, -, hno⟩ hsound -
    exact (hno hsound hplaced.two_le hrange).2.2 hfits

end Cow
end BloomFS

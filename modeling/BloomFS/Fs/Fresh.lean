/-
A freshly formatted file system.

`Formatted` lists what `format` leaves in memory, and `format_succeeds` says that
formatting a blank device works if the device can hold the metadata of the fixed
capacities and its commits do not fail.
-/
import BloomFS.Fs.Pinned

namespace BloomFS
namespace Fs

open Bytes Exec Block Store

variable {env : Env}

/-- The state `format` returns for the blank device `d`. -/
structure Formatted (env : Env) (key : Option Bytes) (d : Disk) (s : FS) : Prop where
  seq : s.ub.seq = 2
  rootId : s.ub.rootInode = 0
  nextInode : s.ub.nextInode = 1
  slots : s.inodes.slots = Function.update (fun _ => Inode.default) 0 (rootInode (env.clock 0))
  cap : s.inodes.cap = defaultInodeCount
  count : s.inodes.count = 1
  placed : s.ub.Placed s.dev.blocks
  layout : s.ub.metaBlocks.toNat = Cow.slotBlocks d.blocks defaultInodeCount defaultDdtReserve
  room : s.ub.dataStart.toNat < d.blocks
  total : s.bm.total = d.blocks
  bits : ∀ i, i < d.blocks → (s.bm.bits i = true ↔ i < s.ub.dataStart.toNat)
  deferred : s.bm.deferred = []
  counted : s.bm.Counted
  ddt : ∀ k, s.ddt.lookup k = none
  bs : BlockStore.new key = .ok s.bs
  openCount : s.openCount = ∅
  freeInodes : s.freeInodes = []
  dirCache : s.dirCache = some .new
  ticks : s.ticks = 1
  orders : s.orders = 0
  blocks : s.dev.blocks = d.blocks
  fault : s.dev.fault = d.fault
  consistent : s.dev.Consistent
  events : ∀ ev ∈ s.dev.trace,
    (∃ n b, ev = .write .snapshot n b) ∨ (∃ n b, ev = .write .uber n b) ∨ ev = .sync

theorem makeRoot_mounted {key : Option Bytes} {d : Disk} {s : FS} (h : Mounted env key d s) :
    (makeRoot : Act env Unit).1 s =
      .ok () ({ s with ticks := 1 }.setInode 0 (rootInode (env.clock 0))) := by
  have hcap : 0 < s.inodes.cap := by
    rw [h.inodes]
    show 0 < s.ub.inodeCount.toNat
    rw [h.capacity]
    decide
  have hroot : s.ub.rootInode.toNat = 0 := by rw [h.rootInode]; rfl
  have hticks : { s with ticks := s.ticks + 1 } = { s with ticks := 1 } := by rw [h.ticks]
  show (putInode s.ub.rootInode.toNat (rootInode (env.clock s.ticks)) : Act env Unit).1
    { s with ticks := s.ticks + 1 } = _
  rw [hticks, hroot, h.ticks]
  exact putInode_of_lt (s := { s with ticks := 1 }) hcap (rootInode (env.clock 0))

theorem Mounted.cap_pos {key : Option Bytes} {d : Disk} {s : FS} (h : Mounted env key d s) :
    0 < s.inodes.cap := by
  rw [h.inodes]
  show 0 < s.ub.inodeCount.toNat
  rw [h.capacity]
  decide

theorem formatted_of_committed {key : Option Bytes} {d : Disk} {s s' : FS} (hb : Blank d)
    (h : Mounted env key d s)
    (hc : Committed env ({ s with ticks := 1 }.setInode 0 (rootInode (env.clock 0))) s') :
    Formatted env key d s' := by
  have hcap := h.cap_pos
  have hset := setInode_of_lt (s := { s with ticks := 1 }) hcap (rootInode (env.clock 0))
  rw [hset] at hc
  obtain ⟨buf, hx⟩ := h.dev
  obtain ⟨tail, -, hx'⟩ := hc.dev
  have hblocks : s.dev.blocks = d.blocks := hx.blocks
  have hcons : d.Consistent := by
    unfold Disk.Consistent
    rw [hb.image, hb.trace]
    rfl
  have hdef : s.bm.deferred = [] := h.deferred
  have hbm : s'.bm = { s.bm with deferred := [] } := by
    rw [hc.bm]
    show s.bm.deferred.foldl _ _ = _
    rw [hdef]
    rfl
  have hds : s'.ub.dataStart = s.ub.dataStart := by rw [hc.ub]; rfl
  have hroom : s.ub.dataStart.toNat < s.dev.blocks := h.root.placed.room
  have hrest := hc.rest
  have hinodes : s'.inodes = s.inodes.store 0 hcap (rootInode (env.clock 0)) := by rw [hrest]
  refine ⟨?_, ?_, ?_, ?_, ?_, ?_, ?_, ?_, ?_, ?_, ?_, ?_, ?_, ?_, ?_, ?_, ?_, ?_, ?_, ?_, ?_, ?_,
    hx'.consistent (hx.consistent hcons), ?_⟩
  · rw [hc.ub]
    show s.ub.seq + 1 = 2
    rw [h.seq]
    rfl
  · rw [hc.ub]
    exact h.rootInode
  · rw [hc.ub]
    exact h.nextInode
  · rw [hinodes]
    show Function.update s.inodes.slots 0 _ = _
    rw [h.inodes]
    rfl
  · rw [hinodes]
    show s.inodes.cap = _
    rw [h.inodes]
    exact h.capacity
  · rw [hinodes]
    show (if s.inodes.count ≤ 0 then 0 + 1 else s.inodes.count) = 1
    rw [h.inodes]
    rfl
  · rw [hc.ub, hx'.blocks]
    exact (h.root.placed.successor hc.advance _ _).withLens _ _ _
  · rw [hc.ub]
    exact h.layout
  · rw [hds]
    omega
  · rw [hbm]
    exact h.total
  · rw [hbm, hds]
    exact h.bits
  · rw [hbm]
  · rw [hbm]
    exact h.counted
  · rw [hrest]
    exact h.ddt
  · rw [hrest]
    exact h.bs
  · rw [hrest]
    exact h.openCount
  · rw [hrest]
    exact h.freeInodes
  · rw [hrest]
    exact h.dirCache
  · rw [hrest]
  · rw [hrest]
    exact h.orders
  · exact hx'.blocks.trans hx.blocks
  · exact hx'.fault.trans hx.fault
  · intro ev hev
    rw [hx'.trace] at hev
    have htrace : s.dev.trace = Cow.commitEvents env s.ub buf := by
      rw [hx.trace, hb.trace, List.nil_append]
    rcases List.mem_append.mp hev with hev | hev
    · exact commit_events (htrace ▸ hev)
    · exact commit_events hev

theorem formatted_of_ok {key : Option Bytes} {d : Disk} {s : FS} (hb : Blank d)
    (h : format env key d = .ok s) : Formatted env key d s := by
  obtain ⟨s₀, hs₀, hi⟩ := format_ok hb h
  have hmake := makeRoot_mounted hs₀
  have hcommit : commit env ({ s₀ with ticks := 1 }.setInode 0 (rootInode (env.clock 0))) =
      .ok () s := by
    have hbind : initialise env s₀ = EStateM.bind (makeRoot : Act env Unit).1
        (fun _ => commit env) s₀ :=
      rfl
    rw [hbind, EStateM.bind, hmake] at hi
    exact hi
  exact formatted_of_committed hb hs₀ ((commit_sat _).ok hcommit)

/-! ## Formatting works -/

theorem mount_eq {key : Option Bytes} (ticks orders : Nat) {dev : Disk} {bs : BlockStore}
    {r : Cow.Uberblock × Alloc.Bitmap × Dedup.Table × Inode.Table} (hr : Cow.mount env dev = .ok r)
    (hbs : BlockStore.new key = .ok bs) (hlt : r.1.metaBlocks.toNat * Block.size < 2 ^ 64) :
    mount env key ticks orders dev = .ok (mounted dev bs ticks orders r) := by
  obtain ⟨ub, bm, ddt, inodes⟩ := r
  unfold mount
  rw [hr, hbs, mapError_ok, mapError_ok, ok_bind]
  show (if 2 ^ 64 ≤ ub.metaBlocks.toNat * Block.size then _ else _) = _
  rw [if_neg (not_le.mpr hlt)]
  rfl

theorem len_eq_zero {t : Dedup.Table} (h : ∀ k, t.lookup k = none) : t.len = 0 := by
  unfold Dedup.Table.len
  cases he : t.m.entries with
  | nil => rfl
  | cons x l =>
    have hx : x ∈ t.m.entries := he ▸ List.mem_cons_self
    have hs := Space.lookup_of_mem hx
    rw [h] at hs
    cases hs

theorem initialise_succeeds {key : Option Bytes} {d : Disk} {s : FS} (h : Mounted env key d s)
    (hd : Cow.MetaSound s.dev) : ∃ fs, initialise env s = .ok () fs := by
  have hmake := makeRoot_mounted h
  rw [setInode_of_lt (s := { s with ticks := 1 }) h.cap_pos] at hmake
  have hbind : initialise env s = EStateM.bind (makeRoot : Act env Unit).1
      (fun _ => commit env) s :=
    rfl
  rw [hbind, EStateM.bind, hmake]
  have hadv : s.ub.CanAdvance := ⟨by rw [h.seq]; decide, h.root.placed.activeMeta_le⟩
  have hfits : Cow.Fits s.ub s.bm s.ddt
      (s.inodes.store 0 h.cap_pos (rootInode (env.clock 0))) := by
    have hroom := h.reserve
    have hcount : (s.inodes.store 0 h.cap_pos
        (rootInode (env.clock 0))).count ≤ defaultInodeCount := by
      refine (Inode.Table.count_le _).trans ?_
      show s.inodes.cap ≤ _
      rw [h.inodes]
      exact h.capacity.le
    have hmarshal := Nat.mul_le_mul_right Inode.inodeSize hcount
    have hlen : s.ddt.marshalLen = 8 := by
      unfold Dedup.Table.marshalLen
      rw [len_eq_zero h.ddt]
      rfl
    unfold Cow.Fits Inode.Table.marshalLen
    omega
  obtain ⟨fs, hfs, -⟩ := commit_succeeds
    (s := { s with ticks := 1, inodes := s.inodes.store 0 h.cap_pos (rootInode (env.clock 0)) })
    hd h.root.placed hadv hfits
  exact ⟨fs, hfs⟩

theorem marshalLen_new (n : Nat) : (Alloc.Bitmap.new n).marshalLen = 8 + (n + 63) / 64 * 8 := rfl

theorem formatSized_succeeds {inodes reserve : Nat} (hin : inodes = defaultInodeCount)
    (hres : reserve = defaultDdtReserve) {key : Option Bytes} {bs : BlockStore} {d : Disk}
    (hold : Cow.NothingNewer env d) (hd : Cow.MetaSound d) (hbs : BlockStore.new key = .ok bs)
    (hform : Cow.Formattable d.blocks inodes reserve)
      (hsize : (Alloc.Bitmap.new d.blocks).marshalLen < 2 ^ 32) :
    ∃ fs, formatSized env inodes reserve key d = .ok fs := by
  have hcapa : Cow.capacity inodes = inodes := by rw [Cow.capacity, if_neg (by rw [hin]; decide)]
  unfold formatSized
  cases hf : Cow.format env inodes reserve d with
  | error e d' => exact ((Cow.format_sat env _ _ d).error hf hd (hcapa.symm ▸ hform)).elim
  | ok u d' =>
    obtain ⟨mb, bm, tail, -, -, -, -, -, hx⟩ := (Cow.format_sat env _ _ d).ok hf
    have htot := (freshBits_spec d u).1
    have hsmall : Cow.Small (freshBits d u) .new (.new u.inodeCount.toNat) := by
      have h8 : Dedup.Table.new.marshalLen = 8 := rfl
      refine ⟨?_, by omega, by simp [Inode.Table.marshalLen, Inode.Table.new]⟩
      rw [marshalLen_congr (b := .new d.blocks) htot]
      exact hsize
    have hroot := Cow.root_of_format hold hf hsmall
    obtain ⟨r, hr, hreads⟩ := Cow.mount_of_root hroot
    have hlt : r.1.metaBlocks.toNat * Block.size < 2 ^ 64 := by
      have hds : u.dataStart.toNat = 2 + 2 * u.metaBlocks.toNat := hroot.placed.dataStart
      have hroom : u.dataStart.toNat < d'.blocks := hroot.placed.room
      have hblocks := hx.blocks
      have hfew : d.blocks < 2 ^ 36 := by
        rw [marshalLen_new] at hsize
        omega
      rw [show r.1 = u from hreads.ub, show Block.size = 4096 from rfl]
      omega
    have hm := mount_eq 0 0 hr hbs hlt
    obtain ⟨fs, hi⟩ := initialise_succeeds (mounted_of_layout hin hres hold hf hm)
      (hd.of_extends hx)
    refine ⟨fs, ?_⟩
    simp only
    rw [hm, ok_bind, hi]
    rfl

theorem format_succeeds {key : Option Bytes} {bs : BlockStore} {d : Disk}
    (hold : Cow.NothingNewer env d) (hd : Cow.MetaSound d) (hbs : BlockStore.new key = .ok bs)
    (hform : Cow.Formattable d.blocks defaultInodeCount defaultDdtReserve)
    (hsize : d.blocks < 2 ^ 34) : ∃ fs, format env key d = .ok fs :=
  formatSized_succeeds rfl rfl hold hd hbs hform (by rw [marshalLen_new]; omega)

theorem blank_zeroed (n : Nat) (h : n < 2 ^ 64) : Blank (Disk.zeroed n h) := ⟨rfl, rfl⟩

theorem reliable_zeroed (n : Nat) (h : n < 2 ^ 64) : (Disk.zeroed n h).Reliable := fun _ _ => rfl

end Fs
end BloomFS

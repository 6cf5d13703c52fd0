/-
Formatting a device that was used before.

`format` writes its first uberblock to slot 1 and leaves slot 0 alone.  Whatever was
there before, the mount that follows picks the uberblock with the higher sequence
number, so an old one in slot 0 wins: the file system that `format` returns is then the
old one with its root directory replaced.  If there is none, the device is empty.
-/
import BloomFS.Fs.Fresh

namespace BloomFS
namespace Fs

open Bytes Exec Block Store

variable {env : Env} {key : Option Bytes} {d : Disk}

structure Unused (env : Env) (s : FS) : Prop where
  root : ∃ s', (readdir s.ub.rootInode.toNat : Act env (List String)).1 s = .ok [] s'
  free : ∃ st, s.statfs = .ok st ∧ st.filesFree = defaultInodeCount - 1
  dedup : ∀ k, s.ddt.lookup k = none

/-- Formatting works, and so does every mount after it. -/
def Formats (env : Env) (key : Option Bytes) (d : Disk) : Prop :=
  ∃ s, format env key d = .ok s ∧ Unused env s ∧
    ∀ ticks orders, ∃ s', mount env key ticks orders s.dev = .ok s' ∧ Unused env s'

/-! ## The root directory -/

theorem loadDir_root (env : Env) {s : FS} {id : Nat} {t : UInt64} (hlt : id < s.inodes.cap)
    (hslot : s.inodes.slots id = rootInode t) : ∃ h, s.loadDir env id = .ok h ∧ h.pages = [] := by
  have hget : s.getInode id = .ok (rootInode t) := by
    rw [FS.getInode, Inode.Table.get_of_lt hlt, hslot]
    rfl
  have hdata : s.dirData env id = .ok (rootInode t, []) := by
    rw [FS.dirData, hget]
    rfl
  refine ⟨⟨indexOf env [], rootInode t, [], locate [], [], 0⟩, ?_, rfl⟩
  rw [FS.loadDir, hdata]
  rfl

theorem readdir_root {s : FS} {id : Nat} {t : UInt64} (hlt : id < s.inodes.cap)
    (hslot : s.inodes.slots id = rootInode t) (hcache : s.dirCache = some .new) :
    ∃ s', (readdir id : Act env (List String)).1 s = .ok [] s' := by
  obtain ⟨h, hload, hpages⟩ := loadDir_root env hlt hslot
  have hpeek : (cachePeek id (fun h => h.pages.flatMap (·.entries)) : Act env
    (Option (List Dir.DirEntry))).1 s =
      .ok (some []) { s with dirCache := some (DirCache.new.insert id h) } := by
    have hlook : DirCache.new.entries.lookup id = none := AList.lookup_empty id
    rw [cachePeek, Within.get_bind_run, hcache]
    simp only [hlook, hload]
    show EStateM.Result.ok (some (h.pages.flatMap _)) _ = _
    rw [hpages]
    rfl
  have hlist : (listDir id : Act env (List Dir.DirEntry)).1 s =
      .ok [] { s with dirCache := some (DirCache.new.insert id h) } := bind_of_ok hpeek
  exact ⟨_, bind_of_ok hlist⟩

/-! ## The first commit -/

/-- The state with its root directory replaced by an empty one. -/
def FS.rooted (env : Env) (s : FS) : FS :=
  { s with ticks := s.ticks + 1 }.setInode s.ub.rootInode.toNat (rootInode (env.clock s.ticks))

theorem initialise_ok {old s : FS} (h : initialise env old = .ok () s) :
    ∃ hlt : old.ub.rootInode.toNat < old.inodes.cap,
      old.rooted env = { old with ticks := old.ticks + 1
                                  inodes := old.inodes.store _ hlt (rootInode (env.clock old.ticks))
                                  } ∧
      Committed env (old.rooted env) s := by
  have hmake : (makeRoot : Act env Unit).1 old =
      (putInode old.ub.rootInode.toNat (rootInode (env.clock old.ticks)) : Act env Unit).1
        { old with ticks := old.ticks + 1 } := rfl
  have hbind : initialise env old = EStateM.bind (makeRoot : Act env Unit).1
    (fun _ => commit env) old := rfl
  rw [hbind, EStateM.bind, hmake] at h
  by_cases hlt : old.ub.rootInode.toNat < old.inodes.cap
  · rw [putInode_of_lt (s := { old with ticks := old.ticks + 1 }) hlt] at h
    exact ⟨hlt, setInode_of_lt (s := { old with ticks := old.ticks + 1 }) hlt _,
      (commit_sat _).ok h⟩
  · have hput : old.inodes.put old.ub.rootInode.toNat (rootInode (env.clock old.ticks)) =
      .error .outOfRange :=
      dif_neg hlt
    rw [putInode, Within.get_bind_run, hput] at h
    cases h

theorem statfs_free_iff (s : FS) (m : Nat) :
    (∃ st, s.statfs = .ok st ∧ st.filesFree = m) ↔
      s.freeInodes.length ≤ s.ub.nextInode.toNat ∧ s.bm.used ≤ s.bm.total ∧
        s.ub.nextInode.toNat - s.freeInodes.length ≤ s.inodes.cap ∧
        s.inodes.cap - (s.ub.nextInode.toNat - s.freeInodes.length) = m := by
  simp only [FS.statfs_ok_iff]
  constructor
  · rintro ⟨st, ⟨hfree, hused, hcap, rfl⟩, hm⟩
    exact ⟨hfree, hused, hcap, hm⟩
  · rintro ⟨hfree, hused, hcap, hm⟩
    exact ⟨_, ⟨hfree, hused, hcap, rfl⟩, hm⟩

/-- Nothing but the root directory is in use. -/
structure Spare (s : FS) : Prop where
  free : ∃ st, s.statfs = .ok st ∧ st.filesFree = defaultInodeCount - 1
  dedup : ∀ k, s.ddt.lookup k = none

/-- The file system that `format` returns is the one that was mounted, with its root
directory replaced. -/
theorem unused_iff {old s : FS} (hcache : old.dirCache = some .new) (hdef : old.bm.deferred = [])
    (h : initialise env old = .ok () s) : Unused env s ↔ Spare old := by
  obtain ⟨hlt, hrooted, hc⟩ := initialise_ok h
  rw [hrooted] at hc
  have hbm : s.bm = { old.bm with deferred := [] } := by
    rw [hc.bm, Alloc.Bitmap.applyDeferred]
    show old.bm.deferred.foldl _ _ = _
    rw [hdef]
    rfl
  have hrest := hc.rest
  have hub : s.ub.rootInode = old.ub.rootInode ∧ s.ub.nextInode = old.ub.nextInode := by
    rw [hc.ub]
    exact ⟨rfl, rfl⟩
  have hinodes : s.inodes = old.inodes.store _ hlt (rootInode (env.clock old.ticks)) :=
    by rw [hrest]
  have hfree : (∃ st, s.statfs = .ok st ∧ st.filesFree = defaultInodeCount - 1) ↔
      ∃ st, old.statfs = .ok st ∧ st.filesFree = defaultInodeCount - 1 := by
    rw [statfs_free_iff, statfs_free_iff, hbm, hinodes, hub.2, show s.freeInodes = old.freeInodes
      by rw [hrest]]
    rfl
  have hddt : s.ddt = old.ddt := by rw [hrest]
  constructor
  · exact fun hs => ⟨hfree.mp hs.free, hddt ▸ hs.dedup⟩
  · intro ho
    refine ⟨?_, hfree.mpr ho.free, hddt ▸ ho.dedup⟩
    rw [hub.1]
    refine readdir_root (t := env.clock old.ticks) ?_ ?_ ?_
    · rw [hinodes]
      exact hlt
    · rw [hinodes]
      exact Function.update_self _ _ _
    · rw [hrest]
      exact hcache

/-! ## Both halves -/

theorem mount_deferred {key : Option Bytes} {ticks orders : Nat} {dev : Disk} {s : FS}
    (h : mount env key ticks orders dev = .ok s) : s.bm.deferred = [] := by
  obtain ⟨⟨ub, bm, ddt, tbl⟩, bs, hr, -, rfl⟩ := mount_ok h
  show bm.deferred = []
  unfold Cow.mount at hr
  obtain ⟨raw0, -, hr⟩ := bind_eq_ok.mp hr
  obtain ⟨raw1, -, hr⟩ := bind_eq_ok.mp hr
  split at hr
  · cases hr
  · obtain ⟨blocks, -, hr⟩ := bind_eq_ok.mp hr
    obtain ⟨data, -, hr⟩ := bind_eq_ok.mp hr
    obtain ⟨b, hb, hr⟩ := bind_eq_ok.mp hr
    obtain ⟨data', -, hr⟩ := bind_eq_ok.mp hr
    obtain ⟨t, -, hr⟩ := bind_eq_ok.mp hr
    obtain ⟨data'', -, hr⟩ := bind_eq_ok.mp hr
    obtain ⟨t', -, hr⟩ := bind_eq_ok.mp hr
    cases hr
    exact Alloc.Bitmap.unmarshal_deferred (mapError_eq_ok.mp hb)

/-- What `mount` finds on a device that `format` has just laid out. -/
def FoundOn (env : Env) (key : Option Bytes) (d : Disk) (old : FS) : Prop :=
  ∃ u dev, Cow.format env defaultInodeCount defaultDdtReserve d = .ok u dev ∧
    mount env key 0 0 dev = .ok old

theorem formatSized_iff {inodes reserve : Nat} {s : FS} :
    formatSized env inodes reserve key d = .ok s ↔
      ∃ old, (∃ u dev, Cow.format env inodes reserve d = .ok u dev ∧
        mount env key 0 0 dev = .ok old) ∧ initialise env old = .ok () s := by
  unfold formatSized
  cases hf : Cow.format env inodes reserve d with
  | error f dev =>
      constructor
      · intro h
        cases h
      · intro ⟨old, ⟨u, dev', h, _⟩, _⟩
        cases h
  | ok u dev =>
      dsimp only
      rw [bind_eq_ok]
      constructor
      · intro ⟨old, hm, hi⟩
        cases hrun : initialise env old with
        | error f s' =>
            rw [hrun] at hi
            cases hi
        | ok x s' =>
            rw [hrun] at hi
            cases hi
            exact ⟨old, ⟨u, dev, rfl, hm⟩, hrun⟩
      · intro ⟨old, ⟨u', dev', hok, hm⟩, hi⟩
        cases hok
        refine ⟨old, hm, ?_⟩
        rw [hi]
        rfl

theorem format_iff {s : FS} :
    format env key d = .ok s ↔ ∃ old, FoundOn env key d old ∧ initialise env old = .ok () s :=
  formatSized_iff

theorem formats_iff : Formats env key d ↔ ∃ old s, FoundOn env key d old ∧ Spare old ∧
    initialise env old = .ok () s ∧
    ∀ ticks orders, ∃ s', mount env key ticks orders s.dev = .ok s' ∧ Unused env s' := by
  have hunused : ∀ old s, FoundOn env key d old → initialise env old = .ok () s →
      (Unused env s ↔ Spare old) := by
    intro old s ⟨u, dev, _, hm⟩ hi
    obtain ⟨r, bs, -, -, hold⟩ := mount_ok hm
    have hcache : old.dirCache = some .new := by
      rw [hold]
      rfl
    exact unused_iff hcache (mount_deferred hm) hi
  constructor
  · intro ⟨s, hs, hempty, hmounts⟩
    obtain ⟨old, hfound, hi⟩ := format_iff.mp hs
    exact ⟨old, s, hfound, (hunused old s hfound hi).mp hempty, hi, hmounts⟩
  · intro ⟨old, s, hfound, hspare, hi, hmounts⟩
    exact ⟨s, format_iff.mpr ⟨old, hfound, hi⟩, (hunused old s hfound hi).mpr hspare, hmounts⟩

/-! ## A device without an older uberblock -/

theorem Mounted.spare {s : FS} (h : Mounted env key d s) : Spare s := by
  refine ⟨?_, h.ddt⟩
  have hcap : s.inodes.cap = defaultInodeCount := by
    rw [h.inodes]
    exact h.capacity
  rw [statfs_free_iff, h.freeInodes, h.nextInode, hcap]
  exact ⟨Nat.zero_le _, h.counted.used_le, by decide, rfl⟩

/-- The bitmap of a fresh device that mounts is recorded in full. -/
theorem Mounted.bitmap_lt {s : FS} (h : Mounted env key d s) : s.bm.marshalLen < 2 ^ 32 := by
  have hbits := h.root.lens.bm
  rw [marshalLen_congr ((freshBits_spec d s.ub).1.trans h.total.symm)] at hbits
  rw [← hbits]
  exact UInt32.toNat_lt _

/-- The commit that follows the mount of a fresh device is on the device. -/
theorem Mounted.root_committed {old s : FS} (h : Mounted env key d old) {n : Nat} {t : Inode.Table}
    (hc : Committed env { old with ticks := n, inodes := t } s)
    (hcap : t.cap = old.ub.inodeCount.toNat) :
    Cow.Root env s.dev ⟨FS.nextUber { old with ticks := n, inodes := t }, old.bm, old.ddt, t⟩ := by
  obtain ⟨tail, hlen, hx⟩ := hc.dev
  have hfits : old.bm.marshalLen + old.ddt.marshalLen +
    t.marshalLen ≤ old.ub.metaBlocks.toNat * Cow.blk := hc.fits
  have hslot := h.slot
  have hlens := h.bitmap_lt
  have hfol : Cow.Follows env ⟨old.ub, freshBits d old.ub, .new, .new old.ub.inodeCount.toNat⟩
      ⟨FS.nextUber { old with ticks := n, inodes := t }, old.bm, old.ddt,
        t⟩ old.ub.rootInode old.ub.nextInode
      tail _ := ⟨hc.advance, rfl, hfits, hlen, rfl⟩
  have hsmall : Cow.Small old.bm old.ddt t := ⟨hlens, by omega, by omega⟩
  -- the two commits are read off `hfol` before the other facts are matched with them
  refine Cow.Follows.root h.root ?_ ?_ hfol hx.blocks hx.image
  · exact hcap
  · exact hsmall

theorem rebuildFreeInodes_root {t : Inode.Table} {n id : Nat} (ht : t = .new n) (hid : id = 0)
    (h : id < t.cap) (time : UInt64) : rebuildFreeInodes (t.store id h (rootInode time)) = [] := by
  subst ht hid
  rfl

theorem Mounted.remounts {old s : FS} (h : Mounted env key d old)
    (hi : initialise env old = .ok () s)
    (ticks orders : Nat) : ∃ s', mount env key ticks orders s.dev = .ok s' ∧ Unused env s' := by
  obtain ⟨hlt, hrooted, hc⟩ := initialise_ok hi
  rw [hrooted] at hc
  have hcap : old.inodes.cap = defaultInodeCount := by
    rw [h.inodes]
    exact h.capacity
  have hroot := h.root_committed hc (hcap.trans h.capacity.symm)
  obtain ⟨r, hr, hreads⟩ := Cow.mount_of_root hroot
  have hub : r.1 = FS.nextUber _ := hreads.ub
  have htbl : r.2.2.2 = old.inodes.store _ hlt (Fs.rootInode (env.clock old.ticks)) := hreads.tbl
  have hsize : r.1.metaBlocks.toNat * Block.size < 2 ^ 64 := by
    have hslot := h.slot
    have hlens := h.bitmap_lt
    rw [hub]
    show old.ub.metaBlocks.toNat * Cow.blk < 2 ^ 64
    omega
  refine ⟨_, mount_eq ticks orders hr h.bs hsize, ?_, ?_, fun k => (hreads.ddt k).trans (h.ddt k)⟩
  · show ∃ s', (readdir r.1.rootInode.toNat : Act env (List String)).1 _ = .ok [] s'
    rw [hub]
    refine readdir_root (t := env.clock old.ticks) ?_ ?_ rfl
    · show old.ub.rootInode.toNat < r.2.2.2.cap
      rw [htbl]
      exact hlt
    · show r.2.2.2.slots old.ub.rootInode.toNat = _
      rw [htbl]
      exact Function.update_self _ _ _
  · have hid : old.ub.rootInode.toNat = 0 := by
      rw [h.rootInode]
      rfl
    have hfree : rebuildFreeInodes r.2.2.2 = [] := by
      rw [htbl]
      exact rebuildFreeInodes_root h.inodes hid hlt _
    have hnext : r.1.nextInode.toNat = 1 := by
      rw [hub]
      show old.ub.nextInode.toNat = 1
      rw [h.nextInode]
      rfl
    have hcap' : r.2.2.2.cap = defaultInodeCount := by
      rw [htbl]
      exact hcap
    rw [statfs_free_iff]
    show (rebuildFreeInodes r.2.2.2).length ≤ r.1.nextInode.toNat ∧ r.2.1.used ≤ r.2.1.total ∧
      r.1.nextInode.toNat - (rebuildFreeInodes r.2.2.2).length ≤ r.2.2.2.cap ∧
      r.2.2.2.cap - (r.1.nextInode.toNat - (rebuildFreeInodes r.2.2.2).length) =
        defaultInodeCount - 1
    rw [hfree, hnext, hcap']
    exact ⟨Nat.zero_le _, hreads.counted.used_le, by decide, rfl⟩

/-! ## A device with an older uberblock -/

/-- A newer commit in slot 0 survives the first half of `format`: the snapshot goes to
the metadata slot that the commit does not use. -/
theorem root_of_reformat {c : Cow.Commit} {inodes reserve : Nat} {u : Cow.Uberblock} {d' : Disk}
    (hroot : Cow.Root env d c) (hslot : c.ub.seq.toNat % 2 = 0) (hseq : 1 < c.ub.seq.toNat)
    (hmeta : c.ub.metaBlocks.toNat = Cow.slotBlocks d.blocks (Cow.capacity inodes) reserve)
    (hf : Cow.format env inodes reserve d = .ok u d') : Cow.Root env d' c := by
  obtain ⟨mb, bm, tail, hmb, hform, -, hu, -, hx⟩ := (Cow.format_sat env inodes reserve d).ok hf
  have hplaced := Cow.fresh_placed d.blocks_lt hform
  rw [← hmb] at hplaced hmeta
  have hstart : u.metaStart = 2 := by
    rw [hu]
    exact hplaced.metaA
  have hblocks : u.metaBlocks.toNat = mb := by
    have hroom := hform.2
    have hlt := d.blocks_lt
    rw [hu]
    exact UInt64.toNat_ofNat_of_lt' (show mb < 2 ^ 64 by omega)
  have hactive : c.ub.metaStart = 2 + mb := by
    rw [hroot.placed.metaStart, if_pos hslot, hmeta]
  have hone : u.seq.toNat % 2 = 1 := by
    rw [hu]
    rfl
  have hkeep : ∀ n, n ≠ 1 → ¬ (2 ≤ n ∧ n < 2 + mb) → d'.image n = d.image n := by
    intro n hn hout
    rw [hx.image, Cow.replay_commitEvents, Function.update_of_ne (by omega),
      Cow.replay_snapshotEvents, if_neg (by omega)]
  refine hroot.of_agree hx.blocks (hkeep _ (by omega) (by omega))
    (fun i hi => hkeep _ (by omega) (by omega)) ?_
  intro v hv
  have hother : (c.ub.seq.toNat + 1) % 2 = u.seq.toNat % 2 := by omega
  rw [hother, hx.image, Cow.replay_commitEvents, Function.update_self,
    Cow.parseUber_marshalBinary env (by rw [hu]; rfl)] at hv
  cases hv
  rw [hu]
  exact hseq

/-- Formatting a device over a commit in slot 0 mounts that commit. -/
theorem FoundOn.old {s s' old : FS} (hheld : Held env s) (hc : Committed env s s')
    (heven : (s.ub.seq.toNat + 1) % 2 = 0)
    (hmeta : s.ub.metaBlocks.toNat = Cow.slotBlocks s'.dev.blocks defaultInodeCount
      defaultDdtReserve)
    (h : FoundOn env key s'.dev old) :
    old.ub.nextInode = s.ub.nextInode ∧ old.inodes = s.inodes ∧
      old.freeInodes = rebuildFreeInodes s.inodes ∧ ∀ k, old.ddt.lookup k = s.ddt.lookup k := by
  obtain ⟨u, dev, hf, hm⟩ := h
  obtain ⟨k₀, C, hchain, hlast, -⟩ := hheld.commit_chain hc
  have hroot := hchain.last
  rw [hlast] at hroot
  have hseq : s.nextUber.seq.toNat = s.ub.seq.toNat + 1 :=
    hc.advance.seq s.ub.rootInode s.ub.nextInode
  have hcapa : Cow.capacity defaultInodeCount = defaultInodeCount := by decide
  have hkept := root_of_reformat hroot (by show s.nextUber.seq.toNat % 2 = 0; omega)
    (by show 1 < s.nextUber.seq.toNat; omega) (by rw [hcapa]; exact hmeta) hf
  obtain ⟨r, bs, hr, -, rfl⟩ := mount_ok hm
  obtain ⟨r', hr', hreads⟩ := Cow.mount_of_root hkept
  rw [hr] at hr'
  cases hr'
  refine ⟨?_, hreads.tbl, ?_, hreads.ddt⟩
  · show r.1.nextInode = _
    rw [hreads.ub]
    rfl
  · show rebuildFreeInodes r.2.2.2 = _
    rw [hreads.tbl]

/-! ## Formatting empties the device -/

/-- If block 0 holds no valid uberblock with a sequence number of 1 or more, formatting
empties the device, whatever else is on it, exactly if its bitmap is recorded in full. -/
theorem format_empties_iff {bs : BlockStore} (hold : Cow.NothingNewer env d) (hd : d.Reliable)
    (hbs : BlockStore.new key = .ok bs)
    (hform : Cow.Formattable d.blocks defaultInodeCount defaultDdtReserve) :
    Formats env key d ↔ (Alloc.Bitmap.new d.blocks).marshalLen < 2 ^ 32 := by
  constructor
  · intro ⟨s, hs, _⟩
    obtain ⟨old, hm, -⟩ := formatSized_ok rfl rfl hold hs
    rw [← marshalLen_congr (b := .new d.blocks) hm.total]
    exact hm.bitmap_lt
  · intro hsize
    obtain ⟨s, hs⟩ := formatSized_succeeds rfl rfl hold ⟨hd _, hd _, hd _⟩ hbs hform hsize
    obtain ⟨old, hm, hi⟩ := formatSized_ok rfl rfl hold hs
    exact ⟨s, hs, (unused_iff hm.dirCache hm.deferred hi).mpr hm.spare, hm.remounts hi⟩

/-- A device of 32 MiB full of old bytes, with an old uberblock, number 9, in block 1, is
empty after formatting. -/
theorem format_empties_used : ∃ d u, d.Reliable ∧ d.blocks = 8192 ∧
    d.image 1 = u.marshalBinary Env.plain ∧ Cow.parseUber Env.plain (d.image 1) = .ok u ∧
    u.seq = 9 ∧ (∀ n, n ≠ 1 → d.image n = List.replicate Block.size 170) ∧
    Formats Env.plain none d := by
  obtain ⟨n, hn⟩ : ∃ n : Nat, n = 8192 := ⟨_, rfl⟩
  have hn64 : n < 2 ^ 64 := by omega
  have hslot : Cow.slotBlocks n defaultInodeCount defaultDdtReserve = 193 := by
    rw [hn]
    decide
  have hform : Cow.Formattable n defaultInodeCount defaultDdtReserve := by
    have hsize : defaultDdtReserve + defaultInodeCount * Inode.inodeSize < 2 ^ 60 := by decide
    unfold Cow.Formattable
    omega
  obtain ⟨u, hu⟩ : ∃ u : Cow.Uberblock,
      u = { Cow.freshUber n defaultInodeCount 193 with seq := 9 } :=
    ⟨_, rfl⟩
  obtain ⟨d, hd⟩ : ∃ d : Disk, d = { Disk.zeroed n hn64 with
    image := Function.update (fun _ => List.replicate Block.size 170) 1
      (u.marshalBinary Env.plain) } := ⟨_, rfl⟩
  have hblocks : d.blocks = n := by rw [hd]; rfl
  have hreliable : d.Reliable := by
    rw [hd]
    exact reliable_zeroed n hn64
  have hone : d.image 1 = u.marshalBinary Env.plain := by rw [hd]; rfl
  have hrest : ∀ n, n ≠ 1 → d.image n = List.replicate Block.size 170 := by
    intro i hi
    rw [hd]
    show Function.update (fun _ => List.replicate Block.size 170) 1 _ i = _
    rw [Function.update_of_ne hi]
  have hjunk : leNat (slice (List.replicate Block.size 170) 0 8) = 12297829382473034410 := by decide
  have hold : Cow.NothingNewer Env.plain d := by
    intro v hv
    rw [hrest 0 (by decide), Cow.parseUber, if_neg (by rw [List.length_replicate]; decide),
      if_pos (by rw [hjunk]; decide)] at hv
    cases hv
  refine ⟨d, u, hreliable, hblocks.trans hn, hone, ?_, by rw [hu], hrest, ?_⟩
  · rw [hone]
    exact Cow.parseUber_marshalBinary Env.plain (by rw [hu]; rfl)
  · refine (format_empties_iff hold hreliable (new_of_key ⟨none, by simp⟩) (hblocks ▸ hform)).mpr ?_
    rw [marshalLen_new, hblocks]
    omega

end Fs
end BloomFS

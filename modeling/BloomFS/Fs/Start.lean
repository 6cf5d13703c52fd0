/-
The start of a run: what a formatted device holds.

`Mounted` describes the state between laying out a blank device and creating its
root directory, `Formatted` the state `format` returns.  An invariant of the pool
that holds of the first holds in every state of a session.
-/
import BloomFS.Cow.History
import BloomFS.Fs.Steps

namespace BloomFS
namespace Fs

open Bytes Exec Block Store

variable {env : Env}

/-- The file system a mount builds from the tables on disk. -/
def mounted (dev : Disk) (bs : BlockStore) (ticks orders : Nat)
    (r : Cow.Uberblock × Alloc.Bitmap × Dedup.Table × Inode.Table) : FS where
  dev := dev
  ub := r.1
  bm := r.2.1
  ddt := r.2.2.1
  inodes := r.2.2.2
  bs := bs
  openCount := ∅
  freeInodes := rebuildFreeInodes r.2.2.2
  ticks := ticks
  orders := orders
  metaBuf := List.replicate (r.1.metaBlocks.toNat * Block.size) 0
  dirCache := some .new

theorem mount_ok {key : Option Bytes} {ticks orders : Nat} {dev : Disk} {fs : FS}
    (h : mount env key ticks orders dev = .ok fs) :
    ∃ r bs, Cow.mount env dev = .ok r ∧ BlockStore.new key = .ok bs ∧
      fs = mounted dev bs ticks orders r := by
  unfold mount at h
  cases hm : Cow.mount env dev with
  | error e => rw [hm] at h; cases h
  | ok r =>
    cases hb : BlockStore.new key with
    | error e => rw [hm, hb] at h; cases h
    | ok bs =>
      rw [hm, hb] at h
      simp only [mapError_ok, ok_bind] at h
      split at h
      · cases h
      · cases h
        exact ⟨r, bs, rfl, rfl, rfl⟩

def freshBits (d : Disk) (u : Cow.Uberblock) : Alloc.Bitmap :=
  (Alloc.Bitmap.new d.blocks).reserve 0 u.dataStart.toNat

/-- The state right after a blank device was laid out and mounted, before the root
directory exists. -/
structure Mounted (env : Env) (key : Option Bytes) (d : Disk) (s : FS) : Prop where
  root : Cow.Root env s.dev ⟨s.ub, freshBits d s.ub, .new, .new s.ub.inodeCount.toNat⟩
  seq : s.ub.seq = 1
  rootInode : s.ub.rootInode = 0
  nextInode : s.ub.nextInode = 1
  dev : ∃ buf, Disk.Extends d s.dev (Cow.commitEvents env s.ub buf)
  total : s.bm.total = d.blocks
  bits : ∀ i, i < d.blocks → (s.bm.bits i = true ↔ i < s.ub.dataStart.toNat)
  deferred : s.bm.deferred = []
  counted : s.bm.Counted
  ddt : ∀ k, s.ddt.lookup k = none
  capacity : s.ub.inodeCount.toNat = defaultInodeCount
  inodes : s.inodes = .new s.ub.inodeCount.toNat
  bs : BlockStore.new key = .ok s.bs
  openCount : s.openCount = ∅
  freeInodes : s.freeInodes = []
  dirCache : s.dirCache = some .new
  ticks : s.ticks = 0
  orders : s.orders = 0
  layout : s.ub.metaBlocks.toNat = Cow.slotBlocks d.blocks defaultInodeCount defaultDdtReserve

theorem freshBits_spec (d : Disk) (u : Cow.Uberblock) :
    (freshBits d u).total = d.blocks ∧
      ∀ i, i < d.blocks → ((freshBits d u).bits i = true ↔ i < u.dataStart.toNat) := by
  obtain ⟨htot, -, -, hbits⟩ :=
    Alloc.Bitmap.reserve_spec (Alloc.Bitmap.new_counted d.blocks) 0 u.dataStart.toNat
  refine ⟨htot, fun i hi => ?_⟩
  have hi : i < (Alloc.Bitmap.new d.blocks).total := hi
  rw [freshBits, hbits i]
  simp [Alloc.Bitmap.new] at hi ⊢
  omega

theorem slotBlocks_le {total inodes reserve : Nat} (bm : Alloc.Bitmap) (htot : bm.total = total)
    (h : inodes * Inode.inodeSize + reserve < 2 ^ 31) :
    Cow.slotBlocks total inodes reserve * Cow.blk < bm.marshalLen + 2 ^ 32 := by
  have hle : Cow.slotBlocks total inodes reserve * Cow.blk ≤ _ := Nat.div_mul_le_self _ _
  have hblk : Cow.blk = 4096 := rfl
  unfold Alloc.Bitmap.marshalLen Alloc.Bitmap.words
  rw [htot]
  omega

theorem le_slotBlocks {total inodes reserve : Nat} (bm : Alloc.Bitmap) (htot : bm.total = total) :
    bm.marshalLen + 57 + reserve + inodes * Inode.inodeSize ≤
      Cow.slotBlocks total inodes reserve * Cow.blk := by
  have hblk : Cow.blk = 4096 := rfl
  unfold Cow.slotBlocks Alloc.Bitmap.marshalLen Alloc.Bitmap.words
  rw [htot, hblk]
  omega

/-- Mounting a device that was just laid out, in whose other uberblock slot there
is nothing newer. -/
theorem mounted_of_layout {inodes reserve : Nat} (hin : inodes = defaultInodeCount)
    (hres : reserve = defaultDdtReserve) {key : Option Bytes} {d d' : Disk} {u : Cow.Uberblock}
    {s : FS} (hold : Cow.NothingNewer env d) (hf : Cow.format env inodes reserve d = .ok u d')
    (hm : mount env key 0 0 d' = .ok s) : Mounted env key d s := by
  obtain ⟨hdisk, v, hv⟩ := Cow.onDisk_of_format hold hf
  obtain ⟨r, bs, hr, hbs, rfl⟩ := mount_ok hm
  have htot := (freshBits_spec d u).1
  -- a device too large for its own bitmap does not mount
  have hsmall : Cow.Small (freshBits d u) .new (.new u.inodeCount.toNat) := by
    have h8 : Dedup.Table.new.marshalLen = 8 := rfl
    refine ⟨?_, by omega, by simp [Inode.Table.marshalLen, Inode.Table.new]⟩
    by_contra hbig
    have hlt : (freshBits d u).total < 2 ^ 64 := htot.symm ▸ d.blocks_lt
    have hdisk' : Cow.OnDisk env d' ⟨u, freshBits d u, .new, .new u.inodeCount.toNat⟩ := hdisk
    have hv' : u = Cow.withLens v (freshBits d u) .new (.new u.inodeCount.toNat) := hv
    generalize Inode.Table.new u.inodeCount.toNat = tbl at hdisk' hv'
    generalize freshBits d u = bm at hdisk' hv' hlt hbig
    rw [hv'] at hdisk'
    rw [Cow.mount_short hdisk' hlt (not_lt.mp hbig)] at hr
    cases hr
  have hroot := Cow.root_of_format hold hf hsmall
  obtain ⟨r', hr', hreads⟩ := Cow.mount_of_root hroot
  rw [hr] at hr'
  cases hr'
  obtain ⟨mb, bm, tail, hmb, hform, -, hu, -, hx⟩ := (Cow.format_sat env _ _ d).ok hf
  have hub : r.1 = u := hreads.ub
  have hcap : u.inodeCount.toNat = defaultInodeCount := by
    rw [hu]
    refine (Cow.capacity_toNat hform).trans ?_
    rw [Cow.capacity, if_neg (by rw [hin]; decide), hin]
  have hmeta : u.metaBlocks.toNat = Cow.slotBlocks d.blocks inodes reserve := by
    have hcapa : Cow.capacity inodes = inodes := by
      rw [Cow.capacity, if_neg (by rw [hin]; decide)]
    have hlt := hform.2
    have hblocks := d.blocks_lt
    rw [hcapa] at hlt hmb
    rw [hu, ← hmb] at *
    exact Nat.mod_eq_of_lt (by omega)
  have htbl : r.2.2.2 = .new u.inodeCount.toNat := hreads.tbl
  have hrtot : r.2.1.total = d.blocks := hreads.total.trans htot
  refine ⟨?_, ?_, ?_, ?_, ⟨Cow.tables bm .new (.new (Cow.capacity inodes)) ++ tail, ?_⟩, hrtot,
    fun i hi => ?_, hreads.deferred, hreads.counted,
    fun k => hreads.ddt k, ?_, ?_, hbs, rfl, ?_, rfl, rfl, rfl, ?_⟩
  · show Cow.Root env d' ⟨r.1, freshBits d r.1, _, .new r.1.inodeCount.toNat⟩
    rw [hub]
    exact hroot
  · show r.1.seq = 1
    rw [hub, hu]
    rfl
  · show r.1.rootInode = 0
    rw [hub, hu]
    rfl
  · show r.1.nextInode = 1
    rw [hub, hu]
    rfl
  · show Disk.Extends d d' (Cow.commitEvents env r.1 _)
    rw [hub]
    exact hx
  · show r.2.1.bits i = true ↔ i < r.1.dataStart.toNat
    rw [hreads.bits i (by rw [← htot] at hi; exact hi), hub]
    exact (freshBits_spec d u).2 i hi
  · show r.1.inodeCount.toNat = _
    rw [hub, hcap]
  · show r.2.2.2 = .new r.1.inodeCount.toNat
    rw [htbl, hub]
  · show rebuildFreeInodes r.2.2.2 = []
    rw [htbl]
    rfl
  · show r.1.metaBlocks.toNat = _
    rw [hub, hmeta, hin, hres]

/-- The metadata slots leave the tables other than the bitmap less than 4 GiB. -/
theorem Mounted.slot {key : Option Bytes} {d : Disk} {s : FS} (h : Mounted env key d s) :
    s.ub.metaBlocks.toNat * Cow.blk < s.bm.marshalLen + 2 ^ 32 := by
  rw [h.layout]
  exact slotBlocks_le s.bm h.total (by decide)

/-- They have room for a full inode table and the dedup reserve. -/
theorem Mounted.reserve {key : Option Bytes} {d : Disk} {s : FS} (h : Mounted env key d s) :
    s.bm.marshalLen + 57 + defaultDdtReserve + defaultInodeCount * Inode.inodeSize ≤
      s.ub.metaBlocks.toNat * Cow.blk := by
  rw [h.layout]
  exact le_slotBlocks s.bm h.total

theorem formatSized_ok {inodes reserve : Nat} (hin : inodes = defaultInodeCount)
    (hres : reserve = defaultDdtReserve) {key : Option Bytes} {d : Disk} {fs : FS}
    (hold : Cow.NothingNewer env d) (h : formatSized env inodes reserve key d = .ok fs) :
    ∃ s, Mounted env key d s ∧ initialise env s = .ok () fs := by
  unfold formatSized at h
  cases hf : Cow.format env inodes reserve d with
  | error e d' => rw [hf] at h; cases h
  | ok u d' =>
    rw [hf] at h
    simp only at h
    cases hm : mount env key 0 0 d' with
    | error e => rw [hm] at h; cases h
    | ok s =>
      rw [hm, ok_bind] at h
      cases hi : initialise env s with
      | error e s' => rw [hi] at h; cases h
      | ok x s' =>
        rw [hi] at h
        cases h
        exact ⟨s, mounted_of_layout hin hres hold hf hm, hi⟩

theorem Blank.nothingNewer {d : Disk} (h : Blank d) : Cow.NothingNewer env d :=
  Cow.nothingNewer_of_zero (by rw [h.image])

theorem format_ok {key : Option Bytes} {d : Disk} {fs : FS} (hb : Blank d)
    (h : format env key d = .ok fs) :
    ∃ s, Mounted env key d s ∧ initialise env s = .ok () fs := by
  exact formatSized_ok rfl rfl hb.nothingNewer h

/-- An invariant of the pool holds after formatting if it holds of a fresh
device. -/
theorem Closed.of_format {I : FS → Prop} (hI : Closed env I)
    (hc : Keeps I (commit env)) {key : Option Bytes} {d : Disk} {fs : FS}
    (hb : Blank d) (h : format env key d = .ok fs) (h0 : ∀ s, Mounted env key d s → I s) :
        I fs := by
  obtain ⟨s, hs, hi⟩ := format_ok hb h
  exact (keeps_bind (makeRoot.2 I hI) (fun _ => hc)).ok (h0 s hs) hi

/-! ## Runs -/

def Op.InSession : Op → Prop
  | .remount _ => False
  | _ => True

theorem perform_eq_call {op : Op} (hop : op.InSession) (s : Session) :
    perform env op s = call env op s := by
  cases op with
  | remount key => exact hop.elim
  | _ => rfl

theorem Closed.of_exec {I : FS → Prop} (hI : Closed env I) (hc : Keeps I (commit env))
    (handles : List Handle) (op : Op) : Keeps I (execOf env handles op) := by
  unfold execOf
  split
  · exact keeps_map hc
  · exact (actOf env handles op).2 I hI

/-- An invariant of the pool holds after every operation of a session. -/
theorem Closed.of_perform {I : FS → Prop} (hI : Closed env I)
    (hc : Keeps I (commit env)) {op : Op} (hop : op.InSession)
    {s s' : Session} {out : Outcome} (h : perform env op s = (out, s')) (hs : I s.fs) :
        I s'.fs := by
  have hkeep := hI.of_exec hc s.handles op
  rw [perform_eq_call hop, call] at h
  cases hr : execOf env s.handles op s.fs with
  | ok r fs => rw [hr] at h; cases h; exact hkeep.ok hs hr
  | error f fs => rw [hr] at h; cases h; exact hkeep.error hs hr

/-- The same for every operation, with what a mount needs. -/
theorem Closed.of_perform_mount {I : FS → Prop} (hI : Closed env I) (hc : Keeps I (commit env))
    (hm : ∀ s fs key ticks orders, I s → mount env key ticks orders s.dev = .ok fs → I fs) {op : Op}
    {s s' : Session} {out : Outcome} (h : perform env op s = (out, s')) (hs : I s.fs) :
        I s'.fs := by
  have hcases : op.InSession ∨ ∃ key, op = .remount key := by
    cases op with
    | remount key => exact .inr ⟨key, rfl⟩
    | _ => exact .inl trivial
  rcases hcases with hop | ⟨key, rfl⟩
  · exact hI.of_perform hc hop h hs
  · simp only [perform] at h
    split at h
    · next fs hfs =>
      cases h
      exact hm _ _ _ _ _ hs hfs
    · cases h
      exact hs

/-- A session of operations, without a remount. -/
def inSession : Session → Op → Outcome → Prop := fun _ op _ => op.InSession

/-- An invariant of the pool holds in every state of a session. -/
theorem Closed.of_run {I : FS → Prop} (hI : Closed env I)
    (hc : Keeps I (commit env)) {D : Disk → Prop}
    (h0 : ∀ key d s, Blank d → D d → Mounted env key d s → I s) {past : List Session} {s : Session}
    (run : Run env D inSession past s) : I s.fs := by
  induction run with
  | start blank hd run => exact hI.of_format hc blank run (fun s hs => h0 _ _ s blank hd hs)
  | step _ does hp ih => exact hI.of_perform hc hp does ih

end Fs
end BloomFS

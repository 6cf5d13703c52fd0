/-
A formatted device with one empty file.

The states in which the space runs out are built on this one: all that is stored is the
page of the root directory, and the commit has nothing left to free.
-/
import BloomFS.Lib.Counting
import Mathlib.Data.FinEnum
import BloomFS.Fs.Fill
import BloomFS.Fs.Promise
import BloomFS.Refine.Plain
import BloomFS.Runs.Links
import BloomFS.Runs.Space

namespace BloomFS
namespace Runs

open Bytes Exec Block Dir Fs Store Spec Refine

/-- A block that is a page of a directory, and no record with a small number at its
beginning. -/
def IsPage (b : Bytes) : Prop := b.length = 4096 ∧ b.getD 4 0 = 1

/-- Inode 1 is an empty file, and one cluster of data is in use, below `u`.  The metadata
slots of the device have `w` blocks. -/
structure OneFile (env : Env) (w n u : Nat) (s : FS) : Prop where
  fits : Cow.Fits s.ub s.bm s.ddt s.inodes
  seq : s.ub.seq.toNat + 2 ^ 32 < 2 ^ 64
  slot : s.ub.metaBlocks.toNat = w
  single : s.ddt.len ≤ 1
  filling : Filling n s (3 + 2 * w)
  cap : 1 < s.inodes.cap
  kind : (s.inodes.slots 1).kind = Inode.typeRegular
  empty : (s.inodes.slots 1).size = 0
  below : Below u s.bm
  counts : ∀ k e, s.ddt.lookup k = some e → e.refs.toNat ≤ 1
  pages : ∀ k, s.ddt.lookup k ≠ none → ∃ b, IsPage b ∧ k = env.blake3 b
  play : InPlay env s.dev.trace
  hashed : ∀ b, .hash b ∈ s.dev.trace → IsPage b
  opened : s.openCountOf 1 ≠ 0

theorem layout_of_run {env : Env} {D : Disk → Prop} {past : List Session} {s : Session}
    (run : Run env D inSession past s) : (∃ d, D d ∧ s.fs.dev.blocks = d.blocks) ∧
      s.fs.ub.metaBlocks.toNat = Cow.slotBlocks s.fs.dev.blocks defaultInodeCount
      defaultDdtReserve ∧
      s.fs.inodes.cap = defaultInodeCount := by
  induction run with
  | @start key d fs blank hd run =>
    have h := formatted_of_ok blank run
    refine ⟨⟨d, hd, h.blocks⟩, ?_, h.cap⟩
    rw [h.layout, h.blocks]
  | step _ does hp ih =>
    have h := (steady_closed _).of_perform (steady_commit _) hp does (Steady.refl _)
    rw [h.blocks, h.metaBlocks, h.cap]
    exact ih

section Pages

variable {env : Env} {s : FS} {t : State} {refs : Nat → List Ref}

/-- The page of the root is all that is held. -/
theorem total_of_page (hf : Filled env s (fun id => (t.node id).blob) refs 0)
    (hcap : 0 < s.inodes.cap) (hroot : (t.node 0).blob.length = 4096)
    (hrest : ∀ id < s.inodes.cap, id ≠ 0 → (t.node id).blob = []) :
    ∃ r, refs 0 = [r] ∧ total s.inodes refs = {r.hash} := by
  have hlaid := hf.laid 0 hcap
  have hne : (s.inodes.slots 0).size ≠ 0 := by
    intro h0
    have hlen := hlaid.size
    rw [h0, hroot] at hlen
    cases hlen
  have hlen : (refs 0).length = 1 := by
    rw [(hlaid.records hne).length_eq, length_splitRecords, hroot]
    have hpow : 2 ^ 12 ≤ 2 ^ (s.inodes.slots 0).recordSizeLog2.toNat :=
      Nat.pow_le_pow_right (by decide) (hlaid.log2 hne).1
    have h0 : 0 < divCeil 4096 (2 ^ (s.inodes.slots 0).recordSizeLog2.toNat) :=
      divCeil_pos hlaid.pow_pos (by decide)
    have h1 : ¬ 1 < divCeil 4096 (2 ^ (s.inodes.slots 0).recordSizeLog2.toNat) := by
      rw [lt_divCeil_iff hlaid.pow_pos]
      omega
    omega
  obtain ⟨r, hr⟩ := List.length_eq_one_iff.mp hlen
  have hin : isInline (s.inodes.slots 0) = true := by
    by_contra hno
    have := hlaid.several hne (Bool.eq_false_iff.mpr hno)
    omega
  refine ⟨r, hr, ?_⟩
  have hothers : others s.inodes refs 0 = 0 := Finset.sum_eq_zero fun id hid => by
    obtain ⟨h0, hlt⟩ := Finset.mem_erase.mp hid
    have hlt := Finset.mem_range.mp hlt
    exact (hf.laid id hlt).tokens_eq_zero_iff.mpr (hrest id hlt h0)
  rw [total_eq hcap, hothers, add_zero]
  unfold tokens holdings oldContainer
  rw [hr, if_neg (by simp [hin])]
  rfl

end Pages

theorem entryClusters_single {t : Dedup.Table} {k : Dedup.Key} {e : Dedup.Entry} (hlen : t.len ≤ 1)
    (h : t.lookup k = some e) : Space.entryClusters t = e.count.toNat := by
  have hmem := Space.mem_of_lookup h
  unfold Dedup.Table.len at hlen
  unfold Space.entryClusters
  match hm : t.m.entries, hlen with
  | [], _ =>
    rw [hm] at hmem
    cases hmem
  | [x], _ =>
    rw [hm] at hmem
    rw [← List.mem_singleton.mp hmem]
    rfl

/-- A single block of at most a page takes one cluster. -/
theorem entryClusters_of_page {env : Env} {bs : BlockStore} {ds : Nat} {p : Pool} {k : Dedup.Key}
    (h : Stock env bs ds p {k})
    (hshort : ∀ b, .hash b ∈ p.dev.trace → b.length ≤ 4096) : Space.entryClusters p.ddt = 1 := by
  obtain ⟨e, he⟩ := h.lookup_of_mem (Multiset.mem_singleton_self k)
  obtain ⟨b, hb, hstored⟩ := h.stored _ _ he
  obtain ⟨c, -, hform, -⟩ := hstored.form
  have hlen := (length_payloadOf_le b c).trans (hshort b hb)
  have hblk : blk = 4096 := rfl
  have hlen1 : p.ddt.len ≤ 1 := h.len_le
  rw [entryClusters_single hlen1 he, hstored.count_eq hform]
  unfold clusters
  rw [hblk]
  omega

/-- Empty files were created in the root, and the first of them is open. -/
def Opening (t : State) (handles : List Handle) : Prop :=
  handles = [⟨1, false⟩] ∧ t.opens 1 ≠ 0 ∧ t.clean = true ∧ t.cap = 4096 ∧
    (t.node 1).kind = Inode.typeRegular ∧ Sketched t.paid ∧ t.paid.length ≤ 256 ∧
    (∀ p ∈ t.paid, (sketch p).1 = 4096 ∧ (sketch p).2.getD 4 0 = 1) ∧
    (sketch (.dir (t.node 0).pages)).1 = 4096 ∧ Slight (.dir (t.node 0).pages) ∧
    (t.node 0).isDir ∧ ∀ i < 64, ∀ j < 64, 64 * i + j ≠ 0 → (t.node (64 * i + j)).blob = []

instance (t : State) (handles : List Handle) : Decidable (Opening t handles) :=
  inferInstanceAs (Decidable (_ ∧ _))

section Opening

variable {env : Env} {C : View → Op → Prop} [∀ v op, Decidable (C v op)]
  {P : Session → Op → Outcome → Prop}

/-- A device with `w` blocks to a slot, formatted, with files created and committed, and with
room for what a further script pays. -/
theorem oneFile_of_opening (g : Ground env) (hC : ∀ v op, C v op → Fair v op)
    (hcommit : ∀ v, C v .commit) (hsmooth : ∀ s op out, P s op out → Smooth s op out) {n w : Nat}
    (h64 : n < 2 ^ 64)
    (hP : ∀ past s t op r, Run env (· = Disk.zeroed n h64) P past s → Plays op →
      Rep env s.fs t → Orderly t.view s.handles → C t.view op → P s op (.ok r)) (hn : n < 2 ^ 34)
    (hslot : Cow.slotBlocks n defaultInodeCount defaultDdtReserve = w) {ops ops' : List Op}
    (hplays : ∀ op ∈ ops, Plays op) {t t' : State} {handles handles' : List Handle}
    (hx : script Env.plain C ops (fresh Env.plain) [] = some (t, handles))
    (hopening : Opening t handles)
    (hrest : script Env.plain C ops' t handles = some (t', handles'))
    (hshort : ops.length ≤ 256) (hsketch : Sketched t'.paid) (hfew : t'.paid.length ≤ 256)
    (hpos : 2 + 2 * w < n) (hroom : 2 + 2 * w + 16 * t'.paid.length ≤ n) :
    ∃ past s, Run env (· = Disk.zeroed n h64) P past s ∧
      OneFile env w n (2 + 2 * w + 16 * t.paid.length) s.fs ∧ s.handles = handles ∧
      Clear env t'.log ∧ Track env t'.log (2 ^ 32) s t ∧ Orderly t.view handles := by
  obtain ⟨hopen, hopened, hclean, hcap, hkind, hsketched, hlittle, hpaid, hpage, hslight, hdir,
    hblank⟩ := hopening
  have hpre : t.log <+: t'.log := script_grows hrest
  obtain ⟨fs₀, hfs₀, hclear, htrack₀⟩ :=
    start_sized g h64 hn hslot hroom hpos hsketch hfew
  rw [g.fresh] at htrack₀
  obtain ⟨past₁, s₁, run₁, hhandles₁, htrack₁, horder⟩ := fair_exact (k := 2 ^ 32 + 1)
    hclear hC hP hplays (.start (blank_zeroed n h64) rfl hfs₀) (htrack₀.mono (by omega))
    (orderly_fresh _) ((g.script _ _ _).trans hx) hpre
  obtain ⟨s, hdoes, hhandles, htrack⟩ := htrack₁.committed
  rw [← hhandles₁] at horder
  have run := run₁.step hdoes (hP _ _ _ _ _ run₁ (.inr rfl) htrack₁.rep horder (hcommit _))
  have hc : Committed env s₁.fs s.fs :=
    (commit_sat s₁.fs).ok (perform_commit hdoes ⟨_, rfl⟩).1
  have hreliable : ∀ d, d = Disk.zeroed n h64 → d.Reliable := by
    rintro d rfl
    exact reliable_zeroed n h64
  obtain ⟨⟨d, rfl, hblocks⟩, hmeta, -⟩ :=
    layout_of_run (run.mono (fun _ h => h) fun _ _ _ h => (hsmooth _ _ _ h).1)
  rw [hblocks, show (Disk.zeroed n h64).blocks = n from rfl, hslot] at hmeta
  have hinplay := (htrack.undisturbed hclear).1
  have hp := partitioned_of_run (run.mono (fun _ _ => trivial) fun _ _ _ h => (hsmooth _ _ _ h).1)
    (countsFit_of_inPlay hinplay)
  obtain ⟨refs, lost, hf, hlost⟩ := htrack.rep.filled
  obtain rfl := hlost.mp hclean
  have hcap' : s.fs.inodes.cap = 4096 := by rw [← htrack.rep.cap, hcap]
  have hroot : (t.node 0).blob.length = 4096 := by
    rw [sketch_eq hslight] at hpage
    rw [Node.blob_of_dir hdir]
    exact hpage
  have hempty : ∀ id < s.fs.inodes.cap, id ≠ 0 → (t.node id).blob = [] := fun id hid h0 => by
    have h := hblank (id / 64) (by omega) (id % 64) (by omega)
    rw [Nat.div_add_mod] at h
    exact h h0
  have hcovered : ∀ b, .hash b ∈ s.fs.dev.trace → IsPage b := fun b hb => by
    have hsmall : ∀ p ∈ t.paid, p.blob.length ≤ 4096 := fun p hp => (hsketched.1 p hp).length_le
    obtain ⟨p, hp, rfl, -⟩ := paid_of_covering hsmall (htrack.rep.logged.covered b hb)
    have hpage := hpaid p hp
    rwa [sketch_eq (hsketched.1 p hp), getD_start (by decide)] at hpage
  obtain ⟨r, hrefs, htotal⟩ := total_of_page hf (by omega) hroot hempty
  have hstock := hf.stocked.stock
  rw [htotal, add_zero] at hstock
  have hdeferred : s.fs.bm.deferred = [] := by
    have hworking := working_of_run (run₁.mono hreliable fun _ _ _ h => h)
    rw [hc.bm]
    exact (Alloc.Bitmap.applyDeferred_spec hworking.counted).2.1
  have hworking := working_of_run (run.mono hreliable fun _ _ _ h => h)
  have hstart := hworking.placed.dataStart
  rw [hmeta] at hstart
  refine ⟨_, s, run,
    ⟨htrack.slotted.fits htrack.rep htrack.ledger, htrack.seq, hmeta, ?_,
      ⟨hworking, hblocks, hdeferred, ?_⟩, by omega, ?_,
    ?_, ?_, fun k e he => ?_, fun k hk => ?_, hinplay, hcovered,
    htrack.rep.opens 1 ▸ hopened⟩, hhandles.trans hhandles₁, hclear, htrack, hhandles₁ ▸ horder⟩
  · exact hstock.len_le
  · have hone : Space.entryClusters s.fs.ddt = 1 :=
      entryClusters_of_page hstock fun b hb => (hcovered b hb).1.le
    have hused : s.fs.bm.used = s.fs.ub.dataStart.toNat + Space.entryClusters s.fs.ddt +
      s.fs.bm.deferredCount := hp.used
    rw [hused, hstart, hone]
    unfold Alloc.Bitmap.deferredCount
    rw [hdeferred, List.map_nil, List.sum_nil]
    omega
  · rw [(htrack.rep.nodes 1 (by omega)).kind, hkind]
  · exact (hf.laid 1 (by omega)).blob_eq_nil_iff.mp (hempty 1 (by omega) (by decide))
  · have hcost := htrack.rep.logged.paid
    have hprice := (hsketched.clear g (by omega)).2
    exact hf.stocked.below.mono (by omega)
  · have hle := Multiset.count_le_card k {r.hash}
    rw [hstock.count_eq he, Multiset.card_singleton] at hle
    exact hle
  · obtain ⟨e, he⟩ := Option.ne_none_iff_exists'.mp hk
    obtain ⟨b, hb, hstored⟩ := hstock.stored k e he
    exact ⟨b, hcovered b hb, hstored.key.symm⟩

end Opening

/-- The calls of these scripts. -/
abbrev Modest (v : View) (op : Op) : Prop := Fair v op ∧ Yields v op ∧ Rooted v op

theorem oneFile {env : Env} (g : Ground env) {n w : Nat} (hn : n < 2 ^ 34)
    (hslot : Cow.slotBlocks n defaultInodeCount defaultDdtReserve = w) (hroom : 18 + 2 * w ≤ n) :
    ∃ past s, Run env Disk.Reliable (Proper env) past s ∧ OneFile env w n (18 + 2 * w) s.fs ∧
      s.handles = [⟨1, false⟩] ∧ ∀ data r, Proper env s (.writeFile 1 data) (.ok r) := by
  have hscript : ∃ x ∈ script Env.plain Modest [.create 0 "a", .openFile 1] (fresh Env.plain) [],
      Opening x.1 x.2 ∧ Rooted x.1.view (.writeFile 1 []) ∧ Sketched x.1.paid ∧
        x.1.paid.length = 1 := by
    decide +kernel
  obtain ⟨⟨t, handles⟩, hx, hopening, hrooted, hsketch, hfew⟩ := hscript
  dsimp only at hopening hrooted hsketch hfew
  have hrest : script Env.plain Modest [] t handles = some (t, handles) := rfl
  obtain ⟨past, s, run, h, hhandles, -, htrack, horder⟩ := oneFile_of_opening (P := Proper env) g
    (fun _ _ h => h.1) (fun v => ⟨trivial, trivial, fun _ hid => by cases hid⟩)
    (fun _ _ _ h => h.1) (by omega) (proper_of_fair g.lawful) hn hslot (by simp [Plays, Answers])
    hx hopening hrest (by decide) hsketch (by omega) (by omega) (by omega)
  rw [hfew, show 2 + 2 * w + 16 * 1 = 18 + 2 * w by omega] at h
  refine ⟨past, s, run.mono ?_ fun _ _ _ h => h, h, hhandles.trans hopening.1, fun data r => ?_⟩
  · rintro d rfl
    exact reliable_zeroed n _
  · exact proper_of_fair g.lawful _ s t (.writeFile 1 data) r run (.inl trivial) htrack.rep
      (hhandles ▸ horder) ⟨trivial, trivial, hrooted⟩

/-! ## Contents that fill the device -/

/-- A record: its number, and what `x` has for it. -/
def record (x : Nat → Bytes) (i : Nat) : Bytes := leBytes 8 i ++ x i

def contents (x : Nat → Bytes) (m : Nat) : Bytes := (List.range m).flatMap (record x)

def zeros (_ : Nat) : Bytes := List.replicate 32760 0

def counting (m : Nat) : Bytes := contents zeros m

theorem length_zeros (i : Nat) : (zeros i).length + 8 = 32768 := by
  rw [zeros, List.length_replicate]

section Contents

variable {env : Env} {x : Nat → Bytes} {rs m : Nat}

section Length

variable (hx : ∀ i, (x i).length + 8 = rs)

include hx

theorem length_record (i : Nat) : (record x i).length = rs := by
  rw [record, List.length_append, length_leBytes, ← hx i]
  omega

theorem length_contents (m : Nat) : (contents x m).length = m * rs := by
  unfold contents
  rw [List.length_flatMap]
  simp [length_record hx]

theorem slice_contents {i : Nat} (h : i < m) : slice (contents x m) (i * rs) rs = record x i :=
  slice_flatMap_range (fun j _ => length_record hx j) h

theorem splitRecords_contents (m : Nat) :
    splitRecords (contents x m) rs = (List.range m).map (record x) := by
  have hrs := hx 0
  have hcount : divCeil (m * rs) rs = m := by
    unfold divCeil
    rw [Nat.mul_comm, Nat.mul_add_div (by omega), Nat.div_eq_of_lt (by omega), Nat.add_zero]
  unfold splitRecords
  rw [length_contents hx, hcount]
  exact List.map_congr_left fun i hi => slice_contents hx (List.mem_range.mp hi)

theorem chunk_contents {log2 : UInt8} (hm : 0 < m) (hsize : recordSizeFor (m * rs) = (rs, log2)) :
    chunk (contents x m) = ((List.range m).map (record x), log2) := by
  have hlen := length_contents hx m
  have hpos : 0 < m * rs := Nat.mul_pos hm (by have := hx 0; omega)
  unfold chunk
  rw [if_neg (fun hnil => by rw [List.isEmpty_iff.mp hnil, List.length_nil] at hlen; omega), hlen,
    hsize, splitRecords_contents hx]

/-- The hash of a record tells its length and its first bytes. -/
theorem getD_of_hash (g : Ground env) (hrs : rs < 2 ^ 64) {b : Bytes} (hb : b.length < 2 ^ 64)
    {i k : Nat} (hk : k < 24) (h : env.blake3 (record x i) = env.blake3 b) :
    (record x i).getD k 0 = b.getD k 0 := by
  have hstart := (g.apart (by rw [length_record hx]; exact hrs) hb h).2
  have hget := congrArg (fun l => l.getD k 0) hstart
  rwa [getD_start hk, getD_start hk] at hget

theorem record_inj (g : Ground env) (hrs : rs < 2 ^ 64) {i j : Nat} (hi : i < 2 ^ 64)
    (hj : j < 2 ^ 64) (h : env.blake3 (record x i) = env.blake3 (record x j)) : i = j := by
  have hbytes : leBytes 8 i = leBytes 8 j := by
    refine ext_getD (by rw [length_leBytes, length_leBytes]) fun k hk => ?_
    rw [length_leBytes] at hk
    have hget := getD_of_hash hx g hrs (by rw [length_record hx]; exact hrs)
      (show k < 24 by omega) h
    rwa [record, record, getD_append_left (by rw [length_leBytes]; exact hk),
      getD_append_left (by rw [length_leBytes]; exact hk)] at hget
  exact leBytes_inj hi hj hbytes

theorem nodup_record (g : Ground env) (hrs : rs < 2 ^ 64) (hm : m ≤ 2 ^ 64) :
    ((List.range m).map fun i => env.blake3 (record x i)).Nodup := by
  refine List.Nodup.map_on (fun i hi j hj h => ?_) List.nodup_range
  have hi := List.mem_range.mp hi
  have hj := List.mem_range.mp hj
  exact record_inj hx g hrs (by omega) (by omega) h

theorem not_isPage (g : Ground env) (hrs : rs < 2 ^ 64) {i : Nat} (hi : i < 2 ^ 32) {b : Bytes}
    (hb : IsPage b) : env.blake3 (record x i) ≠ env.blake3 b := by
  intro h
  obtain ⟨hlen, hone⟩ := hb
  have hget := getD_of_hash hx g hrs (by omega) (show 4 < 24 by decide) h
  have hzero : (leBytes 8 i).getD 4 0 = UInt8.ofNat (i / 256 / 256 / 256 / 256) := rfl
  rw [hone, record, getD_append_left (by rw [length_leBytes]; decide), hzero,
    show i / 256 / 256 / 256 / 256 = 0 by omega] at hget
  exact absurd hget (by decide)

end Length

section Long

variable (hx : ∀ i, (x i).length + 8 = 32768)

theorem recordSizeFor_long (h64 : 64 ≤ m) : recordSizeFor (m * 32768) = (32768, 15) := by
  unfold recordSizeFor
  rw [if_neg (by omega), if_neg (by omega), if_neg (by omega)]

include hx

theorem recordsOf_contents (h64 : 64 ≤ m) : recordsOf (contents x m).length = m := by
  unfold recordsOf divCeil
  rw [length_contents hx, recordSizeFor_long h64]
  dsimp only
  omega

theorem worst_contents (h64 : 64 ≤ m) :
    worst (contents x m).length = m * 8 + clusters (4 + m * refSize) := by
  unfold worst clustersPerRec
  rw [recordsOf_contents hx h64, length_contents hx, recordSizeFor_long h64, if_neg (by omega)]
  rfl

end Long

end Contents

/-- Records of which the codec saves no cluster. -/
structure Bulky (env : Env) (x : Nat → Bytes) : Prop where
  length : ∀ i, (x i).length + 8 = 32768
  need : ∀ i, ∃ c, env.encodeAll (record x i) = some c ∧ need (record x i) c = 8

theorem bulky_zeros : Bulky Env.plain zeros := by
  refine ⟨length_zeros, fun i => ⟨record zeros i, rfl, ?_⟩⟩
  unfold Fs.need payloadOf
  rw [if_pos le_rfl, length_record length_zeros]
  rfl

/-- There are such records for every codec: it cannot shorten all of them. -/
theorem exists_bulky (z : Codec) : ∃ x, Bulky (Env.coded z) x := by
  have : Nontrivial UInt8 := ⟨0, 1, by decide⟩
  have hlong : ∀ i, ∃ y : Bytes, y.length = 32760 ∧ 28673 ≤ (z.encode (leBytes 8 i ++ y)).length :=
    fun i => Counting.exists_long (by decide) fun y y' _ _ h =>
      List.append_cancel_left (z.encode_inj h)
  choose x hx hle using hlong
  have hx : ∀ i, (x i).length + 8 = 32768 := fun i => by rw [hx i]
  refine ⟨x, hx, fun i => ⟨z.encode (record x i), rfl, ?_⟩⟩
  have hrec := length_record hx i
  have hle : 28673 ≤ (z.encode (record x i)).length := hle i
  have hpay : 28673 ≤ (payloadOf (record x i) (z.encode (record x i))).1.length ∧
      (payloadOf (record x i) (z.encode (record x i))).1.length ≤ 32768 := by
    refine ⟨?_, hrec ▸ length_payloadOf_le _ _⟩
    unfold payloadOf
    split
    · show 28673 ≤ (record x i).length
      omega
    · exact hle
  unfold Fs.need clusters
  rw [show blk = 4096 from rfl]
  omega

section Filling

variable {env : Env} {w n u : Nat} {s : FS} {x : Nat → Bytes}

theorem OneFile.lookup_record (g : Ground env) {rs : Nat} (hx : ∀ i, (x i).length + 8 = rs)
    (hrs : rs < 2 ^ 64) (h : OneFile env w n u s) {i : Nat} (hi : i < 2 ^ 32) :
    s.ddt.lookup (env.blake3 (record x i)) = none := by
  by_contra hne
  obtain ⟨b, hb, heq⟩ := h.pages _ hne
  exact not_isPage hx g hrs hi hb heq

/-- Records are stored until the clusters are used up. -/
theorem OneFile.mapM (g : Ground env) (hx : Bulky env x) (h : OneFile env w n u s) {m : Nat}
    (hm : m ≤ 2 ^ 32) {β : Type} {act : Nat → Act env β}
    (hact : ∀ i < m, Stores (act i) (record x i)) :
    Sat ((List.range m).mapM act).1 s (fun _ s' => Filling n s' (3 + 2 * w + m * 8))
      (fun f _ => f = .err (.store (.alloc .noSpace))) := by
  have hfill := Filling.mapM g.lawful (record x) (R := fun _ => True) (fun _ _ _ _ _ => trivial)
    (List.range m) (fun i hi => hact i (List.mem_range.mp hi)) h.filling trivial
    (fun i _ => hx.need i) (nodup_record hx.length g (by decide) (by omega)) fun i hi =>
      h.lookup_record g hx.length (by decide) (by have := List.mem_range.mp hi; omega)
  rw [List.length_range] at hfill
  exact hfill.mono (fun _ _ hq => hq.2.2.1) fun _ _ he => he.1

theorem overwrite_nil (data : Bytes) : overwrite [] 0 data = data := by
  simp [overwrite, patch]

theorem mergeRecord_nil {data : Bytes} {start rs : Nat} (h : start ≤ data.length) :
    mergeRecord [] start (min (start + rs) data.length) 0 data = slice data start rs := by
  have hstop : min (start + rs) data.length =
      min (start + rs) (max ([] : Bytes).length (0 + data.length)) := by simp
  have hmerge := mergeRecord_eq hstop (by omega)
  rw [overwrite_nil] at hmerge
  simpa [slice] using hmerge

/-- A record written to an empty file is that part of the data. -/
theorem writeRecord_stores (hx : ∀ i, (x i).length + 8 = 32768) {m i : Nat} (hi : i < m)
    (hm : m * 32768 < 2 ^ 64) :
    Stores (writeRecord [] 0 (m * 32768) 32768 0 (contents x m) i : Act env (Ref × List Ref))
      (record x i) := by
  refine ⟨fun s Q E h => ?_⟩
  have hle : (i + 1) * 32768 ≤ m * 32768 := Nat.mul_le_mul_right _ hi
  have hrec : mergeRecord [] (i * 32768) (min (i * 32768 + 32768) (m * 32768)) 0 (contents x m) =
      record x i := by
    have hstart : i * 32768 ≤ (contents x m).length := by
      rw [length_contents hx]
      exact Nat.mul_le_mul_right _ hi.le
    rw [← length_contents hx m, mergeRecord_nil hstart, slice_contents hx hi]
  have hshape : (writeRecord [] 0 (m * 32768) 32768 0 (contents x m) i : Act env
    (Ref × List Ref)) = (do let r ← bsWrite (record x i); return (r, [])) := by
    unfold writeRecord
    rw [if_neg (by omega), ← hrec]
    rfl
  rw [hshape]
  exact sat_bind h (fun _ _ hq => sat_pure hq) (fun _ _ he => he)

theorem regular_of_kind {id : Nat} (hid : id < s.inodes.cap)
    (hk : (s.inodes.slots id).kind = Inode.typeRegular) :
    s.regular id = .ok (s.inodes.slots id) := by
  unfold FS.regular FS.getInode
  rw [Inode.Table.get_of_lt hid, mapError_ok, ok_bind, if_neg (not_not.mpr hk)]
  rfl

theorem OneFile.regular (h : OneFile env w n u s) : s.regular 1 = .ok (s.inodes.slots 1) :=
  regular_of_kind h.cap h.kind

theorem OneFile.vacant (h : OneFile env w n u s) {m k : Nat} (hm : u + m ≤ n)
    (hk : 1 + k < 2 ^ 32) : Vacant s m k := by
  have htotal : s.bm.total = n := h.filling.working.total.trans h.filling.blocks
  refine ⟨h.filling.working, ⟨u, by omega, fun i hlo hhi => ?_⟩, fun key e he => ?_, hk⟩
  · by_contra hset
    have := h.below i (by omega) (by simpa using hset)
    omega
  · have := h.counts key e he
    omega

/-- More records than there are clusters for are refused. -/
theorem OneFile.writeAt_refused (g : Ground env) (hx : Bulky env x) (h : OneFile env w n u s)
    {m : Nat} (h64 : 64 ≤ m) (hm : m ≤ 2 ^ 32) (hfull : n < 3 + 2 * w + m * 8) :
    Sat (writeAt 1 0 (contents x m) : Act env Unit).1 s (fun _ _ => False)
      (fun f _ => f = .err (.store (.alloc .noSpace))) := by
  have hlen := length_contents hx.length m
  have hmapM := h.mapM g hx hm fun i hi => writeRecord_stores hx.length (m := m) hi (by omega)
  have hsize : max (s.inodes.slots 1).size.toNat (0 + (contents x m).length) = m * 32768 := by
    rw [h.empty, hlen]
    simp
  have hrecord := recordSizeFor_long h64
  have hcount : divCeil (m * 32768) 32768 = m := by
    unfold divCeil
    omega
  refine sat_get_bind (sat_bind (sat_ofExcept (Q := fun in_ s' => in_ = s.inodes.slots 1 ∧ s = s')
    (fun in_ hin => ?_) fun f hf => ?_) ?_ fun _ _ he => he)
  · rw [h.regular] at hin
    cases hin
    exact ⟨rfl, rfl⟩
  · rw [h.regular] at hf
    cases hf
  rintro _ _ ⟨rfl, rfl⟩
  refine sat_bind (Q := fun _ _ => False) ?_ (fun _ _ hf => hf.elim) fun _ _ he => he
  refine Within.sat_ite (fun hnil => ?_) fun _ => ?_
  · rw [List.isEmpty_iff.mp hnil, List.length_nil] at hlen
    omega
  refine sat_get_bind (sat_bind (sat_ofExcept (Q := fun refs s' => refs = [] ∧ s = s')
    (fun refs hrefs => ?_) fun f hf => ?_) ?_ fun _ _ he => he)
  · rw [FS.loadRefs, if_pos h.empty] at hrefs
    cases hrefs
    exact ⟨rfl, rfl⟩
  · rw [FS.loadRefs, if_pos h.empty] at hf
    cases hf
  rintro _ _ ⟨rfl, rfl⟩
  refine Within.sat_ite (fun hbig => ?_) fun _ => ?_
  · rw [hlen] at hbig
    omega
  refine sat_bind (sat_ofExcept (Q := fun out s' => out = (32768, 15) ∧ s = s')
    (fun out hout => ?_) fun f hf => ?_) ?_ fun _ _ he => he
  · rw [writeSize, if_pos h.empty, hsize, hrecord] at hout
    cases hout
    exact ⟨rfl, rfl⟩
  · rw [writeSize, if_pos h.empty] at hf
    cases hf
  rintro _ _ ⟨rfl, rfl⟩
  refine sat_bind (Q := fun _ _ => False) ?_ (fun _ _ hf => hf.elim) fun _ _ he => he
  show Sat (List.mapM (writeRecord [] (s.inodes.slots 1).size.toNat
    (max (s.inodes.slots 1).size.toNat (0 + (contents x m).length)) 32768 0 (contents x m))
    (List.range (divCeil (max (s.inodes.slots 1).size.toNat (0 + (contents x m).length)) 32768))).1
      s _ _
  rw [hsize, hcount, h.empty]
  refine hmapM.mono (fun out s' hfill => ?_) fun _ _ he => he
  have hle := hfill.le
  omega

/-- Records for which there is room are stored, and then their block map. -/
theorem OneFile.writeFile (g : Ground env) (hx : ∀ i, (x i).length + 8 = 32768)
    (h : OneFile env w n u s) {m : Nat} (h64 : 64 ≤ m) (hm : m < 2 ^ 32 - 2)
    (hroom : u + (m * 8 + clusters (4 + m * refSize)) ≤ n) :
    Sat (Fs.writeFile 1 (contents x m) : Act env Unit).1 s
      (fun _ s' => s'.ub = s.ub ∧ s'.openCount = s.openCount ∧ ∃ refs p,
        MapWritten env 1 (contents x m) ((List.range m).map (record x)) Inode.typeRegular s s'
          refs p)
      (fun _ _ => False) := by
  have hlen := length_contents hx m
  have hvacant : Vacant s (worst (contents x m).length) (recordsOf (contents x m).length + 1) := by
    rw [worst_contents hx h64, recordsOf_contents hx h64]
    exact h.vacant hroom (by omega)
  have hgoes := hvacant.writeFile g.lawful g.codec h.regular h.cap h.empty (by omega) (by omega)
  rw [h.kind, recordsOf_contents hx h64, hlen, recordSizeFor_long h64,
    splitRecords_contents hx] at hgoes
  exact hgoes.mono (fun _ s' hq => ⟨hq.1, hq.2.1, hq.2.2 (by omega)⟩) fun _ _ he => he

theorem need_of_page {b c : Bytes} (h : b.length ≤ 4096) : need b c = 1 := by
  have hle := (length_payloadOf_le b c).trans h
  unfold Fs.need clusters
  rw [show blk = 4096 from rfl]
  omega

/-- Records of one cluster each and their block map are stored as long as there are
clusters. -/
theorem OneFile.writeFile_short (g : Ground env) (hx : ∀ i, (x i).length + 8 = 4096)
    (h : OneFile env w n u s) {m : Nat} (h2 : 2 ≤ m) (hm : m < 8) (hroom : 4 + 2 * w + m ≤ n) :
    Sat (Fs.writeFile 1 (contents x m) : Act env Unit).1 s
      (fun _ s' => Filling n s' (4 + 2 * w + m) ∧ s'.ub = s.ub ∧ s'.freeInodes = s.freeInodes ∧
        s'.regular 1 = .ok (s'.inodes.slots 1) ∧ ∃ refs : List Ref, refs.length = m ∧
        Adds env s s' ((List.range m).map (record x) ++ [encodeRefs refs]))
      (fun _ _ => False) := by
  have hlen := length_contents hx m
  have hsize : recordSizeFor (m * 4096) = (4096, 12) := if_pos (by omega)
  have hchunk := chunk_contents hx (show 0 < m by omega) hsize
  have hneed : ∀ i ∈ List.range m, ∃ c, env.encodeAll (record x i) = some c ∧
      need (record x i) c = 1 := fun i _ =>
    (g.codec (record x i)).imp fun c hc => ⟨hc, need_of_page (length_record hx i).le⟩
  have hrecords := Filling.mapM g.lawful (record x)
    (w := fun i => (bsWrite (record x i) : Act env _)) (R := fun _ => True)
    (fun _ _ _ _ _ => trivial) (List.range m) (fun i _ => stores_bsWrite (record x i)) h.filling
    trivial hneed (nodup_record hx g (by decide) (by omega)) fun i hi =>
      h.lookup_record g hx (by decide) (by have := List.mem_range.mp hi; omega)
  rw [List.length_range] at hrecords
  refine sat_get_bind (sat_bind (sat_ofExcept (Q := fun in_ s' => in_ = s.inodes.slots 1 ∧ s = s')
    (fun in_ hin => ?_) fun f hf => ?_) ?_ fun _ _ he => he)
  · cases h.regular.symm.trans hin
    exact ⟨rfl, rfl⟩
  · cases h.regular.symm.trans hf
  rintro _ _ ⟨rfl, rfl⟩
  refine Within.sat_ite (fun hbig => ?_) fun _ => ?_
  · rw [hlen] at hbig
    omega
  rw [hchunk, List.mapM_map]
  refine sat_bind hrecords ?_ fun f _ he => absurd (he.2 rfl) (by omega)
  rintro refs s₁ ⟨hrefs, hrest, hfill, -, hadds⟩
  have hbytes : (encodeRefs refs).length = 4 + m * 53 := by
    rw [length_encodeRefs, hrefs]
    rfl
  -- the map is shorter than a page, and so are the blocks before it
  have hlook : s₁.ddt.lookup (env.blake3 (encodeRefs refs)) = none := by
    by_contra hne
    rcases (hadds.known _).mp hne with hold | ⟨b, hb, heq⟩
    · obtain ⟨b, hb, heq⟩ := h.pages _ hold
      have := (g.apart (by omega) (by have := hb.1; omega) heq).1
      have := hb.1
      omega
    · obtain ⟨i, -, rfl⟩ := List.mem_map.mp hb
      have hrec := length_record hx i
      have := (g.apart (by omega) (by omega) heq).1
      omega
  obtain ⟨c, hc⟩ := g.codec (encodeRefs refs)
  have hmap := hfill.bsWrite g.lawful hc hlook
  rw [need_of_page (by omega)] at hmap
  have hstore : Sat (storeRefs (s.inodes.slots 1) refs (UInt64.ofNat (contents x m).length) 12 :
      Act env Inode).1 s₁ (fun new s' => new.kind = Inode.typeRegular ∧ s' = s₁.setPool s'.pool ∧
        Filling n s' (4 + 2 * w + m) ∧ Adds env s₁ s' [encodeRefs refs]) (fun _ _ => False) := by
    rw [storeRefs_several (by omega)]
    refine sat_bind hmap (fun _ s' hq => sat_pure ⟨h.kind, hq.1, ?_, hq.2.2.2⟩) fun _ _ he => ?_
    · rw [show 4 + 2 * w + m = 3 + 2 * w + m * 1 + 1 by omega]
      exact hq.2.1
    · obtain ⟨start, hrun⟩ := hfill.freeRun_one (by omega)
      exact he.2.1 start hrun
  refine sat_bind hstore ?_ fun _ _ he => he
  rintro new s₂ ⟨hkind, hrest₂, hfill₂, hadds₂⟩
  have hcap : 1 < s₂.inodes.cap := by
    rw [hrest₂, hrest]
    exact h.cap
  refine sat_bind (Q := fun _ s' => s₂ = s') ?_ ?_ fun _ _ he => he
  · unfold releaseData
    rw [if_pos h.empty]
    exact sat_pure rfl
  rintro - _ rfl
  refine sat_bind (Q := fun new' s' => new'.kind = new.kind ∧ s'.inodes = s₂.inodes ∧
    s'.dev = s₂.dev ∧ s'.bm = s₂.bm ∧ s'.ddt = s₂.ddt ∧ s'.ub = s₂.ub ∧
    s'.freeInodes = s₂.freeInodes) ⟨rfl, rfl, rfl, rfl, rfl, rfl, rfl⟩ ?_ fun _ _ he => he
  rintro new' s₃ ⟨hkind₃, hin, hdev, hbm, hddt, hub, hfree⟩
  have hlt : 1 < s₃.inodes.cap := by
    rw [hin]
    exact hcap
  unfold Sat
  rw [putInode_of_lt hlt, setInode_of_lt hlt]
  have hsame : s₂.ub = s.ub ∧ s₂.freeInodes = s.freeInodes := by
    rw [hrest₂, hrest]
    exact ⟨rfl, rfl⟩
  refine ⟨hfill₂.congr hdev hbm hub, hub.trans hsame.1, hfree.trans hsame.2,
    regular_of_kind hlt ?_, refs, hrefs, ?_⟩
  · show (Function.update s₃.inodes.slots 1 new' 1).kind = _
    rw [Function.update_self, hkind₃, hkind]
  · have hall := hadds.trans hadds₂
    exact ⟨fun b hb => hall.hashed b (hdev ▸ hb), fun k => hddt ▸ hall.known k⟩

end Filling

end Runs
end BloomFS

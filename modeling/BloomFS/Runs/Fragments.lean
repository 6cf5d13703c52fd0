/-
A device whose free clusters do not lie side by side.

A file is written three times, each time with a single block, and then there is a commit.
First fit puts the three blocks into the first three free clusters, and the commit frees
the first two: they are cut off from the rest of the free clusters by the third.
-/
import BloomFS.Runs.OneFile

namespace BloomFS
namespace Runs

open Bytes Exec Block Dir Fs Store Spec Refine
open Alloc.Bitmap (FreeRun InRanges)

variable {env : Env} {s s' : FS} {b : Bytes} {p : Nat}

/-! ## One block in place of another -/

theorem bsWrite_room (hl : env.Lawful) (hw : Working s) {c : Bytes}
    (henc : env.encodeAll b = some c) (hlook : s.ddt.lookup (env.blake3 b) = none)
    (hrun : FreeRun s.bm.bits s.bm.total (need b c) p) :
    Sat (Fs.bsWrite b : Act env Ref).1 s
      (fun r s' => s' = s.setPool s'.pool ∧ Wrote env s.bs b s.pool r s'.pool)
      (fun _ _ => False) :=
  sat_handle (E := fun _ _ => False) ((storeWrite_new hl hw henc hlook).mono
    (fun _ _ hq => hq.1) fun _ _ he => he.2.2.2.2.2 p hrun) (fun _ _ he => he.elim)
    (fun _ he => he) fun _ he => he

/-- Inode 1 holds the block `b`, which lies at cluster `p` and is referenced once. -/
structure Holds (env : Env) (s : FS) (b : Bytes) (p : Nat) : Prop where
  cap : 1 < s.inodes.cap
  kind : (s.inodes.slots 1).kind = Inode.typeRegular
  size : (s.inodes.slots 1).size ≠ 0
  inline : isInline (s.inodes.slots 1) = true
  ref : (mapRef (s.inodes.slots 1)).hash = env.blake3 b
  entry : ∃ e, s.ddt.lookup (env.blake3 b) = some e ∧ e.refs.toNat = 1 ∧ e.start.toNat = p ∧
    e.count.toNat = 1

/-- What giving up the contents of an inode changes: the ranges `D` are to be freed, and
entries other than that of the block `b` may go. -/
structure GivesUp (env : Env) (b : Bytes) (D : List Alloc.FreeRange) (s s' : FS) : Prop where
  inodes : s'.inodes = s.inodes
  bits : s'.bm.bits = s.bm.bits
  total : s'.bm.total = s.bm.total
  used : s'.bm.used = s.bm.used
  deferred : s'.bm.deferred = s.bm.deferred ++ D
  kept : s'.ddt.lookup (env.blake3 b) = s.ddt.lookup (env.blake3 b)
  known : ∀ k, s'.ddt.lookup k ≠ none → s.ddt.lookup k ≠ none

theorem givesUp_empty {in_ : Inode} (h : in_.size = 0) :
    Sat (releaseData in_ : Act env Unit).1 s (fun _ s' => GivesUp env b [] s s')
      (fun _ _ => True) := by
  unfold releaseData
  rw [if_pos h]
  exact sat_pure ⟨rfl, rfl, rfl, rfl, (List.append_nil _).symm, rfl, fun _ h => h⟩

/-- The last reference to a block leaves its cluster to the next commit. -/
theorem givesUp_single {in_ : Inode} {old : Bytes} {e : Dedup.Entry} (hsize : in_.size ≠ 0)
    (hin : isInline in_ = true) (href : (mapRef in_).hash = env.blake3 old)
    (hlook : s.ddt.lookup (env.blake3 old) = some e) (hone : e.refs.toNat = 1)
    (hne : env.blake3 b ≠ env.blake3 old) :
    Sat (releaseData in_ : Act env Unit).1 s
      (fun _ s' => GivesUp env b [⟨e.start.toNat, e.count.toNat⟩] s s') (fun _ _ => True) := by
  unfold releaseData
  rw [if_neg hsize, if_pos hin]
  refine (storeRelease_sat (mapRef in_) s).mono (fun _ s' hq => ?_) fun _ _ _ => trivial
  obtain ⟨hrest, hrel⟩ := hq
  rw [← href] at hlook hne
  generalize hp : s'.pool = p' at hrel
  have hbm : s'.bm = p'.bm := congrArg Pool.bm hp
  have hddt : s'.ddt = p'.ddt := congrArg Pool.ddt hp
  have hinodes : s'.inodes = s.inodes := by
    rw [hrest]
    rfl
  cases hrel with
  | absent hlook' => cases hlook.symm.trans hlook'
  | shared hlook' hrefs hne' =>
    cases hlook.symm.trans hlook'
    omega
  | last hlook' =>
    cases hlook.symm.trans hlook'
    have herase : ∀ k, k ≠ (mapRef in_).hash → s'.ddt.lookup k = s.ddt.lookup k := fun k hk => by
      rw [hddt]
      exact AList.lookup_erase_ne hk
    refine ⟨hinodes, by rw [hbm]; rfl, by rw [hbm]; rfl, by rw [hbm]; rfl, by rw [hbm]; rfl,
      herase _ hne, fun k hk => ?_⟩
    by_cases hkey : k = (mapRef in_).hash
    · rw [hkey, hlook]
      exact Option.some_ne_none _
    · rwa [herase k hkey] at hk

/-- The block went to the first free cluster, and the ranges `D` wait for the commit. -/
structure Placed (env : Env) (b : Bytes) (D : List Alloc.FreeRange) (s s' : FS) (p : Nat) :
    Prop where
  holds : Holds env s' b p
  clear : s.bm.bits p = false
  inside : p < s.bm.total
  first : ∀ i < p, s.bm.bits i = true
  bits : ∀ i, s'.bm.bits i = (s.bm.bits i || decide (i = p))
  total : s'.bm.total = s.bm.total
  used : s'.bm.used = s.bm.used + 1
  deferred : s'.bm.deferred = s.bm.deferred ++ D
  known : ∀ k, s'.ddt.lookup k ≠ none → s.ddt.lookup k ≠ none ∨ k = env.blake3 b

section Placed

variable {s'' : FS} {b' : Bytes} {D D' : List Alloc.FreeRange} {q : Nat}

theorem Placed.clear_before (h : Placed env b D s s' p) (hclear : s'.bm.bits q = false) :
    s.bm.bits q = false := by
  rw [h.bits] at hclear
  exact (Bool.or_eq_false_iff.mp hclear).1

/-- First fit went past what the next block finds free. -/
theorem Placed.lt (h : Placed env b D s s' p) (h' : Placed env b' D' s' s'' q) : p < q := by
  by_contra hle
  rcases Nat.lt_or_eq_of_le (Nat.le_of_not_lt hle) with hlt | rfl
  · cases (h.first q hlt).symm.trans (h.clear_before h'.clear)
  · have hclear := h'.clear
    rw [h.bits] at hclear
    simp at hclear

theorem Placed.unknown (h : Placed env b D s s' p) {k : Dedup.Key} (hk : s.ddt.lookup k = none)
    (hne : k ≠ env.blake3 b) : s'.ddt.lookup k = none := by
  by_contra hknown
  exact (h.known k hknown).elim (fun hold => hold hk) hne

end Placed

theorem chunk_single (hb : b ≠ []) (hlen : b.length ≤ 4096) : chunk b = ([b], 12) := by
  unfold chunk recordSizeFor
  rw [if_neg (by rw [List.isEmpty_iff]; exact hb), if_pos (by omega), splitRecords_small hlen hb]

theorem mapM_single (g : Ground env) (hw : Working s) (hroom : s.bm.used < s.bm.total)
    (hlen : b.length ≤ 4096) (hlook : s.ddt.lookup (env.blake3 b) = none) :
    Sat ([b].mapM bsWrite : Act env (List Ref)).1 s (fun out s₁ => ∃ r, out = [r] ∧
      s₁ = s.setPool s₁.pool ∧ Wrote env s.bs b s.pool r s₁.pool) (fun _ _ => True) := by
  obtain ⟨c, hc⟩ := g.codec b
  obtain ⟨q, hq⟩ := exists_freeRun_one hw.counted hroom
  rw [← need_of_page (c := c) hlen] at hq
  rw [List.mapM_cons]
  refine sat_bind (bsWrite_room g.lawful hw hc hlook hq) (fun r s₁ hr => ?_)
    fun _ _ _ => trivial
  exact sat_bind (Q := fun out s₂ => out = [] ∧ s₁ = s₂) (sat_pure ⟨rfl, rfl⟩)
    (fun out s₂ hout => sat_pure ⟨r, by rw [hout.1], hout.2 ▸ hr⟩) fun _ _ he => he

theorem size_ne_zero (hb : b ≠ []) (hlen : b.length ≤ 4096) : UInt64.ofNat b.length ≠ 0 := by
  have hpos := List.length_pos_of_ne_nil hb
  intro h0
  have h := congrArg UInt64.toNat h0
  rw [UInt64.toNat_ofNat_of_lt' (show b.length < 2 ^ 64 by omega)] at h
  exact absurd h (by simp; omega)

theorem writeFile_single (g : Ground env) (hw : Working s) (hroom : s.bm.used < s.bm.total)
    (hcap : 1 < s.inodes.cap) (hkind : (s.inodes.slots 1).kind = Inode.typeRegular) (hb : b ≠ [])
    (hlen : b.length ≤ 4096) (hlook : s.ddt.lookup (env.blake3 b) = none)
    {D : List Alloc.FreeRange}
    (hgives : ∀ s₁ : FS, (∀ k, k ≠ env.blake3 b → s₁.ddt.lookup k = s.ddt.lookup k) →
      Sat (releaseData (s.inodes.slots 1) : Act env Unit).1 s₁ (fun _ s₂ => GivesUp env b D s₁ s₂)
        (fun _ _ => True)) :
    Sat (Fs.writeFile 1 b : Act env Unit).1 s (fun _ s' => ∃ p, Placed env b D s s' p)
      (fun _ _ => True) := by
  refine sat_get_bind (sat_bind (sat_ofExcept (Q := fun in_ s' => in_ = s.inodes.slots 1 ∧ s = s')
    (fun in_ hin => ?_) fun f hf => ?_) ?_ fun _ _ he => he)
  · cases (regular_of_kind hcap hkind).symm.trans hin
    exact ⟨rfl, rfl⟩
  · trivial
  rintro _ _ ⟨rfl, rfl⟩
  refine Within.sat_ite (fun hbig => absurd hbig (by omega)) fun _ => ?_
  rw [chunk_single hb hlen]
  refine sat_bind (mapM_single g hw hroom hlen hlook) ?_ fun _ _ _ => trivial
  rintro _ s₁ ⟨r, rfl, hrest, hwrote⟩
  have hhash := hash_of_wrote hwrote
  have hinodes : s₁.inodes = s.inodes := by
    rw [hrest]
    rfl
  cases hwrote with
  | hit hlook' => cases hlook.symm.trans hlook'
  | @miss c start bm' _ _ henc halloc hin hbm hddt hdev =>
    have hneed : need b c = 1 := need_of_page hlen
    have hbm : s₁.bm = bm' := hbm
    have hddt : s₁.ddt = s.ddt.add _ _ := hddt
    have halloc : s.bm.alloc 1 = .ok (start, bm') := hneed ▸ halloc
    obtain ⟨-, hfree, hfirst, htotal, hdef, hused, hbits⟩ := Alloc.Bitmap.alloc_ok halloc
    refine sat_bind (Q := fun new s₂ => s₁ = s₂ ∧ new.kind = Inode.typeRegular ∧ new.size ≠ 0 ∧
      isInline new = true ∧
      mapRef new = refFrom (env.blake3 b) (freshEntry b (payloadOf b c) start))
      (sat_pure ⟨rfl, hkind, size_ne_zero hb hlen, bne_iff_ne.mpr (inline_set _),
        mapRef_of_blockMap rfl⟩) ?_ fun _ _ he => he
    rintro new _ ⟨rfl, hnew, hsize, hinline, href⟩
    have hother : ∀ k, k ≠ env.blake3 b → s₁.ddt.lookup k = s.ddt.lookup k := fun k hk => by
      rw [hddt]
      exact Dedup.Table.lookup_add_of_ne hk
    refine sat_bind (hgives s₁ hother) ?_ fun _ _ he => he
    rintro - s₂ hup
    refine sat_bind (Q := fun new' s₃ => new'.kind = new.kind ∧ new'.size = new.size ∧
      isInline new' = isInline new ∧ mapRef new' = mapRef new ∧ s₃.inodes = s₂.inodes ∧
      s₃.bm = s₂.bm ∧ s₃.ddt = s₂.ddt) ⟨rfl, rfl, rfl, rfl, rfl, rfl, rfl⟩ ?_ fun _ _ he => he
    rintro new' s₃ ⟨hkind₃, hsize₃, hinline₃, href₃, hinodes₃, hbm₃, hddt₃⟩
    have hlt : 1 < s₃.inodes.cap := by
      rw [hinodes₃, hup.inodes, hinodes]
      exact hcap
    unfold Sat
    rw [putInode_of_lt hlt, setInode_of_lt hlt]
    have hslot : Function.update s₃.inodes.slots 1 new' 1 = new' := Function.update_self ..
    have hentry : s₃.ddt.lookup (env.blake3 b) =
        some { freshEntry b (payloadOf b c) start with refs := 1 } := by
      rw [hddt₃, hup.kept, hddt]
      exact Dedup.Table.lookup_add ..
    have hinside := hfree.1
    have hblocks := s.dev.blocks_lt
    rw [← hw.total] at hblocks
    refine ⟨start, ⟨hlt, ?_, ?_, ?_, ?_, _, hentry, rfl, ?_, ?_⟩, hfree.2 start le_rfl (by omega),
      by omega, fun i hi => ?_, fun i => ?_, ?_, ?_, ?_, fun k hk => ?_⟩
    · show (Function.update s₃.inodes.slots 1 new' 1).kind = _
      rw [hslot, hkind₃, hnew]
    · show (Function.update s₃.inodes.slots 1 new' 1).size ≠ _
      rw [hslot, hsize₃]
      exact hsize
    · show isInline (Function.update s₃.inodes.slots 1 new' 1) = _
      rw [hslot, hinline₃, hinline]
    · show (mapRef (Function.update s₃.inodes.slots 1 new' 1)).hash = _
      rw [hslot, href₃, href]
      rfl
    · exact UInt64.toNat_ofNat_of_lt' (show start < 2 ^ 64 by omega)
    · show (UInt32.ofNat (need b c)).toNat = 1
      rw [hneed]
      rfl
    · by_contra hclear
      refine hfirst i hi ⟨by omega, fun j hlo hhi => ?_⟩
      rw [show j = i by omega]
      exact Bool.eq_false_iff.mpr hclear
    · show s₃.bm.bits i = _
      rw [hbm₃, hup.bits, hbm, hbits]
      congr 2
      exact propext ⟨fun h => by omega, fun h => by omega⟩
    · show s₃.bm.total = _
      rw [hbm₃, hup.total, hbm, htotal]
    · show s₃.bm.used = _
      rw [hbm₃, hup.used, hbm, hused]
    · show s₃.bm.deferred = _
      rw [hbm₃, hup.deferred, hbm, hdef]
    · change s₃.ddt.lookup k ≠ none at hk
      rw [hddt₃] at hk
      have hk := hup.known k hk
      by_cases hkey : k = env.blake3 b
      · exact .inr hkey
      · rw [hother k hkey] at hk
        exact .inl hk

theorem Holds.writeFile (g : Ground env) (hw : Working s) (hroom : s.bm.used < s.bm.total)
    {old : Bytes} (h : Holds env s old p) (hb : b ≠ []) (hlen : b.length ≤ 4096)
    (hlook : s.ddt.lookup (env.blake3 b) = none) :
    Sat (Fs.writeFile 1 b : Act env Unit).1 s (fun _ s' => ∃ q, Placed env b [⟨p, 1⟩] s s' q)
      (fun _ _ => True) := by
  obtain ⟨e, he, hone, rfl, hcount⟩ := h.entry
  have hne : env.blake3 b ≠ env.blake3 old := by
    intro heq
    rw [heq, he] at hlook
    cases hlook
  have hwrites := writeFile_single g hw hroom h.cap h.kind hb hlen hlook fun s₁ hsame =>
    givesUp_single h.size h.inline h.ref ((hsame _ hne.symm).trans he) hone hne
  rwa [hcount] at hwrites

/-! ## Two holes -/

/-- Of the clusters up to `r` only `p` and `q` are free. -/
structure Fragmented (env : Env) (n u : Nat) (s : FS) (p q r : Nat) : Prop where
  filling : Filling n s u
  order : p < q ∧ q < r ∧ r < n
  clear : s.bm.bits p = false ∧ s.bm.bits q = false
  set : ∀ i ≤ r, i ≠ p → i ≠ q → s.bm.bits i = true
  known : ∀ k, s.ddt.lookup k ≠ none → ∃ b, b.length ≤ 4096 ∧ k = env.blake3 b

/-- Three blocks in a row, and the commit. -/
theorem fragmented_of_placed {w n u p q r : Nat} {s₀ s₁ s₂ s₃ s₄ : FS} {b₁ b₂ b₃ : Bytes}
    (h : OneFile env w n u s₀) (h₁ : Placed env b₁ [] s₀ s₁ p)
    (h₂ : Placed env b₂ [⟨p, 1⟩] s₁ s₂ q) (h₃ : Placed env b₃ [⟨q, 1⟩] s₂ s₃ r)
    (hlen₁ : b₁.length ≤ 4096) (hlen₂ : b₂.length ≤ 4096) (hlen₃ : b₃.length ≤ 4096)
    (hw₃ : Working s₃) (hc : Committed env s₃ s₄) (hw : Working s₄) :
    Fragmented env n (4 + 2 * w) s₄ p q r := by
  have htotal₀ : s₀.bm.total = n := h.filling.working.total.trans h.filling.blocks
  have htotal₃ : s₃.bm.total = n := by rw [h₃.total, h₂.total, h₁.total, htotal₀]
  obtain ⟨htotal, hdef, -, happly⟩ := Alloc.Bitmap.applyDeferred_spec hw₃.counted
  rw [← hc.bm] at htotal hdef happly
  have hp := h₁.inside
  have hq := h₂.inside
  have hr := h₃.inside
  rw [htotal₀] at hp
  rw [h₁.total, htotal₀] at hq
  rw [h₂.total, h₁.total, htotal₀] at hr
  have hpq := h₁.lt h₂
  have hqr := h₂.lt h₃
  have hclear₂ := h₁.clear_before h₂.clear
  have hranges : ∀ i, InRanges s₃.bm.deferred i ↔ i = p ∨ i = q := fun i => by
    rw [h₃.deferred, h₂.deferred, h₁.deferred, h.filling.settled]
    unfold InRanges
    simp only [List.nil_append, List.append_nil, List.cons_append, List.mem_cons, List.not_mem_nil,
      or_false, exists_eq_or_imp, exists_eq_left]
    omega
  have hbits : ∀ i < n, s₄.bm.bits i = true ↔ s₀.bm.bits i = true ∨ i = r := fun i hi => by
    rw [happly, hranges, h₃.bits, h₂.bits, h₁.bits, htotal₃]
    have hclear₁ := h₁.clear
    by_cases hip : i = p
    · subst hip
      simp [hclear₁, hi]
      omega
    · by_cases hiq : i = q
      · subst hiq
        simp [hclear₂, hi]
        omega
      · simp [hip, hiq]
  have hused : s₄.bm.used = 4 + 2 * w := by
    have hset : Alloc.Bitmap.setBits s₄.bm.bits n =
        Alloc.Bitmap.setBits (Function.update s₀.bm.bits r true) n := by
      refine Alloc.Bitmap.setBits_congr fun i hi => ?_
      rw [Bool.eq_iff_iff, hbits i hi]
      by_cases hir : i = r
      · subst hir
        simp
      · rw [Function.update_of_ne hir]
        simp [hir]
    have hclear₃ := h₁.clear_before (h₂.clear_before h₃.clear)
    have hcount : s₀.bm.used = Alloc.Bitmap.setBits s₀.bm.bits s₀.bm.total :=
      h.filling.working.counted
    rw [htotal₀, h.filling.used] at hcount
    have hcounted : s₄.bm.used = Alloc.Bitmap.setBits s₄.bm.bits s₄.bm.total := hw.counted
    rw [htotal, htotal₃] at hcounted
    rw [hcounted, hset, Alloc.Bitmap.setBits_update_true hr hclear₃, ← hcount]
    omega
  refine ⟨⟨hw, ?_, hdef, hused⟩, ⟨hpq, hqr, hr⟩, ⟨?_, ?_⟩, fun i hi hip hiq => ?_, fun k hk => ?_⟩
  · rw [← hw.total, htotal, htotal₃]
  · rw [Bool.eq_false_iff, ne_eq, hbits p hp, h₁.clear]
    simp
    omega
  · rw [Bool.eq_false_iff, ne_eq, hbits q hq, hclear₂]
    simp
    omega
  · rw [happly, hranges]
    refine ⟨?_, fun _ => by omega⟩
    rw [h₃.bits]
    rcases Nat.lt_or_eq_of_le hi with hlt | rfl
    · rw [h₃.first i hlt]
      rfl
    · simp
  · have hddt : s₄.ddt = s₃.ddt := by
      rw [hc.rest]
    rw [hddt] at hk
    rcases h₃.known k hk with hk | rfl
    · rcases h₂.known k hk with hk | rfl
      · rcases h₁.known k hk with hk | rfl
        · obtain ⟨b, hb, rfl⟩ := h.pages k hk
          exact ⟨b, hb.1.le, rfl⟩
        · exact ⟨b₁, hlen₁, rfl⟩
      · exact ⟨b₂, hlen₂, rfl⟩
    · exact ⟨b₃, hlen₃, rfl⟩

/-- No run of eight begins below the third block, so the holes stay. -/
theorem Fragmented.alloc {n u p q r : Nat} (h : Fragmented env n u s p q r)
    {bm bm' : Alloc.Bitmap} {start : Nat} (hsame : ∀ i ≤ r, bm.bits i = s.bm.bits i)
    (halloc : bm.alloc 8 = .ok (start, bm')) : ∀ i ≤ r, bm'.bits i = s.bm.bits i := by
  obtain ⟨-, hfree, -, -, -, -, hbits⟩ := Alloc.Bitmap.alloc_ok halloc
  obtain ⟨hpq, hqr, -⟩ := h.order
  have hhole : ∀ i ≤ r, start ≤ i → i < start + 8 → i = p ∨ i = q := fun i hi hlo hhi => by
    by_contra hno
    rw [not_or] at hno
    have hset := h.set i hi hno.1 hno.2
    rw [← hsame i hi, hfree.2 i hlo hhi] at hset
    cases hset
  have hpast : r < start := by
    by_contra hle
    have h₀ := hhole start (by omega) le_rfl (by omega)
    have h₁ := hhole (start + 1) (by omega) (by omega) (by omega)
    have h₂ := hhole (start + 2) (by omega) (by omega) (by omega)
    omega
  intro i hi
  rw [hbits, hsame i hi, decide_eq_false (by omega), Bool.or_false]

theorem used_add_two_le {bm : Alloc.Bitmap} (hc : bm.Counted) {p q : Nat} (hpq : p < q)
    (hq : q < bm.total) (hp₀ : bm.bits p = false) (hq₀ : bm.bits q = false) :
    bm.used + 2 ≤ bm.total := by
  have hused : bm.used = Alloc.Bitmap.setBits bm.bits bm.total := hc
  have hset := Alloc.Bitmap.setBits_update_true (show p < bm.total by omega) hp₀
  have hq₁ : Function.update bm.bits p true q = false := by
    rw [Function.update_of_ne (by omega)]
    exact hq₀
  have hset' := Alloc.Bitmap.setBits_update_true hq hq₁
  have hle := Alloc.Bitmap.setBits_le (Function.update (Function.update bm.bits p true) q true)
    bm.total
  omega

/-- Records of eight clusters do not fill the last clusters. -/
theorem Fragmented.mapM (g : Ground env) {x : Nat → Bytes} (hx : Bulky env x) {n u p q r m : Nat}
    (h : Fragmented env n u s p q r) (hm : m ≤ 2 ^ 32) (hfull : n < u + m * 8 + 2) :
    Sat ((List.range m).mapM fun i => (bsWrite (record x i) : Act env Ref)).1 s
      (fun _ _ => False) (fun f _ => f = .err (.store (.alloc .noSpace))) := by
  have hnew : ∀ i ∈ List.range m, s.ddt.lookup (env.blake3 (record x i)) = none := fun i _ => by
    by_contra hne
    obtain ⟨b, hb, heq⟩ := h.known _ hne
    have hlen := (g.apart (by rw [length_record hx.length]; decide) (by omega) heq).1
    rw [length_record hx.length] at hlen
    omega
  have hfill := Filling.mapM g.lawful (record x) (R := fun bm => ∀ i ≤ r, bm.bits i = s.bm.bits i)
    (fun bm start bm' hR halloc => h.alloc hR halloc) (List.range m)
    (fun i _ => stores_bsWrite (record x i)) h.filling (fun _ _ => rfl) (fun i _ => hx.need i)
    (nodup_record hx.length g (by decide) (by omega)) hnew
  rw [List.length_range] at hfill
  refine hfill.mono (fun _ s' hq => ?_) fun _ _ he => he.1
  obtain ⟨-, -, hf, hR, -⟩ := hq
  obtain ⟨hpq, hqr, hrn⟩ := h.order
  have htotal : s'.bm.total = n := hf.working.total.trans hf.blocks
  have hle := used_add_two_le hf.working.counted hpq (by omega)
    ((hR p (by omega)).trans h.clear.1) ((hR q (by omega)).trans h.clear.2)
  rw [hf.used, htotal] at hle
  omega

/-! ## A run that leads there -/

theorem script_append {C : View → Op → Prop} [∀ v op, Decidable (C v op)] {ops : List Op} {op : Op}
    {t t₁ t₂ : State} {handles handles₁ handles₂ : List Handle}
    (h : script env C [op] t handles = some (t₁, handles₁))
    (h' : script env C ops t₁ handles₁ = some (t₂, handles₂)) :
    script env C (op :: ops) t handles = some (t₂, handles₂) := by
  obtain ⟨hC, r, t', hrun, hrest⟩ := script_cons h
  cases hrest
  unfold script
  rw [if_pos hC, hrun]
  exact h'

/-- On a device of 903 blocks the clusters of two blocks are free among those in use, and
inode 2 is an empty file. -/
theorem exists_fragmented (g : Ground env) : ∃ past s p q r,
    Run env Disk.Reliable Smooth past s ∧ Fragmented env 903 390 s.fs p q r ∧
      Cow.Fits s.fs.ub s.fs.bm s.fs.ddt s.fs.inodes ∧ 2 < s.fs.inodes.cap ∧
      s.fs.regular 2 = .ok (s.fs.inodes.slots 2) ∧ (s.fs.inodes.slots 2).size = 0 := by
  have hscript : ∃ x ∈ script Env.plain Fair [.create 0 "a", .create 0 "b", .openFile 1]
      (fresh Env.plain) [], Opening x.1 x.2 ∧
      ∃ x₁ ∈ script Env.plain Fair [.writeFile 1 [1]] x.1 x.2,
      ∃ x₂ ∈ script Env.plain Fair [.writeFile 1 [2]] x₁.1 x₁.2,
      ∃ x₃ ∈ script Env.plain Fair [.writeFile 1 [3]] x₂.1 x₂.2,
        (2 < x₃.1.cap ∧ (x₃.1.node 2).kind = Inode.typeRegular ∧ (x₃.1.node 2).blob = []) ∧
        Sketched x₃.1.paid ∧ x₃.1.paid.length = 5 := by
    decide +kernel
  obtain ⟨⟨t, handles⟩, hx, hopening, ⟨t₁, handles₁⟩, hx₁, ⟨t₂, handles₂⟩, hx₂, ⟨t₃, handles₃⟩,
    hx₃, hfile, hsketch, hfew⟩ := hscript
  dsimp only at hopening hx₁ hx₂ hx₃ hfile hsketch hfew
  rw [Option.mem_def] at hx hx₁ hx₂ hx₃
  have hall : script Env.plain Fair [.writeFile 1 [1], .writeFile 1 [2], .writeFile 1 [3]] t
      handles = some (t₃, handles₃) :=
    script_append hx₁ (script_append hx₂ hx₃)
  have hslot : Cow.slotBlocks 903 defaultInodeCount defaultDdtReserve = 193 := by decide
  obtain ⟨past, s₀, run₀, h₀, rfl, hclear, htrack₀, ho₀⟩ := oneFile_of_opening (P := Smooth) g
    (fun _ _ h => h) (fun _ => trivial) (fun _ _ _ h => h) (by decide)
    (fun _ s t op r _ hop _ _ _ => ⟨hop.inSession, r, rfl⟩) (by decide) hslot
    (by simp [Plays, Answers]) hx hopening hall (by decide) hsketch (by omega) (by decide)
    (by rw [hfew]; decide)
  have run₀ : Run env Disk.Reliable Smooth past s₀ :=
    run₀.mono (by rintro d rfl; exact reliable_zeroed _ _) fun _ _ _ h => h
  have hans : ∀ b, Answers (.writeFile 1 b) := fun _ => trivial
  have hpre₂ := script_grows hx₃
  have hpre₁ := (script_grows hx₂).trans hpre₂
  rw [← g.script] at hx₁ hx₂ hx₃
  obtain ⟨r₁, s₁, does₁, rfl, htrack₁, ho₁⟩ :=
    fair_step hclear (fun _ _ h => h) (hans _) htrack₀ ho₀ hx₁ hpre₁
  obtain ⟨r₂, s₂, does₂, rfl, htrack₂, ho₂⟩ :=
    fair_step hclear (fun _ _ h => h) (hans _) htrack₁ ho₁ hx₂ hpre₂
  obtain ⟨r₃, s₃, does₃, rfl, htrack₃, ho₃⟩ :=
    fair_step hclear (fun _ _ h => h) (hans _) htrack₂ ho₂ hx₃ (List.prefix_refl _)
  obtain ⟨s₄, does₄, -, htrack₄⟩ := (htrack₃.mono (show 0 + 1 ≤ 2 ^ 32 by decide)).committed
  have run₁ := run₀.step does₁ ⟨trivial, _, rfl⟩
  have run₂ := run₁.step does₂ ⟨trivial, _, rfl⟩
  have run₃ := run₂.step does₃ ⟨trivial, _, rfl⟩
  have run₄ := run₃.step does₄ ⟨trivial, _, rfl⟩
  -- the three blocks are new, and there is room for them
  have hpage : ∀ c : UInt8, s₀.fs.ddt.lookup (env.blake3 [c]) = none := fun c => by
    by_contra hne
    obtain ⟨b, hb, heq⟩ := h₀.pages _ hne
    have hlen := (g.apart (by simp) (by have := hb.1; omega) heq).1
    rw [hb.1] at hlen
    cases hlen
  have hdiff : ∀ c c' : UInt8, start [c] ≠ start [c'] → env.blake3 [c] ≠ env.blake3 [c'] :=
    fun c c' hne heq => hne (g.apart (by simp) (by simp) heq).2
  have htotal : s₀.fs.bm.total = 903 := h₀.filling.working.total.trans h₀.filling.blocks
  have hused : s₀.fs.bm.used = 389 := h₀.filling.used
  obtain ⟨p, h₁⟩ := (writeFile_single g (working_of_run run₀) (by omega) h₀.cap h₀.kind
    (by simp) (by decide) (hpage 1) fun s₁ _ => givesUp_empty h₀.empty).ok
    (ran_of_perform does₁ trivial rfl)
  have hlook₁ : ∀ c : UInt8, start [c] ≠ start [1] → s₁.fs.ddt.lookup (env.blake3 [c]) = none :=
    fun c hc => h₁.unknown (hpage c) (hdiff c 1 hc)
  obtain ⟨q, h₂⟩ := (h₁.holds.writeFile g (working_of_run run₁)
    (by rw [h₁.used, h₁.total]; omega) (by simp) (by decide) (hlook₁ 2 (by decide))).ok
    (ran_of_perform does₂ trivial rfl)
  have hlook₂ : s₂.fs.ddt.lookup (env.blake3 [3]) = none :=
    h₂.unknown (hlook₁ 3 (by decide)) (hdiff 3 2 (by decide))
  obtain ⟨r, h₃⟩ := (h₂.holds.writeFile g (working_of_run run₂)
    (by rw [h₂.used, h₂.total, h₁.used, h₁.total]; omega) (by simp) (by decide) hlook₂).ok
    (ran_of_perform does₃ trivial rfl)
  have hc : Committed env s₃.fs s₄.fs := (commit_sat s₃.fs).ok (perform_commit does₄ ⟨_, rfl⟩).1
  have hfrag := fragmented_of_placed h₀ h₁ h₂ h₃ (by decide) (by decide) (by decide)
    (working_of_run run₃) hc (working_of_run run₄)
  obtain ⟨hcap, hkind, hblob⟩ := hfile
  have hcap₄ : 2 < s₄.fs.inodes.cap := htrack₄.rep.cap ▸ hcap
  refine ⟨_, s₄, p, q, r, run₄, hfrag, htrack₄.slotted.fits htrack₄.rep htrack₄.ledger, hcap₄,
    regular_of_kind hcap₄ ((htrack₄.rep.nodes 2 hcap₄).kind.trans hkind), ?_⟩
  obtain ⟨refs, lost, hf, -⟩ := htrack₄.rep.filled
  exact (hf.laid 2 hcap₄).blob_eq_nil_iff.mp hblob

end Runs
end BloomFS

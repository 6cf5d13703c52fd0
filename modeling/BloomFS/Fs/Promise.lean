/-
A write that cannot fail for want of space.

First fit takes the leftmost run that is long enough.  So where there is a run of `m`
free clusters, a block of `n ≤ m` clusters is stored, and a run of `m - n` is left.
-/
import BloomFS.Fs.Fill
import BloomFS.Fs.Writes

namespace BloomFS
namespace Fs

open Bytes Exec Block Store
open Alloc.Bitmap (FreeRun)

variable {env : Env} {s : FS} {b c : Bytes} {m n k : Nat}

theorem freeRun_le {bits : Nat → Bool} {total p : Nat} (h : FreeRun bits total m p) (hle : n ≤ m) :
    FreeRun bits total n p :=
  ⟨by have := h.1; omega, fun i hlo hhi => h.2 i hlo (by omega)⟩

theorem freeRun_alloc {bm bm' : Alloc.Bitmap} {p start : Nat}
    (h : FreeRun bm.bits bm.total (n + m) p)
    (halloc : bm.alloc n = .ok (start, bm')) : ∃ p', FreeRun bm'.bits bm'.total m p' := by
  obtain ⟨-, hfree, hfirst, htotal, -, -, hbits⟩ := Alloc.Bitmap.alloc_ok halloc
  have hle : start ≤ p := by
    by_contra hlt
    exact hfirst p (by omega) (freeRun_le h (by omega))
  have hroom := h.1
  -- the run goes on after the clusters taken, or they lie before it
  refine ⟨max p (start + n), by rw [htotal]; omega, fun i hlo hhi => ?_⟩
  rw [hbits, h.2 i (by omega) (by omega), Bool.false_or, decide_eq_false_iff_not]
  omega

/-- There is a run of `m` free clusters, and any entry takes `k` more references. -/
structure Vacant (s : FS) (m k : Nat) : Prop where
  working : Working s
  run : ∃ p, FreeRun s.bm.bits s.bm.total m p
  counts : ∀ key e, s.ddt.lookup key = some e → e.refs.toNat + k < 2 ^ 32
  few : 1 + k < 2 ^ 32

theorem Vacant.bsWrite (hl : env.Lawful)
    (h : Vacant s (n + m) (k + 1)) (henc : env.encodeAll b = some c) (hneed : need b c ≤ n) :
    Sat (Fs.bsWrite b : Act env Ref).1 s
      (fun r s' => s' = s.setPool s'.pool ∧ Vacant s' m k ∧ Wrote env s.bs b s.pool r s'.pool)
      (fun _ _ => False) := by
  obtain ⟨p, hrun⟩ := h.run
  refine sat_handle (E := fun _ _ => False) ((storeWrite_sat b s).mono (fun r s' hw => ?_)
    fun f s' hf => ?_) (fun _ _ he => he.elim) (fun _ he => he) (fun _ he => he)
  · obtain ⟨hrest, hwrote⟩ := hw
    have hub : s'.ub = s.ub := by rw [hrest]; rfl
    refine ⟨hrest, ?_, hwrote⟩
    cases hwrote with
    | hit hlook hincr hbm hddt hdev =>
      have hbm : s'.bm = s.bm := hbm
      obtain ⟨⟨e₁, he₁, hrefs, -⟩, hother⟩ := Dedup.Table.incr_spec hlook hincr
      refine ⟨h.working.extends hdev hub hbm, ⟨p, ?_⟩, fun key e he => ?_,
        by have := h.few; omega⟩
      · rw [hbm]
        exact freeRun_le hrun (by omega)
      · rw [show s'.ddt = _ from hddt] at he
        by_cases hk : key = env.blake3 b
        · subst hk
          cases he₁.symm.trans he
          have := h.counts _ _ hlook
          omega
        · have := h.counts key e ((hother key hk).symm.trans he)
          omega
    | @miss c' start bm' p' hlook henc' halloc hin hbm hddt hdev =>
      cases henc.symm.trans henc'
      have hbm : s'.bm = bm' := hbm
      have hblocks : s'.dev.blocks = s.dev.blocks := hdev.blocks
      obtain ⟨-, -, -, htotal, -⟩ := Alloc.Bitmap.alloc_ok halloc
      have hrun : FreeRun s.bm.bits s.bm.total (need b c + (n - need b c + m)) p := by
        rw [show need b c + (n - need b c + m) = n + m by omega]
        exact hrun
      obtain ⟨p', hleft⟩ := freeRun_alloc hrun halloc
      refine ⟨⟨hdev.reliable h.working.reliable, ?_, ?_, ?_⟩, ⟨p', ?_⟩, fun key e he => ?_,
        by have := h.few; omega⟩
      · rw [hub, hblocks]
        exact h.working.placed
      · rw [hbm, htotal, hblocks]
        exact h.working.total
      · rw [hbm]
        exact Alloc.Bitmap.alloc_counted h.working.counted halloc
      · rw [hbm]
        exact freeRun_le hleft (by omega)
      · rw [show s'.ddt = _ from hddt] at he
        by_cases hk : key = env.blake3 b
        · rw [hk, Dedup.Table.lookup_add] at he
          cases he
          have := h.few
          show (1 : UInt32).toNat + k < 2 ^ 32
          rw [show (1 : UInt32).toNat = 1 from rfl]
          omega
        · rw [Dedup.Table.lookup_add_of_ne hk] at he
          have := h.counts key e he
          omega
  · obtain ⟨hrest, f', rfl, hfail⟩ := hf
    cases hfail with
    | overflow hlook hincr =>
      have := h.counts _ _ hlook
      unfold Dedup.Table.incr at hincr
      rw [show s.pool.ddt.lookup _ = _ from hlook] at hincr
      dsimp only at hincr
      rw [if_pos (by omega)] at hincr
      cases hincr
    | compress henc' => cases henc.symm.trans henc'
    | alloc henc' halloc =>
      cases henc.symm.trans henc'
      exact (Alloc.Bitmap.alloc_error need_ne_zero halloc).2 p (freeRun_le hrun (by omega))
    | device _ _ _ _ _ _ hfault =>
      exact hfault (h.working.reliable _) (Nat.le_of_eq h.working.total) fun i hi =>
        length_sector hl _ hi

theorem Vacant.mapM (hl : env.Lawful) (hcodec : ∀ b, ∃ c, env.encodeAll b = some c) :
    ∀ (bs : List Bytes) {s : FS}, Vacant s (bs.length * n + m) (bs.length + k) →
      (∀ b ∈ bs, clusters b.length ≤ n) →
      Sat (bs.mapM Fs.bsWrite : Act env (List Ref)).1 s
        (fun out s' => out.map Ref.hash = bs.map env.blake3 ∧ s' = s.setPool s'.pool ∧
          Vacant s' m k ∧ Adds env s s' bs)
        (fun _ _ => False)
  | [], s, h, _ => sat_pure ⟨rfl, rfl, by simpa using h, .refl s⟩
  | b :: bs, s, h, hle => by
    obtain ⟨c, hc⟩ := hcodec b
    have hneed : need b c ≤ n :=
      (clusters_mono (length_payloadOf_le b c)).trans (hle b List.mem_cons_self)
    have hm : (b :: bs).length * n + m = n + (bs.length * n + m) := by
      rw [List.length_cons, Nat.succ_mul]
      omega
    have hk : (b :: bs).length + k = bs.length + k + 1 := by
      rw [List.length_cons]
      omega
    rw [hm, hk] at h
    rw [List.mapM_cons]
    refine sat_bind (h.bsWrite hl hc hneed) ?_ fun _ _ he => he
    rintro r s₁ ⟨hrest, hleft, hwrote⟩
    refine sat_bind (Vacant.mapM hl hcodec bs hleft fun b' hb' =>
      hle b' (List.mem_cons_of_mem _ hb')) ?_ fun _ _ he => he
    rintro out s₂ ⟨hout, hrest₂, hleft₂, hadds⟩
    refine sat_pure ⟨?_, ?_, hleft₂, (Adds.of_wrote hwrote).trans hadds⟩
    · rw [List.map_cons, List.map_cons, hout, hash_of_wrote hwrote]
    · rw [hrest₂, hrest]
      rfl

/-! ## Contents of a given length -/

/-- The records of contents of `length` bytes, the clusters of each, and the most that
the contents take, with the block map. -/
def recordsOf (length : Nat) : Nat := divCeil length (recordSizeFor length).1

def clustersPerRec (length : Nat) : Nat := (recordSizeFor length).1 / Block.size

def worst (length : Nat) : Nat :=
  recordsOf length * clustersPerRec length +
    if recordsOf length < 2 then 0 else clusters (4 + recordsOf length * refSize)

/-- What `fallocate` asks for. -/
def estimate (length : Nat) : Nat :=
  recordsOf length * clustersPerRec length + divCeil (recordsOf length * refSize) Block.size

theorem clusters_of_record {length : Nat} {b : Bytes} (h : b.length ≤ (recordSizeFor length).1) :
    clusters b.length ≤ clustersPerRec length := by
  refine (clusters_mono h).trans (Nat.le_of_eq ?_)
  unfold clustersPerRec recordSizeFor
  split
  · rfl
  · split
    · rfl
    · split <;> rfl

/-- `fallocate` leaves out the header of the block map only. -/
theorem worst_le (length : Nat) : worst length ≤ estimate length + 1 := by
  unfold worst estimate
  split
  · omega
  · have hmap : clusters (4 + recordsOf length * refSize) ≤
        divCeil (recordsOf length * refSize) Block.size + 1 := by
      have hpos : 2 ≤ recordsOf length := by omega
      unfold clusters divCeil
      rw [show blk = 4096 from rfl, show Block.size = 4096 from rfl, show refSize = 53 from rfl]
      omega
    omega

theorem fallocate_ok_iff {id length : Nat} (hused : s.bm.used ≤ s.bm.total) (hpos : 0 < length) :
    s.fallocate id length = .ok () ↔ estimate length ≤ s.bm.available + s.bm.deferredCount := by
  unfold FS.fallocate
  rw [if_neg (by omega)]
  dsimp only
  rw [if_neg (by omega), ← recordsOf, ← clustersPerRec, ← estimate]
  by_cases hlt : s.bm.available + s.bm.deferredCount < estimate length
  · rw [if_pos hlt]
    constructor
    · intro h
      cases h
    · intro h
      omega
  · rw [if_neg hlt]
    exact ⟨fun _ => by omega, fun _ => rfl⟩

/-- The inode lists its refs in a block map. -/
structure Mapped (kind : UInt8) (in_ : Inode) (size : UInt64) : Prop where
  kind : in_.kind = kind
  size : in_.size = size
  inline : isInline in_ = false

theorem Vacant.storeRefs (hl : env.Lawful) (hcodec : ∀ b, ∃ c, env.encodeAll b = some c)
    {in_ : Inode} {refs : List Ref} {size : UInt64} {log2 : UInt8}
    (h : Vacant s (if refs.length < 2 then 0 else clusters (4 + refs.length * refSize)) 1) :
    Sat (Fs.storeRefs in_ refs size log2 : Act env Inode).1 s
      (fun new s' => s' = s.setPool s'.pool ∧ (2 ≤ refs.length → Mapped in_.kind new size ∧
        Wrote env s.bs (encodeRefs refs) s.pool (mapRef new) s'.pool))
      (fun _ _ => False) := by
  rcases refs with _ | ⟨r, _ | ⟨r', rest⟩⟩
  · exact sat_pure ⟨rfl, fun htwo => absurd htwo (by simp)⟩
  · exact sat_pure ⟨rfl, fun htwo => absurd htwo (by simp)⟩
  · generalize hrs : r :: r' :: rest = refs at *
    have htwo : 2 ≤ refs.length := by rw [← hrs]; simp
    rw [if_neg (by omega), ← Nat.add_zero (clusters _)] at h
    obtain ⟨c, hc⟩ := hcodec (encodeRefs refs)
    have hneed : need (encodeRefs refs) c ≤ clusters (4 + refs.length * refSize) := by
      rw [← length_encodeRefs]
      exact clusters_mono (length_payloadOf_le _ c)
    rw [storeRefs_several htwo]
    refine sat_bind (h.bsWrite hl hc hneed) (fun ref s' hq => sat_pure ⟨hq.1, fun _ =>
      ⟨⟨rfl, rfl, bne_eq_false_iff_eq.mpr (inline_clear _)⟩, ?_⟩⟩) fun _ _ he => he
    refine Eq.mpr (congrArg (Wrote env s.bs _ s.pool · _) (mapRef_of_blockMap ?_)) hq.2.2
    rfl

/-- How a file with several records was written: first its records, then their block map. -/
structure MapWritten (env : Env) (id : Nat) (blob : Bytes) (records : List Bytes) (kind : UInt8)
    (s s' : FS) (refs : List Ref) (p : Pool) : Prop where
  hashes : refs.map Ref.hash = records.map env.blake3
  records : Adds env s (s.setPool p) records
  mapped : Mapped kind (s'.inodes.slots id) (UInt64.ofNat blob.length)
  map : Wrote env s.bs (encodeRefs refs) p (mapRef (s'.inodes.slots id)) s'.pool
  bs : s'.bs = s.bs

section MapWritten

variable {s s' : FS} {id : Nat} {blob : Bytes} {records : List Bytes} {kind : UInt8}
  {refs : List Ref} {p : Pool}

theorem MapWritten.length (h : MapWritten env id blob records kind s s' refs p) :
    refs.length = records.length := by
  have hlen := congrArg List.length h.hashes
  rwa [List.length_map, List.length_map] at hlen

theorem MapWritten.adds (h : MapWritten env id blob records kind s s' refs p) :
    Adds env s s' (records ++ [encodeRefs refs]) :=
  h.records.trans (.of_wrote h.map)

end MapWritten

theorem Vacant.writeFile (hl : env.Lawful) (hcodec : ∀ b, ∃ c, env.encodeAll b = some c) {id : Nat}
    {in_ : Inode} {blob : Bytes} (hreg : s.regular id = .ok in_) (hid : id < s.inodes.cap)
    (hempty : in_.size = 0) (hpos : 0 < blob.length) (h64 : blob.length < 2 ^ 64)
    (h : Vacant s (worst blob.length) (recordsOf blob.length + 1)) :
    Sat (Fs.writeFile id blob : Act env Unit).1 s
      (fun _ s' => s'.ub = s.ub ∧ s'.openCount = s.openCount ∧
        (2 ≤ recordsOf blob.length → ∃ refs p, MapWritten env id blob
          (splitRecords blob (recordSizeFor blob.length).1) in_.kind s s' refs p))
      (fun _ _ => False) := by
  have hne : blob.isEmpty = false := by
    cases blob with
    | nil => cases hpos
    | cons a l => rfl
  have hchunk : chunk blob =
      (splitRecords blob (recordSizeFor blob.length).1, (recordSizeFor blob.length).2) := by
    unfold chunk
    rw [hne]
    rfl
  refine sat_get_bind (sat_bind (sat_ofExcept (Q := fun x s' => x = in_ ∧ s = s')
    (fun x hx => ?_) fun f hf => ?_) ?_ fun _ _ he => he)
  · cases hreg.symm.trans hx
    exact ⟨rfl, rfl⟩
  · cases hreg.symm.trans hf
  rintro x _ ⟨rfl, rfl⟩
  refine Within.sat_ite (fun hbig => absurd hbig (by omega)) fun _ => ?_
  rw [hchunk]
  have hstore := Vacant.mapM hl hcodec (n := clustersPerRec blob.length) (s := s) (k := 1)
    (m := if recordsOf blob.length < 2 then 0 else clusters (4 + recordsOf blob.length * refSize))
    (splitRecords blob (recordSizeFor blob.length).1) (by rw [length_splitRecords]; exact h)
    fun b hb => clusters_of_record (length_le_of_mem_splitRecords hb)
  refine sat_bind hstore ?_ fun _ _ he => he
  rintro refs s₁ ⟨hhashes, hrest, hleft, hadds⟩
  have hlen : refs.length = recordsOf blob.length := by
    have := congrArg List.length hhashes
    rwa [List.length_map, List.length_map, length_splitRecords] at this
  rw [← hlen] at hleft
  refine sat_bind (hleft.storeRefs hl hcodec) ?_ fun _ _ he => he
  rintro new s₂ ⟨hrest₂, hmapped⟩
  have hcap : s₂.inodes.cap = s.inodes.cap := by
    rw [hrest₂, hrest]
    rfl
  have hbs₁ : s₁.bs = s.bs := by
    rw [hrest]
    rfl
  have hsame : s₂.ub = s.ub ∧ s₂.openCount = s.openCount ∧ s₂.bs = s.bs := by
    rw [hrest₂, hrest]
    exact ⟨rfl, rfl, rfl⟩
  refine sat_bind (Q := fun _ s' => s₂ = s') ?_ ?_ fun _ _ he => he
  · unfold releaseData
    rw [if_pos hempty]
    exact sat_pure rfl
  rintro - _ rfl
  -- the time of the write changes neither the map nor where it lies
  have htouch : ∀ t, 2 ≤ refs.length →
      Mapped x.kind { new with mtime := t, ctime := t } (UInt64.ofNat blob.length) ∧
      Wrote env s₁.bs (encodeRefs refs) s₁.pool (mapRef { new with mtime := t, ctime := t })
        s₂.pool := fun t htwo =>
    ⟨⟨(hmapped htwo).1.kind, (hmapped htwo).1.size, (hmapped htwo).1.inline⟩, (hmapped htwo).2⟩
  refine sat_bind (Q := fun new' s' => s'.inodes = s₂.inodes ∧ s'.ub = s₂.ub ∧
    s'.openCount = s₂.openCount ∧ s'.bs = s₂.bs ∧ s'.pool = s₂.pool ∧
    (2 ≤ refs.length → Mapped x.kind new' (UInt64.ofNat blob.length) ∧
      Wrote env s₁.bs (encodeRefs refs) s₁.pool (mapRef new') s₂.pool))
    ⟨rfl, rfl, rfl, rfl, rfl, htouch _⟩ ?_ fun _ _ he => he
  rintro new' s₃ ⟨hin, hub₃, hopens₃, hbs₃, hpool₃, hmapped₃⟩
  have hlt : id < s₃.inodes.cap := by
    rw [hin, hcap]
    exact hid
  unfold Sat
  rw [putInode_of_lt hlt, setInode_of_lt hlt]
  have hslot : (Function.update s₃.inodes.slots id new') id = new' := Function.update_self ..
  refine ⟨hub₃.trans hsame.1, hopens₃.trans hsame.2.1, fun htwo => ⟨refs, s₁.pool, hhashes,
    ?_, ?_, ?_, hbs₃.trans hsame.2.2⟩⟩
  · rw [← hrest]
    exact hadds
  · show Mapped x.kind (Function.update s₃.inodes.slots id new' id) _
    rw [hslot]
    exact (hmapped₃ (hlen ▸ htwo)).1
  · show Wrote env s.bs _ s₁.pool (mapRef (Function.update s₃.inodes.slots id new' id)) s₃.pool
    rw [hslot, hpool₃, ← hbs₁]
    exact (hmapped₃ (hlen ▸ htwo)).2

end Fs
end BloomFS

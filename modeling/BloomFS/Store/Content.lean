/-
What the stored blocks hold, and how many references each has.

`Stored` says that an entry of the dedup table describes the stored form of a
block.  `Stock ds p T` is the invariant of a pool whose references are exactly the
keys in the multiset `T`: every entry holds some block that went through the
content hash, and its count is the multiplicity of its key.  It rests on what the
code assumes of the blocks in play, that no two of them collide and that each is
shorter than 4 GiB.
-/
import BloomFS.Store.Space
import Mathlib.Data.Multiset.Basic
import Mathlib.Data.Multiset.Count

namespace BloomFS
namespace Store

open Bytes Exec Block

/-- The blocks that went through the content hash do not collide, and the lengths
of each fit the 32-bit fields of its entry. -/
structure InPlay (env : Env) (tr : List Event) : Prop where
  inj : ∀ b b', .hash b ∈ tr → .hash b' ∈ tr → env.blake3 b = env.blake3 b' → b = b'
  short : ∀ b, .hash b ∈ tr → b.length < 2 ^ 32

theorem InPlay.of_subset {env : Env} {tr tr' : List Event} (h : InPlay env tr') (hsub : tr ⊆ tr') :
    InPlay env tr :=
  ⟨fun b b' hb hb' => h.inj b b' (hsub hb) (hsub hb'), fun b hb => h.short b (hsub hb)⟩

/-- Entry `e` under key `k` describes the stored form of `b`, which is on the
device. -/
structure Stored (env : Env) (bs : BlockStore) (dev : Disk) (k : Dedup.Key) (e : Dedup.Entry)
    (b : Bytes) : Prop where
  key : env.blake3 b = k
  short : b.length < 2 ^ 32
  form : ∃ c, env.encodeAll b = some c ∧
    e = { freshEntry b (payloadOf b c) e.start.toNat with refs := e.refs } ∧
    ∀ i, i < clusters (payloadOf b c).1.length →
      dev.image (e.start.toNat + i) = sector env bs (payloadOf b c).1 e.start.toNat i
  inside : e.start.toNat + e.count.toNat ≤ dev.blocks

theorem length_payloadOf_le (b c : Bytes) : (payloadOf b c).1.length ≤ b.length := by
  unfold payloadOf
  split
  · exact le_rfl
  · next h => exact (not_le.mp h).le

theorem clusters_lt {n : Nat} (h : n < 2 ^ 32) : clusters n < 2 ^ 32 := by
  have hb : blk = 4096 := rfl
  unfold clusters
  rw [hb]
  omega

theorem length_le_clusters (n : Nat) : n ≤ clusters n * blk := by
  have h : blk = 4096 := rfl
  unfold clusters
  rw [h]
  omega

theorem clusters_mono {m n : Nat} (h : m ≤ n) : clusters m ≤ clusters n := by
  have hb : blk = 4096 := rfl
  unfold clusters
  rw [hb]
  omega

theorem openSec_sealSec {env : Env} (hl : env.Lawful) (bs : BlockStore) (addr : Nat) (b : Bytes) :
    openSec env bs addr (sealSec env bs addr b) = b := by
  unfold openSec sealSec
  cases bs.key with
  | none => rfl
  | some k => exact hl.decrypt_encrypt k addr b

section Stored

variable {env : Env} {bs : BlockStore} {dev : Disk} {k : Dedup.Key} {e : Dedup.Entry} {b : Bytes}

/-- What the clusters of a stored block decrypt to: its payload, padded. -/
def padded (payload : Bytes) : Bytes :=
  payload ++ List.replicate (clusters payload.length * blk - payload.length) 0

theorem length_padded (payload : Bytes) :
    (padded payload).length = clusters payload.length * blk := by
  have := length_le_clusters payload.length
  unfold padded
  rw [List.length_append, List.length_replicate]
  omega

theorem readClusters_eq (hl : env.Lawful) {r : Ref} {payload : Bytes}
    (hcount : r.count.toNat = clusters payload.length)
    (hin : r.start.toNat + r.count.toNat ≤ dev.blocks)
    (himg : ∀ i, i < clusters payload.length →
      dev.image (r.start.toNat + i) = sector env bs payload r.start.toNat i) :
    readClusters env bs dev r = .ok (padded payload) := by
  have hsec : ∀ i ∈ List.range r.count.toNat,
      (do
        let sec ← (dev.readBlock (r.start.toNat + i)).mapError Error.block
        return openSec env bs (r.start.toNat + i) sec : Except Error Bytes) =
      .ok (slice (padded payload) (i * blk) blk) := by
    intro i hi
    have hi := List.mem_range.mp hi
    have hread : dev.readBlock (r.start.toNat + i) = .ok (dev.image (r.start.toNat + i)) :=
      if_neg (by omega)
    rw [hread, mapError_ok, ok_bind, himg i (by omega)]
    show Except.ok _ = _
    rw [sector, openSec_sealSec hl]
    rfl
  unfold readClusters
  rw [mapM_ok hsec, ok_bind]
  show Except.ok (List.flatten _) = _
  rw [← List.flatMap_def, flatMap_slice_range, hcount, ← length_padded, List.take_length]

/-- What is read of a ref is what its clusters unpack to, and has the hash of the ref. -/
theorem unpack_of_read {r : Ref} {buf b' : Bytes} (hbuf : readClusters env bs dev r = .ok buf)
    (h : read env bs dev r = .ok b') :
    unpack env r (buf.take r.payload.toNat) = some b' ∧ env.blake3 b' = r.hash := by
  unfold read at h
  rw [hbuf, mapError_ok, ok_bind] at h
  split at h
  · cases h
  · split at h
    · cases h
    · next hunpack =>
      split at h
      · cases h
      · split at h
        · cases h
        · next hhash =>
          cases h
          exact ⟨hunpack, not_not.mp hhash⟩

theorem unpack_payloadOf (hl : env.Lawful) {r : Ref} {c : Bytes} (hc : env.encodeAll b = some c)
    (hraw : r.raw = (payloadOf b c).2) : unpack env r (payloadOf b c).1 = some b := by
  unfold unpack
  rw [hraw]
  unfold payloadOf
  split
  · rfl
  · exact hl.decode_encode b c hc

theorem Stored.count_eq (h : Stored env bs dev k e b) {c : Bytes}
    (he : e = { freshEntry b (payloadOf b c) e.start.toNat with refs := e.refs }) :
    e.count.toNat = clusters (payloadOf b c).1.length := by
  rw [he]
  exact UInt32.toNat_ofNat_of_lt' (clusters_lt (lt_of_le_of_lt (length_payloadOf_le b c) h.short))

theorem Stored.count_ne_zero (h : Stored env bs dev k e b) : e.count ≠ 0 := by
  obtain ⟨c, -, he, -⟩ := h.form
  have hpos : 1 ≤ e.count.toNat := by
    rw [h.count_eq he]
    exact le_max_right ..
  intro h0
  rw [h0] at hpos
  cases hpos

theorem Stored.read (hl : env.Lawful) (h : Stored env bs dev k e b) :
    read env bs dev (refFrom k e) = .ok b := by
  obtain ⟨c, hc, he, himg⟩ := h.form
  have hple := lt_of_le_of_lt (length_payloadOf_le b c) h.short
  have hcount := h.count_eq he
  have hpay : e.payload.toNat = (payloadOf b c).1.length := by
    rw [he]
    exact UInt32.toNat_ofNat_of_lt' hple
  have hlog : e.logical = UInt32.ofNat b.length := by rw [he]; rfl
  have hraw : e.raw = (payloadOf b c).2 := by rw [he]; rfl
  have hclu : readClusters env bs dev (refFrom k e) = .ok (padded (payloadOf b c).1) :=
    readClusters_eq hl hcount h.inside himg
  have hlen : ¬ (padded (payloadOf b c).1).length < (refFrom k e).payload.toNat := by
    show ¬ _ < e.payload.toNat
    rw [length_padded, hpay]
    exact not_lt.mpr (length_le_clusters _)
  have htake : (padded (payloadOf b c).1).take (refFrom k e).payload.toNat = (payloadOf b c).1 := by
    show List.take e.payload.toNat _ = _
    rw [hpay]
    exact List.take_left
  have hun : unpack env (refFrom k e) (payloadOf b c).1 = some b := unpack_payloadOf hl hc hraw
  unfold Store.read
  rw [hclu, mapError_ok, ok_bind, if_neg hlen, htake, hun]
  show (if UInt32.ofNat b.length ≠ e.logical then _ else if env.blake3 b ≠ k then _ else _) = _
  rw [if_neg (by simp [hlog]), if_neg (by simp [h.key])]
  rfl

/-- The count of references is not part of what is stored. -/
theorem Stored.of_samePlace {e' : Dedup.Entry} (h : Stored env bs dev k e b)
    (hs : Dedup.Table.Entry.SamePlace e e') : Stored env bs dev k e' b := by
  obtain ⟨h1, h2, h3, h4, h5⟩ := hs
  obtain ⟨c, hc, he, himg⟩ := h.form
  refine ⟨h.key, h.short, ⟨c, hc, ?_, ?_⟩, ?_⟩
  · obtain ⟨start, count, payload, logical, raw, refs⟩ := e'
    obtain ⟨start', count', payload', logical', raw', refs'⟩ := e
    simp only at h1 h2 h3 h4 h5
    subst h1 h2 h3 h4 h5
    simp only [freshEntry, Dedup.Entry.mk.injEq] at he ⊢
    exact ⟨he.1, he.2.1, he.2.2.1, he.2.2.2.1, he.2.2.2.2.1, trivial⟩
  · rw [h1]
    exact himg
  · rw [h1, h2]
    exact h.inside

theorem Stored.of_image {dev' : Disk} (h : Stored env bs dev k e b) (hb : dev'.blocks = dev.blocks)
    (himg : ∀ n, e.Covers n → dev'.image n = dev.image n) : Stored env bs dev' k e b := by
  obtain ⟨c, hc, he, hcl⟩ := h.form
  have hcount := h.count_eq he
  refine ⟨h.key, h.short, ⟨c, hc, he, fun i hi => ?_⟩, hb ▸ h.inside⟩
  rw [himg _ ⟨by omega, by omega⟩]
  exact hcl i hi

end Stored

/-! ## References -/

/-- The references to the blocks of a pool are the keys in `T`, and every entry
holds a block in play. -/
structure Stock (env : Env) (bs : BlockStore) (ds : Nat) (p : Pool) (T : Multiset Dedup.Key) :
    Prop where
  space : ∃ L, Space ds L p
  refs : ∀ k, p.ddt.refs k = T.count k
  positive : p.ddt.Positive
  stored : ∀ k e, p.ddt.lookup k = some e → ∃ b, .hash b ∈ p.dev.trace ∧ Stored env bs p.dev k e b

/-- The ref `r` agrees with the entry of its key, which holds `b`. -/
def Good (env : Env) (bs : BlockStore) (p : Pool) (r : Ref) (b : Bytes) : Prop :=
  ∃ e, p.ddt.lookup r.hash = some e ∧ r = refFrom r.hash e ∧ Stored env bs p.dev r.hash e b

section Stock

variable {env : Env} {bs : BlockStore} {ds : Nat} {p p' : Pool} {T : Multiset Dedup.Key} {r : Ref}
  {b : Bytes}

theorem Stock.len_le (h : Stock env bs ds p T) : p.ddt.len ≤ T.card := by
  have hle : (p.ddt.m.keys : Multiset Dedup.Key) ≤ T := by
    refine (Multiset.le_iff_subset (Multiset.coe_nodup.mpr p.ddt.m.keys_nodup)).mpr fun k hk => ?_
    obtain ⟨e, he⟩ := Option.isSome_iff_exists.mp (AList.lookup_isSome.mpr hk)
    have hrefs : T.count k = e.refs.toNat := by
      rw [← h.refs k]
      unfold Dedup.Table.refs
      rw [show p.ddt.lookup k = some e from he]
    have hpos : e.refs.toNat ≠ 0 := fun h0 => h.positive k e he (UInt32.toNat_inj.mp h0)
    exact Multiset.count_pos.mp (by omega)
  have hlen : p.ddt.len = p.ddt.m.keys.length := (List.length_map ..).symm
  rw [hlen]
  exact Multiset.card_le_card hle

theorem Good.read (hl : env.Lawful) (h : Good env bs p r b) : read env bs p.dev r = .ok b := by
  obtain ⟨e, -, hr, hs⟩ := h
  rw [hr]
  exact hs.read hl

theorem Good.key (h : Good env bs p r b) : env.blake3 b = r.hash := by
  obtain ⟨e, -, -, hs⟩ := h
  exact hs.key

theorem Good.unique (hl : env.Lawful) {b' : Bytes} (h : Good env bs p r b)
    (h' : Good env bs p r b') : b = b' := by
  have h1 := h.read hl
  rw [h'.read hl] at h1
  exact (Except.ok.inj h1).symm

theorem Stock.count_eq (h : Stock env bs ds p T) {k : Dedup.Key} {e : Dedup.Entry}
    (he : p.ddt.lookup k = some e) : T.count k = e.refs.toNat := by
  rw [← h.refs k, Dedup.Table.refs_of_lookup he]

theorem Stock.mem_of_lookup (h : Stock env bs ds p T) {k : Dedup.Key} {e : Dedup.Entry}
    (he : p.ddt.lookup k = some e) : k ∈ T := by
  have hpos := h.positive k e he
  rw [← Multiset.count_pos, h.count_eq he]
  exact Nat.pos_of_ne_zero fun h0 => hpos (UInt32.toNat_inj.mp h0)

theorem Stock.lookup_of_mem (h : Stock env bs ds p T) {k : Dedup.Key} (hk : k ∈ T) :
    ∃ e, p.ddt.lookup k = some e := by
  have hr := h.refs k
  unfold Dedup.Table.refs at hr
  cases he : p.ddt.lookup k with
  | some e => exact ⟨e, rfl⟩
  | none =>
    rw [he] at hr
    exact absurd hr.symm (Multiset.count_pos.mpr hk).ne'

theorem replay_intoFree {L : Nat → Prop} (hsp : Space ds L p) {es : List Event} {n : Nat}
    (hn : Owned p.ddt n) (hes : ∀ ev ∈ es, IntoFree p.bm ev) (image : Nat → Bytes) :
    replay image es n = image n := by
  refine replay_of_not_written (fun o left hm => ?_) image
  obtain ⟨m, left', heq, hlt, hfree⟩ := hes _ hm
  cases heq
  have := (hsp.bits n hlt).mpr (.inr (.inl hn))
  rw [hfree] at this
  cases this

theorem replay_hash (image : Nat → Bytes) (b : Bytes) (es : List Event) :
    replay image (.hash b :: es) = replay image es := rfl

theorem Stored.of_intoFree {L : Nat → Prop} {k : Dedup.Key} {e : Dedup.Entry} {b₀ : Bytes}
    {es : List Event} {dev' : Disk} (hsp : Space ds L p) (he : p.ddt.lookup k = some e)
    (h : Stored env bs p.dev k e b) (hx : Disk.Extends p.dev dev' (.hash b₀ :: es))
    (hes : ∀ ev ∈ es, IntoFree p.bm ev) : Stored env bs dev' k e b := by
  refine h.of_image hx.blocks (fun n hn => ?_)
  rw [hx.image, replay_hash]
  exact replay_intoFree hsp ⟨k, e, he, hn⟩ hes _

theorem replay_dataEvents (image : Nat → Bytes) (payload : Bytes) (start n m : Nat) :
    replay image (dataEvents env bs payload start n) m =
      if start ≤ m ∧ m < start + n then sector env bs payload start (m - start) else image m :=
  replay_range .data _ image start n m

theorem stored_fresh {c : Bytes} {start : Nat} {dev' : Disk} (hshort : b.length < 2 ^ 32)
    (hc : env.encodeAll b = some c) (hstart : start < 2 ^ 64)
    (hin : start + clusters (payloadOf b c).1.length ≤ p.dev.blocks)
    (hx : Disk.Extends p.dev dev' (.hash b :: dataEvents env bs (payloadOf b c).1 start
      (clusters (payloadOf b c).1.length))) :
    Stored env bs dev' (env.blake3 b) { freshEntry b (payloadOf b c) start with refs := 1 } b := by
  have hst : (UInt64.ofNat start).toNat = start := UInt64.toNat_ofNat_of_lt' hstart
  have hple := lt_of_le_of_lt (length_payloadOf_le b c) hshort
  have hcount : (UInt32.ofNat (clusters (payloadOf b c).1.length)).toNat =
      clusters (payloadOf b c).1.length := UInt32.toNat_ofNat_of_lt' (clusters_lt hple)
  refine ⟨rfl, hshort, ⟨c, hc, ?_, fun i hi => ?_⟩, ?_⟩
  · show { freshEntry b (payloadOf b c) start with refs := 1 } =
      { freshEntry b (payloadOf b c) (UInt64.ofNat start).toNat with refs := 1 }
    rw [hst]
  · show dev'.image ((UInt64.ofNat start).toNat + i) = sector env bs _ (UInt64.ofNat start).toNat i
    rw [hst, hx.image, replay_hash, replay_dataEvents, if_pos (by omega), Nat.add_sub_cancel_left]
  · show (UInt64.ofNat start).toNat + (UInt32.ofNat _).toNat ≤ dev'.blocks
    rw [hst, hcount, hx.blocks]
    exact hin

/-- A block that was just stored is read from as much of its payload as the 32-bit length of
its entry tells. -/
theorem Wrote.read_fresh (hl : env.Lawful) {r : Ref} {p' : Pool} (hw : Wrote env bs b p r p')
    {c b' : Bytes} (hnew : p.ddt.lookup (env.blake3 b) = none) (hc : env.encodeAll b = some c)
    (hcount : clusters (payloadOf b c).1.length < 2 ^ 32) (h : read env bs p'.dev r = .ok b') :
    unpack env r ((payloadOf b c).1.take ((payloadOf b c).1.length % 2 ^ 32)) = some b' ∧
      r.raw = (payloadOf b c).2 ∧ env.blake3 b' = env.blake3 b := by
  cases hw with
  | hit hlook => cases hnew.symm.trans hlook
  | @miss c' start bm _ hlook henc halloc hin hbm hddt hdev =>
    cases hc.symm.trans henc
    generalize hpay : payloadOf b c = stored at *
    have hblocks := p.dev.blocks_lt
    have hst : (UInt64.ofNat start).toNat = start :=
      UInt64.toNat_ofNat_of_lt' (show start < 2 ^ 64 by omega)
    have hct : (UInt32.ofNat (clusters stored.1.length)).toNat = clusters stored.1.length :=
      UInt32.toNat_ofNat_of_lt' hcount
    have hlen : (UInt32.ofNat stored.1.length).toNat = stored.1.length % 2 ^ 32 := rfl
    have hbuf : readClusters env bs p'.dev (refFrom (env.blake3 b) (freshEntry b stored start)) =
        .ok (padded stored.1) := by
      refine readClusters_eq hl hct ?_ fun i hi => ?_
      · show (UInt64.ofNat start).toNat + (UInt32.ofNat _).toNat ≤ p'.dev.blocks
        rw [hst, hct, hdev.blocks]
        exact hin
      · show p'.dev.image ((UInt64.ofNat start).toNat + i) =
          sector env bs _ (UInt64.ofNat start).toNat i
        rw [hst, hdev.image, replay_hash, replay_dataEvents, if_pos (by omega),
          Nat.add_sub_cancel_left]
    have htake : (padded stored.1).take (UInt32.ofNat stored.1.length).toNat =
        stored.1.take (stored.1.length % 2 ^ 32) := by
      rw [hlen, padded, List.take_append_of_le_length (Nat.mod_le _ _)]
    obtain ⟨hunpack, hhash⟩ := unpack_of_read hbuf h
    rw [show (refFrom (env.blake3 b) (freshEntry b stored start)).payload.toNat =
      (UInt32.ofNat stored.1.length).toNat from rfl, htake] at hunpack
    exact ⟨hunpack, rfl, hhash⟩

theorem refs_of_lookup {t t' : Dedup.Table} {k : Dedup.Key} (h : t'.lookup k = t.lookup k) :
    t'.refs k = t.refs k := by
  unfold Dedup.Table.refs
  rw [h]

/-- The blocks stored in `p` are still on the device of `p'`. -/
def Preserved (env : Env) (bs : BlockStore) (p p' : Pool) : Prop :=
  ∀ k e b, p.ddt.lookup k = some e → Stored env bs p.dev k e b → Stored env bs p'.dev k e b

/-- A change to the entry of one key. -/
theorem Stock.of_key {T' : Multiset Dedup.Key} {k : Dedup.Key} (h : Stock env bs ds p T)
    (hspace : ∃ L, Space ds L p')
    (htrace : p.dev.trace ⊆ p'.dev.trace) (hold : Preserved env bs p p')
    (hother : ∀ k', k' ≠ k → p'.ddt.lookup k' = p.ddt.lookup k')
    (hT : ∀ k', k' ≠ k → T'.count k' = T.count k') (hcount : p'.ddt.refs k = T'.count k)
    (hentry : ∀ e, p'.ddt.lookup k = some e →
      e.refs ≠ 0 ∧ ∃ b, .hash b ∈ p'.dev.trace ∧ Stored env bs p'.dev k e b) :
    Stock env bs ds p' T' := by
  refine ⟨hspace, fun k' => ?_, fun k' e he => ?_, fun k' e he => ?_⟩ <;>
    by_cases hk : k' = k
  · rw [hk]
    exact hcount
  · rw [hT k' hk, ← h.refs]
    exact refs_of_lookup (hother k' hk)
  · subst hk
    exact (hentry e he).1
  · exact h.positive k' e ((hother k' hk) ▸ he)
  · subst hk
    exact (hentry e he).2
  · rw [hother k' hk] at he
    obtain ⟨b, hb, hs⟩ := h.stored k' e he
    exact ⟨b, htrace hb, hold _ _ _ he hs⟩

theorem Good.of_place (h : Good env bs p r b) (hold : Preserved env bs p p')
    (hplace : ∀ e, p.ddt.lookup r.hash = some e →
      ∃ e', p'.ddt.lookup r.hash = some e' ∧ Dedup.Table.Entry.SamePlace e e') :
    Good env bs p' r b := by
  obtain ⟨e, he, hr, hs⟩ := h
  obtain ⟨e', he', hp⟩ := hplace e he
  refine ⟨e', he', ?_, (hold _ _ _ he hs).of_samePlace hp⟩
  rw [hr]
  obtain ⟨h1, h2, h3, h4, h5⟩ := hp
  simp only [refFrom, h1, h2, h3, h4, h5]

theorem samePlace_refl (e : Dedup.Entry) : Dedup.Table.Entry.SamePlace e e :=
  ⟨rfl, rfl, rfl, rfl, rfl⟩

theorem Wrote.preserved {L : Nat → Prop} (hw : Wrote env bs b p r p') (hsp : Space ds L p) :
    Preserved env bs p p' := by
  obtain ⟨es, hx, hes⟩ := hw.extends
  exact fun k e b' he hs => hs.of_intoFree hsp he hx hes

theorem WriteFailed.preserved {L : Nat → Prop} {e : Fault Error} (hw : WriteFailed env bs b p e p')
    (hsp : Space ds L p) : Preserved env bs p p' := by
  obtain ⟨es, hx, hes⟩ := hw.extends
  exact fun k e b' he hs => hs.of_intoFree hsp he hx hes

theorem Wrote.stock (hw : Wrote env bs b p r p') (h : Stock env bs ds p T)
    (hplay : InPlay env p'.dev.trace) :
    Stock env bs ds p' (env.blake3 b ::ₘ T) ∧ Good env bs p' r b ∧
      ∀ r' b', Good env bs p r' b' → Good env bs p' r' b' := by
  obtain ⟨L, hsp⟩ := h.space
  obtain ⟨L', hsp', -⟩ := hw.space hsp
  obtain ⟨es, hx, hes⟩ := hw.extends
  have hold := hw.preserved hsp
  have htrace : p.dev.trace ⊆ p'.dev.trace := fun ev hev => by
    rw [hx.trace]
    exact List.mem_append_left _ hev
  have hhash : Event.hash b ∈ p'.dev.trace := by
    rw [hx.trace]
    exact List.mem_append_right _ List.mem_cons_self
  have hT : ∀ k', k' ≠ env.blake3 b → (env.blake3 b ::ₘ T).count k' = T.count k' :=
    fun k' hk => Multiset.count_cons_of_ne hk T
  cases hw with
  | @hit e ddt f _ hlook hincr hbm hddt hdev =>
    obtain ⟨⟨e', he', hrefs, hplace⟩, hother⟩ := Dedup.Table.incr_spec hlook hincr
    rw [← hddt] at he' hother
    -- the block already stored under this key is the same block
    obtain ⟨b', hb', hs'⟩ := h.stored _ e hlook
    obtain rfl : b' = b := hplay.inj b' b (htrace hb') hhash hs'.key
    have hgood : ∀ r' b', Good env bs p r' b' → Good env bs p' r' b' := by
      intro r' b'' hg
      refine hg.of_place hold (fun e₁ he₁ => ?_)
      by_cases hk : r'.hash = env.blake3 b'
      · rw [hk, hlook] at he₁
        cases he₁
        exact ⟨e', hk ▸ he', hplace⟩
      · exact ⟨e₁, (hother _ hk).trans he₁, samePlace_refl e₁⟩
    refine ⟨h.of_key ⟨L', hsp'⟩ htrace hold hother hT ?_ (fun e₁ he₁ => ?_),
      hgood _ _ ⟨e, hlook, rfl, hs'⟩, hgood⟩
    · rw [Multiset.count_cons_self, ← h.refs]
      unfold Dedup.Table.refs
      rw [he', hlook]
      exact hrefs
    · rw [he'] at he₁
      cases he₁
      refine ⟨fun h0 => ?_, b', hhash, (hold _ _ _ hlook hs').of_samePlace hplace⟩
      rw [h0] at hrefs
      cases hrefs
  | @miss c start bm _ hlook henc halloc hin hbm hddt hdev =>
    have hlt := p.dev.blocks_lt
    have hnew := stored_fresh (hplay.short b hhash) henc (by omega) hin hdev
    have hlk : p'.ddt.lookup (env.blake3 b) =
        some { freshEntry b (payloadOf b c) start with refs := 1 } := by
      rw [hddt]
      exact Dedup.Table.lookup_add _ _ _
    have hother : ∀ k, k ≠ env.blake3 b → p'.ddt.lookup k = p.ddt.lookup k := fun k hk => by
      rw [hddt]
      exact Dedup.Table.lookup_add_of_ne hk
    refine ⟨h.of_key ⟨L', hsp'⟩ htrace hold hother hT ?_ (fun e₁ he₁ => ?_),
      ⟨_, hlk, rfl, hnew⟩, fun r' b' hg => hg.of_place hold (fun e₁ he₁ => ?_)⟩
    · rw [Multiset.count_cons_self, ← h.refs]
      unfold Dedup.Table.refs
      rw [hlk, hlook]
      rfl
    · rw [hlk] at he₁
      cases he₁
      exact ⟨show (1 : UInt32) ≠ 0 by decide, b, hhash, hnew⟩
    · refine ⟨e₁, (hother _ fun hk => ?_).trans he₁, samePlace_refl e₁⟩
      rw [hk, hlook] at he₁
      cases he₁

theorem WriteFailed.stock {e : Fault Error} (hw : WriteFailed env bs b p e p')
    (h : Stock env bs ds p T) :
    Stock env bs ds p' T ∧ ∀ r' b', Good env bs p r' b' → Good env bs p' r' b' := by
  obtain ⟨L, hsp⟩ := h.space
  obtain ⟨es, hx, hes⟩ := hw.extends
  have hold := hw.preserved hsp
  have hddt : p'.ddt = p.ddt := by cases hw <;> assumption
  refine ⟨⟨⟨L, hw.space hsp⟩, hddt ▸ h.refs, hddt ▸ h.positive, fun k e he => ?_⟩,
    fun r' b' hg => hg.of_place hold fun e he => ⟨e, hddt ▸ he, samePlace_refl e⟩⟩
  rw [hddt] at he
  obtain ⟨b', hb', hs'⟩ := h.stored k e he
  refine ⟨b', ?_, hold _ _ _ he hs'⟩
  rw [hx.trace]
  exact List.mem_append_left _ hb'

/-- Dropping a reference takes one key out.  The refs whose key is still referenced
stay good. -/
theorem Released.stock (hr : Released r p p') (h : Stock env bs ds p T) (hmem : r.hash ∈ T) :
    Stock env bs ds p' (T.erase r.hash) ∧
      ∀ r' b', r'.hash ∈ T.erase r.hash → Good env bs p r' b' → Good env bs p' r' b' := by
  obtain ⟨L, hsp⟩ := h.space
  have hspace : ∃ L, Space ds L p' := ⟨L, hr.space hsp⟩
  have hdev : p'.dev = p.dev := hr.dev_eq
  have htrace : p.dev.trace ⊆ p'.dev.trace := by
    rw [hdev]
    exact List.Subset.refl _
  have hold : Preserved env bs p p' := fun k e b' _ hs => hdev ▸ hs
  have hT : ∀ k', k' ≠ r.hash → (T.erase r.hash).count k' = T.count k' :=
    fun k' hk => Multiset.count_erase_of_ne hk T
  have hrefs := h.refs r.hash
  have hone : (T.erase r.hash).count r.hash = T.count r.hash - 1 := Multiset.count_erase_self _ _
  unfold Dedup.Table.refs at hrefs
  cases hr with
  | absent hlook =>
    rw [hlook] at hrefs
    exact absurd hrefs.symm (Multiset.count_pos.mpr hmem).ne'
  | @shared e e' hlook hminus hne hplace =>
    rw [hlook] at hrefs
    simp only at hrefs
    have hlk : (⟨p.ddt.m.insert r.hash e'⟩ : Dedup.Table).lookup r.hash = some e' :=
      AList.lookup_insert _
    have hother : ∀ k, k ≠ r.hash →
        (⟨p.ddt.m.insert r.hash e'⟩ : Dedup.Table).lookup k = p.ddt.lookup k :=
      fun k hk => AList.lookup_insert_ne hk
    refine ⟨h.of_key hspace htrace hold hother hT ?_ (fun e₁ he₁ => ?_),
      fun r' b' _ hg => hg.of_place hold (fun e₁ he₁ => ?_)⟩
    · rw [hone, ← hrefs]
      unfold Dedup.Table.refs
      rw [hlk]
      show e'.refs.toNat = _
      omega
    · rw [hlk] at he₁
      cases he₁
      obtain ⟨b', hb', hs'⟩ := h.stored _ e hlook
      exact ⟨fun h0 => hne (by rw [h0]; rfl), b', htrace hb', hs'.of_samePlace hplace⟩
    · by_cases hk : r'.hash = r.hash
      · rw [hk, hlook] at he₁
        cases he₁
        exact ⟨e', hk ▸ hlk, hplace⟩
      · exact ⟨e₁, (hother _ hk).trans he₁, samePlace_refl e₁⟩
  | @last e hlook hlast =>
    rw [hlook] at hrefs
    simp only at hrefs
    have hlk : (⟨p.ddt.m.erase r.hash⟩ : Dedup.Table).lookup r.hash = none := AList.lookup_erase _ _
    have hother : ∀ k, k ≠ r.hash →
        (⟨p.ddt.m.erase r.hash⟩ : Dedup.Table).lookup k = p.ddt.lookup k :=
      fun k hk => AList.lookup_erase_ne hk
    have hgone : (T.erase r.hash).count r.hash = 0 := by omega
    refine ⟨h.of_key hspace htrace hold hother hT ?_ (fun e₁ he₁ => ?_),
      fun r' b' hmem' hg => hg.of_place hold (fun e₁ he₁ => ?_)⟩
    · rw [hgone]
      unfold Dedup.Table.refs
      rw [hlk]
    · rw [hlk] at he₁
      cases he₁
    · refine ⟨e₁, (hother _ fun hk => ?_).trans he₁, samePlace_refl e₁⟩
      rw [hk] at hmem'
      exact absurd hgone (Multiset.count_pos.mpr hmem').ne'

/-- Calls that write below the data area, and freeing what was deferred, keep the
stock. -/
theorem Stock.of_below {es : List Event} (h : Stock env bs ds p T)
    (hx : Disk.Extends p.dev p'.dev es) (hes : ∀ o n left, .write o n left ∈ es → n < ds)
    (hddt : p'.ddt = p.ddt) (hbm : p'.bm = p.bm ∨ p'.bm = p.bm.applyDeferred) :
    Stock env bs ds p' T ∧ ∀ r' b', Good env bs p r' b' → Good env bs p' r' b' := by
  obtain ⟨L, hsp⟩ := h.space
  have hold : Preserved env bs p p' := by
    intro k e b' he hs
    refine hs.of_image hx.blocks (fun n hn => ?_)
    rw [hx.image]
    refine replay_of_not_written (fun o left hm => ?_) _
    have h1 := hes o n left hm
    have h2 := (hsp.entry_in k e he).1
    have h3 := hn.1
    omega
  have hspace : ∃ L, Space ds L p' := by
    rcases hbm with hbm | hbm
    · exact ⟨L, hsp.of_places hbm (fun k => by rw [hddt])⟩
    · exact ⟨_, hsp.of_commit hbm hddt⟩
  refine ⟨⟨hspace, hddt ▸ h.refs, hddt ▸ h.positive, fun k e he => ?_⟩,
    fun r' b' hg => hg.of_place hold fun e he => ⟨e, hddt ▸ he, samePlace_refl e⟩⟩
  rw [hddt] at he
  obtain ⟨b', hb', hs'⟩ := h.stored k e he
  refine ⟨b', ?_, hold _ _ _ he hs'⟩
  rw [hx.trace]
  exact List.mem_append_left _ hb'

end Stock

end Store
end BloomFS

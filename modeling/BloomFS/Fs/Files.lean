/-
What the contents of an inode are.

`Laid good in_ refs blob` says that the inode lists the records `refs`, inline or
in a block map, and that these hold `blob`.  Reading then returns `blob`, whole or
a range of it.
-/
import BloomFS.Fs.Records
import BloomFS.Fs.Stocked

namespace BloomFS
namespace Fs

open Bytes Exec Block Store

variable {env : Env}

/-- The fields that say where the contents are. -/
structure SameData (a b : Inode) : Prop where
  size : a.size = b.size
  log2 : a.recordSizeLog2 = b.recordSizeLog2
  flags : a.flags = b.flags
  blockMap : a.blockMap = b.blockMap

theorem SameData.refl (a : Inode) : SameData a a := ⟨rfl, rfl, rfl, rfl⟩

theorem SameData.isInline {a b : Inode} (h : SameData a b) : isInline a = isInline b := by
  unfold Fs.isInline
  rw [h.flags]

theorem SameData.mapRef {a b : Inode} (h : SameData a b) : mapRef a = mapRef b := by
  unfold Fs.mapRef
  rw [h.blockMap]

theorem SameData.oldContainer {a b : Inode} (h : SameData a b) :
    oldContainer a = oldContainer b := by
  unfold Fs.oldContainer
  rw [h.size, h.isInline, h.mapRef]

theorem forall₂_imp_mem {α β : Type} {R S : α → β → Prop} {l : List α} {l' : List β}
    (h : ∀ a ∈ l, ∀ b, R a b → S a b) (hR : List.Forall₂ R l l') : List.Forall₂ S l l' := by
  induction hR with
  | nil => exact .nil
  | cons hab _ ih =>
    exact .cons (h _ List.mem_cons_self _ hab) (ih fun a ha => h a (List.mem_cons_of_mem _ ha))

/-- The inode lists the records `refs`, which hold `blob`. -/
structure Laid (good : Ref → Bytes → Prop) (in_ : Inode) (refs : List Ref) (blob : Bytes) :
    Prop where
  size : in_.size.toNat = blob.length
  empty : in_.size = 0 → refs = []
  log2 : in_.size ≠ 0 → 12 ≤ in_.recordSizeLog2.toNat ∧ in_.recordSizeLog2.toNat ≤ 15
  records : in_.size ≠ 0 → List.Forall₂ good refs (splitRecords blob (2 ^ in_.recordSizeLog2.toNat))
  inline : in_.size ≠ 0 → isInline in_ = true → refs = [mapRef in_]
  mapped : in_.size ≠ 0 → isInline in_ = false → good (mapRef in_) (encodeRefs refs)
  several : in_.size ≠ 0 → isInline in_ = false → 2 ≤ refs.length

/-- The refs an inode holds: one for each record, and one for its block map. -/
def holdings (in_ : Inode) (refs : List Ref) : List Ref := refs ++ oldContainer in_

/-- The references of an inode. -/
def tokens (in_ : Inode) (refs : List Ref) : Multiset Dedup.Key :=
  ↑((holdings in_ refs).map (·.hash))

section Laid

variable {good good' : Ref → Bytes → Prop} {in_ in' : Inode} {refs : List Ref} {blob : Bytes}

theorem Laid.of_sameData (h : Laid good in_ refs blob) (hs : SameData in_ in') :
    Laid good in' refs blob where
  size := by rw [← hs.size]; exact h.size
  empty := by rw [← hs.size]; exact h.empty
  log2 := by rw [← hs.size, ← hs.log2]; exact h.log2
  records := by rw [← hs.size, ← hs.log2]; exact h.records
  inline := by rw [← hs.size, ← hs.isInline, ← hs.mapRef]; exact h.inline
  mapped := by rw [← hs.size, ← hs.isInline, ← hs.mapRef]; exact h.mapped
  several := by rw [← hs.size, ← hs.isInline]; exact h.several

theorem tokens_of_sameData (hs : SameData in_ in') : tokens in_ refs = tokens in' refs := by
  unfold tokens holdings
  rw [hs.oldContainer]

theorem Laid.mono (h : Laid good in_ refs blob)
    (hg : ∀ r b, r.hash ∈ tokens in_ refs → good r b → good' r b) : Laid good' in_ refs blob where
  size := h.size
  empty := h.empty
  log2 := h.log2
  records hne := by
    have hmem : ∀ r ∈ refs, r.hash ∈ tokens in_ refs := fun r hr =>
      Multiset.mem_coe.mpr (List.mem_map_of_mem (List.mem_append_left _ hr))
    exact forall₂_imp_mem (fun r hr b => hg r b (hmem r hr)) (h.records hne)
  inline := h.inline
  mapped hne hin := by
    refine hg _ _ (Multiset.mem_coe.mpr (List.mem_map_of_mem (List.mem_append_right _ ?_)))
      (h.mapped hne hin)
    unfold oldContainer
    rw [if_pos ⟨hne, by rw [hin]; decide⟩]
    exact List.mem_singleton_self _
  several := h.several

theorem Laid.blob_eq_nil_iff (h : Laid good in_ refs blob) : blob = [] ↔ in_.size = 0 := by
  rw [← List.length_eq_zero_iff, ← h.size]
  constructor
  · intro h0
    exact UInt64.toNat_inj.mp h0
  · intro h0
    rw [h0]
    rfl

theorem Laid.tokens_empty (h : Laid good in_ refs blob) (h0 : in_.size = 0) :
    tokens in_ refs = 0 := by
  unfold tokens holdings oldContainer
  rw [h.empty h0, if_neg (by simp [h0])]
  rfl

theorem Laid.tokens_eq_zero_iff (h : Laid good in_ refs blob) : tokens in_ refs = 0 ↔
    blob = [] := by
  rw [h.blob_eq_nil_iff]
  refine ⟨fun hz => ?_, h.tokens_empty⟩
  by_contra hne
  have hlen : 0 < blob.length := List.length_pos_iff.mpr fun hb => hne (h.blob_eq_nil_iff.mp hb)
  have hcount := (h.records hne).length_eq
  rw [length_splitRecords] at hcount
  have hpos := divCeil_pos (Nat.two_pow_pos in_.recordSizeLog2.toNat) hlen
  have hcard := congrArg Multiset.card hz
  unfold tokens holdings at hcard
  rw [Multiset.coe_card, List.length_map, List.length_append, Multiset.card_zero] at hcard
  omega

/-- Every ref an inode holds is good for a record or for the list of the records. -/
theorem Laid.good_of_mem (h : Laid good in_ refs blob) {r : Ref} (hr : r ∈ holdings in_ refs) :
    ∃ b, good r b ∧ (b ∈ splitRecords blob (2 ^ in_.recordSizeLog2.toNat) ∨
      b = encodeRefs refs) := by
  unfold holdings oldContainer at hr
  rcases List.mem_append.mp hr with hr | hr
  · have hne : in_.size ≠ 0 := by
      intro h0
      rw [h.empty h0] at hr
      cases hr
    obtain ⟨i, rfl⟩ := List.get_of_mem hr
    have hi : i < (splitRecords blob (2 ^ in_.recordSizeLog2.toNat)).length :=
      (h.records hne).length_eq ▸ i.2
    exact ⟨_, (h.records hne).get i.2 hi, .inl (List.get_mem _ ⟨_, hi⟩)⟩
  · by_cases hc : in_.size ≠ 0 ∧ ¬ isInline in_
    · rw [if_pos hc] at hr
      rw [List.mem_singleton.mp hr]
      exact ⟨_, h.mapped hc.1 (Bool.eq_false_iff.mpr hc.2), .inr rfl⟩
    · rw [if_neg hc] at hr
      cases hr

theorem laid_empty (h0 : in_.size = 0) : Laid good in_ [] [] where
  size := by rw [h0]; rfl
  empty _ := rfl
  log2 h := absurd h0 h
  records h := absurd h0 h
  inline h := absurd h0 h
  mapped h := absurd h0 h
  several h := absurd h0 h

theorem laid_inline {r : Ref} (hsize : in_.size.toNat = blob.length) (hne : in_.size ≠ 0)
    (hlog2 : 12 ≤ in_.recordSizeLog2.toNat ∧ in_.recordSizeLog2.toNat ≤ 15)
    (hrec : List.Forall₂ good [r] (splitRecords blob (2 ^ in_.recordSizeLog2.toNat)))
    (hin : isInline in_ = true) (hmap : mapRef in_ = r) : Laid good in_ [r] blob where
  size := hsize
  empty h0 := absurd h0 hne
  log2 _ := hlog2
  records _ := hrec
  inline _ _ := by rw [hmap]
  mapped _ hno := absurd hin (Bool.eq_false_iff.mp hno)
  several _ hno := absurd hin (Bool.eq_false_iff.mp hno)

theorem laid_mapped (hsize : in_.size.toNat = blob.length) (hne : in_.size ≠ 0)
    (hlog2 : 12 ≤ in_.recordSizeLog2.toNat ∧ in_.recordSizeLog2.toNat ≤ 15)
    (hrec : List.Forall₂ good refs (splitRecords blob (2 ^ in_.recordSizeLog2.toNat)))
    (hin : isInline in_ = false) (hmap : good (mapRef in_) (encodeRefs refs))
      (htwo : 2 ≤ refs.length) :
    Laid good in_ refs blob where
  size := hsize
  empty h0 := absurd h0 hne
  log2 _ := hlog2
  records _ := hrec
  inline _ hyes := absurd hyes (Bool.eq_false_iff.mp hin)
  mapped _ _ := hmap
  several _ _ := htwo

end Laid

/-! ## Reading -/

section Reading

variable {s : FS} {in_ : Inode} {refs : List Ref} {blob : Bytes}

theorem mapM_forall₂ {α β ε : Type} {f : α → Except ε β} {l : List α} {l' : List β}
    (h : List.Forall₂ (fun a b => f a = .ok b) l l') : l.mapM f = .ok l' := by
  induction h with
  | nil => rfl
  | cons hab _ ih =>
    rw [List.mapM_cons, hab, ok_bind, ih, ok_bind]
    rfl

theorem Laid.pow_pos (_ : Laid (Names env s) in_ refs blob) : 0 < 2 ^ in_.recordSizeLog2.toNat :=
  Nat.two_pow_pos _

theorem Laid.readMap (hl : env.Lawful) (h : Laid (Names env s) in_ refs blob) (hne : in_.size ≠ 0)
    (hin : isInline in_ = false) : s.readMap env in_ = .ok refs := by
  have hm := h.mapped hne hin
  have hcount : refs.length < 2 ^ 32 := by
    have := hm.short
    rw [length_encodeRefs, refSize] at this
    omega
  unfold FS.readMap
  rw [hm.read hl, ok_bind, decodeRefs_encodeRefs hcount]
  rfl

theorem Laid.loadRefs (hl : env.Lawful) (h : Laid (Names env s) in_ refs blob) :
    s.loadRefs env in_ = .ok refs := by
  unfold FS.loadRefs
  by_cases h0 : in_.size = 0
  · rw [if_pos h0, h.empty h0]
  · rw [if_neg h0]
    cases hin : isInline in_ with
    | true =>
      rw [h.inline h0 hin]
      rfl
    | false => exact h.readMap hl h0 hin

/-- The refs of inode `id`, those of its records read from its block map. -/
def FS.refsOf (env : Env) (s : FS) (id : Nat) : List Ref :=
  holdings (s.inodes.slots id) ((s.loadRefs env (s.inodes.slots id)).toOption.getD [])

theorem Laid.refsOf (hl : env.Lawful) {id : Nat}
    (h : Laid (Names env s) (s.inodes.slots id) refs blob) :
    s.refsOf env id = holdings (s.inodes.slots id) refs := by
  unfold FS.refsOf
  rw [h.loadRefs hl]
  rfl

theorem Laid.getData (hl : env.Lawful) (h : Laid (Names env s) in_ refs blob) :
    s.getData env in_ = .ok blob := by
  unfold FS.getData
  by_cases h0 : in_.size = 0
  · rw [if_pos h0, h.blob_eq_nil_iff.mpr h0]
  · have hrecs : refs.mapM (s.bsRead env) =
        .ok (splitRecords blob (2 ^ in_.recordSizeLog2.toNat)) :=
      mapM_forall₂ ((h.records h0).imp fun _ _ hr => hr.read hl)
    rw [if_neg h0, h.loadRefs hl, ok_bind, hrecs, ok_bind, flatten_splitRecords h.pow_pos]
    rfl

theorem Laid.getElem? (h : Laid (Names env s) in_ refs blob) (hne : in_.size ≠ 0) {i : Nat}
    (hi : i < divCeil blob.length (2 ^ in_.recordSizeLog2.toNat)) :
    ∃ r, refs[i]? = some r ∧
      Names env s r (slice blob (i * 2 ^ in_.recordSizeLog2.toNat)
        (2 ^ in_.recordSizeLog2.toNat)) := by
  have hrec := h.records hne
  have hlen : i < refs.length := by rw [hrec.length_eq, length_splitRecords]; exact hi
  refine ⟨refs.get ⟨i, hlen⟩, List.getElem?_eq_getElem hlen, ?_⟩
  have hget := hrec.get hlen (by rw [length_splitRecords]; exact hi)
  have hsome := getElem?_splitRecords hi
  rw [List.getElem?_eq_getElem (by rw [length_splitRecords]; exact hi)] at hsome
  rw [List.get_eq_getElem, List.get_eq_getElem, Option.some.inj hsome] at hget
  exact hget

theorem Laid.length_lt (h : Laid (Names env s) in_ refs blob) : blob.length < 2 ^ 64 := by
  rw [← h.size]
  exact in_.size.toNat_lt

theorem Laid.readRange (hl : env.Lawful) (h : Laid (Names env s) in_ refs blob) {off stop : Nat}
    (hoff : off < stop) (hstop : stop ≤ blob.length) :
    (List.range' (off / 2 ^ in_.recordSizeLog2.toNat)
        ((stop - 1) / 2 ^ in_.recordSizeLog2.toNat + 1 - off / 2 ^ in_.recordSizeLog2.toNat)).mapM
      (s.readPiece env refs (2 ^ in_.recordSizeLog2.toNat) off stop) =
    .ok ((List.range' (off / 2 ^ in_.recordSizeLog2.toNat)
        ((stop - 1) / 2 ^ in_.recordSizeLog2.toNat + 1 - off / 2 ^ in_.recordSizeLog2.toNat)).map
      fun i => slice blob (max off (i * 2 ^ in_.recordSizeLog2.toNat))
        (min stop ((i + 1) * 2 ^ in_.recordSizeLog2.toNat) -
          max off (i * 2 ^ in_.recordSizeLog2.toNat))) := by
  have hpos := h.pow_pos
  have hne : in_.size ≠ 0 := by
    intro h0
    rw [h.blob_eq_nil_iff.mpr h0, List.length_nil] at hstop
    omega
  refine mapM_ok (fun i hi => ?_)
  rw [List.mem_range'_1] at hi
  generalize hrs : 2 ^ in_.recordSizeLog2.toNat = rs at *
  have hlast : i * rs < stop := by
    have h1 : i ≤ (stop - 1) / rs := by omega
    have h2 := (Nat.le_div_iff_mul_le hpos).mp h1
    omega
  obtain ⟨r, hr, hn⟩ := h.getElem? hne (i := i) (by
    rw [hrs, lt_divCeil_iff hpos]
    omega)
  rw [hrs] at hn
  have hlt := h.length_lt
  have hmul : (i + 1) * rs = i * rs + rs := Nat.succ_mul _ _
  unfold FS.readPiece
  rw [hr]
  dsimp only
  rw [hn.read hl, ok_bind, if_neg (by rw [length_slice]; omega)]
  show Except.ok _ = _
  congr 1
  -- the record may be cut short at the end of the contents, the range is not
  have hend : min stop (i * rs + min rs (blob.length - i * rs)) = min stop (i * rs + rs) := by omega
  rw [length_slice, hend, hmul]
  split
  · next hlo =>
    rw [slice_slice (by omega), Nat.add_sub_cancel' (Nat.le_max_right _ _)]
  · next hlo =>
    symm
    rw [← List.length_eq_zero_iff, length_slice]
    omega

end Reading

end Fs
end BloomFS

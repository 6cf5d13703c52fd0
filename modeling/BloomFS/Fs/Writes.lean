/-
What the writing routines do to the contents of one inode.

Every routine stores its new records first and drops the old ones last.  The
references of the other inodes are a frame `R`, and what they name stays.
-/
import BloomFS.Fs.Files

namespace BloomFS
namespace Fs

open Bytes Exec Block Store

variable {env : Env} {B : Budget} {l : List Charge} {left : Nat} {s : FS} {T R : Multiset Dedup.Key}

def keys (refs : List Ref) : Multiset Dedup.Key := ↑(refs.map (·.hash))

theorem keys_cons (r : Ref) (refs : List Ref) : keys (r :: refs) = r.hash ::ₘ keys refs := rfl

theorem keys_append (a b : List Ref) : keys (a ++ b) = keys a + keys b := by
  unfold keys
  rw [List.map_append, Multiset.coe_add]

theorem tokens_eq (in_ : Inode) (refs : List Ref) :
    tokens in_ refs = keys refs + keys (oldContainer in_) := keys_append _ _

def priceAll (bs : List Bytes) : Nat := (bs.map fun b => priceOf b.length).sum

theorem writeAll_under {bs : List Bytes} (hfits : B.fits l) (hs : Stocked env s T)
    (hcov : ∀ b ∈ bs, ∃ c ∈ l, c.Covers b) (hlog : Logged l (priceAll bs + left) s.dev.trace) :
    Under (calm env B) (bs.mapM bsWrite) s
      (fun refs s' => Kept env s s' ∧ Stocked env s' (keys refs + T) ∧
        List.Forall₂ (Names env s') refs bs ∧ Logged l left s'.dev.trace)
      (fun f s' => Halt env B f s') := by
  refine (under_mapM (E := fun f s' => Halt env B f s') (fun done refs s' => Kept env s s' ∧
    Stocked env s' (keys refs + T) ∧ List.Forall₂ (Names env s') refs done ∧
    Logged l (priceAll (bs.drop done.length) + left) s'.dev.trace) ?_ ?_).mono ?_ (fun _ _ h => h)
  · rintro done b rest refs s₁ hbs - ⟨hk, hst, hn, hlog₁⟩
    have hdrop : bs.drop done.length = b :: rest := by
      rw [← hbs, List.drop_left]
    have hb : b ∈ bs := by
      rw [← hbs]
      exact List.mem_append_right _ List.mem_cons_self
    rw [hdrop] at hlog₁
    have hprice : priceAll (b :: rest) + left = priceOf b.length + (priceAll rest + left) := by
      unfold priceAll
      rw [List.map_cons, List.sum_cons, Nat.add_assoc]
    rw [hprice] at hlog₁
    refine (bsWrite_under hfits hst (hcov b hb) hlog₁).mono ?_ (fun _ _ h => h)
    rintro r s₂ ⟨hk₂, hst₂, hr, hlog₂⟩
    refine ⟨hk.trans hk₂, ?_, ?_, ?_⟩
    · have hkey : env.blake3 b = r.hash := Good.key hr
      rw [hkey] at hst₂
      have heq : keys (refs ++ [r]) + T = r.hash ::ₘ (keys refs + T) := by
        rw [keys_append, Multiset.add_assoc, add_left_comm]
        exact Multiset.singleton_add _ _
      rw [heq]
      exact hst₂
    · refine List.rel_append (hn.imp fun r b h => hk₂.names r b h) (.cons hr .nil)
    · have hdrop₂ : bs.drop (done ++ [b]).length = rest := by
        rw [← hbs, List.append_cons done b rest, List.drop_left]
      rw [hdrop₂]
      exact hlog₂
  · refine ⟨.refl s, ?_, .nil, hlog⟩
    have h0 : keys [] + T = T := zero_add T
    rw [h0]
    exact hs
  · rintro refs s' ⟨hk, hst, hn, hlog'⟩
    rw [List.drop_length] at hlog'
    exact ⟨hk, hst, hn, hlog'.mono (Nat.le_add_left _ _)⟩

theorem releaseAll_under {refs : List Ref} {E : Fault Error → FS → Prop}
    (hs : Stocked env s (keys refs + R)) :
    Under (calm env B) (refs.forM bsRelease) s
      (fun _ s' => Beside s s' ∧ s'.dev = s.dev ∧ Stocked env s' R ∧
        ∀ r b, r.hash ∈ R → Names env s r b → Names env s' r b) E := by
  refine (under_forM (E := E) (fun done s' => Beside s s' ∧ s'.dev = s.dev ∧
    Stocked env s' (keys (refs.drop done.length) + R) ∧
    ∀ r b, r.hash ∈ keys (refs.drop done.length) + R → Names env s r b → Names env s' r b)
    ?_ ?_).mono ?_ (fun _ _ h => h)
  · rintro done r rest s₁ hrefs - ⟨hb, hdev, hst, hn⟩
    have hdrop : refs.drop done.length = r :: rest := by
      rw [← hrefs, List.drop_left]
    have hdrop₂ : refs.drop (done ++ [r]).length = rest := by
      rw [← hrefs, List.append_cons done r rest, List.drop_left]
    have herase : (keys (r :: rest) + R).erase r.hash = keys rest + R := by
      rw [keys_cons, Multiset.cons_add, Multiset.erase_cons_head]
    rw [hdrop] at hst hn
    rw [hdrop₂]
    refine (bsRelease_under hst
      (by rw [keys_cons, Multiset.cons_add]; exact Multiset.mem_cons_self _ _)).mono
      ?_ (fun _ _ h => h)
    rintro - s₂ ⟨hb₂, hdev₂, hst₂, hn₂⟩
    rw [herase] at hst₂ hn₂
    refine ⟨hb.trans hb₂, hdev₂.trans hdev, hst₂, fun r' b' hr' h => hn₂ r' b' hr' (hn r' b' ?_ h)⟩
    rw [keys_cons, Multiset.cons_add]
    exact Multiset.mem_cons_of_mem hr'
  · exact ⟨.refl s, rfl, hs, fun _ _ _ h => h⟩
  · rintro - s' ⟨hb, hdev, hst, hn⟩
    have h0 : keys (refs.drop refs.length) + R = R := by
      rw [List.drop_length]
      exact zero_add R
    rw [h0] at hst hn
    exact ⟨hb, hdev, hst, hn⟩

/-! ## The block map -/

theorem toList_toVec_of_le {n : Nat} {b : Bytes} (h : b.length ≤ n) :
    (toVec n b).toList = b ++ List.replicate (n - b.length) 0 := by
  refine ext_getD (by simp; omega) (fun i hi => ?_)
  have hi' : i < n := by simpa using hi
  have hget : (toVec n b).toList.getD i 0 = b.getD i 0 := by
    rw [List.getD_eq_getElem _ _ hi]
    simp [toVec]
  rw [hget, getD_extend]

theorem mapRef_of_blockMap {in_ : Inode} {r : Ref} (h : in_.blockMap = mapOf r) :
    mapRef in_ = r := by
  unfold mapRef mapOf at *
  rw [h, toList_toVec_of_le (by rw [Ref.length_marshal]; decide),
    List.take_left' (Ref.length_marshal r)]
  have := Ref.unmarshal_marshal_append r []
  rwa [List.append_nil] at this

theorem inline_set (f : UInt8) :
    (f &&& ~~~ Inode.flagInlineExtents ||| Inode.flagInlineExtents)
    &&& Inode.flagInlineExtents ≠ 0 := by
  obtain ⟨f⟩ := f
  revert f
  decide

theorem inline_clear (f : UInt8) :
    f &&& ~~~ Inode.flagInlineExtents &&& Inode.flagInlineExtents = 0 := by
  obtain ⟨f⟩ := f
  revert f
  decide

/-- The fields that are not about the contents. -/
structure SameMeta (a b : Inode) : Prop where
  nlink : b.nlink = a.nlink
  generation : b.generation = a.generation
  uid : b.uid = a.uid
  gid : b.gid = a.gid
  atime : b.atime = a.atime
  mtime : b.mtime = a.mtime
  ctime : b.ctime = a.ctime
  mode : b.mode = a.mode
  kind : b.kind = a.kind

theorem toNat_ofNat_length {blob : Bytes} (h : blob.length < 2 ^ 64) :
    (UInt64.ofNat blob.length).toNat = blob.length := UInt64.toNat_ofNat_of_lt' h

theorem ofNat_length_ne_zero {blob : Bytes} (h : blob.length < 2 ^ 64) (hne : blob ≠ []) :
    UInt64.ofNat blob.length ≠ 0 := by
  intro h0
  have := toNat_ofNat_length h
  rw [h0] at this
  exact hne (List.length_eq_zero_iff.mp this.symm)

theorem keys_oldContainer_empty {new : Inode} (h : new.size = 0 ∨ isInline new = true) :
    keys (oldContainer new) + T = T := by
  have hno : ¬ (new.size ≠ 0 ∧ ¬ isInline new = true) := fun ⟨h1, h2⟩ => h.elim h1 h2
  unfold oldContainer
  rw [if_neg hno]
  exact zero_add T

theorem keys_oldContainer {new : Inode} (hsize : new.size ≠ 0) (hin : isInline new = false) :
    keys (oldContainer new) + T = (mapRef new).hash ::ₘ T := by
  unfold oldContainer
  rw [if_pos ⟨hsize, by rw [hin]; decide⟩]
  exact Multiset.singleton_add _ _

/-- Recording a list of refs as the contents of an inode. -/
theorem storeRefs_under {in_ : Inode} {refs : List Ref} {blob : Bytes} {log2 : UInt8}
    (hfits : B.fits l) (hs : Stocked env s T) (hlen : blob.length < 2 ^ 64)
    (hlog2 : blob ≠ [] → 12 ≤ log2.toNat ∧ log2.toNat ≤ 15)
    (hrefs : List.Forall₂ (Names env s) refs (splitRecords blob (2 ^ log2.toNat)))
    (hcov : 2 ≤ refs.length → .map refs.length ∈ l)
    (hlog : Logged l ((if 2 ≤ refs.length then priceOf (4 + refs.length * refSize) else 0) + left)
      s.dev.trace) :
    Under (calm env B) (storeRefs in_ refs (UInt64.ofNat blob.length) log2) s
      (fun new s' => Kept env s s' ∧ Stocked env s' (keys (oldContainer new) + T) ∧
        Laid (Names env s') new refs blob ∧ SameMeta in_ new ∧ Logged l left s'.dev.trace)
      (fun f s' => Halt env B f s') := by
  have hcount := hrefs.length_eq
  rw [length_splitRecords] at hcount
  have hpos : 0 < 2 ^ log2.toNat := Nat.two_pow_pos _
  have hnil : blob = [] → refs = [] := by
    rintro rfl
    rw [List.length_nil, divCeil_zero] at hcount
    exact List.length_eq_zero_iff.mp hcount
  rcases refs with _ | ⟨r, _ | ⟨r', rest⟩⟩
  · -- no records
    have hblob : blob = [] := by
      by_contra hne
      have := divCeil_pos hpos (List.length_pos_iff.mpr hne)
      rw [List.length_nil] at hcount
      omega
    subst hblob
    refine under_pure ⟨.refl s, ?_, laid_empty rfl, ⟨rfl, rfl, rfl, rfl, rfl, rfl, rfl, rfl, rfl⟩,
      hlog.mono (by simp)⟩
    rw [keys_oldContainer_empty (.inl rfl)]
    exact hs
  · -- one record, inline
    have hne : blob ≠ [] := fun h => by simpa using hnil h
    have hsize := ofNat_length_ne_zero hlen hne
    obtain ⟨new, hnew⟩ : ∃ new : Inode, new = { in_ with
        blockMap := mapOf r
        flags := in_.flags &&& ~~~ Inode.flagInlineExtents ||| Inode.flagInlineExtents
        size := UInt64.ofNat blob.length, recordSizeLog2 := log2 } := ⟨_, rfl⟩
    have hshape : (storeRefs in_ [r] (UInt64.ofNat blob.length) log2 : Act env Inode) =
        pure new := by
      rw [hnew]
      rfl
    have hin : isInline new = true := by
      rw [hnew]
      exact bne_iff_ne.mpr (inline_set _)
    rw [hshape]
    refine under_pure ⟨.refl s, ?_, ?_, ?_, hlog.mono (by simp)⟩
    · rw [keys_oldContainer_empty (.inr hin)]
      exact hs
    · have hmap : mapRef new = r := mapRef_of_blockMap (by rw [hnew])
      refine laid_inline ?_ ?_ ?_ ?_ hin hmap
      · rw [hnew]
        exact toNat_ofNat_length hlen
      · rw [hnew]
        exact hsize
      · rw [hnew]
        exact hlog2 hne
      · rw [hnew]
        exact hrefs
    · rw [hnew]
      exact ⟨rfl, rfl, rfl, rfl, rfl, rfl, rfl, rfl, rfl⟩
  · -- several records, listed in a block map
    have hne : blob ≠ [] := fun h => by simpa using hnil h
    have hsize := ofNat_length_ne_zero hlen hne
    generalize hrs : r :: r' :: rest = refs at *
    have htwo : 2 ≤ refs.length := by rw [← hrs]; simp
    rw [if_pos htwo, ← length_encodeRefs] at hlog
    rw [storeRefs_several htwo]
    refine under_bind (bsWrite_under hfits hs ⟨_, hcov htwo, length_encodeRefs refs⟩ hlog)
      (fun m s₁ _ h₁ => ?_) (fun _ _ h => h)
    obtain ⟨hk, hst, hm, hlog₁⟩ := h₁
    obtain ⟨new, hnew⟩ : ∃ new : Inode, new = { in_ with
        blockMap := mapOf m, flags := in_.flags &&& ~~~ Inode.flagInlineExtents
        size := UInt64.ofNat blob.length, recordSizeLog2 := log2 } := ⟨_, rfl⟩
    have hin : isInline new = false := by
      rw [hnew]
      exact bne_eq_false_iff_eq.mpr (inline_clear _)
    have hmap : mapRef new = m := mapRef_of_blockMap (by rw [hnew])
    rw [← hnew]
    refine under_pure ⟨hk, ?_, ?_, ?_, hlog₁⟩
    · rw [keys_oldContainer (by rw [hnew]; exact hsize) hin, hmap, ← Good.key hm]
      exact hst
    · refine laid_mapped ?_ ?_ ?_ ?_ hin (by rw [hmap]; exact hm) htwo
      · rw [hnew]
        exact toNat_ofNat_length hlen
      · rw [hnew]
        exact hsize
      · rw [hnew]
        exact hlog2 hne
      · rw [hnew]
        exact hrefs.imp fun r b h => hk.names r b h
    · rw [hnew]
      exact ⟨rfl, rfl, rfl, rfl, rfl, rfl, rfl, rfl, rfl⟩

theorem releaseData_under {in_ : Inode} {refs : List Ref} {blob : Bytes}
    {E : Fault Error → FS → Prop} (hl : env.Lawful) (hs : Stocked env s (tokens in_ refs + R))
    (hlaid : Laid (Names env s) in_ refs blob) :
    Under (calm env B) (releaseData in_) s
      (fun _ s' => Beside s s' ∧ s'.dev = s.dev ∧ Stocked env s' R ∧
        ∀ r b, r.hash ∈ R → Names env s r b → Names env s' r b) E := by
  rw [tokens_eq] at hs
  refine under_ite (fun h0 => ?_) (fun h0 => under_ite (fun hin => ?_) (fun hin => ?_))
  · rw [Multiset.add_assoc, keys_oldContainer_empty (.inl h0), hlaid.empty h0] at hs
    have hzero : keys [] + R = R := zero_add R
    rw [hzero] at hs
    exact under_pure ⟨.refl s, rfl, hs, fun _ _ _ h => h⟩
  · rw [Multiset.add_assoc, keys_oldContainer_empty (.inr hin), hlaid.inline h0 hin] at hs
    have hcons : keys [mapRef in_] + R = (mapRef in_).hash ::ₘ R := Multiset.singleton_add _ _
    rw [hcons] at hs
    have herase : ((mapRef in_).hash ::ₘ R).erase (mapRef in_).hash = R :=
      Multiset.erase_cons_head _ _
    refine (bsRelease_under hs (Multiset.mem_cons_self _ _)).mono ?_ (fun _ _ h => h)
    rintro - s' ⟨hb, hdev, hst, hn⟩
    rw [herase] at hst hn
    exact ⟨hb, hdev, hst, hn⟩
  · have hfalse : isInline in_ = false := Bool.eq_false_iff.mpr hin
    rw [Multiset.add_assoc, keys_oldContainer h0 hfalse] at hs
    refine under_get_bind (under_bind (Q := fun rs s' => rs = refs ∧ s' = s) (E := E)
      (under_ok (hlaid.readMap hl h0 hfalse) ⟨rfl, rfl⟩) (fun rs s₀ _ h₀ => ?_) (fun _ _ h => h))
    obtain ⟨rfl, rfl⟩ := h₀
    refine under_bind (releaseAll_under hs) (fun _ s₁ _ h₁ => ?_) (fun _ _ h => h)
    obtain ⟨hb₁, hdev₁, hst₁, hn₁⟩ := h₁
    have herase : ((mapRef in_).hash ::ₘ R).erase (mapRef in_).hash = R :=
      Multiset.erase_cons_head _ _
    refine (bsRelease_under hst₁ (Multiset.mem_cons_self _ _)).mono ?_ (fun _ _ h => h)
    rintro - s' ⟨hb, hdev, hst, hn⟩
    rw [herase] at hst hn
    exact ⟨hb₁.trans hb, hdev.trans hdev₁, hst,
      fun r b hr h => hn r b hr (hn₁ r b (Multiset.mem_cons_of_mem hr) h)⟩

/-! ## Replacing the contents -/

/-- What it takes to store `blob` in records of `2 ^ k` bytes. -/
def chargeAt (blob : Bytes) (k : Nat) : List Charge :=
  (splitRecords blob (2 ^ k)).map .record ++
    if 2 ≤ (splitRecords blob (2 ^ k)).length then [.map (splitRecords blob (2 ^ k)).length] else []

/-- What it takes to store `blob`, whatever the record size. -/
def charge (blob : Bytes) : List Charge :=
  chargeAt blob 12 ++ chargeAt blob 13 ++ chargeAt blob 14 ++ chargeAt blob 15

theorem chargeAt_subset {k : Nat} (h : 12 ≤ k ∧ k ≤ 15) (blob : Bytes) :
    chargeAt blob k ⊆ charge blob ∧ price (chargeAt blob k) ≤ price (charge blob) := by
  have hk : k = 12 ∨ k = 13 ∨ k = 14 ∨ k = 15 := by omega
  unfold charge
  rw [price_append, price_append, price_append]
  rcases hk with rfl | rfl | rfl | rfl
  · exact ⟨fun _ h => by simp [h], by omega⟩
  · exact ⟨fun _ h => by simp [h], by omega⟩
  · exact ⟨fun _ h => by simp [h], by omega⟩
  · exact ⟨fun _ h => by simp [h], by omega⟩

theorem chargeAt_nil (k : Nat) : chargeAt [] k = [] := by
  unfold chargeAt
  rw [splitRecords_nil]
  rfl

theorem map_mem_chargeAt {blob : Bytes} {k : Nat} (h : 2 ≤ (splitRecords blob (2 ^ k)).length) :
    .map (splitRecords blob (2 ^ k)).length ∈ chargeAt blob k := by
  unfold chargeAt
  rw [if_pos h]
  exact List.mem_append_right _ List.mem_cons_self

theorem price_chargeAt (blob : Bytes) (k : Nat) :
    price (chargeAt blob k) = priceAll (splitRecords blob (2 ^ k)) +
      if 2 ≤ (splitRecords blob (2 ^ k)).length then
        priceOf (4 + (splitRecords blob (2 ^ k)).length * refSize) else 0 := by
  unfold chargeAt
  rw [price_append]
  congr 1
  · unfold price priceAll
    rw [List.map_map]
    rfl
  · split
    · exact Nat.add_zero _
    · rfl

theorem recordSizeFor_spec (n : Nat) :
    (recordSizeFor n).1 = 2 ^ (recordSizeFor n).2.toNat ∧ 12 ≤ (recordSizeFor n).2.toNat ∧
      (recordSizeFor n).2.toNat ≤ 15 := by
  unfold recordSizeFor
  repeat' split
  all_goals exact ⟨by decide, by decide, by decide⟩

theorem chunk_spec (blob : Bytes) :
    (chunk blob).1 = splitRecords blob (2 ^ (chunk blob).2.toNat) ∧
      (blob ≠ [] → 12 ≤ (chunk blob).2.toNat ∧ (chunk blob).2.toNat ≤ 15) := by
  have hspec := recordSizeFor_spec blob.length
  unfold chunk
  by_cases h : blob = []
  · subst h
    exact ⟨(splitRecords_nil _).symm, fun h => absurd rfl h⟩
  · rw [if_neg (by simpa using h)]
    exact ⟨by rw [← hspec.1], fun _ => hspec.2⟩

/-- The state after slot `id` was written at the next clock reading, as far as the
store's calls leave it alone. -/
def PutAt (s : FS) (id : Nat) (in_ : Inode) (s' : FS) : Prop :=
  Beside ({ s with ticks := s.ticks + 1 }.setInode id in_) s'

/-- The inode after a change of its contents at time `t`. -/
def Touched (t : UInt64) (in_ new : Inode) : Prop :=
  SameMeta { in_ with mtime := t, ctime := t } new

theorem SamePool.trans {s₁ s₂ s₃ : FS} (h : SamePool s₁ s₂) (h' : SamePool s₂ s₃) :
    SamePool s₁ s₃ where
  dev := h'.dev.trans h.dev
  bm := h'.bm.trans h.bm
  ddt := h'.ddt.trans h.ddt
  bs := h'.bs.trans h.bs
  ub := by
    obtain ⟨n, hn⟩ := h.ub
    obtain ⟨m, hm⟩ := h'.ub
    exact ⟨m, by rw [hm, hn]⟩
  cap := h'.cap.trans h.cap

theorem ticks_samePool (s : FS) : SamePool s { s with ticks := s.ticks + 1 } :=
  ⟨rfl, rfl, rfl, rfl, ⟨_, rfl⟩, rfl⟩

theorem touchMod_under {in_ : Inode} {Q : Inode → FS → Prop} {E : Fault Error → FS → Prop}
    (h : Q { in_ with mtime := env.clock s.ticks, ctime := env.clock s.ticks }
      { s with ticks := s.ticks + 1 }) : Under (calm env B) (touchMod in_) s Q E :=
  under_of_run rfl h

/-- Beside a state, with a slot and the clock changed on both sides. -/
theorem Beside.put {s s₁ : FS} (h : Beside s s₁) {id : Nat} {new : Inode}
    (hid : id < s.inodes.cap) :
    PutAt s id new ({ s₁ with ticks := s₁.ticks + 1 }.setInode id new) := by
  have hid₁ : id < s₁.inodes.cap := by rw [h.inodes]; exact hid
  unfold PutAt
  rw [setInode_of_lt (s := { s with ticks := s.ticks + 1 }) hid,
    setInode_of_lt (s := { s₁ with ticks := s₁.ticks + 1 }) hid₁]
  obtain ⟨h1, h2, h3, h4, h5, h6, h7, h8, h9, h10, h11⟩ := h
  refine ⟨?_, h2, h3, h4, ?_, h6, h7, h8, h9, h10, h11⟩
  · simp only [h1]
  · show s₁.ticks + 1 = s.ticks + 1
    rw [h5]

/-- The contents of slot `id` are now `blob`, and the frame `R` is as it was. -/
structure Rewrote (env : Env) (l : List Charge) (left : Nat) (R : Multiset Dedup.Key) (s : FS)
    (id : Nat) (in_ : Inode) (blob : Bytes) (new : Inode) (s' : FS) : Prop where
  put : PutAt s id new s'
  touched : Touched (env.clock s.ticks) in_ new
  laid : ∃ refs, Laid (Names env s') new refs blob ∧ Stocked env s' (tokens new refs + R)
  names : ∀ r b, r.hash ∈ R → Names env s r b → Names env s' r b
  logged : Logged l left s'.dev.trace

/-- The inode table is written last, under a new timestamp. -/
theorem touch_put_under {β : Type} {id : Nat} {in_ new : Inode} {refs : List Ref} {blob : Bytes}
    {s₁ : FS} {k : Inode → Act env β} {Q : β → FS → Prop} {E : Fault Error → FS → Prop}
    (hid : id < s.inodes.cap) (hb : Beside s s₁) (hmeta : SameMeta in_ new)
    (hlaid : Laid (Names env s₁) new refs blob) (hst : Stocked env s₁ (tokens new refs + R))
    (hnames : ∀ r b, r.hash ∈ R → Names env s r b → Names env s₁ r b)
    (hlog : Logged l left s₁.dev.trace)
    (hk : ∀ new' s', Rewrote env l left R s id in_ blob new' s' → SameData new new' →
      Laid (Names env s') new' refs blob → Under (calm env B) (k new') s' Q E) :
    Under (calm env B) (do
      let new ← touchMod new
      putInode id new
      k new) s₁ Q E := by
  obtain ⟨new', hnew'⟩ : ∃ n : Inode, n = { new with
      mtime := env.clock s₁.ticks, ctime := env.clock s₁.ticks } := ⟨_, rfl⟩
  refine under_bind (Q := fun n s' => n = new' ∧ s' = { s₁ with ticks := s₁.ticks + 1 }) (E := E)
    (touchMod_under ⟨hnew'.symm, rfl⟩) (fun n s₂ _ h₂ => ?_) (fun _ _ h => h)
  obtain ⟨rfl, rfl⟩ := h₂
  have hid₁ : id < s₁.inodes.cap := by rw [hb.inodes]; exact hid
  refine under_bind (Q := fun _ s' => s' = { s₁ with ticks := s₁.ticks + 1 }.setInode id n) (E := E)
    (under_of_run (putInode_of_lt (s := { s₁ with ticks := s₁.ticks + 1 }) hid₁ _) rfl)
    (fun _ s₃ _ h₃ => ?_) (fun _ _ h => h)
  have hpool : SamePool s₁ s₃ := by
    rw [h₃]
    exact (ticks_samePool s₁).trans (setInode_samePool _ _ _)
  have hsame : SameData new n := by
    rw [hnew']
    exact ⟨rfl, rfl, rfl, rfl⟩
  have hlaid₃ : Laid (Names env s₃) n refs blob :=
    (hlaid.of_sameData hsame).mono fun r b _ hn => hn.of_samePool hpool
  refine hk n s₃ ⟨?_, ?_, ⟨refs, hlaid₃, ?_⟩, fun r b hr hn => (hnames r b hr hn).of_samePool hpool,
    ?_⟩ hsame hlaid₃
  · rw [h₃]
    exact hb.put hid
  · rw [hnew', hb.ticks]
    exact ⟨hmeta.nlink, hmeta.generation, hmeta.uid, hmeta.gid, hmeta.atime, rfl, rfl, hmeta.mode,
      hmeta.kind⟩
  · rw [← tokens_of_sameData hsame]
    exact hst.of_samePool hpool
  · rw [hpool.dev]
    exact hlog

theorem tokens_swap {in_ new : Inode} {refs refs' : List Ref} :
    keys (oldContainer new) + (keys refs' + (tokens in_ refs + R)) =
      tokens in_ refs + (tokens new refs' + R) := by
  rw [tokens_eq new refs']
  ac_rfl

theorem setData_under {id : Nat} {in_ : Inode} {refs : List Ref} {blob new : Bytes}
    (hl : env.Lawful) (hfits : B.fits (l ++ charge new))
    (hs : Stocked env s (tokens in_ refs + R)) (hlaid : Laid (Names env s) in_ refs blob)
    (hlog : Logged l left s.dev.trace) (hid : id < s.inodes.cap) (hlen : new.length < 2 ^ 64) :
    Under (calm env B) (setData id in_ new) s
      (fun _ s' => ∃ in', Rewrote env (l ++ charge new) left R s id in_ new in' s')
      (fun f s' => Halt env B f s') := by
  obtain ⟨hrecs, hlog2⟩ := chunk_spec new
  unfold setData
  rw [if_neg (by omega)]
  generalize hk : (chunk new).2 = log2 at *
  rw [hrecs]
  -- what is charged covers the records and the block map
  have hcharge : ∀ c ∈ chargeAt new log2.toNat, c ∈ l ++ charge new := by
    intro c hc
    by_cases hne : new = []
    · subst hne
      rw [chargeAt_nil] at hc
      cases hc
    · exact List.mem_append_right _ ((chargeAt_subset (hlog2 hne) new).1 hc)
  have hprice : price (chargeAt new log2.toNat) ≤ price (charge new) := by
    by_cases hne : new = []
    · subst hne
      rw [chargeAt_nil]
      exact Nat.zero_le _
    · exact (chargeAt_subset (hlog2 hne) new).2
  rw [price_chargeAt] at hprice
  have hlog₀ : Logged (l ++ charge new) (priceAll (splitRecords new (2 ^ log2.toNat)) +
      ((if 2 ≤ (splitRecords new (2 ^ log2.toNat)).length then
        priceOf (4 + (splitRecords new (2 ^ log2.toNat)).length * refSize) else 0) + left))
      s.dev.trace := (hlog.append _).mono (by omega)
  refine under_bind (writeAll_under hfits hs (fun b hb => ⟨.record b, hcharge _ ?_, rfl⟩) hlog₀)
    (fun refs' s₁ _ h₁ => ?_) (fun _ _ h => h)
  · exact List.mem_append_left _ (List.mem_map_of_mem hb)
  obtain ⟨hk₁, hst₁, hn₁, hlog₁⟩ := h₁
  rw [← hn₁.length_eq] at hlog₁
  refine under_bind (storeRefs_under hfits hst₁ hlen hlog2 hn₁ (fun htwo => hcharge _ ?_) hlog₁)
    (fun new' s₂ _ h₂ => ?_) (fun _ _ h => h)
  · rw [hn₁.length_eq] at htwo ⊢
    exact map_mem_chargeAt htwo
  obtain ⟨hk₂, hst₂, hlaid₂, hmeta, hlog₂⟩ := h₂
  rw [tokens_swap] at hst₂
  have hkept := hk₁.trans hk₂
  refine under_bind (releaseData_under hl hst₂ (hlaid.mono fun r b _ h => hkept.names r b h))
    (fun _ s₃ _ h₃ => ?_) (fun _ _ h => h)
  obtain ⟨hb₃, hdev₃, hst₃, hn₃⟩ := h₃
  have hlast := touch_put_under (k := fun _ => pure ()) (B := B)
    (Q := fun _ s' => ∃ in', Rewrote env (l ++ charge new) left R s id in_ new in' s')
    (E := fun f s' => Halt env B f s') hid (hkept.beside.trans hb₃) hmeta
    (hlaid₂.mono fun r b hr hn => hn₃ r b (Multiset.mem_add.mpr (.inl hr)) hn) hst₃
    (fun r b hr hn => hn₃ r b (Multiset.mem_add.mpr (.inr hr)) (hkept.names r b hn))
    (by rw [hdev₃]; exact hlog₂) (fun new₃ s₄ h₄ _ _ => under_pure ⟨new₃, h₄⟩)
  simpa only [bind_pure_unit] using hlast

/-! ## Writing a range -/

theorem keys_nil_add (M : Multiset Dedup.Key) : keys [] + M = M := zero_add M

theorem writeRecord_under {refs : List Ref} {blob data : Bytes} {off k i : Nat} (hl : env.Lawful)
    (hfits : B.fits l) (hs : Stocked env s T)
    (hrec : List.Forall₂ (Names env s) refs (splitRecords blob (2 ^ k)))
    (hi : i * 2 ^ k < max blob.length (off + data.length))
    (hend : 2 ^ 64 ≤ i * 2 ^ k + 2 ^ k → 2 ^ 32 ≤ price l + 1)
    (hcov : ∃ c ∈ l, c.Covers (slice (overwrite blob off data) (i * 2 ^ k) (2 ^ k)))
    (hlog : Logged l (priceOf (slice (overwrite blob off data) (i * 2 ^ k) (2 ^ k)).length + left)
      s.dev.trace) :
    Under (calm env B) (writeRecord refs blob.length (max blob.length (off + data.length)) (2 ^ k)
        off data i) s
      (fun out s' => Kept env s s' ∧
        Names env s' out.1 (slice (overwrite blob off data) (i * 2 ^ k) (2 ^ k)) ∧
        Logged l left s'.dev.trace ∧
        ∃ W, Stocked env s' (W + T) ∧ keys refs[i]?.toList + W = keys out.2 + {out.1.hash})
      (fun f s' => Halt env B f s') := by
  have hpos : 0 < 2 ^ k := Nat.two_pow_pos _
  have hcount := hrec.length_eq
  rw [length_splitRecords] at hcount
  have hmerge : mergeRecord (slice blob (i * 2 ^ k) (2 ^ k)) (i * 2 ^ k)
      (min (i * 2 ^ k + 2 ^ k) (max blob.length (off + data.length))) off data =
      slice (overwrite blob off data) (i * 2 ^ k) (2 ^ k) := mergeRecord_eq rfl (by omega)
  unfold writeRecord
  dsimp only
  refine under_ite (fun hbig => under_panic (.saturated l hfits (hend hbig))) (fun _ => ?_)
  cases hri : refs[i]? with
  | none =>
    have hge : divCeil blob.length (2 ^ k) ≤ i := by
      rw [← hcount]
      exact List.getElem?_eq_none_iff.mp hri
    have hpast : blob.length ≤ i * 2 ^ k := by
      by_contra hlt
      have := (lt_divCeil_iff hpos).mpr (by omega : i * 2 ^ k < blob.length)
      omega
    rw [slice_eq_nil hpast] at hmerge
    dsimp only
    rw [hmerge]
    refine under_bind (bsWrite_under hfits hs hcov hlog) (fun r s₁ _ h₁ => ?_) (fun _ _ h => h)
    obtain ⟨hk₁, hst₁, hr₁, hlog₁⟩ := h₁
    rw [Good.key hr₁] at hst₁
    exact under_pure ⟨hk₁, hr₁, hlog₁, {r.hash}, by rwa [Multiset.singleton_add],
      by rw [Option.toList_none, keys_nil_add]⟩
  | some old =>
    have hlt : i < divCeil blob.length (2 ^ k) := by
      rw [← hcount]
      exact (List.getElem?_eq_some_iff.mp hri).1
    have hold : Names env s old (slice blob (i * 2 ^ k) (2 ^ k)) := by
      obtain ⟨hlen, hget⟩ := List.getElem?_eq_some_iff.mp hri
      have hsome := getElem?_splitRecords hlt
      obtain ⟨hlen', hget'⟩ := List.getElem?_eq_some_iff.mp hsome
      have hrel := hrec.get hlen hlen'
      rw [List.get_eq_getElem, List.get_eq_getElem] at hrel
      rw [← hget, ← hget']
      exact hrel
    have hone : keys (some old).toList = {old.hash} := rfl
    dsimp only
    refine under_ite (fun hcarry => ?_) (fun hcarry => ?_)
    · refine under_pure ⟨.refl s, ?_, hlog.mono (Nat.le_add_left _ _), 0, by rwa [zero_add], ?_⟩
      · rw [slice_overwrite_of_disjoint rfl hcarry.1 hcarry.2]
        exact hold
      · rw [hone, add_zero, keys_nil_add]
    · refine under_get_bind (under_bind (Q := fun b s' => b = slice blob (i * 2 ^ k) (2 ^ k) ∧
        s' = s)
        (E := fun f s' => Halt env B f s') (under_ok (hold.read hl) ⟨rfl, rfl⟩)
          (fun b s₀ _ h₀ => ?_)
        (fun _ _ h => h))
      obtain ⟨rfl, rfl⟩ := h₀
      rw [hmerge]
      refine under_bind (bsWrite_under hfits hs hcov hlog) (fun r s₁ _ h₁ => ?_) (fun _ _ h => h)
      obtain ⟨hk₁, hst₁, hr₁, hlog₁⟩ := h₁
      rw [Good.key hr₁] at hst₁
      exact under_pure ⟨hk₁, hr₁, hlog₁, {r.hash},
        by rwa [Multiset.singleton_add], by rw [hone]; rfl⟩

theorem splitRecords_eq_map (blob : Bytes) (rs : Nat) :
    splitRecords blob rs = (List.range (divCeil blob.length rs)).map fun i =>
    slice blob (i * rs) rs := rfl

theorem writeRecords_under {refs : List Ref} {blob data : Bytes} {off k : Nat} (hl : env.Lawful)
    (hfits : B.fits l) (hs : Stocked env s T)
    (hrec : List.Forall₂ (Names env s) refs (splitRecords blob (2 ^ k)))
    (hend : 2 ^ 64 ≤ divCeil (max blob.length (off + data.length)) (2 ^ k) * 2 ^ k →
      2 ^ 32 ≤ price l + 1)
    (hcov : ∀ b ∈ splitRecords (overwrite blob off data) (2 ^ k), ∃ c ∈ l, c.Covers b)
    (hlog : Logged l (priceAll (splitRecords (overwrite blob off data) (2 ^ k)) + left)
      s.dev.trace) :
    Under (calm env B)
      ((List.range (divCeil (max blob.length (off + data.length)) (2 ^ k))).mapM
        (writeRecord refs blob.length (max blob.length (off + data.length)) (2 ^ k) off data)) s
      (fun out s' => Kept env s s' ∧
        List.Forall₂ (Names env s') (out.map (·.1))
        (splitRecords (overwrite blob off data) (2 ^ k)) ∧
        Logged l left s'.dev.trace ∧
        ∃ W, Stocked env s' (W + T) ∧
          keys refs + W = keys (out.flatMap (·.2)) + keys (out.map (·.1)))
      (fun f s' => Halt env B f s') := by
  have hpos : 0 < 2 ^ k := Nat.two_pow_pos _
  obtain ⟨n, hn⟩ : ∃ n, n = divCeil (max blob.length (off + data.length)) (2 ^ k) := ⟨_, rfl⟩
  obtain ⟨rec_, hrec_⟩ : ∃ f : Nat → Bytes,
      f = fun i => slice (overwrite blob off data) (i * 2 ^ k) (2 ^ k) := ⟨_, rfl⟩
  have hsplit : splitRecords (overwrite blob off data) (2 ^ k) = (List.range n).map rec_ := by
    rw [splitRecords_eq_map, length_overwrite, hn, hrec_]
  rw [hsplit] at hcov hlog ⊢
  rw [← hn] at hend ⊢
  have hlen : refs.length ≤ n := by
    have h1 := hrec.length_eq
    rw [length_splitRecords] at h1
    rw [h1, hn]
    unfold divCeil
    exact Nat.div_le_div_right (by omega)
  refine (under_mapM (E := fun f s' => Halt env B f s') (fun done out s' => Kept env s s' ∧
    List.Forall₂ (Names env s') (out.map (·.1)) (done.map rec_) ∧
    Logged l (priceAll (((List.range n).drop done.length).map rec_) + left) s'.dev.trace ∧
    ∃ W, Stocked env s' (W + T) ∧
      keys (refs.take done.length) + W = keys (out.flatMap (·.2)) + keys (out.map (·.1)))
    ?_ ?_).mono ?_ (fun _ _ h => h)
  · rintro done i rest out s₁ hrange - ⟨hk, hnames, hlog₁, W, hst, hW⟩
    have hilen : i = done.length := by
      have h1 : (List.range n)[done.length]? = some i := by
        rw [← hrange, List.getElem?_append_right (Nat.le_refl _), Nat.sub_self]
        rfl
      obtain ⟨hlt, hget⟩ := List.getElem?_eq_some_iff.mp h1
      rw [List.getElem_range] at hget
      exact hget.symm
    have hin : i < n := by
      have : i ∈ List.range n := by rw [← hrange]; simp
      exact List.mem_range.mp this
    have hdrop : (List.range n).drop done.length = i :: rest := by
      rw [← hrange, List.drop_left]
    have hdrop₂ : (List.range n).drop (done ++ [i]).length = rest := by
      rw [← hrange, List.append_cons done i rest, List.drop_left]
    have hprice : priceAll ((i :: rest).map rec_) + left =
        priceOf (rec_ i).length + (priceAll (rest.map rec_) + left) := by
      unfold priceAll
      simp only [List.map_cons, List.sum_cons]
      omega
    rw [hdrop, hprice, hrec_] at hlog₁
    have hi : i * 2 ^ k < max blob.length (off + data.length) := by
      rw [hn] at hin
      exact (lt_divCeil_iff hpos).mp hin
    have hmul : i * 2 ^ k + 2 ^ k ≤ n * 2 ^ k := by
      have := Nat.mul_le_mul_right (2 ^ k) hin
      rwa [Nat.succ_mul] at this
    have hci : ∃ c ∈ l, c.Covers (slice (overwrite blob off data) (i * 2 ^ k) (2 ^ k)) := by
      have := hcov (rec_ i) (List.mem_map_of_mem (List.mem_range.mpr hin))
      rwa [hrec_] at this
    refine (writeRecord_under hl hfits hst (hrec.imp fun r b h => hk.names r b h) hi
      (fun h => hend (Nat.le_trans h hmul)) hci hlog₁).mono ?_ (fun _ _ h => h)
    rintro o s₂ ⟨hk₂, hname, hlog₂, W₂, hst₂, hW₂⟩
    refine ⟨hk.trans hk₂, ?_, ?_, W₂ + W, ?_, ?_⟩
    · rw [List.map_append, List.map_append]
      refine List.rel_append (hnames.imp fun r b h => hk₂.names r b h) (.cons ?_ .nil)
      rw [hrec_]
      exact hname
    · rw [hdrop₂, hrec_]
      exact hlog₂
    · rw [Multiset.add_assoc]
      exact hst₂
    · have htake : keys (refs.take (done ++ [i]).length) = keys (refs.take done.length) +
          keys refs[i]?.toList := by
        rw [List.length_append, List.length_singleton, hilen, List.take_add_one, keys_append]
      rw [htake, List.flatMap_append, List.map_append, keys_append, keys_append]
      have hlast : keys ([o].flatMap (·.2)) + keys ([o].map (·.1)) = keys o.2 + {o.1.hash} := by
        simp [keys]
      calc keys (refs.take done.length) + keys refs[i]?.toList + (W₂ + W)
          = keys (refs.take done.length) + W + (keys refs[i]?.toList + W₂) := by ac_rfl
        _ = keys (out.flatMap (·.2)) + keys (out.map (·.1)) + (keys o.2 + {o.1.hash}) := by
            rw [hW, hW₂]
        _ = keys (out.flatMap (·.2)) + keys (out.map (·.1)) +
              (keys ([o].flatMap (·.2)) + keys ([o].map (·.1))) := by rw [hlast]
        _ = _ := by ac_rfl
  · refine ⟨.refl s, .nil, hlog, 0, ?_, ?_⟩
    · rwa [zero_add]
    · rfl
  · rintro out s' ⟨hk, hnames, hlog', W, hst, hW⟩
    rw [List.length_range, List.take_of_length_le hlen] at hW
    exact ⟨hk, hnames, hlog'.mono (Nat.le_add_left _ _), W, hst, hW⟩

theorem one_le_price (c : Charge) : 1 ≤ c.price := by
  cases c <;> simp only [Charge.price, priceOf] <;> omega

theorem length_le_price (l : List Charge) : l.length ≤ price l := by
  have h := List.length_le_sum_of_one_le (l.map Charge.price) (fun n hn => by
    obtain ⟨c, -, rfl⟩ := List.mem_map.mp hn
    exact one_le_price c)
  rwa [List.length_map] at h

/-- Long contents are dear. -/
theorem divCeil_le_price_charge (blob : Bytes) :
    divCeil blob.length 4096 ≤ price (charge blob) := by
  have h := (chargeAt_subset (k := 12) (by omega) blob).2
  have hlen : divCeil blob.length 4096 ≤ (chargeAt blob 12).length := by
    rw [chargeAt, List.length_append, List.length_map, length_splitRecords]
    exact Nat.le_add_right _ _
  exact Nat.le_trans hlen (Nat.le_trans (length_le_price _) h)

theorem many_of_overflow {blob : Bytes} {k : Nat} (hk : k ≤ 15)
    (h : 2 ^ 64 ≤ divCeil blob.length (2 ^ k) * 2 ^ k) :
    2 ^ 32 ≤ price (l ++ charge blob) + 1 := by
  have hprice := divCeil_le_price_charge blob
  have hle : divCeil blob.length (2 ^ k) * 2 ^ k ≤ blob.length + (2 ^ k - 1) :=
    Nat.div_mul_le_self _ _
  have hpow : 2 ^ k ≤ 2 ^ 15 := Nat.pow_le_pow_right (by decide) hk
  have hdiv : blob.length ≤ divCeil blob.length 4096 * 4096 := le_divCeil_mul (by decide)
  rw [price_append]
  omega

theorem writeSize_spec {in_ : Inode} {refs : List Ref} {blob : Bytes} (n : Nat)
    (hlaid : Laid (Names env s) in_ refs blob) :
    ∃ log2 : UInt8, writeSize in_ n = .ok (2 ^ log2.toNat, log2) ∧ 12 ≤ log2.toNat ∧
      log2.toNat ≤ 15 ∧ List.Forall₂ (Names env s) refs (splitRecords blob (2 ^ log2.toNat)) := by
  unfold writeSize
  by_cases h0 : in_.size = 0
  · obtain ⟨h1, h2, h3⟩ := recordSizeFor_spec n
    refine ⟨(recordSizeFor n).2, ?_, h2, h3, ?_⟩
    · rw [if_pos h0, ← h1]
    · rw [hlaid.empty h0, hlaid.blob_eq_nil_iff.mpr h0, splitRecords_nil]
      exact .nil
  · have hlog := hlaid.log2 h0
    exact ⟨in_.recordSizeLog2,
      by rw [if_neg h0, if_neg (by omega)], hlog.1, hlog.2, hlaid.records h0⟩

/-! ## What a write leaves of the layout -/

theorem storeRefs_log2 {in_ : Inode} {refs : List Ref} {size : UInt64} {log2 : UInt8}
    (h : refs ≠ []) :
    Under (calm env B) (storeRefs in_ refs size log2) s (fun new _ => new.recordSizeLog2 = log2)
      (fun _ _ => True) := by
  rcases refs with _ | ⟨r, _ | ⟨r', rest⟩⟩
  · exact absurd rfl h
  · exact under_pure rfl
  · rw [storeRefs_several (by simp)]
    exact under_bind (under_of_forall (fun _ _ => trivial) fun _ _ => trivial)
      (fun _ _ _ _ => under_pure rfl) fun _ _ he => he

/-- The write does not overlap record `i`, which was of full length before. -/
def Beyond (oldSize newSize rs off len i : Nat) : Prop :=
  ¬ (i * rs < off + len ∧ off < min (i * rs + rs) newSize) ∧ min (i * rs + rs) newSize ≤ oldSize

theorem writeRecord_carries {refs : List Ref} {oldSize newSize rs off : Nat}
    {data : Bytes} {i : Nat} : Under (calm env B) (writeRecord refs oldSize newSize rs off data i) s
      (fun o _ => ∀ old, refs[i]? = some old → Beyond oldSize newSize rs off data.length i →
        o.1 = old)
      (fun _ _ => True) := by
  refine under_ite (fun _ => under_panic trivial) fun _ => ?_
  cases hri : refs[i]? with
  | none => exact under_of_forall (fun _ _ old hold => by cases hold) fun _ _ => trivial
  | some old =>
    refine under_ite (fun _ => under_pure fun old' hold _ => Option.some.inj hold) fun hno => ?_
    exact under_of_forall (fun _ _ _ _ hbeyond => absurd hbeyond hno) fun _ _ => trivial

theorem writeRecords_carry {refs : List Ref} {oldSize newSize rs off : Nat}
    {data : Bytes} {n : Nat} :
    Under (calm env B) ((List.range n).mapM (writeRecord refs oldSize newSize rs off data)) s
      (fun out _ => ∀ i < n, ∀ old, refs[i]? = some old →
        Beyond oldSize newSize rs off data.length i → (out.map (·.1))[i]? = some old)
      (fun _ _ => True) := by
  have hloop := under_mapM (C := calm env B) (E := fun _ _ => True) (l := List.range n)
    (f := (writeRecord refs oldSize newSize rs off data : Nat → Act env (Ref × List Ref))) (s := s)
    (fun done out _ => List.Forall₂ (fun i (o : Ref × List Ref) => ∀ old, refs[i]? = some old →
      Beyond oldSize newSize rs off data.length i → o.1 = old) done out)
    (fun done i rest out s' _ _ hout => writeRecord_carries.mono
      (fun o _ ho => List.rel_append hout (.cons ho .nil)) fun _ _ he => he) .nil
  refine hloop.mono (fun out _ hout i hi old hold hbeyond => ?_) fun _ _ he => he
  have hlen : i < out.length := by
    rw [← hout.length_eq, List.length_range]
    exact hi
  have hrel := hout.get (by rw [List.length_range]; exact hi) hlen
  rw [List.get_eq_getElem, List.get_eq_getElem, List.getElem_range] at hrel
  rw [List.getElem?_map, List.getElem?_eq_getElem hlen, Option.map_some, hrel old hold hbeyond]

/-- What a write at `off` leaves of the layout: the record size once there are records, and
the refs of the records it does not reach. -/
structure Carried (env : Env) (s : FS) (in_ new : Inode) (refs : List Ref) (oldSize off len : Nat) :
    Prop where
  first : in_.size = 0 → new.recordSizeLog2 = (recordSizeFor (max oldSize (off + len))).2
  log2 : in_.size ≠ 0 → new.recordSizeLog2 = in_.recordSizeLog2
  refs : ∃ refs', s.loadRefs env new = .ok refs' ∧ (in_.size ≠ 0 → ∀ i old, refs[i]? = some old →
    Beyond oldSize (max oldSize (off + len)) (2 ^ in_.recordSizeLog2.toNat) off len i →
      refs'[i]? = some old)

/-- The old records are those carried over and those to drop. -/
theorem tokens_rewrite {in_ new : Inode} {refs refs' dropped : List Ref} {W : Multiset Dedup.Key}
    (hW : keys refs + W = keys dropped + keys refs') :
    keys (oldContainer new) + (W + (tokens in_ refs + R)) =
      keys dropped + (keys (oldContainer in_) + (tokens new refs' + R)) := by
  rw [tokens_eq, tokens_eq]
  calc keys (oldContainer new) + (W + (keys refs + keys (oldContainer in_) + R))
      = (keys refs + W) + (keys (oldContainer new) + (keys (oldContainer in_) + R)) := by ac_rfl
    _ = keys dropped + keys refs' + (keys (oldContainer new) + (keys (oldContainer in_) + R)) :=
      by rw [hW]
    _ = _ := by ac_rfl

theorem writeSize_log2 {in_ : Inode} {n rs : Nat} {log2 : UInt8}
    (h : writeSize in_ n = .ok (rs, log2)) :
    (in_.size = 0 → log2 = (recordSizeFor n).2) ∧ (in_.size ≠ 0 → log2 = in_.recordSizeLog2) := by
  unfold writeSize at h
  constructor
  · intro h0
    rw [if_pos h0] at h
    exact (congrArg Prod.snd (Except.ok.inj h)).symm
  · intro h0
    rw [if_neg h0] at h
    split at h
    · cases h
    · exact (congrArg Prod.snd (Except.ok.inj h)).symm

theorem writeAtLocked_under {id : Nat} {in_ : Inode} {refs : List Ref}
    {blob data : Bytes} {off : Nat}
    (hl : env.Lawful) (hfits : B.fits (l ++ charge (overwrite blob off data)))
    (hs : Stocked env s (tokens in_ refs + R)) (hlaid : Laid (Names env s) in_ refs blob)
    (hlog : Logged l left s.dev.trace) (hid : id < s.inodes.cap) (hdata : data ≠ [])
    (hlen : off + data.length < 2 ^ 64) :
    Under (calm env B) (writeAtLocked id in_ off data) s
      (fun new s' => Rewrote env (l ++ charge (overwrite blob off data)) left R s id in_
        (overwrite blob off data) new s' ∧ Carried env s' in_ new refs blob.length off data.length)
      (fun f s' => Halt env B f s') := by
  obtain ⟨log2, hsize, h12, h15, hrec⟩ :=
    writeSize_spec (max blob.length (off + data.length)) hlaid
  have hkind := writeSize_log2 hsize
  have hnewlen : (overwrite blob off data).length < 2 ^ 64 := by
    rw [length_overwrite]
    have := hlaid.length_lt
    omega
  have hsub := chargeAt_subset ⟨h12, h15⟩ (overwrite blob off data)
  have hprice := hsub.2
  rw [price_chargeAt] at hprice
  have hlog₀ : Logged (l ++ charge (overwrite blob off data))
      (priceAll (splitRecords (overwrite blob off data) (2 ^ log2.toNat)) +
        ((if 2 ≤ (splitRecords (overwrite blob off data) (2 ^ log2.toNat)).length then
          priceOf (4 + (splitRecords (overwrite blob off data) (2 ^ log2.toNat)).length * refSize)
        else 0) + left)) s.dev.trace := (hlog.append _).mono (by omega)
  have hend : 2 ^ 64 ≤ divCeil (max blob.length (off + data.length))
    (2 ^ log2.toNat) * 2 ^ log2.toNat →
      2 ^ 32 ≤ price (l ++ charge (overwrite blob off data)) + 1 := by
    intro h
    rw [← length_overwrite] at h
    exact many_of_overflow h15 h
  unfold writeAtLocked
  rw [if_neg (by simpa using hdata)]
  refine under_get_bind (under_bind (Q := fun rs s' => rs = refs ∧ s' = s)
    (E := fun f s' => Halt env B f s') (under_ok (hlaid.loadRefs hl) ⟨rfl, rfl⟩)
    (fun rs s₀ _ h₀ => ?_)
    (fun _ _ h => h))
  obtain ⟨rfl, rfl⟩ := h₀
  rw [if_neg (by omega), hlaid.size]
  refine under_bind (Q := fun r s' => r = (2 ^ log2.toNat, log2) ∧ s' = s₀)
    (E := fun f s' => Halt env B f s') (under_ok hsize ⟨rfl, rfl⟩) (fun r s₁ _ h₁ => ?_)
    (fun _ _ h => h)
  obtain ⟨rfl, rfl⟩ := h₁
  dsimp only
  refine under_bind ((writeRecords_under hl hfits hs hrec hend
    (fun b hb => ⟨.record b, List.mem_append_right _ (hsub.1 ?_), rfl⟩) hlog₀).and
    writeRecords_carry)
    (fun out s₂ _ h₂ => ?_) (fun _ _ h => h)
  · exact List.mem_append_left _ (List.mem_map_of_mem hb)
  obtain ⟨⟨hk₂, hn₂, hlog₂, W, hst₂, hW⟩, hcarry⟩ := h₂
  have hsome : out.map (·.1) ≠ [] := fun hnil => by
    have hcount := hn₂.length_eq
    have hlast := List.length_pos_iff.mpr hdata
    rw [hnil, length_splitRecords, length_overwrite, List.length_nil] at hcount
    have := le_divCeil_mul (n := max blob.length (off + data.length)) (Nat.two_pow_pos log2.toNat)
    rw [← hcount, Nat.zero_mul] at this
    omega
  rw [← hn₂.length_eq] at hlog₂
  rw [← length_overwrite]
  refine under_bind ((storeRefs_under hfits hst₂ hnewlen (fun _ => ⟨h12, h15⟩) hn₂ (fun htwo => ?_)
    hlog₂).and (storeRefs_log2 hsome))
    (fun new s₃ _ h₃ => ?_) (fun _ _ h => h)
  · rw [hn₂.length_eq] at htwo ⊢
    exact List.mem_append_right _ (hsub.1 (map_mem_chargeAt htwo))
  obtain ⟨⟨hk₃, hst₃, hlaid₃, hmeta, hlog₃⟩, hnewlog⟩ := h₃
  have hkept := hk₂.trans hk₃
  rw [tokens_rewrite hW] at hst₃
  refine under_bind (releaseAll_under hst₃) (fun _ s₄ _ h₄ => ?_) (fun _ _ h => h)
  obtain ⟨hb₄, hdev₄, hst₄, hn₄⟩ := h₄
  refine under_bind (releaseAll_under hst₄) (fun _ s₅ _ h₅ => ?_) (fun _ _ h => h)
  obtain ⟨hb₅, hdev₅, hst₅, hn₅⟩ := h₅
  have hnames : ∀ r b, r.hash ∈ tokens new (out.map (·.1)) + R → Names env s₃ r b →
      Names env s₅ r b := fun r b hr hn =>
    hn₅ r b hr (hn₄ r b (Multiset.mem_add.mpr (.inr hr)) hn)
  refine touch_put_under (k := fun new => pure new) hid (hkept.beside.trans (hb₄.trans hb₅)) hmeta
    (hlaid₃.mono fun r b hr hn => hnames r b (Multiset.mem_add.mpr (.inl hr)) hn) hst₅
    (fun r b hr hn => hnames r b (Multiset.mem_add.mpr (.inr hr)) (hkept.names r b hn))
    (by rw [hdev₅, hdev₄]; exact hlog₃) (fun new' s₆ h₆ hsame hlaid₆ => under_pure ⟨h₆, ?_⟩)
  refine ⟨fun h0 => ?_, fun h0 => ?_, _, hlaid₆.loadRefs hl, fun h0 i old hold hbeyond => ?_⟩
  · rw [← hsame.log2, hnewlog, hkind.1 h0]
  · rw [← hsame.log2, hnewlog, hkind.2 h0]
  · rw [← hkind.2 h0] at hbeyond
    refine hcarry i ?_ old hold hbeyond
    have hlt := (List.getElem?_eq_some_iff.mp hold).1
    rw [hrec.length_eq, length_splitRecords] at hlt
    exact hlt.trans_le (Nat.div_le_div_right (by omega))

end Fs
end BloomFS

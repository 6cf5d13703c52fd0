/-
What a run hands to the store, and what it costs.

A `Charge` stands for one block: a record known in full, or a block map known by
its number of refs.  A ledger is a list of charges that covers every block a
history hashed.  `cost` bounds the clusters the history took, `price` is the bound
that a ledger allows.
-/
import BloomFS.Store.Content

namespace BloomFS
namespace Store

open Bytes Exec Block

inductive Charge where
  | record (b : Bytes)
  | map (refs : Nat)

/-- The block may be the one charged. -/
def Charge.Covers : Charge → Bytes → Prop
  | .record b', b => b = b'
  | .map n, b => b.length = 4 + n * refSize

/-- The most a block of `n` bytes takes: its clusters and one reference, twice,
since a full bitmap makes the store try again. -/
def priceOf (n : Nat) : Nat := 2 * (clusters n + 1)

def Charge.price : Charge → Nat
  | .record b => priceOf b.length
  | .map n => priceOf (4 + n * refSize)

def price (l : List Charge) : Nat := (l.map Charge.price).sum

theorem price_append (l l' : List Charge) : price (l ++ l') = price l + price l' := by
  simp [price]

/-- The clusters and references that the blocks of a history took at most. -/
def cost : List Event → Nat
  | [] => 0
  | .hash b :: es => clusters b.length + 1 + cost es
  | _ :: es => cost es

theorem cost_append (es fs : List Event) : cost (es ++ fs) = cost es + cost fs := by
  induction es with
  | nil => rw [List.nil_append, cost, Nat.zero_add]
  | cons e es ih =>
    cases e with
    | hash b =>
      show clusters b.length + 1 + cost (es ++ fs) = clusters b.length + 1 + cost es + cost fs
      omega
    | write o n left => exact ih
    | sync => exact ih
    | refused => exact ih

theorem cost_eq_zero {es : List Event} (h : ∀ b, .hash b ∉ es) : cost es = 0 := by
  induction es with
  | nil => rfl
  | cons e es ih =>
    have ht : ∀ b, .hash b ∉ es := fun b hb => h b (List.mem_cons_of_mem _ hb)
    cases e with
    | hash b => exact absurd List.mem_cons_self (h b)
    | write o n left => exact ih ht
    | sync => exact ih ht
    | refused => exact ih ht

/-- Every block of the history is charged in the ledger. -/
def Covered (l : List Charge) (tr : List Event) : Prop := ∀ b, .hash b ∈ tr → ∃ c ∈ l, c.Covers b

theorem Covered.of_prefix {l l' : List Charge} {tr tr' : List Event} (h : Covered l tr')
    (htr : tr <+: tr') (hl : l <+: l') : Covered l' tr := by
  intro b hb
  obtain ⟨c, hc, hcov⟩ := h b (htr.subset hb)
  exact ⟨c, hl.subset hc, hcov⟩

/-- The ledger covers the history and leaves `left` to spend. -/
structure Logged (l : List Charge) (left : Nat) (tr : List Event) : Prop where
  covered : Covered l tr
  paid : cost tr + left ≤ price l

theorem Logged.append {l : List Charge} {left : Nat} {tr : List Event} (h : Logged l left tr)
    (l' : List Charge) : Logged (l ++ l') (left + price l') tr where
  covered := h.covered.of_prefix (List.prefix_refl _) (List.prefix_append _ _)
  paid := by
    have := h.paid
    rw [price_append]
    omega

theorem Logged.mono {l : List Charge} {left left' : Nat} {tr : List Event} (h : Logged l left tr)
    (hle : left' ≤ left) : Logged l left' tr :=
  ⟨h.covered, Nat.le_trans (Nat.add_le_add_left hle _) h.paid⟩

theorem Logged.quiet {l : List Charge} {left : Nat} {tr es : List Event} (h : Logged l left tr)
    (hes : ∀ b, .hash b ∉ es) : Logged l left (tr ++ es) where
  covered := by
    intro b hb
    rcases List.mem_append.mp hb with hb | hb
    · exact h.covered b hb
    · exact absurd hb (hes b)
  paid := by
    rw [cost_append, cost_eq_zero hes]
    exact h.paid

theorem Logged.hash {l : List Charge} {left : Nat} {tr es : List Event} {b : Bytes}
    (h : Logged l (clusters b.length + 1 + left) tr) (hb : ∃ c ∈ l, c.Covers b)
    (hes : ∀ b, .hash b ∉ es) : Logged l left (tr ++ .hash b :: es) where
  covered := by
    intro b' hb'
    simp only [List.mem_append, List.mem_cons, Event.hash.injEq] at hb'
    rcases hb' with hb' | rfl | hb'
    · exact h.covered b' hb'
    · exact hb
    · exact absurd hb' (hes b')
  paid := by
    have := h.paid
    rw [cost_append, cost, cost_eq_zero hes]
    omega

/-! ## Running out of space -/

/-- The clusters in use lie below `n`. -/
def Below (n : Nat) (bm : Alloc.Bitmap) : Prop := ∀ i, i < bm.total → bm.bits i = true → i < n

theorem Below.mono {n m : Nat} {bm : Alloc.Bitmap} (h : Below n bm) (hle : n ≤ m) : Below m bm :=
  fun i hi hb => (h i hi hb).trans_le hle

/-- The codec turns the block into a payload that takes a cluster. -/
def Storable (env : Env) (b : Bytes) : Prop := ∃ c, env.encodeAll b = some c ∧
    (payloadOf b c).1 ≠ []

section Room

variable {env : Env} {bs : BlockStore} {b : Bytes} {p p' : Pool} {n : Nat}

/-- First fit starts no later than at the end of the clusters in use. -/
theorem Wrote.below {r : Ref} (h : Wrote env bs b p r p') (hb : Below n p.bm) :
    Below (n + clusters b.length) p'.bm := by
  cases h with
  | hit _ _ hbm _ _ =>
    rw [hbm]
    exact hb.mono (Nat.le_add_right _ _)
  | @miss c start bm _ _ _ halloc _ hbm _ _ =>
    obtain ⟨-, -, hfirst, htot, -, -, hbits⟩ := Alloc.Bitmap.alloc_ok halloc
    have hlen := clusters_mono (length_payloadOf_le b c)
    rw [hbm]
    intro i hi hset
    rw [htot] at hi
    rw [hbits, Bool.or_eq_true, decide_eq_true_eq] at hset
    rcases hset with hset | ⟨-, hend⟩
    · exact (hb i hi hset).trans_le (Nat.le_add_right _ _)
    · by_contra hge
      refine hfirst n (by omega) ⟨by omega, fun j hj hjn => ?_⟩
      by_contra hj'
      exact absurd (hb j (by omega) (by simpa using hj')) (by omega)

theorem WriteFailed.below {e : Fault Error} (h : WriteFailed env bs b p e p') (hc : p.bm.Counted)
    (hb : Below n p.bm) : Below n p'.bm := by
  cases h with
  | overflow _ _ hbm _ _ => rw [hbm]; exact hb
  | compress _ hbm _ _ => rw [hbm]; exact hb
  | alloc _ _ hbm _ _ => rw [hbm]; exact hb
  | device _ halloc hbm _ _ _ _ _ =>
    obtain ⟨-, ⟨hin, -⟩, -, htot, -, -, hbits⟩ := Alloc.Bitmap.alloc_ok halloc
    obtain ⟨htot', -, -, hbits'⟩ :=
      Alloc.Bitmap.free_spec (Alloc.Bitmap.alloc_counted hc halloc) _ _
    rw [hbm]
    intro i hi hset
    rw [htot', htot] at hi
    rw [hbits', hbits, Bool.and_eq_true, Bool.or_eq_true, Bool.not_eq_true', decide_eq_true_eq,
      decide_eq_false_iff_not, htot] at hset
    rcases hset with ⟨hset | hrun, hno⟩
    · exact hb i hi hset
    · exact absurd ⟨hrun.1, hrun.2, hi⟩ hno

theorem Released.below {r : Ref} (h : Released r p p') (hb : Below n p.bm) : Below n p'.bm := by
  cases h with
  | absent => exact hb
  | shared => exact hb
  | last => exact hb

theorem below_applyDeferred {bm : Alloc.Bitmap} (hc : bm.Counted) (hb : Below n bm) :
    Below n bm.applyDeferred := by
  obtain ⟨htot, -, -, hbits⟩ := Alloc.Bitmap.applyDeferred_spec hc
  intro i hi hset
  rw [htot] at hi
  exact hb i hi ((hbits i).mp hset).1

theorem length_sector (hl : env.Lawful) (payload : Bytes) {start i : Nat}
    (hi : i < clusters payload.length) : (sector env bs payload start i).length = Block.size := by
  have hseal : ∀ a sec, (sealSec env bs a sec).length = sec.length := by
    intro a sec
    unfold sealSec
    cases bs.key with
    | none => rfl
    | some k => exact hl.length_encrypt k a sec
  have hpad : (padded payload).length = clusters payload.length * blk := length_padded payload
  have hle : (i + 1) * blk ≤ clusters payload.length * blk := Nat.mul_le_mul_right _ hi
  unfold sector
  rw [hseal, length_slice]
  show min blk ((padded payload).length - i * blk) = blk
  rw [hpad]
  rw [Nat.add_mul, Nat.one_mul] at hle
  omega

theorem WriteFailed.ne_hang {f : Fault Error} (h : WriteFailed env bs b p f p') : f ≠ .hang := by
  cases h with
  | overflow => simp
  | compress => simp
  | alloc => simp
  | device _ _ _ _ _ _ _ herr =>
    obtain ⟨_, rfl⟩ := herr
    simp

theorem WriteFailed.exhausted {ds : Nat} {T : Multiset Dedup.Key}
    (h : WriteFailed env bs b p .panic p') (hs : Stock env bs ds p T) : 2 ^ 32 ≤ T.card + 1 := by
  cases h with
  | overflow hlook hincr _ _ _ =>
    have hcount := Multiset.count_le_card (env.blake3 b) T
    rw [hs.count_eq hlook] at hcount
    unfold Dedup.Table.incr at hincr
    rw [hlook] at hincr
    simp only at hincr
    split at hincr
    · cases hincr
    · omega
  | device _ _ _ _ _ _ _ herr =>
    obtain ⟨_, herr⟩ := herr
    cases herr

/-- A block is turned away only where the device or the codec fail, or where the
room behind the clusters in use is too small. -/
theorem WriteFailed.short {f : Fault Error} (h : WriteFailed env bs b p f p') (hf : f ≠ .panic)
    (htotal : p.bm.total = p.dev.blocks) (hb : Below n p.bm) (hl : env.Lawful)
    (hs : Storable env b) (hd : p.dev.Sound (.write .data)) :
        p.dev.blocks < n + clusters b.length := by
  obtain ⟨c, hc, hne⟩ := hs
  have hlen := clusters_mono (length_payloadOf_le b c)
  cases h with
  | overflow => exact absurd rfl hf
  | compress henc =>
    rw [hc] at henc
    cases henc
  | @alloc _ c' _ henc halloc hbm hddt hdev =>
    rw [hc] at henc
    cases henc
    have h0 : clusters (payloadOf b c).1.length ≠ 0 := by
      have := length_le_clusters (payloadOf b c).1.length
      have hpos := List.length_pos_of_ne_nil hne
      intro h0
      rw [h0] at this
      omega
    obtain ⟨-, hnone⟩ := Alloc.Bitmap.alloc_error h0 halloc
    by_contra hge
    refine hnone n ⟨by omega, fun j hj hjn => ?_⟩
    by_contra hj'
    exact absurd (hb j (by omega) (by simpa using hj')) (by omega)
  | device henc halloc hbm hddt hdev hes hfault herr =>
    exact (hfault hd htotal.le fun i hi => length_sector hl _ hi).elim

end Room

/-- What a run may be charged, closed under taking a part of it. -/
structure Budget where
  fits : List Charge → Prop
  of_prefix : ∀ l l', l <+: l' → fits l' → fits l

namespace Budget

def unbounded : Budget := ⟨fun _ => True, fun _ _ _ h => h⟩

/-- The charges of one ledger. -/
def upTo (l : List Charge) : Budget := ⟨(· <+: l), fun _ _ h h' => h.trans h'⟩

variable (B : Budget) (env : Env)

/-- Blocks within the budget broke an assumption on the blocks in play. -/
def Broken (tr : List Event) : Prop :=
  ∃ tr', tr' <+: tr ∧ ¬ InPlay env tr' ∧ ∃ l, B.fits l ∧ Covered l tr'

variable {B env}

theorem inPlay_of_not_broken {l : List Charge} {left : Nat} {tr : List Event}
    (h : ¬ B.Broken env tr) (hl : Logged l left tr) (hfits : B.fits l) : InPlay env tr := by
  by_contra hno
  exact h ⟨tr, List.prefix_refl _, hno, l, hfits, hl.covered⟩

/-- The assumptions on the blocks in play rule out that they were broken. -/
theorem not_broken_of_inPlay {tr : List Event} (h : InPlay env tr) : ¬ B.Broken env tr := by
  rintro ⟨tr', hpre, hno, -⟩
  exact hno (h.of_subset hpre.subset)

end Budget

end Store
end BloomFS

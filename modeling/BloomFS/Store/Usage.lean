/-
The store over whole runs.

A usage is any sequence of `write`, `release` and `apply_deferred` on one pool.
Its two lists are ghosts: `out` holds the refs that `write` returned, each with the
block it was given, `back` the refs that were released.  As long as callers only
release refs they hold, the refs they hold are the references the dedup table
counts, and each reads back.
-/
import BloomFS.Store.Content

namespace BloomFS
namespace Store

open Bytes Exec Block

variable {env : Env} {bs : BlockStore} {p p' : Pool} {b : Bytes} {r : Ref}

/-! ## A failed write -/

/-- A failed write leaves the bitmap and the dedup table as they were. -/
theorem write_error_untouched {f : Fault Error} (hc : p.bm.Counted)
    (h : write env bs b p = .error f p') : p'.bm = p.bm ∧ p'.ddt = p.ddt := by
  have hw : WriteFailed env bs b p f p' := (write_sat env bs b p).error h
  cases hw with
  | overflow _ _ hbm hddt _ => exact ⟨hbm, hddt⟩
  | compress _ hbm hddt _ => exact ⟨hbm, hddt⟩
  | alloc _ _ hbm hddt _ => exact ⟨hbm, hddt⟩
  | device _ halloc hbm hddt _ _ _ _ =>
    -- the run was taken before the device was asked, and is given back
    exact ⟨hbm.trans (Alloc.Bitmap.free_of_alloc hc halloc), hddt⟩

/-- A pool whose bitmap is larger than its device. -/
def cramped : Pool := ⟨Disk.zeroed 0 (by decide), Alloc.Bitmap.new 4, Dedup.Table.new⟩

theorem write_error_untouched_cramped :
    ∃ p', write Env.plain ⟨none, by simp⟩ [7] cramped = .error (.err (.block .outOfRange)) p' ∧
      p'.bm = cramped.bm ∧ p'.ddt = cramped.ddt := by
  have h : write Env.plain ⟨none, by simp⟩ [7] cramped = .error (.err (.block .outOfRange)) _ := rfl
  exact ⟨_, h, write_error_untouched (Alloc.Bitmap.new_counted 4) h⟩

/-! ## Sessions -/

/-- `r` has been returned more often than it has been released. -/
def Live (out : List (Ref × Bytes)) (back : List Ref) (r : Ref) : Prop :=
  back.count r < (out.map Prod.fst).count r

/-- The states a pool reaches from `p₀`, where `ok` says which refs may be
released. -/
inductive Usage (env : Env) (bs : BlockStore)
    (ok : List (Ref × Bytes) → List Ref → Ref → Prop) (p₀ : Pool) :
    List (Ref × Bytes) → List Ref → Pool → Prop
  | start : Usage env bs ok p₀ [] [] p₀
  | wrote {out : List (Ref × Bytes)} {back : List Ref} {p p' : Pool} {b : Bytes} {r : Ref}
      (h : Usage env bs ok p₀ out back p) (hw : write env bs b p = .ok r p') :
      Usage env bs ok p₀ ((r, b) :: out) back p'
  | failed {out : List (Ref × Bytes)} {back : List Ref} {p p' : Pool} {b : Bytes} {f : Fault Error}
      (h : Usage env bs ok p₀ out back p) (hw : write env bs b p = .error f p') :
      Usage env bs ok p₀ out back p'
  | released {out : List (Ref × Bytes)} {back : List Ref} {p p' : Pool} {r : Ref}
      (h : Usage env bs ok p₀ out back p) (hok : ok out back r) (hr : release r p = .ok () p') :
      Usage env bs ok p₀ out (r :: back) p'
  | applied {out : List (Ref × Bytes)} {back : List Ref} {p : Pool}
      (h : Usage env bs ok p₀ out back p) :
      Usage env bs ok p₀ out back { p with bm := p.bm.applyDeferred }

/-- A pool with an empty dedup table and nothing deferred.  Any clusters may be
reserved. -/
structure Unused (p : Pool) : Prop where
  counted : p.bm.Counted
  total_lt : p.bm.total < 2 ^ 64
  deferred : p.bm.deferred = []
  ddt : ∀ k, p.ddt.lookup k = none

/-- The refs in `H` are those still held, and the dedup table counts exactly
them. -/
structure Holding (env : Env) (bs : BlockStore)
    (out : List (Ref × Bytes)) (back : List Ref) (p : Pool) (H : Multiset Ref) : Prop where
  split : H + (back : Multiset Ref) = (out.map Prod.fst : Multiset Ref)
  stock : Stock env bs 0 p (H.map Ref.hash)
  good : ∀ r ∈ H, ∀ b, (r, b) ∈ out → Good env bs p r b
  known : ∀ r b, (r, b) ∈ out → env.blake3 b = r.hash ∧ .hash b ∈ p.dev.trace

namespace Holding

variable {out : List (Ref × Bytes)} {back : List Ref} {H : Multiset Ref}

theorem mem_of_live (h : Holding env bs out back p H) (hr : Live out back r) : r ∈ H := by
  have hcount := congrArg (Multiset.count r) h.split
  rw [Multiset.count_add, Multiset.coe_count, Multiset.coe_count] at hcount
  have hlt : back.count r < (out.map Prod.fst).count r := hr
  exact Multiset.count_pos.mp (by omega)

theorem of_unused {p : Pool} (h : Unused p) : Holding env bs [] [] p 0 := by
  have hnone : ∀ i, ¬ Owned p.ddt i := by
    rintro i ⟨k, e, he, -⟩
    rw [h.ddt k] at he
    cases he
  have hspace : Space 0 (fun i => p.bm.bits i = true) p := by
    refine ⟨h.counted, Nat.zero_le _, h.total_lt, fun k e he => ?_, fun k _ e _ _ he => ?_, ?_, ?_,
      ?_, fun i _ => ?_⟩
    · rw [h.ddt k] at he
      cases he
    · rw [h.ddt k] at he
      cases he
    · simp [h.deferred]
    · simp [h.deferred]
    · simp [h.deferred]
    · simp [h.deferred, hnone i, Alloc.Bitmap.InRanges]
  refine ⟨rfl, ⟨⟨_, hspace⟩, fun k => ?_, fun k e he => ?_, fun k e he => ?_⟩, by simp, by simp⟩
  · unfold Dedup.Table.refs
    rw [h.ddt k]
    rfl
  · rw [h.ddt k] at he
    cases he
  · rw [h.ddt k] at he
    cases he

theorem wrote (h : Holding env bs out back p H) (hw : Wrote env bs b p r p')
    (hplay : InPlay env p'.dev.trace) : Holding env bs ((r, b) :: out) back p' (r ::ₘ H) := by
  obtain ⟨hst, hnew, hkept⟩ := hw.stock h.stock hplay
  obtain ⟨es, hx, -⟩ := hw.extends
  have hkey : env.blake3 b = r.hash := hnew.key
  have hknown : ∀ r' b', (r', b') ∈ (r, b) :: out →
      env.blake3 b' = r'.hash ∧ .hash b' ∈ p'.dev.trace := by
    intro r' b' hm
    rw [hx.trace]
    rcases List.mem_cons.mp hm with heq | hm
    · cases heq
      exact ⟨hkey, List.mem_append_right _ List.mem_cons_self⟩
    · obtain ⟨hk, ht⟩ := h.known r' b' hm
      exact ⟨hk, List.mem_append_left _ ht⟩
  refine ⟨?_, ?_, fun r' hr' b' hm => ?_, hknown⟩
  · rw [Multiset.cons_add, h.split]
    rfl
  · rw [Multiset.map_cons, ← hkey]
    exact hst
  · rcases Multiset.mem_cons.mp hr' with rfl | hr'
    · -- two blocks under one ref have one hash, so they are one block
      obtain ⟨hk, ht⟩ := hknown r' b' hm
      obtain rfl := hplay.inj b b' (hknown r' b List.mem_cons_self).2 ht (hkey.trans hk.symm)
      exact hnew
    · rcases List.mem_cons.mp hm with heq | hm
      · cases heq
        exact hnew
      · exact hkept r' b' (h.good r' hr' b' hm)

theorem failed (h : Holding env bs out back p H) {f : Fault Error}
    (hw : WriteFailed env bs b p f p') : Holding env bs out back p' H := by
  obtain ⟨hst, hkept⟩ := hw.stock h.stock
  obtain ⟨es, hx, -⟩ := hw.extends
  refine ⟨h.split, hst, fun r hr b hm => hkept r b (h.good r hr b hm), fun r b hm => ?_⟩
  obtain ⟨hk, ht⟩ := h.known r b hm
  rw [hx.trace]
  exact ⟨hk, List.mem_append_left _ ht⟩

theorem released (h : Holding env bs out back p H) (hr : Released r p p') (hmem : r ∈ H) :
    Holding env bs out (r :: back) p' (H.erase r) := by
  have hmap : (H.erase r).map Ref.hash = (H.map Ref.hash).erase r.hash :=
    Multiset.map_erase_of_mem _ _ hmem
  obtain ⟨hst, hkept⟩ := hr.stock h.stock (Multiset.mem_map_of_mem _ hmem)
  refine ⟨?_, hmap ▸ hst, fun r' hr' b' hm => ?_, hr.dev_eq ▸ h.known⟩
  · rw [← Multiset.cons_coe, Multiset.add_cons, ← Multiset.cons_add, Multiset.cons_erase hmem]
    exact h.split
  · refine hkept r' b' ?_ (h.good r' (Multiset.mem_of_mem_erase hr') b' hm)
    rw [← hmap]
    exact Multiset.mem_map_of_mem _ hr'

theorem applied (h : Holding env bs out back p H) :
    Holding env bs out back { p with bm := p.bm.applyDeferred } H := by
  have hkeep : Stock env bs _ { p with bm := p.bm.applyDeferred } _ ∧ ∀ r b, Good env bs p r b →
      Good env bs { p with bm := p.bm.applyDeferred } r b :=
    h.stock.of_below (Disk.Extends.refl p.dev) (by simp) rfl (.inr rfl)
  obtain ⟨hst, hkept⟩ := hkeep
  exact ⟨h.split, hst, fun r hr b hm => hkept r b (h.good r hr b hm), h.known⟩

end Holding

theorem Usage.holding {p₀ : Pool} {out : List (Ref × Bytes)} {back : List Ref} (hp : Unused p₀)
    (h : Usage env bs Live p₀ out back p) (hplay : InPlay env p.dev.trace) :
    ∃ H, Holding env bs out back p H := by
  induction h with
  | start => exact ⟨0, Holding.of_unused hp⟩
  | wrote _ hw ih =>
    have hw := (write_sat ..).ok hw
    obtain ⟨es, hx, -⟩ := hw.extends
    obtain ⟨H, hH⟩ := ih (hplay.of_subset (hx.trace ▸ List.subset_append_left _ _))
    exact ⟨_, hH.wrote hw hplay⟩
  | failed _ hw ih =>
    have hw := (write_sat ..).error hw
    obtain ⟨es, hx, -⟩ := hw.extends
    obtain ⟨H, hH⟩ := ih (hplay.of_subset (hx.trace ▸ List.subset_append_left _ _))
    exact ⟨_, hH.failed hw⟩
  | released _ hok hr ih =>
    have hr := (release_sat ..).ok hr
    obtain ⟨H, hH⟩ := ih (hr.dev_eq ▸ hplay)
    exact ⟨_, hH.released hr (hH.mem_of_live hok)⟩
  | applied _ ih =>
    obtain ⟨H, hH⟩ := ih hplay
    exact ⟨_, hH.applied⟩

theorem write_hit {e : Dedup.Entry} {ddt : Dedup.Table} {f : Bool}
    (hlook : p.ddt.lookup (env.blake3 b) = some e)
    (hincr : p.ddt.incr (env.blake3 b) = some (f, ddt)) :
    write env bs b p =
      .ok (refFrom (env.blake3 b) e) { p with dev := p.dev.note (.hash b), ddt := ddt } := by
  unfold write noteHash
  rw [bind_of_ok (x := modify _) rfl, bind_of_ok (x := get) rfl]
  dsimp only
  rw [hlook]
  dsimp only
  rw [bind_of_ok (x := get) rfl]
  dsimp only
  rw [hincr]
  rfl

section Holding

variable {out : List (Ref × Bytes)} {back : List Ref} {H : Multiset Ref}

theorem Holding.eq_of_hash (h : Holding env bs out back p H) {r r' : Ref} (hr : r ∈ H)
    (hr' : r' ∈ H) (hk : r.hash = r'.hash) : r = r' := by
  have hgood : ∀ x ∈ H, ∃ e, p.ddt.lookup x.hash = some e ∧ x = refFrom x.hash e := by
    intro x hx
    have hout : x ∈ (out.map Prod.fst : Multiset Ref) := by
      rw [← h.split]
      exact Multiset.mem_add.mpr (.inl hx)
    obtain ⟨⟨_, b⟩, hm, rfl⟩ := List.mem_map.mp (Multiset.mem_coe.mp hout)
    obtain ⟨e, he, hx, -⟩ := h.good _ hx b hm
    exact ⟨e, he, hx⟩
  obtain ⟨e, he, heq⟩ := hgood r hr
  obtain ⟨e', he', heq'⟩ := hgood r' hr'
  rw [← hk, he] at he'
  cases he'
  rw [heq, heq', hk]

theorem Holding.refs (h : Holding env bs out back p H) (hr : r ∈ H) :
    p.ddt.refs r.hash = (out.map Prod.fst).count r - back.count r := by
  have hcount := congrArg (Multiset.count r) h.split
  rw [Multiset.count_add, Multiset.coe_count, Multiset.coe_count] at hcount
  have hfilter : H.filter (fun x => r.hash = x.hash) = H.filter (r = ·) :=
    Multiset.filter_congr fun x hx => ⟨fun hk => h.eq_of_hash hr hx hk, fun heq => heq ▸ rfl⟩
  have hsame : (H.map Ref.hash).count r.hash = H.count r := by
    rw [Multiset.count_map, hfilter, Multiset.count, Multiset.countP_eq_card_filter]
  rw [h.stock.refs, hsame]
  omega

end Holding

/-- What the callers of a store rely on. -/
structure Dependable (env : Env) (bs : BlockStore) (out : List (Ref × Bytes)) (back : List Ref)
    (p : Pool) : Prop where
  reads : ∀ r b, (r, b) ∈ out → Live out back r → read env bs p.dev r = .ok b
  /-- storing a block that is still referenced writes nothing -/
  shares : ∀ r b, (r, b) ∈ out → Live out back r →
    (out.map Prod.fst).count r - back.count r + 1 < 2 ^ 32 →
    ∃ p', write env bs b p = .ok r p' ∧ p'.dev.image = p.dev.image ∧
      p'.dev.trace = p.dev.trace ++ [.hash b]
  apart : ∀ r r', Live out back r → Live out back r' → r.hash ≠ r'.hash →
    ∀ i, ¬ ((r.start.toNat ≤ i ∧ i < r.start.toNat + r.count.toNat) ∧
      (r'.start.toNat ≤ i ∧ i < r'.start.toNat + r'.count.toNat))

theorem Holding.dependable {out : List (Ref × Bytes)} {back : List Ref} {H : Multiset Ref}
    (hl : env.Lawful) (h : Holding env bs out back p H) : Dependable env bs out back p := by
  have hsome : ∀ r, Live out back r → ∃ e, p.ddt.lookup r.hash = some e ∧ r = refFrom r.hash e := by
    intro r hr
    have hpos : 0 < (out.map Prod.fst).count r := Nat.zero_lt_of_lt hr
    obtain ⟨⟨_, b⟩, hm, rfl⟩ := List.mem_map.mp (List.count_pos_iff.mp hpos)
    obtain ⟨e, he, heq, -⟩ := h.good _ (h.mem_of_live hr) b hm
    exact ⟨e, he, heq⟩
  refine ⟨fun r b hm hr => (h.good r (h.mem_of_live hr) b hm).read hl, fun r b hm hr hfew => ?_,
    fun r r' hr hr' hne i => ?_⟩
  · obtain ⟨e, he, heq⟩ := hsome r hr
    have hkey := (h.known r b hm).1
    have hrefs := h.refs (h.mem_of_live hr)
    rw [Dedup.Table.refs_of_lookup he] at hrefs
    rw [← hrefs] at hfew
    obtain ⟨ddt, f, hincr⟩ : ∃ ddt f, p.ddt.incr r.hash = some (f, ddt) := by
      unfold Dedup.Table.incr
      rw [he]
      simp only
      rw [if_pos (by omega)]
      exact ⟨_, _, rfl⟩
    rw [← hkey] at he hincr
    refine ⟨{ p with dev := p.dev.note (.hash b), ddt := ddt }, ?_, rfl, rfl⟩
    rw [write_hit he hincr, hkey, ← heq]
  · rintro ⟨hi, hi'⟩
    obtain ⟨e, he, heq⟩ := hsome r hr
    obtain ⟨e', he', heq'⟩ := hsome r' hr'
    rw [heq] at hi
    rw [heq'] at hi'
    obtain ⟨L, hsp⟩ := h.stock.space
    exact hne (hsp.entries _ _ e e' i he he' hi hi')

/-- In every usage whose callers release only refs they hold, held refs read
back, are shared, and do not overlap. -/
theorem usage_dependable {p₀ : Pool} {out : List (Ref × Bytes)} {back : List Ref} (hl : env.Lawful)
    (hp : Unused p₀) (h : Usage env bs Live p₀ out back p) (hplay : InPlay env p.dev.trace) :
    Dependable env bs out back p := by
  obtain ⟨H, hH⟩ := h.holding hp hplay
  exact hH.dependable hl

/-! ## Scripts of calls -/

/-- A call, which names the ref it releases by its place in `out`. -/
inductive Move where
  | write (b : Bytes)
  | release (i : Nat)
  | apply
  deriving DecidableEq

/-- Make the calls of a script, as long as they return and `ok` allows them. -/
def play (env : Env) (bs : BlockStore) (ok : List (Ref × Bytes) → List Ref → Ref → Bool) :
    List Move → List (Ref × Bytes) → List Ref → Pool →
      Option (List (Ref × Bytes) × List Ref × Pool)
  | [], out, back, p => some (out, back, p)
  | .write b :: ms, out, back, p =>
      match write env bs b p with
      | .ok r p' => play env bs ok ms ((r, b) :: out) back p'
      | .error _ _ => none
  | .release i :: ms, out, back, p =>
      match out[i]? with
      | none => none
      | some (r, _) =>
          if ok out back r then
            match release r p with
            | .ok _ p' => play env bs ok ms out (r :: back) p'
            | .error _ _ => none
          else none
  | .apply :: ms, out, back, p => play env bs ok ms out back { p with bm := p.bm.applyDeferred }

theorem usage_of_play {ok : List (Ref × Bytes) → List Ref → Ref → Bool} {p₀ : Pool} {ms : List Move}
    {out out' : List (Ref × Bytes)} {back back' : List Ref} {p p' : Pool}
    (h : Usage env bs (fun o b r => ok o b r = true) p₀ out back p)
    (hp : play env bs ok ms out back p = some (out', back', p')) :
    Usage env bs (fun o b r => ok o b r = true) p₀ out' back' p' := by
  induction ms generalizing out back p with
  | nil =>
    cases hp
    exact h
  | cons m ms ih =>
    cases m with
    | write b =>
      rw [play] at hp
      cases hw : write env bs b p with
      | ok r p₁ =>
        rw [hw] at hp
        exact ih (.wrote h hw) hp
      | error f p₁ =>
        rw [hw] at hp
        cases hp
    | release i =>
      rw [play] at hp
      cases hi : out[i]? with
      | none =>
        rw [hi] at hp
        cases hp
      | some x =>
        rw [hi] at hp
        simp only at hp
        split at hp
        · next hok =>
          cases hr : release x.1 p with
          | ok u p₁ =>
            rw [hr] at hp
            exact ih (.released h hok hr) hp
          | error f p₁ =>
            rw [hr] at hp
            cases hp
        · cases hp
    | apply => exact ih (.applied h) hp

/-- A small pool with cluster 0 reserved. -/
def bench : Pool :=
  ⟨Disk.zeroed 5 (by decide), (Alloc.Bitmap.new 5).reserve 0 1, Dedup.Table.new⟩

theorem bench_unused : Unused bench where
  counted := (Alloc.Bitmap.reserve_spec (Alloc.Bitmap.new_counted 5) 0 1).2.2.1
  total_lt := by decide
  deferred := rfl
  ddt _ := rfl

theorem keyless_ok (k : Bytes) (h : (none : Option Bytes) = some k) : k.length = 32 ∨
    k.length = 64 := by
  cases h

def plainStore : BlockStore := ⟨none, keyless_ok⟩

/-- The blocks of a history that went through the content hash. -/
def hashed (tr : List Event) : List Bytes :=
  tr.filterMap fun ev =>
    match ev with
    | .hash b => some b
    | _ => none

theorem mem_hashed {tr : List Event} : b ∈ hashed tr ↔ .hash b ∈ tr := by
  unfold hashed
  rw [List.mem_filterMap]
  constructor
  · rintro ⟨ev, hm, hev⟩
    cases ev with
    | hash b' =>
      cases hev
      exact hm
    | write => cases hev
    | sync => cases hev
    | refused => cases hev
  · exact fun hm => ⟨_, hm, rfl⟩

/-- `InPlay` as a check over the hashed blocks. -/
theorem inPlay_of_hashed {tr : List Event}
    (h : ∀ b ∈ hashed tr, b.length < 2 ^ 32 ∧
      ∀ b' ∈ hashed tr, env.blake3 b = env.blake3 b' → b = b') : InPlay env tr :=
  ⟨fun b b' hb hb' => (h b (mem_hashed.mpr hb)).2 b' (mem_hashed.mpr hb'),
    fun b hb => (h b (mem_hashed.mpr hb)).1⟩

instance (out : List (Ref × Bytes)) (back : List Ref) (r : Ref) : Decidable (Live out back r) :=
  inferInstanceAs (Decidable (_ < _))

theorem usage_dependable_shared :
    ∃ out back p, Usage Env.plain plainStore Live bench out back p ∧
      InPlay Env.plain p.dev.trace ∧ out.length = 2 ∧ back.length = 1 ∧
      Dependable Env.plain plainStore out back p := by
  have h : ∃ x ∈ play Env.plain plainStore (fun o b r => decide (Live o b r))
      [.write [7], .write [7], .release 0, .apply] [] [] bench,
      (x.1.length = 2 ∧ x.2.1.length = 1) ∧ ∀ b ∈ hashed x.2.2.dev.trace, b.length < 2 ^ 32 ∧
        ∀ b' ∈ hashed x.2.2.dev.trace, Env.plain.blake3 b = Env.plain.blake3 b' → b = b' := by
    decide +kernel
  obtain ⟨⟨out, back, p⟩, hplay, ⟨ho, hb⟩, hin⟩ := h
  have hu := usage_of_play .start hplay
  simp only [decide_eq_true_eq] at hu
  exact ⟨out, back, p, hu, inPlay_of_hashed hin, ho, hb,
    usage_dependable Env.plain_lawful bench_unused hu (inPlay_of_hashed hin)⟩

/-- A ref that is released once too often takes the reference of the block's next
owner: after `[7]` is stored, released and stored again, a second release of the
first ref frees the clusters of the second one. -/
theorem stale_release_loses_block :
    ∃ out back p r, Usage Env.plain plainStore (fun _ _ _ => True) bench out back p ∧
      InPlay Env.plain p.dev.trace ∧ (r, [7]) ∈ out ∧ Live out back r ∧
      read Env.plain plainStore p.dev r ≠ .ok [7] := by
  have h : ∃ x ∈ play Env.plain plainStore (fun _ _ _ => true)
      [.write [7], .release 0, .write [7], .release 1, .apply, .write [8], .write [9]] [] [] bench,
      (∃ y ∈ x.1, y.2 = [7] ∧ Live x.1 x.2.1 y.1 ∧
        (read Env.plain plainStore x.2.2.dev y.1).toOption ≠ some [7]) ∧
      ∀ b ∈ hashed x.2.2.dev.trace, b.length < 2 ^ 32 ∧
        ∀ b' ∈ hashed x.2.2.dev.trace, Env.plain.blake3 b = Env.plain.blake3 b' → b = b' := by
    decide +kernel
  obtain ⟨⟨out, back, p⟩, hplay, ⟨⟨r, b⟩, hm, rfl, hlive, hread⟩, hin⟩ := h
  have hu := usage_of_play .start hplay
  simp only at hu
  exact ⟨out, back, p, r, hu, inPlay_of_hashed hin, hm, hlive, fun heq => hread (by rw [heq]; rfl)⟩

end Store
end BloomFS

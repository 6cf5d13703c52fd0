/-
Who owns each cluster.

`Space ds L p` says that the set bits of the bitmap are the reserved clusters
below `ds`, the clusters of the dedup entries, the deferred clusters and the lost
ones `L`, and that the first three do not overlap. Each call of the data path, and the end
of a commit, moves clusters between the three and keeps this.
-/
import BloomFS.Store.Steps

namespace BloomFS

/-- Where an entry lives. -/
def Dedup.Entry.place (e : Dedup.Entry) : UInt64 × UInt32 := (e.start, e.count)

/-- Cluster `i` belongs to the entry. -/
def Dedup.Entry.Covers (e : Dedup.Entry) (i : Nat) : Prop :=
  e.start.toNat ≤ i ∧ i < e.start.toNat + e.count.toNat

/-- Cluster `i` belongs to the deferred range. -/
def Alloc.FreeRange.Covers (r : Alloc.FreeRange) (i : Nat) : Prop :=
  r.start ≤ i ∧ i < r.start + r.count

namespace Store

open Bytes Exec Block

/-- Cluster `i` belongs to some entry of the table. -/
def Owned (t : Dedup.Table) (i : Nat) : Prop := ∃ k e, t.lookup k = some e ∧ e.Covers i

structure Space (ds : Nat) (L : Nat → Prop) (p : Pool) : Prop where
  counted : p.bm.Counted
  start_le : ds ≤ p.bm.total
  total_lt : p.bm.total < 2 ^ 64
  entry_in : ∀ k e, p.ddt.lookup k = some e →
    ds ≤ e.start.toNat ∧ e.start.toNat + e.count.toNat ≤ p.bm.total
  entries : ∀ k k' e e' i, p.ddt.lookup k = some e → p.ddt.lookup k' = some e' →
    e.Covers i → e'.Covers i → k = k'
  deferred_in : ∀ r ∈ p.bm.deferred, ds ≤ r.start ∧ r.start + r.count ≤ p.bm.total
  deferred : p.bm.deferred.Pairwise fun r r' => ∀ i, r.Covers i → ¬ r'.Covers i
  apart : ∀ r ∈ p.bm.deferred, ∀ i, r.Covers i → ¬ Owned p.ddt i
  bits : ∀ i, i < p.bm.total →
    (p.bm.bits i = true ↔ i < ds ∨ Owned p.ddt i ∨ Alloc.Bitmap.InRanges p.bm.deferred i ∨ L i)

namespace Space

variable {ds : Nat} {L : Nat → Prop} {p p' : Pool}

theorem covers_of_place {e e' : Dedup.Entry} (h : e'.place = e.place) (i : Nat) :
    e'.Covers i ↔ e.Covers i := by
  have hs : e'.start = e.start := congrArg Prod.fst h
  have hc : e'.count = e.count := congrArg Prod.snd h
  rw [Dedup.Entry.Covers, Dedup.Entry.Covers, hs, hc]

theorem of_fresh (hc : p.bm.Counted) (hds : ds ≤ p.bm.total) (ht : p.bm.total < 2 ^ 64)
    (hddt : ∀ k, p.ddt.lookup k = none) (hdef : p.bm.deferred = [])
    (hbits : ∀ i, i < p.bm.total → (p.bm.bits i = true ↔ i < ds)) :
    Space ds (fun _ => False) p := by
  have hown : ∀ i, ¬ Owned p.ddt i := by
    rintro i ⟨k, e, he, -⟩
    rw [hddt k] at he
    cases he
  refine ⟨hc, hds, ht, fun k e he => ?_, fun k k' e e' i he _ hc _ => (hown i ⟨k, e, he, hc⟩).elim,
    ?_, ?_, ?_, fun i hi => ?_⟩
  · rw [hddt k] at he
    cases he
  · rw [hdef]
    simp
  · rw [hdef]
    exact List.Pairwise.nil
  · rw [hdef]
    simp
  · rw [hbits i hi, hdef]
    simp [hown i, Alloc.Bitmap.InRanges]

/-- Where the entries live decides ownership; their other fields do not matter. -/
theorem of_places (h : Space ds L p) (hbm : p'.bm = p.bm)
    (hpl : ∀ k, (p'.ddt.lookup k).map Dedup.Entry.place = (p.ddt.lookup k).map Dedup.Entry.place) :
    Space ds L p' := by
  have hback : ∀ k e', p'.ddt.lookup k = some e' →
      ∃ e, p.ddt.lookup k = some e ∧ e'.place = e.place := by
    intro k e' he'
    have hk := hpl k
    rw [he'] at hk
    cases he : p.ddt.lookup k with
    | none => rw [he] at hk; cases hk
    | some e => rw [he] at hk; exact ⟨e, rfl, Option.some.inj hk⟩
  have hown : ∀ i, Owned p'.ddt i ↔ Owned p.ddt i := by
    intro i
    constructor
    · rintro ⟨k, e', he', hc⟩
      obtain ⟨e, he, hp⟩ := hback k e' he'
      exact ⟨k, e, he, (covers_of_place hp i).mp hc⟩
    · rintro ⟨k, e, he, hc⟩
      have hk := hpl k
      rw [he] at hk
      cases he' : p'.ddt.lookup k with
      | none => rw [he'] at hk; cases hk
      | some e' =>
        rw [he'] at hk
        exact ⟨k, e', he', (covers_of_place (Option.some.inj hk) i).mpr hc⟩
  refine ⟨hbm ▸ h.counted, hbm ▸ h.start_le, hbm ▸ h.total_lt, fun k e' he' => ?_,
    fun k k' e e' i he he' hc hc' => ?_, hbm ▸ h.deferred_in, hbm ▸ h.deferred, ?_, ?_⟩
  · obtain ⟨e, he, hp⟩ := hback k e' he'
    have hs : e'.start = e.start := congrArg Prod.fst hp
    have hc : e'.count = e.count := congrArg Prod.snd hp
    rw [hs, hc, hbm]
    exact h.entry_in k e he
  · obtain ⟨f, hf, hp⟩ := hback k e he
    obtain ⟨f', hf', hp'⟩ := hback k' e' he'
    exact h.entries k k' f f' i hf hf' ((covers_of_place hp i).mp hc)
      ((covers_of_place hp' i).mp hc')
  · intro r hr i hc
    rw [hbm] at hr
    rw [hown]
    exact h.apart r hr i hc
  · intro i hi
    rw [hbm] at hi ⊢
    rw [hown]
    exact h.bits i hi

theorem freeRun_unowned (h : Space ds L p) {count start : Nat}
    (hrun : Alloc.Bitmap.FreeRun p.bm.bits p.bm.total count start) {i : Nat} (h1 : start ≤ i)
    (h2 : i < start + count) :
    ds ≤ i ∧ ¬ Owned p.ddt i ∧ ¬ Alloc.Bitmap.InRanges p.bm.deferred i := by
  have hlt : i < p.bm.total := by
    have := hrun.1
    omega
  have hclear := hrun.2 i h1 h2
  have hbits := h.bits i hlt
  rw [hclear] at hbits
  simp only [Bool.false_eq_true, false_iff, not_or] at hbits
  exact ⟨by omega, hbits.2.1, hbits.2.2.1⟩

theorem lookup_add_cases {t : Dedup.Table} {k k' : Dedup.Key} {e e' : Dedup.Entry}
    (h : (t.add k e).lookup k' = some e') :
    k' = k ∧ e' = { e with refs := 1 } ∨ k' ≠ k ∧ t.lookup k' = some e' := by
  by_cases hk : k' = k
  · subst hk
    rw [Dedup.Table.lookup_add] at h
    exact .inl ⟨rfl, (Option.some.inj h).symm⟩
  · rw [Dedup.Table.lookup_add_of_ne hk] at h
    exact .inr ⟨hk, h⟩

/-- A freshly stored block takes the run it was given.  What its entry does not
record of the run is lost. -/
theorem of_alloc (h : Space ds L p) {count start : Nat} {bm : Alloc.Bitmap} {k : Dedup.Key}
    {e : Dedup.Entry} (halloc : p.bm.alloc count = .ok (start, bm)) (hlook : p.ddt.lookup k = none)
    (hstart : e.start.toNat = start) (hcount : e.count.toNat ≤ count)
    (hbm : p'.bm = bm) (hddt : p'.ddt = p.ddt.add k e) :
    Space ds (fun i => L i ∨ start + e.count.toNat ≤ i ∧ i < start + count) p' := by
  obtain ⟨-, hrun, -, htot, hdef, -, hbits⟩ := Alloc.Bitmap.alloc_ok halloc
  have hcov : ∀ i, ({ e with refs := 1 } : Dedup.Entry).Covers i ↔
      start ≤ i ∧ i < start + e.count.toNat := by
    intro i
    rw [Dedup.Entry.Covers, hstart]
  have hown : ∀ i, Owned p'.ddt i ↔ (start ≤ i ∧ i < start + e.count.toNat) ∨ Owned p.ddt i := by
    intro i
    rw [hddt]
    constructor
    · rintro ⟨k', e', he', hc⟩
      rcases lookup_add_cases he' with ⟨-, rfl⟩ | ⟨-, hold⟩
      · exact .inl ((hcov i).mp hc)
      · exact .inr ⟨k', e', hold, hc⟩
    · rintro (hin | ⟨k', e', he', hc⟩)
      · exact ⟨k, _, Dedup.Table.lookup_add _ _ _, (hcov i).mpr hin⟩
      · have hne : k' ≠ k := by
          rintro rfl
          rw [hlook] at he'
          cases he'
        exact ⟨k', e', (Dedup.Table.lookup_add_of_ne hne).trans he', hc⟩
  have hfree := fun i => h.freeRun_unowned hrun (i := i)
  have hin_run : ∀ i, i < start + e.count.toNat → i < start + count := fun i hi =>
    hi.trans_le (Nat.add_le_add_left hcount start)
  rw [← hbm] at htot hdef hbits
  refine ⟨hbm ▸ Alloc.Bitmap.alloc_counted h.counted halloc, htot ▸ h.start_le, htot ▸ h.total_lt,
    ?_, ?_, ?_, ?_, ?_, ?_⟩
  · intro k' e' he'
    rw [hddt] at he'
    rcases lookup_add_cases he' with ⟨-, rfl⟩ | ⟨-, hold⟩
    · have hpos := (Alloc.Bitmap.alloc_ok halloc).1
      have hds := (hfree start (Nat.le_refl _) (by omega)).1
      show ds ≤ e.start.toNat ∧ e.start.toNat + e.count.toNat ≤ p'.bm.total
      rw [hstart, htot]
      exact ⟨hds, (Nat.add_le_add_left hcount start).trans hrun.1⟩
    · rw [htot]
      exact h.entry_in k' e' hold
  · intro k₁ k₂ e₁ e₂ i he₁ he₂ hc₁ hc₂
    rw [hddt] at he₁ he₂
    rcases lookup_add_cases he₁ with ⟨rfl, rfl⟩ | ⟨-, hold₁⟩
    · rcases lookup_add_cases he₂ with ⟨rfl, -⟩ | ⟨-, hold₂⟩
      · rfl
      · have hin := (hcov i).mp hc₁
        exact ((hfree i hin.1 (hin_run i hin.2)).2.1 ⟨k₂, e₂, hold₂, hc₂⟩).elim
    · rcases lookup_add_cases he₂ with ⟨rfl, rfl⟩ | ⟨-, hold₂⟩
      · have hin := (hcov i).mp hc₂
        exact ((hfree i hin.1 (hin_run i hin.2)).2.1 ⟨k₁, e₁, hold₁, hc₁⟩).elim
      · exact h.entries k₁ k₂ e₁ e₂ i hold₁ hold₂ hc₁ hc₂
  · rw [hdef, htot]
    exact h.deferred_in
  · rw [hdef]
    exact h.deferred
  · intro r hr i hc
    rw [hdef] at hr
    rw [hown]
    rintro (hin | hold)
    · exact (hfree i hin.1 (hin_run i hin.2)).2.2 ⟨r, hr, hc⟩
    · exact h.apart r hr i hc hold
  · intro i hi
    rw [htot] at hi
    rw [hbits i, hown, hdef, Bool.or_eq_true, h.bits i hi, decide_eq_true_eq]
    constructor
    · rintro ((h1 | h1 | h1 | h1) | ⟨h1, h2⟩)
      · exact .inl h1
      · exact .inr (.inl (.inr h1))
      · exact .inr (.inr (.inl h1))
      · exact .inr (.inr (.inr (.inl h1)))
      · rcases Nat.lt_or_ge i (start + e.count.toNat) with h3 | h3
        · exact .inr (.inl (.inl ⟨h1, h3⟩))
        · exact .inr (.inr (.inr (.inr ⟨h3, h2⟩)))
    · rintro (h1 | (⟨h1, h2⟩ | h1) | h1 | h1 | ⟨h1, h2⟩)
      · exact .inl (.inl h1)
      · exact .inr ⟨h1, hin_run i h2⟩
      · exact .inl (.inr (.inl h1))
      · exact .inl (.inr (.inr (.inl h1)))
      · exact .inl (.inr (.inr (.inr h1)))
      · exact .inr ⟨(Nat.le_add_right _ _).trans h1, h2⟩

theorem of_free (h : Space ds L p) {count start : Nat} {bm : Alloc.Bitmap}
    (halloc : p.bm.alloc count = .ok (start, bm)) (hbm : p'.bm = bm.free start count)
    (hddt : p'.ddt = p.ddt) : Space ds L p' := by
  obtain ⟨-, hrun, -, htot, hdef, -, hbits⟩ := Alloc.Bitmap.alloc_ok halloc
  obtain ⟨ftot, fdef, fcnt, fbits⟩ :=
    Alloc.Bitmap.free_spec (Alloc.Bitmap.alloc_counted h.counted halloc) start count
  rw [← hbm] at ftot fdef fcnt fbits
  rw [htot] at ftot
  rw [hdef] at fdef
  refine ⟨fcnt, ftot ▸ h.start_le, ftot ▸ h.total_lt, ?_, ?_, ?_, fdef ▸ h.deferred, ?_, ?_⟩
  · rw [hddt, ftot]
    exact h.entry_in
  · rw [hddt]
    exact h.entries
  · rw [fdef, ftot]
    exact h.deferred_in
  · rw [fdef, hddt]
    exact h.apart
  · intro i hi
    rw [ftot] at hi
    have hsame : p'.bm.bits i = p.bm.bits i := by
      rw [fbits, hbits, htot]
      by_cases hin : start ≤ i ∧ i < start + count
      · rw [hrun.2 i hin.1 hin.2]
        simp [hin, hi]
      · have hout : ¬ (start ≤ i ∧ i < start + count ∧ i < p.bm.total) :=
          fun hh => hin ⟨hh.1, hh.2.1⟩
        simp [hin, hout]
    rw [hsame, fdef, hddt]
    exact h.bits i hi

/-- The last reference moves the clusters of an entry to the deferred list. -/
theorem of_defer (h : Space ds L p) {k : Dedup.Key} {e : Dedup.Entry}
    (hlook : p.ddt.lookup k = some e) (hddt : p'.ddt = ⟨p.ddt.m.erase k⟩)
    (hbm : p'.bm = p.bm.defer e.start.toNat e.count.toNat) : Space ds L p' := by
  have hother : ∀ k', k' ≠ k → p'.ddt.lookup k' = p.ddt.lookup k' := by
    intro k' hk
    rw [hddt]
    exact AList.lookup_erase_ne hk
  have hgone : p'.ddt.lookup k = none := by
    rw [hddt]
    exact AList.lookup_erase _ _
  have hback : ∀ k' e', p'.ddt.lookup k' = some e' → k' ≠ k ∧ p.ddt.lookup k' = some e' := by
    intro k' e' he'
    have hne : k' ≠ k := by
      rintro rfl
      rw [hgone] at he'
      cases he'
    exact ⟨hne, (hother k' hne) ▸ he'⟩
  have hown : ∀ i, Owned p.ddt i ↔ e.Covers i ∨ Owned p'.ddt i := by
    intro i
    constructor
    · rintro ⟨k', e', he', hc⟩
      by_cases hk : k' = k
      · subst hk
        rw [hlook] at he'
        cases he'
        exact .inl hc
      · exact .inr ⟨k', e', (hother k' hk).trans he', hc⟩
    · rintro (hc | ⟨k', e', he', hc⟩)
      · exact ⟨k, e, hlook, hc⟩
      · exact ⟨k', e', (hback k' e' he').2, hc⟩
  have htot : p'.bm.total = p.bm.total := by rw [hbm]; rfl
  have hdef : p'.bm.deferred = p.bm.deferred ++ [⟨e.start.toNat, e.count.toNat⟩] := by rw [hbm]; rfl
  have hbits : p'.bm.bits = p.bm.bits := by rw [hbm]; rfl
  have hsplit : ∀ r ∈ p'.bm.deferred,
      r ∈ p.bm.deferred ∨ r = ⟨e.start.toNat, e.count.toNat⟩ := by
    intro r hr
    rw [hdef] at hr
    rcases List.mem_append.mp hr with hr | hr
    · exact .inl hr
    · exact .inr (List.mem_singleton.mp hr)
  refine ⟨?_, htot ▸ h.start_le, htot ▸ h.total_lt, ?_, ?_, ?_, ?_, ?_, ?_⟩
  · rw [hbm]
    exact h.counted
  · intro k' e' he'
    rw [htot]
    exact h.entry_in k' e' (hback k' e' he').2
  · intro k₁ k₂ e₁ e₂ i he₁ he₂ hc₁ hc₂
    exact h.entries k₁ k₂ e₁ e₂ i (hback _ _ he₁).2 (hback _ _ he₂).2 hc₁ hc₂
  · intro r hr
    rw [htot]
    rcases hsplit r hr with hr | rfl
    · exact h.deferred_in r hr
    · exact h.entry_in k e hlook
  · rw [hdef, List.pairwise_append]
    refine ⟨h.deferred, List.pairwise_singleton _ _, fun r hr r' hr' i hc hc' => ?_⟩
    rw [List.mem_singleton.mp hr'] at hc'
    exact h.apart r hr i hc ⟨k, e, hlook, hc'⟩
  · rintro r hr i hc ⟨k', e', he', hc'⟩
    obtain ⟨hne, hold⟩ := hback k' e' he'
    rcases hsplit r hr with hr | rfl
    · exact h.apart r hr i hc ⟨k', e', hold, hc'⟩
    · exact hne (h.entries k' k e' e i hold hlook hc' hc)
  · intro i hi
    rw [htot] at hi
    rw [hbits, h.bits i hi, hown, hdef]
    simp only [Alloc.Bitmap.InRanges, List.mem_append, List.mem_singleton, or_and_right, exists_or,
      exists_eq_left]
    constructor
    · rintro (h1 | (h1 | h1) | h1 | h1)
      · exact .inl h1
      · exact .inr (.inr (.inl (.inr h1)))
      · exact .inr (.inl h1)
      · exact .inr (.inr (.inl (.inl h1)))
      · exact .inr (.inr (.inr h1))
    · rintro (h1 | h1 | (h1 | h1) | h1)
      · exact .inl h1
      · exact .inr (.inl (.inr h1))
      · exact .inr (.inr (.inl h1))
      · exact .inr (.inl (.inl h1))
      · exact .inr (.inr (.inr h1))

/-- The end of a commit frees the deferred clusters. -/
theorem of_commit (h : Space ds L p) (hbm : p'.bm = p.bm.applyDeferred) (hddt : p'.ddt = p.ddt) :
    Space ds (fun i => L i ∧ ¬ Alloc.Bitmap.InRanges p.bm.deferred i) p' := by
  obtain ⟨htot, hdef, hcnt, hbits⟩ := Alloc.Bitmap.applyDeferred_spec h.counted
  rw [← hbm] at htot hdef hcnt hbits
  refine ⟨hcnt, htot ▸ h.start_le, htot ▸ h.total_lt, ?_, ?_, ?_, ?_, ?_, ?_⟩
  · rw [hddt, htot]
    exact h.entry_in
  · rw [hddt]
    exact h.entries
  · rw [hdef]
    simp
  · rw [hdef]
    exact List.Pairwise.nil
  · rw [hdef]
    simp
  · intro i hi
    rw [htot] at hi
    rw [hbits i, hdef, hddt, h.bits i hi]
    have hnil : ¬ Alloc.Bitmap.InRanges [] i := by simp [Alloc.Bitmap.InRanges]
    constructor
    · rintro ⟨h1 | h1 | h1 | h1, hno⟩
      · exact .inl h1
      · exact .inr (.inl h1)
      · exact (hno hi h1).elim
      · exact .inr (.inr (.inr ⟨h1, hno hi⟩))
    · rintro (h1 | h1 | h1 | ⟨h1, h2⟩)
      · refine ⟨.inl h1, ?_⟩
        rintro - ⟨r, hr, hc⟩
        have := (h.deferred_in r hr).1
        omega
      · refine ⟨.inr (.inl h1), ?_⟩
        rintro - ⟨r, hr, hc⟩
        exact h.apart r hr i hc h1
      · exact (hnil h1).elim
      · exact ⟨.inr (.inr (.inr h1)), fun _ => h2⟩

/-- Reading the tables back forgets what was deferred: those clusters stay in use
with no owner. -/
theorem of_reload (h : Space ds L p) (hc : p'.bm.Counted) (htot : p'.bm.total = p.bm.total)
    (hdef : p'.bm.deferred = []) (hbits : ∀ i, i < p.bm.total → p'.bm.bits i = p.bm.bits i)
    (hddt : ∀ k, p'.ddt.lookup k = p.ddt.lookup k) :
    Space ds (fun i => L i ∨ Alloc.Bitmap.InRanges p.bm.deferred i) p' := by
  have hown : ∀ i, Owned p'.ddt i ↔ Owned p.ddt i := by
    intro i
    unfold Owned
    simp only [hddt]
  refine ⟨hc, htot ▸ h.start_le, htot ▸ h.total_lt, ?_, ?_, ?_, ?_, ?_, fun i hi => ?_⟩
  · intro k e he
    rw [htot]
    exact h.entry_in k e (hddt k ▸ he)
  · intro k k' e e' i he he'
    exact h.entries k k' e e' i (hddt k ▸ he) (hddt k' ▸ he')
  · rw [hdef]
    simp
  · rw [hdef]
    exact List.Pairwise.nil
  · rw [hdef]
    simp
  · rw [htot] at hi
    have hnil : ¬ Alloc.Bitmap.InRanges [] i := by simp [Alloc.Bitmap.InRanges]
    rw [hbits i hi, h.bits i hi, hown, hdef, or_iff_right hnil, or_comm (b := L i)]

/-- Space does not depend on how the lost clusters are described. -/
theorem of_lost (h : Space ds L p) {L' : Nat → Prop} (hL : ∀ i, L i ↔ L' i) : Space ds L' p :=
  ⟨h.counted, h.start_le, h.total_lt, h.entry_in, h.entries, h.deferred_in, h.deferred, h.apart,
    fun i hi => by rw [← hL i]; exact h.bits i hi⟩

/-- The clusters all entries of a table occupy. -/
def entryClusters (t : Dedup.Table) : Nat := (t.m.entries.map fun x => x.2.count.toNat).sum

theorem lookup_of_mem {t : Dedup.Table} {x : Sigma fun _ : Dedup.Key => Dedup.Entry}
    (hx : x ∈ t.m.entries) : t.lookup x.1 = some x.2 :=
  AList.mem_lookup_iff.mpr hx

theorem mem_of_lookup {t : Dedup.Table} {k : Dedup.Key} {e : Dedup.Entry}
    (h : t.lookup k = some e) : (⟨k, e⟩ : Sigma fun _ : Dedup.Key => Dedup.Entry) ∈ t.m.entries :=
  AList.mem_lookup_iff.mp h

/-- The number of set bits, by owner. -/
theorem used (h : Space ds (fun _ => False) p) :
    p.bm.used = ds + entryClusters p.ddt + p.bm.deferredCount := by
  have hcount : p.bm.used = Alloc.Bitmap.setBits p.bm.bits p.bm.total := h.counted
  have hsum := Alloc.Bitmap.setBits_ranges h.start_le
    (l := (p.ddt.m.entries.map fun x => (x.2.start.toNat, x.2.count.toNat)) ++
      p.bm.deferred.map fun r => (r.start, r.count)) p.bm.bits ?_ ?_ ?_
  · rw [hcount, hsum, List.map_append, List.sum_append, List.map_map, List.map_map]
    simp only [Function.comp_def, entryClusters, Alloc.Bitmap.deferredCount]
    omega
  · intro r hr
    rcases List.mem_append.mp hr with hr | hr
    · obtain ⟨x, hx, rfl⟩ := List.mem_map.mp hr
      exact h.entry_in x.1 x.2 (lookup_of_mem hx)
    · obtain ⟨x, hx, rfl⟩ := List.mem_map.mp hr
      exact h.deferred_in x hx
  · rw [List.pairwise_append, List.pairwise_map, List.pairwise_map]
    refine ⟨?_, h.deferred.imp (fun hr i h1 h2 => hr i ⟨h1, h2⟩), ?_⟩
    · have hnodup : p.ddt.m.entries.Pairwise fun x y => x.1 ≠ y.1 :=
        List.nodupKeys_iff_pairwise.mp p.ddt.m.nodupKeys
      refine hnodup.imp_of_mem (fun hx hy hne i h1 h2 h3 => hne ?_)
      exact h.entries _ _ _ _ i (lookup_of_mem hx) (lookup_of_mem hy) ⟨h1, h2⟩ h3
    · intro a ha b hb i h1 h2 h3
      obtain ⟨x, hx, rfl⟩ := List.mem_map.mp ha
      obtain ⟨y, hy, rfl⟩ := List.mem_map.mp hb
      exact h.apart y hy i h3 ⟨x.1, x.2, lookup_of_mem hx, h1, h2⟩
  · intro i hi
    rw [h.bits i hi, or_false]
    simp only [List.mem_append, List.mem_map, or_and_right, exists_or]
    refine or_congr_right (or_congr ⟨?_, ?_⟩ ⟨?_, ?_⟩)
    · rintro ⟨k, e, he, hc⟩
      exact ⟨_, ⟨⟨k, e⟩, mem_of_lookup he, rfl⟩, hc⟩
    · rintro ⟨_, ⟨x, hx, rfl⟩, hc⟩
      exact ⟨x.1, x.2, lookup_of_mem hx, hc⟩
    · rintro ⟨r, hr, hc⟩
      exact ⟨_, ⟨r, hr, rfl⟩, hc⟩
    · rintro ⟨_, ⟨r, hr, rfl⟩, hc⟩
      exact ⟨r, hr, hc⟩

end Space

/-! ## The calls of the data path -/

variable {env : Env} {bs : BlockStore} {ds : Nat} {L : Nat → Prop} {p : Pool}

/-- Whatever is stored for the block takes fewer than 2^32 clusters, so that its
entry records how many. -/
def CountFits (env : Env) (b : Bytes) : Prop :=
  ∀ c, env.encodeAll b = some c → clusters (payloadOf b c).1.length < 2 ^ 32

theorem incr_places {t t' : Dedup.Table} {k : Dedup.Key} {e : Dedup.Entry} {f : Bool}
    (hlook : t.lookup k = some e) (hincr : t.incr k = some (f, t')) (k' : Dedup.Key) :
    (t'.lookup k').map Dedup.Entry.place = (t.lookup k').map Dedup.Entry.place := by
  obtain ⟨⟨e', he', -, hs, hc, -⟩, hother⟩ := Dedup.Table.incr_spec hlook hincr
  by_cases hk : k' = k
  · subst hk
    rw [he', hlook]
    show some (e'.start, e'.count) = some (e.start, e.count)
    rw [hs, hc]
  · rw [hother k' hk]

theorem Wrote.space {b : Bytes} {r : Ref} {p' : Pool} (hw : Wrote env bs b p r p')
    (h : Space ds L p) : ∃ L', Space ds L' p' ∧ (CountFits env b → ∀ i, L' i ↔ L i) := by
  cases hw with
  | hit hlook hincr hbm hddt hdev =>
    exact ⟨L, h.of_places hbm (fun k => by rw [hddt]; exact incr_places hlook hincr k),
      fun _ _ => Iff.rfl⟩
  | miss hlook henc halloc hin hbm hddt hdev =>
    have hrun := (Alloc.Bitmap.alloc_ok halloc).2.1.1
    refine ⟨_, h.of_alloc halloc hlook ?_ ?_ hbm hddt, fun hfit i => ?_⟩
    · have := h.total_lt
      exact UInt64.toNat_ofNat_of_lt' (by show _ < 2 ^ 64; omega)
    · show (UInt32.ofNat _).toNat ≤ _
      rw [UInt32.toNat_ofNat']
      exact Nat.mod_le _ _
    · have hcount : (UInt32.ofNat (clusters _)).toNat = clusters _ :=
        UInt32.toNat_ofNat_of_lt' (hfit _ henc)
      simp only [freshEntry, hcount]
      refine ⟨fun hi => hi.elim id (fun hi => absurd hi.2 (not_lt.mpr hi.1)), .inl⟩

theorem WriteFailed.space {b : Bytes} {e : Fault Error} {p' : Pool}
    (hw : WriteFailed env bs b p e p') (h : Space ds L p) : Space ds L p' := by
  cases hw with
  | overflow hlook hincr hbm hddt hdev => exact h.of_places hbm (fun k => by rw [hddt])
  | compress henc hbm hddt hdev => exact h.of_places hbm (fun k => by rw [hddt])
  | alloc henc halloc hbm hddt hdev => exact h.of_places hbm (fun k => by rw [hddt])
  | device henc halloc hbm hddt hdev hes hfault herr => exact h.of_free halloc hbm hddt

theorem places_shared {r : Ref} {e e' : Dedup.Entry} (hlook : p.ddt.lookup r.hash = some e)
    (hplace : Dedup.Table.Entry.SamePlace e e') (k : Dedup.Key) :
    (Dedup.Table.lookup ⟨p.ddt.m.insert r.hash e'⟩ k).map Dedup.Entry.place =
      (p.ddt.lookup k).map Dedup.Entry.place := by
  by_cases hk : k = r.hash
  · subst hk
    show Option.map _ (AList.lookup r.hash (AList.insert r.hash e' p.ddt.m)) = _
    rw [AList.lookup_insert, hlook]
    show some (e'.start, e'.count) = some (e.start, e.count)
    rw [hplace.1, hplace.2.1]
  · show Option.map _ (AList.lookup k (AList.insert r.hash e' p.ddt.m)) = _
    rw [AList.lookup_insert_ne hk]
    rfl

theorem Released.space {r : Ref} {p' : Pool} (hr : Released r p p') (h : Space ds L p) :
    Space ds L p' := by
  cases hr with
  | absent hlook => exact h
  | @shared e e' hlook hrefs hne hplace =>
    exact h.of_places rfl (places_shared hlook hplace)
  | last hlook hone => exact h.of_defer hlook rfl rfl

/-! ## The clusters of one block -/

/-- Some clusters are in use for the block of key `k`, or wait for a commit. -/
def Backed (k : Dedup.Key) (p : Pool) : Prop :=
  (∃ e, p.ddt.lookup k = some e ∧ e.count ≠ 0) ∨ ∃ r ∈ p.bm.deferred, r.count ≠ 0

section Backed

variable {k : Dedup.Key} {p' : Pool}

theorem Backed.of_places (h : Backed k p) (hdef : p'.bm.deferred = p.bm.deferred)
    (hplace : (p'.ddt.lookup k).map Dedup.Entry.place = (p.ddt.lookup k).map Dedup.Entry.place) :
    Backed k p' := by
  rcases h with ⟨e, he, hcount⟩ | h
  · rw [he, Option.map_some] at hplace
    obtain ⟨e', he', hp⟩ := Option.map_eq_some_iff.mp hplace
    have hc : e'.count = e.count := congrArg Prod.snd hp
    exact .inl ⟨e', he', hc ▸ hcount⟩
  · exact .inr (hdef ▸ h)

theorem Wrote.backed {b : Bytes} {r : Ref} (hw : Wrote env bs b p r p') (h : Backed k p) :
    Backed k p' := by
  cases hw with
  | hit hlook hincr hbm hddt hdev =>
    exact h.of_places (by rw [hbm]) (by rw [hddt]; exact incr_places hlook hincr k)
  | miss hlook henc halloc hin hbm hddt hdev =>
    have hdef : p'.bm.deferred = p.bm.deferred := hbm ▸ (Alloc.Bitmap.alloc_ok halloc).2.2.2.2.1
    rcases h with ⟨e, he, hcount⟩ | h
    · have hne : k ≠ env.blake3 b := by
        rintro rfl
        rw [hlook] at he
        cases he
      exact .inl ⟨e, by rw [hddt, Dedup.Table.lookup_add_of_ne hne]; exact he, hcount⟩
    · exact .inr (hdef ▸ h)

theorem WriteFailed.backed {b : Bytes} {e : Fault Error} (hw : WriteFailed env bs b p e p')
    (h : Backed k p) : Backed k p' := by
  cases hw with
  | overflow hlook hincr hbm hddt hdev => exact h.of_places (by rw [hbm]) (by rw [hddt])
  | compress henc hbm hddt hdev => exact h.of_places (by rw [hbm]) (by rw [hddt])
  | alloc henc halloc hbm hddt hdev => exact h.of_places (by rw [hbm]) (by rw [hddt])
  | device henc halloc hbm hddt hdev hes hfault herr =>
    refine h.of_places ?_ (by rw [hddt])
    rw [hbm, Alloc.Bitmap.deferred_free]
    exact (Alloc.Bitmap.alloc_ok halloc).2.2.2.2.1

theorem Released.backed {r : Ref} (hr : Released r p p') (h : Backed k p) : Backed k p' := by
  cases hr with
  | absent hlook => exact h
  | @shared e e' hlook hrefs hne hplace => exact h.of_places rfl (places_shared hlook hplace k)
  | @last e hlook hone =>
    rcases h with ⟨e', he, hcount⟩ | ⟨q, hq, hcount⟩
    · by_cases hk : k = r.hash
      · subst hk
        cases hlook.symm.trans he
        have hpos : e.count.toNat ≠ 0 := fun h0 => hcount (UInt32.toNat_inj.mp h0)
        exact .inr ⟨⟨e.start.toNat, e.count.toNat⟩,
          List.mem_append_right _ (List.mem_singleton.mpr rfl), hpos⟩
      · refine .inl ⟨e', ?_, hcount⟩
        show AList.lookup k (AList.erase r.hash p.ddt.m) = _
        rw [AList.lookup_erase_ne hk]
        exact he
    · exact .inr ⟨q, List.mem_append_left _ hq, hcount⟩

end Backed

end Store
end BloomFS

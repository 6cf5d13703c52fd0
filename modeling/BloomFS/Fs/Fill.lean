/-
Filling a pool.

When nothing was released since the last commit, blocks of new content are stored one
after the other until one is refused, and each of them adds its clusters to those in use.
-/
import BloomFS.Fs.Room

namespace BloomFS
namespace Fs

open Bytes Exec Block Store
open Alloc.Bitmap (FreeRun)

variable {env : Env} {s : FS} {b c : Bytes} {n u : Nat}

/-! ## What blocks add -/

/-- Only the blocks of `bs` went through the content hash, and they are all that is new in the
table of blocks. -/
structure Adds (env : Env) (s s' : FS) (bs : List Bytes) : Prop where
  hashed : ∀ x, .hash x ∈ s'.dev.trace → .hash x ∈ s.dev.trace ∨ x ∈ bs
  known : ∀ k, s'.ddt.lookup k ≠ none ↔ s.ddt.lookup k ≠ none ∨ ∃ b ∈ bs, env.blake3 b = k

theorem Adds.refl (s : FS) : Adds env s s [] := by
  refine ⟨fun _ hx => .inl hx, fun k => ?_⟩
  simp

theorem Adds.trans {s₁ s₂ s₃ : FS} {bs bs' : List Bytes} (h : Adds env s₁ s₂ bs)
    (h' : Adds env s₂ s₃ bs') : Adds env s₁ s₃ (bs ++ bs') := by
  refine ⟨fun x hx => ?_, fun k => ?_⟩
  · rcases h'.hashed x hx with hx | hx
    · exact (h.hashed x hx).imp_right (List.mem_append_left _)
    · exact .inr (List.mem_append_right _ hx)
  · rw [h'.known, h.known, or_assoc]
    simp only [List.mem_append, or_and_right, exists_or]

theorem hash_of_wrote {bs : BlockStore} {p p' : Pool} {r : Ref} (h : Wrote env bs b p r p') :
    r.hash = env.blake3 b := by
  cases h with
  | hit => rfl
  | miss => rfl

theorem Adds.of_wrote {s' : FS} {r : Ref} (h : Wrote env s.bs b s.pool r s'.pool) :
    Adds env s s' [b] := by
  have hmem : ∀ {es : List Event}, Disk.Extends s.dev s'.dev (.hash b :: es) →
      (∀ x, .hash x ∉ es) → ∀ x, .hash x ∈ s'.dev.trace → .hash x ∈ s.dev.trace ∨ x ∈ [b] := by
    intro es hdev hes x hx
    rw [hdev.trace, List.mem_append, List.mem_cons] at hx
    rcases hx with hx | hx | hx
    · exact .inl hx
    · cases hx
      exact .inr List.mem_cons_self
    · exact absurd hx (hes x)
  cases h with
  | hit hlook hincr hbm hddt hdev =>
    obtain ⟨⟨e', he', -⟩, hother⟩ := Dedup.Table.incr_spec hlook hincr
    refine ⟨hmem hdev fun _ => List.not_mem_nil, fun k => ?_⟩
    rw [show s'.ddt = _ from hddt]
    by_cases hk : k = env.blake3 b
    · subst hk
      simp [he']
    · simp [show _ = s.ddt.lookup k from hother k hk, Ne.symm hk]
  | miss hlook henc halloc hin hbm hddt hdev =>
    refine ⟨hmem hdev fun x => by simp [dataEvents], fun k => ?_⟩
    rw [show s'.ddt = s.ddt.add _ _ from hddt]
    by_cases hk : k = env.blake3 b
    · subst hk
      simp [Dedup.Table.lookup_add]
    · simp [Dedup.Table.lookup_add_of_ne hk, Ne.symm hk]

/-! ## Until the pool is full -/

/-- A pool of `n` clusters, with nothing to be freed and `u` clusters in use. -/
structure Filling (n : Nat) (s : FS) (u : Nat) : Prop where
  working : Working s
  blocks : s.dev.blocks = n
  settled : s.bm.deferred = []
  used : s.bm.used = u

theorem Filling.congr {s' : FS} (h : Filling n s u) (hdev : s'.dev = s.dev) (hbm : s'.bm = s.bm)
    (hub : s'.ub = s.ub) : Filling n s' u := by
  obtain ⟨⟨hreliable, hplaced, htotal, hcounted⟩, hblocks, hsettled, hused⟩ := h
  rw [← hdev] at hreliable hplaced htotal hblocks
  rw [← hbm] at htotal hcounted hsettled hused
  rw [← hub] at hplaced
  exact ⟨⟨hreliable, hplaced, htotal, hcounted⟩, hblocks, hsettled, hused⟩

theorem Filling.le (h : Filling n s u) : u ≤ n := by
  rw [← h.blocks, ← h.working.total, ← h.used]
  exact h.working.used_le

theorem exists_freeRun_one {bm : Alloc.Bitmap} (hc : bm.Counted) (hlt : bm.used < bm.total) :
    ∃ start, FreeRun bm.bits bm.total 1 start := by
  by_contra hno
  have hset : ∀ i ∈ Finset.range bm.total, bm.bits i = true := fun i hi => by
    by_contra hclear
    refine hno ⟨i, Finset.mem_range.mp hi, fun j hlo hhi => ?_⟩
    rw [show j = i by omega]
    exact Bool.eq_false_iff.mpr hclear
  rw [hc, Alloc.Bitmap.setBits, Finset.filter_true_of_mem hset, Finset.card_range] at hlt
  omega

theorem Filling.freeRun_one (h : Filling n s u) (hlt : u < n) :
    ∃ start, FreeRun s.bm.bits s.bm.total 1 start := by
  refine exists_freeRun_one h.working.counted ?_
  rw [h.used, h.working.total, h.blocks]
  exact hlt

/-- New content adds to what is in use, or there is no run for it. -/
theorem Filling.bsWrite (hl : env.Lawful) (h : Filling n s u) (henc : env.encodeAll b = some c)
    (hlook : s.ddt.lookup (env.blake3 b) = none) :
    Sat (Fs.bsWrite b : Act env Ref).1 s
      (fun _ s' => s' = s.setPool s'.pool ∧ Filling n s' (u + need b c) ∧
        (∃ start, s.bm.alloc (need b c) = .ok (start, s'.bm)) ∧ Adds env s s' [b])
      (fun f s' => f = .err (.store (.alloc .noSpace)) ∧
        (∀ start, ¬ FreeRun s.bm.bits s.bm.total (need b c) start) ∧
        Disk.Extends s.dev s'.dev [.hash b, .refused]) := by
  refine sat_handle ((storeWrite_new hl h.working henc hlook).mono (fun r s' hw => ?_)
    (fun f s' he => he)) ?_ (fun _ he => by cases he.1) (fun _ he => by cases he.1)
  · obtain ⟨⟨hrest, hwrote⟩, -⟩ := hw
    have hub : s'.ub = s.ub := by rw [hrest]; rfl
    have hadds := Adds.of_wrote hwrote
    cases hwrote with
    | hit hlook' => cases hlook.symm.trans hlook'
    | @miss c' start bm' p' _ henc' halloc hin hbm hddt hdev =>
      cases henc.symm.trans henc'
      obtain ⟨-, -, -, htotal, hdef, hused, -⟩ := Alloc.Bitmap.alloc_ok halloc
      have hbm : s'.bm = bm' := hbm
      have hblocks : s'.dev.blocks = s.dev.blocks := hdev.blocks
      refine ⟨hrest, ⟨⟨hdev.reliable h.working.reliable, ?_, ?_, ?_⟩, hblocks.trans h.blocks, ?_,
        ?_⟩, ⟨start, by rw [hbm]; exact halloc⟩, hadds⟩
      · rw [hub, hblocks]
        exact h.working.placed
      · rw [hbm, htotal, hblocks]
        exact h.working.total
      · rw [hbm]
        exact Alloc.Bitmap.alloc_counted h.working.counted halloc
      · rw [hbm, hdef]
        exact h.settled
      · rw [hbm, hused, show s.pool.bm.used = u from h.used]
        rfl
  · rintro e s₁ ⟨he, hrest, hbm, -, hdev, hno⟩
    cases he
    refine sat_get_bind (Within.sat_ite (fun hpend => ?_)
      (fun _ => sat_modify_bind (sat_fail ⟨rfl, hno, hdev.trans (refuse_extends s₁)⟩)))
    have hzero : s₁.bm.pending = 0 := by
      unfold Alloc.Bitmap.pending
      rw [hbm, h.settled]
      rfl
    exact absurd hpend.2 (by omega)

/-- A step that stores the block `b` and does nothing else to the state. -/
structure Stores {β : Type} (w : Act env β) (b : Bytes) : Prop where
  sat : ∀ (s : FS) (Q : FS → Prop) (E : Fault Error → FS → Prop),
    Sat (Fs.bsWrite b : Act env Ref).1 s (fun _ s' => Q s') E → Sat w.1 s (fun _ s' => Q s') E

theorem stores_bsWrite (b : Bytes) : Stores (Fs.bsWrite b : Act env Ref) b := ⟨fun _ _ _ h => h⟩

/-- New blocks are stored one by one, or one of them is refused.  What every allocation of
their size keeps of the bitmap is kept. -/
theorem Filling.mapM {ι β : Type} (hl : env.Lawful) (blockOf : ι → Bytes) {w : ι → Act env β}
    {size : Nat} {R : Alloc.Bitmap → Prop}
    (hR : ∀ bm start bm', R bm → bm.alloc size = .ok (start, bm') → R bm') :
    ∀ (is : List ι) {s : FS} {u : Nat}, (∀ i ∈ is, Stores (w i) (blockOf i)) →
      Filling n s u → R s.bm →
      (∀ i ∈ is, ∃ c, env.encodeAll (blockOf i) = some c ∧ need (blockOf i) c = size) →
      (is.map fun i => env.blake3 (blockOf i)).Nodup →
      (∀ i ∈ is, s.ddt.lookup (env.blake3 (blockOf i)) = none) →
      Sat (is.mapM w).1 s
        (fun out s' => out.length = is.length ∧ s' = s.setPool s'.pool ∧
          Filling n s' (u + is.length * size) ∧ R s'.bm ∧ Adds env s s' (is.map blockOf))
        (fun f _ => f = .err (.store (.alloc .noSpace)) ∧ (size = 1 → n < u + is.length))
  | [], s, u, _, h, hr, _, _, _ =>
    sat_pure ⟨rfl, rfl, by simpa using h, hr, .refl s⟩
  | i :: is, s, u, hw, h, hr, henc, hnodup, hlook => by
    obtain ⟨c, hc, hneed⟩ := henc i List.mem_cons_self
    rw [List.map_cons, List.nodup_cons] at hnodup
    have hstored := (hw i List.mem_cons_self).sat s _ _
      (h.bsWrite hl hc (hlook i List.mem_cons_self))
    rw [List.mapM_cons]
    refine sat_bind hstored ?_ (fun f s' he => ⟨he.1, fun hone => ?_⟩)
    swap
    · rw [hneed, hone] at he
      by_contra hroom
      obtain ⟨start, hrun⟩ := h.freeRun_one (by rw [List.length_cons] at hroom; omega)
      exact he.2.1 start hrun
    rintro r s₁ ⟨hrest, hfill, ⟨start, halloc⟩, hadds⟩
    rw [hneed] at hfill halloc
    have hne : ∀ i' ∈ is, env.blake3 (blockOf i') ≠ env.blake3 (blockOf i) := fun i' hi' he =>
      hnodup.1 (he ▸ List.mem_map_of_mem (f := fun i => env.blake3 (blockOf i)) hi')
    refine sat_bind (Filling.mapM hl blockOf hR is
      (fun i' hi' => hw i' (List.mem_cons_of_mem _ hi')) hfill (hR _ _ _ hr halloc)
      (fun i' hi' => henc i' (List.mem_cons_of_mem _ hi')) hnodup.2 fun i' hi' => ?_) ?_
      (fun f s' he => ⟨he.1, fun hone => by have := he.2 hone; rw [List.length_cons]; omega⟩)
    · by_contra hknown
      rcases (hadds.known _).mp hknown with hold | ⟨b, hb, heq⟩
      · exact hold (hlook i' (List.mem_cons_of_mem _ hi'))
      · rw [List.mem_singleton.mp hb] at heq
        exact hne i' hi' heq.symm
    · rintro out s₂ ⟨hlen, hrest₂, hfill₂, hr₂, hadds₂⟩
      refine sat_pure ⟨by rw [List.length_cons, List.length_cons, hlen], ?_, ?_, hr₂,
        hadds.trans hadds₂⟩
      · rw [hrest₂, hrest]
        rfl
      · have hsum : u + (i :: is).length * size = u + size + is.length * size := by
          rw [List.length_cons, Nat.succ_mul]
          omega
        rw [hsum]
        exact hfill₂

end Fs
end BloomFS

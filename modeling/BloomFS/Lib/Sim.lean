/-
Simulation of a computation by a plan.

A plan is a deterministic computation on an abstract state that only grows, in the
order `r`.  `Sim B x y s t Q` says that `x` from `s` does what the plan `y` does from
`t`: it returns when `y` returns and faults as `y` faults, unless it meets one of
the faults that the bridge `B` does not account for.  The bridge may limit how far
the plan grows, and the statement is only about plans within the limit.
-/
import BloomFS.Lib.Within

namespace Exec

def final {ε σ α : Type} : EStateM.Result ε σ α → σ
  | .ok _ s => s
  | .error _ s => s

variable {ε σ τ α β γ δ : Type}

/-- The invariants that say what the state has grown beyond. -/
def Grows (r : τ → τ → Prop) : (τ → Prop) → Prop := fun I => ∃ t₀, I = r t₀

/-- A computation that only grows its state. -/
abbrev Plan (r : τ → τ → Prop) (ε α : Type) := Within (Grows r) ε α

theorem grows_of {r : τ → τ → Prop} [IsTrans τ r] {f : τ → τ} (h : ∀ t, r t (f t)) (I : τ → Prop)
    (hI : Grows r I) (t : τ) (ht : I t) : I (f t) := by
  obtain ⟨t₀, rfl⟩ := hI
  exact Trans.trans ht (h t)

section Growth

variable {r : τ → τ → Prop} [Std.Refl r]

theorem Plan.le_final (y : Plan r ε β) (t : τ) : r t (final (y.1 t)) := by
  have h := y.2 _ ⟨t, rfl⟩ t (Std.Refl.refl t)
  cases hy : y.1 t with
  | ok b t' => exact h.ok hy
  | error e t' => exact h.error hy

theorem Plan.final_le_bind (y : Plan r ε β) (g : β → Plan r ε δ) (t : τ) :
    r (final (y.1 t)) (final ((y >>= g).1 t)) := by
  show r _ (final ((y.1 >>= fun b => (g b).1) t))
  cases hy : y.1 t with
  | ok b t' =>
    rw [bind_of_ok hy]
    exact (g b).le_final t'
  | error e t' =>
    rw [bind_of_error hy]
    exact Std.Refl.refl t'

end Growth

/-! ## Simulation -/

/-- How the concrete and the abstract states are related: what is assumed of the
run, the relation itself, how far the plan may grow, and the faults the plan does
not account for. -/
structure Bridge (P : (σ → Prop) → Prop) (r : τ → τ → Prop) (ε : Type) where
  assume : Proviso P
  rel : σ → τ → Prop
  fits : τ → Prop
  fits_of : ∀ t t', r t t' → fits t' → fits t
  halt : Fault ε → σ → Prop

variable {P : (σ → Prop) → Prop} {r : τ → τ → Prop}

/-- How a fault of the computation is explained by the plan. -/
inductive Explained (B : Bridge P r ε) (y : Plan r ε β) (t : τ) (f : Fault ε) (s' : σ) : Prop
  | same (t' : τ) (hy : y.1 t = .error f t') (hrel : (∃ e, f = .err e) → B.rel s' t')
  | halt (h : B.halt f s')

def Sim (B : Bridge P r ε) (x : Within P ε α) (y : Plan r ε β) (s : σ) (t : τ)
    (Q : α → σ → β → τ → Prop) : Prop :=
  B.fits (final (y.1 t)) →
    Under B.assume x s (fun a s' => ∃ b t', y.1 t = .ok b t' ∧ Q a s' b t') (Explained B y t)

variable {B : Bridge P r ε} {x : Within P ε α} {y : Plan r ε β} {s : σ} {t : τ}
  {Q : α → σ → β → τ → Prop}

theorem Sim.mono {Q' : α → σ → β → τ → Prop} (h : Sim B x y s t Q)
    (hq : ∀ a s' b t', Q a s' b t' → Q' a s' b t') : Sim B x y s t Q' := by
  intro hfits
  refine Under.mono (h hfits) ?_ (fun _ _ h => h)
  rintro a s' ⟨b, t', hy, hb⟩
  exact ⟨b, t', hy, hq a s' b t' hb⟩

theorem Sim.of_eq {x' : Within P ε α} {y' : Plan r ε β} (hx : x = x') (hy : y = y')
    (h : Sim B x' y' s t Q) : Sim B x y s t Q := by
  rw [hx, hy]
  exact h

theorem sim_assume (h : B.assume.holds s → Sim B x y s t Q) : Sim B x y s t Q :=
  fun hfits => under_assume fun hc => h hc hfits

theorem sim_pure {a : α} {b : β} (h : Q a s b t) : Sim B (pure a) (pure b : Plan r ε β) s t Q :=
  fun _ => under_pure ⟨b, t, rfl, h⟩

theorem sim_fail {e : ε} (h : B.rel s t) :
    Sim B (Within.fail e) (Within.fail e : Plan r ε β) s t Q :=
  fun _ => under_fail (.same t rfl fun _ => h)

theorem sim_panic : Sim B (Within.panic) (Within.panic : Plan r ε β) s t Q := by
  refine fun _ => under_panic (.same t rfl ?_)
  rintro ⟨_, h⟩
  cases h

/-- A fault of the first part explains the fault of the whole. -/
theorem Explained.bind {f : Fault ε} {s' : σ} {g : β → Plan r ε δ} (h : Explained B y t f s') :
    Explained B (y >>= g) t f s' := by
  cases h with
  | same t' hy hrel => exact .same t' (bind_of_error hy) hrel
  | halt h => exact .halt h

theorem run_bind_of_ok {g : β → Plan r ε δ} {b : β} {t₁ : τ} (hy : y.1 t = .ok b t₁) :
    (y >>= g).1 t = (g b).1 t₁ := bind_of_ok hy

/-- A fault of the second part, from where the first one ended. -/
theorem Explained.after {f : Fault ε} {s' : σ} {g : β → Plan r ε δ} {b : β} {t₁ : τ}
    (hy : y.1 t = .ok b t₁) (h : Explained B (g b) t₁ f s') : Explained B (y >>= g) t f s' := by
  cases h with
  | same t' hg hrel => exact .same t' ((run_bind_of_ok hy).trans hg) hrel
  | halt h => exact .halt h

theorem sim_bind [Std.Refl r] {f : α → Within P ε γ} {g : β → Plan r ε δ}
    {Q' : γ → σ → δ → τ → Prop} (hx : Sim B x y s t Q)
    (hf : ∀ a s' b t', B.assume.holds s' → Q a s' b t' → Sim B (f a) (g b) s' t' Q') :
    Sim B (x >>= f) (y >>= g) s t Q' := by
  intro hfits
  refine under_bind (hx (B.fits_of _ _ (y.final_le_bind g t) hfits)) (fun a s' hc h => ?_)
    (fun e s' h => h.bind)
  obtain ⟨b, t', hy, hq⟩ := h
  rw [run_bind_of_ok hy] at hfits
  refine Under.mono (hf a s' b t' hc hq hfits) ?_ (fun _ _ h => h.after hy)
  rintro c s'' ⟨d, t'', hg, hq'⟩
  exact ⟨d, t'', (run_bind_of_ok hy).trans hg, hq'⟩

/-- A step of the computation that the plan does not see. -/
theorem sim_left {f : α → Within P ε γ} {R : α → σ → Prop} {Q' : γ → σ → β → τ → Prop}
    (hx : Under B.assume x s R (Explained B y t))
    (hf : ∀ a s', B.assume.holds s' → R a s' → Sim B (f a) y s' t Q') :
    Sim B (x >>= f) y s t Q' :=
  fun hfits => under_bind hx (fun a s' hc hq => hf a s' hc hq hfits) (fun _ _ h => h)

/-- A step of the computation whose run is known. -/
theorem sim_run_left {f : α → Within P ε γ} {a : α} {s' : σ} {Q' : γ → σ → β → τ → Prop}
    (hx : x.1 s = .ok a s') (h : Sim B (f a) y s' t Q') : Sim B (x >>= f) y s t Q' :=
  fun hfits => under_run_bind hx (h hfits)

/-- A step of the plan that the computation does not see. -/
theorem sim_right {g : β → Plan r ε δ} {b : β} {t' : τ} {Q' : α → σ → δ → τ → Prop}
    (hy : y.1 t = .ok b t') (h : Sim B x (g b) s t' Q') : Sim B x (y >>= g) s t Q' := by
  intro hfits
  rw [run_bind_of_ok hy] at hfits
  refine Under.mono (h hfits) ?_ (fun _ _ h => h.after hy)
  rintro a s' ⟨d, t'', hg, hq⟩
  exact ⟨d, t'', (run_bind_of_ok hy).trans hg, hq⟩

theorem sim_ite {c c' : Prop} [Decidable c] [Decidable c'] {x' : Within P ε α}
    {y' : Plan r ε β} (hc : c ↔ c') (ht : c → Sim B x y s t Q)
    (hf : ¬ c → Sim B x' y' s t Q) :
    Sim B (if c then x else x') (if c' then y else y') s t Q := by
  by_cases h : c
  · rw [if_pos h, if_pos (hc.mp h)]
    exact ht h
  · rw [if_neg h, if_neg (fun h' => h (hc.mpr h'))]
    exact hf h

theorem sim_get_left {f : σ → Within P ε α} (h : Sim B (f s) y s t Q) :
    Sim B (Within.get >>= f) y s t Q := h

theorem sim_get_right {g : τ → Plan r ε β} (h : Sim B x (g t) s t Q) :
    Sim B x (Within.get >>= g) s t Q :=
  sim_right (y := Within.get) rfl h

theorem sim_ok {z : Except (Fault ε) α} {a : α} {b : β} {t' : τ} (hz : z = .ok a)
    (hy : y.1 t = .ok b t') (h : Q a s b t') : Sim B (Within.ofExcept z) y s t Q :=
  fun _ => under_ok hz ⟨b, t', hy, h⟩

theorem sim_error {z : Except (Fault ε) α} {f : Fault ε} (hz : z = .error f)
    (hy : y.1 t = .error f t) (h : B.rel s t) : Sim B (Within.ofExcept z) y s t Q := by
  intro _
  refine under_ofExcept ?_ ?_
  · rintro a ha
    rw [hz] at ha
    cases ha
  · rintro e he
    rw [hz] at he
    cases he
    exact .same t hy fun _ => h

theorem sim_map [Std.Refl r] {f : α → γ} {g : β → δ} {Q' : γ → σ → δ → τ → Prop}
    (h : Sim B x y s t Q) (hq : ∀ a s' b t', Q a s' b t' → Q' (f a) s' (g b) t') :
    Sim B (f <$> x) (g <$> y) s t Q' := by
  rw [map_eq_pure_bind, map_eq_pure_bind]
  exact sim_bind h fun a s' b t' _ hab => sim_pure (hq a s' b t' hab)

/-- A loop over a list that collects the same results on both sides. -/
theorem sim_mapM [Std.Refl r] {ι : Type} {f : ι → Within P ε α} {g : ι → Plan r ε α}
    {I : σ → τ → Prop} (hstep : ∀ i s t, I s t →
      Sim B (f i) (g i) s t (fun a s' b t' => a = b ∧ I s' t')) :
    ∀ (l : List ι) (s : σ) (t : τ), I s t →
      Sim B (l.mapM f) (l.mapM g) s t (fun a s' b t' => a = b ∧ I s' t')
  | [], _, _, h => sim_pure ⟨rfl, h⟩
  | i :: l, s, t, h => by
    rw [List.mapM_cons, List.mapM_cons]
    refine sim_bind (hstep i s t h) ?_
    rintro a s' b t' - ⟨rfl, h'⟩
    refine sim_bind (sim_mapM hstep l s' t' h') ?_
    rintro as s'' bs t'' - ⟨rfl, h''⟩
    exact sim_pure ⟨rfl, h''⟩

/-- A loop with an accumulator, its invariant knowing what is left to do. -/
theorem sim_foldlM [Std.Refl r] {ι : Type} {f : α → ι → Within P ε α} {g : β → ι → Plan r ε β}
    (I : List ι → α → σ → β → τ → Prop)
    (hstep : ∀ i rest a s b t, B.assume.holds s → I (i :: rest) a s b t →
      Sim B (f a i) (g b i) s t (I rest)) :
    ∀ (l : List ι) (a : α) (s : σ) (b : β) (t : τ), I l a s b t →
      Sim B (l.foldlM f a) (l.foldlM g b) s t (I [])
  | [], _, _, _, _, h => sim_pure h
  | i :: rest, a, s, b, t, h => by
    rw [List.foldlM_cons, List.foldlM_cons]
    refine sim_assume fun hc => sim_bind (hstep i rest a s b t hc h) (fun a' s' b' t' _ h' => ?_)
    exact sim_foldlM I hstep rest a' s' b' t' h'

end Exec

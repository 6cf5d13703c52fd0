/-
Computations that keep a family of invariants by construction.

`Within P ε α` is the type of computations that keep every invariant of the
family `P`.  A program written in this monad out of a few primitives keeps every
invariant the primitives keep, with no proof about the program itself.

The second half is about assumptions on a history.  A run may rely on something
that is only known of its last state, such as that two recorded values never
collide.  A `Proviso` is an assumption that stays false once it is false, and
`Under C x s Q E` promises `Q` or `E` of those final states where it holds.
-/
import BloomFS.Lib.Exec

namespace Exec

variable {ε σ α β : Type}

/-- Computations that keep every invariant of the family `P`. -/
def Within (P : (σ → Prop) → Prop) (ε α : Type) : Type :=
  { x : Exec ε σ α // ∀ I, P I → Keeps I x }

namespace Within

variable {P : (σ → Prop) → Prop}

instance : Monad (Within P ε) where
  pure a := ⟨pure a, fun _ _ => keeps_pure a⟩
  bind x f := ⟨x.1 >>= fun a => (f a).1, fun I h => keeps_bind (x.2 I h) (fun a => (f a).2 I h)⟩

instance : LawfulMonad (Within P ε) :=
  LawfulMonad.mk' _
    (fun x => Subtype.ext (bind_pure x.1))
    (fun a f => Subtype.ext (pure_bind a (fun a => (f a).1)))
    (fun x f g => Subtype.ext (bind_assoc x.1 (fun a => (f a).1) (fun b => (g b).1)))

def get : Within P ε σ := ⟨MonadState.get, fun _ _ => keeps_get⟩

def fail (e : ε) : Within P ε α := ⟨Exec.fail e, fun _ _ => keeps_fail e⟩

def panic : Within P ε α := ⟨Exec.panic, fun _ _ => keeps_panic⟩

def ofExcept (x : Except (Fault ε) α) : Within P ε α :=
  ⟨Exec.ofExcept x, fun _ _ => keeps_ofExcept x⟩

def handle (x : Within P ε α) (f : ε → Within P ε α) : Within P ε α :=
  ⟨Exec.handle x.1 (fun e => (f e).1), fun I h => keeps_handle (x.2 I h) (fun e => (f e).2 I h)⟩

/-- Change the state in a way that every invariant of the family allows. -/
def modify (f : σ → σ) (hf : ∀ I, P I → ∀ s, I s → I (f s)) : Within P ε Unit :=
  ⟨EStateM.modifyGet (fun s => ((), f s)), fun I h => keeps_modify (hf I h)⟩

theorem get_bind_run {f : σ → Within P ε α} {s : σ} : (get >>= f).1 s = (f s).1 s := rfl

theorem sat_ite {c : Prop} [Decidable c] {x y : Within P ε α} {s : σ} {Q : α → σ → Prop}
    {E : Fault ε → σ → Prop} (ht : c → Sat x.1 s Q E) (hf : ¬ c → Sat y.1 s Q E) :
    Sat (if c then x else y : Within P ε α).1 s Q E := by
  by_cases hc : c
  · rw [if_pos hc]
    exact ht hc
  · rw [if_neg hc]
    exact hf hc

end Within

/-- An assumption that never becomes true again. -/
structure Proviso (P : (σ → Prop) → Prop) where
  holds : σ → Prop
  stays : P fun s => ¬ holds s

variable {P : (σ → Prop) → Prop}

/-- What holds after a run from `s` if the assumption holds of the final state. -/
def Under (C : Proviso P) (x : Within P ε α) (s : σ) (Q : α → σ → Prop)
    (E : Fault ε → σ → Prop) : Prop :=
  Sat x.1 s (fun a s' => C.holds s' → Q a s') (fun e s' => C.holds s' → E e s')

section Rules

variable {C : Proviso P} {x : Within P ε α} {s : σ} {Q Q' : α → σ → Prop} {E E' : Fault ε → σ →
    Prop}

theorem Under.ok {a : α} {s' : σ} (h : Under C x s Q E) (hx : x.1 s = .ok a s') (hc : C.holds s') :
    Q a s' :=
  Sat.ok h hx hc

theorem Under.error {e : Fault ε} {s' : σ} (h : Under C x s Q E) (hx : x.1 s = .error e s')
    (hc : C.holds s') : E e s' :=
  Sat.error h hx hc

theorem Under.mono (h : Under C x s Q E) (hq : ∀ a s', Q a s' → Q' a s')
    (he : ∀ e s', E e s' → E' e s') : Under C x s Q' E' :=
  Sat.mono h (fun a s' hx hc => hq a s' (hx hc)) (fun e s' hx hc => he e s' (hx hc))

/-- The assumption held at the start if it holds at the end. -/
theorem Under.and (h : Under C x s Q E) (h' : Under C x s Q' E') :
    Under C x s (fun a s' => Q a s' ∧ Q' a s') E :=
  Sat.mono (Sat.and h h') (fun _ _ hq hc => ⟨hq.1 hc, hq.2 hc⟩) fun _ _ he => he.1

theorem under_of_forall (hq : ∀ a s', Q a s') (he : ∀ e s', E e s') : Under C x s Q E :=
  sat_of_forall (fun a s' _ => hq a s') fun e s' _ => he e s'

theorem under_assume (h : C.holds s → Under C x s Q E) : Under C x s Q E := by
  by_cases hc : C.holds s
  · exact h hc
  · exact Sat.mono (x.2 _ C.stays s hc) (fun _ _ hn hc' => absurd hc' hn)
      (fun _ _ hn hc' => absurd hc' hn)

theorem under_of_run {a : α} {s' : σ} (hx : x.1 s = .ok a s') (h : Q a s') : Under C x s Q E := by
  unfold Under Sat
  rw [hx]
  exact fun _ => h

theorem under_pure {a : α} (h : Q a s) : Under C (pure a) s Q E := sat_pure fun _ => h

theorem under_fail {e : ε} (h : E (.err e) s) : Under C (Within.fail e : Within P ε α) s Q E :=
  sat_fail fun _ => h

theorem under_panic (h : E .panic s) : Under C (Within.panic : Within P ε α) s Q E :=
  sat_panic fun _ => h

theorem under_ofExcept {y : Except (Fault ε) α} (hok : ∀ a, y = .ok a → Q a s)
    (herr : ∀ e, y = .error e → E e s) : Under C (Within.ofExcept y : Within P ε α) s Q E :=
  sat_ofExcept (fun a h _ => hok a h) (fun e h _ => herr e h)

theorem under_ok {y : Except (Fault ε) α} {a : α} (hy : y = .ok a) (h : Q a s) :
    Under C (Within.ofExcept y : Within P ε α) s Q E := by
  subst hy
  exact sat_pure fun _ => h

theorem under_modify {f : σ → σ} {hf : ∀ I, P I → ∀ s, I s → I (f s)} {Q : Unit → σ → Prop}
    (h : Q () (f s)) : Under C (Within.modify f hf : Within P ε Unit) s Q E :=
  fun _ => h

/-- Sequencing.  Where the assumption fails halfway it fails at the end. -/
theorem under_bind {f : α → Within P ε β} {R : β → σ → Prop} (hx : Under C x s Q E)
    (hf : ∀ a s', C.holds s' → Q a s' → Under C (f a) s' R E')
    (he : ∀ e s', E e s' → E' e s') : Under C (x >>= f) s R E' :=
  sat_bind hx
    (fun a s' hq => under_assume (x := f a) fun hc => hf a s' hc (hq hc))
    (fun e s' hx hc => he e s' (hx hc))

/-- A first step whose run is known. -/
theorem under_run_bind {f : α → Within P ε β} {R : β → σ → Prop} {a : α} {s' : σ}
    (hx : x.1 s = .ok a s') (h : Under C (f a) s' R E) : Under C (x >>= f) s R E := by
  have hrun : (x >>= f).1 s = (f a).1 s' := bind_of_ok hx
  unfold Under Sat at h ⊢
  rw [hrun]
  exact h

theorem under_panic_bind {f : α → Within P ε β} {R : β → σ → Prop} (h : E .panic s) :
    Under C (Within.panic >>= f) s R E := sat_panic fun _ => h

theorem under_get_bind {f : σ → Within P ε β} {R : β → σ → Prop} (h : Under C (f s) s R E) :
    Under C (Within.get >>= f) s R E := h

theorem under_ite {c : Prop} [Decidable c] {y : Within P ε α}
    (ht : c → Under C x s Q E) (hf : ¬c → Under C y s Q E) :
    Under C (if c then x else y) s Q E := by
  split
  · exact ht ‹_›
  · exact hf ‹_›

theorem under_handle {f : ε → Within P ε α} (hx : Under C x s Q E)
    (herr : ∀ e s', C.holds s' → E (.err e) s' → Under C (f e) s' Q E')
    (hpanic : ∀ s', E .panic s' → E' .panic s') (hhang : ∀ s', E .hang s' → E' .hang s') :
    Under C (Within.handle x f) s Q E' :=
  sat_handle hx
    (fun e s' he => under_assume (x := f e) fun hc => herr e s' hc (he hc))
    (fun s' he hc => hpanic s' (he hc)) (fun s' he hc => hhang s' (he hc))

theorem under_mapM {f : α → Within P ε β} {l : List α} (I : List α → List β → σ → Prop)
    (hf : ∀ done a rest out s, done ++ a :: rest = l → C.holds s → I done out s →
      Under C (f a) s (fun b s' => I (done ++ [a]) (out ++ [b]) s') E)
    {s : σ} (h : I [] [] s) : Under C (l.mapM f) s (fun bs s' => I l bs s') E := by
  have hloop : ∀ (rest done : List α) (out : List β) (s : σ), done ++ rest = l → I done out s →
      Under C (rest.mapM f) s (fun bs s' => I l (out ++ bs) s') E := by
    intro rest
    induction rest with
    | nil =>
      intro done out s hl h
      rw [List.append_nil] at hl
      rw [List.mapM_nil]
      refine under_pure ?_
      rw [List.append_nil, ← hl]
      exact h
    | cons a rest ih =>
      intro done out s hl h
      rw [List.mapM_cons]
      refine under_assume fun hc => ?_
      refine under_bind (hf done a rest out s hl hc h) (fun b s₁ _ h₁ => ?_) (fun _ _ he => he)
      have hl₁ : (done ++ [a]) ++ rest = l := by rw [List.append_assoc]; exact hl
      refine under_bind (ih (done ++ [a]) (out ++ [b]) s₁ hl₁ h₁) (fun bs s₂ _ h₂ => ?_)
        (fun _ _ he => he)
      refine under_pure ?_
      rwa [List.append_assoc] at h₂
  exact hloop l [] [] s rfl h

theorem under_forM {f : α → Within P ε PUnit} {l : List α} (I : List α → σ → Prop)
    (hf : ∀ done a rest s, done ++ a :: rest = l → C.holds s → I done s →
      Under C (f a) s (fun _ s' => I (done ++ [a]) s') E)
    {s : σ} (h : I [] s) : Under C (l.forM f) s (fun _ s' => I l s') E := by
  have hloop : ∀ (rest done : List α) (s : σ), done ++ rest = l → I done s →
      Under C (rest.forM f) s (fun _ s' => I l s') E := by
    intro rest
    induction rest with
    | nil =>
      intro done s hl h
      rw [List.append_nil] at hl
      refine under_pure ?_
      rw [← hl]
      exact h
    | cons a rest ih =>
      intro done s hl h
      refine under_assume fun hc => ?_
      refine under_bind (hf done a rest s hl hc h) (fun _ s₁ _ h₁ => ?_) (fun _ _ he => he)
      exact ih (done ++ [a]) s₁ (by rw [List.append_assoc]; exact hl) h₁
  exact hloop l [] s rfl h

end Rules

/-! ## Errors that do not occur -/

/-- The computation never fails with `e`. -/
def Avoids (e : ε) (x : Within P ε α) : Prop :=
  ∀ s, Sat x.1 s (fun _ _ => True) (fun f _ => f ≠ .err e)

section Avoids

variable {e : ε} {x y : Within P ε α}

theorem avoids_pure (a : α) : Avoids e (pure a : Within P ε α) := fun _ => sat_pure trivial

theorem avoids_get : Avoids e (Within.get : Within P ε σ) := fun _ => trivial

theorem avoids_modify {f : σ → σ} {hf : ∀ I, P I → ∀ s, I s → I (f s)} :
    Avoids e (Within.modify f hf : Within P ε Unit) := fun _ => trivial

theorem avoids_panic : Avoids e (Within.panic : Within P ε α) :=
    fun _ => sat_panic fun h => by cases h

theorem avoids_fail {e' : ε} (h : e' ≠ e) : Avoids e (Within.fail e' : Within P ε α) := fun _ =>
  sat_fail fun heq => h (Fault.err.inj heq)

theorem avoids_bind {f : α → Within P ε β} (hx : Avoids e x) (hf : ∀ a, Avoids e (f a)) :
    Avoids e (x >>= f) := fun s => sat_bind (hx s) (fun a s' _ => hf a s') (fun _ _ h => h)

theorem avoids_ite {c : Prop} [Decidable c] (hx : Avoids e x) (hy : Avoids e y) :
    Avoids e (if c then x else y) := fun s => Within.sat_ite (fun _ => hx s) (fun _ => hy s)

theorem avoids_foldlM {ι : Type} {f : α → ι → Within P ε α} (h : ∀ a i, Avoids e (f a i))
    (l : List ι) (a : α) : Avoids e (l.foldlM f a) := by
  induction l generalizing a with
  | nil => exact avoids_pure a
  | cons i l ih =>
    rw [List.foldlM_cons]
    exact avoids_bind (h a i) ih

end Avoids

end Exec

/-
State-passing computations that can fail, and rules of pre- and postconditions
for them.

An `Exec ε σ α` reads and changes a state `σ` and ends with a value or with a
fault.  A fault keeps the state it was raised in, because the languages this
models do not roll back what a function has already written when it returns an
error.  `Sat x s Q E` says what holds when `x` has run from `s`, with `Q` for a
value and `E` for a fault, and every rule below is about one way of building a
computation.  `Keeps I x` is the special case of an invariant.
-/
import Mathlib.Data.List.Basic

/-- How a computation ends without a value: a returned error, a panic, or a loop
that does not end. -/
inductive Fault (ε : Type) where
  | err (e : ε)
  | panic
  | hang
  deriving Repr, DecidableEq

namespace Fault

/-- Convert the returned error and leave the other two alone. -/
def map {ε ε' : Type} (f : ε → ε') : Fault ε → Fault ε'
  | err e => err (f e)
  | panic => panic
  | hang => hang

end Fault

abbrev Exec (ε σ α : Type) := EStateM (Fault ε) σ α

namespace Exec

variable {ε ε' σ τ α β : Type}

def fail (e : ε) : Exec ε σ α := throw (Fault.err e)

def panic : Exec ε σ α := throw Fault.panic

/-- A computation that does not touch the state. -/
def ofExcept (x : Except (Fault ε) α) : Exec ε σ α :=
  match x with
  | .ok a => pure a
  | .error e => throw e

/-- Handle a returned error in the state it was raised in. -/
def handle (x : Exec ε σ α) (f : ε → Exec ε σ α) : Exec ε σ α :=
  fun s =>
    match x s with
    | .error (.err e) s' => f e s'
    | r => r

/-- Run a computation on one component of the state, converting its errors. -/
def zoom (get : σ → τ) (set : τ → σ → σ) (f : ε → ε') (x : Exec ε τ α) : Exec ε' σ α :=
  fun s =>
    match x (get s) with
    | .ok a t => .ok a (set t s)
    | .error e t => .error (e.map f) (set t s)

/-- Undo some of the work when a computation ends with a fault. -/
def onFault (x : Exec ε σ α) (f : σ → σ) : Exec ε σ α :=
  fun s =>
    match x s with
    | .ok a s' => .ok a s'
    | .error e s' => .error e (f s')

/-- What holds after a run from `s`: `Q` of the value and state, or `E` of the
fault and state. -/
def Sat (x : Exec ε σ α) (s : σ) (Q : α → σ → Prop) (E : Fault ε → σ → Prop) : Prop :=
  match x s with
  | .ok a s' => Q a s'
  | .error e s' => E e s'

variable {x : Exec ε σ α} {s s' : σ} {Q Q' : α → σ → Prop} {E E' : Fault ε → σ → Prop}

theorem bind_of_ok {f : α → Exec ε σ β} {a : α} (h : x s = .ok a s') :
    (x >>= f) s = f a s' := by
  show EStateM.bind x f s = _
  rw [EStateM.bind, h]

theorem bind_of_error {f : α → Exec ε σ β} {e : Fault ε}
    (h : x s = .error e s') : (x >>= f) s = .error e s' := by
  show EStateM.bind x f s = _
  rw [EStateM.bind, h]

theorem Sat.ok {a : α} (h : Sat x s Q E) (hx : x s = .ok a s') : Q a s' := by
  simpa [Sat, hx] using h

theorem Sat.error {e : Fault ε} (h : Sat x s Q E) (hx : x s = .error e s') : E e s' := by
  simpa [Sat, hx] using h

theorem sat_iff : Sat x s Q E ↔
    (∀ a s', x s = .ok a s' → Q a s') ∧ (∀ e s', x s = .error e s' → E e s') := by
  unfold Sat
  cases hx : x s <;> simp

theorem Sat.mono (h : Sat x s Q E) (hq : ∀ a s', Q a s' → Q' a s')
    (he : ∀ e s', E e s' → E' e s') : Sat x s Q' E' := by
  rw [sat_iff] at h ⊢
  exact ⟨fun a s' hx => hq a s' (h.1 a s' hx), fun e s' hx => he e s' (h.2 e s' hx)⟩

theorem Sat.and (h : Sat x s Q E) (h' : Sat x s Q' E') :
    Sat x s (fun a s' => Q a s' ∧ Q' a s') (fun e s' => E e s' ∧ E' e s') := by
  rw [sat_iff] at h h' ⊢
  exact ⟨fun a s' hx => ⟨h.1 a s' hx, h'.1 a s' hx⟩, fun e s' hx => ⟨h.2 e s' hx, h'.2 e s' hx⟩⟩

theorem sat_of_forall (hq : ∀ a s', Q a s') (he : ∀ e s', E e s') : Sat x s Q E := by
  rw [sat_iff]
  exact ⟨fun a s' _ => hq a s', fun e s' _ => he e s'⟩

theorem sat_pure {a : α} (h : Q a s) : Sat (pure a : Exec ε σ α) s Q E := h

theorem sat_fail {e : ε} (h : E (.err e) s) : Sat (fail e : Exec ε σ α) s Q E := h

theorem sat_panic (h : E .panic s) : Sat (panic : Exec ε σ α) s Q E := h

theorem sat_modify {f : σ → σ} {Q : PUnit → σ → Prop} (h : Q ⟨⟩ (f s)) :
    Sat (modify f : Exec ε σ PUnit) s Q E := h

theorem sat_ofExcept {y : Except (Fault ε) α} (hok : ∀ a, y = .ok a → Q a s)
    (herr : ∀ e, y = .error e → E e s) : Sat (ofExcept y : Exec ε σ α) s Q E := by
  cases y with
  | ok a => exact hok a rfl
  | error e => exact herr e rfl

/-- Sequencing.  The second computation starts where the first one ended. -/
theorem sat_bind {f : α → Exec ε σ β} {R : β → σ → Prop}
    (hx : Sat x s Q E) (hf : ∀ a s', Q a s' → Sat (f a) s' R E') (he : ∀ e s', E e s' → E' e s') :
    Sat (x >>= f) s R E' := by
  rw [sat_iff] at hx
  have hbind : (x >>= f) s = EStateM.bind x f s := rfl
  unfold Sat
  rw [hbind, EStateM.bind]
  cases hxs : x s with
  | ok a s' => exact hf a s' (hx.1 a s' hxs)
  | error e s' => exact he e s' (hx.2 e s' hxs)

theorem sat_get_bind {f : σ → Exec ε σ β} {R : β → σ → Prop} (h : Sat (f s) s R E) :
    Sat (get >>= f) s R E := h

theorem sat_modify_bind {g : σ → σ} {f : PUnit → Exec ε σ β} {R : β → σ → Prop}
    (h : Sat (f ⟨⟩) (g s) R E) : Sat (modify g >>= f) s R E := h

theorem sat_map {f : α → β} {R : β → σ → Prop} (hx : Sat x s (fun a s' => R (f a) s') E) :
    Sat (f <$> x) s R E := by
  rw [sat_iff] at hx
  have hmap : (f <$> x) s = EStateM.map f x s := rfl
  unfold Sat
  rw [hmap, EStateM.map]
  cases hxs : x s with
  | ok a s' => exact hx.1 a s' hxs
  | error e s' => exact hx.2 e s' hxs

theorem sat_ite {c : Prop} [Decidable c] {y : Exec ε σ α}
    (ht : c → Sat x s Q E) (hf : ¬c → Sat y s Q E) : Sat (if c then x else y) s Q E := by
  by_cases hc : c
  · rw [if_pos hc]; exact ht hc
  · rw [if_neg hc]; exact hf hc

theorem sat_zoom {get : σ → τ} {set : τ → σ → σ} {f : ε → ε'} {y : Exec ε τ α}
    {Qt : α → τ → Prop} {Et : Fault ε → τ → Prop} {E : Fault ε' → σ → Prop}
    (hy : Sat y (get s) Qt Et) (hq : ∀ a t, Qt a t → Q a (set t s))
    (he : ∀ e t, Et e t → E (e.map f) (set t s)) : Sat (zoom get set f y) s Q E := by
  rw [sat_iff] at hy
  unfold Sat zoom
  cases hys : y (get s) with
  | ok a t => exact hq a t (hy.1 a t hys)
  | error e t => exact he e t (hy.2 e t hys)

theorem sat_onFault {f : σ → σ} (h : Sat x s Q (fun e s' => E e (f s'))) :
    Sat (onFault x f) s Q E := by
  rw [sat_iff] at h
  unfold Sat onFault
  cases hx : x s with
  | ok a s' => exact h.1 a s' hx
  | error e s' => exact h.2 e s' hx

theorem sat_handle {f : ε → Exec ε σ α} (hx : Sat x s Q E)
    (herr : ∀ e s', E (.err e) s' → Sat (f e) s' Q E') (hpanic : ∀ s', E .panic s' → E' .panic s')
    (hhang : ∀ s', E .hang s' → E' .hang s') : Sat (handle x f) s Q E' := by
  unfold Sat handle at *
  cases h : x s with
  | ok a s' => simpa [h] using hx
  | error e s' =>
    rw [h] at hx
    cases e with
    | err e => exact herr e s' hx
    | panic => exact hpanic s' hx
    | hang => exact hhang s' hx

/-- A loop that collects one result per element.  `I done out` is the invariant,
with the elements already visited and the results so far. -/
theorem sat_mapM {f : α → Exec ε σ β} {l : List α} (I : List α → List β → σ → Prop)
    (hf : ∀ done a rest out s, done ++ a :: rest = l → I done out s →
      Sat (f a) s (fun b s' => I (done ++ [a]) (out ++ [b]) s') E)
    {s : σ} (h : I [] [] s) : Sat (l.mapM f) s (fun bs s' => I l bs s') E := by
  have hloop : ∀ (rest done : List α) (out : List β) (s : σ), done ++ rest = l → I done out s →
      Sat (rest.mapM f) s (fun bs s' => I l (out ++ bs) s') E := by
    intro rest
    induction rest with
    | nil =>
      intro done out s hl h
      rw [List.append_nil] at hl
      rw [List.mapM_nil]
      refine sat_pure ?_
      rw [List.append_nil, ← hl]
      exact h
    | cons a rest ih =>
      intro done out s hl h
      rw [List.mapM_cons]
      refine sat_bind (hf done a rest out s hl h) (fun b s₁ h₁ => ?_) (fun _ _ he => he)
      have hl₁ : (done ++ [a]) ++ rest = l := by rw [List.append_assoc]; exact hl
      refine sat_bind (ih (done ++ [a]) (out ++ [b]) s₁ hl₁ h₁) (fun bs s₂ h₂ => ?_)
        (fun _ _ he => he)
      refine sat_pure ?_
      rwa [List.append_assoc] at h₂
  exact hloop l [] [] s rfl h

theorem sat_forM {f : α → Exec ε σ PUnit} {l : List α} (I : List α → σ → Prop)
    (hf : ∀ done a rest s, done ++ a :: rest = l → I done s →
      Sat (f a) s (fun _ s' => I (done ++ [a]) s') E)
    {s : σ} (h : I [] s) : Sat (l.forM f) s (fun _ s' => I l s') E := by
  have hloop : ∀ (rest done : List α) (s : σ), done ++ rest = l → I done s →
      Sat (rest.forM f) s (fun _ s' => I l s') E := by
    intro rest
    induction rest with
    | nil =>
      intro done s hl h
      rw [List.append_nil] at hl
      refine sat_pure ?_
      rw [← hl]
      exact h
    | cons a rest ih =>
      intro done s hl h
      refine sat_bind (hf done a rest s hl h) (fun _ s₁ h₁ => ?_) (fun _ _ he => he)
      exact ih (done ++ [a]) s₁ (by rw [List.append_assoc]; exact hl) h₁
  exact hloop l [] s rfl h

theorem ok_bind {γ : Type} (a : α) (f : α → Except γ β) : (Except.ok a >>= f) = f a := rfl

theorem mapError_ok {γ δ : Type} (f : γ → δ) (a : α) :
    (Except.ok a : Except γ α).mapError f = .ok a := rfl

theorem bind_eq_ok {γ : Type} {x : Except γ α} {f : α → Except γ β} {b : β} :
    (x >>= f) = .ok b ↔ ∃ a, x = .ok a ∧ f a = .ok b := by
  cases x with
  | error e =>
      constructor
      · intro h
        cases h
      · intro ⟨a, h, _⟩
        cases h
  | ok a =>
      constructor
      · exact fun h => ⟨a, rfl, h⟩
      · intro ⟨a', h, hb⟩
        cases h
        exact hb

theorem mapError_eq_ok {γ δ : Type} {x : Except γ α} {f : γ → δ} {a : α} :
    x.mapError f = .ok a ↔ x = .ok a := by
  cases x with
  | error e => simp [Except.mapError]
  | ok b => simp [Except.mapError]

theorem mapM_ok {γ : Type} {f : α → Except γ β} {g : α → β} :
    ∀ {l : List α}, (∀ a ∈ l, f a = .ok (g a)) → l.mapM f = .ok (l.map g)
  | [], _ => rfl
  | a :: l, h => by
    have ha : f a = .ok (g a) := h a List.mem_cons_self
    have hl : l.mapM f = .ok (l.map g) := mapM_ok (fun b hb => h b (List.mem_cons_of_mem _ hb))
    rw [List.mapM_cons, ha, hl]
    rfl

/-! ## Invariants -/

/-- `x` keeps `I` whether it returns a value or a fault. -/
def Keeps (I : σ → Prop) (x : Exec ε σ α) : Prop :=
  ∀ s, I s → Sat x s (fun _ s' => I s') (fun _ s' => I s')

variable {I : σ → Prop}

theorem keeps_pure (a : α) : Keeps I (pure a : Exec ε σ α) := fun _ h => h

theorem keeps_fail (e : ε) : Keeps I (fail e : Exec ε σ α) := fun _ h => h

theorem keeps_panic : Keeps I (panic : Exec ε σ α) := fun _ h => h

theorem keeps_get : Keeps I (get : Exec ε σ σ) := fun _ h => h

theorem keeps_modify {f : σ → σ} (hf : ∀ s, I s → I (f s)) :
    Keeps I (modify f : Exec ε σ PUnit) := fun s h => hf s h

theorem keeps_ofExcept (y : Except (Fault ε) α) : Keeps I (ofExcept y : Exec ε σ α) :=
  fun _ h => sat_ofExcept (fun _ _ => h) (fun _ _ => h)

theorem keeps_bind {f : α → Exec ε σ β} (hx : Keeps I x) (hf : ∀ a, Keeps I (f a)) :
    Keeps I (x >>= f) :=
  fun s h => sat_bind (hx s h) (fun a s' h' => hf a s' h') (fun _ _ h' => h')

theorem keeps_handle {f : ε → Exec ε σ α} (hx : Keeps I x) (hf : ∀ e, Keeps I (f e)) :
    Keeps I (handle x f) :=
  fun s h => sat_handle (hx s h) (fun e s' h' => hf e s' h') (fun _ h' => h') (fun _ h' => h')

theorem keeps_map {f : α → β} (hx : Keeps I x) : Keeps I (f <$> x) :=
  fun s h => sat_map (hx s h)

theorem keeps_ite {c : Prop} [Decidable c] {y : Exec ε σ α} (hx : Keeps I x) (hy : Keeps I y) :
    Keeps I (if c then x else y) :=
  fun s h => sat_ite (fun _ => hx s h) (fun _ => hy s h)

theorem keeps_mapM {f : α → Exec ε σ β} (hf : ∀ a, Keeps I (f a)) (l : List α) :
    Keeps I (l.mapM f) :=
  fun _ h => sat_mapM (fun _ _ s => I s) (fun _ a _ _ s _ h => hf a s h) h

theorem Keeps.ok {a : α} (hx : Keeps I x) (hs : I s) (h : x s = .ok a s') : I s' :=
  (hx s hs).ok h

theorem Keeps.error {e : Fault ε} (hx : Keeps I x) (hs : I s) (h : x s = .error e s') : I s' :=
  (hx s hs).error h

end Exec

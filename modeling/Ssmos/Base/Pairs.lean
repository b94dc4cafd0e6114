/-
Computations over a state that they leave behind when they stop, too, and two
runs of them side by side: from related states both return the same or stop
alike, in related states. What a run only ever adds to its state is a second
relation, between its own first and last state.
-/

namespace Ssmos

variable {σ τ ε α β : Type}

/-- How a sequence runs: on from where its first part returned, or no further. -/
theorem ExceptT.bind_eq {x : ExceptT ε (StateM σ) α} {f : α → ExceptT ε (StateM σ) β} (s : σ) :
    (x >>= f) s = match x s with
      | (.ok a, s₁) => f a s₁
      | (.error e, s₁) => (.error e, s₁) := by
  change ExceptT.bindCont f (x s).1 (x s).2 = _
  cases h : x s with
  | mk r s₁ => cases r <;> rfl

theorem ExceptT.bind_of_ok {x : ExceptT ε (StateM σ) α} {f : α → ExceptT ε (StateM σ) β} {s s₁ : σ} {a : α}
    (h : x s = (.ok a, s₁)) : (x >>= f) s = f a s₁ := by
  rw [ExceptT.bind_eq, h]

theorem ExceptT.bind_of_error {x : ExceptT ε (StateM σ) α} {f : α → ExceptT ε (StateM σ) β} {s s₁ : σ} {e : ε}
    (h : x s = (.error e, s₁)) : (x >>= f) s = (.error e, s₁) := by
  rw [ExceptT.bind_eq, h]

/-! ## Two runs -/

/-- From states related by `R`, `x` and `y` return the same or stop alike, in states that are. -/
def Paired (R : σ → τ → Prop) (x : ExceptT ε (StateM σ) α) (y : ExceptT ε (StateM τ) α) : Prop :=
  ∀ ⦃s t⦄, R s t → (y t).1 = (x s).1 ∧ R (x s).2 (y t).2

namespace Paired

variable {R : σ → τ → Prop} {x x' : ExceptT ε (StateM σ) α} {y y' : ExceptT ε (StateM τ) α}
  {f : α → ExceptT ε (StateM σ) β} {g : α → ExceptT ε (StateM τ) β}

/-- Where two runs of them are. -/
theorem outcome (hx : Paired R x y) {s : σ} {t : τ} (hs : R s t) :
    ∃ r s₁ t₁, x s = (r, s₁) ∧ y t = (r, t₁) ∧ R s₁ t₁ :=
  ⟨(x s).1, (x s).2, (y t).2, rfl, Prod.ext (hx hs).1 rfl, (hx hs).2⟩

theorem pure {a : α} : Paired (ε := ε) R (Pure.pure a) (Pure.pure a) := fun _ _ h => ⟨rfl, h⟩

theorem throw {e : ε} : Paired R (throw e : ExceptT ε (StateM σ) α) (throw e) := fun _ _ h => ⟨rfl, h⟩

theorem modify {u : σ → σ} {v : τ → τ} (h : ∀ ⦃s t⦄, R s t → R (u s) (v t)) :
    Paired (ε := ε) R (modify u) (modify v) := fun _ _ hs => ⟨rfl, h hs⟩

theorem bind (hx : Paired R x y) (hf : ∀ a, Paired R (f a) (g a)) : Paired R (x >>= f) (y >>= g) := by
  intro s t hs
  obtain ⟨r, s₁, t₁, hxs, hyt, hs₁⟩ := hx.outcome hs
  rw [ExceptT.bind_eq, ExceptT.bind_eq, hxs, hyt]
  cases r with
  | ok a => exact hf a hs₁
  | error e => exact ⟨rfl, hs₁⟩

theorem ite {c : Prop} [Decidable c] (hx : Paired R x y) (hx' : Paired R x' y') :
    Paired R (if c then x else x') (if c then y else y') := by
  split
  next => exact hx
  next => exact hx'

/-- A test of the state that comes out the same in related ones. -/
theorem test {p : σ → Prop} {q : τ → Prop} [DecidablePred p] [DecidablePred q]
    (h : ∀ ⦃s t⦄, R s t → (p s ↔ q t)) (hx : Paired R x y) (hx' : Paired R x' y') :
    Paired R (MonadState.get >>= fun s => if p s then x else x')
      (MonadState.get >>= fun t => if q t then y else y') := by
  intro s t hs
  change ((if q t then y else y') t).1 = ((if p s then x else x') s).1 ∧
    R ((if p s then x else x') s).2 ((if q t then y else y') t).2
  by_cases hp : p s
  · rw [if_pos hp, if_pos ((h hs).mp hp)]
    exact hx hs
  · rw [if_neg hp, if_neg (mt (h hs).mpr hp)]
    exact hx' hs

end Paired

/-! ## One run -/

/-- Whether it returns or stops, `x` takes a state to one that `E` relates it to. -/
def Extends (E : σ → σ → Prop) (x : ExceptT ε (StateM σ) α) : Prop := ∀ s, E s (x s).2

namespace Extends

variable {E : σ → σ → Prop} {x y : ExceptT ε (StateM σ) α} {f : α → ExceptT ε (StateM σ) β}

theorem pure {a : α} (hrefl : ∀ s, E s s) : Extends (ε := ε) E (Pure.pure a) := hrefl

theorem bind (htrans : ∀ {s₁ s₂ s₃}, E s₁ s₂ → E s₂ s₃ → E s₁ s₃) (hx : Extends E x)
    (hf : ∀ a, Extends E (f a)) : Extends E (x >>= f) := by
  intro s
  have hs := hx s
  rw [ExceptT.bind_eq]
  cases h : x s with
  | mk r s₁ =>
    rw [h] at hs
    cases r with
    | ok a => exact htrans hs (hf a s₁)
    | error e => exact hs

end Extends

/-- From any state that `E` relates `s₀` to, what `x` returns and the state it
leaves satisfy `Q`. -/
def EndsIn (E : σ → σ → Prop) (s₀ : σ) (Q : α → σ → Prop) (x : ExceptT ε (StateM σ) α) : Prop :=
  ∀ s, E s₀ s → ∀ a s', x s = (.ok a, s') → Q a s'

namespace EndsIn

variable {E : σ → σ → Prop} {s₀ : σ} {Q : β → σ → Prop} {x : ExceptT ε (StateM σ) α}
  {y y' : ExceptT ε (StateM σ) β} {f : α → ExceptT ε (StateM σ) β}

theorem pure {b : β} (h : ∀ s, E s₀ s → Q b s) : EndsIn (ε := ε) E s₀ Q (Pure.pure b) := by
  intro s hs a s' hrun
  cases hrun
  exact h s hs

/-- What only takes the state along `E` may come first. -/
theorem bind (htrans : ∀ {s₁ s₂ s₃}, E s₁ s₂ → E s₂ s₃ → E s₁ s₃) (hx : Extends E x)
    (hf : ∀ a, EndsIn E s₀ Q (f a)) : EndsIn E s₀ Q (x >>= f) := by
  intro s hs b s' hrun
  have hstep := hx s
  rw [ExceptT.bind_eq] at hrun
  cases h : x s with
  | mk r s₁ =>
    rw [h] at hrun hstep
    cases r with
    | ok a => exact hf a s₁ (htrans hs hstep) b s' hrun
    | error e => cases hrun

theorem ite {c : Prop} [Decidable c] (hy : EndsIn E s₀ Q y) (hy' : EndsIn E s₀ Q y') :
    EndsIn E s₀ Q (if c then y else y') := by
  split
  next => exact hy
  next => exact hy'

end EndsIn

/-- From every state `x` returns. -/
def Completes (x : ExceptT ε (StateM σ) α) : Prop := ∀ s, ∃ a s', x s = (.ok a, s')

namespace Completes

variable {x y : ExceptT ε (StateM σ) α} {f : α → ExceptT ε (StateM σ) β}

theorem bind (hx : Completes x) (hf : ∀ a, Completes (f a)) : Completes (x >>= f) := by
  intro s
  obtain ⟨a, s₁, hxs⟩ := hx s
  rw [ExceptT.bind_of_ok hxs]
  exact hf a s₁

theorem ite {c : Prop} [Decidable c] (hx : Completes x) (hy : Completes y) :
    Completes (if c then x else y) := by
  split
  next => exact hx
  next => exact hy

end Completes

end Ssmos

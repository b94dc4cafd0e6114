/-
Partial-correctness triples for stateful computations that may stop with an
error, and invariants as the triples used most: a computation preserves an
invariant if every way it returns from the invariant is back in it, possibly
with a value of which more is known. Nothing is said about a computation that
does not return.
-/

namespace Ssmos

variable {σ ε α β : Type}

/-! ## Errors -/

theorem Except.bind_ok_iff {x : Except ε α} {f : α → Except ε β} {b : β} :
    (x >>= f) = .ok b ↔ ∃ a, x = .ok a ∧ f a = .ok b := by
  cases x <;> simp [bind, Except.bind]

theorem Except.toOption_eq_some {x : Except ε α} {a : α} : x.toOption = some a ↔ x = .ok a := by
  cases x <;> simp [Except.toOption]

@[simp] theorem Except.pure_ok_iff {a b : α} : (pure a : Except ε α) = .ok b ↔ a = b := by
  simp [pure, Except.pure]

@[simp] theorem Except.ok_bind {a : α} {f : α → Except ε β} : ((.ok a : Except ε α) >>= f) = f a := rfl

@[simp] theorem Except.error_bind {e : ε} {f : α → Except ε β} :
    ((.error e : Except ε α) >>= f) = .error e := rfl

/-! ## Triples -/

/-- From `P`, `x` returns only with values and states of which `Q` holds. -/
def Triple (P : σ → Prop) (x : StateT σ (Except ε) α) (Q : α → σ → Prop) : Prop :=
  ∀ ⦃s a s'⦄, P s → x s = .ok (a, s') → Q a s'

/-- From `I`, `x` returns only in `I`, with a value of which `φ` holds. -/
def Yields (I : σ → Prop) (x : StateT σ (Except ε) α) (φ : α → Prop) : Prop :=
  Triple I x fun a s => φ a ∧ I s

/-- From `I`, `x` returns only in `I`. -/
def Preserves (I : σ → Prop) (x : StateT σ (Except ε) α) : Prop := Yields I x fun _ => True

variable {P I : σ → Prop} {x : StateT σ (Except ε) α} {f : α → StateT σ (Except ε) β}
  {Q : β → σ → Prop} {R : α → σ → Prop} {φ : α → Prop} {ψ : β → Prop}

theorem StateT.bind_ok_iff {s s' : σ} {b : β} :
    (x >>= f) s = .ok (b, s') ↔ ∃ a s₁, x s = .ok (a, s₁) ∧ f a s₁ = .ok (b, s') := by
  change (x s >>= fun p => f p.1 p.2) = .ok (b, s') ↔ _
  simp only [Except.bind_ok_iff, Prod.exists]

/-- Running a sequence whose first part is known to return. -/
theorem StateT.bind_of_ok {s s₁ : σ} {a : α} (h : x s = .ok (a, s₁)) : (x >>= f) s = f a s₁ := by
  change (x s >>= fun p => f p.1 p.2) = _
  rw [h]
  rfl

theorem StateT.bind_congr_left {y : StateT σ (Except ε) α} {s : σ} (h : x s = y s) :
    (x >>= f) s = (y >>= f) s := by
  change (x s >>= fun p => f p.1 p.2) = (y s >>= fun p => f p.1 p.2)
  rw [h]

namespace Triple

theorem bind (hx : Triple P x R) (hf : ∀ a, Triple (R a) (f a) Q) : Triple P (x >>= f) Q := by
  intro s b s' hs h
  obtain ⟨a, s₁, hxs, hfs⟩ := StateT.bind_ok_iff.mp h
  exact hf a (hx hs hxs) hfs

theorem get : Triple (ε := ε) P MonadState.get fun a s => a = s ∧ P s := by
  intro s a s' hs hx
  cases hx
  exact ⟨rfl, hs⟩

theorem modify {g : σ → σ} {Q : PUnit → σ → Prop} (h : ∀ ⦃s⦄, P s → Q ⟨⟩ (g s)) :
    Triple (ε := ε) P (modify g) Q := by
  intro s a s' hs hx
  cases hx
  exact h hs

end Triple

namespace Yields

theorem preserves (h : Yields I x φ) : Preserves I x := fun _ _ _ hs hx => ⟨trivial, (h hs hx).2⟩

/-- An invariant up to the last part of a computation. -/
theorem andThen (hx : Yields I x φ) (hf : ∀ a, φ a → Triple I (f a) Q) : Triple I (x >>= f) Q :=
  Triple.bind hx fun a _ _ _ hs hfs => hf a hs.1 hs.2 hfs

theorem bind (hx : Yields I x φ) (hf : ∀ a, φ a → Yields I (f a) ψ) : Yields I (x >>= f) ψ :=
  hx.andThen hf

theorem pure {a : α} (h : φ a) : Yields (ε := ε) I (Pure.pure a) φ := by
  intro s b s' hs hx
  cases hx
  exact ⟨h, hs⟩

theorem get : Yields (ε := ε) I MonadState.get I := by
  intro s a s' hs hx
  cases hx
  exact ⟨hs, hs⟩

theorem ite {c : Prop} [Decidable c] {y : StateT σ (Except ε) α} (hx : c → Yields I x φ)
    (hy : ¬c → Yields I y φ) : Yields I (if c then x else y) φ := by
  split
  next hc => exact hx hc
  next hc => exact hy hc

end Yields

namespace Preserves

theorem iff_triple : Preserves I x ↔ Triple I x fun _ => I :=
  ⟨fun hx _ _ _ hs h => (hx hs h).2, fun hx _ _ _ hs h => ⟨trivial, hx hs h⟩⟩

theorem andThen (hx : Preserves I x) (hf : ∀ a, Triple I (f a) Q) : Triple I (x >>= f) Q :=
  Yields.andThen hx fun a _ => hf a

theorem yields (hx : Preserves I x) (hf : ∀ a, Yields I (f a) ψ) : Yields I (x >>= f) ψ :=
  Yields.bind hx fun a _ => hf a

theorem bind (hx : Preserves I x) (hf : ∀ a, Preserves I (f a)) : Preserves I (x >>= f) := hx.yields hf

theorem pure {a : α} : Preserves (ε := ε) I (Pure.pure a) := Yields.pure trivial

theorem throw {e : ε} : Preserves I (throw e : StateT σ (Except ε) α) := fun _ _ _ _ h => nomatch h

theorem modify {g : σ → σ} (h : ∀ ⦃s⦄, I s → I (g s)) : Preserves (ε := ε) I (modify g) :=
  Triple.modify fun _ hs => ⟨trivial, h hs⟩

theorem ite {c : Prop} [Decidable c] {y : StateT σ (Except ε) α} (hx : c → Preserves I x)
    (hy : ¬c → Preserves I y) : Preserves I (if c then x else y) := Yields.ite hx hy

end Preserves

/-! ## Computations that always return -/

/-- `x` returns from every state. -/
def Total (x : StateT σ (Except ε) α) : Prop := ∀ s, ∃ a s', x s = .ok (a, s')

namespace Total

theorem bind (hx : Total x) (hf : ∀ a, Total (f a)) : Total (x >>= f) := by
  intro s
  obtain ⟨a, s₁, hxs⟩ := hx s
  obtain ⟨b, s', hfs⟩ := hf a s₁
  exact ⟨b, s', StateT.bind_ok_iff.mpr ⟨a, s₁, hxs, hfs⟩⟩

theorem pure {a : α} : Total (σ := σ) (ε := ε) (Pure.pure a) := fun s => ⟨a, s, rfl⟩

theorem get : Total (σ := σ) (ε := ε) MonadState.get := fun s => ⟨s, s, rfl⟩

theorem modify {g : σ → σ} : Total (ε := ε) (modify g) := fun s => ⟨⟨⟩, g s, rfl⟩

theorem ite {c : Prop} [Decidable c] {y : StateT σ (Except ε) α} (hx : Total x) (hy : Total y) :
    Total (if c then x else y) := by
  split
  next => exact hx
  next => exact hy

end Total

end Ssmos

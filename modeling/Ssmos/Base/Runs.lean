/-
Runs of a labelled transition relation, and the induction rules for them:
an invariant of one step is one of every run, a step of one system that is a
step of another carries runs over, and a property that every step either keeps
or loses for good holds at the end exactly when no step lost it.
-/

namespace Ssmos

/-- A run from one state to another, with the labels of its steps. -/
inductive Runs {σ ι : Type} (step : σ → ι → σ → Prop) : σ → List ι → σ → Prop
  | nil {s} : Runs step s [] s
  | cons {s i s' is s''} : step s i s' → Runs step s' is s'' → Runs step s (i :: is) s''

namespace Runs

variable {σ ι : Type} {step : σ → ι → σ → Prop} {s s' s'' : σ} {is js : List ι}

theorem single {i : ι} (h : step s i s') : Runs step s [i] s' := .cons h .nil

theorem nil_iff : Runs step s [] s' ↔ s' = s :=
  ⟨fun h => by cases h; rfl, fun h => h ▸ .nil⟩

theorem cons_iff {i : ι} : Runs step s (i :: is) s'' ↔ ∃ s', step s i s' ∧ Runs step s' is s'' :=
  ⟨fun h => by cases h with | cons h hr => exact ⟨_, h, hr⟩, fun ⟨_, h, hr⟩ => .cons h hr⟩

theorem append (h₁ : Runs step s is s') (h₂ : Runs step s' js s'') : Runs step s (is ++ js) s'' := by
  induction h₁ with
  | nil => exact h₂
  | cons h _ ih => exact .cons h (ih h₂)

theorem invariant {I : σ → Prop} (hstep : ∀ {s i s'}, I s → step s i s' → I s')
    (h : Runs step s is s') (hs : I s) : I s' := by
  induction h with
  | nil => exact hs
  | cons h _ ih => exact ih (hstep hs h)

/-- Runs carried along a simulation that may use an invariant. -/
theorem simulate {τ κ : Type} {step' : τ → κ → τ → Prop} {R : σ → τ → Prop} {f : ι → κ}
    (hstep : ∀ {s i s' t}, R s t → step s i s' → ∃ t', step' t (f i) t' ∧ R s' t')
    (h : Runs step s is s') {t : τ} (hs : R s t) : ∃ t', Runs step' t (is.map f) t' ∧ R s' t' := by
  induction h generalizing t with
  | nil => exact ⟨t, .nil, hs⟩
  | cons h _ ih =>
    obtain ⟨t', ht, hr⟩ := hstep hs h
    obtain ⟨t'', hrun, hr'⟩ := ih hr
    exact ⟨t'', .cons ht hrun, hr'⟩

/-- In a deterministic system, when every step keeps `J` exactly if it is
`good`, and none restores it, `J` holds at the end of a run exactly if all its
steps are good. -/
theorem iff_all_good {I J : σ → Prop} (good : σ → ι → Prop) (h : Runs step s is s') (hs : I s)
    (hdet : ∀ {s i s₁ s₂}, step s i s₁ → step s i s₂ → s₁ = s₂)
    (hinv : ∀ {s i s'}, I s → step s i s' → I s')
    (hstep : ∀ {s i s'}, I s → step s i s' → (J s' ↔ J s ∧ good s i)) :
    J s' ↔ J s ∧ Runs (fun s i s' => step s i s' ∧ good s i) s is s' := by
  induction h with
  | nil => exact ⟨fun hj => ⟨hj, .nil⟩, fun hj => hj.1⟩
  | cons h _ ih =>
    rw [ih (hinv hs h), hstep hs h]
    constructor
    · intro hx
      obtain ⟨⟨hj, hg⟩, hr⟩ := hx
      exact ⟨hj, .cons ⟨h, hg⟩ hr⟩
    · intro hx
      obtain ⟨hj, hr⟩ := hx
      cases hr with
      | cons hg hr =>
        cases hdet h hg.1
        exact ⟨⟨hj, hg.2⟩, hr⟩

end Runs

/-- The run of a transition function along labels. -/
def exec {σ ι : Type} (step : σ → ι → Option σ) : σ → List ι → Option σ
  | s, [] => some s
  | s, i :: is => (step s i).bind fun s' => exec step s' is

theorem exec_eq_some {σ ι : Type} {f : σ → ι → Option σ} {step : σ → ι → σ → Prop}
    (hf : ∀ {s i s'}, f s i = some s' ↔ step s i s') {s s' : σ} {is : List ι} :
    exec f s is = some s' ↔ Runs step s is s' := by
  induction is generalizing s with
  | nil =>
    simp only [exec, Option.some.injEq]
    exact eq_comm.trans Runs.nil_iff.symm
  | cons i is ih =>
    simp only [exec, Option.bind_eq_some_iff, ih, hf]
    exact Runs.cons_iff.symm

end Ssmos

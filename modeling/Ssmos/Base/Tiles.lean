/-
Tilings of an interval of addresses by consecutive segments, for any type of
segments with a start and a length: where one segment ends the next begins.
-/
import Mathlib.Algebra.GroupWithZero.Nat

namespace Ssmos

/-- The segments `xs` tile the interval from `a` to `z`. -/
def Tiles {α : Type} (start len : α → Nat) : Nat → List α → Nat → Prop
  | a, [], z => a = z
  | a, x :: xs, z => start x = a ∧ Tiles start len (a + len x) xs z

namespace Tiles

variable {α : Type} {start len : α → Nat} {a z : Nat} {x y : α} {xs ys : List α}

theorem append : Tiles start len a (xs ++ ys) z ↔
    ∃ b, Tiles start len a xs b ∧ Tiles start len b ys z := by
  induction xs generalizing a with
  | nil => simp [Tiles]
  | cons x xs ih =>
    simp only [List.cons_append, Tiles, ih]
    constructor
    · intro hs
      obtain ⟨hx, b, h₁, h₂⟩ := hs
      exact ⟨b, ⟨hx, h₁⟩, h₂⟩
    · intro hs
      obtain ⟨b, ⟨hx, h₁⟩, h₂⟩ := hs
      exact ⟨hx, b, h₁, h₂⟩

/-- The segments' lengths add up to the interval's. -/
theorem sum_len (h : Tiles start len a xs z) : a + (xs.map len).sum = z := by
  induction xs generalizing a with
  | nil => simpa [Tiles] using h
  | cons x xs ih =>
    have := ih h.2
    simp only [List.map_cons, List.sum_cons]
    omega

theorem le (h : Tiles start len a xs z) : a ≤ z := by
  have := h.sum_len
  omega

theorem bounds (h : Tiles start len a xs z) (hx : x ∈ xs) : a ≤ start x ∧ start x + len x ≤ z := by
  induction xs generalizing a with
  | nil => cases hx
  | cons y ys ih =>
    have hle := h.2.le
    rcases List.mem_cons.mp hx with rfl | hx
    · have := h.1
      omega
    · have := ih h.2 hx
      omega

/-- Each segment ends before any later one starts. -/
theorem pairwise (h : Tiles start len a xs z) : xs.Pairwise fun x y => start x + len x ≤ start y := by
  induction xs generalizing a with
  | nil => exact .nil
  | cons x xs ih =>
    refine List.pairwise_cons.mpr ⟨fun y hy => ?_, ih h.2⟩
    have := h.2.bounds hy
    have := h.1
    omega

/-- The segments before one end before it starts, those after start after it ends. -/
theorem around (h : Tiles start len a (xs ++ x :: ys) z) :
    (∀ w ∈ xs, start w + len w ≤ start x) ∧ ∀ w ∈ ys, start x + len x ≤ start w := by
  obtain ⟨-, hp, hcross⟩ := List.pairwise_append.mp h.pairwise
  exact ⟨fun w hw => hcross w hw x (by simp), fun w hw => (List.pairwise_cons.mp hp).1 w hw⟩

/-- A segment replaced by segments that tile its interval. -/
theorem replace {ws : List α} (h : Tiles start len a (xs ++ x :: ys) z)
    (hw : Tiles start len (start x) ws (start x + len x)) : Tiles start len a (xs ++ (ws ++ ys)) z := by
  obtain ⟨b, h₁, h₂⟩ := append.mp h
  obtain ⟨hx, h₂⟩ := h₂
  subst hx
  exact append.mpr ⟨_, h₁, append.mpr ⟨_, hw, h₂⟩⟩

/-- Changing segments without changing where they start or how long they are. -/
theorem map {f : α → α} (hs : ∀ x, start (f x) = start x) (hl : ∀ x, len (f x) = len x)
    (h : Tiles start len a xs z) : Tiles start len a (xs.map f) z := by
  induction xs generalizing a with
  | nil => exact h
  | cons x xs ih =>
    refine ⟨(hs x).trans h.1, ?_⟩
    rw [hl]
    exact ih h.2

/-- Segments of positive length that start at one address are the same. -/
theorem eq_of_start (h : Tiles start len a xs z) (hpos : ∀ w ∈ xs, 0 < len w) (hx : x ∈ xs)
    (hy : y ∈ xs) (he : start x = start y) : x = y := by
  induction xs generalizing a with
  | nil => cases hx
  | cons w ws ih =>
    have hw := hpos w (by simp)
    have hlater : ∀ v ∈ ws, start w < start v := fun v hv => by
      have := h.2.bounds hv
      have := h.1
      omega
    rcases List.mem_cons.mp hx with h₁ | h₁ <;> rcases List.mem_cons.mp hy with h₂ | h₂
    · rw [h₁, h₂]
    · have := hlater y h₂; subst h₁; omega
    · have := hlater x h₁; subst h₂; omega
    · exact ih h.2 (fun v hv => hpos v (by simp [hv])) h₁ h₂

/-- Segments that start at different addresses do not overlap. -/
theorem apart (h : Tiles start len a xs z) (hx : x ∈ xs) (hy : y ∈ xs) (hne : start x ≠ start y) :
    start x + len x ≤ start y ∨ start y + len y ≤ start x := by
  induction xs generalizing a with
  | nil => cases hx
  | cons w ws ih =>
    have hw := h.1
    rcases List.mem_cons.mp hx with h₁ | h₁ <;> rcases List.mem_cons.mp hy with h₂ | h₂
    · subst h₁ h₂; exact absurd rfl hne
    · have := h.2.bounds h₂; subst h₁; omega
    · have := h.2.bounds h₁; subst h₂; omega
    · exact ih h.2 h₁ h₂

end Tiles

end Ssmos

/-
The three-way comparison of a linear order, as a sign: what a comparator gives
that answers below, equal or above with a negative number, zero or a positive
one. Over sequences the order is the lexicographic one.
-/
import Mathlib.Data.List.Lex
import Mathlib.Order.Lattice

namespace Ssmos

section ThreeWay

variable {α : Type*} [LinearOrder α] {a b c : α}

def threeWay (a b : α) : Int := if a < b then -1 else if b < a then 1 else 0

theorem threeWay_of_lt (h : a < b) : threeWay a b = -1 := if_pos h

theorem threeWay_of_gt (h : b < a) : threeWay a b = 1 := by
  rw [threeWay, if_neg h.asymm, if_pos h]

@[simp] theorem threeWay_self : threeWay a a = 0 := by simp [threeWay]

/-- The answer is one of the three, and says which way round the two are. -/
theorem threeWay_cases (a b : α) :
    a < b ∧ threeWay a b = -1 ∨ a = b ∧ threeWay a b = 0 ∨ b < a ∧ threeWay a b = 1 := by
  rcases lt_trichotomy a b with h | rfl | h
  · exact .inl ⟨h, threeWay_of_lt h⟩
  · exact .inr (.inl ⟨rfl, threeWay_self⟩)
  · exact .inr (.inr ⟨h, threeWay_of_gt h⟩)

theorem threeWay_eq_zero : threeWay a b = 0 ↔ a = b := by
  rcases threeWay_cases a b with ⟨h, he⟩ | ⟨h, he⟩ | ⟨h, he⟩
  · simp [he, h.ne]
  · simp [h]
  · simp [he, h.ne']

theorem threeWay_neg : threeWay a b < 0 ↔ a < b := by
  rcases threeWay_cases a b with ⟨h, he⟩ | ⟨h, he⟩ | ⟨h, he⟩
  · simp [he, h]
  · simp [h]
  · simp [he, h.asymm]

theorem threeWay_nonpos : threeWay a b ≤ 0 ↔ a ≤ b := by
  rw [Int.le_iff_lt_or_eq, threeWay_neg, threeWay_eq_zero, le_iff_lt_or_eq]

/-- Swapping the two negates the answer. -/
theorem threeWay_swap (a b : α) : threeWay b a = -threeWay a b := by
  rcases lt_trichotomy a b with h | rfl | h
  · simp [threeWay_of_lt h, threeWay_of_gt h]
  · simp
  · simp [threeWay_of_lt h, threeWay_of_gt h]

theorem threeWay_trans (hab : threeWay a b ≤ 0) (hbc : threeWay b c ≤ 0) : threeWay a c ≤ 0 :=
  threeWay_nonpos.mpr ((threeWay_nonpos.mp hab).trans (threeWay_nonpos.mp hbc))

end ThreeWay

/-! ## Sequences, element by element -/

section Sequences

variable {α : Type*} [LinearOrder α] {x y : α} {xs ys : List α}

@[simp] theorem threeWay_nil_cons : threeWay [] (y :: ys) = -1 := threeWay_of_lt (List.nil_lt_cons _ _)

@[simp] theorem threeWay_cons_nil : threeWay (x :: xs) [] = 1 := threeWay_of_gt (List.nil_lt_cons _ _)

theorem threeWay_cons_of_lt (h : x < y) : threeWay (x :: xs) (y :: ys) = -1 :=
  threeWay_of_lt (List.cons_lt_cons_iff.mpr (.inl h))

theorem threeWay_cons_of_gt (h : y < x) : threeWay (x :: xs) (y :: ys) = 1 :=
  threeWay_of_gt (List.cons_lt_cons_iff.mpr (.inl h))

/-- Equal heads leave it to the tails. -/
@[simp] theorem threeWay_cons_self : threeWay (x :: xs) (x :: ys) = threeWay xs ys := by
  rcases threeWay_cases xs ys with ⟨h, he⟩ | ⟨rfl, -⟩ | ⟨h, he⟩
  · rw [he, threeWay_of_lt (List.cons_lt_cons_iff.mpr (.inr ⟨rfl, h⟩))]
  · simp
  · rw [he, threeWay_of_gt (List.cons_lt_cons_iff.mpr (.inr ⟨rfl, h⟩))]

/-- A proper prefix is below what it starts. -/
theorem threeWay_append (h : ys ≠ []) : threeWay xs (xs ++ ys) = -1 := by
  induction xs with
  | nil =>
    obtain ⟨y, ys, rfl⟩ := List.exists_cons_of_ne_nil h
    exact threeWay_nil_cons
  | cons x xs ih => rw [List.cons_append, threeWay_cons_self, ih]

end Sequences

end Ssmos

/-
`strcmp` in memory is the total order of strings by their chars, a `char`
being signed, and reads neither string past its terminator. A string that ends
is below all that go on, also where they go on with a negative char.
-/
import Ssmos.Base.Reading
import Ssmos.StringFacts

namespace Ssmos

/-! ## The code -/

/-- The pointers `strcmp` reads its two strings through. -/
inductive Cursor
  | x
  | y
  deriving DecidableEq, Repr

namespace Mem

/-- `*x` or `*y`, with the pointer at `a`. -/
def deref (m : Mem) (p : Cursor) (a : Nat) : Reading (Cursor × Nat) Stop UInt8 :=
  .read (p, wrap a) (m.load8 a)

/-- `while (*x != 0x0)`, and what follows it. -/
def strcmpLoop : Nat → Mem → Nat → Nat → Reading (Cursor × Nat) Stop Int
  | 0, _, _, _ => throw .spin
  | n + 1, m, x, y => do
    if (← m.deref .x x) ≠ 0 then
      if (← m.deref .y y) = 0 then return 1
      else if (← m.deref .y y).toInt8 > (← m.deref .x x).toInt8 then return -1
      else if (← m.deref .x x).toInt8 > (← m.deref .y y).toInt8 then return 1
      else strcmpLoop n m (wrap (x + 1)) (wrap (y + 1))
    else if (← m.deref .y y) ≠ 0 then return -1
    else return 0

def strcmp (m : Mem) (str1 str2 : Nat) : Reading (Cursor × Nat) Stop Int :=
  strcmpLoop loopBound m str1 str2

end Mem

/-! ## What it reads and returns -/

/-- The chars `cs` at `d` and their terminator, through `p`. -/
def extent (p : Cursor) (d : Nat) (cs : List UInt8) : Set (Cursor × Nat) :=
  {r | ∃ i, i ≤ cs.length ∧ r = (p, wrap (d + i))}

theorem mem_extent (p : Cursor) (d : Nat) (cs : List UInt8) : (p, wrap d) ∈ extent p d cs :=
  ⟨0, Nat.zero_le _, rfl⟩

namespace Mem

variable (m : Mem) (d : Nat) (cs : List UInt8) (S : Set (Cursor × Nat))

theorem deref_x : (m.deref .x d).Returns (m.load8 d) (extent .x d cs ∪ S) :=
  .read (.inl (mem_extent .x d cs)) _

theorem deref_y : (m.deref .y d).Returns (m.load8 d) (S ∪ extent .y d cs) :=
  .read (.inr (mem_extent .y d cs)) _

end Mem

/-- What is left to read after a char. -/
theorem extent_tail {p : Cursor} {d : Nat} {c : UInt8} {cs : List UInt8} :
    extent p (wrap (d + 1)) cs ⊆ extent p d (c :: cs) := by
  rintro _ ⟨i, hi, rfl⟩
  refine ⟨i + 1, by simpa using hi, ?_⟩
  simp only [wrap]
  congr 1
  omega

namespace CStr

variable {m : Mem} {d x y n : Nat} {cs s t : List UInt8}

theorem load8_ne_zero {i : Nat} (h : CStr m d cs) (hi : i < cs.length) : m.load8 (d + i) ≠ 0 := by
  induction cs generalizing d i with
  | nil => simp at hi
  | cons c cs ih =>
    cases i with
    | zero => simpa [h.1] using h.2.1
    | succ i =>
      rw [show d + (i + 1) = d + 1 + i by omega]
      exact ih h.2.2 (by simpa using hi)

/-- A string that went around the memory would meet its terminator before its
end. -/
theorem length_lt (h : CStr m d cs) : cs.length < 2 ^ 32 := by
  by_contra hlen
  refine h.load8_ne_zero (i := cs.length - 2 ^ 32) (by omega) ?_
  have hzero := h.zero
  rwa [Mem.load8, show wrap (d + (cs.length - 2 ^ 32)) = wrap (d + cs.length) by unfold wrap; omega]

/-- An address and what a register keeps of it hold the same string. -/
theorem wrapped (h : CStr m d cs) : CStr m (wrap d) cs :=
  h.copy fun i _ => by
    rw [Mem.load8, Mem.load8]
    congr 1
    unfold wrap
    omega

/-- In memory as on the chars: the ends of the strings decide first, then the
chars at both pointers. -/
theorem strcmpLoop_returns (hs : CStr m x s) (ht : CStr m y t) (hn : s.length < n) :
    (Mem.strcmpLoop n m x y).Returns (strcmp s t) (extent .x x s ∪ extent .y y t) := by
  induction s generalizing x y t n with
  | nil =>
    obtain ⟨n, rfl⟩ : ∃ j, n = j + 1 := ⟨n - 1, by omega⟩
    rw [Mem.strcmpLoop]
    refine .bind (m.deref_x x _ _) ?_
    have hs : m.load8 x = 0 := hs
    rw [if_neg (not_not_intro hs)]
    refine .bind (m.deref_y y _ _) ?_
    cases t with
    | nil =>
      have ht : m.load8 y = 0 := ht
      rw [if_neg (not_not_intro ht)]
      exact .pure 0
    | cons e t =>
      rw [ht.1, if_pos ht.2.1]
      exact .pure (-1)
  | cons c s ih =>
    obtain ⟨n, rfl⟩ : ∃ j, n = j + 1 := ⟨n - 1, by omega⟩
    rw [Mem.strcmpLoop]
    refine .bind (m.deref_x x _ _) ?_
    rw [if_pos (hs.1.trans_ne hs.2.1)]
    refine .bind (m.deref_y y _ _) ?_
    cases t with
    | nil =>
      have ht : m.load8 y = 0 := ht
      rw [if_pos ht]
      exact .pure 1
    | cons e t =>
      rw [if_neg (ht.1.trans_ne ht.2.1), strcmp, ← hs.1, ← ht.1]
      refine .bind (m.deref_y y _ _) (.bind (m.deref_x x _ _) ?_)
      split
      · exact .pure (-1)
      · refine .bind (m.deref_x x _ _) (.bind (m.deref_y y _ _) ?_)
        split
        · exact .pure 1
        · have hrest := ih hs.2.2.wrapped ht.2.2.wrapped (n := n) (by simpa using hn)
          exact hrest.mono (Set.union_subset_union extent_tail extent_tail)

/-- `strcmp` in memory is `strcmp` on the chars, and each pointer stays within
its string. -/
theorem strcmp_returns {a b : Nat} (hs : CStr m a s) (ht : CStr m b t) :
    (m.strcmp a b).Returns (strcmp s t) (extent .x a s ∪ extent .y b t) :=
  hs.strcmpLoop_returns ht hs.length_lt

end CStr

/-! ## The order -/

theorem strcmp_swap (s t : List UInt8) : strcmp t s = -strcmp s t := by
  rw [strcmp_eq, strcmp_eq, threeWay_swap]

theorem strcmp_trans {s t u : List UInt8} (hst : strcmp s t ≤ 0) (htu : strcmp t u ≤ 0) : strcmp s u ≤ 0 := by
  rw [strcmp_eq] at hst htu ⊢
  exact threeWay_trans hst htu

theorem strcmp_prefix {s t : List UInt8} (h : s <+: t) (hne : s ≠ t) : strcmp s t < 0 := by
  obtain ⟨v, rfl⟩ := h
  have hv : v.map signed ≠ [] := by simpa using hne
  rw [strcmp_eq, List.map_append, threeWay_append hv]
  decide

/-- **`strcmp` orders C strings**, wherever in memory they are: each call
returns, reading no char of either string past its terminator; zero is said of
equal strings only, swapping the two negates the answer, at-most is
transitive, and a proper prefix is below. -/
theorem strcmp_total_order {m : Mem} {a b c : Nat} {s t u : List UInt8}
    (hs : CStr m a s) (ht : CStr m b t) (hu : CStr m c u) :
    ∃ ab ba bc ac : Int,
      (m.strcmp a b).Returns ab (extent .x a s ∪ extent .y b t) ∧
        (m.strcmp b a).Returns ba (extent .x b t ∪ extent .y a s) ∧
        (m.strcmp b c).Returns bc (extent .x b t ∪ extent .y c u) ∧
        (m.strcmp a c).Returns ac (extent .x a s ∪ extent .y c u) ∧
        (ab = 0 ↔ s = t) ∧ ba = -ab ∧ (ab ≤ 0 → bc ≤ 0 → ac ≤ 0) ∧ (s <+: t → s ≠ t → ab < 0) :=
  ⟨strcmp s t, strcmp t s, strcmp t u, strcmp s u, hs.strcmp_returns ht, ht.strcmp_returns hs,
    ht.strcmp_returns hu, hs.strcmp_returns hu, strcmp_eq_zero, strcmp_swap s t, strcmp_trans, strcmp_prefix⟩

/-- A memory with `a` at 16, `a` and a char of 200 at 32 and a char of 200 at
48, each terminated. -/
def threeStrings : Mem where
  cells a := if a = 16 ∨ a = 32 then 97 else if a = 33 ∨ a = 48 then 200 else 0
  log := []

theorem strcmp_total_order_negative : ∃ ab ba bc ac : Int,
    (threeStrings.strcmp 16 32).Returns ab (extent .x 16 [97] ∪ extent .y 32 [97, 200]) ∧
      (threeStrings.strcmp 32 16).Returns ba (extent .x 32 [97, 200] ∪ extent .y 16 [97]) ∧
      (threeStrings.strcmp 32 48).Returns bc (extent .x 32 [97, 200] ∪ extent .y 48 [200]) ∧
      (threeStrings.strcmp 16 48).Returns ac (extent .x 16 [97] ∪ extent .y 48 [200]) ∧
      (ab = 0 ↔ [(97 : UInt8)] = [97, 200]) ∧ ba = -ab ∧ (ab ≤ 0 → bc ≤ 0 → ac ≤ 0) ∧
      ([(97 : UInt8)] <+: [97, 200] → [(97 : UInt8)] ≠ [97, 200] → ab < 0) :=
  strcmp_total_order (m := threeStrings) (a := 16) (b := 32) (c := 48) (s := [97]) (t := [97, 200]) (u := [200])
    ⟨rfl, by decide, rfl⟩ ⟨rfl, by decide, rfl, by decide, rfl⟩ ⟨rfl, by decide, rfl⟩

end Ssmos

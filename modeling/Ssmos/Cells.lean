/-
The framebuffer by its cells: what a put char, a scroll and coloring do to the
chars of a screen of `ROWS` rows.
-/
import Ssmos.CommandsFacts

namespace Ssmos

namespace Framebuffer

variable {fb : Framebuffer} {dest src n a : Nat} {c : UInt8}

theorem fill_apply : fb.fill dest c n a = if dest ≤ a ∧ a < dest + n then c else fb a := by
  induction n with
  | zero => rw [fill, if_neg (by omega)]
  | succ n ih =>
    rw [fill, Framebuffer.set, ih]
    by_cases ha : a = dest + n
    · rw [if_pos ha, if_pos (by omega)]
    · rw [if_neg ha]
      by_cases hin : dest ≤ a ∧ a < dest + n
      · rw [if_pos hin, if_pos (by omega)]
      · rw [if_neg hin, if_neg (by omega)]

/-- A copy to bytes before the source. -/
theorem copy_apply (h : dest + n ≤ src) :
    fb.copy dest src n a = if dest ≤ a ∧ a < dest + n then fb (src + (a - dest)) else fb a := by
  induction n generalizing a with
  | zero => rw [copy, if_neg (by omega)]
  | succ n ih =>
    simp only [copy, Framebuffer.set]
    rw [ih (by omega), ih (by omega)]
    by_cases ha : a = dest + n
    · rw [if_pos ha, if_neg (by omega), if_pos (by omega)]
      exact congrArg fb (by omega)
    · rw [if_neg ha]
      by_cases hin : dest ≤ a ∧ a < dest + n
      · rw [if_pos hin, if_pos (by omega)]
      · rw [if_neg hin, if_neg (by omega)]

end Framebuffer

section

variable {fb : Framebuffer} {x y a n k : Nat} {c color : UInt8} {s : Terminal}

/-- The offset of the char of a cell. -/
def cellAt (x y : Nat) : Nat := x * 2 + y * 160

theorem clamp_eq {v lo hi : Int} (hlo : lo ≤ v) (hhi : v ≤ hi) : clamp v lo hi = v := by
  rw [clamp, if_neg (by omega), if_neg (by omega)]

theorem getPosition_cell (hx : x < COLUMNS) (hy : y < ROWS) : getPosition x y = cellAt x y := by
  have hrows : ((ROWS : Nat) : Int) = 25 := rfl
  have hcols : ((COLUMNS : Nat) : Int) = 80 := rfl
  have hx' : (x : Int) < (COLUMNS : Nat) := Int.ofNat_lt.mpr hx
  have hy' : (y : Int) < (ROWS : Nat) := Int.ofNat_lt.mpr hy
  rw [hrows] at hy'
  rw [hcols] at hx'
  simp only [getPosition, hrows, hcols]
  rw [clamp_eq (v := y) (by omega) (by omega), clamp_eq (v := x) (by omega) (by omega), cellAt]
  omega

theorem kputchar_apply : kputchar fb n c color a = if a = n + 1 then color else if a = n then c else fb a := rfl

/-- The char of a cell after one is put in a cell. -/
theorem kputchar_cell {x' y' : Nat} (hx : x < COLUMNS) (hx' : x' < COLUMNS) :
    kputchar fb (cellAt x y) c color (cellAt x' y') = if x' = x ∧ y' = y then c else fb (cellAt x' y') := by
  simp only [COLUMNS] at hx hx'
  rw [kputchar_apply, if_neg (by unfold cellAt; omega)]
  by_cases h : x' = x ∧ y' = y
  · rw [if_pos (by rw [h.1, h.2]), if_pos h]
  · rw [if_neg h, if_neg (by unfold cellAt; omega)]

/-- Coloring leaves the chars alone. -/
theorem kccolorLoop_even (ha : a % 2 = 0) (hodd : k % 2 = 1) : kccolorLoop n fb k color a = fb a := by
  induction n generalizing fb k with
  | zero => rfl
  | succ n ih =>
    have hset : fb.set k color a = fb a := if_neg (by omega)
    simp only [kccolorLoop]
    split
    · exact hset
    · rw [ih (by omega), hset]

/-- Nor does it look back. -/
theorem kccolorLoop_below (ha : a < k) : kccolorLoop n fb k color a = fb a := by
  induction n generalizing fb k with
  | zero => rfl
  | succ n ih =>
    have hset : fb.set k color a = fb a := if_neg (by omega)
    simp only [kccolorLoop]
    split
    · exact hset
    · rw [ih (by omega), hset]

/-- It reaches each byte there is a turn for, to the end of the framebuffer. -/
theorem kccolorLoop_colored {i : Nat} (hend : k + 2 * i < FRAMEBUFFER_SIZE) (hi : i < n) :
    kccolorLoop n fb k color (k + 2 * i) = color := by
  induction n generalizing fb k i with
  | zero => exact absurd hi (Nat.not_lt_zero i)
  | succ n ih =>
    have hset : fb.set k color k = color := if_pos rfl
    simp only [kccolorLoop]
    cases i with
    | zero =>
      split
      · exact hset
      · exact (kccolorLoop_below (by omega)).trans hset
    | succ i =>
      rw [if_neg (by omega), show k + 2 * (i + 1) = k + 2 + 2 * i by omega]
      exact ih (by omega) (by omega)

theorem kscrollLoop_apply (hn : n < ROWS) :
    kscrollLoop fb n a = if a < n * 160 then fb (a + 160) else fb a := by
  induction n generalizing a with
  | zero => rw [kscrollLoop, if_neg (by omega)]
  | succ n ih =>
    have hto : getPosition 0 n = n * 160 :=
      (getPosition_cell (x := 0) (by decide) (by omega)).trans (by simp [cellAt])
    have hfrom : getPosition 0 ((n : Int) + 1) = (n + 1) * 160 :=
      (getPosition_cell (x := 0) (y := n + 1) (by decide) hn).trans (by simp [cellAt])
    have hrow : COLUMNS * 2 = 160 := rfl
    rw [kscrollLoop, hto, hfrom, hrow, Framebuffer.copy_apply (by omega), ih (by omega), ih (by omega)]
    by_cases hin : n * 160 ≤ a ∧ a < n * 160 + 160
    · rw [if_pos hin, if_neg (by omega), if_pos (by omega)]
      exact congrArg fb (by omega)
    · rw [if_neg hin]
      by_cases hlt : a < n * 160
      · rw [if_pos hlt, if_pos (by omega)]
      · rw [if_neg hlt, if_neg (by omega)]

/-- `kscroll` moves each row up by one. -/
theorem kscroll_cell (hx : x < COLUMNS) (hy : y < ROWS - 1) :
    kscroll fb (cellAt x y) = fb (cellAt x (y + 1)) := by
  have hlast : getPosition 0 ((ROWS : Int) - 1) = 24 * 160 := by decide
  simp only [COLUMNS, ROWS] at hx hy
  rw [kscroll, hlast, Framebuffer.fill_apply, if_neg (by unfold cellAt; omega), kscrollLoop_apply (by decide),
    if_pos (by simp only [ROWS, cellAt]; omega)]
  exact congrArg fb (by unfold cellAt; omega)

end

end Ssmos

/-
Scrolling: the screen is a window on a sheet, the rows it shows and blank lines
after them, and a scroll moves the window down by a line. Any number of new
prompts moves it by the lines there was no room for.
-/
import Ssmos.Cells
import Ssmos.LineEditor

namespace Ssmos

section

variable {fb fb' fb'' : Framebuffer} {x y j k : Nat} {color : UInt8} {s : Terminal}

/-- The char in column `x` of line `y` of the sheet. -/
def sheet (fb : Framebuffer) (x y : Nat) : UInt8 := if y < ROWS then fb (cellAt x y) else 0

/-- `fb'` shows the sheet of `fb` from line `k` on, in `color`. -/
structure Scrolled (k : Nat) (color : UInt8) (fb fb' : Framebuffer) : Prop where
  chars : ∀ x y, x < COLUMNS → sheet fb' x y = sheet fb x (y + k)
  colors : 0 < k → ∀ x y, x < COLUMNS → y < ROWS → fb' (cellAt x y + 1) = color
  unchanged : k = 0 → fb' = fb

namespace Scrolled

theorem refl (color : UInt8) (fb : Framebuffer) : Scrolled 0 color fb fb where
  chars := fun _ _ _ => rfl
  colors := fun h => absurd h (Nat.lt_irrefl 0)
  unchanged := fun _ => rfl

/-- Windows move by the sum. -/
theorem trans (h : Scrolled j color fb fb') (h' : Scrolled k color fb' fb'') :
    Scrolled (j + k) color fb fb'' where
  chars := fun x y hx => by rw [h'.chars x y hx, h.chars x (y + k) hx, Nat.add_assoc, Nat.add_comm k j]
  colors := fun hjk x y hx hy => by
    by_cases hk : k = 0
    · rw [h'.unchanged hk]
      exact h.colors (by omega) x y hx hy
    · exact h'.colors (by omega) x y hx hy
  unchanged := fun hjk => (h'.unchanged (by omega)).trans (h.unchanged (by omega))

/-- A row that had room shows what was `k` rows below. -/
theorem kept (h : Scrolled k color fb fb') (hx : x < COLUMNS) (hy : y + k < ROWS) :
    fb' (cellAt x y) = fb (cellAt x (y + k)) := by
  have hrow := h.chars x y hx
  rwa [sheet, sheet, if_pos (by omega), if_pos hy] at hrow

/-- The others are blank. -/
theorem blank (h : Scrolled k color fb fb') (hx : x < COLUMNS) (hy : y < ROWS) (hk : ROWS ≤ y + k) :
    fb' (cellAt x y) = 0 := by
  have hrow := h.chars x y hx
  rwa [sheet, sheet, if_pos hy, if_neg (by omega)] at hrow

end Scrolled

/-- `kscroll` leaves the last row blank. -/
theorem kscroll_last (hx : x < COLUMNS) : kscroll fb (cellAt x (ROWS - 1)) = 0 := by
  have hlast : getPosition 0 ((ROWS : Int) - 1) = 24 * 160 := by decide
  simp only [COLUMNS, ROWS] at hx ⊢
  rw [kscroll, hlast, Framebuffer.fill_apply, if_pos (by simp only [COLUMNS, cellAt]; omega)]

/-- What the loop of `new_prompt` does each time. -/
theorem scrolled_one (color : UInt8) (fb : Framebuffer) :
    Scrolled 1 color fb (kccolor (kscroll fb) (getPosition 0 0) (COLUMNS * ROWS) color) where
  chars := fun x y hx => by
    have hchars : kccolor (kscroll fb) (getPosition 0 0) (COLUMNS * ROWS) color (cellAt x y) =
        kscroll fb (cellAt x y) := kccolorLoop_even (by unfold cellAt; omega) rfl
    rw [sheet, sheet, hchars]
    by_cases hlt : y + 1 < ROWS
    · rw [if_pos (by omega), if_pos hlt, kscroll_cell hx (by omega)]
    · rw [if_neg hlt]
      split
      · rw [show y = ROWS - 1 by omega, kscroll_last hx]
      · rfl
  colors := fun _ x y hx hy => by
    simp only [COLUMNS, ROWS] at hx hy
    have hstart : getPosition 0 0 = 0 := rfl
    have hcell : cellAt x y + 1 = 0 + 1 + 2 * (x + 80 * y) := by
      unfold cellAt
      omega
    rw [kccolor, hstart, hcell]
    refine kccolorLoop_colored ?_ ?_
    · simp only [FRAMEBUFFER_SIZE, COLUMNS, ROWS]
      omega
    · simp only [COLUMNS, ROWS]
      omega
  unchanged := nofun

theorem scrollLoop_scrolled (hk : s.promptY - (ROWS - 1) ≤ k) :
    Scrolled (s.promptY - (ROWS - 1)).toNat s.terminalColor s.framebuffer (scrollLoop k s).framebuffer := by
  induction k generalizing s with
  | zero =>
    rw [Int.toNat_of_nonpos hk]
    exact .refl _ _
  | succ k ih =>
    rw [scrollLoop]
    split
    next h =>
      have hfirst := scrolled_one s.terminalColor s.framebuffer
      have hrest := ih (s := { s with
        framebuffer := kccolor (kscroll s.framebuffer) (getPosition 0 0) (COLUMNS * ROWS) s.terminalColor
        promptY := s.promptY - 1 }) (by simp only; omega)
      simp only at hrest
      have hall := hfirst.trans hrest
      rwa [show 1 + (s.promptY - 1 - (ROWS - 1)).toNat = (s.promptY - (ROWS - 1)).toNat by omega] at hall
    next h =>
      rw [Int.toNat_of_nonpos (by omega)]
      exact .refl _ _

theorem newPrompt_promptY (s : Terminal) : (newPrompt s).promptY = min (s.promptY + 1) (ROWS - 1) := by
  obtain ⟨fb, hfb⟩ := newPrompt_eq s
  rw [hfb]

theorem newPrompt_terminalColor (s : Terminal) : (newPrompt s).terminalColor = s.terminalColor := by
  obtain ⟨fb, hfb⟩ := newPrompt_eq s
  rw [hfb]
  rfl

/-- One new prompt scrolls by the rows it is too low. -/
theorem newPrompt_scrolled (s : Terminal) :
    Scrolled (s.promptY + 1 - (ROWS - 1)).toNat s.terminalColor s.framebuffer (newPrompt s).framebuffer :=
  scrollLoop_scrolled (s := { s with promptY := s.promptY + 1 }) (by simp only; omega)

/-- A new prompt on the screen: on the next row, or in the last one after a
scroll. -/
theorem newPrompt_cells (h₀ : 0 ≤ s.promptY) (h₁ : s.promptY < ROWS) :
    (s.promptY < ROWS - 1 ∧ (newPrompt s).promptY = s.promptY + 1 ∧
        (newPrompt s).framebuffer = s.framebuffer) ∨
      (s.promptY = ROWS - 1 ∧ (newPrompt s).promptY = ROWS - 1 ∧ ∀ x y, x < COLUMNS → y < ROWS - 1 →
        (newPrompt s).framebuffer (cellAt x y) = s.framebuffer (cellAt x (y + 1))) := by
  have hy := newPrompt_promptY s
  have hscrolled := newPrompt_scrolled s
  by_cases hlast : s.promptY = ROWS - 1
  · rw [show (s.promptY + 1 - (ROWS - 1)).toNat = 1 by omega] at hscrolled
    exact .inr ⟨hlast, hy.trans (by omega), fun x y hx hy => hscrolled.kept hx (by omega)⟩
  · exact .inl ⟨by omega, hy.trans (by omega), hscrolled.unchanged (by omega)⟩

/-- Any number of them, the prompt's row counted on. -/
theorem newPrompts_scrolled (s : Terminal) (n : Nat) :
    (newPrompt^[n + 1] s).promptY = min (s.promptY + (n + 1 : Nat)) (ROWS - 1) ∧
      (newPrompt^[n + 1] s).terminalColor = s.terminalColor ∧
      Scrolled (s.promptY + (n + 1 : Nat) - (ROWS - 1)).toNat s.terminalColor s.framebuffer
        (newPrompt^[n + 1] s).framebuffer := by
  induction n with
  | zero => exact ⟨newPrompt_promptY s, newPrompt_terminalColor s, newPrompt_scrolled s⟩
  | succ n ih =>
    obtain ⟨hy, hcolor, hscrolled⟩ := ih
    have hnext := newPrompt_scrolled (newPrompt^[n + 1] s)
    rw [hy, hcolor] at hnext
    have hsum : (s.promptY + (n + 1 : Nat) - (ROWS - 1)).toNat +
        (min (s.promptY + (n + 1 : Nat)) (ROWS - 1) + 1 - (ROWS - 1)).toNat =
          (s.promptY + (n + 1 + 1 : Nat) - (ROWS - 1)).toNat := by omega
    rw [Function.iterate_succ_apply', newPrompt_promptY, newPrompt_terminalColor, hy]
    exact ⟨by omega, hcolor, hsum ▸ hscrolled.trans hnext⟩

/-- **Scrolling loses and duplicates no line**: after `n` new prompts with
nothing drawn between them the prompt is `n` rows down or in the last row, and
with `k` rows too many every row there is one for shows the row `k` below it
as it was, the rows after are blank and the screen is in the terminal's color;
with none too many the framebuffer is what it was. -/
theorem newPrompts_scroll (s : Terminal) {n : Nat} (hn : 1 ≤ n) :
    (newPrompt^[n] s).promptY = min (s.promptY + n) 24 ∧
      ∃ k : Nat, (k : Int) = max 0 (s.promptY + n - 24) ∧
        (∀ x r, x < COLUMNS → r + k ≤ 24 →
          (newPrompt^[n] s).framebuffer (cellAt x r) = s.framebuffer (cellAt x (r + k))) ∧
        (∀ x r, x < COLUMNS → r ≤ 24 → 24 < r + k → (newPrompt^[n] s).framebuffer (cellAt x r) = 0) ∧
        (0 < k → ∀ x r, x < COLUMNS → r ≤ 24 →
          (newPrompt^[n] s).framebuffer (cellAt x r + 1) = s.terminalColor) ∧
        (k = 0 → (newPrompt^[n] s).framebuffer = s.framebuffer) := by
  obtain ⟨n, rfl⟩ : ∃ j, n = j + 1 := ⟨n - 1, by omega⟩
  obtain ⟨hy, -, hscrolled⟩ := newPrompts_scrolled s n
  have hrows : ((ROWS : Nat) : Int) - 1 = 24 := rfl
  rw [hrows] at hy hscrolled
  refine ⟨hy, _, by omega, fun x r hx hr => hscrolled.kept hx (Nat.lt_succ_of_le hr),
    fun x r hx hr hk => hscrolled.blank hx (Nat.lt_succ_of_le hr) hk,
    fun hk x r hx hr => hscrolled.colors hk x r hx (Nat.lt_succ_of_le hr), hscrolled.unchanged⟩

/-- A screen with something in every cell, and one free row. -/
def lastButOne : Terminal :=
  { blank with
    framebuffer := fun a => UInt8.ofNat a
    promptY := 23
    terminalColor := 10 }

theorem newPrompts_scroll_three : (newPrompt^[3] lastButOne).promptY = 24 ∧
    (∀ x, x < COLUMNS →
      (newPrompt^[3] lastButOne).framebuffer (cellAt x 22) = lastButOne.framebuffer (cellAt x 24)) ∧
    (∀ x, x < COLUMNS → (newPrompt^[3] lastButOne).framebuffer (cellAt x 23) = 0) ∧
    ∀ x, x < COLUMNS → (newPrompt^[3] lastButOne).framebuffer (cellAt x 0 + 1) = 10 := by
  obtain ⟨hy, k, hk, hkept, hblank, hcolor, -⟩ := newPrompts_scroll lastButOne (n := 3) (by decide)
  have htwo : k = 2 := Int.ofNat.inj (hk.trans rfl)
  subst htwo
  exact ⟨hy, fun x hx => hkept x 22 hx (by decide), fun x hx => hblank x 23 hx (by decide) (by decide),
    fun x hx => hcolor (by decide) x 0 hx (by decide)⟩

end

end Ssmos

/-
Where the chars of a text come to stand when it is printed: one cell after the
other, and at a newline on to the next row, up to the end of the screen. A cell
is the number of a position, counted along the rows.
-/
import Ssmos.Drawing

namespace Ssmos

/-! ## The grid -/

/-- The cells of the screen. -/
def CELLS : Nat := COLUMNS * ROWS

theorem framebuffer_cells : FRAMEBUFFER_SIZE = 2 * CELLS := rfl

/-- The first cell of the row after a cell's. -/
def nextRow (cell : Nat) : Nat := (cell / COLUMNS + 1) * COLUMNS

theorem lt_nextRow (cell : Nat) : cell < nextRow cell := by
  simp only [nextRow, COLUMNS]
  omega

/-- The char that a text laid out from the cell `start` on puts in `cell`. -/
def laidOut : Nat → List UInt8 → Nat → Option UInt8
  | _, [], _ => none
  | start, c :: text, cell =>
    if c = 0x0A then laidOut (nextRow start) text cell
    else if cell = start then some c
    else laidOut (start + 1) text cell

/-- The byte at `a` of a cell with the char `c`. -/
def cellByte (c color : UInt8) (a : Nat) : UInt8 := if a % 2 = 0 then c else color

/-- The cell after the last char. -/
def layoutEnd : Nat → List UInt8 → Nat
  | start, [] => start
  | start, c :: text => layoutEnd (if c = 0x0A then nextRow start else start + 1) text

section

variable {start cell k : Nat} {c color : UInt8} {l text rest : List UInt8}

theorem le_layoutEnd (start : Nat) (text : List UInt8) : start ≤ layoutEnd start text := by
  induction text generalizing start with
  | nil => exact Nat.le_refl _
  | cons c text ih =>
    have hnext := lt_nextRow start
    refine Nat.le_trans ?_ (ih _)
    split <;> omega

/-- A text is laid out from its start on. -/
theorem laidOut_before (h : cell < start) : laidOut start text cell = none := by
  induction text generalizing start with
  | nil => rfl
  | cons c text ih =>
    have hnext := lt_nextRow start
    rw [laidOut]
    split
    · exact ih (by omega)
    · rw [if_neg (by omega)]
      exact ih (by omega)

/-- And up to its end. -/
theorem laidOut_after (h : layoutEnd start text ≤ cell) : laidOut start text cell = none := by
  induction text generalizing start with
  | nil => rfl
  | cons c text ih =>
    rw [laidOut]
    rw [layoutEnd] at h
    split
    · next hc => exact ih (by rwa [if_pos hc] at h)
    · next hc =>
      rw [if_neg hc] at h
      have hend := le_layoutEnd (start + 1) text
      rw [if_neg (by omega)]
      exact ih h

/-! ## Drawing -/

namespace Video

variable {v : Video} {a : Nat}

/-- A char in the cell `start` is two bytes of the framebuffer. -/
theorem putText_cell (a : Nat) (color : UInt8) (hc : c ≠ 0x0A) (hv : v.vidptr = 2 * start) :
    (v.putText c color).vidptr = 2 * (start + 1) ∧ (v.putText c color).framebuffer a =
      if a / 2 = start then cellByte c color a else v.framebuffer a := by
  rw [putText, if_pos hc]
  refine ⟨by simp only [advance, store, hv]; omega, ?_⟩
  simp only [advance, store, Framebuffer.set, hv, cellByte]
  by_cases hcell : a / 2 = start
  · rw [if_pos hcell]
    by_cases heven : a % 2 = 0
    · rw [if_neg (by omega), if_pos (by omega), if_pos heven]
    · rw [if_pos (by omega), if_neg heven]
  · rw [if_neg hcell, if_neg (by omega), if_neg (by omega)]

theorem putText_newline (color : UInt8) (hv : v.vidptr = 2 * start) :
    (v.putText 0x0A color).vidptr = 2 * nextRow start ∧
      (v.putText 0x0A color).framebuffer = v.framebuffer := by
  refine ⟨?_, rfl⟩
  simp only [putText, ne_eq, not_true_eq_false, if_false, handleNewline, advance, hv, nextRow, COLUMNS]
  omega

/-- **The loop of `kprint`** draws what is laid out on the screen, and leaves
`vidptr` after it, or past the end of the screen. -/
theorem kprintLoop_layout (hnz : ∀ c ∈ text, c ≠ 0) (hv : v.vidptr = 2 * start) (hlt : start < CELLS) :
    (∀ a, (kprintLoop color text v).framebuffer a = if a < FRAMEBUFFER_SIZE then
        (laidOut start text (a / 2)).elim (v.framebuffer a) fun c => cellByte c color a
      else v.framebuffer a) ∧
    if layoutEnd start text < CELLS then (kprintLoop color text v).vidptr = 2 * layoutEnd start text
    else FRAMEBUFFER_SIZE ≤ (kprintLoop color text v).vidptr := by
  induction text generalizing v start with
  | nil => exact ⟨fun a => by simp [kprintLoop, laidOut], by rw [layoutEnd, if_pos hlt]; exact hv⟩
  | cons c text ih =>
    have hcells := framebuffer_cells
    have hend := le_layoutEnd (if c = 0x0A then nextRow start else start + 1) text
    rw [kprintLoop, if_neg (hnz c (by simp)), layoutEnd]
    by_cases hc : c = 0x0A
    · subst hc
      obtain ⟨hv', hfb⟩ := putText_newline color hv
      simp only [laidOut, if_true] at hend ⊢
      by_cases hstop : (v.putText 0x0A color).vidptr ≥ FRAMEBUFFER_SIZE
      · rw [if_pos hstop, if_neg (by omega)]
        refine ⟨fun a => ?_, hstop⟩
        split
        · rw [laidOut_before (by omega), hfb]
          rfl
        · rw [hfb]
      · rw [if_neg hstop]
        have := ih (v := v.putText 0x0A color) (fun d hd => hnz d (by simp [hd])) hv' (by omega)
        rwa [hfb] at this
    · obtain ⟨hv', -⟩ := putText_cell 0 color hc hv
      have hfb := fun a => (putText_cell a color hc hv).2
      simp only [laidOut, if_neg hc] at hend ⊢
      by_cases hstop : (v.putText c color).vidptr ≥ FRAMEBUFFER_SIZE
      · rw [if_pos hstop, if_neg (by omega)]
        refine ⟨fun a => ?_, hstop⟩
        rw [hfb]
        by_cases hcell : a / 2 = start
        · rw [if_pos hcell, if_pos (show a < FRAMEBUFFER_SIZE by omega), if_pos hcell]
          rfl
        · rw [if_neg hcell, if_neg hcell]
          split
          · rw [laidOut_before (by omega)]
            rfl
          · rfl
      · rw [if_neg hstop]
        obtain ⟨hcells', hptr⟩ := ih (v := v.putText c color) (fun d hd => hnz d (by simp [hd])) hv' (by omega)
        refine ⟨fun a => ?_, hptr⟩
        rw [hcells', hfb]
        by_cases hcell : a / 2 = start
        · have hin : a < FRAMEBUFFER_SIZE := by omega
          rw [if_pos hcell, if_pos hcell, laidOut_before (by omega), if_pos hin, if_pos hin]
          rfl
        · rw [if_neg hcell, if_neg hcell]

/-- **`kprint`** from a position on the screen, cell by cell. -/
theorem kprint_layout {pos : Nat} (v : Video) (color : UInt8) (hnz : ∀ c ∈ text, c ≠ 0) (heven : pos % 2 = 0)
    (hle : pos ≤ 3998) :
    (∀ a, (v.kprint pos text color).framebuffer a = if a < FRAMEBUFFER_SIZE then
        (laidOut (pos / 2) text (a / 2)).elim (v.framebuffer a) fun c => cellByte c color a
      else v.framebuffer a) ∧
    if layoutEnd (pos / 2) text < CELLS then
      (v.kprint pos text color).vidptr = 2 * layoutEnd (pos / 2) text
    else FRAMEBUFFER_SIZE ≤ (v.kprint pos text color).vidptr :=
  kprintLoop_layout (v := v.setVidptr pos) hnz (show pos = 2 * (pos / 2) by omega)
    (show pos / 2 < 2000 by omega)

end Video

/-! ## Lines -/

/-- The cell where the line `j` starts: the first of the row after the cell
behind the line before it. -/
def lineStart (start : Nat) (lines : List (List UInt8)) : Nat → Nat
  | 0 => start
  | j + 1 => nextRow (lineStart start lines j + (lines.getD j []).length)

theorem lineStart_cons (lines : List (List UInt8)) (j : Nat) :
    lineStart start (l :: lines) (j + 1) = lineStart (nextRow (start + l.length)) lines j := by
  induction j with
  | zero => rfl
  | succ j ih => rw [lineStart, ih, lineStart, List.getD_cons_succ]

/-- The char `i` of the line `j`. -/
def lineChar (lines : List (List UInt8)) (j i : Nat) : Option UInt8 := lines[j]?.bind (·[i]?)

theorem mem_lines {lines : List (List UInt8)} (h : c ∈ [0x0A].intercalate lines) :
    c = 0x0A ∨ ∃ l ∈ lines, c ∈ l := by
  induction lines with
  | nil => cases h
  | cons l lines ih =>
    have hlater : c ∈ [0x0A].intercalate lines → c = 0x0A ∨ ∃ k ∈ l :: lines, c ∈ k := fun h =>
      (ih h).imp_right fun hk => hk.imp fun _ hk => ⟨List.mem_cons_of_mem _ hk.1, hk.2⟩
    cases lines with
    | nil =>
      rw [List.intercalate_singleton] at h
      exact .inr ⟨l, by simp, h⟩
    | cons l' lines =>
      rw [List.intercalate_cons_cons, List.append_assoc, List.mem_append, List.mem_append,
        List.mem_singleton] at h
      rcases h with h | h | h
      · exact .inr ⟨l, by simp, h⟩
      · exact .inl h
      · exact hlater h

/-- A line is laid out char by char. -/
theorem laidOut_line (hl : ∀ c ∈ l, c ≠ 0x0A) : laidOut start (l ++ rest) cell =
    if start ≤ cell ∧ cell < start + l.length then l[cell - start]?
    else laidOut (start + l.length) rest cell := by
  induction l generalizing start with
  | nil =>
    rw [if_neg (by simp only [List.length_nil]; omega)]
    rfl
  | cons c l ih =>
    rw [List.cons_append, laidOut, if_neg (hl c (by simp)), ih fun d hd => hl d (by simp [hd])]
    simp only [List.length_cons]
    by_cases hfirst : cell = start
    · rw [if_pos hfirst, if_pos (by omega), hfirst, Nat.sub_self]
      rfl
    · rw [if_neg hfirst]
      by_cases hin : start + 1 ≤ cell ∧ cell < start + 1 + l.length
      · have hsucc : cell - start = cell - (start + 1) + 1 := by omega
        rw [if_pos hin, if_pos (by omega), hsucc, List.getElem?_cons_succ]
      · rw [if_neg hin, if_neg (by omega), Nat.add_right_comm, Nat.add_assoc]

/-- The first line of a text, and the others from the next row on. -/
theorem laidOut_cons_line {lines : List (List UInt8)} (hl : ∀ c ∈ l, c ≠ 0x0A) :
    laidOut start ([0x0A].intercalate (l :: lines)) cell =
      if start ≤ cell ∧ cell < start + l.length then l[cell - start]?
      else laidOut (nextRow (start + l.length)) ([0x0A].intercalate lines) cell := by
  cases lines with
  | nil =>
    rw [List.intercalate_singleton, List.intercalate_nil, ← List.append_nil l, laidOut_line (by simpa using hl)]
    simp [laidOut]
  | cons l' lines =>
    rw [List.intercalate_cons_cons, List.append_assoc, laidOut_line hl, List.singleton_append, laidOut,
      if_pos rfl]

/-- **The chars of a text by their lines**: the char `i` of the line `j` is in
the cell `i` after the line's start. -/
theorem laidOut_lines {lines : List (List UInt8)} (hlines : ∀ l ∈ lines, ∀ c ∈ l, c ≠ 0x0A) :
    laidOut start ([0x0A].intercalate lines) cell = some c ↔
      ∃ j i, lineChar lines j i = some c ∧ cell = lineStart start lines j + i := by
  induction lines generalizing start with
  | nil => simp [laidOut, lineChar]
  | cons l lines ih =>
    have hrest := @ih (nextRow (start + l.length)) fun k hk => hlines k (by simp [hk])
    have hsplit : (∃ j i, lineChar (l :: lines) j i = some c ∧ cell = lineStart start (l :: lines) j + i) ↔
        (∃ i, l[i]? = some c ∧ cell = start + i) ∨
          laidOut (nextRow (start + l.length)) ([0x0A].intercalate lines) cell = some c := by
      rw [hrest]
      constructor
      · intro hx
        obtain ⟨j, i, hc, hcell⟩ := hx
        cases j with
        | zero => exact .inl ⟨i, hc, hcell⟩
        | succ j => exact .inr ⟨j, i, hc, by rwa [lineStart_cons] at hcell⟩
      · intro hx
        rcases hx with ⟨i, hc, hcell⟩ | ⟨j, i, hc, hcell⟩
        · exact ⟨0, i, hc, hcell⟩
        · exact ⟨j + 1, i, hc, by rw [lineStart_cons, hcell]⟩
    have hnext := lt_nextRow (start + l.length)
    rw [hsplit, laidOut_cons_line (hlines l (by simp))]
    by_cases hin : start ≤ cell ∧ cell < start + l.length
    · rw [if_pos hin]
      constructor
      · exact fun hc => .inl ⟨_, hc, by omega⟩
      · intro hx
        rcases hx with ⟨i, hc, rfl⟩ | hlater
        · rwa [Nat.add_sub_cancel_left]
        · rw [laidOut_before (by omega)] at hlater
          cases hlater
    · rw [if_neg hin]
      refine ⟨.inr, fun hx => ?_⟩
      rcases hx with ⟨i, hc, rfl⟩ | hlater
      · have := (List.getElem?_eq_some_iff.mp hc).1
        omega
      · exact hlater

/-- **`kprint` is a grid writer**: the char `i` of the line `j` comes to stand,
in color, in the cell `i` after the line's start if that is on the screen, and
nothing else is written. -/
theorem kprint_grid {pos : Nat} {lines : List (List UInt8)} (v : Video) (color : UInt8) (heven : pos % 2 = 0)
    (hle : pos ≤ 3998) (hlines : ∀ l ∈ lines, ∀ c ∈ l, c ≠ 0 ∧ c ≠ 0x0A) :
    (∀ j i c, lineChar lines j i = some c → lineStart (pos / 2) lines j + i < CELLS →
      (v.kprint pos ([0x0A].intercalate lines) color).framebuffer (2 * (lineStart (pos / 2) lines j + i)) = c ∧
      (v.kprint pos ([0x0A].intercalate lines) color).framebuffer (2 * (lineStart (pos / 2) lines j + i) + 1) =
        color) ∧
    ∀ a, (∀ j i c, lineChar lines j i = some c → lineStart (pos / 2) lines j + i < CELLS →
        a / 2 ≠ lineStart (pos / 2) lines j + i) →
      (v.kprint pos ([0x0A].intercalate lines) color).framebuffer a = v.framebuffer a := by
  have hnz : ∀ c ∈ [0x0A].intercalate lines, c ≠ 0 := fun c hc => by
    rcases mem_lines hc with rfl | ⟨l, hl, hmem⟩
    · decide
    · exact (hlines l hl c hmem).1
  have hdrawn := (v.kprint_layout color hnz heven hle).1
  have hchars : ∀ cell c, laidOut (pos / 2) ([0x0A].intercalate lines) cell = some c ↔
      ∃ j i, lineChar lines j i = some c ∧ cell = lineStart (pos / 2) lines j + i :=
    fun cell c => laidOut_lines fun l hl d hd => (hlines l hl d hd).2
  have hcells := framebuffer_cells
  constructor
  · intro j i c hc hin
    have hlaid := (hchars _ c).mpr ⟨j, i, hc, rfl⟩
    rw [hdrawn, hdrawn, if_pos (by omega), if_pos (by omega), Nat.mul_div_cancel_left _ (by decide),
      show (2 * (lineStart (pos / 2) lines j + i) + 1) / 2 = lineStart (pos / 2) lines j + i by omega, hlaid]
    simp only [Option.elim, cellByte]
    rw [if_pos (by omega), if_neg (by omega)]
    exact ⟨rfl, rfl⟩
  · intro a hfree
    rw [hdrawn]
    split
    · next ha =>
      cases hlaid : laidOut (pos / 2) ([0x0A].intercalate lines) (a / 2) with
      | none => rfl
      | some c =>
        obtain ⟨j, i, hc, hcell⟩ := (hchars _ c).mp hlaid
        exact absurd hcell (hfree j i c hc (by omega))
    · rfl

/-- `"ab\nc"` from the last cell of the first row on. -/
theorem kprint_grid_wraps : (Video.kprint ⟨fun _ => 0, 0, []⟩ 158 [97, 98, 0x0A, 99] 7).framebuffer 158 = 97 ∧
    (Video.kprint ⟨fun _ => 0, 0, []⟩ 158 [97, 98, 0x0A, 99] 7).framebuffer 160 = 98 ∧
    (Video.kprint ⟨fun _ => 0, 0, []⟩ 158 [97, 98, 0x0A, 99] 7).framebuffer 320 = 99 := by
  have h := @kprint_grid 158 [[97, 98], [99]] ⟨fun _ => 0, 0, []⟩ 7 (by decide) (by decide)
    (by simp)
  exact ⟨(h.1 0 0 97 rfl (by decide)).1, (h.1 0 1 98 rfl (by decide)).1, (h.1 1 0 99 rfl (by decide)).1⟩

/-! ## `kputstring` -/

/-- A char drawn in a cell changes nothing exactly if it is there, in its color. -/
theorem drawn_eq_iff {fb fb' : Framebuffer} (h : ∀ a, fb' a = if a / 2 = cell then cellByte c color a else fb a) :
    fb' = fb ↔ fb (2 * cell) = c ∧ fb (2 * cell + 1) = color := by
  constructor
  · rintro rfl
    have hchar := h (2 * cell)
    have hcolor := h (2 * cell + 1)
    rw [if_pos (by omega), cellByte, if_pos (by omega)] at hchar
    rw [if_pos (by omega), cellByte, if_neg (by omega)] at hcolor
    exact ⟨hchar, hcolor⟩
  · rintro ⟨hchar, hcolor⟩
    funext a
    rw [h]
    split
    · next ha =>
      rw [cellByte]
      split
      · rw [show a = 2 * cell by omega, hchar]
      · rw [show a = 2 * cell + 1 by omega, hcolor]
    · rfl

namespace Video

/-- **The loop of `kputstring`** does what that of `kprint` does, and on the
screen it goes on to draw the terminator when the count lets it. -/
theorem kputstringLoop_eq {v : Video} {n : Nat} (hnz : ∀ c ∈ text, c ≠ 0) (hlt : v.vidptr < FRAMEBUFFER_SIZE) :
    kputstringLoop color n text v =
      if text.length < n ∧ (kprintLoop color text v).vidptr < FRAMEBUFFER_SIZE then
        (kprintLoop color text v).putText 0 color
      else kprintLoop color (text.take n) v := by
  induction text generalizing v n with
  | nil =>
    cases n with
    | zero => rw [if_neg (by simp)]; rfl
    | succ n => rw [if_pos ⟨by simp, hlt⟩]; rfl
  | cons c text ih =>
    cases n with
    | zero => rw [if_neg (by simp)]; rfl
    | succ n =>
      have hc := hnz c (by simp)
      simp only [kputstringLoop, kprintLoop, List.take_succ_cons, if_neg hc]
      by_cases hstop : (v.putText c color).vidptr ≥ FRAMEBUFFER_SIZE
      · simp only [if_pos hstop]
        rw [if_neg (by omega)]
      · simp only [if_neg hstop]
        rw [ih (fun d hd => hnz d (by simp [hd])) (by omega)]
        simp only [List.length_cons, Nat.add_lt_add_iff_right]

/-- **`kputstring` draws what `kprint` draws** of the chars it is to put,
exactly when the count does not go past the text, or the text past the screen,
or the cell after the text is as it leaves it: with the terminator in it. -/
theorem kputstring_eq_kprint_iff (v : Video) (x y : Int) (text : Text) {n : Int} (hn : 0 ≤ n) :
    (v.kputstring (getPosition x y) text.chars n color).framebuffer =
        (v.kprint (getPosition x y) (text.take n.toNat).chars color).framebuffer ↔
      n ≤ text.length ∨ CELLS ≤ layoutEnd (getPosition x y / 2) text.chars ∨
        (v.framebuffer (2 * layoutEnd (getPosition x y / 2) text.chars) = 0 ∧
          v.framebuffer (2 * layoutEnd (getPosition x y / 2) text.chars + 1) = color) := by
  obtain ⟨hlt, heven⟩ := getPosition_bounds x y
  have hcells := framebuffer_cells
  have hsize : FRAMEBUFFER_SIZE = 4000 := rfl
  have hloop : kputstringLoop color n.toNat text.chars (v.setVidptr (getPosition x y)) = _ :=
    kputstringLoop_eq text.nonzero (show getPosition x y < _ by omega)
  obtain ⟨hfb, hend⟩ := v.kprint_layout color text.nonzero heven (by omega)
  by_cases hcount : n ≤ text.length
  · rw [if_neg (fun h => by have := h.1; simp only [Text.length] at hcount; omega)] at hloop
    exact iff_of_true (congrArg Video.framebuffer hloop) (.inl hcount)
  · rw [Text.take_of_length_le (by omega)]
    by_cases hin : layoutEnd (getPosition x y / 2) text.chars < CELLS
    · rw [if_pos hin] at hend
      rw [if_pos ⟨by simp only [Text.length] at hcount; omega,
        show (v.kprint (getPosition x y) text.chars color).vidptr < _ by omega⟩] at hloop
      -- The terminator goes to the cell after the text, which nothing has been drawn in.
      have hterm := fun a => (putText_cell (c := 0) a color (by decide) hend).2
      have hkept : ∀ a, a / 2 = layoutEnd (getPosition x y / 2) text.chars →
          (v.kprint (getPosition x y) text.chars color).framebuffer a = v.framebuffer a := fun a ha => by
        rw [hfb, laidOut_after (by omega)]
        split <;> rfl
      have hput : ∀ a, (v.kputstring (getPosition x y) text.chars n color).framebuffer a =
          if a / 2 = layoutEnd (getPosition x y / 2) text.chars then cellByte 0 color a
          else (v.kprint (getPosition x y) text.chars color).framebuffer a := fun a => by
        rw [← hterm a]
        exact congrFun (congrArg Video.framebuffer hloop) a
      rw [drawn_eq_iff hput, hkept _ (by omega), hkept _ (by omega)]
      simp only [hcount, Nat.not_le.mpr hin, false_or]
    · rw [if_neg hin] at hend
      rw [if_neg fun h => absurd h.2 (Nat.not_lt.mpr hend), List.take_of_length_le (by
        simp only [Text.length] at hcount; omega)] at hloop
      exact iff_of_true (congrArg Video.framebuffer hloop) (.inr (.inl (Nat.not_lt.mp hin)))

/-- Of `"a"`, two chars at the top left of a blank screen. -/
theorem kputstring_eq_kprint_iff_top :
    (Video.kputstring ⟨fun _ => 0, 0, []⟩ (getPosition 0 0) [97] 2 0).framebuffer =
      (Video.kprint ⟨fun _ => 0, 0, []⟩ (getPosition 0 0) [97] 0).framebuffer :=
  (kputstring_eq_kprint_iff ⟨fun _ => 0, 0, []⟩ 0 0 ⟨[97], by simp⟩ (n := 2) (by decide)).mpr
    (.inr (.inr ⟨rfl, rfl⟩))

/-- In color it differs: `kputstring` colors the cell after the text. -/
theorem kputstring_ne_kprint : ¬ ∀ (v : Video) (x y : Int) (text : Text) (n : Int) (color : UInt8), 0 ≤ n →
    (v.kputstring (getPosition x y) text.chars n color).framebuffer =
      (v.kprint (getPosition x y) (text.take n.toNat).chars color).framebuffer := by
  intro hall
  have hcell := congrFun (hall ⟨fun _ => 0, 0, []⟩ 0 0 ⟨[97], by simp⟩ 2 7 (by decide)) 3
  exact absurd hcell (by decide)

end Video

end

end Ssmos

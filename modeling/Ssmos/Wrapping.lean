/-
How `writeline` wraps: the column of a char goes by 80 and the line breaks go
by 79, so from the second wrap on a char is in a later row than it should be.

A `Page` goes along with the run: the rows the call opened, counted from the
first, and which char of the message was put in which of their cells.
-/
import Ssmos.Scrolling

namespace Ssmos

/-! ## The page -/

structure Page where
  /-- The row opened last. -/
  last : Nat
  /-- The char of a row and a column, by its index. -/
  cell : Nat → Nat → Option Nat

namespace Page

/-- The first row, with nothing in it. -/
def blank : Page := ⟨0, fun _ _ => none⟩

/-- Char `i` goes to the row opened last. -/
def put (p : Page) (i : Nat) : Page :=
  { p with cell := fun r x => if r = p.last ∧ x = i % COLUMNS then some i else p.cell r x }

def newRow (p : Page) : Page := { p with last := p.last + 1 }

end Page

/-- The loop of `writeline`, with the page. -/
def pageLoop : Nat → List UInt8 → Terminal → Page → Terminal × Page
  | _, [], s, p => (s, p)
  | i, c :: cs, s, p =>
    let s := { s with
      framebuffer := kputchar s.framebuffer (getPosition (i % COLUMNS) s.promptY) c s.terminalColor }
    let p := p.put i
    if i > 0 ∧ i % (COLUMNS - 1) = 0 then pageLoop (i + 1) cs (newPrompt s) p.newRow
    else pageLoop (i + 1) cs s p

def page (s : Terminal) (msg : Text) : Terminal × Page := pageLoop 0 msg.chars (newPrompt s) .blank

section

variable {s s' : Terminal} {p : Page} {msg : Text} {cs : List UInt8} {i k n : Nat}

/-- The page changes nothing of the run. -/
theorem writelineLoop_page : Term.writelineLoop i cs s = .ok ((), (pageLoop i cs s p).1) := by
  induction cs generalizing i s p with
  | nil => rfl
  | cons c cs ih =>
    simp only [Term.writelineLoop, pageLoop]
    split
    · exact ih
    · exact ih

theorem writeline_page (s : Terminal) (msg : Text) : Term.writeline msg s = .ok ((), (page s msg).1) :=
  writelineLoop_page

/-- Each char is where it should be: in the column and the row that its index
gives by 80, as far as that row has not scrolled off. -/
def LaidOut (s : Terminal) (msg : Text) : Prop :=
  ∀ i (h : i < msg.chars.length), i / COLUMNS ≤ (page s msg).2.last ∧
    ∀ y : Nat, (y : Int) = (page s msg).1.promptY - ((page s msg).2.last - i / COLUMNS : Nat) →
      (page s msg).2.cell (i / COLUMNS) (i % COLUMNS) = some i ∧
      (page s msg).1.framebuffer (cellAt (i % COLUMNS) y) = msg.chars[i]

/-! ## Where the chars go -/

/-- The row a char is put in. -/
def rowOf (i : Nat) : Nat := (i - 1) / (COLUMNS - 1)

/-- Chars in the same row are in different columns. -/
theorem rowOf_apart (hlt : i < k) (hrow : rowOf i = rowOf k) : i % COLUMNS ≠ k % COLUMNS := by
  simp only [rowOf, COLUMNS] at *
  omega

/-- After `k` chars of `all`, with `row` open. -/
structure Placed (all : List UInt8) (k row : Nat) (s : Terminal) (p : Page) : Prop where
  low : 0 ≤ s.promptY
  high : s.promptY < ROWS
  last : p.last = row
  full : (row : Int) ≤ s.promptY ∨ s.promptY = ROWS - 1
  opened : ∀ i, i < k → rowOf i ≤ row
  cell : ∀ r x i, p.cell r x = some i ↔ i < k ∧ r = rowOf i ∧ x = i % COLUMNS
  shown : ∀ i (h : i < all.length), i < k → ∀ y : Nat, (y : Int) = s.promptY - (row - rowOf i : Nat) →
    s.framebuffer (cellAt (i % COLUMNS) y) = all[i]

theorem Placed.put {all : List UInt8} (h : Placed all k (rowOf k) s p) (hk : k < all.length) :
    Placed all (k + 1) (rowOf k) { s with
      framebuffer := kputchar s.framebuffer (getPosition (k % COLUMNS) s.promptY) all[k] s.terminalColor }
      (p.put k) where
  low := h.low
  high := h.high
  last := h.last
  full := h.full
  opened := fun i hi => by
    by_cases he : i = k
    · rw [he]
    · exact h.opened i (by omega)
  cell := fun r x i => by
    simp only [Page.put, h.last]
    split
    · next hin =>
      constructor
      · intro he
        obtain rfl := Option.some.inj he
        exact ⟨by omega, hin.1, hin.2⟩
      · intro hx
        obtain ⟨hi, rfl, rfl⟩ := hx
        by_cases he : i = k
        · rw [he]
        · exact absurd hin.2 (rowOf_apart (by omega) hin.1)
    · next hin =>
      rw [h.cell]
      constructor
      · intro hx
        exact ⟨by omega, hx.2⟩
      · intro hx
        obtain ⟨hi, rfl, rfl⟩ := hx
        refine ⟨?_, rfl, rfl⟩
        by_contra hge
        obtain rfl : i = k := by omega
        exact hin ⟨rfl, rfl⟩
  shown := fun i hi hlt y hy => by
    have hmod : ∀ j, j % COLUMNS < COLUMNS := fun j => Nat.mod_lt _ (by decide)
    obtain ⟨bottom, hbottom⟩ := Int.eq_ofNat_of_zero_le h.low
    have hhigh := h.high
    rw [hbottom] at hy hhigh
    have hpos : getPosition (k % COLUMNS) s.promptY = cellAt (k % COLUMNS) bottom := by
      rw [hbottom, ← Int.natCast_emod, getPosition_cell (hmod k) (Int.ofNat_lt.mp hhigh)]
    simp only [hpos]
    rw [kputchar_cell (hmod k) (hmod i)]
    by_cases he : i = k
    · subst he
      rw [if_pos ⟨rfl, by omega⟩]
    · have hopen := h.opened i (by omega)
      rw [if_neg, h.shown i hi (by omega) y (by rw [hbottom]; exact hy)]
      intro hsame
      exact rowOf_apart (by omega) (by omega) hsame.1

theorem Placed.newRow {all : List UInt8} {row : Nat} (h : Placed all k row s p) :
    Placed all k (row + 1) (newPrompt s) p.newRow := by
  have hrows : ((ROWS : Nat) : Int) = 25 := rfl
  have hrows' : ROWS = 25 := rfl
  have hfull := h.full
  have hopened : ∀ i, i < k → rowOf i ≤ row + 1 := fun i hi => Nat.le_succ_of_le (h.opened i hi)
  rcases newPrompt_cells h.low h.high with ⟨hlt, hy, hfb⟩ | ⟨hy₀, hy, hfb⟩
  · refine ⟨?_, ?_, congrArg (· + 1) h.last, ?_, hopened, h.cell, fun i hi hlt' y hat => ?_⟩
    · have := h.low
      omega
    · omega
    · omega
    · have := h.opened i hlt'
      rw [hfb]
      exact h.shown i hi hlt' y (by omega)
  · refine ⟨by omega, by omega, congrArg (· + 1) h.last, .inr hy, hopened, h.cell, fun i hi hlt' y hat => ?_⟩
    have := h.opened i hlt'
    rw [hfb _ _ (Nat.mod_lt _ (by decide)) (by omega)]
    exact h.shown i hi hlt' (y + 1) (by omega)

/-- The whole loop, from any char of the message on. -/
theorem pageLoop_placed {all : List UInt8} (h : Placed all k (rowOf k) s p) (hcs : cs = all.drop k)
    (hk : k ≤ all.length) :
    Placed all all.length (rowOf all.length) (pageLoop k cs s p).1 (pageLoop k cs s p).2 := by
  induction cs generalizing k s p with
  | nil =>
    have hlen := List.drop_eq_nil_iff.mp hcs.symm
    obtain rfl : k = all.length := by omega
    exact h
  | cons c cs ih =>
    have hlt : k < all.length := by
      by_contra hge
      rw [List.drop_eq_nil_of_le (by omega)] at hcs
      cases hcs
    rw [List.drop_eq_getElem_cons hlt] at hcs
    obtain ⟨rfl, hrest⟩ := List.cons.inj hcs
    have hput := h.put hlt
    rw [pageLoop]
    by_cases hbreak : k > 0 ∧ k % (COLUMNS - 1) = 0
    · rw [if_pos hbreak]
      have hrow : rowOf (k + 1) = rowOf k + 1 := by
        simp only [rowOf, COLUMNS] at hbreak ⊢
        omega
      exact ih (hrow ▸ hput.newRow) hrest hlt
    · rw [if_neg hbreak]
      have hrow : rowOf (k + 1) = rowOf k := by
        simp only [rowOf, COLUMNS] at hbreak ⊢
        omega
      exact ih (hrow ▸ hput) hrest hlt

theorem page_placed (h : -1 ≤ s.promptY) (msg : Text) :
    Placed msg.chars msg.chars.length (rowOf msg.chars.length) (page s msg).1 (page s msg).2 := by
  have hlow : 0 ≤ (newPrompt s).promptY := by
    rw [newPrompt_promptY]
    simp only [ROWS]
    omega
  have hhigh : (newPrompt s).promptY < ROWS := by
    rw [newPrompt_promptY]
    omega
  refine pageLoop_placed ⟨hlow, hhigh, rfl, .inl hlow, fun i hi => absurd hi (Nat.not_lt_zero i),
    fun r x i => ?_, fun i _ hi => absurd hi (Nat.not_lt_zero i)⟩ rfl (Nat.zero_le _)
  simp [Page.blank]

/-- In a long message some char of the last rows is in a wrong one: every char
from 6400 on is, before that the last ones of each row but the first. -/
theorem exists_misplaced (hn : 160 ≤ n) (hrows : (n - 1) / 79 < (n - 1) / 80 + 25) :
    ∃ i, i < n ∧ i / 80 ≠ (i - 1) / 79 ∧ (n - 1) / 79 ≤ i / 80 + 24 := by
  obtain ⟨row, hrow⟩ : ∃ row, row = (n - 1) / 80 := ⟨_, rfl⟩
  by_cases hfar : 80 ≤ row
  · exact ⟨n - 1, by omega, by omega, by omega⟩
  · by_cases hlast : 79 * row + 80 < n
    · exact ⟨79 * row + 80, hlast, by omega, by omega⟩
    · exact ⟨79 * row + 1, by omega, by omega, by omega⟩

/-- **`writeline` wraps right** if the message is at most two rows long, all but
one char, or else so long that no row it should be in is left. -/
theorem writeline_wraps_iff (h : -1 ≤ s.promptY) (msg : Text) :
    Term.writeline msg s = .ok ((), (page s msg).1) ∧
    (LaidOut s msg ↔ msg.length ≤ 159 ∨ (msg.length - 1) / 80 + 25 ≤ (msg.length - 1) / 79) := by
  have hplaced := page_placed h msg
  have hlow := hplaced.low
  have hhigh := hplaced.high
  have hfull := hplaced.full
  have hrows : ((ROWS : Nat) : Int) = 25 := rfl
  have hrowOf : ∀ i, rowOf i = (i - 1) / 79 := fun _ => rfl
  have hdiv : ∀ i, i / COLUMNS = i / 80 := fun _ => rfl
  refine ⟨writeline_page s msg, ?_⟩
  simp only [LaidOut, hplaced.last, hplaced.cell, Text.length, hdiv]
  rw [hrowOf] at *
  constructor
  · intro hlaid
    by_contra hlong
    obtain ⟨i, hi, hwrong, hvisible⟩ := exists_misplaced (n := msg.chars.length) (by omega) (by omega)
    obtain ⟨-, hcell⟩ := hlaid i hi
    obtain ⟨y, hy⟩ := Int.eq_ofNat_of_zero_le (show 0 ≤ (page s msg).1.promptY -
      ((msg.chars.length - 1) / 79 - i / 80 : Nat) by omega)
    exact hwrong (hcell y hy.symm).1.2.1
  · intro hshort i hi
    refine ⟨by omega, fun y hy => ?_⟩
    have hrow : i / 80 = rowOf i := by
      rw [hrowOf]
      omega
    refine ⟨⟨hi, hrow, trivial⟩, hplaced.shown i hi hi y ?_⟩
    rw [← hrow]
    exact hy

/-- Two rows of the letter `a`. -/
def twoRows : Text := ⟨List.replicate 160 0x61, fun c hc => by rw [List.eq_of_mem_replicate hc]; decide⟩

/-- They are not laid out, and without the last char they are. -/
theorem writeline_wraps_iff_twoRows : Term.writeline twoRows blank = .ok ((), (page blank twoRows).1) ∧
    ¬LaidOut blank twoRows ∧ LaidOut blank (twoRows.take 159) := by
  obtain ⟨hprint, hlaid⟩ := writeline_wraps_iff (s := blank) (by decide) twoRows
  have hlength : twoRows.length = 160 := List.length_replicate
  refine ⟨hprint, fun h => ?_, (writeline_wraps_iff (by decide) (twoRows.take 159)).2.mpr (.inl ?_)⟩
  · have := hlaid.mp h
    omega
  · rw [Text.take_length]
    omega

/-- The last char of two rows is alone in a third, and the second ends in a
blank. -/
theorem writeline_drifts : ¬LaidOut blank twoRows ∧ (page blank twoRows).2.cell 2 79 = some 159 ∧
    (page blank twoRows).1.framebuffer (cellAt 79 2) = 0 := by
  have hend : (page blank twoRows).2.last = 2 ∧ (page blank twoRows).1.promptY = 3 ∧
      (page blank twoRows).2.cell 1 79 = none ∧ (page blank twoRows).2.cell 2 79 = some 159 ∧
      (page blank twoRows).1.framebuffer (cellAt 79 2) = 0 := by decide +kernel
  obtain ⟨hlast, hy, hnone, hcell, hblank⟩ := hend
  refine ⟨fun hlaid => ?_, hcell, hblank⟩
  obtain ⟨-, hput⟩ := hlaid 159 (by simp [twoRows])
  rw [hlast, hy] at hput
  have := (hput 2 (by decide)).1
  rw [show 159 / COLUMNS = 1 by decide, show 159 % COLUMNS = 79 by decide, hnone] at this
  cases this

end

end Ssmos

/-
Screens put together from texts and numbers: what a sequence of `kprint` and
`kprintnum` leaves in each cell. The last text to reach a cell shows there.
-/
import Ssmos.ScreenFacts
import Ssmos.NumberHistory

namespace Ssmos

/-! ## Labels -/

/-- A text, and the cell it is printed from. -/
structure Label where
  start : Nat
  text : List UInt8

/-- The char that shows in a cell after some labels were drawn. -/
def shown : List Label → Nat → Option UInt8
  | [], _ => none
  | l :: ls, cell => (shown ls cell).or (laidOut l.start l.text cell)

def drawLabels (color : UInt8) (ls : List Label) (fb : Framebuffer) : Framebuffer :=
  ls.foldl (fun fb l => kprint fb (2 * l.start) l.text color) fb

structure Label.Valid (l : Label) : Prop where
  start : l.start < CELLS
  text : ∀ c ∈ l.text, c ≠ 0

/-- The cell of a column and a row. -/
def cellOf (p : Int × Int) : Nat := (p.2 * 80 + p.1).toNat

/-- A part of a row, kept for one label. -/
structure Field where
  start : Nat
  width : Nat
  deriving DecidableEq, Repr

def Field.Apart (f g : Field) : Prop := f.start + f.width ≤ g.start ∨ g.start + g.width ≤ f.start

instance (f g : Field) : Decidable (f.Apart g) := inferInstanceAs (Decidable (_ ∨ _))

/-- The field a label takes. -/
def Label.field (l : Label) : Field := ⟨l.start, l.text.length⟩

/-- The lines of a text, each a label of its own. -/
def lineLabels : Nat → List (List UInt8) → List Label
  | _, [] => []
  | start, l :: lines => ⟨start, l⟩ :: lineLabels (nextRow (start + l.length)) lines

structure Label.Fits (l : Label) (f : Field) : Prop where
  start : l.start = f.start
  length : l.text.length ≤ f.width
  chars : ∀ c ∈ l.text, c ≠ 0 ∧ c ≠ 0x0A

theorem Label.fits_iff (l : Label) (f : Field) : (l.start = f.start ∧ l.text.length ≤ f.width ∧
    l.text.all fun c => c != 0 && c != 0x0A) ↔ l.Fits f := by
  simp only [List.all_eq_true, Bool.and_eq_true, bne_iff_ne]
  exact ⟨fun ⟨hstart, hlength, hchars⟩ => ⟨hstart, hlength, hchars⟩, fun h => ⟨h.start, h.length, h.chars⟩⟩

instance Label.Fits.decidable (l : Label) (f : Field) : Decidable (l.Fits f) := decidable_of_iff _ (l.fits_iff f)

theorem Label.Fits.line {l : Label} {f : Field} (h : l.Fits f) : ∀ c ∈ l.text, c ≠ 0x0A := fun c hc => (h.chars c hc).2

section

variable {ls : List Label} {l : Label} {fs : List Field} {f : Field} {fb : Framebuffer} {color c : UInt8}
  {a cell i : Nat}

theorem drawLabels_apply (h : ∀ l ∈ ls, l.Valid) : drawLabels color ls fb a =
    if a < FRAMEBUFFER_SIZE then (shown ls (a / 2)).elim (fb a) fun c => cellByte c color a else fb a := by
  induction ls generalizing fb with
  | nil => simp [drawLabels, shown]
  | cons l ls ih =>
    have hl := h l List.mem_cons_self
    have hcells : CELLS = 2000 := rfl
    have hstart := hl.start
    rw [drawLabels, List.foldl_cons, ← drawLabels, ih fun l hl => h l (List.mem_cons_of_mem _ hl), shown, kprint,
      (Video.kprint_layout ⟨fb, 0, []⟩ color hl.text (by omega) (by omega)).1 a,
      Nat.mul_div_cancel_left _ (by decide)]
    split
    · cases shown ls (a / 2) <;> rfl
    · rfl

/-- What shows was printed there. -/
theorem shown_mem (h : shown ls cell = some c) : ∃ l ∈ ls, laidOut l.start l.text cell = some c := by
  induction ls with
  | nil => cases h
  | cons l ls ih =>
    rw [shown, Option.or_eq_some_iff] at h
    rcases h with h | ⟨-, h⟩
    · obtain ⟨l', hl', h⟩ := ih h
      exact ⟨l', List.mem_cons_of_mem _ hl', h⟩
    · exact ⟨l, List.mem_cons_self, h⟩

theorem shown_append (ls ls' : List Label) (cell : Nat) :
    shown (ls ++ ls') cell = (shown ls' cell).or (shown ls cell) := by
  induction ls with
  | nil => simp [shown]
  | cons l ls ih => rw [List.cons_append, shown, shown, ih, Option.or_assoc]

theorem lineLabels_text {lines : List (List UInt8)} {start : Nat} (h : l ∈ lineLabels start lines) :
    l.text ∈ lines := by
  induction lines generalizing start with
  | nil => cases h
  | cons k lines ih =>
    rcases List.mem_cons.mp h with rfl | h
    · exact List.mem_cons_self
    · exact List.mem_cons_of_mem _ (ih h)

/-- A text shows as its lines do. -/
theorem shown_lineLabels {lines : List (List UInt8)} {start : Nat} (h : ∀ l ∈ lines, ∀ c ∈ l, c ≠ 0x0A) :
    shown (lineLabels start lines) cell = laidOut start ([0x0A].intercalate lines) cell := by
  induction lines generalizing start with
  | nil => rfl
  | cons l lines ih =>
    have hl := h l List.mem_cons_self
    have hnext := lt_nextRow (start + l.length)
    rw [lineLabels, shown, ih fun k hk => h k (List.mem_cons_of_mem _ hk), laidOut_cons_line hl]
    dsimp only
    rw [← List.append_nil l, laidOut_line hl, List.append_nil]
    split
    · rw [laidOut_before (by omega)]
      rfl
    · exact Option.or_none

theorem laidOut_oneLine (h : ∀ c ∈ l.text, c ≠ 0x0A) :
    laidOut l.start l.text cell = if l.start ≤ cell then l.text[cell - l.start]? else none := by
  rw [← List.append_nil l.text, laidOut_line h, List.append_nil]
  by_cases hstart : l.start ≤ cell
  · rw [if_pos hstart]
    split
    · rfl
    · exact (List.getElem?_eq_none (by omega)).symm
  · rw [if_neg hstart, if_neg fun hx => hstart hx.1]
    rfl

/-- A label reaches no cell outside its field. -/
theorem Label.Fits.outside (h : l.Fits f) (hcell : cell < f.start ∨ f.start + f.width ≤ cell) :
    laidOut l.start l.text cell = none := by
  have hlength := h.length
  rw [laidOut_oneLine h.line, h.start]
  split
  · exact List.getElem?_eq_none (by omega)
  · rfl

theorem Label.Fits.inside (h : l.Fits f) (hc : l.text[i]? = some c) :
    laidOut l.start l.text (l.start + i) = some c := by
  rw [laidOut_oneLine h.line, if_pos (Nat.le_add_right _ _), Nat.add_sub_cancel_left]
  exact hc

theorem shown_outside (h : List.Forall₂ Label.Fits ls fs)
    (hcell : ∀ f ∈ fs, cell < f.start ∨ f.start + f.width ≤ cell) :
    shown ls cell = none := by
  induction h with
  | nil => rfl
  | cons hl _ ih =>
    rw [shown, ih fun f hf => hcell f (List.mem_cons_of_mem _ hf), hl.outside (hcell _ List.mem_cons_self)]
    rfl

theorem fits_valid (h : List.Forall₂ Label.Fits ls fs) (hfs : ∀ f ∈ fs, f.start < CELLS) : ∀ l ∈ ls, l.Valid := by
  induction h with
  | nil => exact fun l hl => absurd hl List.not_mem_nil
  | cons hf _ ih =>
    intro l hl
    rcases List.mem_cons.mp hl with rfl | hl
    · exact ⟨hf.start ▸ hfs _ List.mem_cons_self, fun c hc => (hf.chars c hc).1⟩
    · exact ih (fun f hf => hfs f (List.mem_cons_of_mem _ hf)) l hl

/-- Labels fit the fields they take. -/
theorem fits_field (h : ∀ l ∈ ls, ∀ c ∈ l.text, c ≠ 0 ∧ c ≠ 0x0A) :
    List.Forall₂ Label.Fits ls (ls.map Label.field) := by
  induction ls with
  | nil => exact .nil
  | cons l ls ih =>
    exact .cons ⟨rfl, Nat.le_refl _, h l List.mem_cons_self⟩ (ih fun l hl => h l (List.mem_cons_of_mem _ hl))

theorem fits_line (h : List.Forall₂ Label.Fits ls fs) (hl : l ∈ ls) : ∀ c ∈ l.text, c ≠ 0x0A := by
  induction h with
  | nil => cases hl
  | cons hf _ ih =>
    rcases List.mem_cons.mp hl with rfl | hl
    · exact hf.line
    · exact ih hl

/-- **Labels that keep to fields apart from each other all show**, and nothing
else does. -/
theorem shown_iff (h : List.Forall₂ Label.Fits ls fs) (hap : fs.Pairwise Field.Apart) :
    shown ls cell = some c ↔ ∃ l ∈ ls, ∃ i, l.text[i]? = some c ∧ cell = l.start + i := by
  constructor
  · intro hx
    obtain ⟨l, hl, hx⟩ := shown_mem hx
    rw [laidOut_oneLine (fits_line h hl)] at hx
    obtain ⟨hle, hx⟩ := Option.ite_none_right_eq_some.mp hx
    exact ⟨l, hl, _, hx, by omega⟩
  · intro hx
    obtain ⟨l, hl, i, hc, rfl⟩ := hx
    induction h with
    | nil => cases hl
    | @cons l' f ls fs hf hfs ih =>
      obtain ⟨hhead, htail⟩ := List.pairwise_cons.mp hap
      rw [shown]
      rcases List.mem_cons.mp hl with rfl | hl
      · have hin : i < l.text.length := (List.getElem?_eq_some_iff.mp hc).1
        have hlength := hf.length
        have hstart := hf.start
        rw [shown_outside hfs fun g hg => ?_, hf.inside hc]
        · rfl
        · rcases hhead g hg with hg | hg
          · exact .inl (by omega)
          · exact .inr (by omega)
      · rw [ih htail hl]
        rfl

end

/-! ## Printing code -/

/-- Code that prints: with the memory that `tostring` works in. -/
abbrev Print := StateT (Mem × Framebuffer) (Except Stop)

namespace Print

def kclear : Print Unit := modify fun (m, fb) => (m, Ssmos.kclear fb)

def kccolor (pos n : Nat) (color : UInt8) : Print Unit := modify fun (m, fb) => (m, Ssmos.kccolor fb pos n color)

def kprint (pos : Nat) (text : List UInt8) (color : UInt8) : Print Unit :=
  modify fun (m, fb) => (m, Ssmos.kprint fb pos text color)

def kprintnum (num numbuffer pos : Nat) (val : Int) (color : UInt8) (base : Int) : Print Unit := fun (m, fb) => do
  let (m, v) ← Ssmos.kprintnum num numbuffer m ⟨fb, 0, []⟩ pos val color base
  .ok ((), m, v.framebuffer)

/-- An `int` in memory. -/
def load (a : Nat) : Print Int := fun (m, fb) => .ok (toInt (m.load32 a), m, fb)

end Print

/-- Memory that was `m₀`, but for the bytes of `nb`. -/
def Numbered (numbuffer : Nat) (m₀ m : Mem) : Prop :=
  Wrote m₀ m (Set.Ico numbuffer (numbuffer + MAX_INT_CHARS))

/-- From there the code returns `x`, and has drawn the labels. -/
def Draws (numbuffer : Nat) (m₀ : Mem) (color : UInt8) {α : Type} (p : Print α) (x : α) (ls : List Label) : Prop :=
  ∀ m fb, Numbered numbuffer m₀ m → ∃ m', p (m, fb) = .ok (x, m', drawLabels color ls fb) ∧ Numbered numbuffer m₀ m'

/-- A number that `tostring` writes down. -/
def Printable (val : Int) : Prop := -2 ^ 31 < val ∧ val < 2 ^ 31

instance (val : Int) : Decidable (Printable val) := inferInstanceAs (Decidable (_ ∧ _))

section

variable {num numbuffer pos start : Nat} {m m₀ : Mem} {color : UInt8} {α β : Type} {p : Print α} {f : α → Print β}
  {x : α} {y : β} {ls ls' : List Label} {val : Int} {b : Nat} {cs : List UInt8}

theorem Draws.bind (hp : Draws numbuffer m₀ color p x ls) (hf : Draws numbuffer m₀ color (f x) y ls') :
    Draws numbuffer m₀ color (p >>= f) y (ls ++ ls') := by
  intro m fb hm
  obtain ⟨m₁, hrun₁, hm₁⟩ := hp m fb hm
  obtain ⟨m₂, hrun₂, hm₂⟩ := hf m₁ (drawLabels color ls fb) hm₁
  refine ⟨m₂, ?_, hm₂⟩
  rw [StateT.bind_of_ok hrun₁, hrun₂, drawLabels, drawLabels, drawLabels, List.foldl_append]

theorem Draws.pure : Draws numbuffer m₀ color (Pure.pure x) x [] := fun m _ hm => ⟨m, rfl, hm⟩

theorem Draws.kprint (text : List UInt8) (hpos : pos = 2 * start) :
    Draws numbuffer m₀ color (Print.kprint pos text color) () [⟨start, text⟩] :=
  fun m _ hm => ⟨m, by subst hpos; rfl, hm⟩

/-- The chars of a string are read up to its terminator. -/
theorem CStr.chars_eq {n a : Nat} (h : CStr m a cs) (hn : cs.length < n) (ha : a + cs.length < 2 ^ 32) :
    m.chars n a = cs := by
  induction cs generalizing n a with
  | nil =>
    obtain ⟨n, rfl⟩ : ∃ k, n = k + 1 := ⟨n - 1, by simp at hn; omega⟩
    exact if_pos h
  | cons c cs ih =>
    obtain ⟨n, rfl⟩ : ∃ k, n = k + 1 := ⟨n - 1, by simp at hn; omega⟩
    rw [List.length_cons] at hn ha
    rw [Mem.chars, h.1, if_neg h.2.1, wrap_of_lt (by omega), ih h.2.2 (by omega) (by omega)]

/-- From base 6 on a number is short enough for `nb`. -/
theorem Draws.kprintnum (hlay : Layout num numbuffer MAX_INT_CHARS) (htable : Table m₀ num) (hval : Printable val)
    (hb : 5 < b) (hb' : b ≤ 35) (hpos : pos = 2 * start) :
    Draws numbuffer m₀ color (Print.kprintnum num numbuffer pos val color b) () [⟨start, written b val⟩] := by
  intro m fb hm
  have hlow := hlay.buffer
  have hapart := hlay.apart
  have hlen := written_short (show -2 ^ 31 ≤ val by have := hval.1; omega) hval.2 hb
  simp only [HEAP_START] at hlow
  obtain ⟨m', hrun, hspec⟩ := tostring_spec m num (show -2 ^ 31 ≤ val by have := hval.1; omega) hval.2
    (by omega) hb' hlay.ne_null (by omega)
  have htable : Table m num := htable.frame hm fun a h₁ h₂ ha => by
    rw [Set.mem_Ico] at ha
    omega
  have hcstr := hspec.content (by have := hval.1; omega) htable (by omega)
  have hsize : FRAMEBUFFER_SIZE = 4000 := rfl
  have hroom : MAX_INT_CHARS = 15 := rfl
  refine ⟨m', ?_, hm.trans (hspec.wrote.mono (Set.Ico_subset_Ico_right (by omega)))⟩
  subst hpos
  rw [Print.kprintnum, Ssmos.kprintnum, hrun]
  simp only [Except.ok_bind, hcstr.chars_eq (n := FRAMEBUFFER_SIZE) (by omega) (by omega)]
  rfl

/-- Labels drawn before what comes next. -/
theorem Draws.text {q : Unit → Print Unit} (hpos : pos = 2 * start) (hq : Draws numbuffer m₀ color (q ()) () ls) :
    Draws numbuffer m₀ color (Print.kprint pos cs color >>= q) () (⟨start, cs⟩ :: ls) :=
  Draws.bind (.kprint cs hpos) hq

theorem Draws.number {q : Unit → Print Unit} (hlay : Layout num numbuffer MAX_INT_CHARS) (htable : Table m₀ num)
    (hval : Printable val) (hb : 5 < b) (hb' : b ≤ 35) (hpos : pos = 2 * start)
    (hq : Draws numbuffer m₀ color (q ()) () ls) :
    Draws numbuffer m₀ color (Print.kprintnum num numbuffer pos val color b >>= q) () (⟨start, written b val⟩ :: ls) :=
  Draws.bind (.kprintnum hlay htable hval hb hb' hpos) hq

/-- A word apart from `numbuffer` is still what it was. -/
theorem Draws.load {a : Nat} (ha : a + 4 ≤ 2 ^ 32) (hapart : a + 4 ≤ numbuffer ∨ numbuffer + MAX_INT_CHARS ≤ a) :
    Draws numbuffer m₀ color (Print.load a) (toInt (m₀.load32 a)) [] := by
  intro m fb hm
  refine ⟨m, ?_, hm⟩
  rw [Print.load, hm.load32_eq_Ico ha (by omega)]
  rfl

end

/-! ## Numbers on the screen -/

section

variable {val : Int} {b : Nat} {c : UInt8}

theorem digitChar_ne_newline {d : Nat} (h : d < 36) : digitChar d ≠ 0x0A := by
  decide +revert

theorem written_chars (hb : 1 < b) (hb' : b ≤ 36) (hc : c ∈ written b val) : c ≠ 0 ∧ c ≠ 0x0A := by
  refine ⟨written_ne_zero hb hb' hc, ?_⟩
  rcases List.mem_append.mp hc with hc | hc
  · split at hc
    · rw [List.mem_singleton.mp hc]
      decide
    · exact absurd hc List.not_mem_nil
  · obtain ⟨d, hd, rfl⟩ := List.mem_map.mp hc
    have := numeral_lt hb (List.mem_reverse.mp hd)
    exact digitChar_ne_newline (by omega)

theorem written_decimal_length (hval : Printable val) : (written 10 val).length ≤ 11 := by
  obtain ⟨hlo, hhi⟩ := hval
  have h := (numeral_length_le (n := val.natAbs) (by decide : 1 < 10) (by decide : 0 < 10)).mpr (by omega)
  rw [written_length]
  split <;> omega

end

end Ssmos

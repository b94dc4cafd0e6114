/-
`haltdump` (`kernel/debug.c`): the screen a fatal problem ends on. The registers
and the return address are what the compiler finds; the stack is memory.
-/
import Ssmos.Panel
import Ssmos.Waits

namespace Ssmos

def HALTDUMP_FG : Color := .white
def HALTDUMP_BG : Color := .red

def dumpcolor : UInt8 := getColor HALTDUMP_FG HALTDUMP_BG

structure Registers where
  eax : Int
  ebx : Int
  ecx : Int
  edx : Int
  esi : Int
  edi : Int

/-- Where the words of the stack are printed. -/
def stackPlaces : List (Int × Int) :=
  [(1, 11), (13, 11), (25, 11), (37, 11), (49, 11), (61, 11),
    (1, 12), (13, 12), (25, 12), (37, 12), (49, 12), (61, 12),
    (1, 13), (13, 13), (25, 13), (37, 13), (49, 13), (61, 13),
    (1, 14), (13, 14), (25, 14), (37, 14), (49, 14), (61, 14)]

/-- `kprintnum(get_position(x, y), *stack, dumpcolor, 16); stack++;` -/
def printStack (num numbuffer : Nat) : List (Int × Int) → Nat → Print Unit
  | [], _ => pure ()
  | (x, y) :: places, stack => do
    let word ← Print.load stack
    Print.kprintnum num numbuffer (getPosition x y) word dumpcolor 16
    printStack num numbuffer places (wrap (stack + 4))

/-- What is printed on the cleared screen. -/
def printDump (num numbuffer : Nat) (msg : Text) (err : Int) (r : Registers) (eip : Int) (stack : Nat) :
    Print Unit := do
  let text x y s := Print.kprint (getPosition x y) (Text.lit s).chars dumpcolor
  let number x y val base := Print.kprintnum num numbuffer (getPosition x y) val dumpcolor base
  text 1 1 "!! FATAL PROBLEM - KERNEL HALTDUMP !!"
  text 1 3 "Message:"
  Print.kprint (getPosition 10 3) msg.chars dumpcolor
  text 1 4 "Error #:"
  number 10 4 err 10
  text 1 6 "Caller Location: 0x"
  number 20 6 eip 16
  text 1 9 "Stack: 0x"
  number 10 9 (toInt stack) 16
  printStack num numbuffer stackPlaces stack
  text 1 16 "Registers:"
  text 1 18 "EAX:"
  number 6 18 r.eax 16
  text 24 18 "EBX:"
  number 29 18 r.ebx 16
  text 47 18 "ECX:"
  number 52 18 r.ecx 16
  text 1 19 "EDX:"
  number 6 19 r.edx 16
  text 24 19 "ESI:"
  number 29 19 r.esi 16
  text 47 19 "EDI:"
  number 52 19 r.edi 16
  text 1 23 "If this problem has occurred multiple times, please report it to a developer."

/-- What `haltdump` loops forever in. -/
structure Halted where
  mem : Mem
  framebuffer : Framebuffer
  video : Framebuffer
  eflags : UInt32

def haltdump (num numbuffer : Nat) (msg : Text) (err : Int) (r : Registers) (eip : Int) (stack : Nat) (m : Mem)
    (fb video : Framebuffer) (eflags : UInt32) : Except Stop Halted := do
  let eflags := cleared eflags
  let screen : Print Unit := do
    Print.kclear
    Print.kccolor (getPosition 0 0) (COLUMNS * ROWS * 2) dumpcolor
    printDump num numbuffer msg err r eip stack
  let (_, m, fb) ← screen (m, fb)
  .ok ⟨m, fb, flipLoop video fb FRAMEBUFFER_SIZE, eflags⟩

/-! ## What it shows -/

def stackLabels (m : Mem) : List (Int × Int) → Nat → List Label
  | [], _ => []
  | p :: places, stack => ⟨cellOf p, written 16 (toInt (m.load32 stack))⟩ :: stackLabels m places (stack + 4)

def dumpLabels (msg : Text) (err : Int) (r : Registers) (eip : Int) (stack : Nat) (m : Mem) : List Label :=
  let text x y s : Label := ⟨cellOf (x, y), (Text.lit s).chars⟩
  let number x y val base : Label := ⟨cellOf (x, y), written base val⟩
  [text 1 1 "!! FATAL PROBLEM - KERNEL HALTDUMP !!", text 1 3 "Message:", ⟨cellOf (10, 3), msg.chars⟩,
    text 1 4 "Error #:", number 10 4 err 10, text 1 6 "Caller Location: 0x", number 20 6 eip 16,
    text 1 9 "Stack: 0x", number 10 9 (toInt stack) 16] ++
  (stackLabels m stackPlaces stack ++
  [text 1 16 "Registers:", text 1 18 "EAX:", number 6 18 r.eax 16, text 24 18 "EBX:", number 29 18 r.ebx 16,
    text 47 18 "ECX:", number 52 18 r.ecx 16, text 1 19 "EDX:", number 6 19 r.edx 16, text 24 19 "ESI:",
    number 29 19 r.esi 16, text 47 19 "EDI:", number 52 19 r.edi 16,
    text 1 23 "If this problem has occurred multiple times, please report it to a developer."])

/-- A field for each label: up to 9 chars for a number in base 16. -/
def dumpFields : List Field :=
  [⟨81, 37⟩, ⟨241, 8⟩, ⟨250, 70⟩, ⟨321, 8⟩, ⟨330, 11⟩, ⟨481, 19⟩, ⟨500, 9⟩, ⟨721, 9⟩, ⟨730, 9⟩] ++
  (stackPlaces.map (fun p => ⟨cellOf p, 9⟩) ++
  [⟨1281, 10⟩, ⟨1441, 4⟩, ⟨1446, 9⟩, ⟨1464, 4⟩, ⟨1469, 9⟩, ⟨1487, 4⟩, ⟨1492, 9⟩, ⟨1521, 4⟩, ⟨1526, 9⟩,
    ⟨1544, 4⟩, ⟨1549, 9⟩, ⟨1567, 4⟩, ⟨1572, 9⟩, ⟨1841, 77⟩])

theorem dumpFields_apart : dumpFields.Pairwise Field.Apart := by decide +kernel

theorem stackPlaces_position : ∀ p ∈ stackPlaces, getPosition p.1 p.2 = 2 * cellOf p := by decide

section

variable {num numbuffer stack : Nat} {m m₀ : Mem} {val : Int} {b : Nat} {c : UInt8} {ls : List Label}
  {places : List (Int × Int)}

theorem written_hex_length (hval : Printable val) : (written 16 val).length ≤ 9 := by
  obtain ⟨hlo, hhi⟩ := hval
  have h := (numeral_length_le (n := val.natAbs) (by decide : 1 < 16) (by decide : 0 < 8)).mpr (by omega)
  rw [written_length]
  split <;> omega

theorem fits_hex (hval : Printable val) (start : Nat) : Label.Fits ⟨start, written 16 val⟩ ⟨start, 9⟩ :=
  ⟨rfl, written_hex_length hval, fun _ hc => written_chars (by decide) (by decide) hc⟩

theorem stackLabels_fit (h : ∀ i, i < places.length → Printable (toInt (m.load32 (stack + 4 * i)))) :
    List.Forall₂ Label.Fits (stackLabels m places stack) (places.map fun p => ⟨cellOf p, 9⟩) := by
  induction places generalizing stack with
  | nil => exact .nil
  | cons p places ih =>
    refine .cons (fits_hex (by simpa using h 0 (by simp)) _) (ih fun i hi => ?_)
    have := h (i + 1) (by simpa using hi)
    rwa [Nat.mul_add, Nat.add_comm (4 * i), ← Nat.add_assoc] at this

theorem printStack_draws (hlay : Layout num numbuffer MAX_INT_CHARS) (htable : Table m num)
    (hplaces : ∀ p ∈ places, getPosition p.1 p.2 = 2 * cellOf p) (hend : stack + 4 * places.length < 2 ^ 32)
    (hapart : stack + 4 * places.length ≤ numbuffer ∨ numbuffer + MAX_INT_CHARS ≤ stack)
    (h : ∀ i, i < places.length → Printable (toInt (m.load32 (stack + 4 * i)))) :
    Draws numbuffer m dumpcolor (printStack num numbuffer places stack) () (stackLabels m places stack) := by
  induction places generalizing stack with
  | nil => exact .pure
  | cons p places ih =>
    rw [List.length_cons] at hend hapart
    have hload : Draws numbuffer m dumpcolor (Print.load stack) _ [] := .load (by omega) (by omega)
    refine hload.bind ?_
    refine .number hlay htable (by simpa using h 0 (by simp)) (by decide) (by decide) (hplaces p List.mem_cons_self) ?_
    rw [wrap_of_lt (by omega)]
    refine ih (fun q hq => hplaces q (List.mem_cons_of_mem _ hq)) (by omega) (by omega) fun i hi => ?_
    have := h (i + 1) (by simpa using hi)
    rwa [Nat.mul_add, Nat.add_comm (4 * i), ← Nat.add_assoc] at this

/-- Numbers that `haltdump` can write down, in memory apart from `numbuffer`. -/
structure Dumpable (numbuffer : Nat) (err : Int) (r : Registers) (eip : Int) (stack : Nat) (m : Mem) : Prop where
  err : Printable err
  eip : Printable eip
  eax : Printable r.eax
  ebx : Printable r.ebx
  ecx : Printable r.ecx
  edx : Printable r.edx
  esi : Printable r.esi
  edi : Printable r.edi
  pointer : Printable (toInt stack)
  words : ∀ i, i < 24 → Printable (toInt (m.load32 (stack + 4 * i)))
  inside : stack + 96 < 2 ^ 32
  apart : stack + 96 ≤ numbuffer ∨ numbuffer + MAX_INT_CHARS ≤ stack

theorem printDump_draws (msg : Text) {err eip : Int} {r : Registers} (hlay : Layout num numbuffer MAX_INT_CHARS)
    (htable : Table m num) (h : Dumpable numbuffer err r eip stack m) :
    Draws numbuffer m dumpcolor (printDump num numbuffer msg err r eip stack) ()
      (dumpLabels msg err r eip stack m) := by
  have hstack := printStack_draws hlay htable stackPlaces_position h.inside h.apart h.words
  unfold printDump dumpLabels
  dsimp only
  refine .text (by decide) <| .text (by decide) <| .text (by decide) <| .text (by decide) ?_
  refine Draws.number hlay htable h.err (by decide) (by decide) (by decide) <| .text (by decide) ?_
  refine Draws.number hlay htable h.eip (by decide) (by decide) (by decide) <| .text (by decide) ?_
  refine Draws.number hlay htable h.pointer (by decide) (by decide) (by decide) <| hstack.bind ?_
  refine .text (by decide) <| .text (by decide) <| Draws.number hlay htable h.eax (by decide) (by decide) (by decide) ?_
  refine .text (by decide) <| Draws.number hlay htable h.ebx (by decide) (by decide) (by decide) ?_
  refine .text (by decide) <| Draws.number hlay htable h.ecx (by decide) (by decide) (by decide) ?_
  refine .text (by decide) <| Draws.number hlay htable h.edx (by decide) (by decide) (by decide) ?_
  refine .text (by decide) <| Draws.number hlay htable h.esi (by decide) (by decide) (by decide) ?_
  refine .text (by decide) <| Draws.number hlay htable h.edi (by decide) (by decide) (by decide) ?_
  exact .kprint _ (by decide)

theorem dumpLabels_fit {msg : Text} {err eip : Int} {r : Registers} (hmsg : msg.OneLine) (hlen : msg.length ≤ 70)
    (h : Dumpable numbuffer err r eip stack m) :
    List.Forall₂ Label.Fits (dumpLabels msg err r eip stack m) dumpFields := by
  have herr : Label.Fits ⟨330, written 10 err⟩ ⟨330, 11⟩ :=
    ⟨rfl, written_decimal_length h.err, fun _ hc => written_chars (by decide) (by decide) hc⟩
  have hmessage : Label.Fits ⟨250, msg.chars⟩ ⟨250, 70⟩ :=
    ⟨rfl, hlen, fun c hc => ⟨msg.nonzero c hc, fun heq => hmsg (heq ▸ hc)⟩⟩
  have hstack : List.Forall₂ Label.Fits (stackLabels m stackPlaces stack) (stackPlaces.map fun p => ⟨cellOf p, 9⟩) :=
    stackLabels_fit h.words
  refine List.rel_append ?_ (List.rel_append hstack ?_)
  · refine .cons (by decide +kernel) <| .cons (by decide +kernel) <| .cons hmessage <|
      .cons (by decide +kernel) <| .cons herr <| .cons (by decide +kernel) <| .cons (fits_hex h.eip _) <|
      .cons (by decide +kernel) <| .cons (fits_hex h.pointer _) .nil
  · exact .cons (by decide +kernel) <| .cons (by decide +kernel) <| .cons (fits_hex h.eax _) <|
      .cons (by decide +kernel) <| .cons (fits_hex h.ebx _) <|
      .cons (by decide +kernel) <| .cons (fits_hex h.ecx _) <|
      .cons (by decide +kernel) <| .cons (fits_hex h.edx _) <|
      .cons (by decide +kernel) <| .cons (fits_hex h.esi _) <|
      .cons (by decide +kernel) <| .cons (fits_hex h.edi _) <| .cons (by decide +kernel) .nil

/-- Cleared and colored: no char, and the color, in every cell. -/
theorem blanked_apply (fb : Framebuffer) (color : UInt8) {a : Nat} (ha : a < FRAMEBUFFER_SIZE) :
    Ssmos.kccolor (Ssmos.kclear fb) (getPosition 0 0) (COLUMNS * ROWS * 2) color a = cellByte 0 color a := by
  have hsize : FRAMEBUFFER_SIZE = 4000 := rfl
  have hzero : getPosition 0 0 = 0 := by decide
  rw [Ssmos.kccolor, hzero, cellByte]
  split
  · next heven =>
    rw [kccolorLoop_even heven (by decide), Ssmos.kclear, Framebuffer.fill_apply, if_pos (by omega)]
  · next hodd =>
    obtain ⟨i, rfl⟩ : ∃ i, a = 0 + 1 + 2 * i := ⟨a / 2, by omega⟩
    have hcells : COLUMNS * ROWS * 2 = 4000 := rfl
    exact kccolorLoop_colored ha (by omega)

theorem dumpFields_start : ∀ f ∈ dumpFields, f.start < CELLS := by decide +kernel

/-- **A haltdump shows all it is given**: on the screen, whatever was there
before, the message, the numbers and the 24 words of the stack stand in their
places, in its color, with nothing else beside them; and interrupts stay off. -/
theorem haltdump_shows {msg : Text} {err eip : Int} {r : Registers} (fb video : Framebuffer) (eflags : UInt32)
    (hlay : Layout num numbuffer MAX_INT_CHARS) (htable : Table m num) (hmsg : msg.OneLine) (hlen : msg.length ≤ 70)
    (h : Dumpable numbuffer err r eip stack m) :
    ∃ d, haltdump num numbuffer msg err r eip stack m fb video eflags = .ok d ∧
      checkInterruptsEnabled d.eflags = false ∧ Numbered numbuffer m d.mem ∧
      ∀ cell, cell < CELLS → d.video (2 * cell + 1) = dumpcolor ∧ ∀ c, c ≠ 0 → (d.video (2 * cell) = c ↔
        ∃ l ∈ dumpLabels msg err r eip stack m, ∃ i, l.text[i]? = some c ∧ cell = l.start + i) := by
  obtain ⟨m', hrun, hm'⟩ := printDump_draws msg hlay htable h m
    (Ssmos.kccolor (Ssmos.kclear fb) (getPosition 0 0) (COLUMNS * ROWS * 2) dumpcolor) (.refl m _)
  generalize hd : drawLabels dumpcolor (dumpLabels msg err r eip stack m) _ = drawn at hrun
  have hfit := dumpLabels_fit hmsg hlen h
  have hcells := framebuffer_cells
  have hscreen : (do
      Print.kclear
      Print.kccolor (getPosition 0 0) (COLUMNS * ROWS * 2) dumpcolor
      printDump num numbuffer msg err r eip stack : Print Unit) (m, fb) = .ok ((), m', drawn) :=
    (StateT.bind_of_ok rfl).trans ((StateT.bind_of_ok rfl).trans hrun)
  have hdrawn : ∀ a, a < FRAMEBUFFER_SIZE → flipLoop video drawn FRAMEBUFFER_SIZE a =
      cellByte ((shown (dumpLabels msg err r eip stack m) (a / 2)).getD 0) dumpcolor a := by
    intro a ha
    rw [flipLoop_apply, if_pos ha, ← hd, drawLabels_apply (fits_valid hfit dumpFields_start), if_pos ha,
      blanked_apply fb dumpcolor ha]
    cases shown (dumpLabels msg err r eip stack m) (a / 2) <;> rfl
  refine ⟨⟨m', drawn, flipLoop video drawn FRAMEBUFFER_SIZE, cleared eflags⟩, ?_, cleared_disabled _, hm',
    fun cell hcell => ⟨?_, ?_⟩⟩
  · rw [haltdump, hscreen]
    rfl
  · exact (hdrawn _ (by omega)).trans (if_neg (by omega))
  · intro c hc
    dsimp only
    rw [hdrawn _ (by omega), cellByte, if_pos (by omega), Nat.mul_div_cancel_left _ (by decide), ← shown_iff hfit
      dumpFields_apart]
    cases shown (dumpLabels msg err r eip stack m) cell with
    | none => simp [Ne.symm hc]
    | some d => simp

end

/-- An exception, with a stack of zeros. -/
theorem haltdump_shows_exception : ∃ d, haltdump 64 128 (Text.lit "EXCEPTION!") 0 ⟨1, 2, 3, 4, 5, 6⟩ 0x8123 0x7000
    digitTable (fun _ => 0) (fun _ => 0) 0x202 = .ok d ∧ d.video (2 * 250) = 0x45 ∧ d.video 1 = dumpcolor := by
  have hwords : ∀ i, i < 24 → Printable (toInt (digitTable.load32 (0x7000 + 4 * i))) := by decide +kernel
  have hdump : Dumpable 128 0 ⟨1, 2, 3, 4, 5, 6⟩ 0x8123 0x7000 digitTable :=
    ⟨by decide, by decide, by decide, by decide, by decide, by decide, by decide, by decide, by decide, hwords,
      by decide, by decide⟩
  have hlay : Layout 64 128 MAX_INT_CHARS := ⟨by decide, by decide, by decide, by decide, by decide⟩
  have hmsg : (Text.lit "EXCEPTION!").OneLine := by
    unfold Text.OneLine
    decide
  obtain ⟨d, hrun, -, -, hcells⟩ := haltdump_shows (fun _ => 0) (fun _ => 0) 0x202 hlay ⟨by decide, by decide⟩ hmsg
    (by decide) hdump
  refine ⟨d, hrun, ((hcells 250 (by decide)).2 0x45 (by decide)).mpr ?_, (hcells 0 (by decide)).1⟩
  exact ⟨⟨250, (Text.lit "EXCEPTION!").chars⟩, .tail _ (.tail _ (.head _)), 0, rfl, rfl⟩

end Ssmos

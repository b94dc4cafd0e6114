/-
The line editor's invariant over every sequence of keys. `Ready` is the part of
it that also holds while a command runs, when the prompt, the row and the
cursor may disagree; a new prompt makes the editor's invariant of it again.
-/
import Ssmos.Lines

namespace Ssmos

/-- What `handle_input` leaves behind. -/
structure LineEditor (s : Terminal) : Prop where
  length : ((s.str s.input).length : Int) = s.inputPtr
  inputPtr_nonneg : 0 ≤ s.inputPtr
  inputPtr_le : s.inputPtr ≤ TERMINAL_INPUT_SIZE
  promptLength : s.promptStringLength = (s.str s.promptString).length
  promptLength_pos : 1 ≤ s.promptStringLength
  cursorX : s.cursorX = s.promptStringLength + s.inputPtr
  cursorY : s.cursorY = s.promptY
  promptY_nonneg : 0 ≤ s.promptY
  promptY_le : s.promptY ≤ ROWS - 1

/-- What holds of the prompt all along; `n` is where a command's own strings start. -/
structure Ready (n : Ptr) (s : Terminal) : Prop where
  le_next : n ≤ s.next
  prompt_lt : s.promptString < n
  input_ne : s.input ≠ s.promptString
  promptString_ne : s.promptString ≠ NULL
  promptLength : s.promptStringLength = (s.str s.promptString).length
  promptLength_pos : 1 ≤ s.promptStringLength
  promptY_ge : -1 ≤ s.promptY
  promptY_le : s.promptY ≤ ROWS - 1

/-! ## A new prompt -/

theorem Ready.newPrompt {n : Ptr} {s : Terminal} (h : Ready n s) :
    Ready n (newPrompt s) ∧ LineEditor (newPrompt s) := by
  obtain ⟨fb, hfb⟩ := newPrompt_eq s
  have hprompt : s.promptStringLength = ((s.setStr s.input Text.empty).str s.promptString).length := by
    rw [h.promptLength, Terminal.setStr]
    simp only [if_neg (Ne.symm h.input_ne)]
  have hinput : (s.setStr s.input Text.empty).str s.input = Text.empty := if_pos rfl
  have hge := h.promptY_ge
  have hrows : (ROWS : Int) = 25 := rfl
  rw [hfb]
  constructor
  · exact
      { h with
        promptLength := hprompt
        promptY_ge := by simp only; omega
        promptY_le := by simp only; omega }
  · exact
      { length := by
          show (((s.setStr s.input Text.empty).str s.input).length : Int) = 0
          rw [hinput]
          rfl
        inputPtr_nonneg := le_refl _
        inputPtr_le := by simp [TERMINAL_INPUT_SIZE]
        promptLength := hprompt
        promptLength_pos := h.promptLength_pos
        cursorX := (Int.add_zero _).symm
        cursorY := rfl
        promptY_nonneg := by simp only; omega
        promptY_le := by simp only; omega }

/-! ## Commands -/

theorem Ready.stable (n : Ptr) : AliasStable n (fun _ => True) (Ready n) where
  le_next _ h := h.le_next
  alloc _ h := { h with le_next := Nat.le_succ_of_le h.le_next }
  setStr s p t hp h :=
    { h with promptLength := h.promptLength.trans (by
        have hne : s.promptString ≠ p := Nat.ne_of_lt (Nat.lt_of_lt_of_le h.prompt_lt hp)
        rw [Terminal.setStr]
        simp only [if_neg hne]) }
  mark _ _ _ h := { h with }
  free _ _ _ h := { h with }
  newPrompt _ h := h.newPrompt.1
  screen _ _ _ _ h := { h with }
  home _ _ h := { h with promptY_ge := le_refl _, promptY_le := by simp [ROWS] }
  interrupts _ _ h := { h with }
  endterm _ h := { h with }
  freeAny _ _ h := { h with }
  deref _ _ _ h := { h with }
  guarded _ _ _ _ _ := trivial
  entries _ _ _ _ := trivial
  setStruct _ _ _ h := { h with }
  addAlias _ _ _ h := { h with }

/-- `cprompt` checks that the new prompt is not empty. -/
theorem Ready.lineStable (n : Ptr) : LineStable n (fun _ => True) (Ready n) :=
  { (Ready.stable n).toEventStable with
    setPrompt := fun s t hne h => by
      have hlen : 1 ≤ t.length := List.length_pos_iff.mpr hne
      simp only [Terminal.setPrompt, Terminal.update, if_neg h.promptString_ne]
      exact { h with
        promptLength := rfl
        promptLength_pos := by simpa [Terminal.setStr, Terminal.mark] using hlen }
    addHistory := fun _ _ h => { h with } }

variable {n : Ptr} {table : List Command} {env : Env}

/-- A submitted line ends in a new prompt. -/
theorem parseInput_lineEditor :
    Triple (Ready n) (Term.parseInput table env) fun _ s => Ready n s ∧ LineEditor s := by
  intro s r s' hs hx
  obtain ⟨s₁, hs₁, rfl⟩ :=
    (Ready.lineStable n).parseInput (fun _ => (Ready.stable n).aliasCmd) hs hx
  exact hs₁.newPrompt

/-! ## Keys -/

/-- Changing the text of the input does not touch the prompt's. -/
theorem Ready.setInput {s : Terminal} {t : Text} (h : Ready n s) : Ready n (s.setStr s.input t) :=
  { h with promptLength := h.promptLength.trans (by
      rw [Terminal.setStr]
      simp only [if_neg (Ne.symm h.input_ne)]) }

theorem Ready.own {s : Terminal} (h : Ready n s) : Ready s.next s :=
  { h with le_next := le_refl _, prompt_lt := Nat.lt_of_lt_of_le h.prompt_lt h.le_next }

/-- The input after a change of its text, its pointer and the cursor. -/
theorem LineEditor.edit {s : Terminal} {t : Text} {x : Int} (fb : Framebuffer) (hr : Ready n s)
    (h : LineEditor s) (hlen : t.length ≤ TERMINAL_INPUT_SIZE)
    (hx : x = s.promptStringLength + (t.length : Int)) :
    Ready n { s.setStr s.input t with framebuffer := fb, inputPtr := t.length, cursorX := x } ∧
      LineEditor { s.setStr s.input t with framebuffer := fb, inputPtr := t.length, cursorX := x } := by
  have hrt := hr.setInput (t := t)
  have hin : (s.setStr s.input t).str s.input = t := if_pos rfl
  refine ⟨{ hrt with }, ?_⟩
  exact
    { length := congrArg (fun t : Text => (t.length : Int)) hin
      inputPtr_nonneg := Int.natCast_nonneg _
      inputPtr_le := Int.ofNat_le.mpr hlen
      promptLength := hrt.promptLength
      promptLength_pos := h.promptLength_pos
      cursorX := hx
      cursorY := h.cursorY
      promptY_nonneg := h.promptY_nonneg
      promptY_le := h.promptY_le }

theorem LineEditor.backspace {s : Terminal} (hr : Ready n s) (h : LineEditor s) :
    Ready n (backspace s) ∧ LineEditor (backspace s) := by
  have hlen := h.length
  have hcur := h.cursorX
  have hpos := h.promptLength_pos
  have hle := h.inputPtr_le
  by_cases hip : 0 < s.inputPtr
  · have htake : (((s.str s.input).take (s.inputPtr - 1).toNat).length : Int) = s.inputPtr - 1 := by
      rw [Text.take_length]
      omega
    have hkeep : ¬toUnsigned (s.cursorX - 1) < s.promptStringLength := by
      unfold toUnsigned
      split <;> omega
    have hedit := h.edit (x := s.cursorX - 1) (t := (s.str s.input).take (s.inputPtr - 1).toNat)
      (kputchar s.framebuffer
        (getPosition (PROMPT_START_X + s.promptStringLength + (s.inputPtr - 1)) s.promptY) 0x20
        s.terminalColor) hr (by omega) (by omega)
    rw [htake] at hedit
    simpa only [Ssmos.backspace, if_neg hkeep, if_pos hip, Terminal.setStr] using hedit
  · have hback : toUnsigned (s.cursorX - 1) < s.promptStringLength := by
      unfold toUnsigned
      split <;> omega
    simp only [Ssmos.backspace, if_pos hback, if_neg hip]
    exact ⟨{ hr with }, { h with cursorX := by simp only; omega }⟩

theorem LineEditor.addText {s : Terminal} {t : UInt8} (hr : Ready n s) (h : LineEditor s)
    (hip : s.inputPtr < (TERMINAL_INPUT_SIZE : Int)) (ht : t ≠ 0) :
    Ready n (addText s t) ∧ LineEditor (addText s t) := by
  have hlen := h.length
  have hcur := h.cursorX
  have hpush : ((((s.str s.input).push t).length : Nat) : Int) = s.inputPtr + 1 := by
    rw [Text.push_length ht]
    omega
  have hedit := h.edit (x := s.cursorX + 1) (t := (s.str s.input).push t) s.framebuffer hr
    (by omega) (by omega)
  rw [hpush] at hedit
  simp only [Terminal.setStr] at hedit
  simp only [Ssmos.addText, Terminal.setStr, Terminal.mark]
  exact ⟨{ hedit.1 with }, { hedit.2 with }⟩

/-- One key, whatever it runs. -/
theorem handleInput_lineEditor {t : UInt8} {s s' : Terminal} (hr : Ready s.next s) (h : LineEditor s)
    (hx : Term.handleInput table env t s = .ok ((), s')) : Ready s'.next s' ∧ LineEditor s' := by
  unfold Term.handleInput at hx
  split at hx
  next =>
    obtain ⟨hr', h'⟩ := parseInput_lineEditor hr hx
    exact ⟨hr'.own, h'⟩
  next =>
    split at hx
    next =>
      cases hx
      obtain ⟨hr', h'⟩ := h.backspace hr
      exact ⟨hr'.own, h'⟩
    next =>
      cases hx
      by_cases hc : s.inputPtr < (TERMINAL_INPUT_SIZE : Int) ∧ t ≠ 0
      · obtain ⟨hr', h'⟩ := h.addText hr hc.1 hc.2
        simp only [if_pos hc]
        exact ⟨hr'.own, h'⟩
      · simp only [if_neg hc]
        exact ⟨hr, h⟩

/-! ## Runs -/

theorem initTerminal_ready {s : Terminal} :
    Ready (initTerminal s).next (initTerminal s) ∧ LineEditor (initTerminal s) := by
  have hprompt : (initTerminal s).str (s.next + 1) = PROMPT_STRING := if_pos rfl
  have hinput : (initTerminal s).str s.next = Text.empty :=
    (if_neg (Nat.ne_of_lt (Nat.lt_succ_self _))).trans (if_pos rfl)
  have htwo : PROMPT_STRING.length = 2 := by decide
  have hlen : (initTerminal s).promptStringLength = 2 := (congrArg Text.length hprompt).trans htwo
  constructor
  · exact
      { le_next := le_refl _
        prompt_lt := Nat.lt_succ_self _
        input_ne := Nat.ne_of_lt (Nat.lt_succ_self _)
        promptString_ne := Nat.succ_ne_zero _
        promptLength := rfl
        promptLength_pos := by rw [hlen]; decide
        promptY_ge := (by decide : -1 ≤ PROMPT_START_Y)
        promptY_le := (by decide : PROMPT_START_Y ≤ ROWS - 1) }
  · exact
      { length := congrArg (fun t : Text => (t.length : Int)) hinput
        inputPtr_nonneg := le_refl _
        inputPtr_le := (by decide : (0 : Int) ≤ TERMINAL_INPUT_SIZE)
        promptLength := rfl
        promptLength_pos := by rw [hlen]; decide
        cursorX := (Int.add_zero _).symm
        cursorY := rfl
        promptY_nonneg := (by decide : 0 ≤ PROMPT_START_Y)
        promptY_le := (by decide : PROMPT_START_Y ≤ ROWS - 1) }

/-- **The line editor's invariant** holds after every sequence of keys whose
commands return. -/
theorem lineEditor_invariant {s₀ s : Terminal} {keys : List Key}
    (hrun : Runs KeyStep (initTerminal s₀) keys s) : LineEditor s :=
  (hrun.invariant (I := fun s => Ready s.next s ∧ LineEditor s)
    (fun hs hk => handleInput_lineEditor hs.1 hs.2 hk) initTerminal_ready).2

/-- The kernel at rest, and a machine around it. -/
def blank : Terminal where
  str := fun _ => Text.empty
  struct := fun _ => { name := NULL, command := NULL }
  next := 1
  log := []
  blocks := fun _ => false
  framebuffer := fun _ => 0
  promptY := 0
  promptString := NULL
  promptStringLength := 0
  cursorX := 0
  cursorY := 0
  terminalColor := 0
  cursorColor := 0
  endterm := false
  input := NULL
  inputPtr := 0
  cmdhistory := []
  aliases := []
  systemlog := []
  interrupts := true

def bench : Env where
  cmos := fun _ _ => 0x20
  ataFloating := fun _ => true
  ataType := fun _ _ => .none
  cpuid := fun _ => { ebx := 0x756E6547, ecx := 0x6C65746E, edx := 0x49656E69 }
  ticks := 5000
  heapStat := fun _ => 0
  kbdStatus := []
  resets := true
  heapFull := false
  compileDate := Text.lit "Compiled on: today"
  pastCommands := none
  beforeNum := fun _ => 0

def typed (line : String) : List Key :=
  line.toList.map fun c => { env := bench, char := UInt8.ofNat c.toNat }

theorem lineEditor_invariant_session :
    ∃ s, Runs KeyStep (initTerminal blank) (typed "cprompt $\nx\x08cls\nec") s ∧ LineEditor s := by
  have h : (exec (fun s k => Key.step? k s) (initTerminal blank)
      (typed "cprompt $\nx\x08cls\nec")).isSome := by
    decide +kernel
  obtain ⟨s, hs⟩ := Option.isSome_iff_exists.mp h
  have hrun := (exec_eq_some Key.step?_eq_some).mp hs
  exact ⟨s, hrun, lineEditor_invariant hrun⟩

end Ssmos

/-
What `run_terminal` shows and when it returns, in terms of the shell: between
two keys the screen has the prompt and the line, one cell after the other, with
the cursor behind them, and the loop ends with the first key that executes
`shutdown`.
-/
import Ssmos.Screen
import Ssmos.ShellFacts

namespace Ssmos

/-! ## Drawing -/

theorem flipLoop_apply {video fb : Framebuffer} {n a : Nat} :
    flipLoop video fb n a = if a < n then fb a else video a := by
  induction n with
  | zero => rfl
  | succ n ih =>
    rw [flipLoop, Framebuffer.set, ih]
    by_cases ha : a = n
    · rw [if_pos ha, if_pos (by omega), ha]
    · rw [if_neg ha]
      by_cases hlt : a < n
      · rw [if_pos hlt, if_pos (by omega)]
      · rw [if_neg hlt, if_neg (by omega)]

/-- A text of one line, from a position on. -/
theorem kprint_line {fb : Framebuffer} {pos : Nat} {text : List UInt8} {color : UInt8}
    (hnz : ∀ c ∈ text, c ≠ 0) (hline : ∀ c ∈ text, c ≠ 0x0A) (heven : pos % 2 = 0) (hle : pos ≤ 3998) (a : Nat) :
    kprint fb pos text color a =
      if a < FRAMEBUFFER_SIZE ∧ pos / 2 ≤ a / 2 then
        (text[a / 2 - pos / 2]?).elim (fb a) fun c => cellByte c color a
      else fb a := by
  have hlaid : laidOut (pos / 2) text (a / 2) =
      if pos / 2 ≤ a / 2 then text[a / 2 - pos / 2]? else none := by
    rw [← List.append_nil text, laidOut_line hline, List.append_nil]
    by_cases hstart : pos / 2 ≤ a / 2
    · rw [if_pos hstart]
      split
      · rfl
      · exact (List.getElem?_eq_none (by omega)).symm
    · rw [if_neg hstart, if_neg fun hx => hstart hx.1]
      rfl
  rw [kprint, (Video.kprint_layout ⟨fb, 0, []⟩ color hnz heven hle).1 a, hlaid]
  by_cases ha : a < FRAMEBUFFER_SIZE
  · by_cases hstart : pos / 2 ≤ a / 2
    · rw [if_pos ha, if_pos hstart, if_pos ⟨ha, hstart⟩]
    · rw [if_pos ha, if_neg hstart, if_neg fun hx => hstart hx.2]
      rfl
  · rw [if_neg ha, if_neg fun hx => ha hx.1]

/-- The cell a position is in: as far as the last one. -/
theorem getPosition_row {x y : Int} (hx : 0 ≤ x) (hy : 0 ≤ y) (hrow : y ≤ ROWS - 1) :
    getPosition x y = 2 * min (y.toNat * COLUMNS + x.toNat) (CELLS - 1) := by
  have hrows : ((ROWS : Nat) : Int) = 25 := rfl
  have hcols : ((COLUMNS : Nat) : Int) = 80 := rfl
  have hcells : CELLS = 2000 := rfl
  have hwidth : COLUMNS = 80 := rfl
  rw [hrows] at hrow
  simp only [getPosition, hrows, hcols, clamp_eq hy (show y ≤ 25 - 1 by omega), hcells]
  rw [hwidth]
  by_cases hover : x ≤ 80 * (25 - y) - 1
  · rw [clamp_eq hx hover]
    omega
  · rw [clamp, if_pos (by omega)]
    omega

/-! ## What a frame shows -/

section

variable {d : Display} {s : Terminal} {text prompt line : List UInt8} {a row : Nat}

/-- **What the prompt is drawn as**: the prompt's text and the line's, one after
the other from the prompt's row on; the last cell apart, which the line goes to
if the prompt leaves no other. -/
theorem drawPrompt_cell (hnz : ∀ c ∈ (s.str s.promptString).chars ++ (s.str s.input).chars, c ≠ 0x0A)
    (hlength : s.promptStringLength = (s.str s.promptString).length) (hy : 0 ≤ s.promptY)
    (hrow : s.promptY ≤ ROWS - 1) (ha : a / 2 < CELLS - 1) :
    (drawPrompt s).framebuffer a =
      if s.promptY.toNat * COLUMNS ≤ a / 2 then
        (((s.str s.promptString).chars ++ (s.str s.input).chars)[a / 2 - s.promptY.toNat * COLUMNS]?).elim
          (s.framebuffer a) fun c => cellByte c s.terminalColor a
      else s.framebuffer a := by
  have hcells : CELLS = 2000 := rfl
  have hsize : FRAMEBUFFER_SIZE = 4000 := rfl
  have hrows : ((ROWS : Nat) : Int) = 25 := rfl
  have hwidth : COLUMNS = 80 := rfl
  rw [hrows] at hrow
  -- The prompt starts in the first cell of its row, the line in the cell after the prompt.
  have hstart : getPosition PROMPT_START_X s.promptY = 2 * (s.promptY.toNat * 80) := by
    rw [PROMPT_START_X, getPosition_row (le_refl _) hy hrow, hwidth, hcells]
    omega
  have hnext : getPosition (PROMPT_START_X + s.promptStringLength) s.promptY =
      2 * min (s.promptY.toNat * 80 + (s.str s.promptString).chars.length) (CELLS - 1) := by
    rw [PROMPT_START_X, getPosition_row (by omega) hy hrow, hwidth, hlength, Text.length]
    congr 3
    omega
  have hprompt := @kprint_line s.framebuffer _ _ s.terminalColor (s.str s.promptString).nonzero
    (fun c hc => hnz c (List.mem_append_left _ hc))
    (show getPosition PROMPT_START_X s.promptY % 2 = 0 by omega) (by omega) a
  have hline := @kprint_line (kprint s.framebuffer (getPosition PROMPT_START_X s.promptY)
      (s.str s.promptString).chars s.terminalColor) _ _ s.terminalColor (s.str s.input).nonzero
    (fun c hc => hnz c (List.mem_append_right _ hc))
    (show getPosition (PROMPT_START_X + s.promptStringLength) s.promptY % 2 = 0 by omega) (by omega) a
  refine hline.trans ?_
  rw [hprompt, hstart, hnext, hwidth, Nat.mul_div_cancel_left _ (by decide),
    Nat.mul_div_cancel_left _ (by decide)]
  by_cases hafter : s.promptY.toNat * 80 ≤ a / 2
  · by_cases hin : a / 2 - s.promptY.toNat * 80 < (s.str s.promptString).chars.length
    · rw [if_neg (by omega), if_pos (by omega), if_pos hafter, List.getElem?_append_left hin]
    · have hmin : min (s.promptY.toNat * 80 + (s.str s.promptString).chars.length) (CELLS - 1) =
          s.promptY.toNat * 80 + (s.str s.promptString).chars.length := by omega
      have hnone : (s.str s.promptString).chars[a / 2 - s.promptY.toNat * 80]? = none :=
        List.getElem?_eq_none (Nat.not_lt.mp hin)
      rw [hmin, if_pos (by omega), if_pos (by omega), if_pos hafter, hnone,
        List.getElem?_append_right (Nat.not_lt.mp hin), Nat.sub_add_eq]
      rfl
  · rw [if_neg (by omega), if_neg (by omega), if_neg hafter]

theorem frame_video (a : Nat) : d.frame.video a =
    if a / 2 = getPosition d.terminal.cursorX d.terminal.cursorY / 2 then
      cellByte CURSOR_CHAR d.terminal.cursorColor a
    else if a < FRAMEBUFFER_SIZE then (drawPrompt d.terminal).framebuffer a
    else d.video a := by
  have heven := (getPosition_bounds d.terminal.cursorX d.terminal.cursorY).2
  have hflip := @flipLoop_apply d.video (drawPrompt d.terminal).framebuffer FRAMEBUFFER_SIZE a
  rw [← hflip]
  change ((flipLoop _ _ _).set (getPosition d.terminal.cursorX d.terminal.cursorY) _).set
    (getPosition d.terminal.cursorX d.terminal.cursorY + 1) _ a = _
  simp only [Framebuffer.set, cellByte]
  generalize getPosition d.terminal.cursorX d.terminal.cursorY = pos at heven ⊢
  by_cases hcell : a / 2 = pos / 2
  · rw [if_pos hcell]
    by_cases ha : a % 2 = 0
    · rw [if_neg (by omega), if_pos (by omega), if_pos ha]
    · rw [if_pos (by omega), if_neg ha]
      rfl
  · rw [if_neg hcell, if_neg (by omega), if_neg (by omega)]
    rfl

end

/-! ## Lines in the shell -/

def Text.OneLine (t : Text) : Prop := 0x0A ∉ t.chars

theorem Text.OneLine.afterWord {t : Text} (h : t.OneLine) : t.afterWord.OneLine := fun hmem =>
  h ((List.dropWhile_suffix _).subset (List.mem_of_mem_tail hmem))

/-- What the screen shows of a shell has no newline. -/
structure Shell.OneLine (sh : Shell) : Prop where
  line : sh.line.OneLine
  prompt : sh.settings.prompt.OneLine
  commands : ∀ e ∈ sh.settings.aliases.entries, e.2.OneLine

variable {sh : Shell} {nullName line : Text} {g : Settings}

theorem Settings.expand_oneLine (hline : line.OneLine) (hcommands : ∀ e ∈ g.aliases.entries, e.2.OneLine) :
    (g.expand line).OneLine := by
  unfold Settings.expand Book.find
  split
  · exact hline
  · cases hfind : lookup Prod.fst g.aliases.entries line.word with
    | none => exact hline
    | some e => exact hcommands e (lookup_mem hfind)

/-- A command makes no newline. -/
theorem Settings.command_oneLine (nullName : Text) {params : Text} (hparams : params.OneLine)
    (hprompt : g.prompt.OneLine) (hcommands : ∀ e ∈ g.aliases.entries, e.2.OneLine) (c : Handler) :
    (g.command nullName params c).prompt.OneLine ∧
      ∀ e ∈ (g.command nullName params c).aliases.entries, e.2.OneLine := by
  cases c with
  | cprompt =>
    simp only [Settings.command]
    split
    · exact ⟨hprompt, hcommands⟩
    · exact ⟨hparams, hcommands⟩
  | aliasCmd =>
    simp only [Settings.command, definition]
    split
    next name cmd hdef =>
      have hcmd : cmd = params.afterWord := by
        split at hdef
        · cases hdef
          rfl
        · cases hdef
      simp only [Settings.define]
      split
      · exact ⟨hprompt, hcommands⟩
      · refine ⟨hprompt, fun e he => ?_⟩
        rcases mem_assign he with he | he
        · exact hcommands e he
        · rw [he, hcmd]
          exact hparams.afterWord
    next => exact ⟨hprompt, hcommands⟩
  | tcolor =>
    simp only [Settings.command]
    split <;> exact ⟨hprompt, hcommands⟩
  | _ => exact ⟨hprompt, hcommands⟩

theorem Shell.OneLine.key (h : sh.OneLine) (c : UInt8) : (sh.key nullName c).OneLine := by
  unfold Shell.key
  split
  · unfold Shell.submit
    split
    · exact h
    · have hline := Settings.expand_oneLine h.line h.commands
      simp only [Settings.execute]
      split
      · obtain ⟨hprompt, hcommands⟩ :=
          Settings.command_oneLine nullName hline.afterWord h.prompt h.commands _
        exact ⟨List.not_mem_nil, hprompt, hcommands⟩
      · exact ⟨List.not_mem_nil, h.prompt, h.commands⟩
  next hnewline =>
    split
    · exact { h with line := fun hmem => h.line (List.mem_of_mem_take hmem) }
    · split
      · refine { h with line := fun hmem => ?_ }
        by_cases hc : c = 0
        · rw [hc, Text.push_zero] at hmem
          exact h.line hmem
        · rw [Text.push_chars hc, List.mem_append, List.mem_singleton] at hmem
          exact hmem.elim h.line fun hx => hnewline hx.symm
      · exact h

theorem Shell.session_oneLine (nullName : Text) (ended : Bool) (chars : List UInt8) :
    (Shell.session nullName ended chars).OneLine := by
  have hstart : (Shell.start ended).OneLine :=
    ⟨List.not_mem_nil, (by decide : 0x0A ∉ PROMPT_STRING.chars), fun _ he => absurd he List.not_mem_nil⟩
  unfold Shell.session
  generalize Shell.start ended = sh at hstart
  induction chars generalizing sh with
  | nil => exact hstart
  | cons c cs ih => exact ih _ (hstart.key c)

/-! ## Turns -/

section

variable {s₀ s : Terminal} {d d' : Display} {video : Framebuffer} {keys : List Key} {k : Key}

theorem Session.draw {es : List Ptr} (h : Session es s) (fb : Framebuffer) :
    Session es { s with framebuffer := fb } where
  ready := { h.ready with }
  editor := { h.editor with }
  tabled := h.tabled
  recorded := { h.recorded with }

theorem Tracks.draw (h : Tracks nullName s sh) (fb : Framebuffer) :
    Tracks nullName { s with framebuffer := fb } sh where
  line := h.line
  history := h.history
  settings := { h.settings with }
  session := h.session.imp fun _ hs => hs.draw fb
  rooted := { h.rooted with table := h.rooted.table.imp_right fun ht => { ht with } }

/-- Drawing a frame is no key. -/
theorem Tracks.frame (h : Tracks nullName d.terminal sh) : Tracks nullName d.frame.terminal sh := h.draw _

theorem Tracks.turn (h : Tracks nullName d.terminal sh) (ht : Turn d k d') :
    Tracks nullName d'.terminal (sh.key nullName k.char) := h.frame.keyStep ht.2.1

theorem Tracks.turns (h : Tracks nullName d.terminal sh) (hrun : Runs Turn d keys d') :
    Tracks nullName d'.terminal ((keys.map Key.char).foldl (Shell.key nullName) sh) := by
  induction hrun generalizing sh with
  | nil => exact h
  | cons ht _ ih => exact ih (h.turn ht)

/-- What `run_terminal` starts with after `init_terminal`. -/
theorem enter_tracks (hnull : (s₀.struct NULL).name < s₀.next) :
    Tracks (s₀.nameOf NULL) (Display.enter ⟨initTerminal s₀, video⟩).terminal (Shell.start false) :=
  @initTerminal_tracks { s₀ with endterm := false } hnull

/-! ## The screen between two keys -/

/-- The text stands in the cells from `start` on, with the cursor behind it, and
what is in `fb` around it. What does not fit in front of the last cell is not
shown. -/
structure OnScreen (video fb : Framebuffer) (start : Nat) (text : List UInt8) (color cursorColor : UInt8) :
    Prop where
  start_lt : start < CELLS
  chars : ∀ i c, text[i]? = some c → start + i < CELLS - 1 →
    video (2 * (start + i)) = c ∧ video (2 * (start + i) + 1) = color
  cursor : video (2 * min (start + text.length) (CELLS - 1)) = CURSOR_CHAR ∧
    video (2 * min (start + text.length) (CELLS - 1) + 1) = cursorColor
  around : ∀ a, a / 2 < CELLS - 1 → a / 2 < start ∨ start + text.length < a / 2 → video a = fb a

theorem Tracks.onScreen (h : Tracks nullName d.terminal sh) (hone : sh.OneLine) :
    OnScreen d.frame.video d.terminal.framebuffer (d.terminal.promptY.toNat * COLUMNS)
      (sh.settings.prompt.chars ++ sh.line.chars) sh.settings.color d.terminal.cursorColor := by
  obtain ⟨es, hs⟩ := h.session
  have he := hs.editor
  have hcells : CELLS = 2000 := rfl
  have hsize : FRAMEBUFFER_SIZE = 4000 := rfl
  have hprompt : d.terminal.str d.terminal.promptString = sh.settings.prompt := h.settings.prompt
  have hlength := he.length
  have hplength := he.promptLength
  simp only [h.line, hprompt, Text.length] at hlength hplength
  have hcursor : getPosition d.terminal.cursorX d.terminal.cursorY = 2 * min
      (d.terminal.promptY.toNat * COLUMNS + (sh.settings.prompt.chars ++ sh.line.chars).length) (CELLS - 1) := by
    have hx := he.cursorX
    rw [he.cursorY, getPosition_row (by omega) he.promptY_nonneg he.promptY_le, List.length_append]
    congr 3
    omega
  have hdraw : ∀ a, a / 2 < CELLS - 1 → (drawPrompt d.terminal).framebuffer a =
      if d.terminal.promptY.toNat * COLUMNS ≤ a / 2 then
        ((sh.settings.prompt.chars ++ sh.line.chars)[a / 2 - d.terminal.promptY.toNat * COLUMNS]?).elim
          (d.terminal.framebuffer a) fun c => cellByte c sh.settings.color a
      else d.terminal.framebuffer a := fun a ha => by
    have hcell := drawPrompt_cell (s := d.terminal) (a := a) (fun b hb hx => by
        subst hx
        rw [hprompt, h.line] at hb
        exact (List.mem_append.mp hb).elim hone.prompt hone.line)
      he.promptLength he.promptY_nonneg he.promptY_le ha
    rwa [hprompt, h.line, h.settings.color] at hcell
  have hstart : d.terminal.promptY.toNat * COLUMNS < CELLS := by
    have hy := he.promptY_le
    have hrows : ((ROWS : Nat) : Int) = 25 := rfl
    have hwidth : COLUMNS = 80 := rfl
    rw [hrows] at hy
    rw [hwidth]
    omega
  refine ⟨hstart, fun i c hi hlt => ?_, ?_, fun a ha haround => ?_⟩
  · have hin : i < (sh.settings.prompt.chars ++ sh.line.chars).length := (List.getElem?_eq_some_iff.mp hi).1
    have hdrawn : ∀ a, a / 2 = d.terminal.promptY.toNat * COLUMNS + i →
        d.frame.video a = cellByte c sh.settings.color a := fun a ha => by
      rw [frame_video, hcursor, if_neg (by omega), if_pos (by omega), hdraw a (by omega), if_pos (by omega),
        show a / 2 - d.terminal.promptY.toNat * COLUMNS = i by omega, hi]
      rfl
    rw [hdrawn _ (by omega), hdrawn _ (by omega), cellByte, cellByte, if_pos (by omega), if_neg (by omega)]
    exact ⟨rfl, rfl⟩
  · have hdrawn : ∀ a, a / 2 = min (d.terminal.promptY.toNat * COLUMNS +
        (sh.settings.prompt.chars ++ sh.line.chars).length) (CELLS - 1) →
          d.frame.video a = cellByte CURSOR_CHAR d.terminal.cursorColor a := fun a ha => by
      rw [frame_video, hcursor, if_pos (by omega)]
    rw [hdrawn _ (by omega), hdrawn _ (by omega), cellByte, cellByte, if_pos (by omega), if_neg (by omega)]
    exact ⟨rfl, rfl⟩

  · rw [frame_video, hcursor, if_neg (by omega), if_pos (by omega), hdraw a ha]
    split
    · rw [List.getElem?_eq_none (by omega)]
      rfl
    · rfl

/-- **What is typed is what is seen**: whenever `run_terminal` waits for a key the
screen has, from the prompt's row on, the prompt and the line that the shell
makes of the keys so far, in its color, with the cursor behind them. -/
theorem frame_shows_line (hnull : (s₀.struct NULL).name < s₀.next)
    (hrun : Runs Turn (Display.enter ⟨initTerminal s₀, video⟩) keys d) :
    OnScreen d.frame.video d.terminal.framebuffer (d.terminal.promptY.toNat * COLUMNS)
      ((Shell.session (s₀.nameOf NULL) false (keys.map Key.char)).settings.prompt.chars ++
        (Shell.session (s₀.nameOf NULL) false (keys.map Key.char)).line.chars)
      (Shell.session (s₀.nameOf NULL) false (keys.map Key.char)).settings.color d.terminal.cursorColor :=
  ((enter_tracks hnull).turns hrun).onScreen (Shell.session_oneLine _ _ _)

theorem frame_shows_line_typed : ∃ d, Runs Turn (Display.enter ⟨initTerminal blank, fun _ => 0⟩)
      (typed "cprompt $\nec\x08h") d ∧
    OnScreen d.frame.video d.terminal.framebuffer (d.terminal.promptY.toNat * COLUMNS)
      (Text.lit "$eh").chars (getColor .lightGreen .black) d.terminal.cursorColor := by
  have h : (exec Display.turn? (Display.enter ⟨initTerminal blank, fun _ => 0⟩)
      (typed "cprompt $\nec\x08h")).isSome := by
    decide +kernel
  obtain ⟨d, hd⟩ := Option.isSome_iff_exists.mp h
  have hrun := (exec_eq_some Display.turn?_eq_some).mp hd
  have hshown := frame_shows_line (by decide) hrun
  have htext : (Shell.session (blank.nameOf NULL) false
      ((typed "cprompt $\nec\x08h").map Key.char)).settings.prompt.chars ++
        (Shell.session (blank.nameOf NULL) false ((typed "cprompt $\nec\x08h").map Key.char)).line.chars =
      (Text.lit "$eh").chars := by
    decide +kernel
  have hcolor : (Shell.session (blank.nameOf NULL) false
      ((typed "cprompt $\nec\x08h").map Key.char)).settings.color = getColor .lightGreen .black := by
    decide +kernel
  rw [htext, hcolor] at hshown
  exact ⟨d, hrun, hshown⟩

/-! ## The end -/

/-- The key that executes `shutdown`. -/
def Shell.Ends (sh : Shell) (c : UInt8) : Prop :=
  c = 0x0A ∧ sh.line ≠ Text.empty ∧ ∃ cmd,
    lookup Command.name commands (sh.settings.expand sh.line).word = some cmd ∧ cmd.call = .shutdown

/-- None of the keys does. -/
def Shell.Endless (nullName : Text) : Shell → List UInt8 → Prop
  | _, [] => True
  | sh, c :: cs => ¬sh.Ends c ∧ (sh.key nullName c).Endless nullName cs

theorem Settings.command_ended (params : Text) (c : Handler) :
    (g.command nullName params c).ended = true ↔ g.ended = true ∨ c = .shutdown := by
  cases c with
  | shutdown => simp [Settings.command]
  | cprompt =>
    simp only [Settings.command]
    split <;> simp
  | tcolor =>
    simp only [Settings.command]
    split <;> simp
  | aliasCmd =>
    simp only [Settings.command, Settings.define]
    split
    · split <;> simp
    · simp
  | _ => simp [Settings.command]

theorem Shell.key_ended (c : UInt8) :
    (sh.key nullName c).settings.ended = true ↔ sh.settings.ended = true ∨ sh.Ends c := by
  unfold Shell.key Shell.Ends
  by_cases hc : c = 0x0A
  · rw [if_pos hc, Shell.submit]
    by_cases hempty : sh.line = Text.empty
    · rw [if_pos hempty]
      simp [hempty]
    · rw [if_neg hempty]
      simp only [Settings.execute]
      cases hfind : lookup Command.name commands (sh.settings.expand sh.line).word with
      | none => simp
      | some cmd => simp [Settings.command_ended, hc, hempty]
  · rw [if_neg hc]
    have hsettings : ∀ {P Q : Prop} [Decidable P] [Decidable Q] {l l' : Text},
        (if P then { sh with line := l } else if Q then { sh with line := l' } else sh).settings =
          sh.settings := by
      intro P Q _ _ l l'
      split
      · rfl
      · split <;> rfl
    rw [hsettings]
    simp [hc]

/-- How far the loop comes with the keys there are: through all of them, to a key
that executes `shutdown`, or to one whose turn does not end. -/
inductive RunsTo (nullName : Text) (sh : Shell) (d : Display) : List Key → Progress → Prop
  | waiting {ks : List Key} {d'} : Runs Turn d ks d' → sh.Endless nullName (ks.map Key.char) →
    RunsTo nullName sh d ks (.waiting d'.frame)
  | returned {used : List Key} {k : Key} {unread d₁ d'} : Runs Turn d used d₁ → Turn d₁ k d' →
    sh.Endless nullName (used.map Key.char) →
    ((used.map Key.char).foldl (Shell.key nullName) sh).Ends k.char →
    RunsTo nullName sh d (used ++ k :: unread) (.returned d' unread)
  | stopped {used : List Key} {k : Key} {unread d₁ why} : Runs Turn d used d₁ →
    sh.Endless nullName (used.map Key.char) → Stuck d₁ k why →
    RunsTo nullName sh d (used ++ k :: unread) (.stopped why)

/-- One turn before the rest. -/
theorem RunsTo.cons {p : Progress} (ht : Turn d k d') (hends : ¬sh.Ends k.char)
    (h : RunsTo nullName (sh.key nullName k.char) d' keys p) : RunsTo nullName sh d (k :: keys) p := by
  cases h with
  | waiting hrun hendless => exact .waiting (.cons ht hrun) ⟨hends, hendless⟩
  | returned hrun hlast hendless hend =>
    exact @RunsTo.returned _ _ _ (k :: _) _ _ _ _ (.cons ht hrun) hlast ⟨hends, hendless⟩ hend
  | stopped hrun hendless hstuck =>
    exact @RunsTo.stopped _ _ _ (k :: _) _ _ _ _ (.cons ht hrun) ⟨hends, hendless⟩ hstuck

theorem runLoop_runsTo (h : Tracks nullName d.terminal sh) (hend : sh.settings.ended = false) :
    RunsTo nullName sh d keys (runLoop keys d) := by
  induction keys generalizing d sh with
  | nil =>
    have hended : d.terminal.endterm = false := h.settings.ended.trans hend
    rw [runLoop, if_neg (by simp [hended])]
    exact .waiting .nil trivial
  | cons k keys ih =>
    have hended : d.terminal.endterm = false := h.settings.ended.trans hend
    rw [runLoop, if_neg (by simp [hended])]
    cases hx : d.turn k with
    | error why => exact @RunsTo.stopped _ _ _ [] _ _ _ _ .nil trivial (Display.turn_error hx)
    | ok d' =>
      have ht : Turn d k d' := Display.turn_ok hended hx
      have h' := h.turn ht
      cases hend' : (sh.key nullName k.char).settings.ended with
      | false =>
        have hends : ¬sh.Ends k.char := fun he => by
          rw [(Shell.key_ended k.char).mpr (.inr he)] at hend'
          cases hend'
        exact .cons ht hends (ih h' hend')
      | true =>
        -- The loop ends before the next frame.
        have hstop : runLoop keys d' = .returned d' keys := by
          have hended' : d'.terminal.endterm = true := h'.settings.ended.trans hend'
          cases keys <;> rw [runLoop, if_pos hended']
        simp only [hstop]
        refine @RunsTo.returned _ _ _ [] _ _ _ _ .nil ht trivial ?_
        exact ((Shell.key_ended k.char).mp hend').resolve_left (by simp [hend])

/-- **`run_terminal` returns with the first `shutdown`**: it returns as soon as a
key executes one, through an alias or not, and reads no key after it; else it
waits for more keys, if it is not stuck in a turn. -/
theorem runTerminal_runsTo (hnull : (s₀.struct NULL).name < s₀.next) :
    RunsTo (s₀.nameOf NULL) (Shell.start false) (Display.enter ⟨initTerminal s₀, video⟩) keys
      (runTerminal keys ⟨initTerminal s₀, video⟩) :=
  runLoop_runsTo (enter_tracks hnull) rfl

/-- Through an alias, with four keys left. -/
theorem runTerminal_runsTo_alias : ∃ d unread,
    runTerminal (typed "alias q shutdown now\nq\necho") ⟨initTerminal blank, fun _ => 0⟩ =
      .returned d unread ∧ unread.length = 4 ∧
    RunsTo (blank.nameOf NULL) (Shell.start false) (Display.enter ⟨initTerminal blank, fun _ => 0⟩)
      (typed "alias q shutdown now\nq\necho") (.returned d unread) := by
  have h : (match runTerminal (typed "alias q shutdown now\nq\necho") ⟨initTerminal blank, fun _ => 0⟩ with
      | .returned _ unread => unread.length
      | _ => 0) = 4 := by
    decide +kernel
  have hspec : RunsTo (blank.nameOf NULL) (Shell.start false) (Display.enter ⟨initTerminal blank, fun _ => 0⟩)
      (typed "alias q shutdown now\nq\necho")
      (runTerminal (typed "alias q shutdown now\nq\necho") ⟨initTerminal blank, fun _ => 0⟩) :=
    runTerminal_runsTo (by decide)
  cases hrun : runTerminal (typed "alias q shutdown now\nq\necho") ⟨initTerminal blank, fun _ => 0⟩ with
  | returned d unread =>
    rw [hrun] at h hspec
    exact ⟨d, unread, rfl, h, hspec⟩
  | waiting w =>
    rw [hrun] at h
    exact absurd h (by simp)
  | stopped why =>
    rw [hrun] at h
    exact absurd h (by simp)

end

end Ssmos

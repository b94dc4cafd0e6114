/-
What the command line is for, without strings, objects or a screen: a line that
is edited, the lines that were submitted, and the settings they change. Every
key is a function of its character alone.
-/
import Ssmos.TerminalColor
import Ssmos.History

namespace Ssmos

/-! ## Parameters -/

/-- The name and the command of a definition. -/
def definition (params : Text) : Option (Text × Text) :=
  if 0x20 ∈ params.chars ∧ params.word.chars ≠ [] then some (params.word, params.afterWord) else none

/-- The color a word names, whatever its case. -/
def namedColor (word : Text) : Option Color := (lookup Prod.fst colorNames word.tolower).map Prod.snd

/-- The colors that the first two words name. -/
def namedColors (params : Text) : Option (Color × Color) :=
  if 0x20 ∈ params.chars then
    match namedColor params.word, namedColor params.afterWord.word with
    | some fg, some bg => some (fg, bg)
    | _, _ => none
  else none

theorem Defines.definition {params name cmd : Text} (h : Defines params name cmd) :
    definition params = some (name, cmd) := by
  obtain ⟨hword, hafter⟩ := h.split
  have hspace : 0x20 ∈ params.chars := by
    rw [h.1]
    exact List.mem_append_right _ List.mem_cons_self
  rw [Ssmos.definition, hword, hafter, if_pos ⟨hspace, h.2.1⟩]

theorem NoDefinition.definition {params : Text} (h : NoDefinition params) : definition params = none := by
  refine if_neg fun hx => ?_
  obtain ⟨hspace, hword⟩ := hx
  have hdefines : Defines params params.word params.afterWord :=
    ⟨(params.chars_eq).trans (by rw [Text.dropWord_of_mem hspace]), hword, params.space_not_mem_word⟩
  exact hdefines.not_noDefinition h

/-! ## Settings -/

/-- What commands change. -/
structure Settings where
  prompt : Text
  color : UInt8
  aliases : Book Text Text
  ended : Bool

namespace Settings

/-- A definition, where the first one is not made if the name is `nullName`. -/
def define (nullName : Text) (g : Settings) (name cmd : Text) : Settings :=
  if g.aliases.entries = [] ∧ name = nullName then g else { g with aliases := g.aliases.define name cmd }

/-- What a command does to the settings. -/
def command (nullName : Text) (g : Settings) (params : Text) : Handler → Settings
  | .cprompt => if params = Text.empty then g else { g with prompt := params }
  | .tcolor =>
    match namedColors params with
    | some (fg, bg) => { g with color := getColor fg bg }
    | none => g
  | .aliasCmd =>
    match definition params with
    | some (name, cmd) => g.define nullName name cmd
    | none => g
  | .shutdown => { g with ended := true }
  | _ => g

/-- The line that is executed for a line: commands come before aliases, and an
alias stands for its command once. -/
def expand (g : Settings) (line : Text) : Text :=
  if (lookup Command.name commands line.word).isSome then line else (g.aliases.find line.word).getD line

/-- What a submitted line does to the settings. -/
def execute (nullName : Text) (g : Settings) (line : Text) : Settings :=
  match lookup Command.name commands (g.expand line).word with
  | some c => g.command nullName (g.expand line).afterWord c.call
  | none => g

end Settings

/-! ## Keys -/

structure Shell where
  line : Text
  history : List Text
  settings : Settings

namespace Shell

def submit (nullName : Text) (sh : Shell) : Shell :=
  if sh.line = Text.empty then sh
  else {
    line := Text.empty
    history := sh.history ++ [sh.line]
    settings := sh.settings.execute nullName sh.line }

def key (nullName : Text) (sh : Shell) (c : UInt8) : Shell :=
  if c = 0x0A then sh.submit nullName
  else if c = 0x08 then { sh with line := sh.line.take (sh.line.length - 1) }
  else if sh.line.length < TERMINAL_INPUT_SIZE then { sh with line := sh.line.push c }
  else sh

/-- The shell that `init_terminal` makes. -/
def start (ended : Bool) : Shell where
  line := Text.empty
  history := []
  settings :=
    { prompt := PROMPT_STRING
      color := getColor TERMINAL_FG TERMINAL_BG
      aliases := .empty
      ended := ended }

/-- After the keys of a session. -/
def session (nullName : Text) (ended : Bool) (chars : List UInt8) : Shell :=
  chars.foldl (key nullName) (start ended)

end Shell

end Ssmos

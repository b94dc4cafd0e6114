/-
The terminal on the screen (`kernel/terminal.c`): the prompt and the cursor that
are drawn each time, and `run_terminal`, which draws, reads a key, handles it
and waits, until a command ends it. `prompt` and `cursor` are set once, to `true`.

What a key needs of the heap is there, or `kmalloc` halts: which of the two is
part of what the key finds (`Env.heapFull`), not worked out from the blocks.
-/
import Ssmos.Console
import Ssmos.Layout
import Ssmos.Waits

namespace Ssmos

def CURSOR_CHAR : UInt8 := 219

/-- `kprint`, by what it leaves in the framebuffer. -/
def kprint (fb : Framebuffer) (pos : Nat) (text : List UInt8) (color : UInt8) : Framebuffer :=
  (Video.kprint ⟨fb, 0, []⟩ pos text color).framebuffer

/-- The terminal, and the bytes at `VIDEO_MEM`. -/
structure Display where
  terminal : Terminal
  video : Framebuffer

def drawPrompt (s : Terminal) : Terminal :=
  let promptPos := getPosition PROMPT_START_X s.promptY
  let inputPos := getPosition (PROMPT_START_X + s.promptStringLength) s.promptY
  let fb := kprint s.framebuffer promptPos (s.str s.promptString).chars s.terminalColor
  { s with framebuffer := kprint fb inputPos (s.str s.input).chars s.terminalColor }

/-- The bytes of `kmemcpy(VIDEO_MEM, framebuffer, n)`. -/
def flipLoop (video fb : Framebuffer) : Nat → Framebuffer
  | 0 => video
  | n + 1 => (flipLoop video fb n).set n (fb n)

namespace Display

def drawPrompt (d : Display) : Display := { d with terminal := Ssmos.drawPrompt d.terminal }

def kflip (d : Display) : Display :=
  { d with video := flipLoop d.video d.terminal.framebuffer FRAMEBUFFER_SIZE }

def drawCursor (d : Display) : Display :=
  let cursorPtr := getPosition d.terminal.cursorX d.terminal.cursorY
  { d with video := (d.video.set cursorPtr CURSOR_CHAR).set (cursorPtr + 1) d.terminal.cursorColor }

/-- What is drawn before a key is read. -/
def frame (d : Display) : Display := d.drawPrompt.kflip.drawCursor

end Display

/-- `ksync`. A tick ends the wait; with interrupts off there is none. -/
def ksync (env : Env) (s : Terminal) : Except Stop Unit :=
  if s.interrupts = false ∧ Wait.Unmet (UInt32.ofNat env.ticks) .ksync then .error .spin else .ok ()

/-- The body of the loop, with the key that comes. -/
def Display.turn (d : Display) (k : Key) : Except Stop Display := do
  let d := d.frame
  if k.env.heapFull then .error (.haltdump "Memory allocation error!" ERR_OUT_OF_MEMORY)
  else
    let (_, s) ← Term.handleInput commands k.env k.char d.terminal
    ksync k.env s
    .ok { d with terminal := s }

/-- How far `run_terminal` comes with the keys there are. -/
inductive Progress
  /-- It waits for another key. -/
  | waiting (d : Display)
  /-- It has returned, with these keys not read. -/
  | returned (d : Display) (unread : List Key)
  /-- It is in a turn that does not end. -/
  | stopped (why : Stop)

/-- `while (!endterm)` -/
def runLoop : List Key → Display → Progress
  | [], d => if d.terminal.endterm then .returned d [] else .waiting d.frame
  | k :: ks, d =>
    if d.terminal.endterm then .returned d (k :: ks)
    else
      match d.turn k with
      | .ok d => runLoop ks d
      | .error why => .stopped why

/-- What `run_terminal` starts the loop with. -/
def Display.enter (d : Display) : Display := { d with terminal := { d.terminal with endterm := false } }

def runTerminal (keys : List Key) (d : Display) : Progress := runLoop keys d.enter

/-- A turn of the loop whose handler returns. -/
def Turn (d : Display) (k : Key) (d' : Display) : Prop :=
  d.terminal.endterm = false ∧ KeyStep d.frame.terminal k d'.terminal ∧ d'.video = d.frame.video

/-- Why a turn does not end. -/
inductive Stuck (d : Display) (k : Key) : Stop → Prop
  /-- The heap has no block for what the key needs. -/
  | memory : k.env.heapFull = true → Stuck d k (.haltdump "Memory allocation error!" ERR_OUT_OF_MEMORY)
  /-- The handler does not return: it halts, it goes on for ever, or `reboot` resets the machine. -/
  | handler {why : Stop} : Term.handleInput commands k.env k.char d.frame.terminal = .error why → Stuck d k why
  /-- `ksync` waits for a tick, with interrupts off. -/
  | ksync {s : Terminal} : KeyStep d.frame.terminal k s → s.interrupts = false →
    Wait.Unmet (UInt32.ofNat k.env.ticks) .ksync → Stuck d k .spin

theorem Display.turn_ok {d d' : Display} {k : Key} (hend : d.terminal.endterm = false) (h : d.turn k = .ok d') :
    Turn d k d' := by
  unfold Display.turn at h
  dsimp only at h
  split at h
  next => cases h
  next =>
    obtain ⟨r, hr, h⟩ := Except.bind_ok_iff.mp h
    obtain ⟨_, -, h⟩ := Except.bind_ok_iff.mp h
    cases h
    exact ⟨hend, hr, rfl⟩

theorem Display.turn_error {d : Display} {k : Key} {why : Stop} (h : d.turn k = .error why) : Stuck d k why := by
  unfold Display.turn at h
  dsimp only at h
  split at h
  next hfull =>
    cases h
    exact .memory hfull
  next =>
    cases hx : Term.handleInput commands k.env k.char d.frame.terminal with
    | error e =>
      rw [hx, Except.error_bind] at h
      cases h
      exact .handler hx
    | ok r =>
      rw [hx, Except.ok_bind, Ssmos.ksync] at h
      split at h
      next hwaits =>
        cases h
        exact .ksync hx hwaits.1 hwaits.2
      next => cases h

/-- The same as a function. -/
def Display.turn? (d : Display) (k : Key) : Option Display :=
  if d.terminal.endterm then none else (k.step? d.frame.terminal).map fun s => { d.frame with terminal := s }

theorem Display.turn?_eq_some {d d' : Display} {k : Key} : d.turn? k = some d' ↔ Turn d k d' := by
  unfold Display.turn? Turn
  cases hend : d.terminal.endterm with
  | true => simp
  | false =>
    simp only [Bool.false_eq_true, if_false, Option.map_eq_some_iff, Key.step?_eq_some, true_and]
    constructor
    · rintro ⟨s, hk, rfl⟩
      exact ⟨hk, rfl⟩
    · intro hx
      obtain ⟨hk, hvideo⟩ := hx
      exact ⟨d'.terminal, hk, by rw [← hvideo]⟩

end Ssmos

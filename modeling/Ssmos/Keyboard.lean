/-
The keyboard driver (`lib/keyboard.c`) in front of the terminal: lines that are
pressed on the keyboard are the lines of the session, wherever the releases and
the prefixes of extended keys fall between the presses.
-/
import Ssmos.ScreenFacts

namespace Ssmos

/-! ## The driver -/

/-- The driver's variables, and the bytes that the two ports give, in order. -/
structure Keyboard where
  currScancode : UInt8
  lastScancode : UInt8
  status : List UInt8
  data : List UInt8

/-- `scan_lower`, with the terminator. -/
def scanLower : List UInt8 :=
  [0, 0x0D] ++ (Text.lit "1234567890-=").chars ++ [0x08, 0x09] ++ (Text.lit "qwertyuiop[]").chars ++
    [0x0A, 0x0B] ++ (Text.lit "asdfghjkl;'`").chars ++ [0x0C, 0] ++ (Text.lit "zxcvbnm,./").chars ++
    [0x0C, 0x2A, 0, 0x20, 0]

/-- `scan_to_key`, where `past` are the bytes after the array. -/
def scanToKey (past : Nat → UInt8) (sc : UInt8) : UInt8 :=
  if sc > 0x80 then 0
  else
    match scanLower[sc.toNat]? with
    | some c => c
    | none => past (sc.toNat - scanLower.length)

def getOutputStatus (status : UInt8) : Bool := checkBit status.toUInt32 0

/-- `while(!get_output_status()) { }`. -/
def waitOutput : List UInt8 → Option (List UInt8)
  | [] => none
  | status :: rest => if getOutputStatus status then some rest else waitOutput rest

/-- `poll_key`; there is none while it waits. -/
def pollKey (past : Nat → UInt8) (k : Keyboard) : Option (UInt8 × Keyboard) :=
  match waitOutput k.status, k.data with
  | some status, sc :: data =>
    some (scanToKey past sc, { currScancode := sc, lastScancode := k.currScancode, status, data })
  | _, _ => none

/-- The next `n` keys. -/
def pollKeys (past : Nat → UInt8) : Nat → Keyboard → Option (List UInt8 × Keyboard)
  | 0, k => some ([], k)
  | n + 1, k => do
    let (c, k) ← pollKey past k
    let (cs, k) ← pollKeys past n k
    return (c :: cs, k)

section

variable {past : Nat → UInt8} {k k' : Keyboard} {n : Nat} {c sc : UInt8} {cs : List UInt8}

/-- **Each byte is taken once**, in order, however often the status is read. -/
theorem pollKeys_eq (h : pollKeys past n k = some (cs, k')) :
    cs = (k.data.take n).map (scanToKey past) ∧ cs.length = n ∧ k'.data = k.data.drop n := by
  induction n generalizing k cs with
  | zero =>
    cases h
    exact ⟨rfl, rfl, rfl⟩
  | succ n ih =>
    rw [pollKeys] at h
    obtain ⟨⟨c, k₁⟩, hpoll, h⟩ := Option.bind_eq_some_iff.mp h
    obtain ⟨⟨cs', k₂⟩, hrest, h⟩ := Option.bind_eq_some_iff.mp h
    cases h
    obtain ⟨rfl, hlen, hdata⟩ := ih hrest
    unfold pollKey at hpoll
    split at hpoll
    next status sc data _ hk =>
      cases hpoll
      rw [hk]
      exact ⟨rfl, congrArg (· + 1) hlen, hdata⟩
    next => cases hpoll

/-! ## The layout -/

theorem scanLower_length : scanLower.length = 59 := by decide +kernel

/-- The scancode of a char's key. -/
def makeCode (c : UInt8) : UInt8 := UInt8.ofNat (scanLower.idxOf c)

theorem makeCode_toNat (h : c ∈ scanLower) : (makeCode c).toNat = scanLower.idxOf c := by
  have hlt := List.idxOf_lt_length_iff.mpr h
  rw [scanLower_length] at hlt
  rw [makeCode, UInt8.toNat_ofNat']
  omega

theorem makeCode_le (h : c ∈ scanLower) : makeCode c ≤ 0x80 := by
  have hlt := List.idxOf_lt_length_iff.mpr h
  rw [scanLower_length] at hlt
  rw [UInt8.le_iff_toNat_le, makeCode_toNat h]
  simp only [UInt8.reduceToNat]
  omega

/-- Every char of the layout is on the key with its scancode. -/
theorem scanToKey_makeCode (h : c ∈ scanLower) : scanToKey past (makeCode c) = c := by
  have hlt := List.idxOf_lt_length_iff.mpr h
  rw [scanToKey, if_neg (UInt8.not_lt.mpr (makeCode_le h)), makeCode_toNat h, List.getElem?_eq_getElem hlt,
    List.getElem_idxOf]

/-- Releases and prefixes are no keys. -/
theorem scanToKey_release (h : ¬sc ≤ 0x80) : scanToKey past sc = 0 := if_pos (UInt8.not_le.mp h)

/-- A char of the layout that is text. -/
structure Typeable (c : UInt8) : Prop where
  mem : c ∈ scanLower
  ne_zero : c ≠ 0
  not_enter : c ≠ 0x0A
  not_backspace : c ≠ 0x08

instance (c : UInt8) : Decidable (Typeable c) :=
  decidable_of_iff (c ∈ scanLower ∧ c ≠ 0 ∧ c ≠ 0x0A ∧ c ≠ 0x08)
    ⟨fun h => ⟨h.1, h.2.1, h.2.2.1, h.2.2.2⟩, fun h => ⟨h.mem, h.ne_zero, h.not_enter, h.not_backspace⟩⟩

/-- A line that can be typed. -/
structure Pressable (line : Text) : Prop where
  ne_empty : line ≠ Text.empty
  fits : line.length ≤ TERMINAL_INPUT_SIZE
  typeable : ∀ c ∈ line.chars, Typeable c

/-- The keys that are pressed for it, with Enter. -/
def strokes (line : Text) : List UInt8 := line.chars.map makeCode ++ [makeCode 0x0A]

theorem Pressable.keys {line : Text} (h : Pressable line) :
    (strokes line).map (scanToKey past) = line.chars ++ [0x0A] := by
  have henter : scanToKey past (makeCode 0x0A) = 0x0A := scanToKey_makeCode (by decide +kernel)
  rw [strokes, List.map_append, List.map_map, List.map_singleton, henter]
  congr 1
  calc line.chars.map (scanToKey past ∘ makeCode)
      = line.chars.map id := List.map_congr_left fun c hc => scanToKey_makeCode (h.typeable c hc).mem
    _ = line.chars := List.map_id _

/-! ## Keys of the shell -/

variable {nullName line : Text} {lines : List Text} {sh : Shell}

theorem Shell.key_zero : sh.key nullName 0 = sh := by
  rw [Shell.key, if_neg (by decide), if_neg (by decide), Text.push_zero]
  split <;> rfl

/-- What is no key may come anywhere between the keys. -/
theorem Shell.keys_filter (codes : List UInt8) :
    (codes.map (scanToKey past)).foldl (Shell.key nullName) sh =
      ((codes.filter (· ≤ 0x80)).map (scanToKey past)).foldl (Shell.key nullName) sh := by
  induction codes generalizing sh with
  | nil => rfl
  | cons code codes ih =>
    by_cases hkey : code ≤ 0x80
    · rw [List.filter_cons_of_pos (by simpa using hkey)]
      exact ih
    · rw [List.filter_cons_of_neg (by simpa using hkey), List.map_cons, List.foldl_cons,
        scanToKey_release hkey, Shell.key_zero]
      exact ih

theorem Shell.key_typeable {c : UInt8} (hc : Typeable c) (hroom : sh.line.length < TERMINAL_INPUT_SIZE) :
    sh.key nullName c = { sh with line := sh.line.push c } := by
  rw [Shell.key, if_neg hc.not_enter, if_neg hc.not_backspace, if_pos hroom]

/-- Text behind what is there. -/
theorem Shell.keys_text {cs : List UInt8} (hcs : ∀ c ∈ cs, Typeable c)
    (hroom : sh.line.length + cs.length ≤ TERMINAL_INPUT_SIZE) :
    cs.foldl (Shell.key nullName) sh = { sh with line := cs.foldl Text.push sh.line } := by
  induction cs generalizing sh with
  | nil => rfl
  | cons c cs ih =>
    have hc := hcs c List.mem_cons_self
    rw [List.length_cons] at hroom
    rw [List.foldl_cons, List.foldl_cons, Shell.key_typeable hc (by omega)]
    refine ih (fun d hd => hcs d (List.mem_cons_of_mem _ hd)) ?_
    rw [Text.push_length hc.ne_zero]
    omega

/-- The shell after a line is executed. -/
def Shell.after (nullName : Text) (sh : Shell) (line : Text) : Shell where
  line := Text.empty
  history := sh.history ++ [line]
  settings := sh.settings.execute nullName line

theorem Pressable.shell (h : Pressable line) (hempty : sh.line = Text.empty) :
    (line.chars ++ [0x0A]).foldl (Shell.key nullName) sh = sh.after nullName line := by
  have hroom : sh.line.length + line.chars.length ≤ TERMINAL_INPUT_SIZE := by
    rw [hempty, Text.empty_length, Nat.zero_add]
    exact h.fits
  rw [List.foldl_append, Shell.keys_text h.typeable hroom, hempty, Text.foldl_push, Text.empty_append,
    List.foldl_cons, List.foldl_nil, Shell.key, if_pos rfl]
  exact if_neg h.ne_empty

theorem Shell.after_lines (lines : List Text) (hempty : sh.line = Text.empty) :
    lines.foldl (Shell.after nullName) sh =
      { line := Text.empty
        history := sh.history ++ lines
        settings := lines.foldl (Settings.execute nullName) sh.settings } := by
  induction lines generalizing sh with
  | nil =>
    rw [List.foldl_nil, List.foldl_nil, List.append_nil, ← hempty]
  | cons line lines ih =>
    rw [List.foldl_cons, List.foldl_cons, ih rfl]
    simp only [Shell.after, List.append_assoc, List.singleton_append]

/-- Lines that are pressed one after the other. -/
theorem Shell.strokes_lines (hlines : ∀ l ∈ lines, Pressable l) (hempty : sh.line = Text.empty) :
    ((lines.flatMap strokes).map (scanToKey past)).foldl (Shell.key nullName) sh =
      lines.foldl (Shell.after nullName) sh := by
  induction lines generalizing sh with
  | nil => rfl
  | cons line lines ih =>
    have hline := hlines line List.mem_cons_self
    rw [List.flatMap_cons, List.map_append, List.foldl_append, hline.keys, hline.shell hempty, List.foldl_cons]
    exact ih (fun l hl => hlines l (List.mem_cons_of_mem _ hl)) rfl

/-! ## The session -/

variable {s₀ : Terminal} {d : Display} {video : Framebuffer} {keys : List Key}

/-- **Typed lines are executed in order**: let what is pressed among the bytes
that the driver reads be lines, each ended with Enter, wherever the releases and
the prefixes fall. Then the history is those lines, and the settings are what
they make, one after the other, of the first ones. -/
theorem typed_lines_executed (hnull : (s₀.struct NULL).name < s₀.next) (hlines : ∀ l ∈ lines, Pressable l)
    (hcodes : (k.data.take n).filter (· ≤ 0x80) = lines.flatMap strokes)
    (hpoll : pollKeys past n k = some (keys.map Key.char, k'))
    (hrun : Runs Turn (Display.enter ⟨initTerminal s₀, video⟩) keys d) :
    Shows d.terminal
      { line := Text.empty
        history := lines
        settings := lines.foldl (Settings.execute (s₀.nameOf NULL)) (Shell.start false).settings } := by
  have hshows := ((enter_tracks hnull).turns hrun).toShows
  rw [(pollKeys_eq hpoll).1, Shell.keys_filter, hcodes, Shell.strokes_lines hlines rfl,
    Shell.after_lines lines rfl] at hshows
  exact hshows

/-- The bytes of lines, where the keys are released and the last one is on the
keypad. -/
def pressed (lines : List Text) : Keyboard where
  currScancode := 0
  lastScancode := 0
  status := List.replicate 100 0x1D
  data := lines.flatMap fun l =>
    (l.chars.flatMap fun c => [makeCode c, makeCode c + 0x80]) ++ [0xE0, makeCode 0x0A, 0xE0, makeCode 0x0A + 0x80]

theorem typed_lines_executed_two : ∃ (keys : List Key) (k' : Keyboard) (d : Display),
    pollKeys (fun _ => 0) keys.length (pressed [Text.lit "alias e cprompt", Text.lit "cprompt ok"]) =
      some (keys.map Key.char, k') ∧
    Runs Turn (Display.enter ⟨initTerminal blank, fun _ => 0⟩) keys d ∧
    Shows d.terminal
      { line := Text.empty
        history := [Text.lit "alias e cprompt", Text.lit "cprompt ok"]
        settings := [Text.lit "alias e cprompt", Text.lit "cprompt ok"].foldl
          (Settings.execute (blank.nameOf NULL)) (Shell.start false).settings } := by
  have hpolled : (pollKeys (fun _ => 0) 58 (pressed [Text.lit "alias e cprompt", Text.lit "cprompt ok"])).isSome := by
    decide +kernel
  obtain ⟨⟨cs, k'⟩, hpoll⟩ := Option.isSome_iff_exists.mp hpolled
  have hlen := (pollKeys_eq hpoll).2.1
  have hcs := (pollKeys_eq hpoll).1
  have hchars : (cs.map fun c => ({ env := bench, char := c } : Key)).map Key.char = cs := by
    rw [List.map_map]
    exact List.map_id cs
  have hran : (exec Display.turn? (Display.enter ⟨initTerminal blank, fun _ => 0⟩)
      (cs.map fun c => { env := bench, char := c })).isSome := by
    rw [hcs]
    decide +kernel
  obtain ⟨d, hd⟩ := Option.isSome_iff_exists.mp hran
  have hrun := (exec_eq_some Display.turn?_eq_some).mp hd
  have hpressed : ∀ l ∈ [Text.lit "alias e cprompt", Text.lit "cprompt ok"], Pressable l := by
    intro l hl
    have hparts : ∀ l ∈ [Text.lit "alias e cprompt", Text.lit "cprompt ok"],
        l ≠ Text.empty ∧ l.length ≤ TERMINAL_INPUT_SIZE ∧ ∀ c ∈ l.chars, Typeable c := by
      decide +kernel
    exact ⟨(hparts l hl).1, (hparts l hl).2.1, (hparts l hl).2.2⟩
  refine ⟨_, k', d, ?_, hrun, ?_⟩
  · rw [List.length_map, hlen, hchars]
    exact hpoll
  · refine typed_lines_executed (by decide) hpressed ?_ (by rw [hchars]; exact hpoll) hrun
    decide +kernel

end

end Ssmos

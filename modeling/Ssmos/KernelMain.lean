/-
`kernel_main` from the boot loader's call to its return (`kernel/kernel.c`): the
screen it puts up, the terminal it runs on it, and what is left after `shutdown`.
-/
import Ssmos.Panel
import Ssmos.Startup

namespace Ssmos

def BOOT_FOREGROUND : Color := .lightGreen
def BOOT_BACKGROUND : Color := .black
def SHUTDOWN_FG : Color := .white
def SHUTDOWN_BG : Color := .blue
def MSGS_OFFSET : Nat := 8
def DATA_OFFSET : Nat := 31
def DATA_BASE : Nat := 10

def STACK_TOP : Nat := 0x7C00
def STACK_BOTTOM : Nat := 0x500

def bootColor : UInt8 := getColor BOOT_FOREGROUND BOOT_BACKGROUND

/-- The chars of adjacent string literals. -/
def literals (ss : List String) : List UInt8 := ss.flatMap fun s => (Text.lit s).chars

def logo : List UInt8 := literals
  ["   _____    _____   __  __    ____     _____ \n",
   "  / ____|  / ____| |  \\/  |  / __ \\   / ____|\n",
   " | (___   | (___   | \\  / | | |  | | | (___  \n",
   "  \\___ \\   \\___ \\  | |\\/| | | |  | |  \\___ \\ \n",
   "  ____) |  ____) | | |  | | | |__| |  ____) |\n",
   " |_____/  |_____/  |_|  |_|  \\____/  |_____/ \n\n"]

def msgs : List UInt8 := literals
  [" Booting from drive number   :\n",
   " Low memory detected   (KiB) :\n",
   " High memory detected  (KiB) :\n",
   " Current stack size    (KiB) :\n",
   " Entering terminal mode...    \n"]

def shtdown : List UInt8 := literals
  [" It is now safe to turn off the computer.                                       "]

/-- What is printed on the cleared screen. -/
def printBoot (num numbuffer : Nat) (bdrive lomem himem : Int) : Print Unit := do
  let number (y : Int) (val : Int) := Print.kprintnum num numbuffer (getPosition DATA_OFFSET y) val bootColor DATA_BASE
  Print.kprint (getPosition 0 0) logo bootColor
  Print.kprint (getPosition 0 MSGS_OFFSET) msgs bootColor
  number MSGS_OFFSET bdrive
  number (MSGS_OFFSET + 1) lomem
  number (MSGS_OFFSET + 2) himem
  number (MSGS_OFFSET + 3) ((STACK_TOP - STACK_BOTTOM) / 1024 : Nat)

def bootScreen (num numbuffer : Nat) (bdrive lomem himem : Int) : Print Unit := do
  Print.kclear
  printBoot num numbuffer bdrive lomem himem

/-- What the boot loader hands over, and the variables of `terminal.c`. -/
structure Machine where
  mem : Mem
  pics : Pics
  pit : Pit
  eflags : UInt32
  terminal : Terminal
  video : Framebuffer

/-- How far `kernel_main` comes with the keys there are, if each turn of the terminal ends. -/
inductive KernelRun
  /-- It waits for another key. -/
  | waiting (d : Display)
  /-- It has returned. -/
  | off (video : Framebuffer) (eflags : UInt32)

/-- What `run_terminal` is called on, and the flags. -/
def boot (l : IdtLayout) (logged : BootMessages) (num numbuffer : Nat) (bdrive lomem : Int) (himem : Nat)
    (w : Machine) : Except Stop (Display × UInt32) := do
  let st ← startup l logged himem w.mem w.pics w.pit w.eflags
  let (_, _, fb) ← bootScreen num numbuffer bdrive lomem himem (st.mem, w.terminal.framebuffer)
  let video := flipLoop w.video fb FRAMEBUFFER_SIZE
  let terminal := { w.terminal with framebuffer := fb, interrupts := checkInterruptsEnabled st.eflags }
  .ok (⟨initTerminal terminal, video⟩, st.eflags)

/-- What follows `run_terminal`. -/
def farewell (eflags : UInt32) : Progress → Except Stop KernelRun
  | .waiting d => .ok (.waiting d)
  | .stopped why => .error why
  | .returned d _ =>
    let fb := kprint d.terminal.framebuffer (getPosition 0 (ROWS - 1)) shtdown (getColor SHUTDOWN_FG SHUTDOWN_BG)
    .ok (.off (flipLoop d.video fb FRAMEBUFFER_SIZE) (cleared eflags))

def kernelMain (l : IdtLayout) (logged : BootMessages) (num numbuffer : Nat) (bdrive lomem : Int) (himem : Nat)
    (w : Machine) (keys : List Key) : Except Stop KernelRun := do
  let (d, eflags) ← boot l logged num numbuffer bdrive lomem himem w
  farewell eflags (runTerminal keys d)

/-! ## The boot screen -/

/-- The numbers, each behind its message. -/
def bootNumbers (bdrive lomem himem : Int) : List Label :=
  let number y val : Label := ⟨cellOf (DATA_OFFSET, y), written DATA_BASE val⟩
  [number 8 bdrive, number 9 lomem, number 10 himem, number 11 29]

/-- The labels as they are printed. -/
def bootLabels (bdrive lomem himem : Int) : List Label :=
  [⟨0, logo⟩] ++ ([⟨cellOf (0, MSGS_OFFSET), msgs⟩] ++ bootNumbers bdrive lomem himem)

/-- And line by line. -/
def bootLines (bdrive lomem himem : Int) : List Label :=
  lineLabels 0 (logo.splitOn 0x0A) ++
    (lineLabels (cellOf (0, MSGS_OFFSET)) (msgs.splitOn 0x0A) ++ bootNumbers bdrive lomem himem)

def logoFields : List Field := [⟨0, 45⟩, ⟨80, 45⟩, ⟨160, 45⟩, ⟨240, 45⟩, ⟨320, 45⟩, ⟨400, 45⟩, ⟨480, 0⟩, ⟨560, 0⟩]

def msgsFields : List Field := [⟨640, 30⟩, ⟨720, 30⟩, ⟨800, 30⟩, ⟨880, 30⟩, ⟨960, 30⟩, ⟨1040, 0⟩]

/-- A field for each of them. -/
def bootFields : List Field := logoFields ++ (msgsFields ++ [⟨671, 11⟩, ⟨751, 11⟩, ⟨831, 11⟩, ⟨911, 11⟩])

/-- The labels stand on a cleared screen, all of them and nothing else. -/
structure Panelled (fb : Framebuffer) (ls : List Label) (color : UInt8) : Prop where
  chars : ∀ l ∈ ls, ∀ i c, l.text[i]? = some c → l.start + i < CELLS →
    fb (2 * (l.start + i)) = c ∧ fb (2 * (l.start + i) + 1) = color
  blank : ∀ cell, cell < CELLS → (∀ l ∈ ls, ∀ i, i < l.text.length → cell ≠ l.start + i) →
    fb (2 * cell) = 0 ∧ fb (2 * cell + 1) = 0

section

variable {num numbuffer : Nat} {m : Mem} {bdrive lomem himem : Int} {cell : Nat} {c : UInt8}

theorem bootScreen_draws (hlay : Layout num numbuffer MAX_INT_CHARS) (htable : Table m num) (hbdrive : Printable bdrive)
    (hlomem : Printable lomem) (hhimem : Printable himem) (fb : Framebuffer) :
    ∃ m', bootScreen num numbuffer bdrive lomem himem (m, fb) =
      .ok ((), m', drawLabels bootColor (bootLabels bdrive lomem himem) (kclear fb)) := by
  have hdraws : Draws numbuffer m bootColor (printBoot num numbuffer bdrive lomem himem) ()
      (bootLabels bdrive lomem himem) := by
    unfold printBoot bootLabels
    dsimp only
    refine .text (by decide) <| .text (by decide) ?_
    refine .number hlay htable hbdrive (by decide) (by decide) (by decide) ?_
    refine .number hlay htable hlomem (by decide) (by decide) (by decide) ?_
    refine .number hlay htable hhimem (by decide) (by decide) (by decide) ?_
    exact .kprintnum hlay htable (by decide) (by decide) (by decide) (by decide)
  obtain ⟨m', hrun, -⟩ := hdraws m (kclear fb) (.refl m _)
  exact ⟨m', (StateT.bind_of_ok rfl).trans hrun⟩

theorem chars_of_all {cs : List UInt8} (h : cs.all fun c => c != 0 && c != 0x0A) : ∀ c ∈ cs, c ≠ 0 ∧ c ≠ 0x0A := by
  simpa only [List.all_eq_true, Bool.and_eq_true, bne_iff_ne] using h

theorem logo_lines : ∀ l ∈ logo.splitOn 0x0A, ∀ c ∈ l, c ≠ 0 ∧ c ≠ 0x0A := by
  have hall : (logo.splitOn 0x0A).all fun l => l.all fun c => c != 0 && c != 0x0A := by decide +kernel
  exact fun l hl => chars_of_all (List.all_eq_true.mp hall l hl)

theorem msgs_lines : ∀ l ∈ msgs.splitOn 0x0A, ∀ c ∈ l, c ≠ 0 ∧ c ≠ 0x0A := by
  have hall : (msgs.splitOn 0x0A).all fun l => l.all fun c => c != 0 && c != 0x0A := by decide +kernel
  exact fun l hl => chars_of_all (List.all_eq_true.mp hall l hl)

theorem logo_fields : (lineLabels 0 (logo.splitOn 0x0A)).map Label.field = logoFields := by decide +kernel

theorem msgs_fields : (lineLabels (cellOf (0, MSGS_OFFSET)) (msgs.splitOn 0x0A)).map Label.field = msgsFields := by
  decide +kernel

theorem ne_zero_of_lines {text : List UInt8} (h : ∀ l ∈ text.splitOn 0x0A, ∀ c ∈ l, c ≠ 0 ∧ c ≠ 0x0A) :
    ∀ c ∈ text, c ≠ 0 := by
  intro c hc
  have hsplit : [0x0A].intercalate (text.splitOn 0x0A) = text := List.intercalate_splitOn 0x0A
  rw [← hsplit] at hc
  rcases mem_lines hc with rfl | ⟨l, hl, hmem⟩
  · decide
  · exact (h l hl c hmem).1

/-- The texts show as their lines. -/
theorem shown_bootLabels (cell : Nat) :
    shown (bootLabels bdrive lomem himem) cell = shown (bootLines bdrive lomem himem) cell := by
  have hsingle : ∀ (start : Nat) (text : List UInt8), shown [⟨start, text⟩] cell = laidOut start text cell :=
    fun _ _ => Option.none_or
  have hsplit : ∀ (start : Nat) (text : List UInt8), (∀ l ∈ text.splitOn 0x0A, ∀ c ∈ l, c ≠ 0 ∧ c ≠ 0x0A) →
      shown (lineLabels start (text.splitOn 0x0A)) cell = shown [⟨start, text⟩] cell := fun start text h => by
    rw [shown_lineLabels fun l hl c hc => (h l hl c hc).2, List.intercalate_splitOn, hsingle]
  rw [bootLabels, bootLines, shown_append, shown_append, shown_append, shown_append, hsplit _ _ logo_lines,
    hsplit _ _ msgs_lines]

theorem bootFields_apart : bootFields.Pairwise Field.Apart := by decide +kernel

theorem bootLines_fit (hbdrive : Printable bdrive) (hlomem : Printable lomem) (hhimem : Printable himem) :
    List.Forall₂ Label.Fits (bootLines bdrive lomem himem) bootFields := by
  have hnumber : ∀ {val : Int} (start : Nat), Printable val → Label.Fits ⟨start, written 10 val⟩ ⟨start, 11⟩ :=
    fun _ hval => ⟨rfl, written_decimal_length hval, fun _ hc => written_chars (by decide) (by decide) hc⟩
  rw [bootFields, ← logo_fields, ← msgs_fields]
  refine List.rel_append (fits_field fun l hl => logo_lines _ (lineLabels_text hl))
    (List.rel_append (fits_field fun l hl => msgs_lines _ (lineLabels_text hl)) ?_)
  exact .cons (hnumber _ hbdrive) <| .cons (hnumber _ hlomem) <| .cons (hnumber _ hhimem) <|
    .cons (hnumber _ (by decide)) .nil

theorem bootLabels_valid : ∀ l ∈ bootLabels bdrive lomem himem, l.Valid := by
  have hnumber : ∀ (start : Nat) (val : Int), start < CELLS → Label.Valid ⟨start, written 10 val⟩ :=
    fun _ _ hstart => ⟨hstart, fun _ hc => written_ne_zero (by decide) (by decide) hc⟩
  have hlogo : Label.Valid ⟨0, logo⟩ := ⟨by decide, ne_zero_of_lines logo_lines⟩
  have hmsgs : Label.Valid ⟨cellOf (0, MSGS_OFFSET), msgs⟩ := ⟨by decide, ne_zero_of_lines msgs_lines⟩
  refine List.forall_mem_append.mpr ⟨List.forall_mem_singleton.mpr hlogo,
    List.forall_mem_append.mpr ⟨List.forall_mem_singleton.mpr hmsgs, ?_⟩⟩
  simp only [bootNumbers, List.forall_mem_cons]
  exact ⟨hnumber _ _ (by decide), hnumber _ _ (by decide), hnumber _ _ (by decide), hnumber _ _ (by decide), nofun⟩

/-- The boot screen: each line and each number in its place. -/
theorem bootScreen_panelled (hlay : Layout num numbuffer MAX_INT_CHARS) (htable : Table m num)
    (hbdrive : Printable bdrive) (hlomem : Printable lomem) (hhimem : Printable himem) (fb : Framebuffer) :
    ∃ m' fb', bootScreen num numbuffer bdrive lomem himem (m, fb) = .ok ((), m', fb') ∧
      Panelled fb' (bootLines bdrive lomem himem) bootColor := by
  obtain ⟨m', hrun⟩ := bootScreen_draws hlay htable hbdrive hlomem hhimem fb
  have hfit := bootLines_fit hbdrive hlomem hhimem
  have hsize : FRAMEBUFFER_SIZE = 4000 := rfl
  have hcells := framebuffer_cells
  have hdrawn : ∀ a, a < FRAMEBUFFER_SIZE →
      drawLabels bootColor (bootLabels bdrive lomem himem) (kclear fb) a =
        (shown (bootLines bdrive lomem himem) (a / 2)).elim 0 fun c => cellByte c bootColor a := fun a ha => by
    rw [drawLabels_apply bootLabels_valid, if_pos ha, shown_bootLabels, kclear, Framebuffer.fill_apply,
      if_pos ⟨Nat.zero_le _, by omega⟩]
  have heven : ∀ k, 2 * k / 2 = k := fun k => by omega
  have hodd : ∀ k, (2 * k + 1) / 2 = k := fun k => by omega
  refine ⟨m', _, hrun, fun l hl i c hc hlt => ?_, fun cell hlt hout => ?_⟩
  · have hshown := (shown_iff hfit bootFields_apart).mpr ⟨l, hl, i, hc, rfl⟩
    rw [hdrawn _ (by omega), hdrawn _ (by omega), heven, hodd, hshown]
    exact ⟨if_pos (by omega), if_neg (by omega)⟩
  · have hshown : shown (bootLines bdrive lomem himem) cell = none := by
      refine Option.eq_none_iff_forall_ne_some.mpr fun c hshown => ?_
      obtain ⟨l, hl, i, hc, rfl⟩ := (shown_iff hfit bootFields_apart).mp hshown
      exact hout l hl i (List.getElem?_eq_some_iff.mp hc).1 rfl
    rw [hdrawn _ (by omega), hdrawn _ (by omega), heven, hodd, hshown]
    exact ⟨rfl, rfl⟩

end

/-! ## From boot to shutdown -/

/-- The digits are in none of the bytes `interrupts_init` writes. -/
structure IdtLayout.Spares (l : IdtLayout) (num : Nat) : Prop where
  pointer : num + 36 ≤ l.idtptr ∨ l.idtptr + 6 ≤ num
  table : num + 36 ≤ l.idt ∨ l.idt + ENTRY_BYTES * IDT_SIZE ≤ num

/-- What the loop of the terminal starts with, on these screens. -/
def Terminal.booted (s : Terminal) (fb video : Framebuffer) : Display :=
  Display.enter ⟨initTerminal { s with framebuffer := fb, interrupts := true }, video⟩

/-- The shutdown message takes the last row, and the rest is as it was. -/
structure Farewell (video fb : Framebuffer) : Prop where
  row : ∀ i c, shtdown[i]? = some c → video (2 * (CELLS - COLUMNS + i)) = c ∧
    video (2 * (CELLS - COLUMNS + i) + 1) = getColor .white .blue
  rest : ∀ a, a < 2 * (CELLS - COLUMNS) → video a = fb a

/-- What a run comes to, from the display `start` on: it waits with the line that
was typed on the screen, it is over with the first key that executes `shutdown`,
or it is stuck in a turn, for one of the reasons of `Stuck`. -/
inductive KernelRuns (nullName : Text) (start : Display) : List Key → Except Stop KernelRun → Prop
  | waiting {keys d} : Runs Turn start keys d → (Shell.start false).Endless nullName (keys.map Key.char) →
    OnScreen d.frame.video d.terminal.framebuffer (d.terminal.promptY.toNat * COLUMNS)
      ((Shell.session nullName false (keys.map Key.char)).settings.prompt.chars ++
        (Shell.session nullName false (keys.map Key.char)).line.chars)
      (Shell.session nullName false (keys.map Key.char)).settings.color d.terminal.cursorColor →
    KernelRuns nullName start keys (.ok (.waiting d.frame))
  | off {used : List Key} {k : Key} {unread d d' video eflags} : Runs Turn start used d → Turn d k d' →
    (Shell.start false).Endless nullName (used.map Key.char) →
    (Shell.session nullName false (used.map Key.char)).Ends k.char → Farewell video d'.terminal.framebuffer →
    checkInterruptsEnabled eflags = false → KernelRuns nullName start (used ++ k :: unread) (.ok (.off video eflags))
  | stopped {used : List Key} {k : Key} {unread d why} : Runs Turn start used d →
    (Shell.start false).Endless nullName (used.map Key.char) →
    Stuck d k why → KernelRuns nullName start (used ++ k :: unread) (.error why)

section

variable {l : IdtLayout} {logged : BootMessages} {num numbuffer himem : Nat} {bdrive lomem : Int} {w : Machine}

theorem shtdown_length : shtdown.length = COLUMNS := by decide +kernel

theorem farewell_shows (video fb : Framebuffer) : Farewell (flipLoop video
    (kprint fb (getPosition 0 (ROWS - 1)) shtdown (getColor SHUTDOWN_FG SHUTDOWN_BG)) FRAMEBUFFER_SIZE) fb := by
  have hpos : getPosition 0 (ROWS - 1) = 3840 := by decide
  have hchars : ∀ c ∈ shtdown, c ≠ 0 ∧ c ≠ 0x0A := chars_of_all (by decide +kernel)
  have hsize : FRAMEBUFFER_SIZE = 4000 := rfl
  have hstart : CELLS - COLUMNS = 1920 := rfl
  have hprint := @kprint_line fb 3840 shtdown (getColor SHUTDOWN_FG SHUTDOWN_BG) (fun c hc => (hchars c hc).1)
    (fun c hc => (hchars c hc).2) (by decide) (by decide)
  rw [hpos]
  constructor
  · intro i c hi
    have hin : i < 80 := by
      have := (List.getElem?_eq_some_iff.mp hi).1
      rwa [shtdown_length] at this
    have heven : 2 * (1920 + i) / 2 = 1920 + i := by omega
    have hodd : (2 * (1920 + i) + 1) / 2 = 1920 + i := by omega
    rw [hstart, flipLoop_apply, if_pos (by omega), flipLoop_apply, if_pos (by omega), hprint, hprint,
      if_pos ⟨by omega, by omega⟩, if_pos ⟨by omega, by omega⟩, heven, hodd, show 1920 + i - 3840 / 2 = i by omega, hi]
    exact ⟨if_pos (by omega), if_neg (by omega)⟩
  · intro a ha
    rw [hstart] at ha
    rw [flipLoop_apply, if_pos (by omega), hprint, if_neg (by omega)]

/-- The digits are where they were when the screen is printed. -/
theorem startup_table {m m' : Mem} (hlay : Layout num numbuffer MAX_INT_CHARS) (htable : Table m num)
    (hspares : l.Spares num) (hw : Wrote (interruptsInit l m).1 m' (Set.Ici HEAP_START)) : Table m' num := by
  have hdigits := hlay.digits
  have hpointer := hspares.pointer
  have htab := hspares.table
  refine (htable.frame (interruptsInit_wrote l m) fun a h₁ h₂ ha => ?_).frame hw fun a h₁ h₂ ha => ?_
  · rcases ha with ha | ha
    · rw [Set.mem_Ico] at ha
      omega
    · rw [Set.mem_Ico] at ha
      omega
  · rw [Set.mem_Ici] at ha
    omega

/-- It gets to `run_terminal`, with the boot screen up. -/
theorem boot_ok (hpos : 1 ≤ himem) (hsmall : himem ≤ 65535) (hlay : Layout num numbuffer MAX_INT_CHARS)
    (htable : Table w.mem num) (hspares : l.Spares num) (hbdrive : Printable bdrive) (hlomem : Printable lomem) :
    ∃ fb video, Panelled fb (bootLines bdrive lomem himem) bootColor ∧ (∀ a, a < FRAMEBUFFER_SIZE → video a = fb a) ∧
      boot l logged num numbuffer bdrive lomem himem w =
        .ok (⟨initTerminal { w.terminal with framebuffer := fb, interrupts := true }, video⟩,
          w.eflags ||| INTERRUPT_FLAG) := by
  have hhimem : Printable himem := ⟨by omega, by omega⟩
  obtain ⟨m', log, H, nodes, hstart, -, hw⟩ := startup_ok logged hpos hsmall l w.mem w.pics w.pit w.eflags
  obtain ⟨m'', fb, hscreen, hpanel⟩ := bootScreen_panelled hlay (startup_table hlay htable hspares hw) hbdrive hlomem
    hhimem w.terminal.framebuffer
  refine ⟨fb, flipLoop w.video fb FRAMEBUFFER_SIZE, hpanel, fun a ha => by rw [flipLoop_apply, if_pos ha], ?_⟩
  rw [boot, hstart, Except.ok_bind]
  dsimp only
  rw [hscreen, Except.ok_bind, enabled_set]

/-- From there it runs the terminal. -/
theorem kernelMain_of_boot {fb video : Framebuffer} {eflags : UInt32}
    (hnull : (w.terminal.struct NULL).name < w.terminal.next)
    (hboot : boot l logged num numbuffer bdrive lomem himem w =
      .ok (⟨initTerminal { w.terminal with framebuffer := fb, interrupts := true }, video⟩, eflags))
    (keys : List Key) :
    KernelRuns (w.terminal.nameOf NULL) (w.terminal.booted fb video) keys
      (kernelMain l logged num numbuffer bdrive lomem himem w keys) := by
  have htracks : Tracks (w.terminal.nameOf NULL) (w.terminal.booted fb video).terminal (Shell.start false) :=
    @enter_tracks { w.terminal with framebuffer := fb, interrupts := true } video hnull
  have hruns : RunsTo _ (Shell.start false) _ keys _ := runLoop_runsTo htracks rfl
  rw [kernelMain, hboot, Except.ok_bind]
  dsimp only
  rw [runTerminal]
  change KernelRuns _ _ keys (farewell eflags (runLoop keys (w.terminal.booted fb video)))
  generalize runLoop keys (w.terminal.booted fb video) = progress at hruns ⊢
  cases hruns with
  | waiting hrun hendless =>
    exact .waiting hrun hendless ((htracks.turns hrun).onScreen (Shell.session_oneLine _ _ _))
  | returned hrun hturn hendless hends =>
    exact .off hrun hturn hendless hends (farewell_shows _ _) (cleared_disabled _)
  | stopped hrun hendless hstuck => exact .stopped hrun hendless hstuck

/-- **`kernel_main`, from boot to shutdown**: it puts up the boot screen, with the
drive and the sizes it was given, and starts the terminal on it; it returns with
the first key that executes `shutdown`, with the message in the last row, the
page as it was above, and interrupts off; until then the line typed is on the
screen, or it is stuck in a turn. -/
theorem kernelMain_runs (hpos : 1 ≤ himem) (hsmall : himem ≤ 65535) (hlay : Layout num numbuffer MAX_INT_CHARS)
    (htable : Table w.mem num) (hspares : l.Spares num) (hbdrive : Printable bdrive) (hlomem : Printable lomem)
    (hnull : (w.terminal.struct NULL).name < w.terminal.next) (keys : List Key) :
    ∃ fb video, Panelled fb (bootLines bdrive lomem himem) bootColor ∧ (∀ a, a < FRAMEBUFFER_SIZE → video a = fb a) ∧
      KernelRuns (w.terminal.nameOf NULL) (w.terminal.booted fb video)
        keys (kernelMain l logged num numbuffer bdrive lomem himem w keys) := by
  obtain ⟨fb, video, hpanel, hvideo, hboot⟩ := boot_ok hpos hsmall hlay htable hspares hbdrive hlomem
  exact ⟨fb, video, hpanel, hvideo, kernelMain_of_boot hnull hboot keys⟩

end

/-- Where it is over, the message is. -/
theorem KernelRuns.ends {nullName : Text} {start : Display} {keys : List Key} {video : Framebuffer} {eflags : UInt32}
    (h : KernelRuns nullName start keys (.ok (.off video eflags))) :
    (∃ fb, Farewell video fb) ∧ checkInterruptsEnabled eflags = false := by
  cases h with
  | off _ _ _ _ hfarewell hflags => exact ⟨⟨_, hfarewell⟩, hflags⟩

/-- A floppy's boot, with the digits at 64. -/
def floppyBoot : Machine := ⟨digitTable, powerUp, ⟨.both, 0, 0, none⟩, 2, blank, fun _ => 0⟩

/-- A new prompt and `shutdown` are typed, and something more: the drive's number
was on the boot screen, and the message is in the last row. -/
theorem kernelMain_runs_floppy : ∃ (fb video : Framebuffer) (eflags : UInt32), fb (2 * 671) = 0x30 ∧
    kernelMain sampleLayout sampleMessages 64 128 0 639 1 floppyBoot (typed "cprompt $\nshutdown\nls") =
      .ok (.off video eflags) ∧
    video (2 * 1921) = 0x49 ∧ video (2 * 1921 + 1) = getColor .white .blue ∧ checkInterruptsEnabled eflags = false := by
  have hlay : Layout 64 128 MAX_INT_CHARS := ⟨by decide, by decide, by decide, by decide, by decide⟩
  have htable : Table floppyBoot.mem 64 := ⟨by decide, by decide⟩
  have hspares : sampleLayout.Spares 64 := ⟨by decide, by decide⟩
  obtain ⟨fb, _, hpanel, -, hruns⟩ := @kernelMain_runs sampleLayout sampleMessages 64 128 1 0 639 floppyBoot
    (by decide) (by decide) hlay htable hspares (by decide) (by decide) (by decide)
    (typed "cprompt $\nshutdown\nls")
  have hover : (kernelMain sampleLayout sampleMessages 64 128 0 639 1 floppyBoot
      (typed "cprompt $\nshutdown\nls")).toOption.map (fun r : KernelRun => match r with
        | .off _ _ => true
        | .waiting _ => false) = some true := by
    decide +kernel
  obtain ⟨r, hr, hoff⟩ := Option.map_eq_some_iff.mp hover
  have hr := Except.toOption_eq_some.mp hr
  cases r with
  | waiting d => cases hoff
  | off video eflags =>
    rw [hr] at hruns
    obtain ⟨⟨fb', hfarewell⟩, hflags⟩ := hruns.ends
    have hzero : ⟨cellOf (DATA_OFFSET, 8), written DATA_BASE 0⟩ ∈ bootLines 0 639 (1 : Nat) :=
      List.mem_append_right _ (List.mem_append_right _ List.mem_cons_self)
    have hrow := hfarewell.row 1 0x49 (by decide +kernel)
    exact ⟨fb, video, eflags, (hpanel.chars _ hzero 0 0x30 rfl (by decide)).1, hr, hrow.1, hrow.2, hflags⟩

end Ssmos

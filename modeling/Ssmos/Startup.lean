/-
`kernel_main` up to where it enables interrupts (`kernel/kernel.c`), with
`graphics_init` and `timer_init`. What it sets up lasts: the log through any run
of code that allocates and logs, and after one, in any run of the controllers,
the gate of each interrupt they deliver. The two runs are not interleaved: a stub
overwrites `eax`, where code that is interrupted has its pointers.
-/
import Ssmos.Gates
import Ssmos.SystemLog

namespace Ssmos

/-! ## The timer -/

def PIT_COMMAND : Nat := 0x43
def PIT_CHANNEL_0 : Nat := 0x40
def PIT_INIT : UInt8 := 0x34
def PIT_DIVIDER : Nat := 1193
def PIT_DIV_LOW : UInt8 := 0xA9
def PIT_DIV_HIGH : UInt8 := 0x4

/-- Which bytes of the reload value the data port takes. -/
inductive PitAccess
  | low
  | high
  | both
  deriving DecidableEq, Repr

/-- Channel 0 of the timer: its mode, its reload value, and the low byte when
only the high one is still to come. -/
structure Pit where
  access : PitAccess
  mode : BitVec 3
  reload : Nat
  pending : Option UInt8
  deriving DecidableEq, Repr

namespace Pit

/-- A control word. Those of the other channels, and a latch, change nothing here. -/
def control (p : Pit) (val : UInt8) : Pit :=
  let mode := (val.toBitVec >>> 1).setWidth 3
  match val >>> 4 with
  | 1 => { p with access := .low, mode := mode, pending := none }
  | 2 => { p with access := .high, mode := mode, pending := none }
  | 3 => { p with access := .both, mode := mode, pending := none }
  | _ => p

def data (p : Pit) (val : UInt8) : Pit :=
  match p.access, p.pending with
  | .low, _ => { p with reload := val.toNat }
  | .high, _ => { p with reload := 2 ^ 8 * val.toNat }
  | .both, none => { p with pending := some val }
  | .both, some low => { p with reload := low.toNat + 2 ^ 8 * val.toNat, pending := none }

def outb (p : Pit) (port : Nat) (val : UInt8) : Pit :=
  if port = PIT_COMMAND then p.control val else if port = PIT_CHANNEL_0 then p.data val else p

/-- The clocks from one tick to the next, of a rate generator: 0 counts as `2 ^ 16`. -/
def period? (p : Pit) : Option Nat :=
  if p.mode = 2 ∧ p.pending = none then some (if p.reload = 0 then 2 ^ 16 else p.reload) else none

end Pit

def timerInit (p : Pit) : Pit :=
  let p := p.outb PIT_COMMAND PIT_INIT
  let p := p.outb PIT_CHANNEL_0 PIT_DIV_LOW
  p.outb PIT_CHANNEL_0 PIT_DIV_HIGH

/-- The bytes sent are those of the divider, in whatever state the channel was. -/
theorem timerInit_period (p : Pit) : (timerInit p).period? = some PIT_DIVIDER := rfl

/-! ## `kernel_main`, as far as `enable_interrupts` -/

/-- Where the messages logged there are. -/
structure BootMessages where
  heap : Nat
  graphics : Nat
  heap_lt : heap < 2 ^ 32
  graphics_lt : graphics < 2 ^ 32

/-- `graphics_init`, but for the pointers it sets to arrays of its own. -/
def graphicsInit (m : Mem) (systemlog msg : Nat) : Except Stop (Nat × Mem) := klog m systemlog msg

/-- The machine when interrupts are enabled. -/
structure Initialized where
  mem : Mem
  idtr : Idtr
  systemlog : Nat
  pics : Pics
  pit : Pit
  eflags : UInt32

def startup (l : IdtLayout) (msgs : BootMessages) (himem : Nat) (m : Mem) (pics : Pics) (pit : Pit) (eflags : UInt32) :
    Except Stop Initialized := do
  let (m, idtr) := interruptsInit l m
  let (systemlog, m) ← memoryInit m himem msgs.heap
  let (systemlog, m) ← graphicsInit m systemlog msgs.graphics
  .ok ⟨m, idtr, systemlog, picInit.exec pics, timerInit pit, eflags ||| INTERRUPT_FLAG⟩

section

variable {l : IdtLayout} {msgs : BootMessages} {himem : Nat} {m : Mem} {pics : Pics} {pit : Pit} {eflags : UInt32}

/-- A table below the heap is not written by what writes in the heap. -/
theorem SameTable.of_wrote {m m' : Mem} (hidt : l.idt + ENTRY_BYTES * IDT_SIZE ≤ HEAP_START)
    (hw : Wrote m m' (Set.Ici HEAP_START)) : SameTable l m m' := by
  intro a _ ha
  have hend : HEAP_START < 2 ^ 32 := by decide
  refine hw.load8_eq ?_
  rw [wrap_of_lt (by omega), Set.mem_Ici]
  omega

/-- It gets there, on any machine, with both messages in the log. -/
theorem startup_ok (msgs : BootMessages) (hpos : 1 ≤ himem) (hsmall : himem ≤ 65535) (l : IdtLayout) (m : Mem)
    (pics : Pics) (pit : Pit) (eflags : UInt32) : ∃ (m' : Mem) (log : Nat) (H : Heap himem) (nodes : List Nat),
      startup l msgs himem m pics pit eflags =
        .ok ⟨m', (interruptsInit l m).2, log, picInit.exec pics, timerInit pit, eflags ||| INTERRUPT_FLAG⟩ ∧
      LogState.Inv ⟨m', log, []⟩ H nodes [msgs.heap, msgs.graphics] ∧
      Wrote (interruptsInit l m).1 m' (Set.Ici HEAP_START) := by
  obtain ⟨m₁, -, hboot, -, -⟩ := memoryInit_eq (interruptsInit l m).1 msgs.heap hpos hsmall
  obtain ⟨H, hi, hH⟩ := memoryInit_inv hpos hsmall msgs.heap_lt hboot
  rcases hi.klog msgs.graphics_lt with ⟨hfull, -⟩ | ⟨p, m', H', hrun, hi'⟩
  · -- The rest of the heap is one free block, large enough.
    have hfree : (⟨HEAP_START + 16 + 12, HEAP_START, himem * 1024 - 16 - (12 + 16), true⟩ : Blk) ∈ H.blocks := by
      rw [hH]
      exact .tail _ (.head _)
    exact absurd ⟨rfl, show 12 ≤ himem * 1024 - 16 - (12 + 16) by omega⟩ (Heap.malloc_eq_none.mp hfull _ hfree)
  · refine ⟨m', HEAP_START + 16, H', _, ?_, hi', (memoryInit_wrote hpos hsmall hboot).trans (hi.klog_wrote hrun)⟩
    unfold startup
    dsimp only
    rw [hboot, Except.ok_bind, graphicsInit, hrun]
    rfl

/-- What holds when interrupts are enabled, and from then on: of runs of the code
with no interrupt inside, and of runs of the controllers. -/
structure Lasting (l : IdtLayout) (msgs : BootMessages) (st : Initialized) : Prop where
  enabled : checkInterruptsEnabled st.eflags = true
  /-- The timer ticks once a millisecond. -/
  period : st.pit.period? = some PIT_DIVIDER
  /-- Whatever is allocated, written and logged, uninterrupted, the log has all messages. -/
  logged : ∀ {events s}, Runs (fun s e s' => LogEvent.step? s e = some s') ⟨st.mem, st.systemlog, []⟩ events s →
    Logged s.mem (getlog s) (msgs.heap :: msgs.graphics :: events.filterMap LogEvent.msg?)
  /-- And after it, what a run of the controllers delivers is handled through its gate. -/
  handled : ∀ {events s es pm vector served prog eois},
    Runs (fun s e s' => LogEvent.step? s e = some s') ⟨st.mem, st.systemlog, []⟩ events s →
    Runs PicStep ⟨st.pics, .running⟩ es pm → pm.control = .handling vector served prog eois →
    ∀ {c : Cpu} {depth : Nat} (err : UInt32) (syscall : UInt32 → UInt32 → UInt32 → UInt32 → UInt32 → UInt32 → Prop),
      SameTable l s.mem c.mem → depth + 23 ≤ 2 ^ 30 →
      (∃ c', Interrupted l st.idtr (HandlerCall syscall (FRAME_WORDS + depth)) vector err c c') ∧
        ∀ c', Interrupted l st.idtr (HandlerCall syscall (FRAME_WORDS + depth)) vector err c c' →
          dispatched vector.toUInt32 c = .irq (vector.toUInt32 - MASTER_PIC_OFFSET) ∧ c'.eax = 0 ∧ Resumed depth c c'
  /-- And no exception is resumed. -/
  halts : ∀ {events s}, Runs (fun s e s' => LogEvent.step? s e = some s') ⟨st.mem, st.systemlog, []⟩ events s →
    ∀ {num : UInt8} {c c' : Cpu} {err syscall depth}, num < 0x20 → (stub num.toUInt32).isSome →
      SameTable l s.mem c.mem → ¬Interrupted l st.idtr (HandlerCall syscall depth) num err c c'

/-- **What `kernel_main` sets up lasts.** With the table below the heap, it comes
to enabling interrupts on every machine. In every run of code from there that
allocates and logs, with no interrupt inside, the log is complete; after it an
exception halts, and what any run of the controllers has them deliver finds its
handler. -/
theorem startup_lasts (hpos : 1 ≤ himem) (hsmall : himem ≤ 65535) (m : Mem) (pics : Pics) (pit : Pit) (eflags : UInt32)
    (hidt : l.idt + ENTRY_BYTES * IDT_SIZE ≤ HEAP_START) :
    ∃ st, startup l msgs himem m pics pit eflags = .ok st ∧ Lasting l msgs st := by
  obtain ⟨m', log, H, nodes, hrun, hi, hw⟩ := startup_ok msgs hpos hsmall l m pics pit eflags
  have htable : ∀ {events : List LogEvent} {s : LogState} {c : Cpu},
      Runs (fun s e s' => LogEvent.step? s e = some s') ⟨m', log, []⟩ events s → SameTable l s.mem c.mem →
      SameTable l (interruptsInit l m).1 c.mem := fun hruns hc a h₁ h₂ =>
    (hc a h₁ h₂).trans (SameTable.of_wrote hidt (hw.trans (LogEvent.runs_wrote hruns hi)) a h₁ h₂)
  refine ⟨_, hrun, enabled_set _, timerInit_period _, fun hruns => ?_,
    fun hruns hpics hcontrol c depth err syscall hc hdepth => ?_,
    fun hruns num c c' err syscall depth hnum hstub hc => ?_⟩
  · obtain ⟨H', nodes', hlog, hi'⟩ := LogEvent.runs_inv hruns hi
    exact hi'.logged
  · obtain ⟨hlo, hhi⟩ := delivered_vector pics hpics hcontrol
    exact irq_handled hlo hhi (htable hruns hc) hdepth
  · exact not_resumed hnum hstub (htable hruns hc)

end

/-- The messages of a boot. -/
def sampleMessages : BootMessages := ⟨0x3000, 0x4000, by decide, by decide⟩

/-- One more message after it. -/
theorem startup_lasts_message : ∃ st s,
    startup sampleLayout sampleMessages 1 zeroed powerUp ⟨.both, 0, 0, none⟩ 2 = .ok st ∧
      LogEvent.step? ⟨st.mem, st.systemlog, []⟩ (.klog 0x5000) = some s ∧
      Logged s.mem (getlog s) [0x3000, 0x4000, 0x5000] := by
  obtain ⟨st, hst, hlasting⟩ := @startup_lasts sampleLayout sampleMessages 1 (by decide) (by decide)
    zeroed powerUp ⟨.both, 0, 0, none⟩ 2 (by decide)
  have h : ((startup sampleLayout sampleMessages 1 zeroed powerUp ⟨.both, 0, 0, none⟩ 2).toOption.bind fun st =>
      LogEvent.step? ⟨st.mem, st.systemlog, []⟩ (.klog 0x5000)).isSome := by
    decide +kernel
  obtain ⟨s, hs⟩ := Option.isSome_iff_exists.mp h
  rw [hst] at hs
  have hs : LogEvent.step? ⟨st.mem, st.systemlog, []⟩ (.klog 0x5000) = some s := hs
  exact ⟨st, s, hst, hs, hlasting.logged (.single hs)⟩

end Ssmos

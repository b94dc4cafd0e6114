/-
The two waits of `kernel/timer.c` among calls, interrupts and the interrupt
flag. A wait ends through `timer_IRQ` only, and a system call enters it with
the flag cleared by its gate: the kernel hangs in it.

An interrupt is not only a count: its stub overwrites `eax`. What a wait has
there is the compiler's choice, so it is a parameter.
-/
import Ssmos.Syscalls

namespace Ssmos

/-! ## The machine -/

def PIT_TICKS_MS : UInt32 := 1
def VSYNC_MS : UInt32 := 20

/-- `1 << 9`. -/
def INTERRUPT_FLAG : UInt32 := 0x200

/-- `check_interrupts_enabled`, of the flags. -/
def checkInterruptsEnabled (eflags : UInt32) : Bool := eflags &&& INTERRUPT_FLAG ≠ 0

/-- `cli`. -/
def cleared (eflags : UInt32) : UInt32 := eflags &&& ~~~INTERRUPT_FLAG

theorem cleared_disabled (eflags : UInt32) : checkInterruptsEnabled (cleared eflags) = false := by
  rw [checkInterruptsEnabled, cleared, UInt32.and_assoc, show ~~~INTERRUPT_FLAG &&& INTERRUPT_FLAG = 0 by decide,
    UInt32.and_zero]
  decide

/-- Bits that were set are set. -/
theorem set_and {w : Nat} (x y : BitVec w) : (x ||| y) &&& y = y := by
  refine BitVec.eq_of_getLsbD_eq fun i _ => ?_
  rw [BitVec.getLsbD_and, BitVec.getLsbD_or]
  cases x.getLsbD i <;> cases y.getLsbD i <;> rfl

theorem enabled_set (eflags : UInt32) : checkInterruptsEnabled (eflags ||| INTERRUPT_FLAG) = true := by
  have h : (eflags ||| INTERRUPT_FLAG) &&& INTERRUPT_FLAG = INTERRUPT_FLAG := UInt32.toBitVec_inj.mp (set_and _ _)
  rw [checkInterruptsEnabled, h]
  decide

/-- The loop of `ksleep`, with its `ticksgoal`, and the loop of `ksync`. -/
inductive Wait
  | ksleep (ticksgoal : UInt32)
  | ksync
  deriving DecidableEq, Repr

/-- The loop's condition: it goes on. -/
def Wait.Unmet (ticks : UInt32) : Wait → Prop
  | .ksleep ticksgoal => ticks < ticksgoal
  | .ksync => ticks % VSYNC_MS ≠ 0

instance (ticks : UInt32) : DecidablePred (Wait.Unmet ticks)
  | .ksleep ticksgoal => inferInstanceAs (Decidable (ticks < ticksgoal))
  | .ksync => inferInstanceAs (Decidable (ticks % VSYNC_MS ≠ 0))

/-- Where the object code of `ksleep` keeps `ticksgoal` while it waits. -/
inductive Place
  | eax
  | elsewhere
  deriving DecidableEq, Repr

/-- What the stub of an IRQ leaves in `eax`: the result of `interrupt_handler`. -/
def IRQ_RESULT : UInt32 := 0

theorem Dispatch.irq_returns_iff {syscall : UInt32 → UInt32 → UInt32 → UInt32 → UInt32 → UInt32 → Prop}
    {line r : UInt32} : Dispatch.Returns syscall (.irq line) r ↔ r = IRQ_RESULT :=
  ⟨fun h => by cases h; rfl, fun h => h ▸ .irq⟩

/-- A wait after an interrupt between two turns of its loop. `ksync` has then
nothing to keep. -/
def Wait.interrupted (place : Place) : Wait → Wait
  | .ksleep ticksgoal => .ksleep (if place = .eax then IRQ_RESULT else ticksgoal)
  | .ksync => .ksync

/-- The wait that a call comes to, if it comes to one. -/
def KernelCall.wait? (ticks : UInt32) : KernelCall → Option Wait
  | .ksleep milliseconds =>
    if milliseconds.toInt32 ≤ 0 then none else some (.ksleep (ticks + milliseconds))
  | .ksync => some .ksync
  | _ => none

/-- Where control is: outside any call, in a wait, or in `haltdump`. A wait that
a system call entered returns by `iretd`, to the flags it saved. -/
inductive Control
  | running
  | waiting (w : Wait) (saved : Option UInt32)
  | halted
  deriving DecidableEq, Repr

structure Kernel where
  ticks : UInt32
  eflags : UInt32
  control : Control
  deriving DecidableEq, Repr

/-- What happens next: a direct call, an `int 0x80` with its registers, a timer
interrupt or that of another IRQ (before a turn of a wait's loop, or either of
them inside one of `ksync`'s), a turn of a wait's loop, `disable_interrupts`,
`enable_interrupts`, or a `haltdump`. -/
inductive KernelEvent
  | call (k : KernelCall)
  | syscall (eax ebx ecx edx esi : UInt32)
  | timer
  | irq
  | inTurn (timer : Bool)
  | turn
  | cli
  | sti
  | halt
  deriving DecidableEq, Repr

namespace Kernel

/-- Return from a call. -/
def leave (s : Kernel) : Option UInt32 → Kernel
  | none => { s with control := .running }
  | some eflags => { s with eflags := eflags, control := .running }

/-- A call: it waits, or does its work and returns. -/
def enter (s : Kernel) (k : KernelCall) (saved : Option UInt32) : Kernel :=
  match k.wait? s.ticks with
  | some w => { s with control := .waiting w saved }
  | none => s.leave saved

def halt (s : Kernel) : Kernel := { s with eflags := cleared s.eflags, control := .halted }

/-- Through the gate to `process_syscall`. -/
def syscall (s : Kernel) (eax ebx ecx edx esi : UInt32) : Kernel :=
  let entered := { s with eflags := s.eflags &&& GATE_MASK }
  match processSyscall eax ebx ecx edx esi with
  | .call k => entered.enter k (some s.eflags)
  | .value k => entered.enter k (some s.eflags)
  | .nothing => entered.leave (some s.eflags)
  | .haltdump _ => entered.halt

/-- A turn of the loop. -/
def turn (s : Kernel) (w : Wait) (saved : Option UInt32) : Kernel :=
  if w.Unmet s.ticks then s else s.leave saved

/-- An interrupt: what its handler adds to the counter, and what its stub does to
a wait. -/
def irq (place : Place) (tick : UInt32) (s : Kernel) : Kernel :=
  { s with
    ticks := s.ticks + tick
    control :=
      match s.control with
      | .waiting w saved => .waiting (w.interrupted place) saved
      | control => control }

/-- `timer_IRQ`. -/
def timer (place : Place) (s : Kernel) : Kernel := s.irq place PIT_TICKS_MS

/-- One event, if it can happen: calls are made outside of calls, and an
interrupt is delivered while the flag is set; its own gate and `iretd` leave
the flags as they were. One that comes between the load and the `div` of a turn
of `ksync` leaves `IRQ_RESULT` to divide, and the remainder is zero. -/
def step (place : Place) (s : Kernel) : KernelEvent → Option Kernel
  | .call k => if s.control = .running then some (s.enter k none) else none
  | .syscall eax ebx ecx edx esi =>
    if s.control = .running then some (s.syscall eax ebx ecx edx esi) else none
  | .timer => if checkInterruptsEnabled s.eflags then some (s.timer place) else none
  | .irq => if checkInterruptsEnabled s.eflags then some (s.irq place 0) else none
  | .inTurn timer =>
    match s.control with
    | .waiting .ksync saved =>
      if checkInterruptsEnabled s.eflags then
        some ((s.irq place (if timer then PIT_TICKS_MS else 0)).leave saved)
      else none
    | _ => none
  | .turn =>
    match s.control with
    | .waiting w saved => some (s.turn w saved)
    | _ => none
  | .cli => if s.control = .running then some { s with eflags := cleared s.eflags } else none
  | .sti => if s.control = .running then some { s with eflags := s.eflags ||| INTERRUPT_FLAG } else none
  | .halt => if s.control = .running then some s.halt else none

end Kernel

def KernelStep (place : Place) (s : Kernel) (e : KernelEvent) (s' : Kernel) : Prop :=
  s.step place e = some s'

/-! ## Spinning -/

/-- Wherever control waits on a condition that is unmet, interrupts are enabled. -/
def Awake (s : Kernel) : Prop :=
  ∀ w saved, s.control = .waiting w saved → w.Unmet s.ticks → checkInterruptsEnabled s.eflags

/-- A call that starts to wait. -/
def KernelCall.Blocks (ticks : UInt32) (k : KernelCall) : Prop := ∃ w, k.wait? ticks = some w ∧ w.Unmet ticks

/-- The events that keep the kernel awake: a wait that does not end at once is
entered with interrupts enabled, so not by a system call. -/
def KeepsAwake (s : Kernel) : KernelEvent → Prop
  | .call k => k.Blocks s.ticks → checkInterruptsEnabled s.eflags
  | .syscall eax ebx ecx edx esi => ∀ k, processSyscall eax ebx ecx edx esi = .call k → ¬k.Blocks s.ticks
  | _ => True

theorem gate_disables (eflags : UInt32) : checkInterruptsEnabled (eflags &&& GATE_MASK) = false := by
  have hmask : GATE_MASK &&& INTERRUPT_FLAG = 0 := by decide
  rw [checkInterruptsEnabled, UInt32.and_assoc, hmask, UInt32.and_zero]
  rfl

/-- The processor's part of a system call disables interrupts. -/
theorem deliver_disables (c : Cpu) : checkInterruptsEnabled (deliver c).eflags = false := gate_disables c.eflags

/-! ### One event -/

section

variable {place : Place} {s s' : Kernel} {e : KernelEvent} {k : KernelCall} {w : Wait} {saved : Option UInt32}

@[simp] theorem timer_ticks : (s.timer place).ticks = s.ticks + PIT_TICKS_MS := rfl

theorem irq_waiting (h : s.control = .waiting w saved) (tick : UInt32) :
    (s.irq place tick).control = .waiting (w.interrupted place) saved := by
  simp only [Kernel.irq, h]

theorem Awake.of_running (h : s.control = .running) : Awake s := fun _ _ hw => by
  rw [h] at hw
  cases hw

theorem leave_running : (s.leave saved).control = .running := by
  cases saved <;> rfl

/-- A call leaves the kernel awake if it does not wait with interrupts disabled. -/
theorem awake_enter : Awake (s.enter k saved) ↔ (k.Blocks s.ticks → checkInterruptsEnabled s.eflags) := by
  rw [Kernel.enter]
  cases hw : k.wait? s.ticks with
  | none =>
    refine iff_of_true (.of_running leave_running) fun hblocks => ?_
    obtain ⟨w, hw', -⟩ := hblocks
    rw [hw] at hw'
    cases hw'
  | some w =>
    constructor
    · intro hawake hblocks
      obtain ⟨w', hw', hunmet⟩ := hblocks
      cases hw.symm.trans hw'
      exact hawake w saved rfl hunmet
    · intro h w' saved' hcontrol hunmet
      cases hcontrol
      exact h ⟨w, hw, hunmet⟩

theorem Arm.of_ite {c : Prop} [Decidable c] {a b : Arm} {P : Prop} (h : (if c then a else b) = .value k)
    (ha : a = .value k → P) (hb : b = .value k → P) : P := by
  split at h
  next => exact ha h
  next => exact hb h

/-- The calls whose value is returned do not wait. -/
theorem value_wait {eax ebx ecx edx esi ticks : UInt32} (h : processSyscall eax ebx ecx edx esi = .value k) :
    k.wait? ticks = none := by
  refine Arm.of_ite h nofun fun h => Arm.of_ite h nofun fun h => Arm.of_ite h nofun fun h => ?_
  refine Arm.of_ite h (fun h => ?_) fun h => Arm.of_ite h (fun h => ?_) fun h => ?_
  · cases h
    rfl
  · cases h
    rfl
  · refine Arm.of_ite h nofun fun h => Arm.of_ite h nofun fun h => Arm.of_ite h nofun fun h => ?_
    refine Arm.of_ite h nofun fun h => Arm.of_ite h nofun fun h => Arm.of_ite h nofun fun h => ?_
    refine Arm.of_ite h nofun fun h => Arm.of_ite h nofun fun h => Arm.of_ite h nofun fun h => ?_
    refine Arm.of_ite h nofun fun h => Arm.of_ite h nofun nofun

theorem awake_syscall {eax ebx ecx edx esi : UInt32} : Awake (s.syscall eax ebx ecx edx esi) ↔
    ∀ k, processSyscall eax ebx ecx edx esi = .call k → ¬k.Blocks s.ticks := by
  rw [Kernel.syscall]
  cases harm : processSyscall eax ebx ecx edx esi with
  | call k =>
    simp only [awake_enter, gate_disables]
    exact ⟨fun h k' hk => by cases hk; simpa using h, fun h => by simpa using h k rfl⟩
  | value k =>
    refine iff_of_true ?_ nofun
    simp only [Kernel.enter, value_wait harm]
    exact .of_running rfl
  | nothing => exact iff_of_true (.of_running rfl) nofun
  | haltdump msg => exact iff_of_true (fun _ _ hw => nomatch hw) nofun

/-- **One event** keeps the kernel awake exactly if it is one that does. -/
theorem awake_step (h : KernelStep place s e s') : Awake s' ↔ Awake s ∧ KeepsAwake s e := by
  cases e with
  | call k =>
    obtain ⟨hrunning, rfl⟩ := Option.ite_some_none_eq_some.mp h
    exact awake_enter.trans (and_iff_right (.of_running hrunning)).symm
  | syscall eax ebx ecx edx esi =>
    obtain ⟨hrunning, rfl⟩ := Option.ite_some_none_eq_some.mp h
    exact awake_syscall.trans (and_iff_right (.of_running hrunning)).symm
  | timer =>
    obtain ⟨henabled, rfl⟩ := Option.ite_some_none_eq_some.mp h
    exact iff_of_true (fun _ _ _ _ => henabled) ⟨fun _ _ _ _ => henabled, trivial⟩
  | irq =>
    obtain ⟨henabled, rfl⟩ := Option.ite_some_none_eq_some.mp h
    exact iff_of_true (fun _ _ _ _ => henabled) ⟨fun _ _ _ _ => henabled, trivial⟩
  | inTurn =>
    rw [KernelStep, Kernel.step] at h
    split at h
    next =>
      obtain ⟨henabled, rfl⟩ := Option.ite_some_none_eq_some.mp h
      exact iff_of_true (.of_running leave_running) ⟨fun _ _ _ _ => henabled, trivial⟩
    next => cases h
  | turn =>
    rw [KernelStep, Kernel.step] at h
    split at h
    next w saved hcontrol =>
      cases h
      rw [Kernel.turn]
      split
      next => exact (and_iff_left trivial).symm
      next hmet =>
        refine iff_of_true (.of_running leave_running) ⟨fun w' saved' hcontrol' hunmet => ?_, trivial⟩
        cases hcontrol.symm.trans hcontrol'
        exact absurd hunmet hmet
    next => cases h
  | cli =>
    obtain ⟨hrunning, rfl⟩ := Option.ite_some_none_eq_some.mp h
    exact iff_of_true (.of_running hrunning) ⟨.of_running hrunning, trivial⟩
  | sti =>
    obtain ⟨hrunning, rfl⟩ := Option.ite_some_none_eq_some.mp h
    exact iff_of_true (.of_running hrunning) ⟨.of_running hrunning, trivial⟩
  | halt =>
    obtain ⟨hrunning, rfl⟩ := Option.ite_some_none_eq_some.mp h
    exact iff_of_true (fun _ _ hw => nomatch hw) ⟨.of_running hrunning, trivial⟩

end

/-! ## Runs -/

section

variable {place : Place} {s s' : Kernel} {e : KernelEvent} {es : List KernelEvent} {w : Wait}
  {saved : Option UInt32}

/-- While a call waits interrupts come, if they may, and the loop's test comes
out. -/
theorem KernelStep.waiting (hcontrol : s.control = .waiting w saved) (hstep : KernelStep place s e s') :
    checkInterruptsEnabled s.eflags ∧
        (e = .timer ∧ s' = s.timer place ∨ e = .irq ∧ s' = s.irq place 0 ∨ w = .ksync) ∨
      (e = .turn ∧ w.Unmet s.ticks ∧ s' = s) ∨ (e = .turn ∧ ¬w.Unmet s.ticks ∧ s' = s.leave saved) := by
  have hnot : s.control ≠ .running := by
    rw [hcontrol]
    nofun
  cases e with
  | timer =>
    obtain ⟨henabled, rfl⟩ := Option.ite_some_none_eq_some.mp hstep
    exact .inl ⟨henabled, .inl ⟨rfl, rfl⟩⟩
  | irq =>
    obtain ⟨henabled, rfl⟩ := Option.ite_some_none_eq_some.mp hstep
    exact .inl ⟨henabled, .inr (.inl ⟨rfl, rfl⟩)⟩
  | inTurn =>
    rw [KernelStep, Kernel.step, hcontrol] at hstep
    cases w with
    | ksync => exact .inl ⟨(Option.ite_some_none_eq_some.mp hstep).1, .inr (.inr rfl)⟩
    | ksleep ticksgoal => cases hstep
  | turn =>
    rw [KernelStep, Kernel.step, hcontrol] at hstep
    cases hstep
    rw [Kernel.turn]
    split
    next hunmet => exact .inr (.inl ⟨rfl, hunmet, rfl⟩)
    next hmet => exact .inr (.inr ⟨rfl, hmet, rfl⟩)
  | call => exact absurd (Option.ite_some_none_eq_some.mp hstep).1 hnot
  | syscall => exact absurd (Option.ite_some_none_eq_some.mp hstep).1 hnot
  | cli => exact absurd (Option.ite_some_none_eq_some.mp hstep).1 hnot
  | sti => exact absurd (Option.ite_some_none_eq_some.mp hstep).1 hnot
  | halt => exact absurd (Option.ite_some_none_eq_some.mp hstep).1 hnot

/-- With interrupts disabled an unmet wait is where everything ends: only its
loop turns. -/
theorem spins_forever (h : ¬Awake s) (hrun : Runs (KernelStep place) s es s') : s' = s := by
  simp only [Awake, not_forall] at h
  obtain ⟨w, saved, hcontrol, hunmet, hdisabled⟩ := h
  refine hrun.invariant (I := fun t => t = s) (fun {t e t'} ht hstep => ?_) rfl
  subst ht
  rcases hstep.waiting hcontrol with ⟨henabled, -⟩ | ⟨-, -, hsame⟩ | ⟨-, hmet, -⟩
  · exact absurd henabled hdisabled
  · exact hsame
  · exact absurd hunmet hmet

/-- A count at which the loop ends. -/
def Wait.target : Wait → UInt32
  | .ksleep ticksgoal => ticksgoal
  | .ksync => 0

theorem Wait.not_unmet_target (w : Wait) : ¬w.Unmet w.target := by
  cases w with
  | ksleep ticksgoal => exact UInt32.lt_irrefl ticksgoal
  | ksync => exact fun h => h rfl

/-- An interrupt does not unmake a wait that is over. -/
theorem Wait.interrupted_met {ticks : UInt32} (h : ¬w.Unmet ticks) : ¬(w.interrupted place).Unmet ticks := by
  cases w with
  | ksleep ticksgoal =>
    rw [Wait.interrupted]
    split
    · exact UInt32.not_lt.mpr UInt32.zero_le
    · exact h
  | ksync => exact h

/-- Interrupts come one after another, without a turn. -/
theorem timers_run (n : Nat) (hcontrol : s.control = .waiting w saved)
    (henabled : checkInterruptsEnabled s.eflags) : Runs (KernelStep place) s (List.replicate n .timer)
      { s with
        ticks := s.ticks + UInt32.ofNat n
        control := .waiting ((Wait.interrupted place)^[n] w) saved } := by
  induction n generalizing s w with
  | zero =>
    refine Runs.nil_iff.mpr ?_
    rw [show UInt32.ofNat 0 = 0 from rfl, UInt32.add_zero, Function.iterate_zero, id, ← hcontrol]
  | succ n ih =>
    have hnext := ih (s := s.timer place) (irq_waiting hcontrol _) henabled
    have hcount : s.ticks + PIT_TICKS_MS + UInt32.ofNat n = s.ticks + UInt32.ofNat (n + 1) := by
      rw [UInt32.add_assoc, UInt32.ofNat_add, UInt32.add_comm (UInt32.ofNat n)]
      rfl
    rw [timer_ticks, hcount] at hnext
    exact .cons (if_pos henabled) hnext

theorem Wait.interrupted_target (n : Nat) : ¬((Wait.interrupted place)^[n] w).Unmet w.target := by
  induction n with
  | zero => exact w.not_unmet_target
  | succ n ih =>
    rw [Function.iterate_succ_apply']
    exact Wait.interrupted_met ih

/-- With interrupts enabled the timer ends every wait. -/
theorem wait_ends (hcontrol : s.control = .waiting w saved) (henabled : checkInterruptsEnabled s.eflags) :
    ∃ n, Runs (KernelStep place) s (List.replicate n .timer ++ [.turn])
      ({ s with ticks := w.target }.leave saved) := by
  have hticks : s.ticks + UInt32.ofNat (w.target - s.ticks).toNat = w.target := by
    rw [UInt32.ofNat_toNat, UInt32.add_comm, UInt32.sub_add_cancel]
  have htimers := @timers_run place s w saved (w.target - s.ticks).toNat hcontrol henabled
  rw [hticks] at htimers
  refine ⟨_, htimers.append (.single ?_)⟩
  rw [KernelStep, Kernel.step]
  simp only [Kernel.turn, if_neg (Wait.interrupted_target _)]
  cases saved <;> rfl

/-- **The kernel stays awake** through a run exactly if every event of it keeps
it so: it never waits on the timer with interrupts disabled. -/
theorem awake_iff (hs : s.control = .running) (hrun : Runs (KernelStep place) s es s') :
    Awake s' ↔ Runs (fun s e s' => KernelStep place s e s' ∧ KeepsAwake s e) s es s' := by
  have hdet : ∀ {s : Kernel} {e s₁ s₂}, KernelStep place s e s₁ → KernelStep place s e s₂ → s₁ = s₂ :=
    fun h₁ h₂ => Option.some.inj (h₁.symm.trans h₂)
  have hiff := hrun.iff_all_good (I := fun _ => True) (J := Awake) KeepsAwake trivial hdet
    (fun _ _ => trivial) (fun _ h => awake_step h)
  exact hiff.trans (and_iff_right (.of_running hs))

end

/-- The kernel after `enable_interrupts`, a millisecond after boot. -/
def booted : Kernel := { ticks := 1, eflags := 0x202, control := .running }

/-- `sleep(10)` hangs. -/
theorem sleep_spins : ∃ s, Runs (KernelStep .eax) booted [.syscall 0x0 10 0 0 0] s ∧ ¬Awake s ∧
    ∀ es s', Runs (KernelStep .eax) s es s' → s' = s := by
  have hspins : ¬Awake (booted.syscall 0x0 10 0 0 0) := fun h =>
    absurd (h (.ksleep 11) (some 0x202) (by decide) (by decide)) (by decide)
  exact ⟨_, .single rfl, hspins, fun _ _ => spins_forever hspins⟩

theorem awake_iff_ksync : ∃ s,
    Runs (KernelStep .eax) booted [.syscall 0x0 0 0 0 0, .call .ksync, .timer, .turn, .timer] s ∧
    Awake s ∧ Runs (fun s e s' => KernelStep .eax s e s' ∧ KeepsAwake s e) booted
      [.syscall 0x0 0 0 0 0, .call .ksync, .timer, .turn, .timer] s := by
  have hrun : Runs (KernelStep .eax) booted [.syscall 0x0 0 0 0 0, .call .ksync, .timer, .turn, .timer]
      { ticks := 3, eflags := 0x202, control := .waiting .ksync none } :=
    .cons rfl (.cons rfl (.cons rfl (.cons rfl (.cons rfl .nil))))
  have hawake : Awake { ticks := 3, eflags := 0x202, control := .waiting .ksync none } := fun _ _ _ _ => by decide
  exact ⟨_, hrun, hawake, (awake_iff rfl hrun).mp hawake⟩

end Ssmos

/-
Interrupts through the table. What the controllers deliver after `PIC_init`, in
whatever run, has a gate and is handled; an exception has one as well, and is
not resumed.
-/
import Ssmos.Idt
import Ssmos.PicFacts
import Ssmos.Waits

namespace Ssmos

/-! ## The vectors of the controllers -/

/-- The pair after `PIC_init`, whatever is in service. -/
structure Programmed (s : Pics) : Prop where
  masterInit : s.master.init = []
  slaveInit : s.slave.init = []
  masterOffset : s.master.offset = 0x20
  slaveOffset : s.slave.offset = 0x28

/-- A program that sends commands, and no initialization word. -/
def PortProg.Mild : PortProg → Prop
  | .done => True
  | .outb port val rest => (port = MASTER_PIC_CMD ∨ port = SLAVE_PIC_CMD) ∧ val.toBitVec.getLsbD 4 = false ∧ rest.Mild
  | .inb _ rest => ∀ v, (rest v).Mild

theorem acknowledge_mild (irq : UInt8) : (acknowledge irq).Mild := by
  unfold acknowledge
  split
  · exact ⟨.inr rfl, by decide, .inl rfl, by decide, trivial⟩
  · exact ⟨.inl rfl, by decide, trivial⟩

theorem sendEOI_mild (irq : UInt8) : (sendEOI irq).Mild := by
  unfold sendEOI
  dsimp only
  generalize (if irq ≥ MASTER_PIC_OFFSET.toUInt8 then irq - MASTER_PIC_OFFSET.toUInt8 else irq) = line
  split
  · refine ⟨.inl rfl, by decide, fun irr => ?_⟩
    unfold checkIrr
    split
    · trivial
    · exact acknowledge_mild _
  · exact acknowledge_mild _

theorem handler_mild (vector : UInt8) : (handler vector).Mild := by
  unfold handler
  split
  · exact sendEOI_mild _
  · trivial

section

variable {s s' : Pics}

theorem Programmed.requests (h : Programmed s) (hr : OnlyRequests s s') : Programmed s' := by
  obtain ⟨_, _, rfl⟩ := hr
  exact ⟨h.masterInit, h.slaveInit, h.masterOffset, h.slaveOffset⟩

/-- A command that is no initialization word. -/
theorem Pic.command_kept (p : Pic) {val : UInt8} (hval : val.toBitVec.getLsbD 4 = false) :
    (p.command val).init = p.init ∧ (p.command val).offset = p.offset := by
  unfold Pic.command
  rw [hval, if_neg Bool.false_ne_true]
  split
  · split <;> exact ⟨rfl, rfl⟩
  · split
    · unfold Pic.eoi
      split <;> exact ⟨rfl, rfl⟩
    · exact ⟨rfl, rfl⟩

theorem Programmed.command (h : Programmed s) {port : Nat} {val : UInt8}
    (hport : port = MASTER_PIC_CMD ∨ port = SLAVE_PIC_CMD) (hval : val.toBitVec.getLsbD 4 = false) :
    Programmed (s.outb port val) := by
  rcases hport with rfl | rfl
  · obtain ⟨hinit, hoffset⟩ := s.master.command_kept hval
    have : Programmed { s with master := s.master.command val } :=
      ⟨hinit.trans h.masterInit, h.slaveInit, hoffset.trans h.masterOffset, h.slaveOffset⟩
    exact this.requests (onlyRequests_cascade _)
  · obtain ⟨hinit, hoffset⟩ := s.slave.command_kept hval
    have : Programmed { s with slave := s.slave.command val } :=
      ⟨h.masterInit, hinit.trans h.slaveInit, h.masterOffset, hoffset.trans h.slaveOffset⟩
    exact this.requests (onlyRequests_cascade _)

theorem Programmed.mask (h : Programmed s) (masterMask slaveMask : UInt8) :
    Programmed ((s.outb MASTER_PIC_DATA masterMask).outb SLAVE_PIC_DATA slaveMask) := by
  constructor <;> simp [h.masterInit, h.slaveInit, h.masterOffset, h.slaveOffset]

theorem Programmed.settle (h : Programmed s) : Programmed s.settle.2 := by
  unfold Pics.settle
  split
  · exact ⟨h.masterInit, h.slaveInit, h.masterOffset, h.slaveOffset⟩
  · exact h

/-- The vector given is one of the 16 the pair was programmed with. -/
theorem Programmed.deliver (h : Programmed s) (n : Option (Fin 8)) :
    Programmed (s.deliver n).2 ∧ 0x20 ≤ (s.deliver n).1.1 ∧ (s.deliver n).1.1 ≤ 0x2F := by
  have hmaster : ∀ k, 0x20 ≤ s.master.vector k ∧ s.master.vector k ≤ 0x2F := by
    intro k
    rw [Pic.vector, h.masterOffset]
    revert k
    decide
  have hslave : ∀ k, 0x20 ≤ s.slave.vector k ∧ s.slave.vector k ≤ 0x2F := by
    intro k
    rw [Pic.vector, h.slaveOffset]
    revert k
    decide
  unfold Pics.deliver
  split
  · exact ⟨h, hmaster 7⟩
  · split
    · split
      · next k _ =>
        have : Programmed { s with slave := s.slave.take k } :=
          ⟨h.masterInit, h.slaveInit, h.masterOffset, h.slaveOffset⟩
        exact ⟨this.requests (onlyRequests_cascade _), hslave k⟩
      · exact ⟨h, hslave 7⟩
    · exact ⟨h, hmaster _⟩

theorem picInit_programmed (s : Pics) : Programmed (picInit.exec s) :=
  have h := picInit_serving s
  ⟨h.masterInit, h.slaveInit, h.masterOffset, h.slaveOffset⟩

/-- What every state of a run keeps: the pair stays programmed, and a handler
that runs is that of one of its vectors. -/
structure Vectored (s : PicMachine) : Prop where
  programmed : Programmed s.pics
  handling : ∀ {vector served prog eois}, s.control = .handling vector served prog eois →
    (0x20 ≤ vector ∧ vector ≤ 0x2F) ∧ prog.Mild

theorem vectored_step {m m' : PicMachine} {e : PicEvent} (h : Vectored m) (hstep : PicStep m e m') : Vectored m' := by
  obtain ⟨s, control⟩ := m
  obtain ⟨hs, hc⟩ := h
  dsimp only at hs hc
  have hrequests : ∀ s', OnlyRequests s s' → Vectored ⟨s', control⟩ := fun s' hr => ⟨hs.requests hr, hc⟩
  cases e with
  | raise irq =>
    cases hstep
    exact hrequests _ (onlyRequests_onInput (fun _ _ => ⟨_, rfl⟩) s irq)
  | withdraw irq =>
    cases hstep
    exact hrequests _ (onlyRequests_onInput (fun _ _ => ⟨_, rfl⟩) s irq)
  | mask masterMask slaveMask =>
    cases control with
    | running =>
      cases hstep
      exact ⟨hs.mask _ _, nofun⟩
    | _ => cases hstep
  | accept =>
    cases control with
    | running =>
      obtain ⟨-, rfl⟩ := Option.ite_some_none_eq_some.mp hstep
      exact ⟨hs, nofun⟩
    | _ => cases hstep
  | pulse =>
    cases control with
    | accepted =>
      cases hstep
      exact ⟨hs.settle, nofun⟩
    | settled n =>
      cases hstep
      obtain ⟨hd, hrange⟩ := hs.deliver n
      refine ⟨hd, fun heq => ?_⟩
      cases heq
      exact ⟨hrange, handler_mild _⟩
    | _ => cases hstep
  | io =>
    cases control with
    | handling vector served prog eois =>
      obtain ⟨hrange, hmild⟩ := hc rfl
      cases prog with
      | done => cases hstep
      | outb port val rest =>
        cases hstep
        obtain ⟨hport, hval, hrest⟩ := hmild
        exact ⟨hs.command hport hval, fun heq => by cases heq; exact ⟨hrange, hrest⟩⟩
      | inb port rest =>
        cases hstep
        exact ⟨hs, fun heq => by cases heq; exact ⟨hrange, hmild _⟩⟩
    | _ => cases hstep
  | iret =>
    cases control with
    | handling vector served prog eois =>
      cases prog with
      | done =>
        cases hstep
        exact ⟨hs, nofun⟩
      | _ => cases hstep
    | _ => cases hstep

end

/-! ## Through the gate -/

/-- Which of the two stubs a vector has is what the processor pushes for it. -/
theorem stub_pushesError {num : UInt8} (h : (stub num.toUInt32).isSome) : stub num.toUInt32 =
    some (if pushesError num then withError num.toUInt32 else noError num.toUInt32) := by
  have hall : ∀ b : BitVec 8, (stub (UInt8.ofBitVec b).toUInt32).isSome →
      ((let n := (UInt8.ofBitVec b).toUInt32
        n = 0x8 ∨ 0xA ≤ n ∧ n ≤ 0xE ∨ n = 0x11 ∨ n = 0x1E) ↔ pushesError (UInt8.ofBitVec b)) := by
    decide +kernel
  have herror := hall num.toBitVec h
  dsimp only at herror
  rw [UInt8.ofBitVec_toBitVec] at herror
  unfold stub at h ⊢
  split
  · next hwith => rw [if_pos (herror.mp hwith)]
  · next hwith =>
    rw [if_neg hwith] at h
    rw [if_neg (fun he => hwith (herror.mpr he))]
    split
    · rfl
    · next hnone =>
      rw [if_neg hnone] at h
      cases h

/-- Where `common_handle` calls C, from a stub with an error code on the stack. -/
def Cpu.called (e : Cpu) (num : UInt32) : Cpu := ((((e.push e.buffer).pushad).push num).pushad)

theorem runs_withError {handler : Cpu → Cpu → Prop} {num : UInt32} {e c' : Cpu} :
    Runs (Instr.Step handler) e (withError num) c' ↔ ∃ ret r, handler ((e.called num).push ret) r ∧ c' = left r := by
  simp only [withError, commonHandle, List.cons_append, List.nil_append, Runs.cons_iff, Runs.nil_iff,
    Instr.Step, exists_eq_left]
  constructor
  · intro hx
    obtain ⟨r, ⟨ret, hr⟩, h⟩ := hx
    exact ⟨ret, r, hr, h⟩
  · intro hx
    obtain ⟨ret, r, hr, h⟩ := hx
    exact ⟨r, ⟨ret, hr⟩, h⟩

/-- The other stub pushes a zero where an error code would be. -/
theorem runs_noError_push {handler : Cpu → Cpu → Prop} {num : UInt32} {e c' : Cpu} :
    Runs (Instr.Step handler) e (noError num) c' ↔ Runs (Instr.Step handler) (e.push 0) (withError num) c' := by
  rw [noError, List.cons_append, Runs.cons_iff]
  constructor
  · intro hx
    obtain ⟨e₁, h, hr⟩ := hx
    exact h ▸ hr
  · intro hr
    exact ⟨_, rfl, hr⟩

theorem Cpu.push_eip (e : Cpu) (a v : UInt32) : ({ e with eip := a } : Cpu).push v = { e.push v with eip := a } := rfl

theorem Cpu.pushad_eip (e : Cpu) (a : UInt32) : ({ e with eip := a } : Cpu).pushad = { e.pushad with eip := a } := by
  simp only [Cpu.pushad, Cpu.push_eip]

theorem Cpu.called_eip (e : Cpu) (a num : UInt32) :
    ({ e with eip := a } : Cpu).called num = { e.called num with eip := a } := by
  simp only [Cpu.called, Cpu.push_eip, Cpu.pushad_eip]

/-- What C does cannot depend on `eip`. -/
theorem handlerCall_eip {syscall : UInt32 → UInt32 → UInt32 → UInt32 → UInt32 → UInt32 → Prop} {depth : Nat}
    {e r : Cpu} {a : UInt32} : HandlerCall syscall depth { e with eip := a } r ↔ HandlerCall syscall depth e r :=
  ⟨fun h => ⟨⟨h.ebx, h.esp, h.ebp, h.esi, h.edi, h.buffer, h.stack⟩, h.returns⟩,
    fun h => ⟨⟨h.ebx, h.esp, h.ebp, h.esi, h.edi, h.buffer, h.stack⟩, h.returns⟩⟩

/-- Its ninth argument is the vector. -/
theorem Cpu.called_num (e : Cpu) (num ret : UInt32) : ((e.called num).push ret).word 9 = num := by
  have hnil : (e.push e.buffer).Has [] := trivial
  have h := (((hnil.pushad (by decide)).push num (by simp [Cpu.saved])).pushad (by simp [Cpu.saved])).push ret
    (by simp [Cpu.saved])
  exact h.word (i := 9) rfl

section

variable {l : IdtLayout} {m : Mem} {num : UInt8} {err : UInt32} {c c' : Cpu} {handler : Cpu → Cpu → Prop}

/-- The processor in the stub of a vector, an error code or its zero pushed. -/
def Cpu.inStub (l : IdtLayout) (num : UInt8) (err : UInt32) (c : Cpu) : Cpu :=
  { deliver c with eip := l.stubAddress num }.push (if pushesError num then err else 0)

/-- **An interrupt is its stub's call of C**, and what the stub does after it. -/
theorem interrupted_iff (htable : SameTable l (interruptsInit l m).1 c.mem) (hstub : (stub num.toUInt32).isSome) :
    Interrupted l (interruptsInit l m).2 handler num err c c' ↔
      ∃ ret r, handler (((c.inStub l num err).called num.toUInt32).push ret) r ∧ c' = left r := by
  have hgate := interruptsInit_gate? htable num
  rw [if_pos hstub] at hgate
  have hcode := stub_pushesError hstub
  rw [Cpu.inStub]
  unfold Interrupted Cpu.interrupt
  rw [hgate]
  simp only [Option.map_some, Option.some.injEq]
  cases herror : pushesError num with
  | true =>
    simp only [herror, if_true] at hcode ⊢
    rw [← runs_withError]
    constructor
    · intro hx
      obtain ⟨c₁, n, code, rfl, hn, hstub', hrun⟩ := hx
      obtain rfl := l.labels n num (by rw [hstub']; rfl) hstub hn
      rw [hcode, Option.some.injEq] at hstub'
      exact hstub' ▸ hrun
    · intro hrun
      exact ⟨_, num, _, rfl, rfl, hcode, hrun⟩
  | false =>
    simp only [herror, Bool.false_eq_true, if_false] at hcode ⊢
    rw [← runs_withError, ← runs_noError_push]
    constructor
    · intro hx
      obtain ⟨c₁, n, code, rfl, hn, hstub', hrun⟩ := hx
      obtain rfl := l.labels n num (by rw [hstub']; rfl) hstub hn
      rw [hcode, Option.some.injEq] at hstub'
      exact hstub' ▸ hrun
    · intro hrun
      exact ⟨_, num, _, rfl, rfl, hcode, hrun⟩

theorem exception_dispatch (hexception : num < 0x20) (ret : UInt32) :
    (((c.inStub l num err).called num.toUInt32).push ret).dispatch = .haltdump "EXCEPTION!" := by
  have hrange : ∀ b : BitVec 8, UInt8.ofBitVec b < 0x20 →
      0 ≤ (UInt8.ofBitVec b).toUInt32.toInt32 ∧ (UInt8.ofBitVec b).toUInt32.toInt32 < 0x20 := by decide +kernel
  rw [Cpu.dispatch, Cpu.called_num, interruptHandler, if_pos (hrange num.toBitVec hexception)]

/-- The stub of an exception never gets to its `iretd`. -/
theorem not_resumed {syscall : UInt32 → UInt32 → UInt32 → UInt32 → UInt32 → UInt32 → Prop} {depth : Nat}
    (hexception : num < 0x20) (hstub : (stub num.toUInt32).isSome) (htable : SameTable l (interruptsInit l m).1 c.mem) :
    ¬Interrupted l (interruptsInit l m).2 (HandlerCall syscall depth) num err c c' := by
  intro h
  obtain ⟨ret, r, hr, -⟩ := (interrupted_iff htable hstub).mp h
  have hreturns := hr.returns
  rw [exception_dispatch hexception] at hreturns
  cases hreturns

/-- **No exception is resumed.** C is entered with interrupts off, told of an
exception, and halts; the stub never gets to its `iretd`. -/
theorem exception_halts (hexception : num < 0x20) (hstub : (stub num.toUInt32).isSome)
    (htable : SameTable l (interruptsInit l m).1 c.mem) :
    (∃ e : Cpu, (∀ ret, (e.push ret).dispatch = .haltdump "EXCEPTION!") ∧ checkInterruptsEnabled e.eflags = false ∧
      ∀ handler c', Interrupted l (interruptsInit l m).2 handler num err c c' ↔
        ∃ ret r, handler (e.push ret) r ∧ c' = left r) ∧
    ∀ syscall depth c', ¬Interrupted l (interruptsInit l m).2 (HandlerCall syscall depth) num err c c' := by
  refine ⟨⟨_, exception_dispatch hexception, ?_, fun handler c' => interrupted_iff htable hstub⟩,
    fun _ _ _ => not_resumed hexception hstub htable⟩
  have hmask : GATE_MASK &&& INTERRUPT_FLAG = 0 := by decide
  have hflags : ((c.inStub l num err).called num.toUInt32).eflags = c.eflags &&& GATE_MASK := rfl
  rw [checkInterruptsEnabled, hflags, UInt32.and_assoc, hmask, UInt32.and_zero]
  decide

/-- A service through the table, for a vector without an error code, is one
through the stub. -/
theorem interrupted_serviced {depth : Nat} {syscall : UInt32 → UInt32 → UInt32 → UInt32 → UInt32 → UInt32 → Prop}
    (htable : SameTable l (interruptsInit l m).1 c.mem) (hstub : (stub num.toUInt32).isSome)
    (herror : pushesError num = false) :
    Interrupted l (interruptsInit l m).2 (HandlerCall syscall (FRAME_WORDS + depth)) num err c c' ↔
      Serviced syscall depth num.toUInt32 c c' := by
  have hcode := stub_pushesError hstub
  rw [herror, if_neg Bool.false_ne_true] at hcode
  rw [interrupted_iff htable hstub, Serviced, hcode]
  simp only [Option.some.injEq, exists_eq_left', runs_noError]
  have hin : c.inStub l num err = { (deliver c).push 0 with eip := l.stubAddress num } := by
    rw [Cpu.inStub, herror]
    rfl
  simp only [hin, Cpu.called_eip, Cpu.push_eip, handlerCall_eip]
  rfl

/-- A vector of the pair, as the stubs take it. -/
theorem irq_vector (hlo : 0x20 ≤ num) (hhi : num ≤ 0x2F) :
    0x20 ≤ num.toUInt32 ∧ num.toUInt32 ≤ 0x2F ∧ pushesError num = false := by
  have hall : ∀ b : BitVec 8, 0x20 ≤ UInt8.ofBitVec b → UInt8.ofBitVec b ≤ 0x2F →
      0x20 ≤ (UInt8.ofBitVec b).toUInt32 ∧ (UInt8.ofBitVec b).toUInt32 ≤ 0x2F ∧
        pushesError (UInt8.ofBitVec b) = false := by
    decide +kernel
  exact hall num.toBitVec hlo hhi

/-- An IRQ goes through its gate, and gives the interrupted code back all but `eax`. -/
theorem irq_handled {depth : Nat} {syscall : UInt32 → UInt32 → UInt32 → UInt32 → UInt32 → UInt32 → Prop}
    (hlo : 0x20 ≤ num) (hhi : num ≤ 0x2F) (htable : SameTable l (interruptsInit l m).1 c.mem)
    (hdepth : depth + 23 ≤ 2 ^ 30) :
    (∃ c', Interrupted l (interruptsInit l m).2 (HandlerCall syscall (FRAME_WORDS + depth)) num err c c') ∧
      ∀ c', Interrupted l (interruptsInit l m).2 (HandlerCall syscall (FRAME_WORDS + depth)) num err c c' →
        dispatched num.toUInt32 c = .irq (num.toUInt32 - MASTER_PIC_OFFSET) ∧ c'.eax = 0 ∧ Resumed depth c c' := by
  obtain ⟨hlo, hhi, herror⟩ := irq_vector hlo hhi
  have hcode := stub_irq hlo hhi
  have hiff : ∀ c', Interrupted l (interruptsInit l m).2 (HandlerCall syscall (FRAME_WORDS + depth)) num err c c' ↔
      Serviced syscall depth num.toUInt32 c c' :=
    fun c' => interrupted_serviced htable (hcode ▸ rfl) herror
  refine ⟨?_, fun c' h => ?_⟩
  · obtain ⟨c', h⟩ : ∃ c', Serviced syscall depth num.toUInt32 c c' :=
      exists_serviced hcode (v := 0) (by rw [dispatched_irq hlo hhi]; exact .irq)
    exact ⟨c', (hiff c').mpr h⟩
  · exact ⟨dispatched_irq hlo hhi, ((hiff c').mp h).irq hlo hhi hdepth⟩

/-- After `PIC_init` the controllers deliver the 16 vectors of IRQs only. -/
theorem delivered_vector (s : Pics) {es : List PicEvent} {pm : PicMachine} {vector : UInt8} {served : Bool}
    {prog : PortProg} {eois : List Nat} (hrun : Runs PicStep ⟨picInit.exec s, .running⟩ es pm)
    (hcontrol : pm.control = .handling vector served prog eois) : 0x20 ≤ vector ∧ vector ≤ 0x2F :=
  have hvectored := hrun.invariant (I := Vectored) vectored_step ⟨picInit_programmed s, nofun⟩
  (hvectored.handling hcontrol).1

/-- **Whatever the controllers deliver** after `PIC_init`, in whatever run, goes
through its gate: it is handled as an IRQ, and gives the interrupted code back
all but `eax`. -/
theorem delivered_handled (s : Pics) {es : List PicEvent} {pm : PicMachine} {vector : UInt8} {served : Bool}
    {prog : PortProg} {eois : List Nat} {depth : Nat}
    {syscall : UInt32 → UInt32 → UInt32 → UInt32 → UInt32 → UInt32 → Prop}
    (hrun : Runs PicStep ⟨picInit.exec s, .running⟩ es pm) (hcontrol : pm.control = .handling vector served prog eois)
    (htable : SameTable l (interruptsInit l m).1 c.mem) (hdepth : depth + 23 ≤ 2 ^ 30) :
    (∃ c', Interrupted l (interruptsInit l m).2 (HandlerCall syscall (FRAME_WORDS + depth)) vector err c c') ∧
      ∀ c', Interrupted l (interruptsInit l m).2 (HandlerCall syscall (FRAME_WORDS + depth)) vector err c c' →
        dispatched vector.toUInt32 c = .irq (vector.toUInt32 - MASTER_PIC_OFFSET) ∧ c'.eax = 0 ∧ Resumed depth c c' :=
  have hrange := delivered_vector s hrun hcontrol
  irq_handled hrange.1 hrange.2 htable hdepth

end

/-- Running code in a memory whose table was just set up. -/
def interruptible : Cpu := { running 1 with mem := (interruptsInit sampleLayout zeroed).1 }

/-- A page fault. -/
theorem exception_halts_fault : ¬∃ c', Interrupted sampleLayout (interruptsInit sampleLayout zeroed).2
    (HandlerCall (fun _ _ _ _ _ _ => False) 4) 14 2 interruptible c' :=
  fun ⟨_, h⟩ => (exception_halts (by decide) (by decide) fun _ _ _ => rfl).2 _ _ _ h

/-- The timer's first tick. -/
theorem delivered_handled_timer : ∃ c', Interrupted sampleLayout (interruptsInit sampleLayout zeroed).2
    (HandlerCall (fun _ _ _ _ _ _ => False) (FRAME_WORDS + 4)) 0x20 0 interruptible c' ∧ c'.eax = 0 := by
  obtain ⟨s, hrun⟩ : ∃ s, Runs PicStep ⟨picInit.exec powerUp, .running⟩ [.raise 0, .accept, .pulse, .pulse]
      ⟨s, .handling 0x20 true (handler 0x20) []⟩ :=
    ⟨_, .cons rfl (.cons rfl (.cons rfl (.cons rfl .nil)))⟩
  have htable : SameTable sampleLayout (interruptsInit sampleLayout zeroed).1 interruptible.mem := fun _ _ _ => rfl
  have hdepth : 4 + 23 ≤ 2 ^ 30 := by decide
  obtain ⟨⟨c', h⟩, hall⟩ := delivered_handled powerUp hrun rfl htable hdepth
  exact ⟨c', h, (hall c' h).2.1⟩

end Ssmos

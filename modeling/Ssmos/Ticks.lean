/-
IRQs from the line to the counter: `process_irq` (`kernel/irq.c`) and
`timer_IRQ` (`kernel/timer.c`) on the machine of the controllers.

No request is handled twice, and one is lost only where another of its line
still waits to be acknowledged, or where the line fell again. So the counter
never runs ahead of the timer.
-/
import Ssmos.Gates

namespace Ssmos

/-! ## The handlers -/

def timerIRQ (ticks : UInt32) : UInt32 := ticks + PIT_TICKS_MS

/-- `process_irq`, on the counter: `keyboard_IRQ` and `ata_irq` are empty. -/
def processIrq (irq ticks : UInt32) : UInt32 := if irq = 0 then timerIRQ ticks else ticks

/-- The counter after an event: `interrupt_handler` has the IRQ processed before
it sends an EOI. -/
def ticksAfter (e : PicEvent) (m' : PicMachine) (ticks : UInt32) : UInt32 :=
  match e, m'.control with
  | .pulse, .handling vector _ _ _ =>
    match interruptHandler 0 0 0 0 0 0 0 0 vector.toUInt32 with
    | .irq line => processIrq line ticks
    | _ => ticks
  | _, _ => ticks

/-! ## The books -/

/-- What became of the requests of an input: those raised, those raised while
another was not acknowledged yet, those that fell before, and those handled. -/
structure Tally where
  raised : Nat
  merged : Nat
  withdrawn : Nat
  handled : Nat
  deriving DecidableEq, Repr

/-- What an event adds for input `n`. -/
def Tally.note (n : Fin 16) (m : PicMachine) (e : PicEvent) (m' : PicMachine) (t : Tally) : Tally :=
  match e, m'.control with
  | .raise irq, _ =>
    if irq = n then { t with raised := t.raised + 1, merged := t.merged + (m.pics.requested n).toNat } else t
  | .withdraw irq, _ => if irq = n then { t with withdrawn := t.withdrawn + (m.pics.requested n).toNat } else t
  | .pulse, .handling vector true _ _ =>
    if vector.toNat = 0x20 + n.val then { t with handled := t.handled + 1 } else t
  | _, _ => t

/-- The machine, with its counter and the books of its inputs. -/
structure TickMachine where
  machine : PicMachine
  ticks : UInt32
  tally : Fin 16 → Tally

def TickMachine.step (s : TickMachine) (e : PicEvent) : Option TickMachine :=
  (s.machine.step e).map fun m' => ⟨m', ticksAfter e m' s.ticks, fun n => (s.tally n).note n s.machine e m'⟩

def TickStep (s : TickMachine) (e : PicEvent) (s' : TickMachine) : Prop := s.step e = some s'

/-- Taken by the first pulse, and not yet handled. -/
def PicControl.inFlight (c : PicControl) (n : Fin 16) : Bool :=
  match c with
  | .settled (some k) => k.val = n.val
  | _ => false

/-- The books of an input balance. -/
def Tally.Balanced (t : Tally) (m : PicMachine) (n : Fin 16) : Prop :=
  t.raised = t.merged + t.withdrawn + t.handled + (m.pics.requested n).toNat + (m.control.inFlight n).toNat

/-! ## The second pulse -/

section

variable {s : Pics} {n : Fin 16}

/-- What the second pulse delivers: an input of the master, one of the slave, or
a spurious interrupt of either. -/
inductive Delivered (s : Pics) : Option (Fin 8) → (UInt8 × Bool) × Pics → Prop
  | master {k : Fin 8} : k ≠ CASCADE → Delivered s (some k) ((0x20 + UInt8.ofNat k, true), s)
  | slave {k : Fin 8} : s.slave.irr.getLsbD k = true →
    Delivered s (some CASCADE) ((0x28 + UInt8.ofNat k, true), { s with slave := s.slave.take k }.cascade)
  | spuriousMaster : Delivered s none ((0x27, false), s)
  | spuriousSlave : Delivered s (some CASCADE) ((0x2F, false), s)

theorem Programmed.delivered (h : Programmed s) (m : Option (Fin 8)) : Delivered s m (s.deliver m) := by
  have hmaster : ∀ k, s.master.vector k = 0x20 + UInt8.ofNat k := fun k => by rw [Pic.vector, h.masterOffset]
  have hslave : ∀ k, s.slave.vector k = 0x28 + UInt8.ofNat k := fun k => by rw [Pic.vector, h.slaveOffset]
  cases m with
  | none =>
    simp only [Pics.deliver, hmaster]
    exact .spuriousMaster
  | some k =>
    by_cases hk : k = CASCADE
    · subst hk
      simp only [Pics.deliver, if_true]
      cases hnext : s.slave.next? with
      | none =>
        simp only [hslave]
        exact .spuriousSlave
      | some j =>
        simp only [hslave]
        exact .slave (Pic.next?_requested hnext)
    · simp only [Pics.deliver, if_neg hk, hmaster]
      exact .master hk

theorem master_vector : ∀ k : Fin 8, (0x20 + UInt8.ofNat k : UInt8).toNat = 0x20 + k.val := by decide

theorem slave_vector : ∀ k : Fin 8, (0x28 + UInt8.ofNat k : UInt8).toNat = 0x28 + k.val := by decide

/-- A command that is no initialization word changes no request, and no data does. -/
theorem command_requested (hn : n ≠ 2) {port : Nat} {val : UInt8} (hport : port = MASTER_PIC_CMD ∨ port = SLAVE_PIC_CMD)
    (hval : val.toBitVec.getLsbD 4 = false) : (s.outb port val).requested n = s.requested n := by
  rcases hport with rfl | rfl
  · rw [Pics.outb_masterCmd, Pics.cascade_requested _ hn]
    refine Pics.requested_congr ?_ ?_ n
    · exact Pic.command_irr _ hval
    · rfl
  · rw [Pics.outb_slaveCmd, Pics.cascade_requested _ hn]
    refine Pics.requested_congr ?_ ?_ n
    · rfl
    · exact Pic.command_irr _ hval

theorem data_requested (hn : n ≠ 2) {port : Nat} (val : UInt8)
    (hport : port = MASTER_PIC_DATA ∨ port = SLAVE_PIC_DATA) : (s.outb port val).requested n = s.requested n := by
  rcases hport with rfl | rfl
  · rw [Pics.outb_masterData, Pics.cascade_requested _ hn]
    refine Pics.requested_congr ?_ ?_ n
    · exact Pic.dataWrite_irr _ _
    · rfl
  · rw [Pics.outb_slaveData, Pics.cascade_requested _ hn]
    refine Pics.requested_congr ?_ ?_ n
    · rfl
    · exact Pic.dataWrite_irr _ _

/-- Nothing is requested after `PIC_init`. -/
theorem picInit_requested (s : Pics) (hn : n ≠ 2) : (picInit.exec s).requested n = false := by
  simp only [picInit, PortProg.exec, data_requested hn _ (.inl rfl), data_requested hn _ (.inr rfl),
    Pics.outb_slaveCmd, Pics.cascade_requested _ hn, Pics.outb_masterCmd]
  have hcleared : ∀ p : Pic, (p.command (PIC_INIT + PIC_ICW4)).irr = 0 := fun _ => rfl
  have hmaster : ({ s with master := s.master.command (PIC_INIT + PIC_ICW4) } : Pics).cascade.requested n =
      (decide (8 ≤ n.val) && s.slave.irr.getLsbD (n.val - 8)) := by
    rw [Pics.cascade_requested _ hn, Pics.requested, hcleared]
    by_cases hlt : n.val < 8
    · simp [hlt]
    · simp [hlt, Nat.le_of_not_lt hlt]
  by_cases hlt : n.val < 8
  · rw [Pics.requested, if_pos hlt] at hmaster ⊢
    simpa [Nat.not_le_of_lt hlt] using hmaster
  · rw [Pics.requested, if_neg hlt, hcleared]
    simp

/-- The first pulse takes a request that was there. -/
theorem settle_requested (s : Pics) (n : Fin 16) :
    (s.settle.2.requested n).toNat + ((PicControl.settled s.settle.1).inFlight n).toNat =
      (s.requested n).toNat := by
  unfold Pics.settle
  split
  · next k hk =>
    have hirr := Pic.next?_requested hk
    unfold Pics.requested PicControl.inFlight
    dsimp only [Pic.take]
    by_cases hlt : n.val < 8
    · rw [if_pos hlt, if_pos hlt]
      have hclear := getLsbD_clear s.master.irr k ⟨n, hlt⟩
      dsimp only at hclear
      rw [hclear]
      by_cases hkn : k.val = n.val
      · have : (⟨n, hlt⟩ : Fin 8) = k := Fin.ext hkn.symm
        rw [decide_eq_true this, decide_eq_true hkn, ← congrArg s.master.irr.getLsbD hkn, hirr]
        rfl
      · have : (⟨n, hlt⟩ : Fin 8) ≠ k := fun h => hkn (congrArg (fun j : Fin 8 => j.val) h).symm
        rw [decide_eq_false this, decide_eq_false hkn]
        simp
    · rw [if_neg hlt, if_neg hlt, decide_eq_false (by omega)]
      rfl
  · rfl

end

/-! ## One event -/

section

variable {m m' : PicMachine} {e : PicEvent} {n : Fin 16} {t : Tally} {ticks start : UInt32}

/-- What the second pulse delivers is what was in flight, or a request of the
slave. -/
theorem Delivered.balanced {s : Pics} {k : Option (Fin 8)} {d : (UInt8 × Bool) × Pics} (h : Delivered s k d)
    (hn : n ≠ 2) (prog : PortProg) (ht : t.Balanced ⟨s, .settled k⟩ n) :
    (t.note n ⟨s, .settled k⟩ .pulse ⟨d.2, .handling d.1.1 d.1.2 prog []⟩).Balanced
      ⟨d.2, .handling d.1.1 d.1.2 prog []⟩ n := by
  have hn2 : n.val ≠ 2 := fun h => hn (Fin.ext h)
  unfold Tally.Balanced at ht ⊢
  cases h with
  | @master k hk =>
    simp only [Tally.note, PicControl.inFlight, master_vector, Nat.add_left_cancel_iff] at ht ⊢
    by_cases hkn : k.val = n.val
    · rw [if_pos hkn]
      rw [decide_eq_true hkn, Bool.toNat_true] at ht
      simp only [Bool.toNat_false]
      omega
    · rw [if_neg hkn]
      rw [decide_eq_false hkn] at ht
      exact ht
  | @slave k hk =>
    simp only [Tally.note, PicControl.inFlight, slave_vector, Pics.cascade_requested _ hn] at ht ⊢
    have hflight : decide (CASCADE.val = n.val) = false := decide_eq_false fun h => hn2 h.symm
    rw [hflight] at ht
    unfold Pics.requested at ht ⊢
    by_cases hlt : n.val < 8
    · rw [if_neg (by omega)]
      simp only [if_pos hlt] at ht ⊢
      exact ht
    · simp only [if_neg hlt] at ht ⊢
      have hclear := getLsbD_clear s.slave.irr k ⟨n.val - 8, by omega⟩
      dsimp only at hclear
      dsimp only [Pic.take]
      rw [hclear]
      by_cases hkn : k.val = n.val - 8
      · have : (⟨n.val - 8, by omega⟩ : Fin 8) = k := Fin.ext hkn.symm
        rw [← congrArg s.slave.irr.getLsbD hkn, hk, Bool.toNat_true] at ht
        rw [if_pos (by omega), decide_eq_true this]
        simp only [Bool.not_true, Bool.false_and, Bool.toNat_false] at ht ⊢
        omega
      · have : (⟨n.val - 8, by omega⟩ : Fin 8) ≠ k := fun h => hkn (congrArg (fun j : Fin 8 => j.val) h).symm
        rw [if_neg (by omega), decide_eq_false this]
        simpa using ht
  | spuriousMaster => exact ht
  | spuriousSlave =>
    have hflight : decide (CASCADE.val = n.val) = false := decide_eq_false fun h => hn2 h.symm
    simp only [Tally.note, PicControl.inFlight, hflight] at ht ⊢
    exact ht

/-- **One event** keeps the books of an input balanced. -/
theorem balanced_step (h : Vectored m) (hn : n ≠ 2) (hstep : PicStep m e m') (ht : t.Balanced m n) :
    (t.note n m e m').Balanced m' n := by
  obtain ⟨s, control⟩ := m
  obtain ⟨hs, hc⟩ := h
  dsimp only at hs hc
  cases e with
  | raise irq =>
    cases hstep
    unfold Tally.Balanced at ht ⊢
    simp only [Tally.note, Pics.raise_requested s irq hn] at ht ⊢
    by_cases hirq : irq = n
    · rw [if_pos hirq, decide_eq_true hirq.symm]
      simp only [Bool.true_or, Bool.toNat_true]
      omega
    · rw [if_neg hirq, decide_eq_false (Ne.symm hirq), Bool.false_or]
      exact ht
  | withdraw irq =>
    cases hstep
    unfold Tally.Balanced at ht ⊢
    simp only [Tally.note, Pics.withdraw_requested s irq hn] at ht ⊢
    by_cases hirq : irq = n
    · rw [if_pos hirq, decide_eq_true hirq.symm]
      simp only [Bool.not_true, Bool.false_and, Bool.toNat_false]
      omega
    · rw [if_neg hirq, decide_eq_false (Ne.symm hirq), Bool.not_false, Bool.true_and]
      exact ht
  | mask masterMask slaveMask =>
    cases control with
    | running =>
      cases hstep
      unfold Tally.Balanced at ht ⊢
      simp only [Tally.note, data_requested hn _ (.inl rfl), data_requested hn _ (.inr rfl)]
      exact ht
    | _ => cases hstep
  | accept =>
    cases control with
    | running =>
      obtain ⟨-, rfl⟩ := Option.ite_some_none_eq_some.mp hstep
      exact ht
    | _ => cases hstep
  | pulse =>
    cases control with
    | accepted =>
      cases hstep
      have hsettle := settle_requested s n
      unfold Tally.Balanced at ht ⊢
      simp only [Tally.note, PicControl.inFlight, Bool.toNat_false] at ht hsettle ⊢
      omega
    | settled k =>
      cases hstep
      exact (hs.delivered k).balanced hn _ ht
    | _ => cases hstep
  | io =>
    cases control with
    | handling vector served prog eois =>
      obtain ⟨-, hmild⟩ := hc rfl
      cases prog with
      | done => cases hstep
      | outb port val rest =>
        cases hstep
        obtain ⟨hport, hval, -⟩ := hmild
        unfold Tally.Balanced at ht ⊢
        simp only [Tally.note, command_requested hn hport hval]
        exact ht
      | inb port rest =>
        cases hstep
        exact ht
    | _ => cases hstep
  | iret =>
    cases control with
    | handling vector served prog eois =>
      cases prog with
      | done =>
        cases hstep
        exact ht
      | _ => cases hstep
    | _ => cases hstep

theorem interruptHandler_master : ∀ k : Fin 8,
    interruptHandler 0 0 0 0 0 0 0 0 (0x20 + UInt8.ofNat k).toUInt32 = .irq (UInt32.ofNat k) := by decide

theorem interruptHandler_slave : ∀ k : Fin 8,
    interruptHandler 0 0 0 0 0 0 0 0 (0x28 + UInt8.ofNat k).toUInt32 = .irq (UInt32.ofNat (8 + k)) := by decide

/-- The counter counts the timer's interrupts handled. -/
theorem Delivered.counted {s : Pics} {k : Option (Fin 8)} {d : (UInt8 × Bool) × Pics} (h : Delivered s k d)
    (prog : PortProg) (ht : ticks = start + UInt32.ofNat t.handled) :
    ticksAfter .pulse ⟨d.2, .handling d.1.1 d.1.2 prog []⟩ ticks = start +
      UInt32.ofNat (t.note 0 ⟨s, .settled k⟩ .pulse ⟨d.2, .handling d.1.1 d.1.2 prog []⟩).handled := by
  have hzero : ∀ k : Fin 8, UInt32.ofNat k.val = 0 ↔ k.val = 0 := by decide
  have hupper : ∀ k : Fin 8, UInt32.ofNat (8 + k.val) ≠ 0 := by decide
  subst ht
  cases h with
  | @master k hk =>
    simp only [ticksAfter, Tally.note, interruptHandler_master, master_vector, Nat.add_left_cancel_iff, processIrq,
      hzero, Fin.val_zero]
    by_cases hk0 : k.val = 0
    · rw [if_pos hk0, if_pos hk0, timerIRQ, UInt32.add_assoc, UInt32.ofNat_add]
      rfl
    · rw [if_neg hk0, if_neg hk0]
  | @slave k hk =>
    simp only [ticksAfter, Tally.note, interruptHandler_slave, slave_vector, processIrq, if_neg (hupper k)]
    rw [if_neg (by rw [Fin.val_zero]; omega)]
  | spuriousMaster =>
    have hirq : interruptHandler 0 0 0 0 0 0 0 0 (0x27 : UInt8).toUInt32 = .irq 7 := interruptHandler_master 7
    simp only [ticksAfter, Tally.note, hirq, processIrq]
    rfl
  | spuriousSlave =>
    have hirq : interruptHandler 0 0 0 0 0 0 0 0 (0x2F : UInt8).toUInt32 = .irq 15 := interruptHandler_slave 7
    simp only [ticksAfter, Tally.note, hirq, processIrq]
    rfl

theorem counted_step (h : Vectored m) (hstep : PicStep m e m') (ht : ticks = start + UInt32.ofNat t.handled) :
    ticksAfter e m' ticks = start + UInt32.ofNat (t.note 0 m e m').handled := by
  cases e with
  | pulse =>
    obtain ⟨s, control⟩ := m
    cases control with
    | accepted =>
      cases hstep
      exact ht
    | settled k =>
      cases hstep
      exact (h.programmed.delivered k).counted _ ht
    | _ => cases hstep
  | raise irq =>
    simp only [ticksAfter, Tally.note]
    split <;> exact ht
  | withdraw irq =>
    simp only [ticksAfter, Tally.note]
    split <;> exact ht
  | _ => exact ht

/-! ## Runs -/

/-- What every state of a run keeps. -/
structure Audited (start : UInt32) (s : TickMachine) : Prop where
  vectored : Vectored s.machine
  balanced : ∀ n, n ≠ 2 → (s.tally n).Balanced s.machine n
  ticks : s.ticks = start + UInt32.ofNat (s.tally 0).handled

theorem audited_step {s s' : TickMachine} (h : Audited start s) (hstep : TickStep s e s') : Audited start s' := by
  obtain ⟨m', hm, rfl⟩ := Option.map_eq_some_iff.mp hstep
  exact ⟨vectored_step h.vectored hm, fun n hn => balanced_step h.vectored hn hm (h.balanced n hn),
    counted_step h.vectored hm h.ticks⟩

/-- **The books balance** in every run after `PIC_init`: of each input but the
cascade's, every request raised was merged, withdrawn or handled, or is still
outstanding, and the counter has counted the timer's requests that were handled. -/
theorem irqs_conserved (s : Pics) {es : List PicEvent} {c : TickMachine}
    (hrun : Runs TickStep ⟨⟨picInit.exec s, .running⟩, start, fun _ => ⟨0, 0, 0, 0⟩⟩ es c) :
    (∀ n, n ≠ 2 → (c.tally n).raised = (c.tally n).merged + (c.tally n).withdrawn + (c.tally n).handled +
      (c.machine.pics.requested n).toNat + (c.machine.control.inFlight n).toNat) ∧
    c.ticks = start + UInt32.ofNat (c.tally 0).handled := by
  have haudited : Audited start c := by
    refine hrun.invariant audited_step ⟨⟨picInit_programmed s, nofun⟩, fun n hn => ?_, ?_⟩
    · simp only [Tally.Balanced, picInit_requested s hn, PicControl.inFlight]
      rfl
    · exact (UInt32.add_zero start).symm
  exact ⟨haudited.balanced, haudited.ticks⟩

end

/-- Three ticks of the timer, two of them while the first is being handled. -/
theorem irqs_conserved_merged : ∃ c, Runs TickStep ⟨⟨picInit.exec powerUp, .running⟩, 7, fun _ => ⟨0, 0, 0, 0⟩⟩
    [.raise 0, .accept, .pulse, .pulse, .raise 0, .raise 0] c ∧ c.tally 0 = ⟨3, 1, 0, 1⟩ ∧
      c.ticks = 7 + UInt32.ofNat (c.tally 0).handled := by
  have hrun : Runs TickStep ⟨⟨picInit.exec powerUp, .running⟩, 7, fun _ => ⟨0, 0, 0, 0⟩⟩
      [.raise 0, .accept, .pulse, .pulse, .raise 0, .raise 0] _ :=
    .cons rfl (.cons rfl (.cons rfl (.cons rfl (.cons rfl (.cons rfl .nil)))))
  exact ⟨_, hrun, by decide, (irqs_conserved powerUp hrun).2⟩

end Ssmos

/-
What a withheld EOI does not hold back. An IRQ7 that stays in service blocks no
other line: the timer and the keyboard, which `PIC_init` leaves unmasked, are
served as soon as the handler at hand returns.
-/
import Ssmos.Ticks

namespace Ssmos

/-! ## What handlers leave in service -/

/-- In service on the master between two interrupts: nothing, or an IRQ7 whose
EOI was withheld. -/
def Leftover (isr : BitVec 8) : Prop := isr = 0 ∨ isr = inputBit (.last 7)

/-- What a command leaves in service. -/
def isrAfter (isr : BitVec 8) (val : UInt8) : BitVec 8 := ((⟨0, isr, 0, 0, [], false⟩ : Pic).command val).isr

/-- A program that leaves nothing else in service, whatever it reads. -/
def PortProg.Releases : PortProg → BitVec 8 → BitVec 8 → Prop
  | .done, masterIsr, slaveIsr => Leftover masterIsr ∧ slaveIsr = 0
  | .outb port val rest, masterIsr, slaveIsr =>
    if port = MASTER_PIC_CMD then rest.Releases (isrAfter masterIsr val) slaveIsr
    else rest.Releases masterIsr (isrAfter slaveIsr val)
  | .inb _ rest, masterIsr, slaveIsr => ∀ v, (rest v).Releases masterIsr slaveIsr

section

variable {isr rest : BitVec 8} {s s' : Pics} {n : Fin 8}

theorem Pic.command_isr (p : Pic) (val : UInt8) : (p.command val).isr = isrAfter p.isr val := by
  have heoi : p.eoi.isr = (⟨0, p.isr, 0, 0, [], false⟩ : Pic).eoi.isr := by
    unfold Pic.eoi
    dsimp only
    split <;> rfl
  unfold isrAfter Pic.command
  split
  · rfl
  · split
    · split <;> rfl
    · split
      · exact heoi
      · rfl

theorem isrAfter_eoi (h : Leftover rest) : ∀ n, Leftover (isrAfter (rest ||| inputBit n) PIC_EOI) := by
  unfold Leftover at h ⊢
  rcases h with rfl | rfl
  · decide
  · decide

theorem isrAfter_eoi_leftover (h : Leftover rest) : Leftover (isrAfter rest PIC_EOI) := by
  rcases h with rfl | rfl
  · exact .inl (by decide)
  · exact .inl (by decide)

theorem checkIrr_releases {irq : UInt8} (hirq : ¬irq ≥ 8) (irr : UInt8) (hdone : Leftover isr)
    (heoi : Leftover (isrAfter isr PIC_EOI)) : (checkIrr irq irr).Releases isr 0 := by
  unfold checkIrr
  split
  · exact ⟨hdone, rfl⟩
  · rw [acknowledge, if_neg hirq]
    exact ⟨heoi, rfl⟩

/-- So does the handler of whatever the second pulse delivers. -/
theorem Delivered.releases {m : Option (Fin 8)} {d : (UInt8 × Bool) × Pics} (h : Delivered s m d)
    (hrest : Leftover rest) (hmaster : s.master.isr = rest ||| m.elim 0 inputBit) (hslave : s.slave.isr = 0) :
    (handler d.1.1).Releases d.2.master.isr d.2.slave.isr := by
  have hseven : handler 0x27 = .outb MASTER_PIC_CMD PIC_READ_IRR (.inb MASTER_PIC_CMD (checkIrr 7)) := handler_master 7
  cases h with
  | @master k hk =>
    rw [handler_master, hmaster, hslave]
    by_cases hlast : k = 7
    · rw [if_pos hlast]
      refine fun irr => checkIrr_releases (by decide) irr ?_ (isrAfter_eoi hrest k)
      subst hlast
      rcases hrest with rfl | rfl
      · exact .inr (by decide)
      · exact .inr (by decide)
    · rw [if_neg hlast]
      exact ⟨isrAfter_eoi hrest k, rfl⟩
  | @slave k hk =>
    have htaken : ∀ k : Fin 8, isrAfter (0 ||| inputBit k) PIC_EOI = 0 := by decide
    have hcascade : (Pics.cascade { s with slave := s.slave.take k }).master.isr = rest ||| inputBit CASCADE := by
      rw [Pics.cascade_isr, hmaster]
      rfl
    have hin : (s.slave.take k).isr = 0 ||| inputBit k := by rw [Pic.take, hslave]
    rw [handler_slave, hcascade, Pics.cascade_slave, hin]
    exact ⟨isrAfter_eoi hrest CASCADE, htaken k⟩
  | spuriousMaster =>
    have hmaster : s.master.isr = rest := hmaster.trans BitVec.or_zero
    rw [hseven, hmaster, hslave]
    exact fun irr => checkIrr_releases (by decide) irr hrest (isrAfter_eoi_leftover hrest)
  | spuriousSlave =>
    have hspurious : handler 0x2F = .outb SLAVE_PIC_CMD PIC_EOI (.outb MASTER_PIC_CMD PIC_EOI .done) := handler_slave 7
    rw [hspurious, hmaster, hslave]
    exact ⟨isrAfter_eoi hrest CASCADE, by decide⟩

/-- A command changes what is in service where it is sent. -/
theorem outb_isr (s : Pics) {port : Nat} (val : UInt8) (hport : port = MASTER_PIC_CMD ∨ port = SLAVE_PIC_CMD) :
    (s.outb port val).master.isr = (if port = MASTER_PIC_CMD then isrAfter s.master.isr val else s.master.isr) ∧
      (s.outb port val).slave.isr = if port = MASTER_PIC_CMD then s.slave.isr else isrAfter s.slave.isr val := by
  rcases hport with rfl | rfl
  · rw [Pics.outb_masterCmd, Pics.cascade_isr, Pics.cascade_slave, if_pos rfl, if_pos rfl]
    exact ⟨s.master.command_isr val, rfl⟩
  · rw [Pics.outb_slaveCmd, Pics.cascade_isr, Pics.cascade_slave, if_neg (by decide), if_neg (by decide)]
    exact ⟨rfl, s.slave.command_isr val⟩

theorem PortProg.Releases.outb {port : Nat} {val : UInt8} {prog : PortProg}
    (h : (PortProg.outb port val prog).Releases s.master.isr s.slave.isr)
    (hport : port = MASTER_PIC_CMD ∨ port = SLAVE_PIC_CMD) :
    prog.Releases (s.outb port val).master.isr (s.outb port val).slave.isr := by
  obtain ⟨hmaster, hslave⟩ := outb_isr s val hport
  rw [hmaster, hslave]
  unfold PortProg.Releases at h
  split
  · next hp =>
    rw [if_pos hp] at h
    exact h
  · next hp =>
    rw [if_neg hp] at h
    exact h

/-! ## Runs -/

/-- What is in service, wherever the processor is. -/
def PicMachine.Unblocked (m : PicMachine) : Prop :=
  match m.control with
  | .running | .accepted => Leftover m.pics.master.isr ∧ m.pics.slave.isr = 0
  | .settled k =>
    (∃ rest, Leftover rest ∧ m.pics.master.isr = rest ||| k.elim 0 inputBit) ∧ m.pics.slave.isr = 0
  | .handling _ _ prog _ => prog.Releases m.pics.master.isr m.pics.slave.isr

theorem PicMachine.Unblocked.requests {control : PicControl} (h : PicMachine.Unblocked ⟨s, control⟩)
    (hr : OnlyRequests s s') : PicMachine.Unblocked ⟨s', control⟩ := by
  obtain ⟨_, _, rfl⟩ := hr
  exact h

theorem unblocked_step {m m' : PicMachine} {e : PicEvent} (hv : Vectored m) (h : m.Unblocked) (hstep : PicStep m e m') :
    m'.Unblocked := by
  obtain ⟨s, control⟩ := m
  obtain ⟨hs, hc⟩ := hv
  dsimp only at hs hc
  cases e with
  | raise irq =>
    cases hstep
    exact h.requests (onlyRequests_onInput (fun _ _ => ⟨_, rfl⟩) s irq)
  | withdraw irq =>
    cases hstep
    exact h.requests (onlyRequests_onInput (fun _ _ => ⟨_, rfl⟩) s irq)
  | mask masterMask slaveMask =>
    cases control with
    | running =>
      cases hstep
      simpa [PicMachine.Unblocked] using h
    | _ => cases hstep
  | accept =>
    cases control with
    | running =>
      obtain ⟨-, rfl⟩ := Option.ite_some_none_eq_some.mp hstep
      exact h
    | _ => cases hstep
  | pulse =>
    cases control with
    | accepted =>
      cases hstep
      obtain ⟨hmaster, hslave⟩ := h
      refine ⟨⟨_, hmaster, ?_⟩, ?_⟩
      · dsimp only [Pics.settle]
        split
        · rfl
        · exact (BitVec.or_zero).symm
      · dsimp only [Pics.settle]
        split
        · exact hslave
        · exact hslave
    | settled k =>
      cases hstep
      obtain ⟨⟨rest, hrest, hmaster⟩, hslave⟩ := h
      exact (hs.delivered k).releases hrest hmaster hslave
    | _ => cases hstep
  | io =>
    cases control with
    | handling vector served prog eois =>
      obtain ⟨-, hmild⟩ := hc rfl
      cases prog with
      | done => cases hstep
      | outb port val rest =>
        cases hstep
        exact PortProg.Releases.outb h hmild.1
      | inb port rest =>
        cases hstep
        exact h _
    | _ => cases hstep
  | iret =>
    cases control with
    | handling vector served prog eois =>
      cases prog with
      | done =>
        cases hstep
        exact h
      | _ => cases hstep
    | _ => cases hstep

/-! ## Service -/

/-- Input `n` of the master is the next in line: requested, unmasked, and before
all others that are. -/
def Pics.First (s : Pics) (n : Fin 8) : Prop := highest (s.master.irr &&& ~~~s.master.imr) = some n

/-- The processor's own events. -/
def PicEvent.Own (e : PicEvent) : Prop := e = .accept ∨ e = .pulse ∨ e = .io ∨ e = .iret

/-- Before the cascade, nothing on the slave's side matters. -/
theorem Pics.First.cascade (h : s.First n) (hn : n < CASCADE) : s.cascade.First n := by
  refine highest_congr h fun k hk => ?_
  have hne : k ≠ CASCADE := fun hc => absurd (hc ▸ hk) (Fin.not_le.mpr hn)
  unfold Pics.cascade
  split
  · have hraise := getLsbD_raise s.master CASCADE k
    rw [decide_eq_false hne, Bool.false_or] at hraise
    dsimp only
    rw [BitVec.getLsbD_and, BitVec.getLsbD_and, hraise]
    rfl
  · have hclear := getLsbD_clear s.master.irr CASCADE k
    rw [decide_eq_false hne, Bool.not_false, Bool.true_and] at hclear
    dsimp only [Pic.withdraw]
    rw [BitVec.getLsbD_and, hclear, BitVec.getLsbD_and]

theorem Pics.First.command (h : s.First n) (hn : n < CASCADE) {port : Nat} {val : UInt8}
    (hport : port = MASTER_PIC_CMD ∨ port = SLAVE_PIC_CMD) (hval : val.toBitVec.getLsbD 4 = false) :
    (s.outb port val).First n := by
  rcases hport with rfl | rfl
  · have hcommand : Pics.First { s with master := s.master.command val } n := by
      unfold Pics.First
      rw [Pic.command_irr _ hval, Pic.command_imr _ hval]
      exact h
    exact hcommand.cascade hn
  · have hcommand : Pics.First { s with slave := s.slave.command val } n := h
    exact hcommand.cascade hn

theorem Delivered.first {m : Option (Fin 8)} {d : (UInt8 × Bool) × Pics} (h : Delivered s m d) (hn : n < CASCADE)
    (hfirst : s.First n) : d.2.First n := by
  cases h with
  | @slave k hk =>
    have htaken : Pics.First { s with slave := s.slave.take k } n := hfirst
    exact htaken.cascade hn
  | _ => exact hfirst

/-- A handler left alone comes to its end. -/
theorem handler_returns {vector : UInt8} {served : Bool} {prog : PortProg} {eois : List Nat} (hs : Programmed s)
    (hmild : prog.Mild) (hreleases : prog.Releases s.master.isr s.slave.isr) (hn : n < CASCADE) (hfirst : s.First n) :
    ∃ es s', (∀ e ∈ es, e.Own) ∧ Runs PicStep ⟨s, .handling vector served prog eois⟩ es ⟨s', .running⟩ ∧
      Programmed s' ∧ Leftover s'.master.isr ∧ s'.First n := by
  induction prog generalizing s eois with
  | done =>
    exact ⟨[.iret], s, by simp [PicEvent.Own], .single rfl, hs, hreleases.1, hfirst⟩
  | outb port val rest ih =>
    obtain ⟨hport, hval, hrest⟩ := hmild
    obtain ⟨es, s', hown, hrun, h⟩ := ih (hs.command hport hval) hrest (hreleases.outb hport)
      (hfirst.command hn hport hval)
    exact ⟨.io :: es, s', by simpa [PicEvent.Own] using hown, .cons rfl hrun, h⟩
  | inb port rest ih =>
    obtain ⟨es, s', hown, hrun, h⟩ := ih (s.inb port) hs (hmild _) (hreleases _) hfirst
    exact ⟨.io :: es, s', by simpa [PicEvent.Own] using hown, .cons rfl hrun, h⟩

theorem Pics.First.next (h : s.First n) (hn : n < CASCADE) (hisr : Leftover s.master.isr) :
    s.master.next? = some n := by
  have hseven : highest (inputBit (.last 7)) = some (.last 7) := highest_inputBit _
  have hnone : highest 0 = none := by decide
  unfold Pic.next?
  rw [show highest (s.master.irr &&& ~~~s.master.imr) = some n from h]
  rcases hisr with hisr | hisr
  · rw [hisr, hnone]
  · rw [hisr, hseven]
    exact if_pos (hn.trans (by decide))

/-- The two pulses of the input that is first. -/
theorem pulses_serve (hs : Programmed s) (hn : n < CASCADE) (hfirst : s.First n) (hisr : Leftover s.master.isr) :
    ∃ s', Runs PicStep ⟨s, .accepted⟩ [.pulse, .pulse]
      ⟨s', .handling (0x20 + UInt8.ofNat n) true (handler (0x20 + UInt8.ofNat n)) []⟩ := by
  have hnext := hfirst.next hn hisr
  have hsettle : s.settle = (some n, { s with master := s.master.take n }) := by
    unfold Pics.settle
    rw [hnext]
  have hdeliver : Pics.deliver { s with master := s.master.take n } (some n) =
      ((0x20 + UInt8.ofNat n, true), { s with master := s.master.take n }) := by
    rw [Pics.deliver, if_neg (Fin.ne_of_lt hn)]
    exact congrArg (fun v => ((v, true), _)) (congrArg (· + UInt8.ofNat n) hs.masterOffset)
  have hpulse : PicStep ⟨s, .accepted⟩ .pulse ⟨{ s with master := s.master.take n }, .settled (some n)⟩ := by
    simp only [PicStep, PicMachine.step, PicMachine.pulse, hsettle]
  refine ⟨{ s with master := s.master.take n }, .cons hpulse (.single ?_)⟩
  simp only [PicStep, PicMachine.step, PicMachine.pulse, hdeliver]

theorem running_serves (hs : Programmed s) (hn : n < CASCADE) (hfirst : s.First n) (hisr : Leftover s.master.isr) :
    ∃ s', Runs PicStep ⟨s, .running⟩ [.accept, .pulse, .pulse]
      ⟨s', .handling (0x20 + UInt8.ofNat n) true (handler (0x20 + UInt8.ofNat n)) []⟩ := by
  obtain ⟨s', hrun⟩ := pulses_serve hs hn hfirst hisr
  refine ⟨s', .cons ?_ hrun⟩
  simp only [PicStep, PicMachine.step, Pic.int, hfirst.next hn hisr, Option.isSome_some, if_true]

/-- From a handler on. -/
theorem handling_serves (vector : UInt8) (served : Bool) (eois : List Nat) {prog : PortProg} (hs : Programmed s)
    (hmild : prog.Mild) (hreleases : prog.Releases s.master.isr s.slave.isr) (hn : n < CASCADE) (hfirst : s.First n) :
    ∃ es s', (∀ e ∈ es, e.Own) ∧ Runs PicStep ⟨s, .handling vector served prog eois⟩ es
      ⟨s', .handling (0x20 + UInt8.ofNat n) true (handler (0x20 + UInt8.ofNat n)) []⟩ := by
  obtain ⟨es, s₁, hown, hrun, hs₁, hisr, hfirst₁⟩ := handler_returns hs hmild hreleases hn hfirst
  obtain ⟨s', hserve⟩ := running_serves hs₁ hn hfirst₁ hisr
  refine ⟨es ++ [.accept, .pulse, .pulse], s', fun e he => ?_, hrun.append hserve⟩
  rcases List.mem_append.mp he with he | he
  · exact hown e he
  · simp only [List.mem_cons, List.not_mem_nil, or_false] at he
    rcases he with rfl | rfl | rfl
    · exact .inl rfl
    · exact .inr (.inl rfl)
    · exact .inr (.inl rfl)

end

/-- **The timer and the keyboard are never shut out**: in whatever state of
whatever run after `PIC_init`, if one of them is the first in line, the
processor's next steps, whatever was withheld before, come to its handler. -/
theorem first_served (s : Pics) {es : List PicEvent} {m : PicMachine} {n : Fin 8}
    (hrun : Runs PicStep ⟨picInit.exec s, .running⟩ es m) (hn : n < CASCADE) (hfirst : m.pics.First n) :
    ∃ es' s', (∀ e ∈ es', e.Own) ∧ Runs PicStep m es'
      ⟨s', .handling (0x20 + UInt8.ofNat n) true (handler (0x20 + UInt8.ofNat n)) []⟩ := by
  obtain ⟨hv, h⟩ : Vectored m ∧ m.Unblocked := by
    refine hrun.invariant (I := fun m => Vectored m ∧ m.Unblocked)
      (fun h hstep => ⟨vectored_step h.1 hstep, unblocked_step h.1 h.2 hstep⟩) ⟨⟨picInit_programmed s, nofun⟩, ?_⟩
    exact ⟨.inl (picInit_serving s).masterIsr, (picInit_serving s).slaveIsr⟩
  obtain ⟨pics, control⟩ := m
  cases control with
  | running =>
    obtain ⟨s', hserve⟩ := running_serves hv.programmed hn hfirst h.1
    exact ⟨_, s', by simp [PicEvent.Own], hserve⟩
  | accepted =>
    obtain ⟨s', hserve⟩ := pulses_serve hv.programmed hn hfirst h.1
    exact ⟨_, s', by simp [PicEvent.Own], hserve⟩
  | settled k =>
    obtain ⟨⟨rest, hrest, hmaster⟩, hslave⟩ := h
    have hd := hv.programmed.delivered k
    obtain ⟨es', s', hown, hserve⟩ := handling_serves (pics.deliver k).1.1 (pics.deliver k).1.2 []
      (hv.programmed.deliver k).1 (handler_mild _) (hd.releases hrest hmaster hslave) hn (hd.first hn hfirst)
    exact ⟨.pulse :: es', s', by simpa [PicEvent.Own] using hown, .cons rfl hserve⟩
  | handling vector served prog eois =>
    exact handling_serves vector served eois hv.programmed (hv.handling rfl).2 h hn hfirst

/-- The timer, with an IRQ7 left in service. -/
theorem first_served_withheld : ∃ m : PicMachine, m.pics.inService 7 = true ∧ ∃ es' s',
    Runs PicStep m es' ⟨s', .handling 0x20 true (handler 0x20) []⟩ := by
  have hrun : Runs PicStep ⟨picInit.exec powerUp, .running⟩
      [.mask 0x7C 0xFF, .raise 7, .accept, .pulse, .pulse, .io, .io, .iret, .raise 0] ⟨_, .running⟩ :=
    .cons rfl (.cons rfl (.cons rfl (.cons rfl (.cons rfl (.cons rfl (.cons rfl (.cons rfl (.cons rfl .nil))))))))
  obtain ⟨es', s', -, h⟩ := first_served powerUp hrun (n := 0) (by decide) (by unfold Pics.First; decide)
  exact ⟨_, by decide, es', s', h⟩

end Ssmos

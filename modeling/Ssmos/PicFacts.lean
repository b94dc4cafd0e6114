/-
Which interrupts `send_EOI` acknowledges. It reads IRR to tell a spurious IRQ7
from one served, but the request of one served has left IRR for ISR by then:
its EOI is withheld unless the line has asked again meanwhile, and it stays in
service.
-/
import Ssmos.Pic
import Mathlib.Data.Fintype.Basic
import Mathlib.Tactic.FinCases

namespace Ssmos

/-! ## The property -/

/-- The in-service bit of an IRQ. -/
def Pics.inService (s : Pics) (irq : UInt8) : Bool :=
  if irq < 8 then s.master.isr.getLsbD irq.toNat else s.slave.isr.getLsbD (irq.toNat - 8)

/-- Where a handler returns, the interrupt it handled is not in service, and a
spurious IRQ7 has been sent no EOI. -/
def Settled (s : PicMachine) : Prop :=
  ∀ vector served eois, s.control = .handling vector served .done eois →
    s.pics.inService (vector - MASTER_PIC_OFFSET.toUInt8) = false ∧
      (vector = 0x27 → served = false → eois = [])

/-- Where the IRR is read for an IRQ7, its bit 7 is set exactly if the IRQ7 was
served. -/
def TellsSpurious (s : PicMachine) (e : PicEvent) : Prop :=
  ∀ served eois, e = .io → s.control = .handling 0x27 served (.inb MASTER_PIC_CMD (checkIrr 7)) eois →
    s.pics.master.irr.getLsbD 7 = served

/-! ## Requests and service -/

/-- At most the requests change. -/
def OnlyRequests (s s' : Pics) : Prop := ∃ i j, s' = ⟨{ s.master with irr := i }, { s.slave with irr := j }⟩

theorem onlyRequests_cascade (s : Pics) : OnlyRequests s s.cascade := by
  unfold Pics.cascade
  split
  · exact ⟨_, s.slave.irr, rfl⟩
  · exact ⟨_, s.slave.irr, rfl⟩

theorem OnlyRequests.trans {s₁ s₂ s₃ : Pics} (h₁ : OnlyRequests s₁ s₂) (h₂ : OnlyRequests s₂ s₃) :
    OnlyRequests s₁ s₃ := by
  obtain ⟨_, _, rfl⟩ := h₁
  obtain ⟨i, j, rfl⟩ := h₂
  exact ⟨i, j, rfl⟩

theorem onlyRequests_onInput {f : Pic → Fin 8 → Pic} (hf : ∀ p n, ∃ i, f p n = { p with irr := i }) (s : Pics)
    (irq : Fin 16) : OnlyRequests s (s.onInput f irq) := by
  unfold Pics.onInput
  split
  · next h =>
    obtain ⟨i, hi⟩ := hf s.master ⟨irq, h⟩
    exact .trans ⟨i, s.slave.irr, by rw [hi]⟩ (onlyRequests_cascade _)
  · next h =>
    obtain ⟨j, hj⟩ := hf s.slave ⟨irq - 8, by omega⟩
    exact .trans ⟨s.master.irr, j, by rw [hj]⟩ (onlyRequests_cascade _)

/-- The pair after `PIC_init`, with the inputs `mi` and `si` in service. -/
structure Serving (s : Pics) (mi si : BitVec 8) : Prop where
  masterInit : s.master.init = []
  slaveInit : s.slave.init = []
  masterOffset : s.master.offset = 0x20
  slaveOffset : s.slave.offset = 0x28
  masterIsr : s.master.isr = mi
  slaveIsr : s.slave.isr = si

/-- How far the handler of a vector is, and what is in service then. -/
inductive Handling (s : Pics) : UInt8 → Bool → PortProg → List Nat → Prop
  | select {served : Bool} : Serving s (if served then inputBit 7 else 0) 0 →
    Handling s 0x27 served (.outb MASTER_PIC_CMD PIC_READ_IRR (.inb MASTER_PIC_CMD (checkIrr 7))) []
  | check {served : Bool} : Serving s (if served then inputBit 7 else 0) 0 → s.master.readIsr = false →
    Handling s 0x27 served (.inb MASTER_PIC_CMD (checkIrr 7)) []
  | slave {vector : UInt8} {served : Bool} {eois : List Nat} {si : BitVec 8} : vector ≠ 0x27 →
    (si = 0 ∨ ∃ k, si = inputBit k) → Serving s (inputBit CASCADE) si →
    Handling s vector served (.outb SLAVE_PIC_CMD PIC_EOI (.outb MASTER_PIC_CMD PIC_EOI .done)) eois
  | master {vector : UInt8} {served : Bool} {eois : List Nat} {n : Fin 8} : (vector = 0x27 → served = true) →
    Serving s (inputBit n) 0 → Handling s vector served (.outb MASTER_PIC_CMD PIC_EOI .done) eois
  | returning {vector : UInt8} {served : Bool} {eois : List Nat} :
    (vector = 0x27 → served = false → eois = []) → Serving s 0 0 → Handling s vector served .done eois

section

variable {s s' : Pics} {mi si : BitVec 8} {n : Fin 8} {vector : UInt8} {served : Bool} {prog : PortProg}
  {eois : List Nat}

theorem Serving.requests (h : Serving s mi si) (hr : OnlyRequests s s') : Serving s' mi si := by
  obtain ⟨_, _, rfl⟩ := hr
  exact ⟨h.masterInit, h.slaveInit, h.masterOffset, h.slaveOffset, h.masterIsr, h.slaveIsr⟩

theorem Serving.cascade (h : Serving s mi si) : Serving s.cascade mi si := h.requests (onlyRequests_cascade s)

theorem highest_inputBit : ∀ n, highest (inputBit n) = some n := by decide

theorem clear_inputBit : ∀ n, inputBit n &&& ~~~inputBit n = 0 := by decide

theorem Pic.eoi_isr {p : Pic} (h : p.isr = 0 ∨ ∃ n, p.isr = inputBit n) : p.eoi = { p with isr := 0 } := by
  unfold Pic.eoi
  rcases h with h | ⟨n, h⟩
  · rw [h, show highest 0 = none by decide]
    cases p
    cases h
    rfl
  · rw [h, highest_inputBit]
    simp only [clear_inputBit]

/-- An EOI ends what is in service on a controller. -/
theorem Serving.eoi_master (h : Serving s (inputBit n) si) : Serving (s.outb MASTER_PIC_CMD PIC_EOI) 0 si := by
  have heoi : s.master.command PIC_EOI = { s.master with isr := 0 } := Pic.eoi_isr (.inr ⟨n, h.masterIsr⟩)
  have : Serving { s with master := s.master.command PIC_EOI } 0 si := by
    rw [heoi]
    exact ⟨h.masterInit, h.slaveInit, h.masterOffset, h.slaveOffset, rfl, h.slaveIsr⟩
  exact this.cascade

theorem Serving.eoi_slave (h : Serving s mi si) (hsi : si = 0 ∨ ∃ k, si = inputBit k) :
    Serving (s.outb SLAVE_PIC_CMD PIC_EOI) mi 0 := by
  have heoi : s.slave.command PIC_EOI = { s.slave with isr := 0 } := Pic.eoi_isr (by rwa [h.slaveIsr])
  have : Serving { s with slave := s.slave.command PIC_EOI } mi 0 := by
    rw [heoi]
    exact ⟨h.masterInit, h.slaveInit, h.masterOffset, h.slaveOffset, h.masterIsr, rfl⟩
  exact this.cascade

theorem Serving.readIrr (h : Serving s mi si) : Serving (s.outb MASTER_PIC_CMD PIC_READ_IRR) mi si ∧
    (s.outb MASTER_PIC_CMD PIC_READ_IRR).master.readIsr = false := by
  have : Serving { s with master := s.master.command PIC_READ_IRR } mi si :=
    ⟨h.masterInit, h.slaveInit, h.masterOffset, h.slaveOffset, h.masterIsr, h.slaveIsr⟩
  exact ⟨this.cascade, by rw [Pics.outb_masterCmd, Pics.cascade_readIsr]; rfl⟩

theorem Serving.mask (h : Serving s mi si) (masterMask slaveMask : UInt8) :
    Serving ((s.outb MASTER_PIC_DATA masterMask).outb SLAVE_PIC_DATA slaveMask) mi si := by
  constructor <;> simp [h.masterInit, h.slaveInit, h.masterOffset, h.slaveOffset, h.masterIsr, h.slaveIsr]

/-- ICW1, as `PIC_init` sends it. -/
theorem Pic.command_init (p : Pic) : (p.command (PIC_INIT + PIC_ICW4)).init = [.icw2, .icw3, .icw4] ∧
    (p.command (PIC_INIT + PIC_ICW4)).isr = 0 := ⟨rfl, rfl⟩

theorem picInit_serving (s : Pics) : Serving (picInit.exec s) 0 0 := by
  constructor <;> simp [picInit, PortProg.exec, (Pic.command_init _).1, (Pic.command_init _).2]
  all_goals decide

/-! ## The handler, access by access -/

/-- Devices do not get in its way. -/
theorem Handling.requests (h : Handling s vector served prog eois) (hr : OnlyRequests s s') :
    Handling s' vector served prog eois := by
  cases h with
  | select hs => exact .select (hs.requests hr)
  | check hs hread =>
    refine .check (hs.requests hr) ?_
    obtain ⟨_, _, rfl⟩ := hr
    exact hread
  | slave hv hsi hs => exact .slave hv hsi (hs.requests hr)
  | master hv hs => exact .master hv (hs.requests hr)
  | returning he hs => exact .returning he (hs.requests hr)

/-- The handler of an input of the master. -/
theorem handler_master : ∀ n : Fin 8, handler (0x20 + UInt8.ofNat n) =
    if n = 7 then .outb MASTER_PIC_CMD PIC_READ_IRR (.inb MASTER_PIC_CMD (checkIrr 7))
    else .outb MASTER_PIC_CMD PIC_EOI .done := by
  intro n
  fin_cases n <;> rfl

/-- And of the slave. -/
theorem handler_slave : ∀ n : Fin 8, handler (0x28 + UInt8.ofNat n) =
    .outb SLAVE_PIC_CMD PIC_EOI (.outb MASTER_PIC_CMD PIC_EOI .done) := by
  intro n
  fin_cases n <;> rfl

/-- Where the processor is, and what is in service then. -/
def PicInv (s : PicMachine) : Prop :=
  match s.control with
  | .running | .accepted => Serving s.pics 0 0
  | .settled n => Serving s.pics (n.elim 0 inputBit) 0
  | .handling vector served prog eois => Handling s.pics vector served prog eois

/-- The first pulse puts at most one input in service. -/
theorem Serving.settle (h : Serving s 0 0) : Serving s.settle.2 (s.settle.1.elim 0 inputBit) 0 := by
  unfold Pics.settle
  cases s.master.next? with
  | none => exact h
  | some n =>
    exact ⟨h.masterInit, h.slaveInit, h.masterOffset, h.slaveOffset, by simp [Pic.take, h.masterIsr], h.slaveIsr⟩

/-- The second pulse enters the handler of what was settled. -/
theorem Serving.deliver {m : Option (Fin 8)} (h : Serving s (m.elim 0 inputBit) 0) :
    Handling (s.deliver m).2 (s.deliver m).1.1 (s.deliver m).1.2 (handler (s.deliver m).1.1) [] := by
  have hmaster : ∀ n, s.master.vector n = 0x20 + UInt8.ofNat n := fun n => by rw [Pic.vector, h.masterOffset]
  have hslave : ∀ n, s.slave.vector n = 0x28 + UInt8.ofNat n := fun n => by rw [Pic.vector, h.slaveOffset]
  have hseven : ∀ served : Bool, Serving s (if served then inputBit 7 else 0) 0 →
      Handling s (0x20 + UInt8.ofNat (7 : Fin 8)) served (handler (0x20 + UInt8.ofNat (7 : Fin 8))) [] := by
    intro served hs
    rw [handler_master, if_pos rfl]
    exact .select hs
  have hupper : ∀ k : Fin 8, (0x28 + UInt8.ofNat k : UInt8) ≠ 0x27 := by decide
  cases m with
  | none =>
    simp only [Pics.deliver, hmaster]
    exact hseven false h
  | some n =>
    by_cases hn : n = CASCADE
    · subst hn
      simp only [Pics.deliver, if_true]
      cases hnext : s.slave.next? with
      | none =>
        simp only [hslave, handler_slave]
        exact .slave (hupper 7) (.inl rfl) h
      | some k =>
        simp only [hslave, handler_slave]
        refine .slave (hupper k) (.inr ⟨k, ?_⟩) (@Serving.cascade _ _ (s.slave.isr ||| inputBit k) ?_)
        · rw [h.slaveIsr]
          exact BitVec.zero_or
        · exact ⟨h.masterInit, h.slaveInit, h.masterOffset, h.slaveOffset, h.masterIsr, rfl⟩
    · simp only [Pics.deliver, if_neg hn, hmaster]
      by_cases hlast : n = 7
      · subst hlast
        exact hseven true h
      · have hlower : ∀ n : Fin 8, n ≠ 7 → (0x20 + UInt8.ofNat n : UInt8) ≠ 0x27 := by decide
        rw [handler_master, if_neg hlast]
        exact .master (fun hv => absurd hv (hlower n hlast)) h

theorem inb_irr (h : s.master.readIsr = false) : s.inb MASTER_PIC_CMD = UInt8.ofBitVec s.master.irr := by
  simp only [Pics.inb, if_true, Pic.commandRead, h, Bool.false_eq_true, if_false]

/-- What `irr & 0x80` tests. -/
theorem irr_bit : ∀ irr : BitVec 8, UInt8.ofBitVec irr &&& 0x80 = 0 ↔ irr.getLsbD 7 = false := by
  decide +kernel

/-- A port access of the handler, where the IRR tells a spurious IRQ7. -/
theorem Handling.io (h : Handling s vector served prog eois) {m' : PicMachine}
    (hstep : PicStep ⟨s, .handling vector served prog eois⟩ .io m')
    (htells : TellsSpurious ⟨s, .handling vector served prog eois⟩ .io) : PicInv m' := by
  cases h with
  | select hs =>
    cases hstep
    exact .check hs.readIrr.1 hs.readIrr.2
  | check hs hread =>
    have hirr := htells _ _ rfl rfl
    cases hstep
    rw [inb_irr hread, checkIrr]
    cases served with
    | false =>
      rw [if_pos ((irr_bit _).mpr hirr)]
      exact .returning (fun _ _ => rfl) hs
    | true =>
      rw [if_neg (fun h0 => by rw [(irr_bit _).mp h0] at hirr; cases hirr)]
      exact .master (fun _ => rfl) hs
  | slave hv hsi hs =>
    cases hstep
    exact .master (fun h => absurd h hv) (hs.eoi_slave hsi)
  | master hv hs =>
    cases hstep
    exact .returning (fun h hf => by rw [hv h] at hf; cases hf) hs.eoi_master
  | returning => cases hstep

/-- **One event** keeps what is in service in step with the handler. -/
theorem picInv_step {m m' : PicMachine} {e : PicEvent} (h : PicInv m) (hstep : PicStep m e m')
    (htells : TellsSpurious m e) : PicInv m' := by
  obtain ⟨s, control⟩ := m
  have hrequests : ∀ s', OnlyRequests s s' → PicInv ⟨s', control⟩ := by
    intro s' hr
    cases control with
    | running => exact Serving.requests h hr
    | accepted => exact Serving.requests h hr
    | settled n => exact Serving.requests h hr
    | handling => exact Handling.requests h hr
  cases e with
  | raise irq =>
    cases hstep
    exact hrequests _ (onlyRequests_onInput (fun _ _ => ⟨_, rfl⟩) s irq)
  | withdraw irq =>
    cases hstep
    exact hrequests _ (onlyRequests_onInput (fun _ _ => ⟨_, rfl⟩) s irq)
  | mask masterMask slaveMask =>
    cases control with
    | running =>
      cases hstep
      exact Serving.mask h _ _
    | _ => cases hstep
  | accept =>
    cases control with
    | running =>
      obtain ⟨-, rfl⟩ := Option.ite_some_none_eq_some.mp hstep
      exact h
    | _ => cases hstep
  | pulse =>
    cases control with
    | accepted =>
      cases hstep
      exact Serving.settle h
    | settled n =>
      cases hstep
      exact Serving.deliver h
    | _ => cases hstep
  | io =>
    cases control with
    | handling => exact Handling.io h hstep htells
    | _ => cases hstep
  | iret =>
    cases control with
    | handling vector served prog eois =>
      cases prog with
      | done =>
        cases hstep
        cases h with
        | returning _ hs => exact hs
      | _ => cases hstep
    | _ => cases hstep

theorem PicInv.settled {m : PicMachine} (h : PicInv m) : Settled m := by
  intro vector served eois hcontrol
  rw [PicInv, hcontrol] at h
  cases h with
  | returning he hs =>
    refine ⟨?_, he⟩
    unfold Pics.inService
    rw [hs.masterIsr, hs.slaveIsr]
    simp

/-- Where the IRR does not tell, the handler returns unsettled: it withholds the
EOI of an IRQ7 served, or goes on to send one for a spurious IRQ7. -/
theorem unsettled_of_misread {m m' : PicMachine} (h : PicInv m)
    (hcontrol : m.control = .handling 0x27 served (.inb MASTER_PIC_CMD (checkIrr 7)) eois)
    (hirr : m.pics.master.irr.getLsbD 7 ≠ served) (hstep : PicStep m .io m') :
    if served then ¬Settled m' else ∀ m'', PicStep m' .io m'' → ¬Settled m'' := by
  obtain ⟨s, control⟩ := m
  cases hcontrol
  cases h with
  | check hs hread =>
    cases hstep
    rw [inb_irr hread, checkIrr]
    cases served with
    | true =>
      rw [if_pos ((irr_bit _).mpr (by simpa using hirr)), if_pos rfl]
      intro hsettled
      have hclear := (hsettled _ _ _ rfl).1
      rw [Pics.inService, if_pos (by decide), hs.masterIsr] at hclear
      exact absurd hclear (by decide)
    | false =>
      rw [if_neg (fun h0 => hirr ((irr_bit _).mp h0)), if_neg (by decide)]
      intro m'' hstep' hsettled
      cases hstep'
      have hnone := (hsettled _ _ _ rfl).2 rfl rfl
      cases hnone

/-- **An EOI is withheld only for a spurious interrupt, and an interrupt handled
is no longer in service**, in every run after `PIC_init` in which each read of
the IRR tells a spurious IRQ7: whatever is raised, masked and delivered. -/
theorem eoi_settled (s : Pics) {es : List PicEvent} {m : PicMachine}
    (hrun : Runs (fun m e m' => PicStep m e m' ∧ TellsSpurious m e) ⟨picInit.exec s, .running⟩ es m) :
    Settled m := by
  have hinv : PicInv m :=
    hrun.invariant (I := PicInv) (fun h hstep => picInv_step h hstep.1 hstep.2) (picInit_serving s)
  exact hinv.settled

end

/-- The pair as it is powered up. -/
def powerUp : Pics := ⟨⟨0, 0, 0, 0, [], false⟩, ⟨0, 0, 0, 0, [], false⟩⟩

/-- The timer's request is gone when it is acknowledged: a spurious IRQ7. And an
IRQ7 that is raised again while it is handled is sent its EOI. -/
theorem eoi_settled_spurious : (∃ m : PicMachine, m.control = .handling 0x27 false .done [] ∧ Settled m) ∧
    ∃ m : PicMachine, m.control = .handling 0x27 true .done [MASTER_PIC_CMD] ∧ Settled m := by
  obtain ⟨s, hrun⟩ : ∃ s, Runs (fun m e m' => PicStep m e m' ∧ TellsSpurious m e)
      ⟨picInit.exec powerUp, .running⟩ [.raise 0, .accept, .withdraw 0, .pulse, .pulse, .io, .io]
      ⟨s, .handling 0x27 false .done []⟩ := by
    refine ⟨_, .cons ⟨rfl, nofun⟩ <| .cons ⟨rfl, nofun⟩ <| .cons ⟨rfl, nofun⟩ <| .cons ⟨rfl, nofun⟩ <|
      .cons ⟨rfl, nofun⟩ <| .cons ⟨rfl, fun _ _ _ h => ?_⟩ <| .single ⟨rfl, fun _ _ _ h => ?_⟩⟩
    · cases h
    · cases h
      decide
  obtain ⟨s', hrun'⟩ : ∃ s, Runs (fun m e m' => PicStep m e m' ∧ TellsSpurious m e)
      ⟨picInit.exec powerUp, .running⟩
      [.mask 0x7C 0xFF, .raise 7, .accept, .pulse, .pulse, .withdraw 7, .raise 7, .io, .io, .io]
      ⟨s, .handling 0x27 true .done [MASTER_PIC_CMD]⟩ := by
    refine ⟨_, .cons ⟨rfl, nofun⟩ <| .cons ⟨rfl, nofun⟩ <| .cons ⟨rfl, nofun⟩ <| .cons ⟨rfl, nofun⟩ <|
      .cons ⟨rfl, nofun⟩ <| .cons ⟨rfl, nofun⟩ <| .cons ⟨rfl, nofun⟩ <| .cons ⟨rfl, fun _ _ _ h => ?_⟩ <|
      .cons ⟨rfl, fun _ _ _ h => ?_⟩ <| .single ⟨rfl, fun _ _ _ h => ?_⟩⟩
    · cases h
    · cases h
      decide
    · cases h
  exact ⟨⟨_, rfl, eoi_settled powerUp hrun⟩, _, rfl, eoi_settled powerUp hrun'⟩

/-- IRQ7 unmasked and raised once: it stays in service. -/
theorem eoi_withheld : ¬ ∀ (s : Pics) (es : List PicEvent) (m : PicMachine),
    Runs PicStep ⟨picInit.exec s, .running⟩ es m → Settled m := by
  intro hall
  have hrun : Runs PicStep ⟨picInit.exec powerUp, .running⟩
      [.mask 0x7C 0xFF, .raise 7, .accept, .pulse, .pulse, .io, .io] ⟨_, .handling 0x27 true .done []⟩ :=
    .cons rfl (.cons rfl (.cons rfl (.cons rfl (.cons rfl (.cons rfl (.cons rfl .nil))))))
  have hclear := (hall _ _ _ hrun _ _ _ rfl).1
  exact absurd hclear (by decide)

end Ssmos

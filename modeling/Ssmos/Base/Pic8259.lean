/-
Two cascaded 8259 interrupt controllers in the mode PCs run them in: fixed
priorities, fully nested, the slave on the master's input 2. A register is a
byte with a bit for each input; input 0 has the highest priority.

The processor acknowledges an interrupt in two pulses. At the first the master
settles which input is served, and its request moves from IRR to ISR; a request
that is gone by then leaves ISR alone, and the interrupt delivered is spurious.
At the second the master, or the slave for input 2, gives the vector.
-/
import Mathlib.Data.Fin.Basic
import Mathlib.Data.List.FinRange

namespace Ssmos

/-! ## One controller -/

/-- An initialization word that is to come. -/
inductive Icw
  | icw2 | icw3 | icw4
  deriving DecidableEq, Repr

structure Pic where
  /-- Requests. -/
  irr : BitVec 8
  /-- Interrupts in service. -/
  isr : BitVec 8
  /-- Masked inputs. -/
  imr : BitVec 8
  /-- The vector of input 0. -/
  offset : UInt8
  init : List Icw
  /-- The command port reads as ISR, not as IRR. -/
  readIsr : Bool
  deriving DecidableEq, Repr

/-- The bit of an input. -/
def inputBit (n : Fin 8) : BitVec 8 := 1#8 <<< n.val

/-- The input with the highest priority. -/
def highest (r : BitVec 8) : Option (Fin 8) := (List.finRange 8).find? fun n => r.getLsbD n

namespace Pic

/-- The request to be served next: unmasked, and above all in service. -/
def next? (p : Pic) : Option (Fin 8) :=
  match highest (p.irr &&& ~~~p.imr), highest p.isr with
  | some n, some k => if n < k then some n else none
  | some n, none => some n
  | none, _ => none

/-- The INT output. -/
def int (p : Pic) : Bool := p.next?.isSome

def raise (p : Pic) (n : Fin 8) : Pic := { p with irr := p.irr ||| inputBit n }

/-- The input falls before its request was acknowledged, if it was not. -/
def withdraw (p : Pic) (n : Fin 8) : Pic := { p with irr := p.irr &&& ~~~inputBit n }

/-- An acknowledged request moves from IRR to ISR. -/
def take (p : Pic) (n : Fin 8) : Pic :=
  { p with irr := p.irr &&& ~~~inputBit n, isr := p.isr ||| inputBit n }

/-- A non-specific end of interrupt: of the one in service with the highest priority. -/
def eoi (p : Pic) : Pic :=
  match highest p.isr with
  | some n => { p with isr := p.isr &&& ~~~inputBit n }
  | none => p

/-- A write to the command port: ICW1, OCW3, or OCW2. -/
def command (p : Pic) (val : UInt8) : Pic :=
  if val.toBitVec.getLsbD 4 then
    { p with
      irr := 0
      isr := 0
      imr := 0
      init := .icw2 :: ((if val.toBitVec.getLsbD 1 then [] else [.icw3]) ++
        if val.toBitVec.getLsbD 0 then [.icw4] else [])
      readIsr := false }
  else if val.toBitVec.getLsbD 3 then
    if val.toBitVec.getLsbD 1 then { p with readIsr := val.toBitVec.getLsbD 0 } else p
  else if val &&& 0xE0 = 0x20 then p.eoi
  else p

/-- A write to the data port: the next initialization word, or the masks. -/
def dataWrite (p : Pic) (val : UInt8) : Pic :=
  match p.init with
  | .icw2 :: ws => { p with offset := val &&& 0xF8, init := ws }
  | .icw3 :: ws | .icw4 :: ws => { p with init := ws }
  | [] => { p with imr := val.toBitVec }

@[simp] theorem dataWrite_isr (p : Pic) (val : UInt8) : (p.dataWrite val).isr = p.isr := by
  unfold dataWrite
  split <;> rfl

@[simp] theorem dataWrite_init (p : Pic) (val : UInt8) : (p.dataWrite val).init = p.init.tail := by
  unfold dataWrite
  split
  next h => rw [h]; rfl
  next h => rw [h]; rfl
  next h => rw [h]; rfl
  next h => exact h.trans (by rw [h]; rfl)

@[simp] theorem dataWrite_offset (p : Pic) (val : UInt8) :
    (p.dataWrite val).offset = if p.init.head? = some .icw2 then val &&& 0xF8 else p.offset := by
  unfold dataWrite
  split
  next h => rw [h]; rfl
  next h => rw [h]; rfl
  next h => rw [h]; rfl
  next h => rw [h]; rfl

def commandRead (p : Pic) : UInt8 := UInt8.ofBitVec (if p.readIsr then p.isr else p.irr)
def dataRead (p : Pic) : UInt8 := UInt8.ofBitVec p.imr

/-- The vector of an input. -/
def vector (p : Pic) (n : Fin 8) : UInt8 := p.offset + UInt8.ofNat n

end Pic

/-! ## The pair -/

structure Pics where
  master : Pic
  slave : Pic
  deriving DecidableEq, Repr

/-- The master's input the slave is on. -/
def CASCADE : Fin 8 := 2

namespace Pics

/-- The master's request for the slave follows the slave's INT. -/
def cascade (s : Pics) : Pics :=
  { s with master := if s.slave.int then s.master.raise CASCADE else s.master.withdraw CASCADE }

@[simp] theorem cascade_slave (s : Pics) : s.cascade.slave = s.slave := rfl

@[simp] theorem cascade_isr (s : Pics) : s.cascade.master.isr = s.master.isr := by
  unfold cascade
  split <;> rfl

@[simp] theorem cascade_init (s : Pics) : s.cascade.master.init = s.master.init := by
  unfold cascade
  split <;> rfl

@[simp] theorem cascade_offset (s : Pics) : s.cascade.master.offset = s.master.offset := by
  unfold cascade
  split <;> rfl

@[simp] theorem cascade_readIsr (s : Pics) : s.cascade.master.readIsr = s.master.readIsr := by
  unfold cascade
  split <;> rfl

/-- One of the 16 inputs of the pair changes. -/
def onInput (f : Pic → Fin 8 → Pic) (s : Pics) (irq : Fin 16) : Pics :=
  if h : irq.val < 8 then cascade { s with master := f s.master ⟨irq, h⟩ }
  else cascade { s with slave := f s.slave ⟨irq - 8, by omega⟩ }

def raise (s : Pics) (irq : Fin 16) : Pics := s.onInput Pic.raise irq
def withdraw (s : Pics) (irq : Fin 16) : Pics := s.onInput Pic.withdraw irq

/-- The first pulse: what the master serves. -/
def settle (s : Pics) : Option (Fin 8) × Pics :=
  match s.master.next? with
  | some n => (some n, { s with master := s.master.take n })
  | none => (none, s)

/-- The second pulse: the vector, and whether it is of a request served. A
controller with nothing to serve gives its input 7. -/
def deliver (s : Pics) : Option (Fin 8) → (UInt8 × Bool) × Pics
  | none => ((s.master.vector 7, false), s)
  | some n =>
    if n = CASCADE then
      match s.slave.next? with
      | some k => ((s.slave.vector k, true), cascade { s with slave := s.slave.take k })
      | none => ((s.slave.vector 7, false), s)
    else ((s.master.vector n, true), s)

end Pics

/-! ## Requests -/

theorem getLsbD_inputBit : ∀ n k : Fin 8, (inputBit n).getLsbD k = decide (k = n) := by decide

theorem highest_getLsbD {r : BitVec 8} {n : Fin 8} (h : highest r = some n) : r.getLsbD n = true :=
  @List.find?_some _ (fun k : Fin 8 => r.getLsbD k) n _ h

theorem highest_eq_some : ∀ {r : BitVec 8} {n : Fin 8},
    highest r = some n ↔ r.getLsbD n = true ∧ ∀ k : Fin 8, k < n → r.getLsbD k = false := by
  decide +kernel

/-- It depends on no input of a lower priority. -/
theorem highest_congr {r r' : BitVec 8} {n : Fin 8} (h : highest r = some n)
    (hr : ∀ k : Fin 8, k ≤ n → r'.getLsbD k = r.getLsbD k) : highest r' = some n := by
  obtain ⟨hn, hlt⟩ := highest_eq_some.mp h
  exact highest_eq_some.mpr ⟨(hr n le_rfl).trans hn, fun k hk => (hr k hk.le).trans (hlt k hk)⟩

theorem getLsbD_raise (p : Pic) (n k : Fin 8) : (p.raise n).irr.getLsbD k = (decide (k = n) || p.irr.getLsbD k) := by
  rw [Pic.raise, BitVec.getLsbD_or, getLsbD_inputBit, Bool.or_comm]

/-- An input's request is withdrawn, or taken. -/
theorem getLsbD_clear (irr : BitVec 8) (n k : Fin 8) :
    (irr &&& ~~~inputBit n).getLsbD k = (!decide (k = n) && irr.getLsbD k) := by
  rw [BitVec.getLsbD_and, BitVec.getLsbD_not, getLsbD_inputBit, Bool.and_comm]
  simp

/-- What is served next has been requested. -/
theorem Pic.next?_requested {p : Pic} {n : Fin 8} (h : p.next? = some n) : p.irr.getLsbD n = true := by
  have hand : ∀ {k}, highest (p.irr &&& ~~~p.imr) = some k → p.irr.getLsbD k = true := fun hk => by
    have := highest_getLsbD hk
    rw [BitVec.getLsbD_and, Bool.and_eq_true] at this
    exact this.1
  unfold Pic.next? at h
  split at h
  · next hk _ =>
    obtain ⟨-, rfl⟩ := Option.ite_some_none_eq_some.mp h
    exact hand hk
  · next hk _ =>
    cases h
    exact hand hk
  · cases h

theorem Pic.eoi_irr (p : Pic) : p.eoi.irr = p.irr := by
  unfold Pic.eoi
  split <;> rfl

theorem Pic.dataWrite_irr (p : Pic) (val : UInt8) : (p.dataWrite val).irr = p.irr := by
  unfold Pic.dataWrite
  split <;> rfl

/-- A command that is no initialization word. -/
theorem Pic.command_irr (p : Pic) {val : UInt8} (hval : val.toBitVec.getLsbD 4 = false) :
    (p.command val).irr = p.irr := by
  unfold Pic.command
  rw [hval, if_neg Bool.false_ne_true]
  split
  · split <;> rfl
  · split
    · exact p.eoi_irr
    · rfl

theorem Pic.command_imr (p : Pic) {val : UInt8} (hval : val.toBitVec.getLsbD 4 = false) :
    (p.command val).imr = p.imr := by
  unfold Pic.command
  rw [hval, if_neg Bool.false_ne_true]
  split
  · split <;> rfl
  · split
    · unfold Pic.eoi
      split <;> rfl
    · rfl

namespace Pics

/-- An input of the pair has a request that was not acknowledged yet. -/
def requested (s : Pics) (n : Fin 16) : Bool :=
  if n.val < 8 then s.master.irr.getLsbD n else s.slave.irr.getLsbD (n - 8)

theorem requested_congr {s s' : Pics} (hmaster : s'.master.irr = s.master.irr) (hslave : s'.slave.irr = s.slave.irr)
    (n : Fin 16) : s'.requested n = s.requested n := by
  rw [requested, requested, hmaster, hslave]

/-- The cascade has a request of its own, and no other. -/
theorem cascade_requested (s : Pics) {n : Fin 16} (hn : n ≠ 2) : s.cascade.requested n = s.requested n := by
  unfold requested
  split
  · next hlt =>
    have hne : (⟨n, hlt⟩ : Fin 8) ≠ CASCADE := fun h => hn (Fin.ext (congrArg (fun k : Fin 8 => k.val) h))
    unfold cascade
    split
    · exact (getLsbD_raise _ _ ⟨n, hlt⟩).trans (by rw [decide_eq_false hne, Bool.false_or])
    · exact (getLsbD_clear _ _ ⟨n, hlt⟩).trans (by rw [decide_eq_false hne, Bool.not_false, Bool.true_and])
  · rfl

/-- A change of one input that `g` is to its request changes no other request. -/
theorem onInput_requested {f : Pic → Fin 8 → Pic} {g : Bool → Bool → Bool}
    (hf : ∀ p n k, (f p n).irr.getLsbD k.val = g (decide (k = n)) (p.irr.getLsbD k.val)) (s : Pics) (irq : Fin 16)
    (hg : ∀ b, g false b = b) {n : Fin 16} (hn : n ≠ 2) :
    (s.onInput f irq).requested n = g (decide (n = irq)) (s.requested n) := by
  unfold onInput
  split
  · next hirq =>
    rw [cascade_requested _ hn]
    unfold requested
    split
    · next hlt =>
      have hiff : (⟨n, hlt⟩ : Fin 8) = ⟨irq, hirq⟩ ↔ n = irq := by rw [Fin.ext_iff, Fin.ext_iff]
      exact (hf s.master ⟨irq, hirq⟩ ⟨n, hlt⟩).trans (by rw [decide_eq_decide.mpr hiff])
    · next hge => rw [decide_eq_false fun h : n = irq => hge (h ▸ hirq), hg]
  · next hirq =>
    rw [cascade_requested _ hn]
    unfold requested
    split
    · next hlt => rw [decide_eq_false fun h : n = irq => hirq (h ▸ hlt), hg]
    · next hge =>
      have hiff : (⟨n - 8, by omega⟩ : Fin 8) = ⟨irq - 8, by omega⟩ ↔ n = irq := by
        rw [Fin.ext_iff, Fin.ext_iff]
        dsimp only
        omega
      exact (hf s.slave ⟨irq - 8, by omega⟩ ⟨n - 8, by omega⟩).trans (by rw [decide_eq_decide.mpr hiff])

theorem raise_requested (s : Pics) (irq : Fin 16) {n : Fin 16} (hn : n ≠ 2) :
    (s.raise irq).requested n = (decide (n = irq) || s.requested n) :=
  onInput_requested getLsbD_raise s irq (fun b => Bool.false_or b) hn

theorem withdraw_requested (s : Pics) (irq : Fin 16) {n : Fin 16} (hn : n ≠ 2) :
    (s.withdraw irq).requested n = (!decide (n = irq) && s.requested n) :=
  onInput_requested (g := fun i b => !i && b) (fun p k j => getLsbD_clear p.irr k j) s irq (fun _ => rfl) hn

end Pics

end Ssmos

/-
`ata_identify` is all or nothing: until the drive says that it has data, it
leaves `identify[]` alone, and once it does, all 256 words are read.
-/
import Ssmos.AtaBuses

namespace Ssmos

/-! ## Ports of a bus -/

namespace AtaBus

def data (bus : AtaBus) : Nat := if bus = .primary then PRIMARY_DATA else SECONDARY_DATA
def cmdStatus (bus : AtaBus) : Nat := if bus = .primary then PRIMARY_CMD_STATUS else SECONDARY_CMD_STATUS
def lbaMid (bus : AtaBus) : Nat := (if bus = .primary then PRIMARY_SECTOR else SECONDARY_SECTOR) + 2

end AtaBus

/-- The accesses that read a port. -/
def Access.isRead : Access → Bool
  | .inb _ | .inw _ => true
  | .outb _ _ => false

/-- How many values of the stream some accesses took. -/
def readsIn (es : List Access) : Nat := es.countP Access.isRead

/-! ## Without the transfer -/

/-- What the driver does without touching `identify[]`: accesses, whose reads
take the stream's values in order. -/
def Asked (d d' : Driver) : Prop :=
  d'.identify = d.identify ∧
    ∃ es, d'.accesses = es ++ d.accesses ∧ d'.stream = fun k => d.stream (k + readsIn es)

abbrev Asks {α : Type} (x : Ata α) : Prop := Extends Asked x

theorem Asked.refl (d : Driver) : Asked d d := ⟨rfl, [], rfl, rfl⟩

theorem Asked.trans {d₁ d₂ d₃ : Driver} (h₁ : Asked d₁ d₂) (h₂ : Asked d₂ d₃) : Asked d₁ d₃ := by
  obtain ⟨hi₁, es₁, ha₁, hs₁⟩ := h₁
  obtain ⟨hi₂, es₂, ha₂, hs₂⟩ := h₂
  refine ⟨hi₂.trans hi₁, es₂ ++ es₁, by rw [ha₂, ha₁, List.append_assoc], ?_⟩
  rw [hs₂, hs₁]
  funext k
  simp only [readsIn, List.countP_append]
  congr 1
  omega

namespace Asks

variable {α β : Type} {x y : Ata α} {f : α → Ata β} {turns port : Nat} {val : UInt8} {bus : AtaBus}
  {drive : AtaDrive}

theorem pure {a : α} : Asks (Pure.pure a : Ata α) := Extends.pure .refl

theorem bind (hx : Asks x) (hf : ∀ a, Asks (f a)) : Asks (x >>= f) := Extends.bind .trans hx hf

theorem ite {c : Prop} [Decidable c] (hx : Asks x) (hy : Asks y) : Asks (if c then x else y) := by
  split
  next => exact hx
  next => exact hy

theorem inb : Asks (Ata.inb port) := fun _ => ⟨rfl, [.inb port], rfl, rfl⟩

theorem outb : Asks (Ata.outb port val) := fun _ => ⟨rfl, [.outb port val], rfl, rfl⟩

theorem pollBsyLoop : Asks (Ata.pollBsyLoop port turns) := by
  induction turns with
  | zero => exact fun d => .refl d
  | succ n ih => exact inb.bind fun _ => .ite ih .pure

theorem delay : Asks (Ata.delay bus) :=
  inb.bind fun _ => inb.bind fun _ => inb.bind fun _ => inb.bind fun _ => inb.bind fun _ => .pure

theorem select : Asks (Ata.select bus drive) := by
  have hget : Asks (MonadState.get : Ata Driver) := fun d => .refl d
  refine delay.bind fun _ => .ite (hget.bind fun _ => .ite .pure ?_) (hget.bind fun _ => .ite .pure ?_)
  · refine outb.bind fun _ => Asks.bind (fun d => ?_) fun _ => delay
    exact ⟨rfl, [], rfl, rfl⟩
  · refine outb.bind fun _ => Asks.bind (fun d => ?_) fun _ => delay
    exact ⟨rfl, [], rfl, rfl⟩

end Asks

/-! ## The wait for data and the transfer -/

/-- `n` reads of a port. -/
def Driver.reads (d : Driver) (a : Access) (n : Nat) : Driver :=
  { d with stream := fun k => d.stream (k + n), accesses := List.replicate n a ++ d.accesses }

theorem Driver.read_reads (d : Driver) (a : Access) (n : Nat) : (d.read a).reads a n = d.reads a (n + 1) := by
  simp only [Driver.reads, List.replicate_succ', List.append_assoc]
  rfl

theorem Ata.modify_run (g : Driver → Driver) (d : Driver) : (modify g : Ata Unit) d = (.ok (), g d) := rfl

section

variable {d d' : Driver} {port n i turns : Nat} {b : Bool} {bus : AtaBus} {drive : AtaDrive}

/-- A status byte among the values to come. -/
def Driver.status (d : Driver) (k : Nat) : UInt32 := (d.stream k).toUInt8.toUInt32

/-- The wait for DRQ: it returns true only on a status with DRQ, after
statuses without ERR. -/
theorem pollDrqLoop_true (h : Ata.pollDrqLoop port turns d = (.ok true, d')) :
    ∃ n, d' = d.reads (.inb port) (n + 1) ∧ (∀ k ≤ n, checkBit (d.status k) STATUS_ERR = false) ∧
      checkBit (d.status n) STATUS_DRQ = true := by
  induction turns generalizing d with
  | zero => cases h
  | succ turns ih =>
    rw [Ata.pollDrqLoop, ExceptT.bind_of_ok (rfl : Ata.inb port d = (.ok _, d.read (.inb port)))] at h
    by_cases herr : checkBit (d.status 0) STATUS_ERR
    · rw [Driver.status] at herr
      rw [if_pos herr] at h
      cases h
    · have hclear : checkBit (d.status 0) STATUS_ERR = false := by simpa using herr
      rw [Driver.status] at herr
      rw [if_neg herr] at h
      by_cases hdrq : checkBit (d.status 0) STATUS_DRQ = false
      · rw [Driver.status] at hdrq
        rw [if_pos hdrq] at h
        obtain ⟨n, hd', hquiet, hlast⟩ := ih h
        refine ⟨n + 1, by rw [hd', Driver.read_reads], fun k hk => ?_, hlast⟩
        cases k with
        | zero => exact hclear
        | succ k => exact hquiet k (by omega)
      · have hset : checkBit (d.status 0) STATUS_DRQ = true := by simpa using hdrq
        rw [Driver.status] at hdrq
        rw [if_neg hdrq] at h
        refine ⟨0, ?_, fun k hk => by rwa [Nat.le_zero.mp hk], hset⟩
        split at h
        · cases h
          rfl
        · cases h

theorem pollDrqLoop_asks : Asks (Ata.pollDrqLoop port turns) := by
  induction turns with
  | zero => exact fun d => .refl d
  | succ n ih => exact Asks.inb.bind fun _ => .ite .pure (.ite ih (.ite .pure .pure))

theorem identifyLoop_run : Ata.identifyLoop port n i d = (.ok (), { d.reads (.inw port) n with
    identify := fun j => if i ≤ j ∧ j < i + n then d.stream (j - i) else d.identify j }) := by
  induction n generalizing i d with
  | zero =>
    have hnone : ∀ j, ¬(i ≤ j ∧ j < i + 0) := fun j => by omega
    simp only [hnone, if_false]
    rfl
  | succ n ih =>
    rw [Ata.identifyLoop, ExceptT.bind_of_ok (rfl : Ata.inw port d = (.ok _, d.read (.inw port))),
      ExceptT.bind_of_ok (Ata.modify_run _ _), ih, ← Driver.read_reads]
    -- The word at `i` comes first, the others after it.
    have hwords : ∀ j, (if i + 1 ≤ j ∧ j < i + 1 + n then d.stream (j - (i + 1) + 1)
        else if j = i then d.stream 0 else d.identify j) =
        if i ≤ j ∧ j < i + (n + 1) then d.stream (j - i) else d.identify j := by
      intro j
      by_cases hj : j = i
      · rw [if_neg (by omega), if_pos hj, if_pos (by omega), hj, Nat.sub_self]
      · rw [if_neg hj]
        by_cases hlater : i + 1 ≤ j ∧ j < i + 1 + n
        · rw [if_pos hlater, if_pos (by omega), show j - (i + 1) + 1 = j - i by omega]
        · rw [if_neg hlater, if_neg (by omega)]
    simp only [← hwords]
    rfl

/-- The end of an `ata_identify` that returns true: after the read of LBA mid
`es` ends with, status reads without ERR up to one with DRQ, then 256 reads of
the data port, whose words are `identify[]`. -/
def Transferred (bus : AtaBus) (d d' : Driver) : Prop :=
  ∃ es n, es.head? = some (.inb bus.lbaMid) ∧
    d'.accesses = List.replicate IDENTIFY_SIZE (.inw bus.data) ++
      (List.replicate (n + 1) (.inb bus.cmdStatus) ++ (es ++ d.accesses)) ∧
    (∀ k ≤ n, checkBit (d.status (k + readsIn es)) STATUS_ERR = false) ∧
    checkBit (d.status (n + readsIn es)) STATUS_DRQ = true ∧
    ∀ i, d'.identify i = if i < IDENTIFY_SIZE then d.stream (i + (n + 1) + readsIn es) else d.identify i

/-- All or nothing. -/
def AllOrNothing (bus : AtaBus) (d : Driver) (b : Bool) (d' : Driver) : Prop :=
  if b then Transferred bus d d' else Asked d d'

/-- The words read after a wait that ended with DRQ. -/
theorem transferred {d₁ d₂ : Driver} (hd : Asked d d₁)
    (hwait : d₂ = (d₁.read (.inb bus.lbaMid)).reads (.inb bus.cmdStatus) (n + 1))
    (hquiet : ∀ k ≤ n, checkBit ((d₁.read (.inb bus.lbaMid)).status k) STATUS_ERR = false)
    (hlast : checkBit ((d₁.read (.inb bus.lbaMid)).status n) STATUS_DRQ = true) :
    Transferred bus d { d₂.reads (.inw bus.data) IDENTIFY_SIZE with
      identify := fun j => if 0 ≤ j ∧ j < 0 + IDENTIFY_SIZE then d₂.stream (j - 0) else d₂.identify j } := by
  obtain ⟨hidentify, es, haccesses, hstream⟩ := hd
  have hreads : readsIn (.inb bus.lbaMid :: es) = readsIn es + 1 := List.countP_cons_of_pos rfl
  -- The values the wait and the transfer take, from the start of the call on.
  have hvalue : ∀ k, (d₁.read (.inb bus.lbaMid)).stream k =
      d.stream (k + readsIn (.inb bus.lbaMid :: es)) := fun k => by
    rw [hreads, Nat.add_comm (readsIn es), ← Nat.add_assoc]
    exact congrFun hstream (k + 1)
  have hstatus : ∀ k, (d₁.read (.inb bus.lbaMid)).status k =
      d.status (k + readsIn (.inb bus.lbaMid :: es)) := fun k => by
    rw [Driver.status, hvalue, Driver.status]
  subst hwait
  refine ⟨.inb bus.lbaMid :: es, n, rfl, ?_, fun k hk => ?_, ?_, fun i => ?_⟩
  · have hlog : (d₁.read (.inb bus.lbaMid)).accesses = .inb bus.lbaMid :: (es ++ d.accesses) := by
      rw [← haccesses]
      rfl
    simp only [Driver.reads, hlog]
    rfl
  · rw [← hstatus]
    exact hquiet k hk
  · rw [← hstatus]
    exact hlast
  · rw [← hvalue, ← hidentify]
    simp only [Nat.zero_le, true_and, Nat.zero_add, Nat.sub_zero]
    rfl

/-- `ata_identify` from the read of LBA mid on. -/
theorem transfer_endsIn : EndsIn Asked d (AllOrNothing bus d) (do
    if (← Ata.inb bus.lbaMid) ≠ 0x0 then pure false
    else if (← Ata.pollDrq turns bus) = false then pure false
    else do
      Ata.identifyLoop bus.data IDENTIFY_SIZE 0
      return true) := by
  intro d₁ hd b d' h
  have hmid : Asked d (d₁.read (.inb bus.lbaMid)) := hd.trans (Asks.inb d₁)
  rw [ExceptT.bind_of_ok (rfl : Ata.inb bus.lbaMid d₁ = (.ok _, d₁.read (.inb bus.lbaMid)))] at h
  split at h
  · cases h
    exact hmid
  · rw [ExceptT.bind_eq] at h
    have hasked : Asked _ (Ata.pollDrq turns bus (d₁.read (.inb bus.lbaMid))).2 := pollDrqLoop_asks _
    cases hpoll : Ata.pollDrq turns bus (d₁.read (.inb bus.lbaMid)) with
    | mk r d₂ =>
      rw [hpoll] at h hasked
      rcases r with e | ready
      · cases (Prod.mk.inj h).1
      · cases ready with
        | false =>
          cases h
          exact hmid.trans hasked
        | true =>
          obtain ⟨n, hwait, hquiet, hlast⟩ := pollDrqLoop_true hpoll
          simp only [Bool.true_eq_false, if_false] at h
          rw [ExceptT.bind_of_ok identifyLoop_run] at h
          cases h
          exact transferred hd hwait hquiet hlast

/-- **`ata_identify` is all or nothing**: whatever the ports return, if it
returns false `identify[]` is as it was, and if it returns true the status read
last while waiting for DRQ had it set, none of them had ERR set, and
`identify[]` is the 256 words read after that. -/
theorem identify_all_or_nothing (turns : Nat) (bus : AtaBus) (drive : AtaDrive) (d : Driver) :
    ((Ata.identify turns bus drive d).1 = .ok false → (Ata.identify turns bus drive d).2.identify = d.identify) ∧
      ((Ata.identify turns bus drive d).1 = .ok true → Transferred bus d (Ata.identify turns bus drive d).2) := by
  have hends : EndsIn Asked d (AllOrNothing bus d) (Ata.identify turns bus drive) := by
    have hcall : Asks (Ata.pollBsy turns bus) := Asks.pollBsyLoop
    refine EndsIn.bind .trans Asks.select fun _ => EndsIn.bind .trans Asks.outb fun _ => ?_
    refine EndsIn.bind .trans Asks.outb fun _ => EndsIn.bind .trans Asks.outb fun _ => ?_
    refine EndsIn.bind .trans Asks.outb fun _ => EndsIn.bind .trans Asks.outb fun _ => ?_
    refine EndsIn.bind .trans Asks.inb fun _ => .ite (.pure fun _ h => h) ?_
    refine EndsIn.bind .trans hcall fun _ => EndsIn.bind .trans Asks.inb fun _ => ?_
    exact .ite (.pure fun _ h => h) transfer_endsIn
  constructor
  · intro hb
    have hasked : Asked d (Ata.identify turns bus drive d).2 := hends d (.refl d) false _ (Prod.ext hb rfl)
    exact hasked.1
  · intro hb
    exact hends d (.refl d) true _ (Prod.ext hb rfl)

/-- A drive that is ready at once: `0x50` until both LBA bytes are read as zero,
then `0x58`. -/
theorem identify_all_or_nothing_ready : (let d : Driver := ⟨fun k => if k = 7 ∨ k = 8 then 0 else
      if k < 9 then 0x50 else 0x58, [], fun _ => 0, .master, .master⟩
    Transferred .primary d (Ata.identify 1 .primary .master d).2) :=
  (identify_all_or_nothing 1 .primary .master _).2 (by decide +kernel)

end

end Ssmos

/-
The drives on the other side of the ATA driver's ports: what is selected on a
bus is what the driver remembers, so a command is received by the drive it is
meant for, on any sequence of calls on both buses.
-/
import Ssmos.AtaIdentify
import Ssmos.Base.Runs

namespace Ssmos

/-! ## The drives -/

namespace AtaBus

def driveHead (bus : AtaBus) : Nat := if bus = .primary then PRIMARY_DRIVE_HEAD else SECONDARY_DRIVE_HEAD
def dcr (bus : AtaBus) : Nat := if bus = .primary then PRIMARY_DCR else SECONDARY_DCR

/-- The ports the drives of a bus listen on. -/
def ports (bus : AtaBus) : List Nat :=
  if bus = .primary then PRIMARY_DCR :: (List.range 8).map (PRIMARY_ATA + ·)
  else SECONDARY_DCR :: (List.range 8).map (SECONDARY_ATA + ·)

end AtaBus

namespace Access

def port : Access → Nat
  | .inb port | .inw port | .outb port _ => port

/-- The drive that is selected on a bus after an access: bit 4 of the drive
register selects one, and a software reset the master. -/
def selected (bus : AtaBus) (drive : AtaDrive) : Access → AtaDrive
  | .outb port val =>
    if port = bus.driveHead then (if checkBit val.toUInt32 4 then .slave else .master)
    else if port = bus.dcr ∧ checkBit val.toUInt32 2 then .master
    else drive
  | _ => drive

end Access

/-- The drive that is selected after some accesses, latest first; when the power
comes on it is the master. -/
def answering (bus : AtaBus) : List Access → AtaDrive
  | [] => .master
  | a :: as => a.selected bus (answering bus as)

/-- How often the drive has received a command. -/
def received (bus : AtaBus) (drive : AtaDrive) (cmd : UInt8) : List Access → Nat
  | [] => 0
  | a :: as => received bus drive cmd as +
    if a = .outb bus.cmdStatus cmd ∧ answering bus as = drive then 1 else 0

/-- What the driver remembers. -/
def Driver.selected (d : Driver) : AtaBus → AtaDrive
  | .primary => d.primarySelected
  | .secondary => d.secondarySelected

/-- The driver and the drives agree. -/
def Coherent (d : Driver) : Prop := ∀ bus, d.selected bus = answering bus d.accesses

/-! ## Accesses that select no drive -/

section

variable {bus b : AtaBus} {drive : AtaDrive} {a : Access} {es as : List Access} {d d' d₁ d₂ d₃ : Driver}
  {cmd val : UInt8} {port turns : Nat}

/-- The buses have no port in common. -/
theorem ports_apart (hp : port ∈ bus.ports) (hb : b ≠ bus) :
    port ≠ b.driveHead ∧ port ≠ b.dcr ∧ port ≠ b.cmdStatus := by
  have hall : ∀ bus b : AtaBus, b ≠ bus → ∀ port ∈ bus.ports,
      port ≠ b.driveHead ∧ port ≠ b.dcr ∧ port ≠ b.cmdStatus := by
    intro bus b
    cases bus <;> cases b <;> decide
  exact hall bus b hb port hp

/-- An access on a bus that selects no drive and is no such command. -/
structure Access.Plain (bus : AtaBus) (cmd : UInt8) (a : Access) : Prop where
  port : a.port ∈ bus.ports
  selected : ∀ drive, a.selected bus drive = drive
  command : a ≠ .outb bus.cmdStatus cmd

theorem Access.selected_ne (hp : a.port ∈ bus.ports) (hb : b ≠ bus) : a.selected b drive = drive := by
  cases a with
  | inb => rfl
  | inw => rfl
  | outb port val =>
    have hp : port ∈ bus.ports := hp
    obtain ⟨h₁, h₂, -⟩ := ports_apart hp hb
    rw [Access.selected, if_neg h₁, if_neg fun hx => h₂ hx.1]

theorem Access.ne_command (hp : a.port ∈ bus.ports) (hb : b ≠ bus) : a ≠ .outb b.cmdStatus cmd := by
  rintro rfl
  exact (ports_apart hp hb).2.2 rfl

theorem Access.Plain.selected_eq (h : a.Plain bus cmd) (b : AtaBus) : a.selected b drive = drive := by
  by_cases hb : b = bus
  · rw [hb]
    exact h.selected drive
  · exact Access.selected_ne h.port hb

theorem answering_append (h : ∀ a ∈ es, a.Plain bus cmd) (b : AtaBus) : answering b (es ++ as) = answering b as := by
  induction es with
  | nil => rfl
  | cons a es ih =>
    rw [List.cons_append, answering, (h a List.mem_cons_self).selected_eq]
    exact ih fun a ha => h a (List.mem_cons_of_mem _ ha)

theorem received_append (h : ∀ a ∈ es, a.Plain bus cmd) (b : AtaBus) (drive : AtaDrive) :
    received b drive cmd (es ++ as) = received b drive cmd as := by
  induction es with
  | nil => rfl
  | cons a es ih =>
    have ha := h a List.mem_cons_self
    have hne : a ≠ .outb b.cmdStatus cmd := by
      by_cases hb : b = bus
      · rw [hb]
        exact ha.command
      · exact Access.ne_command ha.port hb
    rw [List.cons_append, received, if_neg fun hx => hne hx.1, Nat.add_zero]
    exact ih fun a ha => h a (List.mem_cons_of_mem _ ha)

/-! ## Code that selects no drive -/

/-- What the driver does on a bus without selecting a drive or giving the command. -/
def Stayed (bus : AtaBus) (cmd : UInt8) (d d' : Driver) : Prop :=
  (∀ b, d'.selected b = d.selected b) ∧ ∃ es, d'.accesses = es ++ d.accesses ∧ ∀ a ∈ es, a.Plain bus cmd

theorem Stayed.refl (d : Driver) : Stayed bus cmd d d := ⟨fun _ => rfl, [], rfl, nofun⟩

theorem Stayed.trans (h₁ : Stayed bus cmd d₁ d₂) (h₂ : Stayed bus cmd d₂ d₃) : Stayed bus cmd d₁ d₃ := by
  obtain ⟨hs₁, es₁, ha₁, hp₁⟩ := h₁
  obtain ⟨hs₂, es₂, ha₂, hp₂⟩ := h₂
  refine ⟨fun b => (hs₂ b).trans (hs₁ b), es₂ ++ es₁, by rw [ha₂, ha₁, List.append_assoc], fun a ha => ?_⟩
  exact (List.mem_append.mp ha).elim (hp₂ a) (hp₁ a)

theorem Stayed.coherent (h : Stayed bus cmd d d') (hd : Coherent d) : Coherent d' := fun b => by
  obtain ⟨hs, es, ha, hp⟩ := h
  rw [hs, ha, answering_append hp]
  exact hd b

theorem Stayed.received (h : Stayed bus cmd d d') (b : AtaBus) (drive : AtaDrive) :
    received b drive cmd d'.accesses = received b drive cmd d.accesses := by
  obtain ⟨-, es, ha, hp⟩ := h
  rw [ha, received_append hp]

/-- As long as it runs, `x` does no more than that. -/
abbrev Stays {α : Type} (bus : AtaBus) (cmd : UInt8) (x : Ata α) : Prop := Extends (Stayed bus cmd) x

namespace Stays

variable {α β : Type} {x y : Ata α} {f : α → Ata β}

theorem pure {a : α} : Stays bus cmd (Pure.pure a : Ata α) := Extends.pure .refl

theorem throw {e : Stop} : Stays bus cmd (throw e : Ata α) := fun d => .refl d

theorem bind (hx : Stays bus cmd x) (hf : ∀ a, Stays bus cmd (f a)) : Stays bus cmd (x >>= f) :=
  Extends.bind .trans hx hf

theorem ite {c : Prop} [Decidable c] (hx : Stays bus cmd x) (hy : Stays bus cmd y) :
    Stays bus cmd (if c then x else y) := by
  split
  next => exact hx
  next => exact hy

theorem inb (hp : port ∈ bus.ports) : Stays bus cmd (Ata.inb port) := fun d =>
  ⟨fun b => by cases b <;> rfl, [.inb port], rfl, by simpa using ⟨hp, fun _ => rfl, nofun⟩⟩

theorem inw (hp : port ∈ bus.ports) : Stays bus cmd (Ata.inw port) := fun d =>
  ⟨fun b => by cases b <;> rfl, [.inw port], rfl, by simpa using ⟨hp, fun _ => rfl, nofun⟩⟩

theorem outb (h : (Access.outb port val).Plain bus cmd) : Stays bus cmd (Ata.outb port val) := fun d =>
  ⟨fun b => by cases b <;> rfl, [.outb port val], rfl, by simpa using h⟩

theorem pollBsyLoop (hp : port ∈ bus.ports) : Stays bus cmd (Ata.pollBsyLoop port turns) := by
  induction turns with
  | zero => exact .throw
  | succ n ih => exact (inb hp).bind fun _ => .ite ih .pure

theorem pollDrqLoop (hp : port ∈ bus.ports) : Stays bus cmd (Ata.pollDrqLoop port turns) := by
  induction turns with
  | zero => exact .throw
  | succ n ih => exact (inb hp).bind fun _ => .ite .pure (.ite ih (.ite .pure .pure))

theorem resetLoop (hp : port ∈ bus.ports) : Stays bus cmd (Ata.resetLoop port turns) := by
  induction turns with
  | zero => exact .throw
  | succ n ih => exact (inb hp).bind fun _ => .ite ih ((inb hp).bind fun _ => .ite ih .pure)

theorem identifyLoop (hp : port ∈ bus.ports) {n i : Nat} : Stays bus cmd (Ata.identifyLoop port n i) := by
  induction n generalizing i with
  | zero => exact .pure
  | succ n ih =>
    refine (inw hp).bind fun _ => Stays.bind (fun d => ?_) fun _ => ih
    exact ⟨fun b => by cases b <;> rfl, [], rfl, nofun⟩

end Stays

/-- The ports the driver's functions use. -/
theorem AtaBus.mem_ports (bus : AtaBus) : bus.dcr ∈ bus.ports ∧ bus.cmdStatus ∈ bus.ports ∧
    bus.data ∈ bus.ports ∧ bus.driveHead ∈ bus.ports ∧ bus.lbaMid ∈ bus.ports ∧ bus.lbaMid + 1 ∈ bus.ports ∧
    signaturePort bus ∈ bus.ports ∧ signaturePort bus + 1 ∈ bus.ports := by
  cases bus <;> decide

namespace Stays

theorem delay : Stays bus cmd (Ata.delay bus) :=
  have hp := bus.mem_ports.1
  (inb hp).bind fun _ => (inb hp).bind fun _ => (inb hp).bind fun _ => (inb hp).bind fun _ =>
    (inb hp).bind fun _ => .pure

theorem floating : Stays bus cmd (Ata.floating bus) :=
  have hp := bus.mem_ports.2.1
  (inb hp).bind fun _ => .ite .pure ((inb hp).bind fun _ => .ite .pure .pure)

theorem flush (hcmd : cmd ≠ CACHE_FLUSH) : Stays bus cmd (Ata.flush turns bus) := by
  have hp := bus.mem_ports.2.1
  refine (outb ⟨hp, fun drive => ?_, fun hx => hcmd ?_⟩).bind fun _ => pollBsyLoop hp
  · cases bus <;> rfl
  · exact (Access.outb.inj hx).2.symm

theorem pollBsy : Stays bus cmd (Ata.pollBsy turns bus) := pollBsyLoop bus.mem_ports.2.1

theorem pollDrq : Stays bus cmd (Ata.pollDrq turns bus) := pollDrqLoop bus.mem_ports.2.1

end Stays

/-! ## Selecting a drive -/

/-- An access that selects the drive the driver goes on to remember. -/
theorem Coherent.select (hd : Coherent d) (ha : a.port ∈ bus.ports)
    (hselected : a.selected bus (answering bus d.accesses) = drive) (haccesses : d'.accesses = a :: d.accesses)
    (hbus : d'.selected bus = drive) (hother : ∀ b, b ≠ bus → d'.selected b = d.selected b) : Coherent d' := by
  intro b
  rw [haccesses, answering]
  by_cases hb : b = bus
  · rw [hb, hbus, hselected]
  · rw [Access.selected_ne ha hb, hother b hb]
    exact hd b

/-- What may change the selection keeps the count of a command it does not give. -/
theorem received_cons (ha : a.port ∈ bus.ports) (hne : a ≠ .outb bus.cmdStatus cmd) (b : AtaBus)
    (drive : AtaDrive) : received b drive cmd (a :: as) = received b drive cmd as := by
  have hb : a ≠ .outb b.cmdStatus cmd := by
    by_cases hb : b = bus
    · rw [hb]
      exact hne
    · exact Access.ne_command ha hb
  rw [received, if_neg fun hx => hb hx.1, Nat.add_zero]

/-- The driver agrees with the drives again, and no drive got the command. -/
structure Unheard (cmd : UInt8) (d d' : Driver) : Prop where
  coherent : Coherent d'
  received : ∀ b drive, received b drive cmd d'.accesses = received b drive cmd d.accesses

theorem Stayed.unheard (h : Stayed bus cmd d d') (hd : Coherent d) : Unheard cmd d d' := ⟨h.coherent hd, h.received⟩

theorem Unheard.trans (h₁ : Unheard cmd d₁ d₂) (h₂ : Unheard cmd d₂ d₃) : Unheard cmd d₁ d₃ :=
  ⟨h₂.coherent, fun b drive => (h₂.received b drive).trans (h₁.received b drive)⟩

theorem delay_run (bus : AtaBus) (cmd : UInt8) (d : Driver) :
    ∃ d', Ata.delay bus d = (.ok (), d') ∧ Stayed bus cmd d d' := ⟨_, rfl, Stays.delay d⟩

/-- The write of the drive register, with what the driver remembers of it. -/
def Driver.select (d : Driver) (bus : AtaBus) (drive : AtaDrive) : Driver :=
  match bus with
  | .primary =>
    { d.write (.outb PRIMARY_DRIVE_HEAD (if drive = .master then SELECT_MASTER else SELECT_SLAVE)) with
      primarySelected := drive }
  | .secondary =>
    { d.write (.outb SECONDARY_DRIVE_HEAD (if drive = .master then SELECT_MASTER else SELECT_SLAVE)) with
      secondarySelected := drive }

theorem Driver.select_unheard (cmd : UInt8) (hd : Coherent d) (bus : AtaBus) (drive : AtaDrive) :
    Unheard cmd d (d.select bus drive) ∧ (d.select bus drive).selected bus = drive := by
  have haccesses : (d.select bus drive).accesses =
      .outb bus.driveHead (if drive = .master then SELECT_MASTER else SELECT_SLAVE) :: d.accesses := by
    cases bus <;> rfl
  have hbus : (d.select bus drive).selected bus = drive := by
    cases bus <;> rfl
  have hother : ∀ b, b ≠ bus → (d.select bus drive).selected b = d.selected b := fun b hb => by
    cases bus <;> cases b <;> first | rfl | contradiction
  have hport := bus.mem_ports.2.2.2.1
  have hne : bus.driveHead ≠ bus.cmdStatus := by
    cases bus <;> decide
  refine ⟨⟨hd.select (a := .outb bus.driveHead _) hport ?_ haccesses hbus hother, fun b dr => ?_⟩, hbus⟩
  · rw [Access.selected, if_pos rfl]
    cases drive <;> rfl
  · rw [haccesses]
    exact received_cons hport (fun hx => hne (Access.outb.inj hx).1) b dr

theorem select_eq (bus : AtaBus) (drive : AtaDrive) (hdelay : Ata.delay bus d = (.ok (), d₁)) :
    Ata.select bus drive d =
      if d₁.selected bus = drive then (.ok (), d₁) else Ata.delay bus (d₁.select bus drive) := by
  rw [Ata.select, ExceptT.bind_of_ok hdelay]
  cases bus with
  | primary =>
    change (if d₁.primarySelected = drive then (pure () : Ata Unit) else _) d₁ =
      if d₁.primarySelected = drive then _ else _
    split
    next => rfl
    next => rfl
  | secondary =>
    change (if d₁.secondarySelected = drive then (pure () : Ata Unit) else _) d₁ =
      if d₁.secondarySelected = drive then _ else _
    split
    next => rfl
    next => rfl

/-- **`ata_select`** leaves the drive selected, whether it had to write or not. -/
theorem select_run (cmd : UInt8) (hd : Coherent d) (bus : AtaBus) (drive : AtaDrive) :
    ∃ d', Ata.select bus drive d = (.ok (), d') ∧ Unheard cmd d d' ∧ d'.selected bus = drive := by
  obtain ⟨d₁, hdelay, hstayed⟩ := delay_run bus cmd d
  have hd₁ := hstayed.unheard hd
  rw [select_eq bus drive hdelay]
  by_cases hsel : d₁.selected bus = drive
  · exact ⟨d₁, if_pos hsel, hd₁, hsel⟩
  · obtain ⟨hunheard, hbus⟩ := Driver.select_unheard cmd hd₁.coherent bus drive
    obtain ⟨d₂, hdelay₂, hstayed₂⟩ := delay_run bus cmd (d₁.select bus drive)
    rw [if_neg hsel]
    exact ⟨d₂, hdelay₂, hd₁.trans (hunheard.trans (hstayed₂.unheard hunheard.coherent)),
      (hstayed₂.1 bus).trans hbus⟩

/-! ## Resetting a bus -/

/-- The start of a software reset, with what the driver remembers of it. -/
def Driver.reset (d : Driver) (bus : AtaBus) : Driver :=
  match bus with
  | .primary => { d with primarySelected := .master }.write (.outb PRIMARY_DCR 0x4)
  | .secondary => { d with secondarySelected := .master }.write (.outb SECONDARY_DCR 0x4)

theorem Driver.reset_unheard (cmd : UInt8) (hd : Coherent d) (bus : AtaBus) : Unheard cmd d (d.reset bus) := by
  have haccesses : (d.reset bus).accesses = .outb bus.dcr 0x4 :: d.accesses := by
    cases bus <;> rfl
  have hbus : (d.reset bus).selected bus = .master := by
    cases bus <;> rfl
  have hother : ∀ b, b ≠ bus → (d.reset bus).selected b = d.selected b := fun b hb => by
    cases bus <;> cases b <;> first | rfl | contradiction
  have hport := bus.mem_ports.1
  have hne : bus.dcr ≠ bus.driveHead ∧ bus.dcr ≠ bus.cmdStatus := by
    cases bus <;> decide
  refine ⟨hd.select (a := .outb bus.dcr 0x4) hport ?_ haccesses hbus hother, fun b dr => ?_⟩
  · rw [Access.selected, if_neg hne.1, if_pos ⟨rfl, by decide⟩]
  · rw [haccesses]
    exact received_cons hport (fun hx => hne.2 (Access.outb.inj hx).1) b dr

/-- The end of a software reset selects nothing. -/
theorem Stays.released : Stays bus cmd (do
    Ata.outb bus.dcr 0x0
    Ata.delay bus
    Ata.resetLoop bus.dcr turns) := by
  have hport := bus.mem_ports.1
  have hne : bus.dcr ≠ bus.driveHead ∧ bus.dcr ≠ bus.cmdStatus := by
    cases bus <;> decide
  have hselected : ∀ drive, (Access.outb bus.dcr 0x0).selected bus drive = drive := fun drive => by
    rw [Access.selected, if_neg hne.1, if_neg fun hx => absurd hx.2 (by decide)]
  exact (outb ⟨hport, hselected, fun hx => hne.2 (Access.outb.inj hx).1⟩).bind fun _ =>
    delay.bind fun _ => resetLoop hport

theorem reset_eq (turns : Nat) (bus : AtaBus) (d : Driver) : ∃ d₁ floats, Ata.floating bus d = (.ok floats, d₁) ∧
    Ata.reset turns bus d = if floats then (.ok (), d₁) else (do
      Ata.outb bus.dcr 0x0
      Ata.delay bus
      Ata.resetLoop bus.dcr turns : Ata Unit) (d₁.reset bus) := by
  have hfloating : Completes (Ata.floating bus) := by
    have hinb : ∀ {port}, Completes (Ata.inb port) := fun s => ⟨_, _, rfl⟩
    have hpure : ∀ {b : Bool}, Completes (pure b : Ata Bool) := fun s => ⟨_, s, rfl⟩
    exact hinb.bind fun _ => .ite hpure (hinb.bind fun _ => .ite hpure hpure)
  obtain ⟨floats, d₁, hrun⟩ := hfloating d
  refine ⟨d₁, floats, hrun, ?_⟩
  rw [Ata.reset, ExceptT.bind_of_ok hrun]
  cases floats with
  | true => rfl
  | false => cases bus <;> rfl

/-- **`ata_reset`** leaves the master selected, on both sides, or a floating bus
alone; also if the drives are never ready. -/
theorem reset_unheard (cmd : UInt8) (hd : Coherent d) (turns : Nat) (bus : AtaBus) :
    Unheard cmd d (Ata.reset turns bus d).2 := by
  obtain ⟨d₁, floats, hfloating, hreset⟩ := reset_eq turns bus d
  have hstayed : Stayed bus cmd d d₁ := by
    have h : Stayed bus cmd d (Ata.floating bus d).2 := Stays.floating d
    rwa [hfloating] at h
  have hd₁ := hstayed.unheard hd
  rw [hreset]
  cases floats with
  | true => exact hd₁
  | false =>
    have hunheard := Driver.reset_unheard cmd hd₁.coherent bus
    exact hd₁.trans (hunheard.trans ((Stays.released (d₁.reset bus)).unheard hunheard.coherent))

/-! ## Commands -/

/-- The write of a command is received by the drive that is remembered. -/
theorem command_received (hd : Coherent d) (bus : AtaBus) (cmd : UInt8) :
    Coherent (d.write (.outb bus.cmdStatus cmd)) ∧ ∀ b drive,
      received b drive cmd (d.write (.outb bus.cmdStatus cmd)).accesses =
        received b drive cmd d.accesses + if b = bus ∧ d.selected bus = drive then 1 else 0 := by
  have hport := bus.mem_ports.2.1
  have hne : bus.cmdStatus ≠ bus.driveHead ∧ bus.cmdStatus ≠ bus.dcr := by
    cases bus <;> decide
  have hkept : ∀ b drive, (Access.outb bus.cmdStatus cmd).selected b drive = drive := fun b drive => by
    by_cases hb : b = bus
    · rw [hb, Access.selected, if_neg hne.1, if_neg fun hx => hne.2 hx.1]
    · exact Access.selected_ne hport hb
  refine ⟨fun b => ?_, fun b drive => ?_⟩
  · have hsame : (d.write (.outb bus.cmdStatus cmd)).selected b = d.selected b := by
      cases b <;> rfl
    rw [hsame, hd b]
    exact (hkept b _).symm
  · rw [Driver.write, received, ← hd b]
    congr 1
    by_cases hb : b = bus
    · rw [hb]
      simp
    · rw [if_neg fun hx => (Access.ne_command hport hb) hx.1, if_neg fun hx => hb hx.1]

/-- `ata_identify` after it has selected the drive, up to the command. -/
def Ata.clearPorts (bus : AtaBus) : Ata Unit := do
  Ata.outb (bus.lbaMid - 2) 0x0
  Ata.outb (bus.lbaMid - 1) 0x0
  Ata.outb bus.lbaMid 0x0
  Ata.outb (bus.lbaMid + 1) 0x0

/-- `ata_identify` after its command. -/
def Ata.answer (turns : Nat) (bus : AtaBus) : Ata Bool := do
  if (← Ata.inb bus.cmdStatus) = 0x0 then pure false
  else do
    Ata.pollBsy turns bus
    if (← Ata.inb (bus.lbaMid + 1)) ≠ 0x0 then pure false
    else if (← Ata.inb bus.lbaMid) ≠ 0x0 then pure false
    else if (← Ata.pollDrq turns bus) = false then pure false
    else do
      Ata.identifyLoop bus.data IDENTIFY_SIZE 0
      return true

theorem Stays.clearPorts : Stays bus IDENTIFY (Ata.clearPorts bus) := by
  have hports : ∀ port ∈ [bus.lbaMid - 2, bus.lbaMid - 1, bus.lbaMid, bus.lbaMid + 1], port ∈ bus.ports ∧
      port ≠ bus.driveHead ∧ port ≠ bus.dcr ∧ port ≠ bus.cmdStatus := by
    cases bus <;> decide
  have houtb : ∀ port ∈ [bus.lbaMid - 2, bus.lbaMid - 1, bus.lbaMid, bus.lbaMid + 1],
      Stays bus IDENTIFY (Ata.outb port 0x0) := fun port hp => by
    obtain ⟨hport, h₁, h₂, h₃⟩ := hports port hp
    refine outb ⟨hport, fun drive => ?_, fun hx => h₃ (Access.outb.inj hx).1⟩
    rw [Access.selected, if_neg h₁, if_neg fun hx => h₂ hx.1]
  exact (houtb _ (by simp)).bind fun _ => (houtb _ (by simp)).bind fun _ =>
    (houtb _ (by simp)).bind fun _ => houtb _ (by simp)

theorem Stays.answer : Stays bus IDENTIFY (Ata.answer turns bus) := by
  obtain ⟨-, hcmd, hdata, -, hmid, hhigh, -⟩ := bus.mem_ports
  refine (inb hcmd).bind fun _ => .ite .pure (pollBsy.bind fun _ => (inb hhigh).bind fun _ => .ite .pure ?_)
  exact (inb hmid).bind fun _ => .ite .pure (pollDrq.bind fun _ => .ite .pure
    ((identifyLoop hdata).bind fun _ => .pure))

theorem identify_eq (turns : Nat) (bus : AtaBus) (drive : AtaDrive)
    (hselect : Ata.select bus drive d = (.ok (), d₁)) : Ata.identify turns bus drive d =
      Ata.answer turns bus ((Ata.clearPorts bus d₁).2.write (.outb bus.cmdStatus IDENTIFY)) := by
  rw [Ata.identify, ExceptT.bind_of_ok hselect]
  cases bus <;> rfl

/-- **`ata_identify`** gives its command to its drive, and to no other. -/
theorem identify_received (hd : Coherent d) (turns : Nat) (bus : AtaBus) (drive : AtaDrive) :
    Coherent (Ata.identify turns bus drive d).2 ∧ ∀ b dr,
      received b dr IDENTIFY (Ata.identify turns bus drive d).2.accesses =
        received b dr IDENTIFY d.accesses + if b = bus ∧ drive = dr then 1 else 0 := by
  obtain ⟨d₁, hselect, hunheard₁, hselected₁⟩ := select_run IDENTIFY hd bus drive
  have hstayed₂ : Stayed bus IDENTIFY d₁ (Ata.clearPorts bus d₁).2 := Stays.clearPorts d₁
  have hunheard₂ := hunheard₁.trans (hstayed₂.unheard hunheard₁.coherent)
  obtain ⟨hcoherent, hreceived⟩ := command_received hunheard₂.coherent bus IDENTIFY
  rw [identify_eq turns bus drive hselect]
  have hanswer : Stayed bus IDENTIFY _ (Ata.answer turns bus _).2 :=
    Stays.answer ((Ata.clearPorts bus d₁).2.write (.outb bus.cmdStatus IDENTIFY))
  have hunheard := hanswer.unheard hcoherent
  refine ⟨hunheard.coherent, fun b dr => ?_⟩
  rw [hunheard.received, hreceived, hunheard₂.received, hstayed₂.1, hselected₁]

/-! ## Calls on both buses -/

/-- A call that returns. -/
def AtaStep (turns : Nat) (d : Driver) (c : AtaBus × AtaCall) (d' : Driver) : Prop :=
  ∃ r, c.2.run turns c.1 d = (.ok r, d')

/-- The same as a function. -/
def AtaCall.step? (turns : Nat) (d : Driver) (c : AtaBus × AtaCall) : Option Driver :=
  match c.2.run turns c.1 d with
  | (.ok _, d') => some d'
  | (.error _, _) => none

theorem AtaCall.step?_eq_some {c : AtaBus × AtaCall} : AtaCall.step? turns d c = some d' ↔ AtaStep turns d c d' := by
  unfold AtaCall.step? AtaStep
  cases c.2.run turns c.1 d with
  | mk r d₁ =>
    cases r with
    | error e => exact ⟨nofun, fun ⟨_, h⟩ => nomatch (Prod.mk.inj h).1⟩
    | ok r => exact ⟨fun h => ⟨r, congrArg _ (Option.some.inj h)⟩, fun ⟨_, h⟩ => congrArg some (Prod.mk.inj h).2⟩

/-- The state a call leaves, whether it returns or polls for good. -/
theorem run_snd {α : Type} (x : Ata α) (f : α → AtaResult) (d : Driver) :
    ((do return f (← x)) d).2 = (x d).2 := by
  rw [ExceptT.bind_eq]
  cases h : x d with
  | mk r d' => cases r <;> rfl

/-- **Each call** keeps the driver and the drives in agreement, on both buses, and
gives `IDENTIFY` to the drive it is asked for. -/
theorem AtaCall.run_received (hd : Coherent d) (turns : Nat) (bus : AtaBus) (c : AtaCall) :
    Coherent (c.run turns bus d).2 ∧ ∀ b drive,
      received b drive IDENTIFY (c.run turns bus d).2.accesses =
        received b drive IDENTIFY d.accesses + if (bus, c) = (b, .identify drive) then 1 else 0 := by
  have hunheard : ∀ {d'}, Unheard IDENTIFY d d' → (∀ drive, c ≠ .identify drive) → Coherent d' ∧ ∀ b drive,
      received b drive IDENTIFY d'.accesses =
        received b drive IDENTIFY d.accesses + if (bus, c) = (b, .identify drive) then 1 else 0 :=
    fun h hc => ⟨h.coherent, fun b drive => by
      rw [h.received, if_neg fun hx => hc drive (Prod.mk.inj hx).2, Nat.add_zero]⟩
  cases c with
  | select drive =>
    obtain ⟨d', hrun, h, -⟩ := select_run IDENTIFY hd bus drive
    refine hunheard ?_ nofun
    rw [AtaCall.run, ExceptT.bind_of_ok hrun]
    exact h
  | delay => exact hunheard ((Stays.delay.bind fun _ => .pure) d |>.unheard hd) nofun
  | flush => exact hunheard (((Stays.flush (by decide)).bind fun _ => .pure) d |>.unheard hd) nofun
  | floating => exact hunheard ((Stays.floating.bind fun _ => .pure) d |>.unheard hd) nofun
  | pollDrq => exact hunheard ((Stays.pollDrq.bind fun _ => .pure) d |>.unheard hd) nofun
  | pollBsy => exact hunheard ((Stays.pollBsy.bind fun _ => .pure) d |>.unheard hd) nofun
  | reset =>
    refine hunheard ?_ nofun
    have hrun : ((AtaCall.reset).run turns bus d).2 = (Ata.reset turns bus d).2 :=
      run_snd (Ata.reset turns bus) (fun _ => .unit) d
    rw [hrun]
    exact reset_unheard IDENTIFY hd turns bus
  | identify drive =>
    have hrun : ((AtaCall.identify drive).run turns bus d).2 = (Ata.identify turns bus drive d).2 :=
      run_snd (Ata.identify turns bus drive) .bool d
    obtain ⟨hcoherent, hreceived⟩ := identify_received hd turns bus drive
    rw [hrun]
    refine ⟨hcoherent, fun b dr => ?_⟩
    rw [hreceived]
    simp only [Prod.mk.injEq, AtaCall.identify.injEq, eq_comm (a := b)]
  | type drive =>
    refine hunheard ?_ nofun
    have hrun : ((AtaCall.type drive).run turns bus d).2 = (Ata.type turns bus drive d).2 :=
      run_snd (Ata.type turns bus drive) .type d
    rw [hrun]
    have hreset := reset_unheard IDENTIFY hd turns bus
    cases hr : Ata.reset turns bus d with
    | mk r d₁ =>
      rw [hr] at hreset
      cases r with
      | error e => rwa [Ata.type, ExceptT.bind_of_error hr]
      | ok u =>
        obtain ⟨d₂, hselect, h₂, -⟩ := select_run IDENTIFY hreset.coherent bus drive
        obtain ⟨-, -, -, -, -, -, hport, hport'⟩ := bus.mem_ports
        have hread : Stays bus IDENTIFY (do
            let lbaMid ← Ata.inb (signaturePort bus)
            let lbaHigh ← Ata.inb (signaturePort bus + 1)
            return Ata.typeOf lbaMid lbaHigh) :=
          (Stays.inb hport).bind fun _ => (Stays.inb hport').bind fun _ => .pure
        rw [Ata.type, ExceptT.bind_of_ok hr, ExceptT.bind_of_ok hselect]
        exact hreset.trans (h₂.trans ((hread d₂).unheard h₂.coherent))

theorem AtaStep.run {calls : List (AtaBus × AtaCall)} (hrun : Runs (AtaStep turns) d calls d') (hd : Coherent d) :
    Coherent d' ∧ ∀ bus drive, received bus drive IDENTIFY d'.accesses =
      received bus drive IDENTIFY d.accesses + calls.count (bus, .identify drive) := by
  induction hrun with
  | nil => exact ⟨hd, fun _ _ => rfl⟩
  | @cons _ c _ _ _ hstep _ ih =>
    obtain ⟨r, hr⟩ := hstep
    obtain ⟨hcoherent, hreceived⟩ := AtaCall.run_received hd turns c.1 c.2
    rw [hr] at hcoherent hreceived
    obtain ⟨hcoherent', hreceived'⟩ := ih hcoherent
    refine ⟨hcoherent', fun bus drive => ?_⟩
    rw [hreceived', hreceived, List.count_cons, Nat.add_assoc, Nat.add_comm (List.count _ _)]
    simp

/-- **`IDENTIFY` reaches the drive it is meant for**: from power-on, on any
sequence of calls on the two buses and whatever the ports return, the driver
remembers which drives are selected, and each drive has received `IDENTIFY` once
for each `ata_identify` of it. So has it if the call that comes next polls for
good. -/
theorem identify_reaches_drive {stream : Nat → UInt16} {calls : List (AtaBus × AtaCall)}
    (hrun : Runs (AtaStep turns) (.start stream) calls d) (bus : AtaBus) (c : AtaCall) :
    (Coherent d ∧ ∀ b drive, received b drive IDENTIFY d.accesses = calls.count (b, .identify drive)) ∧
      Coherent (c.run turns bus d).2 ∧ ∀ b drive,
        received b drive IDENTIFY (c.run turns bus d).2.accesses =
          (calls ++ [(bus, c)]).count (b, .identify drive) := by
  have hstart : Coherent (.start stream) := fun bus => by
    cases bus <;> rfl
  obtain ⟨hd, hreceived⟩ := AtaStep.run hrun hstart
  have hcount : ∀ b drive, received b drive IDENTIFY d.accesses = calls.count (b, .identify drive) :=
    fun b drive => (hreceived b drive).trans (Nat.zero_add _)
  obtain ⟨hnext, hnextReceived⟩ := AtaCall.run_received hd turns bus c
  refine ⟨⟨hd, hcount⟩, hnext, fun b drive => ?_⟩
  rw [hnextReceived, hcount, List.count_append, List.count_singleton]
  simp

/-- Three drives on ports that read `0x50`; the poll that follows runs on. -/
theorem identify_reaches_drive_three : ∃ d, Runs (AtaStep 2) (.start fun k => if k < 60 then 0x50 else 0x80)
      [(.primary, .identify .slave), (.secondary, .identify .master), (.primary, .reset),
        (.primary, .identify .master)] d ∧
    received .primary .slave IDENTIFY (AtaCall.pollBsy.run 2 .primary d).2.accesses = 1 ∧
    received .secondary .slave IDENTIFY (AtaCall.pollBsy.run 2 .primary d).2.accesses = 0 := by
  have h : (exec (AtaCall.step? 2) (.start fun k => if k < 60 then 0x50 else 0x80)
      [(.primary, .identify .slave), (.secondary, .identify .master), (.primary, .reset),
        (.primary, .identify .master)]).isSome := by
    decide +kernel
  obtain ⟨d, hd⟩ := Option.isSome_iff_exists.mp h
  have hrun := (exec_eq_some AtaCall.step?_eq_some).mp hd
  have hreached := (identify_reaches_drive hrun .primary .pollBsy).2.2
  exact ⟨d, hrun, (hreached _ _).trans (by decide), (hreached _ _).trans (by decide)⟩

end

end Ssmos

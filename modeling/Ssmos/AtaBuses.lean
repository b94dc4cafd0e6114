/-
The two buses of the ATA driver. Every function but `ata_type` does on the
secondary bus what it does on the primary one, port by port; `ata_type` reads
other ports there, so a sequence of calls is carried over to the other bus
exactly as far as no `ata_type` in it comes to read the signature.
-/
import Ssmos.Base.Pairs
import Ssmos.Ata

namespace Ssmos

/-! ## The other bus -/

/-- A primary port's counterpart: `0x170 + k` for `0x1F0 + k`, `0x376` for `0x3F6`. -/
def secondaryPort (port : Nat) : Nat :=
  if port = PRIMARY_DCR then SECONDARY_DCR else port - PRIMARY_ATA + SECONDARY_ATA

def Access.secondary : Access → Access
  | .inb port => .inb (secondaryPort port)
  | .inw port => .inw (secondaryPort port)
  | .outb port val => .outb (secondaryPort port) val

/-- `t` is to the secondary bus what `s` is to the primary one. -/
structure Mirror (s t : Driver) : Prop where
  stream : t.stream = s.stream
  accesses : t.accesses = s.accesses.map Access.secondary
  identify : t.identify = s.identify
  selected : t.secondarySelected = s.primarySelected

/-- `x` on the primary bus and `y` on the secondary one do the same. -/
abbrev Alike {α : Type} (x y : Ata α) : Prop := Paired Mirror x y

/-- **A sequence of calls is carried over**: the same results, the same accesses
on translated ports, the same `identify[]` and the same drive selected. -/
def CarriedOver (turns : Nat) (calls : List AtaCall) (s t : Driver) : Prop :=
  (runCalls turns .secondary calls t).1 = (runCalls turns .primary calls s).1 ∧
    Mirror (runCalls turns .primary calls s).2 (runCalls turns .secondary calls t).2

namespace Alike

variable {turns port : Nat} {val : UInt8} {drive : AtaDrive}

/-! ### Ports -/

theorem inb : Alike (Ata.inb port) (Ata.inb (secondaryPort port)) := by
  intro s t h
  refine ⟨congrArg (fun stream : Nat → UInt16 => (.ok (stream 0).toUInt8 : Except Stop UInt8)) h.stream, ?_⟩
  exact
    { stream := funext fun k => congrFun h.stream (k + 1)
      accesses := congrArg (Access.inb (secondaryPort port) :: ·) h.accesses
      identify := h.identify
      selected := h.selected }

theorem inw : Alike (Ata.inw port) (Ata.inw (secondaryPort port)) := by
  intro s t h
  refine ⟨congrArg (fun stream : Nat → UInt16 => (.ok (stream 0) : Except Stop UInt16)) h.stream, ?_⟩
  exact
    { stream := funext fun k => congrFun h.stream (k + 1)
      accesses := congrArg (Access.inw (secondaryPort port) :: ·) h.accesses
      identify := h.identify
      selected := h.selected }

theorem outb : Alike (Ata.outb port val) (Ata.outb (secondaryPort port) val) :=
  .modify fun _ _ h =>
    { h with accesses := congrArg (Access.outb (secondaryPort port) val :: ·) h.accesses }

/-! ### Polls -/

theorem pollBsyLoop : Alike (Ata.pollBsyLoop port turns) (Ata.pollBsyLoop (secondaryPort port) turns) := by
  induction turns with
  | zero => exact .throw
  | succ n ih => exact inb.bind fun _ => .ite ih .pure

theorem pollDrqLoop : Alike (Ata.pollDrqLoop port turns) (Ata.pollDrqLoop (secondaryPort port) turns) := by
  induction turns with
  | zero => exact .throw
  | succ n ih => exact inb.bind fun _ => .ite .pure (.ite ih (.ite .pure .pure))

theorem resetLoop : Alike (Ata.resetLoop port turns) (Ata.resetLoop (secondaryPort port) turns) := by
  induction turns with
  | zero => exact .throw
  | succ n ih => exact inb.bind fun _ => .ite ih (inb.bind fun _ => .ite ih .pure)

theorem identifyLoop {n i : Nat} :
    Alike (Ata.identifyLoop port n i) (Ata.identifyLoop (secondaryPort port) n i) := by
  induction n generalizing i with
  | zero => exact .pure
  | succ n ih =>
    refine inw.bind fun word => Paired.bind (.modify fun s t h => ?_) fun _ => ih
    exact { h with identify := congrArg (fun identify j => if j = i then word else identify j) h.identify }

/-! ### The driver -/

theorem delay : Alike (Ata.delay .primary) (Ata.delay .secondary) :=
  inb.bind fun _ => inb.bind fun _ => inb.bind fun _ => inb.bind fun _ => inb.bind fun _ => .pure

theorem select : Alike (Ata.select .primary drive) (Ata.select .secondary drive) := by
  refine delay.bind fun _ => Paired.test (fun s t h => by rw [h.selected]) .pure ?_
  refine outb.bind fun _ => Paired.bind (.modify fun s t h => ?_) fun _ => delay
  exact { h with selected := rfl }

theorem pollBsy : Alike (Ata.pollBsy turns .primary) (Ata.pollBsy turns .secondary) := pollBsyLoop

theorem pollDrq : Alike (Ata.pollDrq turns .primary) (Ata.pollDrq turns .secondary) := pollDrqLoop

theorem flush : Alike (Ata.flush turns .primary) (Ata.flush turns .secondary) :=
  outb.bind fun _ => pollBsy

theorem floating : Alike (Ata.floating .primary) (Ata.floating .secondary) :=
  inb.bind fun _ => .ite .pure (inb.bind fun _ => .ite .pure .pure)

theorem reset : Alike (Ata.reset turns .primary) (Ata.reset turns .secondary) := by
  refine floating.bind fun _ => .ite .pure (Paired.bind (.modify fun s t h => ?_) fun _ => ?_)
  · exact { h with selected := rfl }
  · exact outb.bind fun _ => outb.bind fun _ => delay.bind fun _ => resetLoop

theorem identify : Alike (Ata.identify turns .primary drive) (Ata.identify turns .secondary drive) := by
  refine select.bind fun _ => outb.bind fun _ => outb.bind fun _ => outb.bind fun _ => ?_
  refine outb.bind fun _ => outb.bind fun _ => inb.bind fun _ => .ite .pure (pollBsy.bind fun _ => ?_)
  refine inb.bind fun _ => .ite .pure (inb.bind fun _ => .ite .pure (pollDrq.bind fun _ => ?_))
  exact .ite .pure (identifyLoop.bind fun _ => .pure)

/-- **Every call but `ata_type`** treats both buses alike. -/
theorem run {c : AtaCall} (hc : ∀ drive, c ≠ .type drive) :
    Alike (c.run turns .primary) (c.run turns .secondary) := by
  cases c with
  | select => exact select.bind fun _ => .pure
  | delay => exact delay.bind fun _ => .pure
  | flush => exact flush.bind fun _ => .pure
  | floating => exact floating.bind fun _ => .pure
  | identify => exact identify.bind fun _ => .pure
  | type drive => exact absurd rfl (hc drive)
  | reset => exact reset.bind fun _ => .pure
  | pollDrq => exact pollDrq.bind fun _ => .pure
  | pollBsy => exact pollBsy.bind fun _ => .pure

end Alike

/-! ## What was accessed stays accessed -/

def Accessed (s s' : Driver) : Prop := ∃ es, s'.accesses = es ++ s.accesses

abbrev Grows {α : Type} (x : Ata α) : Prop := Extends Accessed x

namespace Grows

variable {α β : Type} {x y : Ata α} {f : α → Ata β} {turns port : Nat} {val : UInt8} {bus : AtaBus}
  {drive : AtaDrive}

theorem pure {a : α} : Grows (Pure.pure a : Ata α) := Extends.pure fun _ => ⟨[], rfl⟩

theorem throw {e : Stop} : Grows (throw e : Ata α) := fun _ => ⟨[], rfl⟩

theorem bind (hx : Grows x) (hf : ∀ a, Grows (f a)) : Grows (x >>= f) := by
  refine Extends.bind (fun h₁ h₂ => ?_) hx hf
  obtain ⟨es₁, h₁⟩ := h₁
  obtain ⟨es₂, h₂⟩ := h₂
  exact ⟨es₂ ++ es₁, by rw [h₂, h₁, List.append_assoc]⟩

theorem ite {c : Prop} [Decidable c] (hx : Grows x) (hy : Grows y) : Grows (if c then x else y) := by
  split
  next => exact hx
  next => exact hy

/-- A change of the driver's variables. -/
theorem update {g : Driver → Driver} (h : ∀ s, (g s).accesses = s.accesses) : Grows (modify g : Ata Unit) :=
  fun s => ⟨[], h s⟩

theorem inb : Grows (Ata.inb port) := fun _ => ⟨[.inb port], rfl⟩

theorem inw : Grows (Ata.inw port) := fun _ => ⟨[.inw port], rfl⟩

theorem outb : Grows (Ata.outb port val) := fun _ => ⟨[.outb port val], rfl⟩

theorem pollBsyLoop : Grows (Ata.pollBsyLoop port turns) := by
  induction turns with
  | zero => exact .throw
  | succ n ih => exact inb.bind fun _ => .ite ih .pure

theorem pollDrqLoop : Grows (Ata.pollDrqLoop port turns) := by
  induction turns with
  | zero => exact .throw
  | succ n ih => exact inb.bind fun _ => .ite .pure (.ite ih (.ite .pure .pure))

theorem resetLoop : Grows (Ata.resetLoop port turns) := by
  induction turns with
  | zero => exact .throw
  | succ n ih => exact inb.bind fun _ => .ite ih (inb.bind fun _ => .ite ih .pure)

theorem identifyLoop {n i : Nat} : Grows (Ata.identifyLoop port n i) := by
  induction n generalizing i with
  | zero => exact .pure
  | succ n ih =>
    refine inw.bind fun _ => Grows.bind (update fun _ => ?_) fun _ => ih
    rfl

theorem delay : Grows (Ata.delay bus) :=
  inb.bind fun _ => inb.bind fun _ => inb.bind fun _ => inb.bind fun _ => inb.bind fun _ => .pure

theorem select : Grows (Ata.select bus drive) := by
  have hget : Grows (MonadState.get : Ata Driver) := fun _ => ⟨[], rfl⟩
  refine delay.bind fun _ => .ite (hget.bind fun _ => .ite .pure ?_) (hget.bind fun _ => .ite .pure ?_)
  · refine outb.bind fun _ => Grows.bind (update fun _ => ?_) fun _ => delay
    rfl
  · refine outb.bind fun _ => Grows.bind (update fun _ => ?_) fun _ => delay
    rfl

theorem floating : Grows (Ata.floating bus) :=
  inb.bind fun _ => .ite .pure (inb.bind fun _ => .ite .pure .pure)

theorem reset : Grows (Ata.reset turns bus) := by
  refine floating.bind fun _ => .ite .pure (Grows.bind (.ite ?_ ?_) fun _ => ?_)
  · exact update fun _ => rfl
  · exact update fun _ => rfl
  · exact outb.bind fun _ => outb.bind fun _ => delay.bind fun _ => resetLoop

theorem identify : Grows (Ata.identify turns bus drive) := by
  refine select.bind fun _ => outb.bind fun _ => outb.bind fun _ => outb.bind fun _ => ?_
  refine outb.bind fun _ => outb.bind fun _ => inb.bind fun _ => .ite .pure (pollBsyLoop.bind fun _ => ?_)
  refine inb.bind fun _ => .ite .pure (inb.bind fun _ => .ite .pure (pollDrqLoop.bind fun _ => ?_))
  exact .ite .pure (identifyLoop.bind fun _ => .pure)

theorem type : Grows (Ata.type turns bus drive) :=
  reset.bind fun _ => select.bind fun _ => inb.bind fun _ => inb.bind fun _ => .pure

theorem run {c : AtaCall} : Grows (c.run turns bus) := by
  cases c with
  | select => exact select.bind fun _ => .pure
  | delay => exact delay.bind fun _ => .pure
  | flush => exact (outb.bind fun _ => pollBsyLoop).bind fun _ => .pure
  | floating => exact floating.bind fun _ => .pure
  | identify => exact identify.bind fun _ => .pure
  | type => exact type.bind fun _ => .pure
  | reset => exact reset.bind fun _ => .pure
  | pollDrq => exact pollDrqLoop.bind fun _ => .pure
  | pollBsy => exact pollBsyLoop.bind fun _ => .pure

theorem runCalls {cs : List AtaCall} : Grows (Ssmos.runCalls turns bus cs) := by
  induction cs with
  | nil => exact .pure
  | cons c cs ih => exact run.bind fun _ => ih.bind fun _ => .pure

end Grows

/-! ## The signature -/

theorem select_completes {bus : AtaBus} {drive : AtaDrive} : Completes (Ata.select bus drive) := by
  have hdelay : Completes (Ata.delay bus) := fun s => ⟨(), _, rfl⟩
  have hget : Completes (MonadState.get : Ata Driver) := fun s => ⟨s, s, rfl⟩
  have hpure : Completes (pure () : Ata Unit) := fun s => ⟨(), s, rfl⟩
  have houtb : ∀ {port val}, Completes (Ata.outb port val) := fun s => ⟨(), _, rfl⟩
  have hmodify : ∀ {g}, Completes (modify g : Ata Unit) := fun s => ⟨(), _, rfl⟩
  refine hdelay.bind fun _ => .ite (hget.bind fun _ => .ite hpure ?_) (hget.bind fun _ => .ite hpure ?_)
  · exact houtb.bind fun _ => hmodify.bind fun _ => hdelay
  · exact houtb.bind fun _ => hmodify.bind fun _ => hdelay

/-- The port `ata_type` reads first. -/
def signaturePort (bus : AtaBus) : Nat := if bus = .primary then PRIMARY_LBA_MID else SECONDARY_LBA_HIGH

/-- Once the reset returned, the signature is read. -/
theorem type_of_reset {turns : Nat} {bus : AtaBus} (drive : AtaDrive) {s s₁ : Driver}
    (hreset : Ata.reset turns bus s = (.ok (), s₁)) : ∃ r s₂, Ata.type turns bus drive s = (.ok r, s₂) ∧
      s₂.accesses = .inb (signaturePort bus + 1) :: .inb (signaturePort bus) ::
        (Ata.select bus drive s₁).2.accesses := by
  have hcompletes : Completes (Ata.select bus drive) := select_completes
  obtain ⟨_, s₂, hselect⟩ := hcompletes s₁
  have htype : Ata.type turns bus drive s = (do
      let lbaMid ← Ata.inb (signaturePort bus)
      let lbaHigh ← Ata.inb (signaturePort bus + 1)
      return Ata.typeOf lbaMid lbaHigh : Ata AtaType) s₂ :=
    (ExceptT.bind_of_ok hreset).trans (ExceptT.bind_of_ok hselect)
  rw [htype, hselect]
  exact ⟨_, _, rfl, rfl⟩

theorem type_of_stopped {turns : Nat} {bus : AtaBus} (drive : AtaDrive) {s s₁ : Driver} {e : Stop}
    (hreset : Ata.reset turns bus s = (.error e, s₁)) : Ata.type turns bus drive s = (.error e, s₁) :=
  ExceptT.bind_of_error hreset

/-- Different accesses to the same number of ports are never made up for. -/
theorem not_mirror {s t s' t' : Driver} {cs : List Access} (as bs : List Access) (hs : s.accesses = as ++ cs)
    (ht : t.accesses = bs ++ cs.map Access.secondary) (hlen : as.length = bs.length)
    (hne : bs ≠ as.map Access.secondary) (hs' : Accessed s s') (ht' : Accessed t t') : ¬Mirror s' t' := by
  intro h
  obtain ⟨es, hs'⟩ := hs'
  obtain ⟨es', ht'⟩ := ht'
  have hacc := h.accesses
  rw [hs', ht', hs, ht, List.map_append, List.map_append] at hacc
  have hlen' : es'.length = (es.map Access.secondary).length := by
    have := congrArg List.length hacc
    simp only [List.length_append, List.length_map, hlen] at this
    simp only [List.length_map]
    omega
  have htail := (List.append_inj hacc hlen').2
  exact hne (List.append_cancel_right htail)

/-! ## Sequences -/

/-- An `ata_type` of the sequence gets past its reset, on the primary bus. -/
def ReachesSignature (turns : Nat) (calls : List AtaCall) (s : Driver) : Prop :=
  ∃ before drive after, calls = before ++ .type drive :: after ∧
    ∃ rs, (runCalls turns .primary (before ++ [.reset]) s).1 = .ok rs

section

variable {turns : Nat} {bus : AtaBus} {c : AtaCall} {cs : List AtaCall} {drive : AtaDrive}
  {s s₁ t t₁ : Driver} {r : AtaResult} {e : Stop}

theorem runCalls_cons_ok (h : c.run turns bus s = (.ok r, s₁)) : runCalls turns bus (c :: cs) s =
    (do let rs ← runCalls turns bus cs; return r :: rs : Ata (List AtaResult)) s₁ :=
  ExceptT.bind_of_ok h

theorem runCalls_cons_error (h : c.run turns bus s = (.error e, s₁)) :
    runCalls turns bus (c :: cs) s = (.error e, s₁) := ExceptT.bind_of_error h

/-- What comes of the first call's result. -/
theorem consResult (rs : Ata (List AtaResult)) (s : Driver) :
    (do let rs ← rs; return r :: rs : Ata (List AtaResult)) s = ((rs s).1.map (r :: ·), (rs s).2) := by
  rw [ExceptT.bind_eq]
  cases h : rs s with
  | mk x s' => cases x <;> rfl

theorem reachesSignature_cons_ok (hc : ∀ drive, c ≠ .type drive)
    (h : c.run turns .primary s = (.ok r, s₁)) :
    ReachesSignature turns (c :: cs) s ↔ ReachesSignature turns cs s₁ := by
  have hrun : ∀ ds, (∃ rs, (runCalls turns .primary (c :: ds) s).1 = .ok rs) ↔
      ∃ rs, (runCalls turns .primary ds s₁).1 = .ok rs := fun ds => by
    rw [runCalls_cons_ok h, consResult]
    cases (runCalls turns .primary ds s₁).1 <;> simp [Except.map]
  constructor
  · intro hreach
    obtain ⟨before, drive, after, hcalls, hreset⟩ := hreach
    cases before with
    | nil => exact absurd (List.cons.inj hcalls).1 (hc drive)
    | cons b before =>
      obtain ⟨rfl, htail⟩ := List.cons.inj hcalls
      exact ⟨before, drive, after, htail, (hrun _).mp hreset⟩
  · intro hreach
    obtain ⟨before, drive, after, hcalls, hreset⟩ := hreach
    exact ⟨c :: before, drive, after, congrArg (c :: ·) hcalls, (hrun _).mpr hreset⟩

/-- A sequence that stops in its first call, or in the reset of it, reaches none. -/
theorem not_reachesSignature_of_error (h : c.run turns .primary s = (.error e, s₁))
    (hreset : ∀ drive, c = .type drive → (Ata.reset turns .primary s).1 = .error e) :
    ¬ReachesSignature turns (c :: cs) s := by
  intro hreach
  obtain ⟨before, drive, after, hcalls, rs, hrun⟩ := hreach
  cases before with
  | nil =>
    have hc := hreset drive (List.cons.inj hcalls).1
    have hstop : AtaCall.reset.run turns .primary s = (.error e, (Ata.reset turns .primary s).2) :=
      ExceptT.bind_of_error (Prod.ext hc rfl)
    rw [List.nil_append, runCalls_cons_error hstop] at hrun
    cases hrun
  | cons b before =>
    obtain ⟨rfl, -⟩ := List.cons.inj hcalls
    rw [List.cons_append, runCalls_cons_error h] at hrun
    cases hrun

theorem carriedOver_cons_ok (h : c.run turns .primary s = (.ok r, s₁))
    (ht : c.run turns .secondary t = (.ok r, t₁)) :
    CarriedOver turns (c :: cs) s t ↔ CarriedOver turns cs s₁ t₁ := by
  rw [CarriedOver, CarriedOver, runCalls_cons_ok h, runCalls_cons_ok ht, consResult, consResult]
  refine and_congr_left fun _ => ⟨fun hr => ?_, congrArg (Except.map (r :: ·))⟩
  cases hx : (runCalls turns .secondary cs t₁).1 <;> cases hy : (runCalls turns .primary cs s₁).1 <;>
    rw [hx, hy] at hr <;> simp only [Except.map, reduceCtorEq, Except.ok.injEq, Except.error.injEq,
      List.cons.injEq, true_and] at hr
  · rw [hr]
  · rw [hr]

theorem carriedOver_cons_error (h : c.run turns .primary s = (.error e, s₁))
    (ht : c.run turns .secondary t = (.error e, t₁)) (hm : Mirror s₁ t₁) :
    CarriedOver turns (c :: cs) s t := by
  rw [CarriedOver, runCalls_cons_error h, runCalls_cons_error ht]
  exact ⟨rfl, hm⟩

/-- An `ata_type` that reads the signature is not carried over, whatever follows. -/
theorem not_carriedOver_type (h : Mirror s t) (hreset : Ata.reset turns .primary s = (.ok (), s₁)) :
    ¬CarriedOver turns (.type drive :: cs) s t := by
  have hsame : Alike (Ata.reset turns .primary) (Ata.reset turns .secondary) := Alike.reset
  obtain ⟨hret, h₁⟩ := hsame h
  cases ht : Ata.reset turns .secondary t with
  | mk x t₁ =>
    rw [hreset, ht] at hret h₁
    cases hret
    obtain ⟨r, s₂, htype, hacc⟩ := type_of_reset drive hreset
    obtain ⟨r', t₂, htype', hacc'⟩ := type_of_reset drive ht
    have hsame : Alike (Ata.select .primary drive) (Ata.select .secondary drive) := Alike.select
    have hselected := (hsame h₁).2.accesses
    have hrun : (AtaCall.type drive).run turns .primary s = (.ok (.type r), s₂) := ExceptT.bind_of_ok htype
    have hrun' : (AtaCall.type drive).run turns .secondary t = (.ok (.type r'), t₂) :=
      ExceptT.bind_of_ok htype'
    intro hcarried
    rw [CarriedOver, runCalls_cons_ok hrun, runCalls_cons_ok hrun'] at hcarried
    rw [hselected] at hacc'
    have hgrows : ∀ {bus r}, Grows (do
        let rs ← runCalls turns bus cs
        return r :: rs : Ata (List AtaResult)) := Grows.runCalls.bind fun _ => .pure
    exact not_mirror [_, _] [_, _] hacc hacc' rfl (by decide) (hgrows s₂) (hgrows t₂) hcarried.2

/-- **The buses are alike** to a sequence of calls exactly if no `ata_type` in
it gets past its reset: for all ports' values, and however long polls take. -/
theorem carriedOver_iff {calls : List AtaCall} (h : Mirror s t) :
    CarriedOver turns calls s t ↔ ¬ReachesSignature turns calls s := by
  induction calls generalizing s t with
  | nil =>
    refine iff_of_true ⟨rfl, h⟩ fun hreach => ?_
    obtain ⟨before, drive, after, hcalls, -⟩ := hreach
    exact List.append_ne_nil_of_right_ne_nil _ (List.cons_ne_nil _ _) hcalls.symm
  | cons c cs ih =>
    by_cases hc : ∃ drive, c = .type drive
    · obtain ⟨drive, rfl⟩ := hc
      have hsame : Alike (Ata.reset turns .primary) (Ata.reset turns .secondary) := Alike.reset
      obtain ⟨x, s₁, t₁, hs, ht, h₁⟩ := hsame.outcome h
      cases x with
      | ok =>
        refine iff_of_false (not_carriedOver_type h hs) fun hno => hno ?_
        have hrun : AtaCall.reset.run turns .primary s = (.ok .unit, s₁) := ExceptT.bind_of_ok hs
        exact ⟨[], drive, cs, rfl, [.unit], by rw [List.nil_append, runCalls_cons_ok hrun]; rfl⟩
      | error e =>
        have hrun : (AtaCall.type drive).run turns .primary s = (.error e, s₁) :=
          ExceptT.bind_of_error (type_of_stopped drive hs)
        have hrun' : (AtaCall.type drive).run turns .secondary t = (.error e, t₁) :=
          ExceptT.bind_of_error (type_of_stopped drive ht)
        refine iff_of_true (carriedOver_cons_error hrun hrun' h₁) ?_
        exact not_reachesSignature_of_error hrun fun _ _ => congrArg Prod.fst hs
    · have hc : ∀ drive, c ≠ .type drive := fun drive he => hc ⟨drive, he⟩
      have hsame : Alike (c.run turns .primary) (c.run turns .secondary) := Alike.run hc
      obtain ⟨x, s₁, t₁, hs, ht, h₁⟩ := hsame.outcome h
      cases x with
      | ok r =>
        rw [carriedOver_cons_ok hs ht, reachesSignature_cons_ok hc hs]
        exact ih h₁
      | error e =>
        refine iff_of_true (carriedOver_cons_error hs ht h₁) ?_
        exact not_reachesSignature_of_error hs fun drive he => absurd he (hc drive)

end

/-- The driver with its masters selected. -/
def Driver.start (stream : Nat → UInt16) : Driver where
  stream := stream
  accesses := []
  identify := fun _ => 0
  primarySelected := .master
  secondarySelected := .master

theorem Driver.start_mirror (stream : Nat → UInt16) : Mirror (.start stream) (.start stream) :=
  ⟨rfl, rfl, rfl, rfl⟩

/-- `ata_type` on two buses whose ports all read `0x50`: ready, not busy. -/
theorem type_not_carriedOver :
    ¬CarriedOver 1 [.type .master] (.start fun _ => 0x50) (.start fun _ => 0x50) :=
  not_carriedOver_type (Driver.start_mirror _) rfl

/-- Calls without `ata_type` are carried over, with a busy drive in between. -/
theorem carriedOver_iff_identify :
    CarriedOver 2 [.identify .slave, .reset, .flush] (.start fun k => if k = 12 then 0x80 else 0x50)
      (.start fun k => if k = 12 then 0x80 else 0x50) := by
  refine (carriedOver_iff (Driver.start_mirror _)).mpr fun hreaches => ?_
  obtain ⟨before, drive, after, hcalls, -⟩ := hreaches
  have hmem : AtaCall.type drive ∈ [AtaCall.identify .slave, .reset, .flush] := by
    rw [hcalls]
    exact List.mem_append_right _ List.mem_cons_self
  simp at hmem

end Ssmos

/-
What the commands leave alone. `Stable n I` says that `I` survives what a
command does with strings of its own, those from `n` up, and with the screen;
every handler but `alias` and `cprompt` keeps every such `I`. `EventStable` and
`AliasStable` say what else `alias` needs of `I`.
-/
import Ssmos.Commands

namespace Ssmos

/-! ## A new prompt -/

theorem scrollLoop_eq {k : Nat} {s : Terminal} (hk : s.promptY - (ROWS - 1) ≤ k) :
    ∃ fb, scrollLoop k s = { s with framebuffer := fb, promptY := min s.promptY (ROWS - 1) } := by
  induction k generalizing s with
  | zero => exact ⟨s.framebuffer, by rw [scrollLoop, min_eq_left (by omega)]⟩
  | succ k ih =>
    rw [scrollLoop]
    split
    next h =>
      obtain ⟨fb, hfb⟩ := ih (s := { s with
        framebuffer := kccolor (kscroll s.framebuffer) (getPosition 0 0) (COLUMNS * ROWS) s.terminalColor
        promptY := s.promptY - 1 }) (by simp only; omega)
      refine ⟨fb, hfb.trans ?_⟩
      simp only [Terminal.mk.injEq, true_and, and_true]
      omega
    next h => exact ⟨s.framebuffer, by rw [min_eq_left (by omega)]⟩

/-- **A new prompt**: an empty line on the next row, scrolled into view. -/
theorem newPrompt_eq (s : Terminal) :
    ∃ fb, newPrompt s =
      { s.setStr s.input Text.empty with
        framebuffer := fb
        promptY := min (s.promptY + 1) (ROWS - 1)
        cursorY := min (s.promptY + 1) (ROWS - 1)
        cursorX := s.promptStringLength
        inputPtr := 0 } := by
  obtain ⟨fb, hfb⟩ := scrollLoop_eq (s := { s with promptY := s.promptY + 1 })
    (k := (s.promptY + 1 - (ROWS - 1) : Int).toNat) (by simp only; omega)
  exact ⟨fb, by simp only [newPrompt, hfb, Terminal.setStr]⟩

/-! ## What a command works on -/

/-- A buffer of a string from `n` up, or `numbuffer`'s. -/
def Block.From (n : Ptr) : Block → Prop
  | .data p => n ≤ p
  | .node _ _ => False
  | .numbuffer => True

/-- `I` survives changes of strings from `n` up, printing, a cleared screen, `cli`
and `sti`. -/
structure Plain (n : Ptr) (I : Terminal → Prop) : Prop where
  setStr ⦃s : Terminal⦄ ⦃p : Ptr⦄ ⦃t : Text⦄ : n ≤ p → I s → I (s.setStr p t)
  mark ⦃s : Terminal⦄ ⦃b : Block⦄ : b.From n → I s → I (s.mark b)
  newPrompt ⦃s : Terminal⦄ : I s → I (Ssmos.newPrompt s)
  draw ⦃s : Terminal⦄ (fb : Framebuffer) : I s → I { s with framebuffer := fb }
  home ⦃s : Terminal⦄ {fb : Framebuffer} : I s → I { s with framebuffer := fb, promptY := -1 }
  interrupts ⦃s : Terminal⦄ (b : Bool) : I s → I { s with interrupts := b }

/-- `I` also survives allocation and frees. -/
structure Calm (n : Ptr) (I : Terminal → Prop) : Prop extends Plain n I where
  le_next ⦃s : Terminal⦄ : I s → n ≤ s.next
  alloc ⦃s : Terminal⦄ : I s → I s.alloc
  free ⦃s : Terminal⦄ ⦃p : Ptr⦄ : n ≤ p → I s → I (s.event (.free p))

/-- `I` survives allocation, changes and frees of strings from `n` up, printing
and drawing. -/
structure Stable (n : Ptr) (I : Terminal → Prop) : Prop extends Calm n I where
  screen ⦃s : Terminal⦄ (fb : Framebuffer) (tc cc : UInt8) :
    I s → I { s with framebuffer := fb, terminalColor := tc, cursorColor := cc }
  endterm ⦃s : Terminal⦄ : I s → I { s with endterm := true }
  draw s fb h := screen fb s.terminalColor s.cursorColor h

theorem text_preserves {I : Terminal → Prop} {p : Ptr} : Preserves I (Term.text p) :=
  Yields.get.bind fun _ _ => Preserves.pure

/-- `I` survives changes of strings from `n` up, printing and drawing. -/
structure Quiet (n : Ptr) (I : Terminal → Prop) : Prop extends Plain n I where
  screen ⦃s : Terminal⦄ (fb : Framebuffer) (tc cc : UInt8) :
    I s → I { s with framebuffer := fb, terminalColor := tc, cursorColor := cc }
  endterm ⦃s : Terminal⦄ : I s → I { s with endterm := true }
  draw s fb h := screen fb s.terminalColor s.cursorColor h

namespace Plain

variable {n : Ptr} {I : Terminal → Prop} {p : Ptr}

/-! ## Strings and printing -/

theorem stringUpdate (h : Plain n I) (hp : n ≤ p) {f : Text → Text} : Preserves I (Term.stringUpdate p f) :=
  Preserves.modify fun s hs => by
    unfold Terminal.update
    split
    next => exact hs
    next => exact h.mark hp (h.setStr hp hs)

theorem stringAdd (h : Plain n I) (hp : n ≤ p) {data : Text} : Preserves I (Term.stringAdd p data) :=
  h.stringUpdate hp

theorem stringAddchar (h : Plain n I) (hp : n ≤ p) {c : UInt8} : Preserves I (Term.stringAddchar p c) :=
  h.stringUpdate hp

theorem stringSet (h : Plain n I) (hp : n ≤ p) {data : Text} : Preserves I (Term.stringSet p data) :=
  h.stringUpdate hp

theorem stringClear (h : Plain n I) (hp : n ≤ p) : Preserves I (Term.stringClear p) := h.stringUpdate hp

theorem stringAddnum (h : Plain n I) (hp : n ≤ p) {env : Env} {num base : Int} :
    Preserves I (Term.stringAddnum env p num base) := by
  unfold Term.stringAddnum
  have hown : Block.numbuffer.From n := trivial
  exact (Preserves.modify fun _ hs => h.mark hown hs).bind fun _ => h.stringAdd hp

theorem copyWord (h : Plain n I) (hp : n ≤ p) {cs : List UInt8} : Preserves I (Term.copyWord p cs) := by
  induction cs with
  | nil => exact .pure
  | cons c cs ih => exact .ite (fun _ => .pure) fun _ => (h.stringAddchar hp).bind fun _ => ih

/-- One word leaves nothing to copy. -/
theorem copyWord_nil (h : Plain n I) (hp : n ≤ p) {cs : List UInt8} (hcs : 0x20 ∉ cs) :
    Yields I (Term.copyWord p cs) (· = []) := by
  induction cs with
  | nil => exact .pure rfl
  | cons c cs ih =>
    refine .ite (fun hc => absurd hc.symm (List.ne_of_not_mem_cons hcs)) fun _ => ?_
    exact (h.stringAddchar hp).yields fun _ => ih (List.not_mem_of_not_mem_cons hcs)

theorem copyRest (h : Plain n I) (hp : n ≤ p) {cs : List UInt8} : Preserves I (Term.copyRest p cs) := by
  induction cs with
  | nil => exact .pure
  | cons c cs ih => exact (h.stringAddchar hp).bind fun _ => ih

theorem writelineLoop (h : Plain n I) {i : Nat} {cs : List UInt8} : Preserves I (Term.writelineLoop i cs) := by
  induction cs generalizing i with
  | nil => exact .pure
  | cons c cs ih =>
    refine (Preserves.modify fun s hs => ?_).bind fun _ =>
      (Preserves.ite (fun _ => .modify h.newPrompt) fun _ => .pure).bind fun _ => ih
    exact h.draw _ hs

theorem writeline (h : Plain n I) {msg : Text} : Preserves I (Term.writeline msg) :=
  (Preserves.modify h.newPrompt).bind fun _ => h.writelineLoop

/-! ## Parts of handlers -/

variable {table : List Command} {env : Env} {params : Text}

theorem padLoop (h : Plain n I) (hp : n ≤ p) {k : Nat} : Preserves I (Term.padLoop p k) := by
  induction k with
  | zero => exact .throw
  | succ k ih =>
    exact text_preserves.bind fun _ => .ite (fun _ => (h.stringAddchar hp).bind fun _ => ih) fun _ => .pure

theorem fillLine (h : Plain n I) (hp : n ≤ p) {cs : List Command} {i : Nat} :
    Preserves I (Term.fillLine p cs i) := by
  induction cs generalizing i with
  | nil =>
    exact text_preserves.bind fun _ =>
      (Preserves.ite (fun _ => h.padLoop hp) fun _ => .pure).bind fun _ => .pure
  | cons c cs ih =>
    exact text_preserves.bind fun _ =>
      .ite (fun _ => (h.padLoop hp).bind fun _ => (h.stringAdd hp).bind fun _ => ih) fun _ => .pure

theorem setName (h : Plain n I) (hp : n ≤ p) {i : Nat} : Preserves I (Term.setName table env p i) := by
  unfold Term.setName
  split
  next => exact h.stringSet hp
  next =>
    split
    next => exact h.stringSet hp
    next => exact .pure

theorem helpLoop (h : Plain n I) (hp : n ≤ p) {k i : Nat} {linecomplete : Bool} :
    Preserves I (Term.helpLoop table env p k i linecomplete) := by
  induction k generalizing i linecomplete with
  | zero => exact .throw
  | succ k ih =>
    refine .ite (fun _ => .ite (fun _ => ?_) fun _ => ?_) fun _ => .pure
    · exact text_preserves.bind fun _ => h.writeline.bind fun _ => (h.setName hp).bind fun _ => ih
    · exact (h.fillLine hp).bind fun _ => ih

theorem historyLoop (h : Plain n I) (hp : n ≤ p) {ps : List Ptr} {i : Int} :
    Preserves I (Term.historyLoop env p ps i) := by
  induction ps generalizing i with
  | nil => exact .pure
  | cons q ps ih =>
    exact (h.stringAddnum hp).bind fun _ => (h.stringAdd hp).bind fun _ => text_preserves.bind fun _ =>
      (h.stringAdd hp).bind fun _ => text_preserves.bind fun _ => h.writeline.bind fun _ =>
        (h.stringClear hp).bind fun _ => ih

theorem writeLabelled (h : Plain n I) (hp : n ≤ p) {label data : Text} :
    Preserves I (Term.writeLabelled p label data) :=
  (h.stringSet hp).bind fun _ => (h.stringAdd hp).bind fun _ => text_preserves.bind fun _ => h.writeline

theorem echo (h : Plain n I) : Preserves I (Term.echo params) := h.writeline.bind fun _ => .pure

theorem cls (h : Plain n I) : Preserves I Term.cls :=
  (Preserves.modify fun _ hs => h.home hs).bind fun _ => .pure

theorem tocolor (h : Plain n I) (hp : n ≤ p) : Preserves I (Term.tocolor p) :=
  (h.stringUpdate hp).bind fun _ => text_preserves.bind fun _ => .pure

theorem addRegister (h : Plain n I) (hp : n ≤ p) {r : UInt32} : Preserves I (Term.addRegister p r) :=
  (h.stringAddchar hp).bind fun _ => (h.stringAddchar hp).bind fun _ => (h.stringAddchar hp).bind fun _ =>
    h.stringAddchar hp

theorem addFeatures (h : Plain n I) (hp : n ≤ p) {r : UInt32} {fs : List (Nat × String)} :
    Preserves I (Term.addFeatures p r fs) := by
  induction fs with
  | nil => exact .pure
  | cons f fs ih =>
    exact (Preserves.ite (fun _ => h.stringAdd hp) fun _ => .pure).bind fun _ => ih

theorem syslogLoop (h : Plain n I) (hp : n ≤ p) {vs : List Text} : Preserves I (Term.syslogLoop p vs) := by
  induction vs with
  | nil => exact .pure
  | cons v vs ih =>
    exact (h.stringSet hp).bind fun _ => text_preserves.bind fun _ => h.writeline.bind fun _ => ih

theorem addStats (h : Plain n I) (hp : n ≤ p) {bytes blocks : Int} :
    Preserves I (Term.addStats env p bytes blocks) :=
  (h.stringAddnum hp).bind fun _ => (h.stringAdd hp).bind fun _ => (h.stringAddnum hp).bind fun _ =>
    (h.stringAdd hp).bind fun _ => text_preserves.bind fun _ => h.writeline

theorem addTime (h : Plain n I) (hp : n ≤ p) {hours minutes seconds : Nat} :
    Preserves I (Term.addTime env p hours minutes seconds) :=
  (h.stringAddnum hp).bind fun _ => (h.stringAddchar hp).bind fun _ => (h.stringAddnum hp).bind fun _ =>
    (h.stringAddchar hp).bind fun _ => h.stringAddnum hp

theorem sti (h : Plain n I) : Preserves I Term.sti := Preserves.modify fun _ hs => h.interrupts _ hs

theorem floppyGetstring (h : Plain n I) {k : Nat} {slave : Bool} :
    Preserves I (Term.floppyGetstring env k slave) := by
  refine h.sti.bind fun _ => ?_
  split
  case h_7 => exact .throw
  all_goals exact .pure

theorem drainKeyboard {x : UInt8} {l : List UInt8} : Preserves I (Term.drainKeyboard x l) := by
  induction l generalizing x with
  | nil => exact .ite (fun _ => .throw) fun _ => .pure
  | cons status l ih => exact .ite (fun _ => ih) fun _ => .pure

theorem reboot (h : Plain n I) : Preserves I (Term.reboot env) :=
  (Preserves.modify fun _ hs => h.interrupts _ hs).bind fun _ => drainKeyboard.bind fun _ =>
    (Preserves.ite (fun _ => .throw) fun _ => .pure).bind fun _ => .pure

theorem about (h : Plain n I) : Preserves I (Term.about env) :=
  h.writeline.bind fun _ => h.writeline.bind fun _ => h.writeline.bind fun _ => h.writeline.bind fun _ =>
    h.writeline.bind fun _ => h.writeline.bind fun _ => h.writeline.bind fun _ => .pure

theorem version (h : Plain n I) : Preserves I (Term.version env) :=
  h.writeline.bind fun _ => h.writeline.bind fun _ => .pure

end Plain

namespace Quiet

theorem shutdown {n : Ptr} {I : Terminal → Prop} (h : Quiet n I) : Preserves I Term.shutdown :=
  (Preserves.modify h.endterm).bind fun _ => .pure

end Quiet

namespace Calm

variable {n : Ptr} {I : Terminal → Prop} {p : Ptr}

theorem stringNew (h : Calm n I) : Yields I Term.stringNew (n ≤ ·) := by
  intro s a s' hs hx
  cases hx
  have hle := h.le_next hs
  exact ⟨hle, h.mark hle (h.setStr hle (h.alloc hs))⟩

theorem stringFree (h : Calm n I) (hp : n ≤ p) : Preserves I (Term.stringFree p) :=
  Preserves.modify fun s hs => by
    unfold Terminal.release
    split
    next => exact hs
    next => exact h.free hp hs

/-! ## Handlers -/

variable {table : List Command} {env : Env} {params : Text}

theorem help (h : Calm n I) : Preserves I (Term.help table env params) := by
  refine (Preserves.ite (fun _ => ?_) fun _ => ?_).bind fun _ =>
    (Preserves.modify h.newPrompt).bind fun _ => .pure
  · unfold Term.helpOn
    split
    next =>
      exact h.writeline.bind fun _ => h.writeline.bind fun _ => h.writeline.bind fun _ =>
        h.writeline
    next =>
      exact h.stringNew.bind fun _ hp => (h.stringSet hp).bind fun _ => (h.stringAdd hp).bind fun _ =>
        text_preserves.bind fun _ => h.writeline.bind fun _ => h.stringFree hp
  · exact h.stringNew.bind fun _ hp => h.writeline.bind fun _ => h.writeline.bind fun _ =>
      (h.helpLoop hp).bind fun _ => h.stringFree hp

theorem history (h : Calm n I) : Preserves I (Term.history env) :=
  Yields.get.bind fun _ _ => h.stringNew.bind fun _ hp => h.writeline.bind fun _ =>
    (h.historyLoop hp).bind fun _ => h.writeline.bind fun _ => (h.stringFree hp).bind fun _ => .pure

theorem disk (h : Calm n I) : Preserves I (Term.disk env) := by
  refine h.stringNew.bind fun _ hp => ?_
  refine h.floppyGetstring.bind fun _ => (h.writeLabelled hp).bind fun _ => ?_
  refine h.floppyGetstring.bind fun _ => (h.writeLabelled hp).bind fun _ => ?_
  refine h.writeline.bind fun _ => h.writeline.bind fun _ => ?_
  refine (Preserves.ite (fun _ => h.writeline) fun _ => ?_).bind fun _ =>
    (Preserves.ite (fun _ => h.writeline) fun _ => ?_).bind fun _ => .pure
  · exact (h.writeLabelled hp).bind fun _ => h.writeLabelled hp
  · exact (h.writeLabelled hp).bind fun _ => h.writeLabelled hp

theorem cpuinfo (h : Calm n I) : Preserves I (Term.cpuinfo env) := by
  refine h.stringNew.bind fun _ hp => (h.stringSet hp).bind fun _ => ?_
  refine (h.addRegister hp).bind fun _ => (h.addRegister hp).bind fun _ => ?_
  refine (h.addRegister hp).bind fun _ => ?_
  refine text_preserves.bind fun _ => h.writeline.bind fun _ => h.writeline.bind fun _ => ?_
  refine h.writeline.bind fun _ => (h.stringClear hp).bind fun _ => ?_
  refine (h.addFeatures hp).bind fun _ => ?_
  refine text_preserves.bind fun _ => h.writeline.bind fun _ => h.writeline.bind fun _ => ?_
  refine h.writeline.bind fun _ => (h.stringClear hp).bind fun _ => ?_
  refine (h.addFeatures hp).bind fun _ => ?_
  exact (h.addFeatures hp).bind fun _ => text_preserves.bind fun _ => h.writeline.bind fun _ =>
    (h.stringFree hp).bind fun _ => .pure

theorem syslog (h : Calm n I) : Preserves I Term.syslog :=
  h.writeline.bind fun _ => Yields.get.bind fun _ _ => h.stringNew.bind fun _ hp =>
    (h.syslogLoop hp).bind fun _ => h.writeline.bind fun _ => .pure

theorem memory (h : Calm n I) : Preserves I (Term.memory env) := by
  refine h.stringNew.bind fun _ hp => (h.stringAdd hp).bind fun _ => (h.addStats hp).bind fun _ => ?_
  refine (h.stringSet hp).bind fun _ => (h.addStats hp).bind fun _ => ?_
  exact (h.stringSet hp).bind fun _ => (h.addStats hp).bind fun _ =>
    (h.stringFree hp).bind fun _ => .pure

theorem time (h : Calm n I) : Preserves I (Term.time env) := by
  refine h.stringNew.bind fun _ hp => (h.stringSet hp).bind fun _ => (h.addTime hp).bind fun _ => ?_
  refine text_preserves.bind fun _ => h.writeline.bind fun _ => h.sti.bind fun _ => ?_
  refine (h.stringSet hp).bind fun _ => (h.stringAddnum hp).bind fun _ => (h.stringAddnum hp).bind fun _ => ?_
  refine (h.stringAddchar hp).bind fun _ => ?_
  refine (h.stringAddnum hp).bind fun _ => (h.stringAddchar hp).bind fun _ => ?_
  refine (h.stringAddnum hp).bind fun _ => ?_
  refine (h.stringAdd hp).bind fun _ => (h.addTime hp).bind fun _ => ?_
  refine (Preserves.ite (fun _ => h.writeline) fun _ => .pure).bind fun _ => ?_
  exact text_preserves.bind fun _ => h.writeline.bind fun _ => (h.stringFree hp).bind fun _ => .pure

theorem tcolorError (h : Calm n I) {q : Ptr} (hp : n ≤ p) (hq : n ≤ q) :
    Preserves I (Term.tcolorError p q) :=
  (h.stringFree hp).bind fun _ => (h.stringFree hq).bind fun _ => h.writeline.bind fun _ => .pure

/-- The handlers that draw in the colors there are, and let the terminal run on. -/
theorem run (h : Calm n I) {c : Handler} (halias : c ≠ .aliasCmd) (hprompt : c ≠ .cprompt)
    (hcolor : c ≠ .tcolor) (hend : c ≠ .shutdown) : Preserves I (c.run table env params) := by
  cases c with
  | help => exact h.help
  | history => exact h.history
  | disk => exact h.disk
  | memview => exact .pure
  | echo => exact h.echo
  | cls => exact h.cls
  | tcolor => exact absurd rfl hcolor
  | aliasCmd => exact absurd rfl halias
  | cprompt => exact absurd rfl hprompt
  | cpuinfo => exact h.cpuinfo
  | syslog => exact h.syslog
  | memory => exact h.memory
  | reboot => exact h.reboot
  | shutdown => exact absurd rfl hend
  | time => exact h.time
  | debug => exact .pure
  | about => exact h.about
  | version => exact h.version

end Calm

namespace Stable

variable {n : Ptr} {I : Terminal → Prop} {p : Ptr} {table : List Command} {env : Env} {params : Text}

theorem quiet (h : Stable n I) : Quiet n I where
  setStr := h.setStr
  mark := h.mark
  newPrompt := h.newPrompt
  screen := h.screen
  home := h.home
  interrupts := h.interrupts
  endterm := h.endterm

theorem tcolor (h : Stable n I) : Preserves I (Term.tcolor params) := by
  refine h.stringNew.bind fun _ hp => h.stringNew.bind fun _ hq => (h.quiet.copyWord hp).bind fun rest => ?_
  cases rest with
  | nil => exact h.tcolorError hp hq
  | cons c rest =>
    refine (h.quiet.copyWord hq).bind fun _ => ?_
    refine (h.quiet.tocolor hp).bind fun _ => (h.quiet.tocolor hq).bind fun _ => ?_
    refine .ite (fun _ => h.tcolorError hp hq) fun _ => ?_
    exact (Preserves.modify fun _ hs => h.screen _ _ _ hs).bind fun _ =>
      (h.stringFree hp).bind fun _ => (h.stringFree hq).bind fun _ => .pure

/-- **Every handler but `alias` and `cprompt`** works on strings of its own and
on the screen only. -/
theorem run (h : Stable n I) {c : Handler} (halias : c ≠ .aliasCmd) (hprompt : c ≠ .cprompt) :
    Preserves I (c.run table env params) := by
  by_cases hcolor : c = .tcolor
  · subst hcolor
    exact h.tcolor
  · by_cases hend : c = .shutdown
    · subst hend
      exact h.quiet.shutdown
    · exact h.toCalm.run halias hprompt hcolor hend

end Stable

/-- `I` also survives the free of any string and the use of a pointer of which
`D` holds, as it does of a table's pointers whose first is not `NULL`. -/
structure EventCalm (n : Ptr) (D : Ptr → Prop) (I : Terminal → Prop) : Prop extends Calm n I where
  freeAny ⦃s : Terminal⦄ {p : Ptr} : I s → I (s.event (.free p))
  deref ⦃s : Terminal⦄ {p : Ptr} : D p → I s → I (s.event (.deref p))
  guarded ⦃s : Terminal⦄ : I s → firstValue s.aliases ≠ NULL → ∀ p ∈ s.aliases, D p

namespace EventCalm

variable {n : Ptr} {D : Ptr → Prop} {I : Terminal → Prop} {p : Ptr}

theorem derefAlias (h : EventCalm n D I) (hp : D p) : Preserves I (Term.derefAlias p) :=
  (Preserves.modify fun _ hs => h.deref hp hs).bind fun _ => Yields.get.bind fun _ _ => Preserves.pure

theorem releaseAny (h : EventCalm n D I) : Preserves I (Term.stringFree p) :=
  Preserves.modify fun s hs => by
    unfold Terminal.release
    split
    next => exact hs
    next => exact h.freeAny hs

theorem findAliasLoop (h : EventCalm n D I) {input : Text} {ps : List Ptr} (hps : ∀ p ∈ ps, D p) :
    Yields I (Term.findAliasLoop input ps) fun r => ∀ p, r = some p → D p := by
  induction ps with
  | nil => exact .pure nofun
  | cons p ps ih =>
    have hp := hps p List.mem_cons_self
    have ih := ih fun q hq => hps q (List.mem_cons_of_mem _ hq)
    refine (h.derefAlias hp).yields fun _ => .ite (fun _ => .pure nofun) fun _ => ?_
    refine text_preserves.yields fun _ => ?_
    exact .ite (fun _ => .pure fun q hq => Option.some.inj hq ▸ hp) fun _ => ih

theorem findAlias (h : EventCalm n D I) {input : Text} :
    Yields I (Term.findAlias input) fun r => ∀ p, r = some p → D p :=
  Yields.get.bind fun _ hs => .ite (fun _ => .pure nofun) fun hfirst => h.findAliasLoop (h.guarded hs hfirst)

theorem listAliases (h : EventCalm n D I) (hp : n ≤ p) {ps : List Ptr}
    (hps : firstValue ps ≠ NULL → ∀ q ∈ ps, D q) : Preserves I (Term.listAliases p ps) := by
  induction ps with
  | nil => exact .pure
  | cons q ps ih =>
    refine .ite (fun _ => .pure) fun hq => ?_
    have hps := hps hq
    refine (h.derefAlias (hps q List.mem_cons_self)).bind fun _ => ?_
    exact text_preserves.bind fun _ => (h.stringAdd hp).bind fun _ => (h.stringAdd hp).bind fun _ =>
      text_preserves.bind fun _ => (h.stringAdd hp).bind fun _ => text_preserves.bind fun _ =>
        h.writeline.bind fun _ => (h.stringClear hp).bind fun _ =>
          ih fun _ r hr => hps r (List.mem_cons_of_mem _ hr)

theorem aliasList (h : EventCalm n D I) : Preserves I Term.aliasList :=
  Yields.get.bind fun _ hs => h.stringNew.bind fun _ hp => (h.listAliases hp (h.guarded hs)).bind fun _ =>
    (h.stringFree hp).bind fun _ => .pure

theorem aliasError (h : EventCalm n D I) {q : Ptr} (hp : n ≤ p) (hq : n ≤ q) :
    Preserves I (Term.aliasError p q) :=
  (h.stringFree hp).bind fun _ => (h.stringFree hq).bind fun _ => h.writeline.bind fun _ => .pure

end EventCalm

structure EventStable (n : Ptr) (D : Ptr → Prop) (I : Terminal → Prop) : Prop extends Stable n I,
  EventCalm n D I

/-- `I` also survives what `alias` does to the table, whose pointers it looks
at without a guard. -/
structure AliasStable (n : Ptr) (D : Ptr → Prop) (I : Terminal → Prop) : Prop extends EventStable n D I where
  entries ⦃s : Terminal⦄ : I s → ∀ p ∈ s.aliases, D p
  setStruct ⦃s : Terminal⦄ {p : Ptr} {a : Alias} : I s → I (s.setStruct p a)
  addAlias ⦃s : Terminal⦄ ⦃p : Ptr⦄ : n ≤ p → I s → I (s.addAlias p)

namespace AliasStable

variable {n : Ptr} {D : Ptr → Prop} {I : Terminal → Prop} {p q : Ptr}

/-- One entry of the search, from `P`: what follows its first use keeps `I`. -/
theorem overwriteLoop_cons (h : AliasStable n D I) {P : Terminal → Prop} {r : Ptr} {ps : List Ptr}
    (hr : Triple P (Term.derefAlias r) fun _ => I) (hps : Preserves I (Term.overwriteLoop p q ps)) :
    Triple P (Term.overwriteLoop p q (r :: ps)) fun _ => I := by
  refine hr.bind fun _ => Preserves.iff_triple.mp ?_
  refine text_preserves.bind fun _ => text_preserves.bind fun _ => .ite (fun _ => ?_) fun _ => hps
  exact (Preserves.modify fun _ hs => h.setStruct hs).bind fun _ =>
    h.releaseAny.bind fun _ => h.releaseAny.bind fun _ => .pure

theorem overwriteLoop (h : AliasStable n D I) {ps : List Ptr} (hps : ∀ p ∈ ps, D p) :
    Preserves I (Term.overwriteLoop p q ps) := by
  induction ps with
  | nil => exact .pure
  | cons r ps ih =>
    have hr := h.derefAlias (hps r List.mem_cons_self)
    have hrest := ih fun t ht => hps t (List.mem_cons_of_mem _ ht)
    exact Preserves.iff_triple.mpr (h.overwriteLoop_cons (Preserves.iff_triple.mp hr) hrest)

theorem newStruct (h : AliasStable n D I) {a : Alias} : Yields I (Term.newStruct a) (n ≤ ·) := by
  intro s r s' hs hx
  cases hx
  exact ⟨h.le_next hs, h.setStruct (h.alloc hs)⟩

/-- A definition, from `P`: what follows the search keeps `I`. -/
theorem aliasDefine_of (h : AliasStable n D I) {P : Terminal → Prop}
    (hloop : ∀ s, P s → Triple P (Term.overwriteLoop p q s.aliases) fun _ => I) :
    Triple P (Term.aliasDefine p q) fun _ => I := by
  refine Triple.get.bind fun s => Triple.bind (R := fun _ => I) ?_ fun b => Preserves.iff_triple.mp ?_
  · intro _ b s' hex hx
    obtain ⟨rfl, hs⟩ := hex
    exact hloop _ hs hs hx
  · exact .ite (fun _ => .pure) fun _ => h.newStruct.bind fun _ hr =>
      (Preserves.modify fun _ hs => h.addAlias hr hs).bind fun _ => .pure

theorem aliasDefine (h : AliasStable n D I) : Preserves I (Term.aliasDefine p q) :=
  Preserves.iff_triple.mpr (h.aliasDefine_of fun _ hs =>
    Preserves.iff_triple.mp (h.overwriteLoop (h.entries hs)))

theorem aliasCmd (h : AliasStable n D I) {params : Text} : Preserves I (Term.aliasCmd params) := by
  refine .ite (fun _ => ?_) fun _ => ?_
  · exact h.aliasList
  · refine h.stringNew.bind fun _ hp => h.stringNew.bind fun _ hq => (h.quiet.copyWord hp).bind fun rest => ?_
    cases rest with
    | nil => exact h.aliasError hp hq
    | cons c rest => exact (h.quiet.copyRest hq).bind fun _ => h.aliasDefine

end AliasStable

/-! ## Commands that always return -/

theorem text_total {p : Ptr} : Total (Term.text p) := Total.get.bind fun _ => .pure

theorem stringNew_total : Total Term.stringNew := fun _ => ⟨_, _, rfl⟩

theorem writelineLoop_total {i : Nat} {cs : List UInt8} : Total (Term.writelineLoop i cs) := by
  induction cs generalizing i with
  | nil => exact .pure
  | cons c cs ih => exact Total.modify.bind fun _ => (Total.ite .modify .pure).bind fun _ => ih

theorem writeline_total {msg : Text} : Total (Term.writeline msg) :=
  Total.modify.bind fun _ => writelineLoop_total

theorem copyWord_total {p : Ptr} {cs : List UInt8} : Total (Term.copyWord p cs) := by
  induction cs with
  | nil => exact .pure
  | cons c cs ih => exact .ite .pure (Total.modify.bind fun _ => ih)

theorem copyRest_total {p : Ptr} {cs : List UInt8} : Total (Term.copyRest p cs) := by
  induction cs with
  | nil => exact .pure
  | cons c cs ih => exact Total.modify.bind fun _ => ih

theorem derefAlias_total {p : Ptr} : Total (Term.derefAlias p) :=
  Total.modify.bind fun _ => Total.get.bind fun _ => .pure

theorem listAliases_total {p : Ptr} {ps : List Ptr} : Total (Term.listAliases p ps) := by
  induction ps with
  | nil => exact .pure
  | cons q ps ih =>
    refine .ite .pure (derefAlias_total.bind fun _ => ?_)
    exact text_total.bind fun _ => Total.modify.bind fun _ => Total.modify.bind fun _ =>
      text_total.bind fun _ => Total.modify.bind fun _ => text_total.bind fun _ =>
        writeline_total.bind fun _ => Total.modify.bind fun _ => ih

theorem overwriteLoop_total {p q : Ptr} {ps : List Ptr} : Total (Term.overwriteLoop p q ps) := by
  induction ps with
  | nil => exact .pure
  | cons r ps ih =>
    refine derefAlias_total.bind fun _ => text_total.bind fun _ => text_total.bind fun _ => .ite ?_ ih
    exact Total.modify.bind fun _ => Total.modify.bind fun _ => Total.modify.bind fun _ => .pure

theorem aliasDefine_total {p q : Ptr} : Total (Term.aliasDefine p q) :=
  Total.get.bind fun _ => overwriteLoop_total.bind fun _ => Total.ite .pure
    (Total.bind (fun _ => ⟨_, _, rfl⟩) fun _ => Total.modify.bind fun _ => .pure)

/-- **`alias` returns**, whatever its parameters and the table. -/
theorem aliasCmd_total (params : Text) : Total (Term.aliasCmd params) := by
  refine .ite ?_ ?_
  · exact Total.get.bind fun _ => stringNew_total.bind fun _ => listAliases_total.bind fun _ =>
      Total.modify.bind fun _ => .pure
  · refine stringNew_total.bind fun _ => stringNew_total.bind fun _ => copyWord_total.bind fun rest => ?_
    cases rest with
    | nil =>
      exact Total.modify.bind fun _ => Total.modify.bind fun _ => writeline_total.bind fun _ => .pure
    | cons c rest => exact copyRest_total.bind fun _ => aliasDefine_total

end Ssmos

/-
What commands owe the heap: each frees what it allocates on every way out,
but for `alias`, which keeps a definition's objects, and for `disk` and
`syslog`, which forget their buffer.
-/
import Ssmos.Aliases

namespace Ssmos

/-! ## Holdings -/

/-- The part of the terminal that owning an object is seen in. -/
structure Holdings where
  next : Ptr
  log : List Event
  input : Ptr
  promptString : Ptr
  cmdhistory : List Ptr
  aliases : List Ptr
  struct : Ptr → Alias

def Terminal.holdings (s : Terminal) : Holdings :=
  ⟨s.next, s.log, s.input, s.promptString, s.cmdhistory, s.aliases, s.struct⟩

/-- `x` moves no object. -/
def Still {α : Type} (x : Term α) : Prop := ∀ v, Preserves (fun s => s.holdings = v) x

theorem newPrompt_holdings (s : Terminal) : (newPrompt s).holdings = s.holdings := by
  obtain ⟨fb, hfb⟩ := newPrompt_eq s
  rw [hfb]
  rfl

/-- Changes of strings, printing and drawing move none. -/
theorem Quiet.holdings (v : Holdings) : Quiet 0 fun s => s.holdings = v where
  setStr _ _ _ _ hs := hs
  mark _ _ _ hs := hs
  newPrompt s hs := (newPrompt_holdings s).trans hs
  screen _ _ _ _ hs := hs
  home _ _ hs := hs
  interrupts _ _ hs := hs
  endterm _ hs := hs

theorem Still.of_quiet {α : Type} {x : Term α}
    (h : ∀ {I : Terminal → Prop}, Quiet 0 I → Preserves I x) : Still x :=
  fun v => h (.holdings v)

/-! ## Owing -/

/-- Every way `x` returns, what it allocated is freed, and so are the strings `ps`. -/
def Owes {α : Type} (ps : List Ptr) (x : Term α) : Prop :=
  ∀ ⦃s a s'⦄, s.next ≠ NULL → x s = .ok (a, s') → s.next ≤ s'.next ∧
    ∃ es, s'.log = es ++ s.log ∧ (∀ p, .alloc p ∈ es → .free p ∈ es) ∧ ∀ p ∈ ps, .free p ∈ es

section

variable {α β : Type} {x : Term α} {f : α → Term β} {p q : Ptr} {ps : List Ptr}

theorem Owes.bind (hx : Owes [] x) (hf : ∀ a, Owes ps (f a)) : Owes ps (x >>= f) := by
  intro s b s' hnext h
  obtain ⟨a, s₁, hxs, hfs⟩ := StateT.bind_ok_iff.mp h
  obtain ⟨hle₁, es₁, hlog₁, hpaid₁, -⟩ := hx hnext hxs
  have hnext₁ : s₁.next ≠ NULL := Nat.ne_zero_of_lt (Nat.lt_of_lt_of_le (Nat.pos_of_ne_zero hnext) hle₁)
  obtain ⟨hle, es, hlog, hpaid, hps⟩ := hf a hnext₁ hfs
  refine ⟨Nat.le_trans hle₁ hle, es ++ es₁, by rw [hlog, hlog₁, List.append_assoc], fun p hp => ?_,
    fun p hp => List.mem_append_left _ (hps p hp)⟩
  rcases List.mem_append.mp hp with hp | hp
  · exact List.mem_append_left _ (hpaid p hp)
  · exact List.mem_append_right _ (hpaid₁ p hp)

theorem Still.owes (hx : Still x) : Owes [] x := by
  intro s a s' _ h
  have hs : s'.holdings = s.holdings := (hx _ rfl h).2
  exact ⟨(congrArg Holdings.next hs).ge, [], congrArg Holdings.log hs, nofun, nofun⟩

theorem Owes.still (hx : Still x) (hf : ∀ a, Owes ps (f a)) : Owes ps (x >>= f) := hx.owes.bind hf

theorem Owes.pure {a : α} : Owes [] (Pure.pure a : Term α) := by
  intro s b s' _ h
  cases h
  exact ⟨le_refl _, [], rfl, nofun, nofun⟩

theorem Owes.throw {e : Stop} : Owes ps (throw e : Term α) := fun _ _ _ _ h => nomatch h

theorem Owes.ite {c : Prop} [Decidable c] {y : Term α} (hx : c → Owes ps x) (hy : ¬c → Owes ps y) :
    Owes ps (if c then x else y) := by
  split
  next hc => exact hx hc
  next hc => exact hy hc

theorem Owes.get {f : Terminal → Term β} (hf : ∀ s, Owes ps (f s)) : Owes ps (MonadState.get >>= f) := by
  intro s b s' hnext h
  obtain ⟨a, s₁, hs, hfs⟩ := StateT.bind_ok_iff.mp h
  cases hs
  exact hf s hnext hfs

/-- A string is to be freed from where it is made. -/
theorem Owes.stringNew {f : Ptr → Term β} (hf : ∀ p, p ≠ NULL → Owes (p :: ps) (f p)) :
    Owes ps (Term.stringNew >>= f) := by
  intro s b s' hnext h
  rw [StateT.bind_of_ok (stringNew_eq s)] at h
  obtain ⟨hle, es, hlog, hpaid, hps⟩ := hf s.next hnext (Nat.succ_ne_zero _) h
  refine ⟨Nat.le_trans (Nat.le_succ _) hle, es ++ [.alloc s.next], by rw [hlog, List.append_assoc]; rfl,
    fun p hp => ?_, fun p hp => List.mem_append_left _ (hps p (List.mem_cons_of_mem _ hp))⟩
  rcases List.mem_append.mp hp with hp | hp
  · exact List.mem_append_left _ (hpaid p hp)
  · rw [Event.alloc.inj (List.mem_singleton.mp hp)]
    exact List.mem_append_left _ (hps _ List.mem_cons_self)

theorem stringFree_eq {s : Terminal} (hp : p ≠ NULL) :
    Term.stringFree p s = .ok ((), s.event (.free p)) :=
  congrArg (fun s => Except.ok ((), s)) (if_neg hp)

theorem Owes.stringFree {f : Unit → Term β} (hp : p ≠ NULL) (hf : ∀ a, Owes ps (f a)) :
    Owes (p :: ps) (Term.stringFree p >>= f) := by
  intro s b s' hnext h
  rw [StateT.bind_of_ok (stringFree_eq hp)] at h
  have hfreed : (s.event (.free p)).next ≠ NULL := hnext
  obtain ⟨hle, es, hlog, hpaid, hps⟩ := hf () hfreed h
  have hold : ∀ e ∈ es, e ∈ es ++ [Event.free p] := fun _ he => List.mem_append_left _ he
  refine ⟨hle, es ++ [.free p], by rw [hlog, List.append_assoc]; rfl, fun q hq => ?_, fun q hq => ?_⟩
  · rcases List.mem_append.mp hq with hq | hq
    · exact hold _ (hpaid q hq)
    · cases List.mem_singleton.mp hq
  · rcases List.mem_cons.mp hq with rfl | hq
    · exact List.mem_append_right _ List.mem_cons_self
    · exact hold _ (hps q hq)

theorem Owes.mono {qs : List Ptr} (hx : Owes ps x) (hsub : ∀ p ∈ qs, p ∈ ps) : Owes qs x := by
  intro s a s' hnext h
  obtain ⟨hle, es, hlog, hpaid, hps⟩ := hx hnext h
  exact ⟨hle, es, hlog, hpaid, fun p hp => hps p (hsub p hp)⟩

theorem Owes.swap (hx : Owes (q :: p :: ps) x) : Owes (p :: q :: ps) x :=
  hx.mono fun r hr => by
    simp only [List.mem_cons] at hr ⊢
    tauto

/-- The last string is freed, and nothing else is left to do. -/
theorem Owes.freeLast (hp : p ≠ NULL) : Owes [p] (Term.stringFree p) := by
  have h : Owes [p] (Term.stringFree p >>= Pure.pure) := Owes.stringFree hp fun _ => .pure
  rwa [bind_pure] at h

end

/-! ## Handlers -/

section

variable {α : Type} {table : List Command} {env : Env} {params msg : Text} {p q : Ptr} {ps : List Ptr}

theorem Owes.text {f : Text → Term α} (hf : ∀ t, Owes ps (f t)) : Owes ps (Term.text p >>= f) :=
  .still (.of_quiet fun _ => text_preserves) hf

theorem Owes.writeline {f : Unit → Term α} (hf : ∀ a, Owes ps (f a)) : Owes ps (Term.writeline msg >>= f) :=
  .still (.of_quiet fun h => h.writeline) hf

theorem Owes.update {g : Text → Text} {f : Unit → Term α} (hf : ∀ a, Owes ps (f a)) :
    Owes ps (Term.stringUpdate p g >>= f) :=
  .still (.of_quiet fun h => h.stringUpdate (Nat.zero_le _)) hf

theorem help_owes : Owes [] (Term.help table env params) := by
  refine .bind (.ite (fun _ => ?_) fun _ => ?_) fun _ =>
    .still (.of_quiet fun h => .modify h.newPrompt) fun _ => .pure
  · unfold Term.helpOn
    split
    next =>
      exact .writeline fun _ => .writeline fun _ => .writeline fun _ =>
        (Still.of_quiet fun h => h.writeline).owes
    next =>
      exact .stringNew fun _ hp => .update fun _ => .update fun _ => .text fun _ => .writeline fun _ =>
        .freeLast hp
  · exact .stringNew fun _ hp => .writeline fun _ => .writeline fun _ =>
      .still (.of_quiet fun h => h.helpLoop (Nat.zero_le _)) fun _ => .freeLast hp

theorem history_owes : Owes [] (Term.history env) :=
  .get fun _ => .stringNew fun _ hp => .writeline fun _ =>
    .still (.of_quiet fun h => h.historyLoop (Nat.zero_le _)) fun _ => .writeline fun _ =>
      .stringFree hp fun _ => .pure

theorem cprompt_owes : Owes [] (Term.cprompt params) := by
  refine .ite (fun _ => ?_) fun _ => .writeline fun _ => .pure
  exact .get fun _ => .update fun _ => .still (fun _ => .modify fun _ hs => hs) fun _ => .pure

theorem cls_owes : Owes [] Term.cls := (Still.of_quiet fun h => h.cls).owes

theorem tcolorError_owes (hp : p ≠ NULL) (hq : q ≠ NULL) : Owes [p, q] (Term.tcolorError p q) :=
  .stringFree hp fun _ => .stringFree hq fun _ => .writeline fun _ => .pure

theorem tcolor_owes : Owes [] (Term.tcolor params) := by
  refine .stringNew fun p hp => .stringNew fun q hq => .swap ?_
  refine .still (.of_quiet fun h => h.copyWord (Nat.zero_le _)) fun rest => ?_
  cases rest with
  | nil => exact tcolorError_owes hp hq
  | cons c rest =>
    refine .still (.of_quiet fun h => h.copyWord (Nat.zero_le _)) fun _ => ?_
    refine .still (.of_quiet fun h => h.tocolor (Nat.zero_le _)) fun _ => ?_
    refine .still (.of_quiet fun h => h.tocolor (Nat.zero_le _)) fun _ => ?_
    refine .ite (fun _ => tcolorError_owes hp hq) fun _ => ?_
    refine .still (.of_quiet fun h => .modify fun _ hs => h.screen _ _ _ hs) fun _ => ?_
    exact .stringFree hp fun _ => .stringFree hq fun _ => .pure

theorem Owes.addRegister {r : UInt32} {f : Unit → Term α} (hf : ∀ a, Owes ps (f a)) :
    Owes ps (Term.addRegister p r >>= f) :=
  .still (.of_quiet fun h => h.addRegister (Nat.zero_le _)) hf

theorem Owes.addFeatures {r : UInt32} {fs : List (Nat × String)} {f : Unit → Term α}
    (hf : ∀ a, Owes ps (f a)) : Owes ps (Term.addFeatures p r fs >>= f) :=
  .still (.of_quiet fun h => h.addFeatures (Nat.zero_le _)) hf

theorem cpuinfo_owes : Owes [] (Term.cpuinfo env) := by
  refine .stringNew fun p hp => .update fun _ => .addRegister fun _ => .addRegister fun _ => ?_
  refine .addRegister fun _ => .text fun _ => .writeline fun _ => .writeline fun _ => ?_
  refine .writeline fun _ => .update fun _ => .addFeatures fun _ => .text fun _ => .writeline fun _ => ?_
  refine .writeline fun _ => .writeline fun _ => .update fun _ => .addFeatures fun _ => ?_
  exact .addFeatures fun _ => .text fun _ => .writeline fun _ => .stringFree hp fun _ => .pure

theorem Owes.addStats {bytes blocks : Int} {f : Unit → Term α} (hf : ∀ a, Owes ps (f a)) :
    Owes ps (Term.addStats env p bytes blocks >>= f) :=
  .still (.of_quiet fun h => h.addStats (Nat.zero_le _)) hf

theorem memory_owes : Owes [] (Term.memory env) :=
  .stringNew fun _ hp => .update fun _ => .addStats fun _ => .update fun _ => .addStats fun _ =>
    .update fun _ => .addStats fun _ => .stringFree hp fun _ => .pure

theorem Owes.addnum {num base : Int} {f : Unit → Term α} (hf : ∀ a, Owes ps (f a)) :
    Owes ps (Term.stringAddnum env p num base >>= f) :=
  .still (.of_quiet fun h => h.stringAddnum (Nat.zero_le _)) hf

theorem Owes.addTime {hours minutes seconds : Nat} {f : Unit → Term α} (hf : ∀ a, Owes ps (f a)) :
    Owes ps (Term.addTime env p hours minutes seconds >>= f) :=
  .still (.of_quiet fun h => h.addTime (Nat.zero_le _)) hf

theorem time_owes : Owes [] (Term.time env) := by
  refine .stringNew fun p hp => .update fun _ => .addTime fun _ => .text fun _ => .writeline fun _ => ?_
  refine .still (.of_quiet fun h => h.sti) fun _ => ?_
  refine .update fun _ => .addnum fun _ => .addnum fun _ => .update fun _ => .addnum fun _ => ?_
  refine .update fun _ => .addnum fun _ => .update fun _ => .addTime fun _ => ?_
  refine .bind (.ite (fun _ => (Still.of_quiet fun h => h.writeline).owes) fun _ => .pure) fun _ => ?_
  exact .text fun _ => .writeline fun _ => .stringFree hp fun _ => .pure

/-- **Every handler but three** frees what it allocates. -/
theorem run_owes {c : Handler} (halias : c ≠ .aliasCmd) (hdisk : c ≠ .disk) (hsyslog : c ≠ .syslog) :
    Owes [] (c.run table env params) := by
  cases c with
  | help => exact help_owes
  | history => exact history_owes
  | disk => exact absurd rfl hdisk
  | memview => exact .pure
  | echo => exact .writeline fun _ => .pure
  | cls => exact cls_owes
  | tcolor => exact tcolor_owes
  | aliasCmd => exact absurd rfl halias
  | cprompt => exact cprompt_owes
  | cpuinfo => exact cpuinfo_owes
  | syslog => exact absurd rfl hsyslog
  | memory => exact memory_owes
  | reboot => exact (Still.of_quiet fun h => h.reboot).owes
  | shutdown => exact (Still.of_quiet fun h => h.shutdown).owes
  | time => exact time_owes
  | debug => exact .pure
  | about => exact (Still.of_quiet fun h => h.about).owes
  | version => exact (Still.of_quiet fun h => h.version).owes

theorem printReturn_owes {retstat : Int} {name : Text} : Owes [] (Term.printReturn env retstat name) :=
  .ite (fun _ => .stringNew fun _ hp => .update fun _ => .update fun _ => .addnum fun _ =>
    .writeline fun _ => .text fun _ => .writeline fun _ => .freeLast hp) fun _ => .pure

theorem derefAlias_owes : Owes [] (Term.derefAlias p) := by
  intro s a s' _ h
  cases h
  exact ⟨le_refl _, [.deref p], rfl, by simp, nofun⟩

theorem listAliases_owes {as : List Ptr} : Owes [] (Term.listAliases p as) := by
  induction as with
  | nil => exact .pure
  | cons a as ih =>
    exact .ite (fun _ => .pure) fun _ => derefAlias_owes.bind fun _ => .text fun _ => .update fun _ =>
      .update fun _ => .text fun _ => .update fun _ => .text fun _ => .writeline fun _ => .update fun _ => ih

/-- `alias` without a definition frees what it allocates too. -/
theorem aliasCmd_owes (hno : NoDefinition params) : Owes [] (Term.aliasCmd params) := by
  intro s a s' hnext h
  by_cases hlist : params.chars = [] ∨ params.chars.head? = some 0x20
  · have howes : Owes [] Term.aliasList :=
      .get fun _ => .stringNew fun _ hp => listAliases_owes.bind fun _ => .stringFree hp fun _ => .pure
    rw [Term.aliasCmd, if_pos hlist] at h
    exact howes hnext h
  · have hword := hno.space_notMem hlist
    have howes : Owes [] (do
        let newalias ← Term.stringNew
        let newcmd ← Term.stringNew
        let _ ← Term.copyWord newalias params.chars
        Term.aliasError newalias newcmd) :=
      .stringNew fun _ hp => .stringNew fun _ hq => .swap <|
        .still (.of_quiet fun h => h.copyWord (Nat.zero_le _)) fun _ =>
          .stringFree hp fun _ => .stringFree hq fun _ => .writeline fun _ => .pure
    have hcopy := copyWord_eq (s := s.fresh.fresh) hnext (fresh_fresh_blocks s) hword (.inl (Eq.refl []))
    rw [List.append_nil] at hcopy
    rw [Term.aliasCmd, if_neg hlist, StateT.bind_of_ok (stringNew_eq _), StateT.bind_of_ok (stringNew_eq _),
      StateT.bind_of_ok hcopy] at h
    refine howes (a := a) hnext ?_
    rw [StateT.bind_of_ok (stringNew_eq _), StateT.bind_of_ok (stringNew_eq _), StateT.bind_of_ok hcopy]
    exact h

/-! ## Forgotten buffers -/

def Holdings.alloc (v : Holdings) : Holdings := { v with next := v.next + 1, log := .alloc v.next :: v.log }

/-- `x` returns `SIG_SUCCESS`, with one object more than before. -/
def Spends (x : Term Int) : Prop :=
  ∀ ⦃s r s'⦄, x s = .ok (r, s') → r = SIG_SUCCESS ∧ s'.holdings = s.holdings.alloc

theorem Spends.still {x : Term α} {f : α → Term Int} (hx : Still x) (hf : ∀ a, Spends (f a)) :
    Spends (x >>= f) := by
  intro s r s' h
  obtain ⟨a, s₁, hxs, hfs⟩ := StateT.bind_ok_iff.mp h
  rw [← (hx _ rfl hxs).2]
  exact hf a hfs

theorem Spends.stringNew {f : Ptr → Term Int}
    (hf : ∀ p v, Yields (fun s => s.holdings = v) (f p) (· = SIG_SUCCESS)) : Spends (Term.stringNew >>= f) := by
  intro s r s' h
  rw [StateT.bind_of_ok (stringNew_eq s)] at h
  exact hf s.next _ rfl h

theorem disk_spends : Spends (Term.disk env) := by
  refine .stringNew fun p v => ?_
  have h := Quiet.holdings v
  have hp : 0 ≤ p := Nat.zero_le _
  refine h.floppyGetstring.yields fun _ => (h.writeLabelled hp).yields fun _ => ?_
  refine h.floppyGetstring.yields fun _ => (h.writeLabelled hp).yields fun _ => ?_
  refine h.writeline.yields fun _ => h.writeline.yields fun _ => ?_
  refine (Preserves.ite (fun _ => h.writeline) fun _ => ?_).yields fun _ =>
    (Preserves.ite (fun _ => h.writeline) fun _ => ?_).yields fun _ => .pure rfl
  · exact (h.writeLabelled hp).bind fun _ => h.writeLabelled hp
  · exact (h.writeLabelled hp).bind fun _ => h.writeLabelled hp

theorem syslog_spends : Spends Term.syslog := by
  refine .still (.of_quiet fun h => h.writeline) fun _ => .still (fun _ => Yields.get.preserves) fun s => ?_
  refine .stringNew fun p v => ?_
  have h := Quiet.holdings v
  exact (h.syslogLoop (Nat.zero_le _)).yields fun _ => h.writeline.yields fun _ => .pure rfl

end

end Ssmos

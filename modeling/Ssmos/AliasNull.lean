/-
`NULL` in the alias table. The table `init_terminal` makes is one node without
a value; the lookup and the listing guard against it, the search for a
duplicate does not. So a session is safe exactly until the first alias is
defined, and unsafe from then on.
-/
import Ssmos.Aliases

namespace Ssmos

/-- Every value used as a `struct alias` so far was not `NULL`. -/
def NullSafe (s : Terminal) : Prop := ∀ p, Event.deref p ∈ s.log → p ≠ NULL

theorem nullSafe_iff {s : Terminal} : NullSafe s ↔ .deref NULL ∉ s.log :=
  ⟨fun h hmem => h NULL hmem rfl, fun h _ hmem hp => h (hp ▸ hmem)⟩

/-- Enter on `alias name cmd`, while the table is empty. -/
def FirstDefinition (s : Terminal) (k : Key) : Prop :=
  k.char = 0x0A ∧ s.aliases = [NULL] ∧ ∃ params name cmd,
    Defines (s.str s.input) (Text.lit "alias") params ∧ Defines params name cmd

/-! ## What the table and the log depend on -/

/-- The part of the terminal that the heap and the table are seen in. -/
structure Ledger where
  next : Ptr
  input : Ptr
  aliases : List Ptr
  log : List Event

def Terminal.ledger (s : Terminal) : Ledger := ⟨s.next, s.input, s.aliases, s.log⟩

def Ledger.event (l : Ledger) (e : Event) : Ledger := { l with log := e :: l.log }

def Ledger.alloc (l : Ledger) : Ledger := { l.event (.alloc l.next) with next := l.next + 1 }

/-- `J` survives what a command does to a ledger, but for a new alias. -/
structure LedgerStable (n : Ptr) (D : Ptr → Prop) (J : Ledger → Prop) : Prop where
  le_next ⦃l : Ledger⦄ : J l → n ≤ l.next
  alloc ⦃l : Ledger⦄ : J l → J l.alloc
  free ⦃l : Ledger⦄ {p : Ptr} : J l → J (l.event (.free p))
  deref ⦃l : Ledger⦄ {p : Ptr} : D p → J l → J (l.event (.deref p))
  guarded ⦃l : Ledger⦄ : J l → firstValue l.aliases ≠ NULL → ∀ p ∈ l.aliases, D p

theorem newPrompt_ledger (s : Terminal) : (newPrompt s).ledger = s.ledger := by
  obtain ⟨fb, hfb⟩ := newPrompt_eq s
  rw [hfb]
  rfl

theorem update_ledger {s : Terminal} {p : Ptr} {f : Text → Text} : (s.update p f).ledger = s.ledger := by
  unfold Terminal.update
  split <;> rfl

theorem handleInput_ledger {s s' : Terminal} {k : Key} (hchar : k.char ≠ 0x0A) (hk : KeyStep s k s') :
    s'.ledger = s.ledger := by
  obtain ⟨t, b, fb, x, i, rfl⟩ := hk.edits hchar
  rfl

namespace LedgerStable

variable {n : Ptr} {D : Ptr → Prop} {J : Ledger → Prop}

theorem lineStable (h : LedgerStable n D J) : LineStable n D fun s => J s.ledger where
  le_next _ hs := h.le_next hs
  alloc _ hs := h.alloc hs
  setStr _ _ _ _ hs := hs
  mark _ _ _ hs := hs
  free _ _ _ hs := h.free hs
  newPrompt s hs := by
    rw [newPrompt_ledger]
    exact hs
  screen _ _ _ _ hs := hs
  home _ _ hs := hs
  interrupts _ _ hs := hs
  endterm _ hs := hs
  freeAny _ _ hs := h.free hs
  deref _ _ hp hs := h.deref hp hs
  guarded _ hs := h.guarded hs
  setPrompt s t _ hs := by
    rw [← update_ledger (p := s.promptString) (f := fun _ => t)] at hs
    exact hs
  addHistory _ _ hs := hs

/-- With `alias` too, of which only a new alias changes the table. -/
theorem aliasStable (h : LedgerStable n D J) (hentries : ∀ ⦃l⦄, J l → ∀ p ∈ l.aliases, D p)
    (hadd : ∀ ⦃l p⦄, n ≤ p → J l → J { l with aliases := addValue l.aliases p }) :
    AliasStable n D fun s => J s.ledger :=
  { h.lineStable.toEventStable with
    entries := fun _ hs => hentries hs
    setStruct := fun _ _ _ hs => hs
    addAlias := fun _ _ hp hs => hadd hp hs }

theorem keyStep (h : LedgerStable n D J)
    (halias : ∀ params, Preserves (fun s => J s.ledger) (Term.aliasCmd params))
    {s s' : Terminal} {k : Key} (hs : J s.ledger) (hk : KeyStep s k s') : J s'.ledger := by
  by_cases hchar : k.char = 0x0A
  · obtain ⟨s₁, hs₁, rfl⟩ := h.lineStable.parseInput halias hs (hk.enter hchar)
    rw [newPrompt_ledger]
    exact hs₁
  · rw [handleInput_ledger hchar hk]
    exact hs

end LedgerStable

/-! ## Three invariants -/

/-- An event stays logged. -/
theorem logged_stable (e : Event) : LedgerStable 0 (fun _ => True) fun l => e ∈ l.log where
  le_next _ _ := Nat.zero_le _
  alloc _ h := List.mem_cons_of_mem _ h
  free _ _ h := List.mem_cons_of_mem _ h
  deref _ _ _ h := List.mem_cons_of_mem _ h
  guarded _ _ _ _ _ := trivial

theorem logged_aliasStable (e : Event) : AliasStable 0 (fun _ => True) fun s => e ∈ s.log :=
  (logged_stable e).aliasStable (fun _ _ _ _ => trivial) fun _ _ _ h => h

/-- The table is the empty one, or has no `NULL`. -/
structure Tabled (n : Ptr) (l : Ledger) : Prop where
  le_next : n ≤ l.next
  input_lt : l.input < n
  table : l.aliases = [NULL] ∨ l.aliases ≠ [] ∧ NULL ∉ l.aliases

theorem Tabled.stable (n : Ptr) : LedgerStable n (fun _ => True) (Tabled n) where
  le_next _ h := h.le_next
  alloc _ h := { h with le_next := Nat.le_succ_of_le h.le_next }
  free _ _ h := { h with }
  deref _ _ _ h := { h with }
  guarded _ _ _ _ _ := trivial

/-- A new value leaves a table without `NULL`, of the empty one too. -/
theorem Tabled.addValue {n p : Ptr} {l : Ledger} (h : Tabled n l) (hp : n ≤ p) :
    addValue l.aliases p ≠ [] ∧ NULL ∉ addValue l.aliases p := by
  have hnull : p ≠ NULL := Nat.ne_zero_of_lt (Nat.lt_of_lt_of_le h.input_lt hp)
  rcases h.table with he | ⟨hne, hmem⟩
  · rw [he]
    exact ⟨List.cons_ne_nil _ _, by simpa [Ssmos.addValue] using Ne.symm hnull⟩
  · rw [addValue_eq hne hmem]
    exact ⟨by simp, by simpa using ⟨hmem, Ne.symm hnull⟩⟩

theorem Tabled.aliasStable (n : Ptr) : AliasStable n (fun _ => True) fun s => Tabled n s.ledger :=
  (Tabled.stable n).aliasStable (fun _ _ _ _ => trivial) fun _ _ hp h =>
    { h with table := .inr (h.addValue hp) }

/-- Such a table, and no use of `NULL`. -/
structure Guarded (n : Ptr) (l : Ledger) : Prop extends Tabled n l where
  safe : .deref NULL ∉ l.log

/-- The guards of the lookup and the listing are enough. -/
theorem Guarded.stable (n : Ptr) : LedgerStable n (· ≠ NULL) (Guarded n) where
  le_next _ h := h.le_next
  alloc _ h :=
    { h with
      le_next := Nat.le_succ_of_le h.le_next
      safe := List.not_mem_cons_of_ne_of_not_mem nofun h.safe }
  free _ _ h := { h with safe := List.not_mem_cons_of_ne_of_not_mem nofun h.safe }
  deref _ p hp h :=
    { h with safe := List.not_mem_cons_of_ne_of_not_mem (fun he => hp (Event.deref.inj he).symm) h.safe }
  guarded l h hfirst p hp := by
    rcases h.table with he | ⟨-, hmem⟩
    · exact absurd (congrArg firstValue he) hfirst
    · exact ne_of_mem_of_not_mem hp hmem

/-- A table with entries. -/
structure Filled (n : Ptr) (l : Ledger) : Prop extends Guarded n l where
  filled : NULL ∉ l.aliases

theorem Filled.stable (n : Ptr) : LedgerStable n (· ≠ NULL) (Filled n) where
  le_next _ h := h.le_next
  alloc _ h := ⟨(Guarded.stable n).alloc h.toGuarded, h.filled⟩
  free _ _ h := ⟨(Guarded.stable n).free h.toGuarded, h.filled⟩
  deref _ _ hp h := ⟨(Guarded.stable n).deref hp h.toGuarded, h.filled⟩
  guarded _ h := (Guarded.stable n).guarded h.toGuarded

/-- With entries the search for a duplicate needs no guard. -/
theorem Filled.aliasStable (n : Ptr) : AliasStable n (· ≠ NULL) fun s => Filled n s.ledger :=
  (Filled.stable n).aliasStable (fun _ h _ hp => ne_of_mem_of_not_mem hp h.filled) fun _ _ hp h =>
    { h with
      table := .inr (h.addValue hp)
      filled := (h.addValue hp).2 }

/-! ## A line submitted with an empty table -/

section

variable {table : List Command} {env : Env} {s s' : Terminal} {p q : Ptr} {params name cmd : Text}

theorem findCmd_some {t : Text} {c : Command} (h : findCmd table t = some c) : c ∈ table ∧ c.name = t := by
  induction table with
  | nil => nomatch h
  | cons d table ih =>
    rw [findCmd] at h
    split at h
    next hd =>
      cases h
      exact ⟨List.mem_cons_self, strcmp_text.mp hd⟩
    next =>
      obtain ⟨hmem, hname⟩ := ih h
      exact ⟨List.mem_cons_of_mem _ hmem, hname⟩

/-- The handler `alias` has one name. -/
theorem findCmd_aliasCmd {t : Text} {c : Command} (h : findCmd commands t = some c)
    (hc : c.call = .aliasCmd) : t = Text.lit "alias" := by
  obtain ⟨hmem, rfl⟩ := findCmd_some h
  have hall : ∀ c ∈ commands, c.call = .aliasCmd → c.name = Text.lit "alias" := by decide +kernel
  exact hall c hmem hc

theorem findCmd_alias : ∃ c, findCmd commands (Text.lit "alias") = some c ∧ c.call = .aliasCmd := by
  have h : (findCmd commands (Text.lit "alias")).map Command.call = some .aliasCmd := by decide +kernel
  exact Option.map_eq_some_iff.mp h

theorem resolve_empty (hal : s.aliases = [NULL]) :
    Term.resolve table p q s = .ok (findCmd table (s.str p), s) := by
  have hfind : Term.findAlias (s.str p) s = .ok (none, s) := by
    rw [Term.findAlias, StateT.bind_of_ok (Term.get_eq s), hal]
    rfl
  have htext : Term.text p s = .ok (s.str p, s) := rfl
  rw [Term.resolve, StateT.bind_of_ok htext]
  cases findCmd table (s.str p) with
  | some c => rfl
  | none => exact StateT.bind_of_ok hfind

/-- With no alias to find, the first word names a command or nothing. -/
theorem parseInput_empty (hip : 0 < s.inputPtr) (hin : s.input < s.next) (hal : s.aliases = [NULL]) :
    Term.parseInput table env s =
      (do Term.execute table env s.next (s.next + 1) (findCmd table (s.str s.input).word)
          Term.stringFree s.next
          Term.stringFree (s.next + 1)
          modify newPrompt) s.submitted := by
  have hword : s.submitted.str s.next = (s.str s.input).word :=
    (if_neg (Nat.ne_of_lt (Nat.lt_succ_self _))).trans (if_pos rfl)
  rw [parseInput_eq hip hin, ← hword]
  exact StateT.bind_of_ok (resolve_empty (s := s.submitted) hal)

theorem submitted_params : s.submitted.str (s.next + 1) = (s.str s.input).afterWord := if_pos rfl

/-! ### Definitions -/

/-- The search for a duplicate uses the first value of the table, whatever it is. -/
theorem aliasDefine_deref {newalias newcmd r : Ptr} {ps : List Ptr} :
    Triple (fun s => s.aliases = r :: ps) (Term.aliasDefine newalias newcmd) fun _ s => .deref r ∈ s.log := by
  have h := logged_aliasStable (.deref r)
  refine h.aliasDefine_of fun s hs => ?_
  rw [hs]
  refine h.overwriteLoop_cons ?_ (h.overwriteLoop fun _ _ => trivial)
  intro s a s' _ hx
  cases hx
  exact List.mem_cons_self

theorem aliasCmd_deref {r : Int} {v : Ptr} {vs : List Ptr} (hal : s.aliases = v :: vs) (hnext : s.next ≠ NULL)
    (hd : Defines params name cmd) (hx : Term.aliasCmd params s = .ok (r, s')) : .deref v ∈ s'.log := by
  rw [aliasCmd_defines hnext hd] at hx
  exact aliasDefine_deref (s := s.prepared name cmd) hal hx

/-! ### The line -/

/-- A definition is never safe. -/
theorem parseInput_deref (h : Tabled s.next s.ledger) (hip : 0 < s.inputPtr) (hal : s.aliases = [NULL])
    (hline : Defines (s.str s.input) (Text.lit "alias") params) (hd : Defines params name cmd)
    (hx : Term.parseInput commands env s = .ok ((), s')) : .deref NULL ∈ s'.log := by
  have hlogged := (logged_stable (.deref NULL)).lineStable
  obtain ⟨hword, hafter⟩ := hline.split
  obtain ⟨c, hfind, hc⟩ := findCmd_alias
  rw [parseInput_empty hip h.input_lt hal, hword, hfind] at hx
  obtain ⟨_, s₁, hx, hfinish⟩ := StateT.bind_ok_iff.mp hx
  rw [execute_some, submitted_params, hafter, hc] at hx
  obtain ⟨r, s₂, hrun, hreturn⟩ := StateT.bind_ok_iff.mp hx
  have hderef : .deref NULL ∈ s₂.log := aliasCmd_deref (s := s.submitted) hal (Nat.succ_ne_zero _) hd hrun
  have hderef₁ : .deref NULL ∈ s₁.log := (hlogged.prompt.printReturn hderef hreturn).2
  obtain ⟨s₃, hs₃, rfl⟩ := hlogged.prompt.finish (Nat.zero_le _) (Nat.zero_le _) hderef₁ hfinish
  have hlog : (newPrompt s₃).log = s₃.log := congrArg Ledger.log (newPrompt_ledger s₃)
  rw [hlog]
  exact hs₃

/-- Anything else is. -/
theorem parseInput_guarded (h : Guarded s.next s.ledger) (hip : 0 < s.inputPtr) (hal : s.aliases = [NULL])
    (hno : (s.str s.input).word = Text.lit "alias" → NoDefinition (s.str s.input).afterWord)
    (hx : Term.parseInput commands env s = .ok ((), s')) : Guarded s.next s'.ledger := by
  have hline := (Guarded.stable s.next).lineStable
  have halloc := (Guarded.stable s.next).alloc
  have hs : Guarded s.next s.submitted.ledger := halloc (halloc (halloc h))
  rw [parseInput_empty hip h.input_lt hal] at hx
  obtain ⟨s₁, hs₁, rfl⟩ := hline.prompt.executed (le_refl _) (Nat.le_succ _) (fun c hfind hc => by
    rw [submitted_params]
    exact hline.aliasCmd_noDefinition (hno (findCmd_aliasCmd hfind hc))) hs hx
  rw [newPrompt_ledger]
  exact hs₁

end

/-! ## Sessions -/

theorem Tabled.own {n : Ptr} {l : Ledger} (h : Tabled n l) : Tabled l.next l :=
  { h with le_next := le_refl _, input_lt := Nat.lt_of_lt_of_le h.input_lt h.le_next }

theorem keyStep_deterministic {s s₁ s₂ : Terminal} {k : Key} (h₁ : KeyStep s k s₁) (h₂ : KeyStep s k s₂) :
    s₁ = s₂ := (Prod.mk.inj (Except.ok.inj (h₁.symm.trans h₂))).2

theorem keyStep_tabled {s s' : Terminal} {k : Key} (h : Tabled s.next s.ledger) (hk : KeyStep s k s') :
    Tabled s'.next s'.ledger :=
  ((Tabled.stable _).keyStep (fun _ => (Tabled.aliasStable _).aliasCmd) h hk).own

variable {s s' : Terminal} {k : Key}

/-- A key other than the first definition keeps a session safe. -/
theorem keyStep_safe (h : Guarded s.next s.ledger) (hgood : ¬FirstDefinition s k) (hk : KeyStep s k s') :
    Guarded s.next s'.ledger := by
  by_cases hchar : k.char = 0x0A
  · rcases h.table with hal | ⟨-, hmem⟩
    · have hx := hk.enter hchar
      by_cases hip : 0 < s.inputPtr
      · refine parseInput_guarded h hip hal (fun hword => ?_) hx
        rcases defines_or (s.str s.input).afterWord with hno | ⟨name, cmd, hd⟩
        · exact hno
        · have hcmd : (s.str s.input).afterWord.chars ≠ [] := by
            rw [hd.1]
            exact List.append_ne_nil_of_right_ne_nil _ (List.cons_ne_nil _ _)
          have hline := defines_of_split (by rw [hword]; decide) hcmd
          rw [hword] at hline
          exact absurd ⟨hchar, hal, _, name, cmd, hline, hd⟩ hgood
      · rw [parseInput_blank hip] at hx
        cases hx
        rw [newPrompt_ledger]
        exact h
    · exact ((Filled.stable _).keyStep (fun _ => (Filled.aliasStable _).aliasCmd) ⟨h, hmem⟩ hk).toGuarded
  · rw [handleInput_ledger hchar hk]
    exact h

/-- The first definition makes it unsafe. -/
theorem keyStep_null (he : LineEditor s) (h : Tabled s.next s.ledger) (hfirst : FirstDefinition s k)
    (hk : KeyStep s k s') : .deref NULL ∈ s'.log := by
  obtain ⟨hchar, hal, params, name, cmd, hline, hd⟩ := hfirst
  have hip : 0 < s.inputPtr := by
    rw [← he.length, Text.length, hline.1]
    simp only [List.length_append, List.length_cons]
    omega
  exact parseInput_deref h hip hal hline hd (hk.enter hchar)

theorem keyStep_nullSafe_iff (he : LineEditor s) (h : Tabled s.next s.ledger) (hk : KeyStep s k s') :
    NullSafe s' ↔ NullSafe s ∧ ¬FirstDefinition s k := by
  simp only [nullSafe_iff]
  constructor
  · intro hsafe
    refine ⟨fun hmem => hsafe ?_, fun hfirst => hsafe (keyStep_null he h hfirst hk)⟩
    exact (logged_stable _).keyStep (fun _ => (logged_aliasStable _).aliasCmd) hmem hk
  · intro hx
    obtain ⟨hsafe, hgood⟩ := hx
    exact (keyStep_safe ⟨h, hsafe⟩ hgood hk).safe

theorem initTerminal_tabled (s : Terminal) : Tabled (initTerminal s).next (initTerminal s).ledger where
  le_next := le_refl _
  input_lt := Nat.lt_succ_of_lt (Nat.lt_succ_self _)
  table := .inl rfl

/-- **A session uses no `NULL` as an alias exactly if** it never defines an
alias in the empty table. -/
theorem nullSafe_iff_no_first_definition {s₀ s : Terminal} {keys : List Key} (hlog : s₀.log = [])
    (hrun : Runs KeyStep (initTerminal s₀) keys s) :
    NullSafe s ↔ Runs (fun s k s' => KeyStep s k s' ∧ ¬FirstDefinition s k) (initTerminal s₀) keys s := by
  have hstart : NullSafe (initTerminal s₀) := nullSafe_iff.mpr fun hmem => by
    change Event.deref NULL ∈ .alloc (s₀.next + 1) :: .alloc s₀.next :: s₀.log at hmem
    simp [hlog] at hmem
  have hiff := hrun.iff_all_good (J := NullSafe) (fun s k => ¬FirstDefinition s k)
    (I := fun s => (Ready s.next s ∧ LineEditor s) ∧ Tabled s.next s.ledger)
    ⟨initTerminal_ready, initTerminal_tabled s₀⟩ keyStep_deterministic
    (fun hs hk => ⟨handleInput_lineEditor hs.1.1 hs.1.2 hk, keyStep_tabled hs.2 hk⟩)
    (fun hs hk => keyStep_nullSafe_iff hs.1.2 hs.2 hk)
  exact hiff.trans (and_iff_right hstart)

/-- The first alias ever defined uses `NULL`. -/
theorem first_definition_uses_null :
    ∃ s, Runs KeyStep (initTerminal blank) (typed "alias x y\n") s ∧ ¬NullSafe s := by
  have h : ((exec (fun s k => Key.step? k s) (initTerminal blank) (typed "alias x y\n")).map
      fun s => decide (.deref NULL ∈ s.log)) = some true := by
    decide +kernel
  obtain ⟨s, hs, hlog⟩ := Option.map_eq_some_iff.mp h
  exact ⟨s, (exec_eq_some Key.step?_eq_some).mp hs, fun hsafe =>
    nullSafe_iff.mp hsafe (of_decide_eq_true hlog)⟩

/-- Lines that define none do not. -/
theorem nullSafe_iff_no_first_definition_session :
    ∃ s, Runs KeyStep (initTerminal blank) (typed "alias\nx\nalias x\n") s ∧ NullSafe s ∧
      Runs (fun s k s' => KeyStep s k s' ∧ ¬FirstDefinition s k) (initTerminal blank)
        (typed "alias\nx\nalias x\n") s := by
  have h : ((exec (fun s k => Key.step? k s) (initTerminal blank) (typed "alias\nx\nalias x\n")).map
      fun s => decide (.deref NULL ∈ s.log)) = some false := by
    decide +kernel
  obtain ⟨s, hs, hlog⟩ := Option.map_eq_some_iff.mp h
  have hrun := (exec_eq_some Key.step?_eq_some).mp hs
  have hsafe : NullSafe s := nullSafe_iff.mpr (of_decide_eq_false hlog)
  exact ⟨s, hrun, hsafe, (nullSafe_iff_no_first_definition rfl hrun).mp hsafe⟩

end Ssmos

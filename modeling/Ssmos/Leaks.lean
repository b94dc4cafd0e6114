/-
What a submitted line leaks. Every command gives back what it allocates, or
keeps it where the kernel's globals lead, but for two handlers that forget
their buffer, and for an alias that is stored behind `NULL`.
-/
import Ssmos.Owed
import Ssmos.History

namespace Ssmos

/-! ## Leaks -/

/-- The objects that the kernel's globals lead to. The system log's texts are no objects here. -/
inductive Terminal.Reachable (s : Terminal) : Ptr → Prop
  | input : s.Reachable s.input
  | promptString : s.Reachable s.promptString
  | history {p} : p ∈ s.cmdhistory → s.Reachable p
  | struct {a} : a ∈ s.aliases → a ≠ NULL → s.Reachable a
  | name {a} : a ∈ s.aliases → a ≠ NULL → s.Reachable (s.struct a).name
  | command {a} : a ∈ s.aliases → a ≠ NULL → s.Reachable (s.struct a).command

/-- The nodes of a list. -/
def Terminal.nodes (s : Terminal) : KernelList → Nat
  | .cmdhistory => s.cmdhistory.length
  | .aliases => s.aliases.length
  | .systemlog => s.systemlog.length

/-- The blocks that they lead to. A string leads to the one buffer it has;
`numbuffer` is a global itself. -/
def Terminal.Leads (s : Terminal) : Block → Prop
  | .data p => s.Reachable p
  | .node list i => i < s.nodes list
  | .numbuffer => True

/-- The blocks that were allocated, of strings that the heap gave out. -/
def Terminal.Allocated (s : Terminal) : Block → Prop
  | .data p => p < s.next ∧ s.blocks (.data p) = true
  | b => s.blocks b = true

/-- `string_free` frees the buffer the string has; `realloc` freed those it had
(`Strings.Refines.noLeak`). -/
def Block.Freed (es : List Event) : Block → Prop
  | .data p => .free p ∈ es
  | _ => False

/-- The objects allocated on the way from `s` to `s'` are freed there, or can be reached in `s'`. -/
def KeepsObjects (s s' : Terminal) : Prop :=
  ∃ es, s'.log = es ++ s.log ∧ ∀ p, .alloc p ∈ es → .free p ∈ es ∨ s'.Reachable p

/-- And so are the other blocks, where none was counted in `s`. -/
def NoLeak (s s' : Terminal) : Prop :=
  ∃ es, s'.log = es ++ s.log ∧ (∀ p, .alloc p ∈ es → .free p ∈ es ∨ s'.Reachable p) ∧
    ∀ b, s'.Allocated b → b.Freed es ∨ s'.Leads b

/-- From here on the blocks that are allocated are counted. -/
def Terminal.recount (s : Terminal) : Terminal := { s with blocks := fun _ => false }

/-- The handler that the submitted line calls. -/
def Terminal.executedCall (s : Terminal) : Option Handler :=
  (findCmd commands (s.executedLine commands).word).map Command.call

/-- The submitted line defines an alias. -/
def Terminal.DefinesAlias (s : Terminal) (name cmd : Text) : Prop :=
  s.executedCall = some .aliasCmd ∧ Defines (s.executedLine commands).afterWord name cmd

/-- The first alias defined has the name that is found at `NULL`, so its command
is stored there. (If the command found there is the new string itself, that is
freed at once.) -/
def OverwritesNull (s : Terminal) : Prop :=
  s.aliases = [NULL] ∧ ∃ name cmd, s.DefinesAlias name cmd ∧
    (s.submitted.prepared name cmd).nameOf NULL = name ∧ (s.struct NULL).command ≠ s.next + 4

/-- The lines that leak. -/
def Leaks (s : Terminal) : Prop :=
  0 < s.inputPtr ∧
    (s.executedCall = some .disk ∨ s.executedCall = some .syslog ∨ OverwritesNull s)

variable {env : Env} {s s₁ s' : Terminal} {es : List Ptr} {p q : Ptr} {line name cmd : Text}

theorem not_keepsObjects {events : List Event} (hlog : s'.log = events ++ s.log) (halloc : .alloc p ∈ events)
    (hfree : .free p ∉ events) (hreach : ¬s'.Reachable p) : ¬KeepsObjects s s' := by
  intro h
  obtain ⟨events', hlog', hpaid⟩ := h
  cases List.append_cancel_right (hlog.symm.trans hlog')
  exact (hpaid p halloc).elim hfree hreach

/-! ## The state the command runs in -/

/-- What was allocated until then. -/
def splitEvents (s : Terminal) (vs : List Ptr) : List Event :=
  (vs.map .deref).reverse ++ [.alloc (s.next + 2), .alloc (s.next + 1), .alloc s.next]

theorem alloc_mem_splitEvents {vs : List Ptr} (h : .alloc p ∈ splitEvents s vs) :
    p = s.next ∨ p = s.next + 1 ∨ p = s.next + 2 := by
  simp only [splitEvents, List.mem_append, List.mem_reverse, List.mem_map, reduceCtorEq, and_false,
    exists_false, false_or, List.mem_cons, Event.alloc.injEq, List.not_mem_nil, or_false] at h
  tauto

theorem free_notMem_splitEvents {vs : List Ptr} : .free p ∉ splitEvents s vs := by
  simp [splitEvents]

/-- The holdings the command starts with. -/
def Terminal.split (s : Terminal) (vs : List Ptr) : Holdings :=
  { s.holdings with
    next := s.next + 3
    log := splitEvents s vs ++ s.log
    cmdhistory := addValue s.cmdhistory (s.next + 2) }

theorem SplitInto.holdings (h : SplitInto s.submitted s.next (s.next + 1) line s₁) :
    ∃ vs, s₁.holdings = s.split vs := by
  obtain ⟨vs, str, rfl, -⟩ := h
  refine ⟨vs, ?_⟩
  rw [Terminal.split, splitEvents, List.append_assoc]
  rfl

theorem SplitInto.params (h : SplitInto s.submitted s.next (s.next + 1) line s₁) :
    s₁.str (s.next + 1) = line.afterWord := by
  obtain ⟨vs, str, rfl, -, hafter, -⟩ := h
  exact hafter

/-- With no alias to find, the line is only split. -/
theorem SplitInto.str_of_empty (hal : s.aliases = [NULL])
    (h : SplitInto s.submitted s.next (s.next + 1) (s.executedLine commands) s₁) :
    s₁.str = s.submitted.str := by
  have hline : s.executedLine commands = s.str s.input :=
    if_pos (.inr (congrArg firstValue hal))
  obtain ⟨vs, str, rfl, hword, hafter, hstr⟩ := h
  rw [hline] at hword hafter
  funext r
  by_cases hr : r = s.next
  · subst hr
    exact hword.trans submitted_word.symm
  · by_cases hr' : r = s.next + 1
    · subst hr'
      exact hafter.trans submitted_params.symm
    · exact hstr r hr hr'

/-! ## Finishing a command -/

/-- After `string_free` of two strings. -/
def Holdings.freed (v : Holdings) (p q : Ptr) : Holdings := { v with log := .free q :: .free p :: v.log }

theorem finish_holdings (hp : p ≠ NULL) (hq : q ≠ NULL)
    (h : (do Term.stringFree p; Term.stringFree q; modify newPrompt : Term Unit) s = .ok ((), s')) :
    s'.holdings = s.holdings.freed p q := by
  rw [StateT.bind_of_ok (stringFree_eq hp), StateT.bind_of_ok (stringFree_eq hq)] at h
  cases h
  rw [newPrompt_holdings]
  rfl

theorem finish_owes {x : Term Unit} (hp : p ≠ NULL) (hq : q ≠ NULL) (hx : Owes [] x) :
    Owes [p, q] (do x; Term.stringFree p; Term.stringFree q; modify newPrompt) := by
  refine hx.bind fun _ => .stringFree hp fun _ => .stringFree hq fun _ => ?_
  exact (Still.of_quiet fun h => .modify h.newPrompt).owes

/-- A command that succeeds has only the line's strings left to free. -/
theorem execute_success {c : Command} (hp : p ≠ NULL) (hq : q ≠ NULL)
    (hsuccess : ∀ r s₂, c.call.run commands env (s₁.str q) s₁ = .ok (r, s₂) → r = SIG_SUCCESS)
    (hx : (do Term.execute commands env p q (some c)
              Term.stringFree p
              Term.stringFree q
              modify newPrompt) s₁ = .ok ((), s')) :
    ∃ s₂, c.call.run commands env (s₁.str q) s₁ = .ok (SIG_SUCCESS, s₂) ∧
      s'.holdings = s₂.holdings.freed p q := by
  obtain ⟨_, s₃, hx, hfinish⟩ := StateT.bind_ok_iff.mp hx
  rw [execute_some] at hx
  obtain ⟨r, s₂, hrun, hreturn⟩ := StateT.bind_ok_iff.mp hx
  cases hsuccess r s₂ hrun
  rw [Term.printReturn, if_neg fun h => h.1 rfl] at hreturn
  cases hreturn
  exact ⟨s₃, hrun, finish_holdings hp hq hfinish⟩

/-! ## What is kept where the globals lead -/

/-- The aliases' objects are older than `n`. -/
def AliasesBelow (n : Ptr) (s : Terminal) : Prop :=
  ∀ a ∈ s.aliases, a ≠ NULL → a < n ∧ (s.struct a).name < n ∧ (s.struct a).command < n

/-- A session, and the aliases in it are its own. -/
structure Owned (es : List Ptr) (s : Terminal) : Prop extends Session es s where
  below : AliasesBelow s.next s

theorem AliasesBelow.mono {n m : Ptr} (h : AliasesBelow n s) (hle : n ≤ m) (hal : s'.aliases = s.aliases)
    (hstruct : s'.struct = s.struct) : AliasesBelow m s' := by
  intro a ha hne
  rw [hal] at ha
  rw [hstruct]
  obtain ⟨hlt, hname, hcommand⟩ := h a ha hne
  exact ⟨Nat.lt_of_lt_of_le hlt hle, Nat.lt_of_lt_of_le hname hle, Nat.lt_of_lt_of_le hcommand hle⟩

/-- Nothing reachable is younger than the line's own string in the history. -/
theorem Session.reachable_lt (hs : Session es s) (hin : s'.input = s.input)
    (hprompt : s'.promptString = s.promptString)
    (hhistory : s'.cmdhistory = addValue s.cmdhistory (s.next + 2))
    (hbelow : AliasesBelow (s.next + 3) s') (h : s'.Reachable p) : p < s.next + 3 := by
  cases h with
  | input =>
    rw [hin]
    exact Nat.lt_add_right 3 hs.tabled.input_lt
  | promptString =>
    rw [hprompt]
    exact Nat.lt_add_right 3 hs.ready.prompt_lt
  | history hp =>
    rw [hhistory, hs.recorded.addValue_eq] at hp
    rcases List.mem_append.mp hp with hp | hp
    · exact Nat.lt_add_right 3 (hs.recorded.lt p hp)
    · rw [List.mem_singleton.mp hp]
      exact Nat.lt_succ_self _
  | struct ha hne => exact (hbelow _ ha hne).1
  | name ha hne => exact (hbelow _ ha hne).2.1
  | command ha hne => exact (hbelow _ ha hne).2.2

/-! ## The handlers that forget -/

/-- A handler that spends its buffer leaks it. -/
theorem Owned.spends {c : Command} (hs : Owned es s)
    (hsplit : SplitInto s.submitted s.next (s.next + 1) line s₁)
    (hspends : ∀ params, Spends (c.call.run commands env params))
    (hx : (do Term.execute commands env s.next (s.next + 1) (some c)
              Term.stringFree s.next
              Term.stringFree (s.next + 1)
              modify newPrompt) s₁ = .ok ((), s')) : ¬KeepsObjects s s' := by
  have hnext : s.next ≠ NULL := Nat.ne_zero_of_lt hs.tabled.input_lt
  obtain ⟨s₂, hrun, hs'⟩ := execute_success hnext (Nat.succ_ne_zero _) (fun _ _ h => (hspends _ h).1) hx
  obtain ⟨vs, hs₁⟩ := hsplit.holdings
  rw [(hspends _ hrun).2, hs₁] at hs'
  have hlog : s'.log = (.free (s.next + 1) :: .free s.next :: .alloc (s.next + 3) :: splitEvents s vs) ++
      s.log := congrArg Holdings.log hs'
  refine not_keepsObjects (p := s.next + 3) hlog (by simp) ?_ fun hreach => ?_
  · have hfree : .free (s.next + 3) ∉ splitEvents s vs := free_notMem_splitEvents
    simpa using hfree
  · have hbelow : AliasesBelow (s.next + 3) s' :=
      hs.below.mono (Nat.le_add_right _ 3) (congrArg Holdings.aliases hs') (congrArg Holdings.struct hs')
    exact Nat.lt_irrefl _ (hs.reachable_lt (congrArg Holdings.input hs')
      (congrArg Holdings.promptString hs') (congrArg Holdings.cmdhistory hs') hbelow hreach)

/-! ## Definitions -/

/-- The strings of a definition, and the search for a duplicate. -/
def Holdings.searched (v : Holdings) (ws : List Ptr) : Holdings :=
  { v with
    next := v.next + 2
    log := (ws.map .deref).reverse ++ .alloc (v.next + 1) :: .alloc v.next :: v.log }

/-- After a definition that finds no duplicate. -/
def Holdings.newAlias (v : Holdings) (ws : List Ptr) : Holdings :=
  { (v.searched ws).alloc with
    aliases := addValue v.aliases (v.next + 2)
    struct := fun q => if q = v.next + 2 then { name := v.next, command := v.next + 1 } else v.struct q }

/-- After one that finds `p`. -/
def Holdings.newCommand (v : Holdings) (ws : List Ptr) (p : Ptr) : Holdings :=
  { v.searched ws with
    log := .free v.next ::
      ((if (v.struct p).command = NULL then [] else [.free (v.struct p).command]) ++ (v.searched ws).log)
    struct := fun q => if q = p then { v.struct p with command := v.next + 1 } else v.struct q }

theorem appended_holdings {ws : List Ptr} :
    ((s.prepared name cmd).appended ws s.next (s.next + 1)).holdings = s.holdings.newAlias ws := rfl

theorem overwritten_holdings {ws : List Ptr} (hnext : s.next ≠ NULL) :
    ((s.prepared name cmd).overwritten ws p s.next (s.next + 1)).holdings =
      s.holdings.newCommand ws p := by
  have hstruct : (s.prepared name cmd).struct p = s.struct p := rfl
  have hholdings : s.holdings.struct p = s.struct p := rfl
  rw [Terminal.overwritten, Terminal.release, if_neg hnext, Terminal.release, Holdings.newCommand, hstruct,
    hholdings]
  by_cases hold : (s.struct p).command = NULL
  · rw [if_pos hold, if_pos hold]
    rfl
  · rw [if_neg hold, if_neg hold]
    rfl

/-- **A line that defines an alias**, by what the search finds. -/
theorem Session.define (hs : Session es s) (hip : 0 < s.inputPtr) (hd : s.DefinesAlias name cmd)
    (hx : Term.parseInput commands env s = .ok ((), s')) :
    ∃ s₁ vs ws, SplitInto s.submitted s.next (s.next + 1) (s.executedLine commands) s₁ ∧
      ((∃ p ∈ s.aliases, (s₁.prepared name cmd).nameOf p = name ∧
          s'.holdings = ((s.split vs).newCommand ws p).freed s.next (s.next + 1)) ∨
        (∀ p ∈ s.aliases, (s₁.prepared name cmd).nameOf p ≠ name) ∧
          s'.holdings = ((s.split vs).newAlias ws).freed s.next (s.next + 1)) := by
  obtain ⟨s₁, hsplit, hx⟩ := parseInput_dispatched hs.tabled hip hx
  obtain ⟨c, hfind, hc⟩ := Option.map_eq_some_iff.mp hd.1
  obtain ⟨vs, hs₁⟩ := hsplit.holdings
  have hd₁ : Defines (s₁.str (s.next + 1)) name cmd := hsplit.params ▸ hd.2
  have hnext : s₁.next ≠ NULL := by
    rw [show s₁.next = s.next + 3 from congrArg Holdings.next hs₁]
    exact Nat.succ_ne_zero _
  obtain ⟨ws, -, hcall⟩ := aliasCmd_defined hnext hd₁
  rw [hfind] at hx
  obtain ⟨s₂, hrun, hs'⟩ := execute_success (Nat.ne_zero_of_lt hs.tabled.input_lt) (Nat.succ_ne_zero s.next)
    (fun r s₂ hr => by
      rw [hc] at hr
      exact (Prod.mk.inj (Except.ok.inj (hcall.symm.trans hr))).1.symm) hx
  rw [hc] at hrun
  have hs₂ := (Prod.mk.inj (Except.ok.inj (hrun.symm.trans hcall))).2
  rw [show s₁.aliases = s.aliases from congrArg Holdings.aliases hs₁] at hs₂
  refine ⟨s₁, vs, ws, hsplit, ?_⟩
  cases hl : lookup (s₁.prepared name cmd).nameOf s.aliases name with
  | some p =>
    rw [hl] at hs₂
    refine .inl ⟨p, lookup_mem hl, lookup_key hl, ?_⟩
    rw [hs', hs₂, overwritten_holdings hnext, hs₁]
  | none =>
    rw [hl] at hs₂
    refine .inr ⟨lookup_eq_none.mp hl, ?_⟩
    rw [hs', hs₂, appended_holdings, hs₁]

/-- What came before the command is accounted for by the line's end. -/
theorem keepsObjects_of {vs : List Ptr} {events : List Event} (hlog : s'.log = events ++ (splitEvents s vs ++ s.log))
    (hword : .free s.next ∈ events) (hparams : .free (s.next + 1) ∈ events)
    (hhistory : s.next + 2 ∈ s'.cmdhistory)
    (hpaid : ∀ p, .alloc p ∈ events → .free p ∈ events ∨ s'.Reachable p) : KeepsObjects s s' := by
  refine ⟨events ++ splitEvents s vs, by rw [hlog, List.append_assoc], fun p hp => ?_⟩
  rcases List.mem_append.mp hp with hp | hp
  · exact (hpaid p hp).imp_left (List.mem_append_left _)
  · rcases alloc_mem_splitEvents hp with rfl | rfl | rfl
    · exact .inl (List.mem_append_left _ hword)
    · exact .inl (List.mem_append_left _ hparams)
    · exact .inr (.history hhistory)

theorem mem_addValue {l : List Ptr} (hl : l ≠ []) : p ∈ addValue l p := by
  cases l with
  | nil => exact absurd rfl hl
  | cons v vs =>
    rw [addValue]
    split
    · exact List.mem_cons_self
    · simp

theorem of_mem_addValue {l : List Ptr} (h : q ∈ addValue l p) : q = p ∨ q ∈ l := by
  cases l with
  | nil => nomatch h
  | cons v vs =>
    rw [addValue] at h
    split at h
    · exact (List.mem_cons.mp h).imp_right (List.mem_cons_of_mem _)
    · exact (List.mem_append.mp h).symm.imp_left List.mem_singleton.mp

/-- A new alias is in the table, and its strings are its own. -/
theorem Session.newAlias {vs ws : List Ptr} (hs : Session es s)
    (hs' : s'.holdings = ((s.split vs).newAlias ws).freed s.next (s.next + 1)) : KeepsObjects s s' := by
  have hhistory : s'.cmdhistory = addValue s.cmdhistory (s.next + 2) := congrArg Holdings.cmdhistory hs'
  have haliases : s'.aliases = addValue s.aliases (s.next + 5) := congrArg Holdings.aliases hs'
  have hstruct : s'.struct (s.next + 5) = { name := s.next + 3, command := s.next + 4 } :=
    (congrFun (congrArg Holdings.struct hs') _).trans (if_pos rfl)
  have hne : s.aliases ≠ [] := hs.tabled.table.elim (fun h => by
    rw [show s.aliases = [NULL] from h]
    exact List.cons_ne_nil _ _) And.left
  have hmem : s.next + 5 ∈ s'.aliases := by
    rw [haliases]
    exact mem_addValue hne
  have hnull : s.next + 5 ≠ NULL := Nat.succ_ne_zero _
  have hlog : s'.log = (.free (s.next + 1) :: .free s.next :: .alloc (s.next + 5) ::
      ((ws.map .deref).reverse ++ [.alloc (s.next + 4), .alloc (s.next + 3)])) ++
      (splitEvents s vs ++ s.log) := by
    rw [show s'.log = _ from congrArg Holdings.log hs']
    simp only [List.cons_append, List.append_assoc, List.nil_append]
    rfl
  refine keepsObjects_of hlog (by simp) (by simp) ?_ fun p hp => .inr ?_
  · rw [hhistory, hs.recorded.addValue_eq]
    simp
  · have hp : p = s.next + 5 ∨ p = s.next + 4 ∨ p = s.next + 3 := by simpa using hp
    rcases hp with rfl | rfl | rfl
    · exact .struct hmem hnull
    · have hcommand := Terminal.Reachable.command hmem hnull
      rwa [hstruct] at hcommand
    · have hname := Terminal.Reachable.name hmem hnull
      rwa [hstruct] at hname

/-- A new command is reached through its alias, if that is not `NULL`. -/
theorem Session.newCommand_iff {vs ws : List Ptr} (hs : Session es s) (hp : p ∈ s.aliases)
    (hs' : s'.holdings = ((s.split vs).newCommand ws p).freed s.next (s.next + 1)) :
    KeepsObjects s s' ↔ p ≠ NULL ∨ (s.struct NULL).command = s.next + 4 := by
  have hhistory : s'.cmdhistory = addValue s.cmdhistory (s.next + 2) := congrArg Holdings.cmdhistory hs'
  have haliases : s'.aliases = s.aliases := congrArg Holdings.aliases hs'
  let old : List Event := if (s.struct p).command = NULL then [] else [.free (s.struct p).command]
  have hold : ∀ q, .alloc q ∉ old := fun q => by
    simp only [old]
    split <;> simp
  have hlog : s'.log = (.free (s.next + 1) :: .free s.next :: .free (s.next + 3) ::
      (old ++ ((ws.map .deref).reverse ++ [.alloc (s.next + 4), .alloc (s.next + 3)]))) ++
      (splitEvents s vs ++ s.log) := by
    rw [show s'.log = _ from congrArg Holdings.log hs']
    simp only [List.cons_append, List.append_assoc, List.nil_append]
    rfl
  constructor
  · intro hleak
    by_contra hx
    obtain ⟨rfl, hne⟩ : p = NULL ∧ (s.struct NULL).command ≠ s.next + 4 := by tauto
    have hal : s.aliases = [NULL] := hs.tabled.table.elim id fun h => absurd hp h.2
    rw [← List.append_assoc] at hlog
    refine not_keepsObjects (p := s.next + 4) hlog (by simp) (fun hfree => ?_) (fun hreach => ?_) hleak
    · rcases List.mem_append.mp hfree with hfree | hfree
      · simp only [old] at hfree
        split at hfree
        · simp at hfree
        · simp [Ne.symm hne] at hfree
      · exact free_notMem_splitEvents hfree
    · have hbelow : AliasesBelow (s.next + 3) s' := fun a ha hnull => by
        rw [haliases, hal] at ha
        exact absurd (List.mem_singleton.mp ha) hnull
      have hlt := hs.reachable_lt (congrArg Holdings.input hs') (congrArg Holdings.promptString hs') hhistory
        hbelow hreach
      exact Nat.lt_irrefl _ (Nat.lt_of_succ_lt hlt)
  · intro hx
    refine keepsObjects_of hlog (by simp) (by simp) ?_ fun q hq => ?_
    · rw [hhistory, hs.recorded.addValue_eq]
      simp
    · have hq : q = s.next + 4 ∨ q = s.next + 3 := by simpa [hold] using hq
      rcases hq with rfl | rfl
      · by_cases hnull : p = NULL
        · subst hnull
          have hcommand : (s.struct NULL).command = s.next + 4 := hx.resolve_left (absurd rfl)
          have hne : s.next + 4 ≠ NULL := Nat.succ_ne_zero _
          refine .inl ?_
          simp only [old, hcommand, if_neg hne]
          simp
        · have hcommand := Terminal.Reachable.command (haliases ▸ hp) hnull
          rw [show s'.struct p = { s.struct p with command := s.next + 4 } from
            (congrFun (congrArg Holdings.struct hs') p).trans (if_pos rfl)] at hcommand
          exact .inr hcommand
      · exact .inl (by simp)

/-! ### Lines that define nothing -/

/-- The table is the one of `s₀`. -/
structure SameAliases (s₀ s : Terminal) : Prop where
  le_next : s₀.next ≤ s.next
  aliases : s.aliases = s₀.aliases
  struct : s.struct = s₀.struct

theorem SameAliases.promptStable (s₀ : Terminal) : PromptStable s₀.next (fun _ => True) (SameAliases s₀) where
  le_next _ h := h.le_next
  alloc _ h := { h with le_next := Nat.le_succ_of_le h.le_next }
  setStr _ _ _ _ h := { h with }
  mark _ _ _ h := { h with }
  free _ _ _ h := { h with }
  newPrompt s h := by
    obtain ⟨fb, hfb⟩ := newPrompt_eq s
    rw [hfb]
    exact { h with }
  screen _ _ _ _ h := { h with }
  home _ _ h := { h with }
  interrupts _ _ h := { h with }
  endterm _ h := { h with }
  freeAny _ _ h := { h with }
  deref _ _ _ h := { h with }
  guarded _ _ _ _ _ := trivial
  setPrompt s t _ h := by
    unfold Terminal.setPrompt Terminal.update
    split <;> exact { h with }

/-- The parameters of an `alias` that is executed define nothing. -/
theorem noDefinition_of {c : Command} (hdefine : ∀ name cmd, ¬s.DefinesAlias name cmd)
    (hfind : findCmd commands (s.executedLine commands).word = some c) (hc : c.call = .aliasCmd) :
    NoDefinition (s.executedLine commands).afterWord := by
  rcases defines_or (s.executedLine commands).afterWord with hno | ⟨name, cmd, hd⟩
  · exact hno
  · have hcall : s.executedCall = some .aliasCmd := by rw [Terminal.executedCall, hfind, ← hc]; rfl
    exact absurd ⟨hcall, hd⟩ (hdefine name cmd)

/-- **Any other line** frees what it allocates, but for the line in the history. -/
theorem Session.ordinary (hs : Session es s) (hip : 0 < s.inputPtr) (hdisk : s.executedCall ≠ some .disk)
    (hsyslog : s.executedCall ≠ some .syslog) (hdefine : ∀ name cmd, ¬s.DefinesAlias name cmd)
    (hx : Term.parseInput commands env s = .ok ((), s')) : KeepsObjects s s' := by
  have hhistory : s.next + 2 ∈ s'.cmdhistory := by
    have hr := (hs.recorded.parseInput hs.tabled hs.ready.prompt_lt hip hx).1
    rw [(hr.list.resolve_left fun h => by simp at h).1]
    simp
  have hnext : s.next ≠ NULL := Nat.ne_zero_of_lt hs.tabled.input_lt
  have hparams : s.next + 1 ≠ NULL := Nat.succ_ne_zero _
  obtain ⟨s₁, hsplit, hx⟩ := parseInput_dispatched hs.tabled hip hx
  have hword := hsplit.params
  obtain ⟨vs, hs₁⟩ := hsplit.holdings
  have hnext₁ : s₁.next ≠ NULL := by
    rw [show s₁.next = s.next + 3 from congrArg Holdings.next hs₁]
    exact Nat.succ_ne_zero _
  obtain ⟨-, events, hlog, hpaid, hfreed⟩ : s₁.next ≤ s'.next ∧ ∃ events, s'.log = events ++ s₁.log ∧
      (∀ p, .alloc p ∈ events → .free p ∈ events) ∧ ∀ p ∈ [s.next, s.next + 1], .free p ∈ events := by
    cases hfind : findCmd commands (s.executedLine commands).word with
    | none =>
      rw [hfind] at hx
      exact finish_owes hnext hparams (.writeline fun _ => .text fun _ =>
        (Still.of_quiet fun h => h.writeline).owes) hnext₁ hx
    | some c =>
      have hcall : s.executedCall = some c.call := congrArg (Option.map _) hfind
      rw [hfind] at hx
      have hrun : Owes [] (c.call.run commands env (s₁.str (s.next + 1))) := by
        by_cases hc : c.call = .aliasCmd
        · rw [hc, hword]
          exact aliasCmd_owes (noDefinition_of hdefine hfind hc)
        · exact run_owes hc (fun h => hdisk (h ▸ hcall)) fun h => hsyslog (h ▸ hcall)
      have howes : Owes [] (do
          Term.printReturn env (← c.call.run commands env (s₁.str (s.next + 1))) c.name) :=
        hrun.bind fun _ => printReturn_owes
      exact finish_owes hnext hparams howes hnext₁ hx
  rw [show s₁.log = splitEvents s vs ++ s.log from congrArg Holdings.log hs₁] at hlog
  exact keepsObjects_of hlog (hfreed _ (by simp)) (hfreed _ (by simp)) hhistory fun p hp => .inl (hpaid p hp)

/-! ### Every line -/

/-- The search finds `NULL`'s name in the state the line is split in. -/
theorem SplitInto.nameOf (hal : s.aliases = [NULL])
    (h : SplitInto s.submitted s.next (s.next + 1) (s.executedLine commands) s₁) :
    (s₁.prepared name cmd).nameOf = (s.submitted.prepared name cmd).nameOf := by
  have hstr := h.str_of_empty hal
  obtain ⟨vs, str, rfl, -⟩ := h
  subst hstr
  rfl

/-- A definition leaks exactly if it overwrites what is found at `NULL`. -/
theorem Session.define_keeps_iff (hs : Session es s) (hip : 0 < s.inputPtr) (hd : s.DefinesAlias name cmd)
    (hx : Term.parseInput commands env s = .ok ((), s')) : KeepsObjects s s' ↔ ¬OverwritesNull s := by
  obtain ⟨s₁, vs, ws, hsplit, ⟨p, hp, hname, hs'⟩ | ⟨hnames, hs'⟩⟩ := hs.define hip hd hx
  · rw [hs.newCommand_iff hp hs']
    constructor
    · intro hgood hnull
      obtain ⟨hal, -, -, -, -, hne⟩ := hnull
      rw [hal] at hp
      exact hgood.elim (fun h => h (List.mem_singleton.mp hp)) hne
    · intro hnot
      by_contra hx
      obtain ⟨rfl, hne⟩ : p = NULL ∧ (s.struct NULL).command ≠ s.next + 4 := by tauto
      have hal : s.aliases = [NULL] := hs.tabled.table.elim id fun h => absurd hp h.2
      rw [hsplit.nameOf hal] at hname
      exact hnot ⟨hal, name, cmd, hd, hname, hne⟩
  · refine iff_of_true (hs.newAlias hs') fun hnull => ?_
    obtain ⟨hal, name', cmd', hd', hname, -⟩ := hnull
    obtain ⟨rfl, rfl⟩ := hd.2.unique hd'.2
    refine hnames NULL (by rw [hal]; exact List.mem_cons_self) ?_
    rw [hsplit.nameOf hal]
    exact hname

/-- **One line** leaks exactly if it is one of the lines that do. -/
theorem Owned.keepsObjects_iff (hs : Owned es s) (hx : Term.parseInput commands env s = .ok ((), s')) :
    KeepsObjects s s' ↔ ¬Leaks s := by
  by_cases hip : 0 < s.inputPtr
  · by_cases hforgets : s.executedCall = some .disk ∨ s.executedCall = some .syslog
    · refine iff_of_false ?_ fun h => h ⟨hip, hforgets.imp_right .inl⟩
      obtain ⟨s₁, hsplit, hx⟩ := parseInput_dispatched hs.tabled hip hx
      rcases hforgets with hcall | hcall
      all_goals
        obtain ⟨c, hfind, hc⟩ := Option.map_eq_some_iff.mp hcall
        rw [hfind] at hx
        refine hs.spends hsplit (fun params => ?_) hx
        rw [hc]
      · exact disk_spends
      · exact syslog_spends
    · obtain ⟨hdisk, hsyslog⟩ := not_or.mp hforgets
      have hleaks : Leaks s ↔ OverwritesNull s := by
        rw [Leaks]
        tauto
      rw [hleaks]
      by_cases hdefine : ∃ name cmd, s.DefinesAlias name cmd
      · obtain ⟨name, cmd, hd⟩ := hdefine
        exact hs.define_keeps_iff hip hd hx
      · have hdefine : ∀ name cmd, ¬s.DefinesAlias name cmd := fun name cmd hd => hdefine ⟨name, cmd, hd⟩
        refine iff_of_true (hs.ordinary hip hdisk hsyslog hdefine hx) fun hnull => ?_
        obtain ⟨-, name, cmd, hd, -⟩ := hnull
        exact hdefine name cmd hd
  · refine iff_of_true ?_ fun h => hip h.1
    rw [parseInput_blank hip] at hx
    cases hx
    exact ⟨[], congrArg Holdings.log (newPrompt_holdings s), fun _ hp => absurd hp List.not_mem_nil⟩

/-! ## Sessions -/

theorem AliasesBelow.newCommand {vs ws : List Ptr} (h : AliasesBelow s.next s)
    (hs' : s'.holdings = ((s.split vs).newCommand ws p).freed s.next (s.next + 1)) :
    AliasesBelow s'.next s' := by
  have hnext : s'.next = s.next + 5 := congrArg Holdings.next hs'
  have haliases : s'.aliases = s.aliases := congrArg Holdings.aliases hs'
  have hstruct : ∀ q, s'.struct q = if q = p then { s.struct p with command := s.next + 4 } else s.struct q :=
    congrFun (congrArg Holdings.struct hs')
  intro a ha hne
  rw [haliases] at ha
  obtain ⟨hlt, hname, hcommand⟩ := h a ha hne
  rw [hnext, hstruct]
  split
  next hap =>
    rw [hap] at hlt hname
    rw [hap]
    exact ⟨Nat.lt_add_right 5 hlt, Nat.lt_add_right 5 hname, Nat.lt_succ_self _⟩
  next => exact ⟨Nat.lt_add_right 5 hlt, Nat.lt_add_right 5 hname, Nat.lt_add_right 5 hcommand⟩

theorem AliasesBelow.newAlias {vs ws : List Ptr} (h : AliasesBelow s.next s)
    (hs' : s'.holdings = ((s.split vs).newAlias ws).freed s.next (s.next + 1)) :
    AliasesBelow s'.next s' := by
  have hnext : s'.next = s.next + 6 := congrArg Holdings.next hs'
  have haliases : s'.aliases = addValue s.aliases (s.next + 5) := congrArg Holdings.aliases hs'
  have hstruct : ∀ q, s'.struct q =
      if q = s.next + 5 then { name := s.next + 3, command := s.next + 4 } else s.struct q :=
    congrFun (congrArg Holdings.struct hs')
  intro a ha hne
  rw [haliases] at ha
  rw [hnext, hstruct]
  rcases of_mem_addValue ha with rfl | ha
  · rw [if_pos rfl]
    exact ⟨Nat.add_lt_add_left (by decide) _, Nat.add_lt_add_left (by decide) _,
      Nat.add_lt_add_left (by decide) _⟩
  · obtain ⟨hlt, hname, hcommand⟩ := h a ha hne
    rw [if_neg (ne_next_add hlt 5)]
    exact ⟨Nat.lt_add_right 6 hlt, Nat.lt_add_right 6 hname, Nat.lt_add_right 6 hcommand⟩

/-- A line that defines nothing leaves the table. -/
theorem Session.sameAliases (hs : Session es s) (hip : 0 < s.inputPtr)
    (hdefine : ∀ name cmd, ¬s.DefinesAlias name cmd)
    (hx : Term.parseInput commands env s = .ok ((), s')) : SameAliases s s' := by
  have hstable := SameAliases.promptStable s
  obtain ⟨s₁, hsplit, hx⟩ := parseInput_dispatched hs.tabled hip hx
  have hparams := hsplit.params
  obtain ⟨vs, hs₁⟩ := hsplit.holdings
  have hsame : SameAliases s s₁ :=
    { le_next := by
        rw [show s₁.next = s.next + 3 from congrArg Holdings.next hs₁]
        exact Nat.le_add_right _ 3
      aliases := congrArg Holdings.aliases hs₁
      struct := congrArg Holdings.struct hs₁ }
  obtain ⟨s₂, hs₂, rfl⟩ := hstable.executed (le_refl _) (Nat.le_succ _) (fun c hfind hc => by
    rw [hparams]
    exact hstable.aliasCmd_noDefinition (noDefinition_of hdefine hfind hc)) hsame hx
  exact hstable.newPrompt hs₂

/-- A submitted line leaves aliases that are the session's own. -/
theorem Owned.parseInput_below (hs : Owned es s) (hip : 0 < s.inputPtr)
    (hx : Term.parseInput commands env s = .ok ((), s')) : AliasesBelow s'.next s' := by
  by_cases hdefine : ∃ name cmd, s.DefinesAlias name cmd
  · obtain ⟨name, cmd, hd⟩ := hdefine
    obtain ⟨s₁, vs, ws, -, ⟨p, -, -, hs'⟩ | ⟨-, hs'⟩⟩ := hs.define hip hd hx
    · exact hs.below.newCommand hs'
    · exact hs.below.newAlias hs'
  · have hsame := hs.sameAliases hip (fun name cmd hd => hdefine ⟨name, cmd, hd⟩) hx
    exact hs.below.mono hsame.le_next hsame.aliases hsame.struct

/-- Keys that submit nothing move no object. -/
theorem keyStep_holdings {k : Key} (hno : k.char = 0x0A → ¬0 < s.inputPtr) (hk : KeyStep s k s') :
    s'.holdings = s.holdings := by
  by_cases hchar : k.char = 0x0A
  · have hx := hk.enter hchar
    rw [parseInput_blank (hno hchar)] at hx
    cases hx
    exact newPrompt_holdings s
  · obtain ⟨t, b, fb, x, i, rfl⟩ := hk.edits hchar
    rfl

theorem Owned.keyStep {k : Key} (hs : Owned es s) (hk : KeyStep s k s') : ∃ es', Owned es' s' := by
  obtain ⟨es', hs', -⟩ := hs.toSession.keyStep hk
  refine ⟨es', hs', ?_⟩
  by_cases hline : k.char = 0x0A ∧ 0 < s.inputPtr
  · exact hs.parseInput_below hline.2 (hk.enter hline.1)
  · have hsame := keyStep_holdings (fun hchar hip => hline ⟨hchar, hip⟩) hk
    exact hs.below.mono (congrArg Holdings.next hsame).ge (congrArg Holdings.aliases hsame)
      (congrArg Holdings.struct hsame)

theorem Owned.run {keys : List Key} (hs : Owned es s) (hrun : Runs KeyStep s keys s') :
    ∃ es', Owned es' s' :=
  hrun.invariant (I := fun s => ∃ es, Owned es s) (fun h hk => h.elim fun _ hs => hs.keyStep hk) ⟨es, hs⟩

theorem initTerminal_owned (s : Terminal) : Owned [] (initTerminal s) :=
  { initTerminal_session s with
    below := fun _ ha hne => absurd (List.mem_singleton.mp ha) hne }

/-! ## Buffers and nodes -/

theorem le_length_addValue (l : List Ptr) (p : Ptr) : l.length ≤ (addValue l p).length := by
  cases l with
  | nil => exact le_refl _
  | cons v vs =>
    rw [addValue]
    split
    · exact le_refl _
    · simp

theorem length_addValue {l : List Ptr} (h : firstValue l ≠ NULL) (p : Ptr) : (addValue l p).length = l.length + 1 := by
  cases l with
  | nil => exact absurd rfl h
  | cons v vs =>
    rw [addValue, if_neg (show v ≠ NULL from h)]
    simp

/-- What a line that started in `s₀` may have allocated for strings and lists:
buffers of its own strings and of the prompt's, and nodes of the lists. -/
def Terminal.Accounts (s₀ s : Terminal) : Block → Prop
  | .data p => s₀.next ≤ p ∨ p = s₀.promptString
  | .node list i => i < s.nodes list
  | .numbuffer => True

/-- The blocks counted are those, and every object made is logged. -/
structure Accounted (s₀ s : Terminal) : Prop where
  le_next : s₀.next ≤ s.next
  promptString : s.promptString = s₀.promptString
  log : ∃ es, s.log = es ++ s₀.log ∧ ∀ p, s₀.next ≤ p → p < s.next → .alloc p ∈ es
  blocks : ∀ b, s.blocks b = true → s₀.Accounts s b

variable {s₀ : Terminal} {b : Block}

theorem Accounted.event (h : Accounted s₀ s) (e : Event) : Accounted s₀ (s.event e) :=
  { h with
    log := by
      obtain ⟨es, hlog, halloc⟩ := h.log
      exact ⟨e :: es, congrArg (e :: ·) hlog, fun p hle hlt => List.mem_cons_of_mem _ (halloc p hle hlt)⟩ }

theorem Accounted.alloc (h : Accounted s₀ s) : Accounted s₀ s.alloc :=
  { h with
    le_next := Nat.le_succ_of_le h.le_next
    log := by
      obtain ⟨es, hlog, halloc⟩ := h.log
      refine ⟨.alloc s.next :: es, congrArg (_ :: ·) hlog, fun p hle hlt => ?_⟩
      rcases Nat.lt_succ_iff_lt_or_eq.mp hlt with hlt | rfl
      · exact List.mem_cons_of_mem _ (halloc p hle hlt)
      · exact List.mem_cons_self }

theorem Accounted.mark (h : Accounted s₀ s) (hb : s₀.Accounts s b) : Accounted s₀ (s.mark b) :=
  { h with
    blocks := fun b' hb' => by
      rcases Bool.or_eq_true_iff.mp hb' with heq | hold
      · rw [of_decide_eq_true heq]
        exact hb
      · exact h.blocks b' hold }

/-- The lists may grow, by the nodes that are allocated for them. -/
theorem Accounted.grow {list : KernelList} {vs : List Ptr} (h : Accounted s₀ s)
    (hkept : s'.next = s.next ∧ s'.promptString = s.promptString ∧ s'.log = s.log)
    (hblocks : s'.blocks = (s.grow list vs).blocks) (hnodes : ∀ l, s.nodes l ≤ s'.nodes l)
    (hnew : firstValue vs ≠ NULL → vs.length < s'.nodes list) : Accounted s₀ s' where
  le_next := hkept.1 ▸ h.le_next
  promptString := hkept.2.1.trans h.promptString
  log := by rw [hkept.2.2, hkept.1]; exact h.log
  blocks := fun b hb => by
    rw [hblocks] at hb
    rcases Bool.or_eq_true_iff.mp hb with hnode | hold
    · obtain ⟨hb, hfirst⟩ := Bool.and_eq_true_iff.mp hnode
      rw [of_decide_eq_true hb]
      exact hnew (of_decide_eq_true hfirst)
    · have hold := h.blocks b hold
      cases b with
      | data p => exact hold
      | node l i => exact Nat.lt_of_lt_of_le hold (hnodes l)
      | numbuffer => trivial

theorem Accounted.addAlias (h : Accounted s₀ s) (p : Ptr) : Accounted s₀ (s.addAlias p) :=
  h.grow ⟨rfl, rfl, rfl⟩ rfl
    (fun l => by
      cases l with
      | aliases => exact le_length_addValue _ _
      | cmdhistory => exact le_refl _
      | systemlog => exact le_refl _)
    fun hfirst => (length_addValue hfirst p).ge

theorem Accounted.addHistory (h : Accounted s₀ s) (p : Ptr) : Accounted s₀ (s.addHistory p) :=
  h.grow ⟨rfl, rfl, rfl⟩ rfl
    (fun l => by
      cases l with
      | aliases => exact le_refl _
      | cmdhistory => exact le_length_addValue _ _
      | systemlog => exact le_refl _)
    fun hfirst => (length_addValue hfirst p).ge

theorem Accounted.aliasStable (s₀ : Terminal) : AliasStable s₀.next (fun _ => True) (Accounted s₀) where
  le_next _ h := h.le_next
  alloc _ h := h.alloc
  setStr _ _ _ _ h := { h with }
  mark _ b hb h := h.mark (by
    cases b with
    | data p => exact .inl hb
    | node list i => exact hb.elim
    | numbuffer => trivial)
  free _ _ _ h := h.event _
  newPrompt s h := by
    obtain ⟨fb, hfb⟩ := newPrompt_eq s
    rw [hfb]
    exact { h with }
  screen _ _ _ _ h := { h with }
  home _ _ h := { h with }
  interrupts _ _ h := { h with }
  endterm _ h := { h with }
  freeAny _ _ h := h.event _
  deref _ _ _ h := h.event _
  guarded _ _ _ _ _ := trivial
  entries _ _ _ _ := trivial
  setStruct _ _ _ h := { h with }
  addAlias _ p _ h := h.addAlias p

/-- `cprompt` may move the buffer of the prompt's string. -/
theorem Accounted.lineStable (s₀ : Terminal) : LineStable s₀.next (fun _ => True) (Accounted s₀) :=
  { (Accounted.aliasStable s₀).toEventStable with
    setPrompt := fun s t _ h => by
      unfold Terminal.setPrompt Terminal.update
      split
      next => exact { h with }
      next =>
        have hset : Accounted s₀ (s.setStr s.promptString t) := { h with }
        have hprompt : s₀.Accounts (s.setStr s.promptString t) (.data s.promptString) := .inr h.promptString
        exact { hset.mark hprompt with }
    addHistory := fun _ p h => h.addHistory p }

theorem Accounted.parseInput (hx : Term.parseInput commands env s.recount = .ok ((), s')) :
    Accounted s.recount s' := by
  have hstart : Accounted s.recount s.recount :=
    ⟨le_refl _, rfl, ⟨[], rfl, fun _ hle hlt => absurd hlt (Nat.not_lt.mpr hle)⟩, nofun⟩
  obtain ⟨s₁, hs₁, rfl⟩ :=
    (Accounted.lineStable _).parseInput (fun _ => (Accounted.aliasStable _).aliasCmd) hstart hx
  exact (Accounted.aliasStable _).newPrompt hs₁

/-- With the objects the other blocks are accounted for: a buffer belongs to a
string that was made, or to the prompt's. -/
theorem Accounted.noLeak_iff (h : Accounted s.recount s') : NoLeak s s' ↔ KeepsObjects s s' := by
  constructor
  · intro hleak
    obtain ⟨es, hlog, hobjects, -⟩ := hleak
    exact ⟨es, hlog, hobjects⟩
  · intro hkeeps
    obtain ⟨es, hlog, hobjects⟩ := hkeeps
    refine ⟨es, hlog, hobjects, fun b hb => ?_⟩
    cases b with
    | data p =>
      rcases h.blocks _ hb.2 with hnew | hprompt
      · obtain ⟨es', hlog', halloc⟩ := h.log
        cases List.append_cancel_right (hlog.symm.trans hlog')
        exact hobjects p (halloc p hnew hb.1)
      · refine .inr ?_
        rw [show p = s'.promptString from hprompt.trans h.promptString.symm]
        exact .promptString
    | node list i => exact .inr (h.blocks _ hb)
    | numbuffer => exact .inr trivial

theorem Owned.recount (hs : Owned es s) : Owned es s.recount where
  ready := { hs.ready with }
  editor := { hs.editor with }
  tabled := { hs.tabled with }
  recorded := { hs.recorded with }
  below := hs.below

/-- **What leaks**: in every state a session can reach, a submitted line whose
handler returns leaks a block exactly if it calls `disk` or `syslog`, or defines
an alias behind `NULL`. -/
theorem noLeak_iff_not_leaks {s₀ : Terminal} {keys : List Key} (hrun : Runs KeyStep (initTerminal s₀) keys s)
    (hx : Term.parseInput commands env s.recount = .ok ((), s')) : NoLeak s s' ↔ ¬Leaks s := by
  obtain ⟨es, hs⟩ := (initTerminal_owned s₀).run hrun
  exact (Accounted.parseInput hx).noLeak_iff.trans (hs.recount.keepsObjects_iff hx)

/-- `disk` never frees its buffer. -/
theorem disk_leaks : ∃ s s', Runs KeyStep (initTerminal blank) (typed "disk") s ∧
    Term.parseInput commands bench s.recount = .ok ((), s') ∧ ¬NoLeak s s' := by
  have h : ((exec (fun s k => Key.step? k s) (initTerminal blank) (typed "disk")).map fun s =>
      (decide (0 < s.inputPtr ∧ s.executedCall = some .disk),
        (Term.parseInput commands bench s.recount).toOption.isSome)) = some (true, true) := by
    decide +kernel
  obtain ⟨s, hs, hboth⟩ := Option.map_eq_some_iff.mp h
  obtain ⟨hip, hcall⟩ := of_decide_eq_true (congrArg Prod.fst hboth)
  obtain ⟨r, hr⟩ := Option.isSome_iff_exists.mp (congrArg Prod.snd hboth)
  have hrun := (exec_eq_some Key.step?_eq_some).mp hs
  have hx : Term.parseInput commands bench s.recount = .ok ((), r.2) := Except.toOption_eq_some.mp hr
  obtain ⟨es, howned⟩ := (initTerminal_owned blank).run hrun
  refine ⟨s, r.2, hrun, hx, fun hno => ?_⟩
  exact (howned.recount.keepsObjects_iff hx).mp ((Accounted.parseInput hx).noLeak_iff.mp hno) ⟨hip, .inl hcall⟩

/-- A new prompt longer than its buffer, after an alias: nothing leaks. -/
theorem noLeak_iff_not_leaks_alias : ∃ s s',
    Runs KeyStep (initTerminal blank) (typed "alias p cprompt long\np") s ∧
    Term.parseInput commands bench s.recount = .ok ((), s') ∧ NoLeak s s' ∧ ¬Leaks s ∧
    s'.Allocated (.data s'.promptString) ∧ s'.Allocated (.node .cmdhistory 1) := by
  have h : ((exec (fun s k => Key.step? k s) (initTerminal blank) (typed "alias p cprompt long\np")).map fun s =>
      (decide (s.executedCall = some .cprompt ∧ s.aliases ≠ [NULL]),
        (Term.parseInput commands bench s.recount).toOption.map fun r =>
          decide (r.2.promptString < r.2.next) && r.2.blocks (.data r.2.promptString) &&
            r.2.blocks (.node .cmdhistory 1))) = some (true, some true) := by
    decide +kernel
  obtain ⟨s, hs, hboth⟩ := Option.map_eq_some_iff.mp h
  obtain ⟨hcall, hal⟩ := of_decide_eq_true (congrArg Prod.fst hboth)
  obtain ⟨r, hr, hblocks⟩ := Option.map_eq_some_iff.mp (congrArg Prod.snd hboth)
  obtain ⟨hdata, hnode⟩ := Bool.and_eq_true_iff.mp hblocks
  obtain ⟨hlt, hprompt⟩ := Bool.and_eq_true_iff.mp hdata
  have hrun := (exec_eq_some Key.step?_eq_some).mp hs
  have hx : Term.parseInput commands bench s.recount = .ok ((), r.2) := Except.toOption_eq_some.mp hr
  have hno : ¬Leaks s := by
    intro hleaks
    rcases hleaks.2 with hdisk | hsyslog | hnull
    · rw [hcall] at hdisk
      cases hdisk
    · rw [hcall] at hsyslog
      cases hsyslog
    · exact hal hnull.1
  exact ⟨s, r.2, hrun, hx, (noLeak_iff_not_leaks hrun hx).mpr hno, hno, ⟨of_decide_eq_true hlt, hprompt⟩, hnode⟩

end Ssmos

/-
What a submitted line runs: the command its first word names or, through an
alias, the command the alias's first word names.
-/
import Ssmos.AliasNull

namespace Ssmos

/-- The line that is executed for `line`: an alias's command if the first word
names no command, but an alias. -/
def Terminal.expanded (s : Terminal) (table : List Command) (line : Text) : Text :=
  if (findCmd table line.word).isSome ∨ firstValue s.aliases = NULL then line
  else ((lookup s.nameOf s.aliases line.word).map s.commandOf).getD line

/-- `s₁` is `s`, with `line` split into the strings at `p` and `q`, and aliases
looked at. -/
def SplitInto (s : Terminal) (p q : Ptr) (line : Text) (s₁ : Terminal) : Prop :=
  ∃ vs str, s₁ = { s.derefs vs with str := str } ∧ str p = line.word ∧ str q = line.afterWord ∧
    ∀ r, r ≠ p → r ≠ q → str r = s.str r

variable {table : List Command} {env : Env} {s s' : Terminal} {p q : Ptr} {line : Text}

/-! ## The strings of a submitted line -/

theorem next_add_ne {j k : Nat} (h : j ≠ k) : s.next + j ≠ s.next + k := fun he =>
  h (Nat.add_left_cancel he)

theorem ne_next_add (h : q < s.next) (k : Nat) : q ≠ s.next + k := Nat.ne_of_lt (Nat.lt_add_right k h)

theorem submitted_word : s.submitted.str s.next = (s.str s.input).word :=
  (if_neg (next_add_ne (j := 0) (k := 1) (by decide))).trans (if_pos rfl)

theorem submitted_line : s.submitted.str (s.next + 2) = s.str s.input :=
  (if_neg (next_add_ne (j := 2) (k := 1) (by decide))).trans
    ((if_neg (next_add_ne (j := 2) (k := 0) (by decide))).trans (if_pos rfl))

/-- The strings there were before are as they were. -/
theorem submitted_old (h : q < s.next) : s.submitted.str q = s.str q :=
  (if_neg (ne_next_add h 1)).trans ((if_neg (ne_next_add h 0)).trans (if_neg (ne_next_add h 2)))

theorem submitted_blocks {b : Block} (h : ((s.mark (.data s.next)).mark (.data (s.next + 1))).blocks b = true) :
    s.submitted.blocks b = true := Terminal.grow_kept (Terminal.mark_kept h)

theorem submitted_blocks_word : s.submitted.blocks (.data s.next) = true :=
  submitted_blocks (Terminal.mark_kept (Terminal.blocks_mark _ _))

theorem submitted_blocks_params : s.submitted.blocks (.data (s.next + 1)) = true :=
  submitted_blocks (Terminal.blocks_mark _ _)

/-! ## The command -/

theorem SplitInto.refl (hp : s.str p = line.word) (hq : s.str q = line.afterWord) : SplitInto s p q line s :=
  ⟨[], s.str, rfl, hp, hq, fun _ _ _ => rfl⟩

/-- The strings are emptied and filled again before the rest. -/
theorem split_eq {t : Text} (hp : p ≠ NULL) (hq : q ≠ NULL) (hqp : q ≠ p) (hbp : s.blocks (.data p) = true)
    (hbq : s.blocks (.data q) = true) :
    ∃ str, (∀ {β : Type} (rest : Unit → Term β),
        (do Term.stringClear p; Term.stringClear q; Term.separate p q t >>= rest) s =
          rest () { s with str := str }) ∧
      str p = t.word ∧ str q = t.afterWord ∧ ∀ r, r ≠ p → r ≠ q → str r = s.str r := by
  have hclear : ∀ {s : Terminal} {r : Ptr}, r ≠ NULL → s.blocks (.data r) = true →
      Term.stringClear r s = .ok ((), s.setStr r Text.empty) := fun hr hb =>
    congrArg (fun s => Except.ok ((), s)) (Terminal.update_eq hr hb)
  let s₁ := (s.setStr p Text.empty).setStr q Text.empty
  have hpe : s₁.str p = Text.empty := (if_neg (Ne.symm hqp)).trans (if_pos rfl)
  have hqe : s₁.str q = Text.empty := if_pos rfl
  refine ⟨((s₁.setStr p t.word).setStr q t.afterWord).str, fun rest => ?_, ?_, ?_, fun r hrp hrq => ?_⟩
  · have hbq₁ : (s.setStr p Text.empty).blocks (.data q) = true := hbq
    rw [StateT.bind_of_ok (hclear hp hbp), StateT.bind_of_ok (hclear hq hbq₁)]
    exact StateT.bind_of_ok (separate_eq hp hq hqp hbp hbq hpe hqe)
  · exact (if_neg (Ne.symm hqp)).trans (if_pos rfl)
  · exact if_pos rfl
  · exact (if_neg hrq).trans ((if_neg hrp).trans ((if_neg hrq).trans (if_neg hrp)))

/-- **What `resolve` finds**, and where it leaves the line it found it in. -/
theorem resolve_eq (hp : p ≠ NULL) (hq : q ≠ NULL) (hqp : q ≠ p)
    (hbp : s.blocks (.data p) = true) (hbq : s.blocks (.data q) = true)
    (hal : s.aliases = [NULL] ∨ NULL ∉ s.aliases) (hword : s.str p = line.word)
    (hafter : s.str q = line.afterWord) :
    ∃ s₁, Term.resolve table p q s = .ok (findCmd table (s.expanded table line).word, s₁) ∧
      SplitInto s p q (s.expanded table line) s₁ := by
  have htext : Term.text p s = .ok (s.str p, s) := rfl
  rw [Term.resolve, StateT.bind_of_ok htext, hword]
  cases hc : findCmd table line.word with
  | some c =>
    rw [Terminal.expanded, if_pos (.inl (by rw [hc]; rfl)), hc]
    exact ⟨s, rfl, .refl hword hafter⟩
  | none =>
    by_cases hfirst : firstValue s.aliases = NULL
    · have hfind : Term.findAlias line.word s = .ok (none, s) := by
        rw [Term.findAlias, StateT.bind_of_ok (Term.get_eq s), if_pos hfirst]
        rfl
      rw [Terminal.expanded, if_pos (.inr hfirst), hc]
      exact ⟨s, StateT.bind_of_ok hfind, .refl hword hafter⟩
    · have hnull : NULL ∉ s.aliases := by
        rcases hal with hal | hal
        · exact absurd (congrArg firstValue hal) hfirst
        · exact hal
      obtain ⟨vs, -, hfind⟩ := findAlias_eq (t := line.word) hnull
      have hnot : ¬((findCmd table line.word).isSome ∨ firstValue s.aliases = NULL) := by
        rw [hc]
        simpa using hfirst
      rw [Terminal.expanded, if_neg hnot]
      cases hl : lookup s.nameOf s.aliases line.word with
      | none =>
        rw [hl] at hfind
        refine ⟨s.derefs vs, ?_, ⟨vs, s.str, rfl, hword, hafter, fun _ _ _ => rfl⟩⟩
        rw [Option.map_none, Option.getD_none, hc]
        exact StateT.bind_of_ok hfind
      | some a =>
        rw [hl] at hfind
        rw [Option.map_some, Option.getD_some]
        -- The alias is used as a `struct alias` once more, and its command is split.
        have hderef : Term.derefAlias a (s.derefs vs) = .ok (s.struct a, s.derefs (vs ++ [a])) := by
          simp only [Terminal.derefs, List.map_append, List.reverse_append]
          rfl
        obtain ⟨str, hsplit, hstr⟩ := split_eq (s := s.derefs (vs ++ [a])) (t := s.commandOf a) hp hq hqp hbp hbq
        refine ⟨{ s.derefs (vs ++ [a]) with str := str }, ?_, ⟨_, str, rfl, hstr⟩⟩
        refine (StateT.bind_of_ok hfind).trans ((StateT.bind_of_ok hderef).trans ?_)
        have htext : Term.text (s.struct a).command (s.derefs (vs ++ [a])) =
            .ok (s.commandOf a, s.derefs (vs ++ [a])) := rfl
        refine (StateT.bind_of_ok htext).trans ?_
        refine (hsplit _).trans ?_
        rw [← hstr.1]
        rfl

/-- The line that the submitted line is executed as. -/
def Terminal.executedLine (s : Terminal) (table : List Command) : Text :=
  s.submitted.expanded table (s.str s.input)

/-- **A submitted line** is executed with its two parts in strings of their own. -/
theorem parseInput_dispatched (ht : Tabled s.next s.ledger) (hip : 0 < s.inputPtr)
    (hx : Term.parseInput table env s = .ok ((), s')) :
    ∃ s₁, SplitInto s.submitted s.next (s.next + 1) (s.executedLine table) s₁ ∧
      (do Term.execute table env s.next (s.next + 1) (findCmd table (s.executedLine table).word)
          Term.stringFree s.next
          Term.stringFree (s.next + 1)
          modify newPrompt) s₁ = .ok ((), s') := by
  have hin : s.input < s.next := ht.input_lt
  have hal : s.submitted.aliases = [NULL] ∨ NULL ∉ s.submitted.aliases := ht.table.imp_right And.right
  obtain ⟨s₁, hresolve, hsplit⟩ := resolve_eq (Nat.ne_zero_of_lt hin) (Nat.succ_ne_zero _)
    (Nat.succ_ne_self _) submitted_blocks_word submitted_blocks_params hal submitted_word submitted_params
  rw [parseInput_eq hip hin, Term.dispatch, StateT.bind_of_ok hresolve] at hx
  exact ⟨s₁, hsplit, hx⟩

/-- The strings there were before are no part of the split. -/
theorem SplitInto.old {s₁ : Terminal} (h : SplitInto s.submitted s.next (s.next + 1) line s₁)
    (hq : q < s.next) : s₁.str q = s.str q := by
  obtain ⟨vs, str, rfl, -, -, hstr⟩ := h
  exact (hstr q (ne_next_add hq 0) (ne_next_add hq 1)).trans (submitted_old hq)

/-- The history keeps the line as it was typed. -/
theorem SplitInto.recorded {s₁ : Terminal} (h : SplitInto s.submitted s.next (s.next + 1) line s₁) :
    s₁.str (s.next + 2) = s.str s.input := by
  obtain ⟨vs, str, rfl, -, -, hstr⟩ := h
  exact (hstr _ (next_add_ne (j := 2) (k := 0) (by decide)) (next_add_ne (j := 2) (k := 1) (by decide))).trans
    submitted_line

/-! ## What a line runs -/

/-- What becomes of a line: a handler is called, or a word is reported. -/
inductive Outcome
  | call (c : Command) (params : Text)
  | notFound (word : Text)

/-- The handler alone, or the message alone. -/
def Outcome.run (handler : Command → Text → Term Int) (env : Env) : Outcome → Term Unit
  | call c params => do Term.printReturn env (← handler c params) c.name
  | notFound word => do
    Term.writeline (Text.lit "Cannot find file or command:")
    Term.writeline word

/-- The command of an alias. -/
def Terminal.aliasFor (s : Terminal) (name : Text) : Option Text :=
  (lookup s.nameOf s.aliases name).map s.commandOf

/-- **Commands before aliases**, and aliases once: the command that the first
word names gets the rest of the line, that of an alias the rest of the alias's
command. -/
def Terminal.outcome (s : Terminal) (table : List Command) (line : Text) : Outcome :=
  match lookup Command.name table line.word with
  | some c => .call c line.afterWord
  | none =>
    match s.aliasFor line.word with
    | none => .notFound line.word
    | some cmd =>
      match lookup Command.name table cmd.word with
      | some c => .call c cmd.afterWord
      | none => .notFound cmd.word

/-- A table with an alias; its strings are there, and so is the input's. -/
structure Aliased (s : Terminal) : Prop where
  ne_nil : s.aliases ≠ []
  ne_null : NULL ∉ s.aliases
  input_lt : s.input < s.next
  name_lt : ∀ p ∈ s.aliases, (s.struct p).name < s.next
  command_lt : ∀ p ∈ s.aliases, (s.struct p).command < s.next

theorem findCmd_eq (table : List Command) (t : Text) : findCmd table t = lookup Command.name table t := by
  induction table with
  | nil => rfl
  | cons c cs ih =>
    rw [findCmd, lookup_cons, ih]
    by_cases hname : c.name = t
    · rw [if_pos (strcmp_text.mpr hname), if_pos hname]
    · rw [if_neg (mt strcmp_text.mp hname), if_neg hname]

/-- The three new strings of a line are no alias's. -/
theorem Aliased.aliasFor_submitted (h : Aliased s) (t : Text) : s.submitted.aliasFor t = s.aliasFor t := by
  have hname : lookup s.submitted.nameOf s.aliases t = lookup s.nameOf s.aliases t :=
    lookup_congr fun p hp => submitted_old (h.name_lt p hp)
  change (lookup s.submitted.nameOf s.aliases t).map s.submitted.commandOf =
    (lookup s.nameOf s.aliases t).map s.commandOf
  rw [hname]
  cases hl : lookup s.nameOf s.aliases t with
  | none => rfl
  | some p => exact congrArg some (submitted_old (h.command_lt p (lookup_mem hl)))

/-- The outcome of the line that is executed, whose word is looked up again. -/
theorem outcome_eq (halias : firstValue s.aliases ≠ NULL) (line : Text) : s.outcome table line =
    match findCmd table (s.expanded table line).word with
    | some c => .call c (s.expanded table line).afterWord
    | none => .notFound (s.expanded table line).word := by
  rw [Terminal.outcome, ← findCmd_eq, Terminal.aliasFor]
  cases hc : findCmd table line.word with
  | some c =>
    rw [Terminal.expanded, if_pos (.inl (by rw [hc]; rfl)), hc]
  | none =>
    rw [Terminal.expanded, if_neg (by simpa [hc] using halias)]
    cases hl : lookup s.nameOf s.aliases line.word with
    | none => simp only [Option.map_none, Option.getD_none, hc]
    | some a => simp only [Option.map_some, Option.getD_some, ← findCmd_eq]

/-- Running what `resolve` found is running the outcome. -/
theorem outcome_run {handler : Command → Text → Term Int} (hp : s.str p = line.word)
    (hq : s.str q = line.afterWord) (hin : s.input ≠ p) :
    Term.executeWith handler env p q (findCmd table line.word) s =
      Outcome.run handler env (match findCmd table line.word with
        | some c => .call c line.afterWord
        | none => .notFound line.word) s := by
  cases findCmd table line.word with
  | some c =>
    rw [← hq]
    rfl
  | none =>
    obtain ⟨_, s₁, hwrite⟩ : ∃ r s₁, Term.writeline (Text.lit "Cannot find file or command:") s = .ok (r, s₁) :=
      writeline_total s
    have hkept := ((quiet_string p line.word).writeline ⟨hp, hin⟩ hwrite).2.1
    simp only [Term.executeWith, Outcome.run]
    rw [StateT.bind_of_ok hwrite, StateT.bind_of_ok hwrite, ← hkept]
    rfl

/-- **`parse_input` dispatches** every line by its first word, whatever the
handlers of the table do. -/
theorem parseInput_dispatches (h : Aliased s) (hip : 0 < s.inputPtr) (handler : Command → Text → Term Int)
    (table : List Command) (env : Env) :
    ∃ s₁, SplitInto s.submitted s.next (s.next + 1) (s.executedLine table) s₁ ∧
      Term.parseInputWith handler table env s =
        (do (s.outcome table (s.str s.input)).run handler env
            Term.stringFree s.next
            Term.stringFree (s.next + 1)
            modify newPrompt) s₁ := by
  have hfirst : firstValue s.submitted.aliases ≠ NULL := by
    obtain ⟨v, vs, hal⟩ := List.exists_cons_of_ne_nil h.ne_nil
    change firstValue s.aliases ≠ NULL
    have hnull := h.ne_null
    rw [hal] at hnull ⊢
    exact Ne.symm (List.ne_of_not_mem_cons hnull)
  have hsame : s.submitted.outcome table (s.str s.input) = s.outcome table (s.str s.input) := by
    rw [Terminal.outcome, h.aliasFor_submitted]
    rfl
  obtain ⟨s₁, hresolve, hsplit⟩ : ∃ s₁, Term.resolve table s.next (s.next + 1) s.submitted =
      .ok (findCmd table (s.executedLine table).word, s₁) ∧
        SplitInto s.submitted s.next (s.next + 1) (s.executedLine table) s₁ :=
    resolve_eq (Nat.ne_zero_of_lt h.input_lt) (Nat.succ_ne_zero _) (Nat.succ_ne_self _)
      submitted_blocks_word submitted_blocks_params (.inr h.ne_null)
      submitted_word submitted_params
  refine ⟨s₁, hsplit, ?_⟩
  rw [parseInputWith_eq hip h.input_lt, Term.dispatchWith, StateT.bind_of_ok hresolve, ← hsame,
    outcome_eq hfirst]
  obtain ⟨vs, str, rfl, hp, hq, -⟩ := hsplit
  exact StateT.bind_congr_left (outcome_run hp hq (Nat.ne_of_lt h.input_lt))

/-- An alias `ll`, and `ll now` typed. -/
def llTyped : Terminal :=
  { blank with
    str := fun q =>
      if q = 1 then Text.lit "ll now" else if q = 2 then Text.lit "ll"
      else if q = 3 then Text.lit "echo a  b" else Text.empty
    struct := fun _ => { name := 2, command := 3 }
    next := 5
    input := 1
    inputPtr := 6
    aliases := [4] }

theorem parseInput_dispatches_ll : llTyped.outcome commands (llTyped.str 1) =
      .call (command "echo" "Echo a string onto a new line." "echo (x) - x: string to echo" .echo)
        (Text.lit "a  b") ∧
    ∃ s₁, SplitInto llTyped.submitted 5 6 (llTyped.executedLine commands) s₁ ∧
      Term.parseInputWith (Term.handlers commands bench) commands bench llTyped =
        (do (llTyped.outcome commands (llTyped.str 1)).run (Term.handlers commands bench) bench
            Term.stringFree 5
            Term.stringFree 6
            modify newPrompt) s₁ := by
  have haliased : Aliased llTyped := ⟨by decide, by decide, by decide, by decide, by decide⟩
  exact ⟨by rfl, parseInput_dispatches haliased (by decide) (Term.handlers commands bench) commands bench⟩

end Ssmos

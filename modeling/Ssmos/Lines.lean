/-
A submitted line: how `parse_input` splits it, the state it is executed in, and
what it keeps, whatever the command.
-/
import Mathlib.Data.List.TakeWhile
import Ssmos.CommandsFacts
import Ssmos.Console

namespace Ssmos

theorem Term.get_eq (s : Terminal) : (get : Term Terminal) s = .ok (s, s) := rfl

/-! ## New strings -/

/-- After `string_new`. -/
def Terminal.fresh (s : Terminal) : Terminal := (s.alloc.setStr s.next Text.empty).mark (.data s.next)

theorem stringNew_eq (s : Terminal) : Term.stringNew s = .ok (s.next, s.fresh) := rfl

section

variable {s : Terminal} {p : Ptr} {t u : Text} {w rest : List UInt8}

theorem Terminal.setStr_setStr : (s.setStr p t).setStr p u = s.setStr p u := by
  simp only [Terminal.setStr, Terminal.mk.injEq, and_true]
  funext q
  split <;> rfl

theorem Terminal.setStr_self : s.setStr p (s.str p) = s := by
  have hstr : (fun q => if q = p then s.str p else s.str q) = s.str := by
    funext q
    split
    next h => rw [h]
    next => rfl
  rw [Terminal.setStr, hstr]

@[simp] theorem Terminal.setStr_str_same : (s.setStr p t).str p = t := if_pos rfl

theorem Terminal.blocks_mark (s : Terminal) (b : Block) : (s.mark b).blocks b = true :=
  Bool.or_eq_true_iff.mpr (.inl (decide_eq_true rfl))

/-- What is allocated stays so. -/
theorem Terminal.mark_kept {b b' : Block} (h : s.blocks b = true) : (s.mark b').blocks b = true :=
  Bool.or_eq_true_iff.mpr (.inr h)

theorem Terminal.grow_kept {b : Block} {list : KernelList} {vs : List Ptr} (h : s.blocks b = true) :
    (s.grow list vs).blocks b = true :=
  Bool.or_eq_true_iff.mpr (.inr h)

/-- A block is allocated once. -/
theorem Terminal.mark_self {b : Block} (h : s.blocks b = true) : s.mark b = s := by
  have hblocks : (fun b' => decide (b' = b) || s.blocks b') = s.blocks := by
    funext b'
    by_cases hb : b' = b
    · rw [hb, h, Bool.or_true]
    · rw [decide_eq_false hb, Bool.false_or]
  rw [Terminal.mark, hblocks]

/-- So changing a string whose buffer is marked changes its text only. -/
theorem Terminal.update_eq {f : Text → Text} (hp : p ≠ NULL) (hb : s.blocks (.data p) = true) :
    s.update p f = s.setStr p (f (s.str p)) := by
  have hset : (s.setStr p (f (s.str p))).blocks (.data p) = true := hb
  rw [Terminal.update, if_neg hp, mark_self hset]

theorem copyRest_eq (hp : p ≠ NULL) (hb : s.blocks (.data p) = true) :
    Term.copyRest p w s = .ok ((), s.setStr p (w.foldl Text.push (s.str p))) := by
  induction w generalizing s with
  | nil => rw [List.foldl_nil, Terminal.setStr_self]; rfl
  | cons c w ih =>
    change Term.copyRest p w (s.update p (·.push c)) = _
    rw [Terminal.update_eq hp hb, ih (show (s.setStr p _).blocks (.data p) = true from hb),
      Terminal.setStr_setStr, Terminal.setStr_str_same]
    rfl

theorem copyWord_eq (hp : p ≠ NULL) (hb : s.blocks (.data p) = true) (hw : 0x20 ∉ w)
    (hrest : rest = [] ∨ rest.head? = some 0x20) :
    Term.copyWord p (w ++ rest) s = .ok (rest, s.setStr p (w.foldl Text.push (s.str p))) := by
  induction w generalizing s with
  | nil =>
    rw [List.foldl_nil, Terminal.setStr_self]
    cases rest with
    | nil => rfl
    | cons c rest =>
      rw [show c = 0x20 by simpa using hrest]
      rfl
  | cons c w ih =>
    have hc : c ≠ 0x20 := Ne.symm (List.ne_of_not_mem_cons hw)
    rw [List.cons_append, Term.copyWord, if_neg hc]
    change Term.copyWord p (w ++ rest) (s.update p (·.push c)) = _
    rw [Terminal.update_eq hp hb, ih (show (s.setStr p _).blocks (.data p) = true from hb)
      (List.not_mem_of_not_mem_cons hw), Terminal.setStr_setStr, Terminal.setStr_str_same]
    rfl

end

/-- Printing leaves every string alone but the input. -/
theorem quiet_string (p : Ptr) (t : Text) : Quiet (p + 1) fun s => s.str p = t ∧ s.input ≠ p where
  setStr _ _ _ hq h := ⟨(if_neg (Nat.ne_of_lt hq)).trans h.1, h.2⟩
  mark _ _ _ h := h
  newPrompt s h := by
    obtain ⟨fb, hprompt⟩ := newPrompt_eq s
    rw [hprompt]
    exact ⟨(if_neg (Ne.symm h.2)).trans h.1, h.2⟩
  screen _ _ _ _ h := h
  home _ _ h := h
  interrupts _ _ h := h
  endterm _ h := h

/-- A block stays allocated. -/
theorem quiet_blocks (b : Block) : Quiet 0 fun s => s.blocks b = true where
  setStr _ _ _ _ h := h
  mark _ _ _ h := Terminal.mark_kept h
  newPrompt s h := by
    obtain ⟨fb, hprompt⟩ := newPrompt_eq s
    rw [hprompt]
    exact h
  screen _ _ _ _ h := h
  home _ _ h := h
  interrupts _ _ h := h
  endterm _ h := h

/-! ## Splitting a line -/

/-- The first word of a text. -/
def Text.word (t : Text) : Text :=
  ⟨t.chars.takeWhile (· ≠ 0x20), fun c hc => t.nonzero c (List.takeWhile_subset _ hc)⟩

/-- What follows the space after it. -/
def Text.afterWord (t : Text) : Text :=
  ⟨(t.chars.dropWhile (· ≠ 0x20)).tail, fun c hc =>
    t.nonzero c ((List.dropWhile_suffix _).subset (List.mem_of_mem_tail hc))⟩

theorem Text.space_not_mem_word (t : Text) : 0x20 ∉ t.word.chars := fun h => by
  simpa using List.mem_takeWhile_imp h

/-- What is left after the first word. -/
theorem Text.dropWord_eq (t : Text) : t.chars.dropWhile (· ≠ 0x20) = [] ∧ t.afterWord = Text.empty ∨
    t.chars.dropWhile (· ≠ 0x20) = 0x20 :: t.afterWord.chars := by
  cases hd : t.chars.dropWhile (· ≠ 0x20) with
  | nil => exact .inl ⟨rfl, Text.ext (congrArg List.tail hd)⟩
  | cons c cs =>
    have hc := List.head?_dropWhile_not (· ≠ 0x20) t.chars
    have htail : t.afterWord.chars = cs := congrArg List.tail hd
    rw [hd] at hc
    rw [htail]
    exact .inr (congrArg (· :: cs) (by simpa using hc))

theorem Text.chars_eq (t : Text) : t.chars = t.word.chars ++ t.chars.dropWhile (· ≠ 0x20) :=
  List.takeWhile_append_dropWhile.symm

theorem Text.dropWord_head (t : Text) :
    t.chars.dropWhile (· ≠ 0x20) = [] ∨ (t.chars.dropWhile (· ≠ 0x20)).head? = some 0x20 :=
  t.dropWord_eq.imp And.left fun h => by rw [h]; rfl

theorem Text.dropWord_of_mem {t : Text} (h : 0x20 ∈ t.chars) :
    t.chars.dropWhile (· ≠ 0x20) = 0x20 :: t.afterWord.chars := by
  rcases t.dropWord_eq with ⟨hnone, -⟩ | hrest
  · have hchars := t.chars_eq
    rw [hnone, List.append_nil] at hchars
    exact absurd (hchars ▸ h) t.space_not_mem_word
  · exact hrest

theorem Text.dropWord_of_notMem {t : Text} (h : 0x20 ∉ t.chars) : t.chars.dropWhile (· ≠ 0x20) = [] := by
  rcases t.dropWord_eq with ⟨hnone, -⟩ | hrest
  · exact hnone
  · exact absurd (t.chars_eq ▸ List.mem_append_right _ (hrest ▸ List.mem_cons_self)) h

/-- There is one way to split a text at its first space. -/
theorem Text.split_eq {t w : Text} {rest : List UInt8} (h : t.chars = w.chars ++ rest) (hw : 0x20 ∉ w.chars)
    (hrest : rest = [] ∨ rest.head? = some 0x20) : t.word = w ∧ t.chars.dropWhile (· ≠ 0x20) = rest := by
  have hword : t.word = w := by
    refine Text.ext ?_
    change t.chars.takeWhile (· ≠ 0x20) = w.chars
    rw [h, List.takeWhile_append_of_pos fun c hc => by simpa using ne_of_mem_of_not_mem hc hw]
    cases rest with
    | nil => simp
    | cons c cs =>
      rw [show c = 0x20 by simpa using hrest]
      simp
  have hchars := h.symm.trans t.chars_eq
  rw [hword] at hchars
  exact ⟨hword, (List.append_cancel_left hchars).symm⟩

section

variable {s : Terminal} {p q : Ptr} {line : Text}

theorem copyWord_word (hp : p ≠ NULL) (hb : s.blocks (.data p) = true) (hempty : s.str p = Text.empty) :
    Term.copyWord p line.chars s = .ok (line.chars.dropWhile (· ≠ 0x20), s.setStr p line.word) := by
  have hcopy := copyWord_eq (s := s) hp hb line.space_not_mem_word line.dropWord_head
  rw [← line.chars_eq, hempty, Text.foldl_push, Text.empty_append] at hcopy
  exact hcopy

theorem separate_eq (hp : p ≠ NULL) (hq : q ≠ NULL) (hqp : q ≠ p) (hbp : s.blocks (.data p) = true)
    (hbq : s.blocks (.data q) = true) (hpe : s.str p = Text.empty)
    (hqe : s.str q = Text.empty) :
    Term.separate p q line s = .ok ((), (s.setStr p line.word).setStr q line.afterWord) := by
  have hqe : (s.setStr p line.word).str q = Text.empty := (if_neg hqp).trans hqe
  rw [Term.separate, StateT.bind_of_ok (copyWord_word hp hbp hpe)]
  rcases line.dropWord_eq with ⟨hrest, hafter⟩ | hrest
  · rw [hrest, hafter, ← hqe, Terminal.setStr_self]
    rfl
  · rw [hrest]
    have hbq : (s.setStr p line.word).blocks (.data q) = true := hbq
    refine (copyRest_eq hq hbq).trans ?_
    rw [Text.foldl_push, hqe, Text.empty_append]

end

/-! ## The state a line is executed in -/

/-- The line is in the history, its two parts in strings of their own. -/
def Terminal.submitted (s : Terminal) : Terminal :=
  { s with
    str := fun q =>
      if q = s.next + 1 then (s.str s.input).afterWord
      else if q = s.next then (s.str s.input).word
      else if q = s.next + 2 then s.str s.input
      else s.str q
    next := s.next + 3
    log := .alloc (s.next + 2) :: .alloc (s.next + 1) :: .alloc s.next :: s.log
    blocks := ((((s.mark (.data s.next)).mark (.data (s.next + 1))).mark (.data (s.next + 2))).grow .cmdhistory
      s.cmdhistory).blocks
    cmdhistory := addValue s.cmdhistory (s.next + 2) }

/-- What `parse_input` does once the line is split. -/
def Term.dispatch (table : List Command) (env : Env) (cmdString params : Ptr) : Term Unit := do
  let cmdptr ← Term.resolve table cmdString params
  Term.execute table env cmdString params cmdptr
  Term.stringFree cmdString
  Term.stringFree params
  modify newPrompt

variable {table : List Command} {env : Env}

/-- The same before the line is split. -/
def Terminal.recorded (s : Terminal) : Terminal :=
  { s.submitted with
    str := fun q =>
      if q = s.next + 2 then s.str s.input
      else if q = s.next + 1 then Text.empty
      else if q = s.next then Text.empty
      else s.str q }

theorem fresh_blocks (s : Terminal) : s.fresh.blocks (.data s.next) = true := Terminal.blocks_mark _ _

theorem recorded_eq {s : Terminal} :
    (s.fresh.fresh.fresh.update (s.next + 2) (·.append (s.str s.input))).addHistory (s.next + 2) = s.recorded := by
  have hne : s.next + 2 ≠ NULL := Nat.succ_ne_zero _
  have hempty : s.fresh.fresh.fresh.str (s.next + 2) = Text.empty := if_pos rfl
  have hmarked : s.fresh.fresh.fresh.blocks (.data (s.next + 2)) = true := fresh_blocks s.fresh.fresh
  rw [Terminal.update_eq hne hmarked, hempty, Text.empty_append]
  simp only [Terminal.recorded, Terminal.submitted, Terminal.fresh, Terminal.setStr, Terminal.alloc,
    Terminal.event, Terminal.mark, Terminal.grow, Terminal.addHistory, Terminal.mk.injEq, and_true, Nat.add_assoc,
    Nat.reduceAdd, and_self]
  refine ⟨?_, trivial, trivial, trivial, rfl⟩
  funext q
  split
  next => rfl
  next => rfl

theorem recorded_split {s : Terminal} :
    (s.recorded.setStr s.next (s.str s.input).word).setStr (s.next + 1) (s.str s.input).afterWord =
      s.submitted := by
  simp only [Terminal.recorded, Terminal.setStr, Terminal.submitted, Terminal.mk.injEq, and_true]
  funext q
  by_cases hparams : q = s.next + 1
  · rw [if_pos hparams, if_pos hparams]
  · by_cases hword : q = s.next
    · rw [if_neg hparams, if_pos hword, if_neg hparams, if_pos hword]
    · rw [if_neg hparams, if_neg hword, if_neg hparams, if_neg hword, if_neg hparams, if_neg hword]

/-! ## Any handlers -/

namespace Term

/-- `execute`, with `call` for the calls through the function pointers of the table. -/
def executeWith (call : Command → Text → Term Int) (env : Env) (cmdString params : Ptr) :
    Option Command → Term Unit
  | some cmdptr => do
    let returnStatus ← call cmdptr (← text params)
    printReturn env returnStatus cmdptr.name
  | none => do
    writeline (Text.lit "Cannot find file or command:")
    writeline (← text cmdString)

def dispatchWith (call : Command → Text → Term Int) (table : List Command) (env : Env)
    (cmdString params : Ptr) : Term Unit := do
  let cmdptr ← resolve table cmdString params
  executeWith call env cmdString params cmdptr
  stringFree cmdString
  stringFree params
  modify newPrompt

def parseInputWith (call : Command → Text → Term Int) (table : List Command) (env : Env) : Term Unit := do
  let s ← get
  if s.inputPtr ≤ 0 then modify newPrompt
  else do
    let cmdString ← stringNew
    let params ← stringNew
    let historystr ← stringNew
    let line ← text s.input
    stringAdd historystr line
    modify (·.addHistory historystr)
    separate cmdString params line
    dispatchWith call table env cmdString params

/-- The handlers of the command list. -/
def handlers (table : List Command) (env : Env) (c : Command) (params : Text) : Term Int :=
  c.call.run table env params

theorem executeWith_handlers {p q : Ptr} {cmdptr : Option Command} :
    executeWith (handlers table env) env p q cmdptr = execute table env p q cmdptr := by
  cases cmdptr <;> rfl

theorem dispatchWith_handlers {p q : Ptr} :
    dispatchWith (handlers table env) table env p q = dispatch table env p q := by
  simp only [dispatchWith, executeWith_handlers]
  rfl

theorem parseInputWith_handlers :
    parseInputWith (handlers table env) table env = parseInput table env := by
  simp only [parseInputWith, dispatchWith_handlers]
  rfl

end Term

/-- **A line is executed** in the state `submitted` describes. -/
theorem parseInputWith_eq {call : Command → Text → Term Int} {s : Terminal} (hip : 0 < s.inputPtr)
    (hin : s.input < s.next) : Term.parseInputWith call table env s =
      Term.dispatchWith call table env s.next (s.next + 1) s.submitted := by
  have hnext : s.next ≠ NULL := Nat.ne_zero_of_lt hin
  rw [Term.parseInputWith, StateT.bind_of_ok (Term.get_eq s), if_neg (not_le.mpr hip),
    StateT.bind_of_ok (stringNew_eq s), StateT.bind_of_ok (stringNew_eq _),
    StateT.bind_of_ok (stringNew_eq _)]
  have hline : s.fresh.fresh.fresh.str s.input = s.str s.input := by
    have hne : ∀ k, s.input ≠ s.next + k := fun k => Nat.ne_of_lt (Nat.lt_add_right k hin)
    exact (if_neg (hne 2)).trans ((if_neg (hne 1)).trans (if_neg (hne 0)))
  change (do Term.separate s.next (s.next + 1) (s.fresh.fresh.fresh.str s.input)
             Term.dispatchWith call table env s.next (s.next + 1))
    ((s.fresh.fresh.fresh.update (s.next + 2) (·.append (s.fresh.fresh.fresh.str s.input))).addHistory
      (s.next + 2)) = _
  have hne : ∀ {j k}, j ≠ k → s.next + j ≠ s.next + k := fun h he => h (Nat.add_left_cancel he)
  have hword : s.recorded.str s.next = Text.empty :=
    (if_neg (hne (j := 0) (by decide))).trans ((if_neg (hne (j := 0) (by decide))).trans (if_pos rfl))
  have hparams : s.recorded.str (s.next + 1) = Text.empty :=
    (if_neg (hne (by decide))).trans (if_pos rfl)
  have hfresh : ∀ {s : Terminal} {b}, s.blocks b = true → s.fresh.blocks b = true := Terminal.mark_kept
  have hmarked : ∀ {b}, s.fresh.fresh.fresh.blocks b = true → s.recorded.blocks b = true := Terminal.grow_kept
  have hbword : s.recorded.blocks (.data s.next) = true := hmarked (hfresh (hfresh (fresh_blocks s)))
  have hbparams : s.recorded.blocks (.data (s.next + 1)) = true := hmarked (hfresh (fresh_blocks s.fresh))
  rw [hline, recorded_eq, StateT.bind_of_ok (separate_eq hnext (Nat.succ_ne_zero _) (Nat.succ_ne_self _)
    hbword hbparams hword hparams), recorded_split]

theorem parseInput_eq {s : Terminal} (hip : 0 < s.inputPtr) (hin : s.input < s.next) :
    Term.parseInput table env s = Term.dispatch table env s.next (s.next + 1) s.submitted := by
  rw [← Term.parseInputWith_handlers, parseInputWith_eq hip hin, Term.dispatchWith_handlers]

theorem execute_some {s : Terminal} {p q : Ptr} {c : Command} : Term.execute table env p q (some c) s =
    (do Term.printReturn env (← c.call.run table env (s.str q)) c.name) s := rfl

/-! ## What a line keeps -/

/-! ### After a command -/

namespace Calm

variable {n : Ptr} {I : Terminal → Prop} {p q : Ptr}

theorem printReturn (h : Calm n I) {retstat : Int} {name : Text} :
    Preserves I (Term.printReturn env retstat name) :=
  .ite (fun _ => h.stringNew.bind fun _ hp => (h.stringSet hp).bind fun _ =>
    (h.stringAdd hp).bind fun _ => (h.stringAddnum hp).bind fun _ =>
      h.writeline.bind fun _ => text_preserves.bind fun _ =>
      h.writeline.bind fun _ => h.stringFree hp) fun _ => .pure

/-- What is left to do after a command. -/
theorem finish (h : Calm n I) (hp : n ≤ p) (hq : n ≤ q) :
    Triple I (do Term.stringFree p; Term.stringFree q; modify newPrompt)
      fun _ s => ∃ s₁, I s₁ ∧ s = newPrompt s₁ :=
  (h.stringFree hp).andThen fun _ => (h.stringFree hq).andThen fun _ => .modify fun s hs => ⟨s, hs, rfl⟩

end Calm

/-- After `cprompt t`. -/
def Terminal.setPrompt (s : Terminal) (t : Text) : Terminal :=
  let s := s.update s.promptString fun _ => t
  { s with promptStringLength := (s.str s.promptString).length }

/-- `I` also survives a new prompt string. -/
structure PromptStable (n : Ptr) (D : Ptr → Prop) (I : Terminal → Prop) : Prop extends EventStable n D I where
  setPrompt ⦃s : Terminal⦄ ⦃t : Text⦄ : t.chars ≠ [] → I s → I (s.setPrompt t)

namespace PromptStable

variable {n : Ptr} {D : Ptr → Prop} {I : Terminal → Prop} {p q : Ptr} {params : Text} {c : Command}

theorem cprompt (h : PromptStable n D I) : Preserves I (Term.cprompt params) := by
  refine .ite (fun hne => ?_) fun _ => h.quiet.writeline.bind fun _ => .pure
  intro s r s' hs hx
  cases hx
  exact ⟨trivial, h.setPrompt hne hs⟩

theorem run (h : PromptStable n D I) {c : Handler}
    (halias : c = .aliasCmd → Preserves I (Term.aliasCmd params)) :
    Preserves I (c.run table env params) := by
  by_cases hc : c = .aliasCmd
  · subst hc
    exact halias rfl
  · by_cases hprompt : c = .cprompt
    · subst hprompt
      exact h.cprompt
    · exact h.toStable.run hc hprompt

theorem separate (h : PromptStable n D I) (hp : n ≤ p) (hq : n ≤ q) {line : Text} :
    Preserves I (Term.separate p q line) := by
  refine (h.quiet.copyWord hp).bind fun rest => ?_
  cases rest with
  | nil => exact .pure
  | cons c rest => exact h.quiet.copyRest hq

theorem resolve (h : PromptStable n D I) (hp : n ≤ p) (hq : n ≤ q) : Preserves I (Term.resolve table p q) := by
  refine text_preserves.bind fun cmd => ?_
  split
  next => exact .pure
  next =>
    refine Yields.bind h.findAlias fun a ha => ?_
    cases a with
    | none => exact Preserves.pure
    | some aliasptr =>
      exact (h.derefAlias (ha _ rfl)).bind fun _ => text_preserves.bind fun _ =>
        (h.quiet.stringClear hp).bind fun _ => (h.quiet.stringClear hq).bind fun _ =>
          (h.separate hp hq).bind fun _ => text_preserves.bind fun _ => .pure

theorem execute (h : PromptStable n D I) (halias : ∀ params, Preserves I (Term.aliasCmd params))
    {cmdptr : Option Command} : Preserves I (Term.execute table env p q cmdptr) := by
  cases cmdptr with
  | some c =>
    exact text_preserves.bind fun _ => (h.run fun _ => halias _).bind fun _ => h.printReturn
  | none => exact h.quiet.writeline.bind fun _ => text_preserves.bind fun _ => h.quiet.writeline

/-- A command executed from a state that is known, with what it is given there. -/
theorem executed (h : PromptStable n D I) (hp : n ≤ p) (hq : n ≤ q) {s s' : Terminal}
    {cmdptr : Option Command}
    (halias : ∀ c, cmdptr = some c → c.call = .aliasCmd → Preserves I (Term.aliasCmd (s.str q)))
    (hs : I s)
    (hx : (do Term.execute table env p q cmdptr
              Term.stringFree p
              Term.stringFree q
              modify newPrompt) s = .ok ((), s')) : ∃ s₁, I s₁ ∧ s' = newPrompt s₁ := by
  obtain ⟨_, s₁, hx, hfinish⟩ := StateT.bind_ok_iff.mp hx
  have hs₁ : I s₁ := by
    cases cmdptr with
    | none =>
      have hkeeps : Preserves I (Term.execute table env p q none) :=
        h.quiet.writeline.bind fun _ => text_preserves.bind fun _ => h.quiet.writeline
      exact (hkeeps hs hx).2
    | some c =>
      rw [execute_some] at hx
      have hrun : Preserves I (c.call.run table env (s.str q)) := h.run (halias c rfl)
      exact (hrun.bind (fun _ => h.printReturn) hs hx).2
  exact h.finish hp hq hs₁ hfinish

end PromptStable

/-- `I` also survives a new prompt string and a new history. -/
structure LineStable (n : Ptr) (D : Ptr → Prop) (I : Terminal → Prop) : Prop extends EventStable n D I where
  setPrompt ⦃s : Terminal⦄ ⦃t : Text⦄ : t.chars ≠ [] → I s → I (s.setPrompt t)
  addHistory ⦃s : Terminal⦄ {p : Ptr} : I s → I (s.addHistory p)

namespace LineStable

variable {n : Ptr} {D : Ptr → Prop} {I : Terminal → Prop}

theorem prompt (h : LineStable n D I) : PromptStable n D I :=
  { h.toEventStable with setPrompt := h.setPrompt }

/-- **A submitted line** keeps `I` if `alias` does, and ends in a new prompt. -/
theorem parseInput (h : LineStable n D I) (halias : ∀ params, Preserves I (Term.aliasCmd params)) :
    Triple I (Term.parseInput table env) fun _ s => ∃ s₁, I s₁ ∧ s = newPrompt s₁ := by
  refine Yields.get.andThen fun s _ => ?_
  split
  next => exact .modify fun s hs => ⟨s, hs, rfl⟩
  next =>
    refine h.stringNew.andThen fun p hp => h.stringNew.andThen fun q hq => h.stringNew.andThen fun r hr => ?_
    refine text_preserves.andThen fun _ => (h.quiet.stringAdd hr).andThen fun _ => ?_
    refine (Preserves.modify fun _ hs => h.addHistory hs).andThen fun _ => ?_
    exact (h.prompt.separate hp hq).andThen fun _ => (h.prompt.resolve hp hq).andThen fun _ =>
      (h.prompt.execute halias).andThen fun _ => h.prompt.finish hp hq

end LineStable

/-! ## What a key does -/

section

variable {table : List Command} {env : Env} {s s' : Terminal} {k : Key}

/-- Without a line Enter only opens a new prompt. -/
theorem parseInput_blank (h : ¬0 < s.inputPtr) : Term.parseInput table env s = .ok ((), newPrompt s) := by
  rw [Term.parseInput, StateT.bind_of_ok (Term.get_eq s), if_pos (not_lt.mp h)]
  rfl

/-- Enter submits the line. -/
theorem KeyStep.enter (hk : KeyStep s k s') (hchar : k.char = 0x0A) :
    Term.parseInput commands k.env s = .ok ((), s') := by
  rwa [KeyStep, Term.handleInput, if_pos hchar] at hk

/-- Any other key edits the input: it puts a text there and moves the cursor. -/
theorem KeyStep.edits (hk : KeyStep s k s') (hchar : k.char ≠ 0x0A) : ∃ t b fb x i,
    s' = { s.setStr s.input t with blocks := b, framebuffer := fb, cursorX := x, inputPtr := i } := by
  rw [KeyStep, Term.handleInput, if_neg hchar] at hk
  split at hk
  next =>
    cases hk
    simp only [backspace]
    split <;> split
    · exact ⟨_, s.blocks, _, _, _, rfl⟩
    · exact ⟨s.str s.input, s.blocks, s.framebuffer, _, s.inputPtr, by rw [Terminal.setStr_self]⟩
    · exact ⟨_, s.blocks, _, _, _, rfl⟩
    · exact ⟨s.str s.input, s.blocks, s.framebuffer, _, s.inputPtr, by rw [Terminal.setStr_self]⟩
  next =>
    cases hk
    simp only [addText]
    split
    · exact ⟨_, _, s.framebuffer, _, _, rfl⟩
    · exact ⟨s.str s.input, s.blocks, s.framebuffer, s.cursorX, s.inputPtr, by rw [Terminal.setStr_self]⟩

end

end Ssmos

/-
The command history over whole sessions: its entries are the lines submitted,
in order, as they were when they were submitted.

What keeps an entry as it is: its string is its own, apart from the input,
which is edited in place and emptied by every new prompt, and from the prompt
string, which `cprompt` rewrites.
-/
import Ssmos.Dispatch

namespace Ssmos

/-! ## Sessions -/

/-- The line that Enter submits: none if the line is empty. -/
def submittedLine (s : Terminal) (k : Key) : Option Text :=
  if k.char = 0x0A ∧ (s.str s.input).chars ≠ [] then some (s.str s.input) else none

/-- The lines a session submits, in order. -/
def submissions : Terminal → List Key → List Text
  | _, [] => []
  | s, k :: ks =>
    match k.step? s with
    | none => []
    | some s' => (submittedLine s k).toList ++ submissions s' ks

/-- The texts of the history, read from its first node. Until a line is
submitted that is a node without a value. -/
def Terminal.history (s : Terminal) : List Text :=
  if s.cmdhistory = [NULL] then [] else s.cmdhistory.map s.str

theorem submissions_cons {s s' : Terminal} {k : Key} {ks : List Key} (h : KeyStep s k s') :
    submissions s (k :: ks) = (submittedLine s k).toList ++ submissions s' ks := by
  rw [submissions, Key.step?_eq_some.mpr h]

/-! ## What a command keeps -/

/-- The history is `h`, with the texts `f`; all below `n`. -/
structure Kept (n : Ptr) (h : List Ptr) (f : Ptr → Text) (s : Terminal) : Prop where
  le_next : n ≤ s.next
  input_notMem : s.input ∉ h
  prompt_notMem : s.promptString ∉ h
  list : s.cmdhistory = h
  lt : ∀ p ∈ h, p < n
  text : ∀ p ∈ h, s.str p = f p

variable {n : Ptr} {h : List Ptr} {f : Ptr → Text} {s s' : Terminal}

/-- A string that is not in the history may change. -/
theorem Kept.setStr {p : Ptr} {t : Text} (hk : Kept n h f s) (hp : p ∉ h) : Kept n h f (s.setStr p t) :=
  { hk with text := fun q hq => (if_neg (ne_of_mem_of_not_mem hq hp)).trans (hk.text q hq) }

theorem Kept.newPrompt (hk : Kept n h f s) : Kept n h f (newPrompt s) := by
  obtain ⟨fb, hfb⟩ := newPrompt_eq s
  rw [hfb]
  exact { hk.setStr (t := Text.empty) hk.input_notMem with }

theorem Kept.aliasStable (n : Ptr) (h : List Ptr) (f : Ptr → Text) :
    AliasStable n (fun _ => True) (Kept n h f) where
  le_next _ hk := hk.le_next
  alloc _ hk := { hk with le_next := Nat.le_succ_of_le hk.le_next }
  setStr _ p _ hp hk := hk.setStr fun hmem => Nat.not_lt.mpr hp (hk.lt p hmem)
  mark _ _ _ hk := { hk with }
  free _ _ _ hk := { hk with }
  newPrompt _ hk := hk.newPrompt
  screen _ _ _ _ hk := { hk with }
  home _ _ hk := { hk with }
  interrupts _ _ hk := { hk with }
  endterm _ hk := { hk with }
  freeAny _ _ hk := { hk with }
  deref _ _ _ hk := { hk with }
  guarded _ _ _ _ _ := trivial
  entries _ _ _ _ := trivial
  setStruct _ _ _ hk := { hk with }
  addAlias _ _ _ hk := { hk with }

theorem Kept.promptStable (n : Ptr) (h : List Ptr) (f : Ptr → Text) :
    PromptStable n (fun _ => True) (Kept n h f) :=
  { (Kept.aliasStable n h f).toEventStable with
    setPrompt := fun _ _ _ hk => by
      unfold Terminal.setPrompt Terminal.update
      split
      next => exact { hk with }
      next => exact { hk.setStr hk.prompt_notMem with } }

/-- What is left to do once the command is found keeps the history. -/
theorem Kept.execute {table : List Command} {env : Env} {p q : Ptr} {cmdptr : Option Command} :
    Triple (Kept n h f) (do
      Term.execute table env p q cmdptr
      Term.stringFree p
      Term.stringFree q
      modify Ssmos.newPrompt) fun _ => Kept n h f := by
  have hstable := Kept.promptStable n h f
  have halias : ∀ params, Preserves (Kept n h f) (Term.aliasCmd params) :=
    fun _ => (Kept.aliasStable n h f).aliasCmd
  exact (hstable.execute halias).andThen fun _ => hstable.releaseAny.andThen fun _ =>
    hstable.releaseAny.andThen fun _ => .modify fun _ hk => hk.newPrompt

/-! ## Keys -/

/-- What holds between keys: the history has the values `es`, strings of its own. -/
structure Recorded (es : List Ptr) (s : Terminal) : Prop where
  list : s.cmdhistory = [NULL] ∧ es = [] ∨ s.cmdhistory = es ∧ es ≠ []
  notNull : NULL ∉ es
  input_notMem : s.input ∉ es
  prompt_notMem : s.promptString ∉ es
  lt : ∀ p ∈ es, p < s.next
  nodup : es.Nodup

variable {es : List Ptr}

theorem Recorded.history_eq (hr : Recorded es s) : s.history = es.map s.str := by
  unfold Terminal.history
  rcases hr.list with ⟨hl, rfl⟩ | ⟨hl, -⟩
  · rw [if_pos hl]
    rfl
  · have hne : s.cmdhistory ≠ [NULL] := fun he => hr.notNull (by rw [← hl, he]; exact List.mem_cons_self)
    rw [if_neg hne, hl]

/-- The first value is stored in the node there is, the others in nodes of their own. -/
theorem Recorded.addValue_eq (hr : Recorded es s) (p : Ptr) : addValue s.cmdhistory p = es ++ [p] := by
  rcases hr.list with ⟨hl, rfl⟩ | ⟨hl, hne⟩
  · rw [hl]
    rfl
  · rw [hl]
    exact Ssmos.addValue_eq hne hr.notNull

/-- **A submitted line** is appended to the history, and nothing else changes in it. -/
theorem Recorded.parseInput {table : List Command} {env : Env} (hr : Recorded es s)
    (ht : Tabled s.next s.ledger) (hprompt : s.promptString < s.next) (hip : 0 < s.inputPtr)
    (hx : Term.parseInput table env s = .ok ((), s')) :
    Recorded (es ++ [s.next + 2]) s' ∧ s'.str (s.next + 2) = s.str s.input ∧
      ∀ q ∈ es, s'.str q = s.str q := by
  obtain ⟨s₁, hsplit, hx⟩ := parseInput_dispatched ht hip hx
  have hline := hsplit.recorded
  have hold : ∀ q ∈ es, s₁.str q = s.str q := fun q hq => hsplit.old (hr.lt q hq)
  obtain ⟨vs, str, rfl, -⟩ := hsplit
  -- The line's string and the older ones are not the command's.
  have hkept : Kept (s.next + 3) (es ++ [s.next + 2]) str { s.submitted.derefs vs with str := str } :=
    { le_next := le_refl _
      input_notMem := by simpa using ⟨hr.input_notMem, ne_next_add ht.input_lt 2⟩
      prompt_notMem := by simpa using ⟨hr.prompt_notMem, ne_next_add hprompt 2⟩
      list := hr.addValue_eq _
      lt := fun p hp => by
        rcases List.mem_append.mp hp with hp | hp
        · exact Nat.lt_add_right 3 (hr.lt p hp)
        · rw [List.mem_singleton.mp hp]
          exact Nat.lt_succ_self _
      text := fun _ _ => rfl }
  have hk := Kept.execute hkept hx
  refine ⟨?_, (hk.text _ (by simp)).trans hline, fun q hq => (hk.text q (by simp [hq])).trans (hold q hq)⟩
  exact
    { list := .inr ⟨hk.list, by simp⟩
      notNull := by simpa using ⟨hr.notNull, Ne.symm (Nat.succ_ne_zero _)⟩
      input_notMem := hk.input_notMem
      prompt_notMem := hk.prompt_notMem
      lt := fun p hp => Nat.lt_of_lt_of_le (hk.lt p hp) hk.le_next
      nodup := by
        rw [List.nodup_append]
        refine ⟨hr.nodup, by simp, fun p hp q hq => ?_⟩
        rw [List.mem_singleton.mp hq]
        exact ne_next_add (hr.lt p hp) 2 }

/-! ## Sessions -/

/-- What a session's state keeps between keys, the history among it. -/
structure Session (es : List Ptr) (s : Terminal) : Prop where
  ready : Ready s.next s
  editor : LineEditor s
  tabled : Tabled s.next s.ledger
  recorded : Recorded es s

/-- Any key but Enter edits the input, which is no entry. -/
theorem Recorded.edit {k : Key} (hr : Recorded es s) (hchar : k.char ≠ 0x0A) (hk : KeyStep s k s') :
    Recorded es s' ∧ ∀ p ∈ es, s'.str p = s.str p := by
  obtain ⟨t, b, fb, x, i, rfl⟩ := hk.edits hchar
  exact ⟨{ hr with }, fun p hp => if_neg (ne_of_mem_of_not_mem hp hr.input_notMem)⟩

/-- The editor counts the characters of the line. -/
theorem LineEditor.chars_eq_nil (h : LineEditor s) : (s.str s.input).chars = [] ↔ ¬0 < s.inputPtr := by
  rw [← h.length, Text.length, ← List.length_eq_zero_iff]
  omega

theorem Recorded.newPrompt (hr : Recorded es s) :
    Recorded es (newPrompt s) ∧ ∀ p ∈ es, (Ssmos.newPrompt s).str p = s.str p := by
  obtain ⟨fb, hfb⟩ := newPrompt_eq s
  rw [hfb]
  exact ⟨{ hr with }, fun p hp => if_neg (ne_of_mem_of_not_mem hp hr.input_notMem)⟩

/-- **One key** appends the line it submits to the history, if it submits one. -/
theorem Recorded.keyStep {k : Key} (hr : Recorded es s) (hready : Ready s.next s) (he : LineEditor s)
    (ht : Tabled s.next s.ledger) (hk : KeyStep s k s') :
    ∃ ps, Recorded (es ++ ps) s' ∧ (∀ p ∈ es, s'.str p = s.str p) ∧
      ps.map s'.str = (submittedLine s k).toList := by
  by_cases hchar : k.char = 0x0A
  · have hx := hk.enter hchar
    by_cases hip : 0 < s.inputPtr
    · obtain ⟨hr', hline, hold⟩ := hr.parseInput ht hready.prompt_lt hip hx
      refine ⟨[s.next + 2], hr', hold, ?_⟩
      rw [submittedLine, if_pos ⟨hchar, fun hnil => he.chars_eq_nil.mp hnil hip⟩, ← hline]
      rfl
    · rw [parseInput_blank hip] at hx
      cases hx
      obtain ⟨hr', hold⟩ := hr.newPrompt
      refine ⟨[], by rwa [List.append_nil], hold, ?_⟩
      rw [submittedLine, if_neg fun hx => hx.2 (he.chars_eq_nil.mpr hip)]
      rfl
  · obtain ⟨hr', hold⟩ := hr.edit hchar hk
    refine ⟨[], by rwa [List.append_nil], hold, ?_⟩
    rw [submittedLine, if_neg fun hx => hchar hx.1]
    rfl

theorem Session.keyStep {k : Key} (hs : Session es s) (hk : KeyStep s k s') :
    ∃ es', Session es' s' ∧ s'.history = s.history ++ (submittedLine s k).toList := by
  obtain ⟨ps, hr, hold, hnew⟩ := hs.recorded.keyStep hs.ready hs.editor hs.tabled hk
  obtain ⟨hready, he⟩ := handleInput_lineEditor hs.ready hs.editor hk
  refine ⟨es ++ ps, ⟨hready, he, keyStep_tabled hs.tabled hk, hr⟩, ?_⟩
  rw [hr.history_eq, hs.recorded.history_eq, List.map_append, hnew, List.map_congr_left hold]

theorem Session.run {keys : List Key} (hs : Session es s) (hrun : Runs KeyStep s keys s') :
    ∃ es', Session es' s' ∧ s'.history = s.history ++ submissions s keys := by
  induction hrun generalizing es with
  | nil => exact ⟨es, hs, (List.append_nil _).symm⟩
  | cons hk _ ih =>
    obtain ⟨es₁, hs₁, h₁⟩ := hs.keyStep hk
    obtain ⟨es', hs', h'⟩ := ih hs₁
    exact ⟨es', hs', by rw [h', h₁, submissions_cons hk, List.append_assoc]⟩

theorem initTerminal_session (s : Terminal) : Session [] (initTerminal s) where
  ready := initTerminal_ready.1
  editor := initTerminal_ready.2
  tabled := initTerminal_tabled s
  recorded :=
    { list := .inl ⟨rfl, rfl⟩
      notNull := List.not_mem_nil
      input_notMem := List.not_mem_nil
      prompt_notMem := List.not_mem_nil
      lt := nofun
      nodup := List.nodup_nil }

/-- **The history is the session**: after every sequence of keys whose commands
return its entries are the lines submitted, in order and as they were then,
each in a string of its own. -/
theorem history_is_session {s₀ s : Terminal} {keys : List Key}
    (hrun : Runs KeyStep (initTerminal s₀) keys s) :
    s.history = submissions (initTerminal s₀) keys ∧
      (s.cmdhistory = [NULL] ∨ NULL ∉ s.cmdhistory) ∧ s.cmdhistory.Nodup := by
  obtain ⟨es, hs, h⟩ := (initTerminal_session s₀).run hrun
  have hstart : (initTerminal s₀).history = [] := (initTerminal_session s₀).recorded.history_eq
  rw [hstart, List.nil_append] at h
  refine ⟨h, ?_⟩
  rcases hs.recorded.list with ⟨hl, -⟩ | ⟨hl, -⟩
  · rw [hl]
    exact ⟨.inl rfl, by simp⟩
  · rw [hl]
    exact ⟨.inr hs.recorded.notNull, hs.recorded.nodup⟩

/-- Lines that are edited, empty, unknown, an alias, a prompt and one not entered. -/
theorem history_is_session_edited : ∃ s, Runs KeyStep (initTerminal blank)
    (typed "ecx\x08ho a\n\n?\nalias l ls\nl\ncprompt $\ncl") s ∧
    s.history = submissions (initTerminal blank)
      (typed "ecx\x08ho a\n\n?\nalias l ls\nl\ncprompt $\ncl") ∧
    (s.cmdhistory = [NULL] ∨ NULL ∉ s.cmdhistory) ∧ s.cmdhistory.Nodup := by
  have h : (exec (fun s k => Key.step? k s) (initTerminal blank)
      (typed "ecx\x08ho a\n\n?\nalias l ls\nl\ncprompt $\ncl")).isSome := by
    decide +kernel
  obtain ⟨s, hs⟩ := Option.isSome_iff_exists.mp h
  have hrun := (exec_eq_some Key.step?_eq_some).mp hs
  exact ⟨s, hrun, history_is_session hrun⟩

end Ssmos

/-
The command line refines the shell: along every sequence of keys whose handlers
return, what the terminal keeps is what `Shell.key` makes of the characters.
So neither the devices, the clock and the heap that a session sees, nor the
screen it draws, have any part in it.
-/
import Ssmos.Shell
import Ssmos.AliasMap

namespace Ssmos

/-! ## The settings of a terminal -/

/-- The names and commands of the alias table, in its order. -/
def Terminal.glossary (s : Terminal) : List (Text × Text) :=
  if s.aliases = [NULL] then [] else s.aliases.map fun p => (s.nameOf p, s.commandOf p)

structure Has (s : Terminal) (g : Settings) : Prop where
  prompt : s.str s.promptString = g.prompt
  color : s.terminalColor = g.color
  aliases : s.glossary = g.aliases.entries
  ended : s.endterm = g.ended

/-- The objects the settings are kept in are in use, and apart from the input;
no alias shares the prompt's string. `nullName` is what `NULL` has as a name. -/
structure Rooted (nullName : Text) (s : Terminal) : Prop where
  input_lt : s.input < s.next
  input_ne : s.input ≠ s.promptString
  prompt_lt : s.promptString < s.next
  prompt_ne_null : s.promptString ≠ NULL
  table : s.aliases = [NULL] ∨ AliasTable s
  name_ne : ∀ p ∈ s.aliases, p ≠ NULL → (s.struct p).name ≠ s.promptString
  command_ne : ∀ p ∈ s.aliases, p ≠ NULL → (s.struct p).command ≠ s.promptString
  null_lt : (s.struct NULL).name < s.next
  null_ne_input : (s.struct NULL).name ≠ s.input
  null_ne_prompt : (s.struct NULL).name ≠ s.promptString
  null_name : s.nameOf NULL = nullName

/-! ## What leaves the settings alone -/

/-- Every object, the prompt, the color and the end are as they were. -/
structure Rests (s₀ s : Terminal) : Prop extends Entries s₀ s where
  promptString : s.promptString = s₀.promptString
  color : s.terminalColor = s₀.terminalColor
  ended : s.endterm = s₀.endterm

theorem Rests.refl (s : Terminal) : Rests s s :=
  { Entries.refl s with promptString := rfl, color := rfl, ended := rfl }

theorem Rests.eventCalm (s₀ : Terminal) : EventCalm s₀.next (fun _ => True) (Rests s₀) where
  le_next _ h := h.le_next
  alloc _ h := { h with toEntries := (Entries.stable s₀).alloc h.toEntries }
  setStr _ _ _ hp h := { h with toEntries := (Entries.stable s₀).setStr hp h.toEntries }
  mark _ _ hb h := { h with toEntries := (Entries.stable s₀).mark hb h.toEntries }
  free _ _ hp h := { h with toEntries := (Entries.stable s₀).free hp h.toEntries }
  newPrompt s h := by
    have he := (Entries.stable s₀).newPrompt h.toEntries
    obtain ⟨fb, hfb⟩ := newPrompt_eq s
    rw [hfb] at he ⊢
    exact { he with promptString := h.promptString, color := h.color, ended := h.ended }
  draw _ _ h := { h with }
  home _ _ h := { h with }
  interrupts _ _ h := { h with }
  freeAny _ _ h := { h with }
  deref _ _ _ h := { h with }
  guarded _ _ _ _ _ := trivial

section

variable {nullName : Text} {g : Settings} {s₀ s : Terminal}

theorem Entries.rooted (hr : Rooted nullName s₀) (he : Entries s₀ s) (hp : s.promptString = s₀.promptString) :
    Rooted nullName s where
  input_lt := he.input ▸ Nat.lt_of_lt_of_le hr.input_lt he.le_next
  input_ne := by rw [he.input, hp]; exact hr.input_ne
  prompt_lt := hp ▸ Nat.lt_of_lt_of_le hr.prompt_lt he.le_next
  prompt_ne_null := hp ▸ hr.prompt_ne_null
  table := hr.table.imp (fun hal => he.aliases.trans hal) fun ht => he.table ht
  name_ne := by rw [he.struct, he.aliases, hp]; exact hr.name_ne
  command_ne := by rw [he.struct, he.aliases, hp]; exact hr.command_ne
  null_lt := he.struct ▸ Nat.lt_of_lt_of_le hr.null_lt he.le_next
  null_ne_input := by rw [he.struct, he.input]; exact hr.null_ne_input
  null_ne_prompt := by rw [he.struct, hp]; exact hr.null_ne_prompt
  null_name := by
    rw [Terminal.nameOf, he.struct, he.str _ hr.null_lt hr.null_ne_input]
    exact hr.null_name

theorem Entries.glossary (hr : Rooted nullName s₀) (he : Entries s₀ s) : s.glossary = s₀.glossary := by
  unfold Terminal.glossary
  rw [he.aliases]
  split
  next => rfl
  next hal =>
    have ht : AliasTable s₀ := hr.table.resolve_left hal
    exact List.map_congr_left fun p hp => by rw [he.nameOf ht hp, he.commandOf ht hp]

theorem Rests.has (hr : Rooted nullName s₀) (hg : Has s₀ g) (h : Rests s₀ s) :
    Rooted nullName s ∧ Has s g :=
  ⟨h.toEntries.rooted hr h.promptString,
    { prompt := by
        rw [h.promptString, h.str _ hr.prompt_lt (Ne.symm hr.input_ne)]
        exact hg.prompt
      color := h.color.trans hg.color
      aliases := (h.glossary hr).trans hg.aliases
      ended := h.ended.trans hg.ended }⟩

/-! ## Definitions -/

/-- What a definition leaves alone. -/
structure Defined (s s' : Terminal) : Prop where
  le_next : s.next ≤ s'.next
  input : s'.input = s.input
  promptString : s'.promptString = s.promptString
  color : s'.terminalColor = s.terminalColor
  ended : s'.endterm = s.endterm
  str : ∀ q < s.next, s'.str q = s.str q
  null : (s'.struct NULL).name = (s.struct NULL).name

variable {s' s₁ : Terminal} {params name cmd line : Text} {vs : List Ptr} {p : Ptr}

theorem Defined.overwritten (s : Terminal) (name cmd : Text) (vs : List Ptr) (p : Ptr) :
    Defined s ((s.prepared name cmd).overwritten vs p s.next (s.next + 1)) := by
  have ho := AliasTable.overwritten_overwrote s vs p name cmd
  refine ⟨ho.next ▸ Nat.le_add_right _ 2, ho.input, ?_, ?_, ?_, ho.str, ho.name NULL⟩
  all_goals
    simp only [Terminal.overwritten, Terminal.release, Terminal.event, Terminal.setStruct, Terminal.derefs]
    split <;> split <;> rfl

theorem Defined.appended (s : Terminal) (name cmd : Text) (vs : List Ptr) :
    Defined s ((s.prepared name cmd).appended vs s.next (s.next + 1)) where
  le_next := Nat.le_add_right _ 3
  input := rfl
  promptString := rfl
  color := rfl
  ended := rfl
  str _ hq := AliasTable.prepared_str s hq
  null := by
    have hne : NULL ≠ s.next + 2 := Ne.symm (Nat.succ_ne_zero _)
    change (if NULL = s.next + 2 then { name := s.next, command := s.next + 1 } else s.struct NULL).name = _
    rw [if_neg hne]

theorem Defined.rooted (hr : Rooted nullName s) (hd : Defined s s')
    (htable : s'.aliases = [NULL] ∨ AliasTable s')
    (hname : ∀ p ∈ s'.aliases, p ≠ NULL → (s'.struct p).name ≠ s.promptString)
    (hcommand : ∀ p ∈ s'.aliases, p ≠ NULL → (s'.struct p).command ≠ s.promptString) :
    Rooted nullName s' where
  input_lt := hd.input ▸ Nat.lt_of_lt_of_le hr.input_lt hd.le_next
  input_ne := by rw [hd.input, hd.promptString]; exact hr.input_ne
  prompt_lt := hd.promptString ▸ Nat.lt_of_lt_of_le hr.prompt_lt hd.le_next
  prompt_ne_null := hd.promptString ▸ hr.prompt_ne_null
  table := htable
  name_ne := hd.promptString ▸ hname
  command_ne := hd.promptString ▸ hcommand
  null_lt := hd.null ▸ Nat.lt_of_lt_of_le hr.null_lt hd.le_next
  null_ne_input := by rw [hd.null, hd.input]; exact hr.null_ne_input
  null_ne_prompt := by rw [hd.null, hd.promptString]; exact hr.null_ne_prompt
  null_name := by
    rw [Terminal.nameOf, hd.null, hd.str _ hr.null_lt]
    exact hr.null_name

theorem Defined.has (hr : Rooted nullName s) (hg : Has s g) (hd : Defined s s') {aliases : Book Text Text}
    (hal : s'.glossary = aliases.entries) : Has s' { g with aliases := aliases } where
  prompt := by
    rw [hd.promptString, hd.str _ hr.prompt_lt]
    exact hg.prompt
  color := hd.color.trans hg.color
  aliases := hal
  ended := hd.ended.trans hg.ended

theorem AliasTable.glossary_eq (h : AliasTable s) :
    s.glossary = s.aliases.map fun p => (s.nameOf p, s.commandOf p) :=
  if_neg fun hal => h.ne_null (by rw [hal]; exact List.mem_cons_self)

theorem AliasTable.glossary_ne_nil (h : AliasTable s) : s.glossary ≠ [] := by
  rw [h.glossary_eq]
  simpa using h.ne_nil

theorem AliasTable.glossary_keys (h : AliasTable s) : s.glossary.map Prod.fst = s.aliases.map s.nameOf := by
  rw [h.glossary_eq, List.map_map]
  rfl

/-- Overwriting gives the entry with the name the new command. -/
theorem AliasTable.Overwrote.glossary (h : AliasTable s) (ho : Overwrote s p cmd s')
    (hfind : lookup s.nameOf s.aliases name = some p) : s'.glossary = assign s.glossary name cmd := by
  have hp := lookup_mem hfind
  have hname : s.nameOf p = name := lookup_key hfind
  have hkey : name ∈ s.glossary.map Prod.fst := by
    rw [h.glossary_keys, ← hname]
    exact List.mem_map_of_mem hp
  rw [assign, if_pos hkey, (ho.table h).glossary_eq, h.glossary_eq, List.map_map, ho.aliases]
  refine List.map_congr_left fun q hq => ?_
  rw [ho.nameOf h hq]
  by_cases hqp : q = p
  · rw [hqp, ho.commandOf_same, Function.comp_apply, if_pos hname]
  · have hne : s.nameOf q ≠ name := fun he => hqp (h.names q hq p hp (he.trans hname.symm))
    rw [ho.commandOf_ne h hq hqp, Function.comp_apply, if_neg hne]

/-- A new name is the last entry. -/
theorem AliasTable.Appended.glossary (h : AliasTable s) (ha : Appended s name cmd s')
    (hfind : lookup s.nameOf s.aliases name = none) : s'.glossary = assign s.glossary name cmd := by
  have hkey : name ∉ s.glossary.map Prod.fst := by
    rw [h.glossary_keys, List.mem_map]
    rintro ⟨q, hq, he⟩
    exact lookup_eq_none.mp hfind q hq he
  rw [assign, if_neg hkey, (ha.table h hfind).glossary_eq, h.glossary_eq, ha.aliases, List.map_append,
    List.map_singleton, ha.nameOf_new, ha.commandOf_new]
  congr 1
  exact List.map_congr_left fun q hq => by rw [ha.nameOf h hq, ha.commandOf h hq]

theorem Has.entries_of_empty (hg : Has s g) (hal : s.aliases = [NULL]) : g.aliases.entries = [] :=
  hg.aliases.symm.trans (if_pos hal)

/-- A definition in a table with an alias. -/
theorem AliasTable.define_settings (h : AliasTable s) (hr : Rooted nullName s) (hg : Has s g) {r : Int}
    (hd : Defines params name cmd) (hx : Term.aliasCmd params s = .ok (r, s')) :
    Rooted nullName s' ∧ Has s' (g.define nullName name cmd) := by
  have hdefine : g.define nullName name cmd = { g with aliases := g.aliases.define name cmd } :=
    if_neg fun hx => h.glossary_ne_nil (hg.aliases.trans hx.1)
  have hfresh : ∀ k, s.next + k ≠ s.promptString := fun k =>
    Nat.ne_of_gt (Nat.lt_add_right k hr.prompt_lt)
  obtain ⟨vs, -, hcall⟩ := h.aliasCmd_eq hd
  cases hx.symm.trans hcall
  rw [hdefine]
  cases hfind : lookup s.nameOf s.aliases name with
  | some p =>
    have ho := overwritten_overwrote s vs p name cmd
    have hdef := Defined.overwritten s name cmd vs p
    refine ⟨hdef.rooted hr (.inr (ho.table h)) (fun q hq hne => ?_) fun q hq hne => ?_,
      hdef.has hr hg ((ho.glossary h hfind).trans (by rw [hg.aliases]; rfl))⟩
    · rw [ho.name]
      exact hr.name_ne q (ho.aliases ▸ hq) hne
    · by_cases hqp : q = p
      · rw [hqp, ho.command]
        exact hfresh 1
      · rw [ho.others q hqp]
        exact hr.command_ne q (ho.aliases ▸ hq) hne
  | none =>
    have ha := h.appended_appended vs name cmd
    have hdef := Defined.appended s name cmd vs
    have hmem : ∀ q ∈ ((s.prepared name cmd).appended vs s.next (s.next + 1)).aliases,
        q ∈ s.aliases ∨ q = s.next + 2 := fun q hq => by
      rw [ha.aliases] at hq
      simpa using hq
    refine ⟨hdef.rooted hr (.inr (ha.table h hfind)) (fun q hq hne => ?_) fun q hq hne => ?_,
      hdef.has hr hg ((ha.glossary h hfind).trans (by rw [hg.aliases]; rfl))⟩
    all_goals rcases hmem q hq with hq | rfl
    · rw [ha.others q (h.struct_lt q hq)]
      exact hr.name_ne q hq hne
    · rw [ha.struct]
      exact hfresh 0
    · rw [ha.others q (h.struct_lt q hq)]
      exact hr.command_ne q hq hne
    · rw [ha.struct]
      exact hfresh 1

/-- The search of the empty table finds `NULL`: no alias is made. -/
theorem Rooted.overwritten_null (hr : Rooted nullName s) (hg : Has s g) (hal : s.aliases = [NULL]) :
    Rooted nullName ((s.prepared name cmd).overwritten vs NULL s.next (s.next + 1)) ∧
      Has ((s.prepared name cmd).overwritten vs NULL s.next (s.next + 1)) g := by
  have hdef := Defined.overwritten s name cmd vs NULL
  have haliases := (overwritten_rest (s.prepared name cmd) vs NULL s.next (s.next + 1)).2.1.trans hal
  have hnone : ∀ {P : Ptr → Prop},
      ∀ q ∈ ((s.prepared name cmd).overwritten vs NULL s.next (s.next + 1)).aliases, q ≠ NULL → P q :=
    fun q hq hne => by
      rw [haliases] at hq
      exact absurd (List.mem_singleton.mp hq) hne
  refine ⟨hdef.rooted hr (.inl haliases) hnone hnone, hdef.has hr hg ?_⟩
  rw [hg.entries_of_empty hal]
  exact if_pos haliases

/-- It finds nothing: the table gets its first alias. -/
theorem Rooted.appended_first (hr : Rooted nullName s) (hg : Has s g) (hal : s.aliases = [NULL]) :
    Rooted nullName ((s.prepared name cmd).appended vs s.next (s.next + 1)) ∧
      Has ((s.prepared name cmd).appended vs s.next (s.next + 1))
        { g with aliases := g.aliases.define name cmd } := by
  have hdef := Defined.appended s name cmd vs
  have htable : AliasTable ((s.prepared name cmd).appended vs s.next (s.next + 1)) :=
    AliasTable.first hal hr.input_lt name cmd
  have haliases : ((s.prepared name cmd).appended vs s.next (s.next + 1)).aliases = [s.next + 2] :=
    congrArg (addValue · (s.next + 2)) hal
  have hstruct : ((s.prepared name cmd).appended vs s.next (s.next + 1)).struct (s.next + 2) =
      { name := s.next, command := s.next + 1 } := if_pos rfl
  have hone : ∀ q ∈ ((s.prepared name cmd).appended vs s.next (s.next + 1)).aliases, q = s.next + 2 := by
    simp [haliases]
  have hfresh : ∀ k, s.next + k ≠ s.promptString := fun k =>
    Nat.ne_of_gt (Nat.lt_add_right k hr.prompt_lt)
  refine ⟨hdef.rooted hr (.inr htable) (fun q hq _ => ?_) fun q hq _ => ?_, hdef.has hr hg ?_⟩
  · rw [hone q hq, hstruct]
    exact hfresh 0
  · rw [hone q hq, hstruct]
    exact hfresh 1
  · have hname : ((s.prepared name cmd).appended vs s.next (s.next + 1)).nameOf (s.next + 2) = name := by
      rw [Terminal.nameOf, hstruct]
      exact prepared_name
    have hcmd : ((s.prepared name cmd).appended vs s.next (s.next + 1)).commandOf (s.next + 2) = cmd := by
      rw [Terminal.commandOf, hstruct]
      exact prepared_cmd
    change _ = assign g.aliases.entries name cmd
    rw [htable.glossary_eq, haliases, List.map_singleton, hname, hcmd, hg.entries_of_empty hal]
    rfl

/-- A definition in the empty table. -/
theorem Rooted.define_first (hr : Rooted nullName s) (hg : Has s g) (hal : s.aliases = [NULL]) {r : Int}
    (hd : Defines params name cmd) (hx : Term.aliasCmd params s = .ok (r, s')) :
    Rooted nullName s' ∧ Has s' (g.define nullName name cmd) := by
  have hnull : (s.prepared name cmd).nameOf NULL = nullName :=
    (AliasTable.prepared_str s hr.null_lt).trans hr.null_name
  obtain ⟨vs, -, hcall⟩ := aliasCmd_defined (Nat.ne_zero_of_lt hr.input_lt) hd
  rw [hal, lookup_cons, hnull] at hcall
  by_cases hname : nullName = name
  · have hdefine : g.define nullName name cmd = g := if_pos ⟨hg.entries_of_empty hal, hname.symm⟩
    rw [if_pos hname] at hcall
    cases hx.symm.trans hcall
    rw [hdefine]
    exact hr.overwritten_null hg hal
  · have hdefine : g.define nullName name cmd = { g with aliases := g.aliases.define name cmd } :=
      if_neg fun hx => hname hx.2.symm
    have hnil : lookup (s.prepared name cmd).nameOf [] name = none := rfl
    rw [if_neg hname, hnil] at hcall
    cases hx.symm.trans hcall
    rw [hdefine]
    exact hr.appended_first hg hal

/-- **One call of `alias`** does to the settings what the shell says. -/
theorem aliasCmd_settings (hr : Rooted nullName s) (hg : Has s g) {r : Int}
    (hx : Term.aliasCmd params s = .ok (r, s')) :
    Rooted nullName s' ∧ Has s' (g.command nullName params .aliasCmd) := by
  rcases defines_or params with hno | ⟨name, cmd, hd⟩
  · rw [Settings.command, hno.definition]
    exact ((Rests.eventCalm s).aliasCmd_noDefinition hno (Rests.refl s) hx).2.has hr hg
  · rw [Settings.command, hd.definition]
    rcases hr.table with hal | ht
    · exact hr.define_first hg hal hd hx
    · exact ht.define_settings hr hg hd hx

/-! ## Other commands -/

theorem setPrompt_settings (hr : Rooted nullName s) (hg : Has s g) (t : Text) :
    Rooted nullName (s.setPrompt t) ∧ Has (s.setPrompt t) { g with prompt := t } := by
  obtain ⟨k, b, hset⟩ : ∃ k b, s.setPrompt t =
      { s.setStr s.promptString t with promptStringLength := k, blocks := b } := by
    simp only [Terminal.setPrompt, Terminal.update, if_neg hr.prompt_ne_null]
    exact ⟨_, _, rfl⟩
  have hkept : ∀ {q}, q ≠ s.promptString → (s.setStr s.promptString t).str q = s.str q := fun hq => if_neg hq
  have hnull : NULL ∉ s.aliases ∨ s.aliases = [NULL] := hr.table.symm.imp_left fun ht => ht.ne_null
  have hne : ∀ {q}, s.aliases ≠ [NULL] → q ∈ s.aliases → q ≠ NULL := fun hal hq =>
    ne_of_mem_of_not_mem hq (hnull.resolve_right hal)
  have hname : ∀ q ∈ s.aliases, s.aliases ≠ [NULL] → (s.setStr s.promptString t).nameOf q = s.nameOf q :=
    fun q hq hal => hkept (hr.name_ne q hq (hne hal hq))
  have hcommand : ∀ q ∈ s.aliases, s.aliases ≠ [NULL] →
      (s.setStr s.promptString t).commandOf q = s.commandOf q :=
    fun q hq hal => hkept (hr.command_ne q hq (hne hal hq))
  rw [hset]
  refine ⟨{ hr with table := ?_, null_name := ?_ }, { hg with prompt := ?_, aliases := ?_ }⟩
  · refine hr.table.imp_right fun ht => { ht with names := fun p hp q hq he => ?_ }
    have hal : s.aliases ≠ [NULL] := fun hal => ht.ne_null (by rw [hal]; exact List.mem_cons_self)
    change (s.setStr s.promptString t).nameOf p = (s.setStr s.promptString t).nameOf q at he
    rw [hname p hp hal, hname q hq hal] at he
    exact ht.names p hp q hq he
  · exact (hkept hr.null_ne_prompt).trans hr.null_name
  · exact Terminal.setStr_str_same
  · refine Eq.trans ?_ hg.aliases
    change (if s.aliases = [NULL] then [] else s.aliases.map fun p =>
      ((s.setStr s.promptString t).nameOf p, (s.setStr s.promptString t).commandOf p)) = s.glossary
    unfold Terminal.glossary
    split
    next => rfl
    next hal => exact List.map_congr_left fun q hq => by rw [hname q hq hal, hcommand q hq hal]

theorem cprompt_settings (hr : Rooted nullName s) (hg : Has s g) {r : Int}
    (hx : Term.cprompt params s = .ok (r, s')) :
    Rooted nullName s' ∧ Has s' (g.command nullName params .cprompt) := by
  unfold Term.cprompt at hx
  split at hx
  next hne =>
    have hne : params ≠ Text.empty := fun h => hne (congrArg Text.chars h)
    cases hx
    rw [Settings.command, if_neg hne]
    exact setPrompt_settings hr hg params
  next hnil =>
    have hnil : params = Text.empty := Text.ext (not_not.mp hnil)
    have hkeeps : Preserves (Rests s) (do
        Term.writeline (Text.lit "Invalid prompt.")
        return SIG_FAIL) := (Rests.eventCalm s).writeline.bind fun _ => .pure
    rw [Settings.command, if_pos hnil]
    exact (hkeeps (Rests.refl s) hx).2.has hr hg

theorem namedColor_eq (word : Text) : namedColor word =
    if Term.colorOf word.tolower = .unknown then none else some (Term.colorOf word.tolower) := by
  have hknown : ∀ x ∈ colorNames, x.2 ≠ .unknown := by decide +kernel
  rw [colorOf_eq, namedColor]
  cases hfind : lookup Prod.fst colorNames word.tolower with
  | none => rfl
  | some x => exact (if_neg (hknown x (lookup_mem hfind))).symm

/-- The strings of `alias` and `tcolor` are new. -/
theorem Rests.prepared (s : Terminal) (t u : Text) : Rests s (s.prepared t u) where
  aliases := rfl
  struct := rfl
  le_next := Nat.le_add_right _ 2
  input := rfl
  str _ hq _ := AliasTable.prepared_str s hq
  promptString := rfl
  color := rfl
  ended := rfl

theorem Rests.release (h : Rests s s') (p : Ptr) : Rests s (s'.release p) := by
  unfold Terminal.release
  split
  next => exact h
  next => exact { h with }

theorem Rooted.screen (hr : Rooted nullName s) (fb : Framebuffer) (tc cc : UInt8) :
    Rooted nullName { s with framebuffer := fb, terminalColor := tc, cursorColor := cc } :=
  { hr with table := hr.table.imp_right fun ht => { ht with } }

theorem Has.screen (hg : Has s g) (fb : Framebuffer) (tc cc : UInt8) :
    Has { s with framebuffer := fb, terminalColor := tc, cursorColor := cc } { g with color := tc } :=
  { hg with color := rfl }

/-- New colors, with the strings of their names freed. -/
theorem setColors_settings (hr : Rooted nullName s) (hg : Has s g) (fg bg : Color) (t u : Text) (p q : Ptr) :
    Rooted nullName (((Term.setColors fg bg (s.prepared t u)).release p).release q) ∧
      Has (((Term.setColors fg bg (s.prepared t u)).release p).release q)
        { g with color := getColor fg bg } := by
  obtain ⟨hr', hg'⟩ := (Rests.prepared s t u).has hr hg
  exact (((Rests.refl _).release p).release q).has (hr'.screen _ _ _) (hg'.screen _ _ _)

theorem tcolor_settings (hr : Rooted nullName s) (hg : Has s g) {r : Int}
    (hx : Term.tcolor params s = .ok (r, s')) :
    Rooted nullName s' ∧ Has s' (g.command nullName params .tcolor) := by
  have hnext : s.next ≠ NULL := Nat.ne_zero_of_lt hr.input_lt
  have herror : ∀ {t u}, Term.tcolorError s.next (s.next + 1) (s.prepared t u) = .ok (r, s') →
      Rooted nullName s' ∧ Has s' g := fun hx =>
    ((Rests.eventCalm s).tcolorError (le_refl _) (Nat.le_succ _) (Rests.prepared s _ _) hx).2.has hr hg
  by_cases hspace : 0x20 ∈ params.chars
  · rw [tcolor_words hnext hspace] at hx
    rw [Settings.command, namedColors, if_pos hspace, namedColor_eq, namedColor_eq]
    generalize Term.colorOf params.word.tolower = fg at hx ⊢
    generalize Term.colorOf params.afterWord.word.tolower = bg at hx ⊢
    by_cases hfg : fg = .unknown
    · simp only [if_pos (Or.inl hfg : fg = .unknown ∨ bg = .unknown)] at hx
      rw [if_pos hfg]
      exact herror hx
    · by_cases hbg : bg = .unknown
      · simp only [if_pos (Or.inr hbg : fg = .unknown ∨ bg = .unknown)] at hx
        rw [if_neg hfg, if_pos hbg]
        exact herror hx
      · simp only [if_neg (not_or.mpr ⟨hfg, hbg⟩)] at hx
        rw [if_neg hfg, if_neg hbg]
        cases hx
        exact setColors_settings hr hg fg bg _ _ _ _
  · rw [tcolor_word hnext hspace] at hx
    rw [Settings.command, namedColors, if_neg hspace]
    exact herror hx

/-- **Every command** does to the settings what the shell says. -/
theorem command_settings (hr : Rooted nullName s) (hg : Has s g) {c : Handler} {env : Env} {r : Int}
    (hx : c.run commands env params s = .ok (r, s')) :
    Rooted nullName s' ∧ Has s' (g.command nullName params c) := by
  by_cases halias : c = .aliasCmd
  · subst halias
    exact aliasCmd_settings hr hg hx
  by_cases hprompt : c = .cprompt
  · subst hprompt
    exact cprompt_settings hr hg hx
  by_cases hcolor : c = .tcolor
  · subst hcolor
    exact tcolor_settings hr hg hx
  by_cases hend : c = .shutdown
  · subst hend
    cases hx
    exact ⟨{ hr with table := hr.table.imp_right fun ht => { ht with } }, { hg with ended := rfl }⟩
  have hcommand : g.command nullName params c = g := by
    cases c <;> first | rfl | contradiction
  rw [hcommand]
  exact ((Rests.eventCalm s).run halias hprompt hcolor hend (Rests.refl s) hx).2.has hr hg

/-! ## Lines -/

theorem Rests.submitted (hsplit : SplitInto s.submitted s.next (s.next + 1) line s₁) : Rests s s₁ := by
  have hold : ∀ q < s.next, s₁.str q = s.str q := fun q hq => hsplit.old hq
  obtain ⟨vs, str, rfl, -⟩ := hsplit
  exact
    { aliases := rfl
      struct := rfl
      le_next := Nat.le_add_right _ 3
      input := rfl
      str := fun q hq _ => hold q hq
      promptString := rfl
      color := rfl
      ended := rfl }

/-- The aliases that are looked up are those of the settings. -/
theorem AliasTable.aliasFor_eq (h : AliasTable s) (hg : Has s g) (t : Text) :
    (lookup s.submitted.nameOf s.aliases t).map s.submitted.commandOf = g.aliases.find t := by
  have hname : lookup s.submitted.nameOf s.aliases t = lookup s.nameOf s.aliases t :=
    lookup_congr fun p hp => submitted_old (h.name_lt p hp)
  rw [Book.find, ← hg.aliases, h.glossary_eq, lookup_map, Option.map_map, hname]
  change _ = (lookup s.nameOf s.aliases t).map s.commandOf
  cases hfind : lookup s.nameOf s.aliases t with
  | none => rfl
  | some p => exact congrArg some (submitted_old (h.command_lt p (lookup_mem hfind)))

/-- What is executed for a line. -/
theorem executedLine_eq (hr : Rooted nullName s) (hg : Has s g) :
    s.executedLine commands = g.expand (s.str s.input) := by
  have haliases : s.submitted.aliases = s.aliases := rfl
  rw [Terminal.executedLine, Terminal.expanded, Settings.expand, findCmd_eq, haliases]
  rcases hr.table with hal | ht
  · have hfind : g.aliases.find (s.str s.input).word = none := by
      rw [Book.find, hg.entries_of_empty hal]
      rfl
    rw [hal, if_pos (.inr rfl), hfind]
    split <;> rfl
  · have hfirst : firstValue s.aliases ≠ NULL := by
      obtain ⟨v, vs, hal⟩ := List.exists_cons_of_ne_nil ht.ne_nil
      have hnull := ht.ne_null
      rw [hal] at hnull ⊢
      exact Ne.symm (List.ne_of_not_mem_cons hnull)
    rw [ht.aliasFor_eq hg]
    simp only [hfirst, or_false]

/-- **A submitted line** does to the settings what the shell says. -/
theorem parseInput_settings (ht : Tabled s.next s.ledger) (hr : Rooted nullName s) (hg : Has s g)
    (hip : 0 < s.inputPtr) {env : Env} (hx : Term.parseInput commands env s = .ok ((), s')) :
    Rooted nullName s' ∧ Has s' (g.execute nullName (s.str s.input)) := by
  obtain ⟨s₁, hsplit, hx⟩ := parseInput_dispatched ht hip hx
  obtain ⟨hr₁, hg₁⟩ := (Rests.submitted hsplit).has hr hg
  have hparams : s₁.str (s.next + 1) = (s.executedLine commands).afterWord := by
    obtain ⟨vs, str, rfl, -, hq, -⟩ := hsplit
    exact hq
  rw [executedLine_eq hr hg] at hparams hx
  rw [Settings.execute, ← findCmd_eq]
  obtain ⟨_, s₂, hexec, hfinish⟩ := StateT.bind_ok_iff.mp hx
  have hrests : ∀ {s₃}, Rests s₃ s₂ → Rests s₃ s' := fun {s₃} h => by
    have hstable := Rests.eventCalm s₃
    exact ((hstable.releaseAny.bind fun _ => hstable.releaseAny.bind fun _ =>
      .modify hstable.newPrompt) h hfinish).2
  cases hfind : findCmd commands (g.expand (s.str s.input)).word with
  | none =>
    rw [hfind] at hexec
    have hkeeps : Preserves (Rests s₁) (Term.execute commands env s.next (s.next + 1) none) :=
      (Rests.eventCalm s₁).writeline.bind fun _ => text_preserves.bind fun _ => (Rests.eventCalm s₁).writeline
    exact (hrests (hkeeps (Rests.refl s₁) hexec).2).has hr₁ hg₁
  | some c =>
    rw [hfind, execute_some, hparams] at hexec
    obtain ⟨r, s₃, hcall, hreturn⟩ := StateT.bind_ok_iff.mp hexec
    obtain ⟨hr₃, hg₃⟩ := command_settings hr₁ hg₁ hcall
    exact (hrests ((Rests.eventCalm s₃).printReturn (Rests.refl s₃) hreturn).2).has hr₃ hg₃

/-! ## Keys -/

/-- The terminal is at this shell. -/
structure Shows (s : Terminal) (sh : Shell) : Prop where
  line : s.str s.input = sh.line
  history : s.history = sh.history
  settings : Has s sh.settings

/-- What holds between keys. -/
structure Tracks (nullName : Text) (s : Terminal) (sh : Shell) : Prop extends Shows s sh where
  session : ∃ es, Session es s
  rooted : Rooted nullName s

variable {sh : Shell}

/-- Editing the input leaves the settings. -/
theorem Rooted.edit (hr : Rooted nullName s) (hg : Has s g) (t : Text) (b : Block → Bool) (fb : Framebuffer)
    (x i : Int) :
    Rooted nullName { s.setStr s.input t with blocks := b, framebuffer := fb, cursorX := x, inputPtr := i } ∧
      Has { s.setStr s.input t with blocks := b, framebuffer := fb, cursorX := x, inputPtr := i } g := by
  have hentries : Entries s { s.setStr s.input t with blocks := b, framebuffer := fb, cursorX := x, inputPtr := i } :=
    { Entries.refl s with str := fun _ _ hq => if_neg hq }
  exact Rests.has hr hg { hentries with promptString := rfl, color := rfl, ended := rfl }

theorem newPrompt_line (s : Terminal) : (newPrompt s).str (newPrompt s).input = Text.empty := by
  obtain ⟨fb, hfb⟩ := newPrompt_eq s
  rw [hfb]
  exact if_pos rfl

theorem LineEditor.line_eq_empty (h : LineEditor s) : s.str s.input = Text.empty ↔ ¬0 < s.inputPtr :=
  ⟨fun he => h.chars_eq_nil.mp (congrArg Text.chars he), fun hip => Text.ext (h.chars_eq_nil.mpr hip)⟩

theorem backspace_line (s : Terminal) : (backspace s).str (backspace s).input =
    if 0 < s.inputPtr then (s.str s.input).take (s.inputPtr - 1).toNat else s.str s.input := by
  unfold backspace
  dsimp only
  by_cases hback : toUnsigned (s.cursorX - 1) < s.promptStringLength <;> by_cases hip : 0 < s.inputPtr
  · rw [if_pos hback, if_pos hip, if_pos hip]
    exact if_pos rfl
  · rw [if_pos hback, if_neg hip, if_neg hip]
  · rw [if_neg hback, if_pos hip, if_pos hip]
    exact if_pos rfl
  · rw [if_neg hback, if_neg hip, if_neg hip]

/-- The text that any key but Enter leaves. -/
theorem KeyStep.edited {k : Key} (he : LineEditor s) (hchar : k.char ≠ 0x0A) (hk : KeyStep s k s') :
    s'.str s'.input =
      if k.char = 0x08 then (s.str s.input).take ((s.str s.input).length - 1)
      else if (s.str s.input).length < TERMINAL_INPUT_SIZE then (s.str s.input).push k.char
      else s.str s.input := by
  have hlen := he.length
  rw [KeyStep, Term.handleInput, if_neg hchar] at hk
  split at hk
  next hback =>
    rw [if_pos hback]
    cases hk
    refine (backspace_line s).trans ?_
    split
    next hip =>
      have hptr : (s.inputPtr - 1).toNat = (s.str s.input).length - 1 := by omega
      rw [hptr]
    next hip => exact (Text.take_of_length_le (by omega)).symm
  next hback =>
    rw [if_neg hback]
    cases hk
    by_cases hroom : (s.str s.input).length < TERMINAL_INPUT_SIZE
    · rw [if_pos hroom]
      by_cases hzero : k.char = 0
      · rw [hzero, Text.push_zero]
        simp
      · have hadd : s.inputPtr < (TERMINAL_INPUT_SIZE : Int) ∧ k.char ≠ 0 := ⟨by omega, hzero⟩
        simp only [if_pos hadd]
        exact Terminal.setStr_str_same
    · have hfull : ¬(s.inputPtr < (TERMINAL_INPUT_SIZE : Int) ∧ k.char ≠ 0) := fun hx => by omega
      simp only [if_neg hroom, if_neg hfull]

/-- **One key** is a key of the shell. -/
theorem Tracks.keyStep {k : Key} (h : Tracks nullName s sh) (hk : KeyStep s k s') :
    Tracks nullName s' (sh.key nullName k.char) := by
  obtain ⟨es, hs⟩ := h.session
  obtain ⟨es', hs', hhistory⟩ := hs.keyStep hk
  rw [h.history] at hhistory
  by_cases hchar : k.char = 0x0A
  · rw [Shell.key, if_pos hchar, Shell.submit, ← h.line]
    have hx := hk.enter hchar
    by_cases hip : 0 < s.inputPtr
    · have hne : s.str s.input ≠ Text.empty := fun he => hs.editor.line_eq_empty.mp he hip
      obtain ⟨s₁, -, rfl⟩ := (Ready.lineStable _).parseInput (fun _ => (Ready.stable _).aliasCmd) hs.ready hx
      obtain ⟨hr, hg⟩ := parseInput_settings hs.tabled h.rooted h.settings hip hx
      rw [submittedLine, if_pos ⟨hchar, fun hnil => hne (Text.ext hnil)⟩] at hhistory
      rw [if_neg hne]
      exact ⟨⟨newPrompt_line s₁, hhistory, hg⟩, ⟨es', hs'⟩, hr⟩
    · have hempty : s.str s.input = Text.empty := hs.editor.line_eq_empty.mpr hip
      rw [parseInput_blank hip] at hx
      cases hx
      obtain ⟨hr, hg⟩ :=
        ((Rests.eventCalm s).newPrompt (Rests.refl s)).has h.rooted h.settings
      rw [submittedLine, if_neg fun hx => hx.2 (congrArg Text.chars hempty), Option.toList_none,
        List.append_nil] at hhistory
      rw [if_pos hempty]
      exact ⟨⟨(newPrompt_line s).trans (hempty.symm.trans h.line), hhistory, hg⟩, ⟨es', hs'⟩, hr⟩
  · have hline := hk.edited hs.editor hchar
    obtain ⟨t, b, fb, x, i, rfl⟩ := hk.edits hchar
    obtain ⟨hr, hg⟩ := h.rooted.edit h.settings t b fb x i
    rw [submittedLine, if_neg fun hx => hchar hx.1, Option.toList_none, List.append_nil] at hhistory
    rw [h.line] at hline
    rw [Shell.key, if_neg hchar]
    split
    next hback => exact ⟨⟨hline.trans (if_pos hback), hhistory, hg⟩, ⟨es', hs'⟩, hr⟩
    next hback =>
      rw [if_neg hback] at hline
      split
      next hroom => exact ⟨⟨hline.trans (if_pos hroom), hhistory, hg⟩, ⟨es', hs'⟩, hr⟩
      next hroom => exact ⟨⟨hline.trans (if_neg hroom), hhistory, hg⟩, ⟨es', hs'⟩, hr⟩

theorem Tracks.run {keys : List Key} (h : Tracks nullName s sh) (hrun : Runs KeyStep s keys s') :
    Tracks nullName s' ((keys.map Key.char).foldl (Shell.key nullName) sh) := by
  induction hrun generalizing sh with
  | nil => exact h
  | cons hk _ ih => exact ih (h.keyStep hk)

theorem initTerminal_tracks (hnull : (s₀.struct NULL).name < s₀.next) :
    Tracks (s₀.nameOf NULL) (initTerminal s₀) (Shell.start s₀.endterm) := by
  have hprompt : (initTerminal s₀).str (s₀.next + 1) = PROMPT_STRING := if_pos rfl
  have hinput : (initTerminal s₀).str s₀.next = Text.empty :=
    (if_neg (Nat.ne_of_lt (Nat.lt_succ_self _))).trans (if_pos rfl)
  have hold : ∀ q < s₀.next, (initTerminal s₀).str q = s₀.str q := fun q hq =>
    (if_neg (Nat.ne_of_lt (Nat.lt_succ_of_lt hq))).trans (if_neg (Nat.ne_of_lt hq))
  have hone : ∀ p ∈ (initTerminal s₀).aliases, p = NULL := fun p hp => List.mem_singleton.mp hp
  exact
    { line := hinput
      history := (initTerminal_session s₀).recorded.history_eq
      settings := { prompt := hprompt, color := rfl, aliases := if_pos rfl, ended := rfl }
      session := ⟨[], initTerminal_session s₀⟩
      rooted :=
        { input_lt := Nat.lt_succ_of_lt (Nat.lt_succ_self _)
          input_ne := Nat.ne_of_lt (Nat.lt_succ_self _)
          prompt_lt := Nat.lt_succ_self _
          prompt_ne_null := Nat.succ_ne_zero _
          table := .inl rfl
          name_ne := fun p hp hne => absurd (hone p hp) hne
          command_ne := fun p hp hne => absurd (hone p hp) hne
          null_lt := Nat.lt_add_right 2 hnull
          null_ne_input := Nat.ne_of_lt hnull
          null_ne_prompt := Nat.ne_of_lt (Nat.lt_succ_of_lt hnull)
          null_name := hold _ hnull } }

/-- **The command line is the shell**: after every sequence of keys whose
handlers return, its line, history and settings are what the shell makes of the
characters, whatever the commands found outside. `NULL`'s name, which the first
definition is compared with, is no string of the terminal. -/
theorem shell_refines {keys : List Key} (hnull : (s₀.struct NULL).name < s₀.next)
    (hrun : Runs KeyStep (initTerminal s₀) keys s) :
    Shows s (Shell.session (s₀.nameOf NULL) s₀.endterm (keys.map Key.char)) :=
  ((initTerminal_tracks hnull).run hrun).toShows

theorem shell_refines_session : ∃ s,
    Runs KeyStep (initTerminal blank) (typed "alias c tcolor Red Black\nc\ncprompt $\nec") s ∧
      Shows s (Shell.session (blank.nameOf NULL) blank.endterm
        ((typed "alias c tcolor Red Black\nc\ncprompt $\nec").map Key.char)) := by
  have h : (exec (fun s k => Key.step? k s) (initTerminal blank)
      (typed "alias c tcolor Red Black\nc\ncprompt $\nec")).isSome := by
    decide +kernel
  obtain ⟨s, hs⟩ := Option.isSome_iff_exists.mp h
  have hrun := (exec_eq_some Key.step?_eq_some).mp hs
  exact ⟨s, hrun, shell_refines (by decide) hrun⟩

end

end Ssmos

/-
The alias table as a map from names to commands: every call of `alias` is a
step of a last-writer-wins map.
-/
import Ssmos.AliasTable

namespace Ssmos

/-! ## Last writer wins -/

/-- `alias(params)` returns. -/
def AliasStep (s : Terminal) (params : Text) (s' : Terminal) : Prop :=
  ∃ r, Term.aliasCmd params s = .ok (r, s')

/-- The command `find_alias` finds for a name. -/
def aliasMap (s : Terminal) (name : Text) : Option Text :=
  match Term.findAlias name s with
  | .ok (some p, _) => some (s.commandOf p)
  | _ => none

/-- A map from names to commands, under a call of `alias`. -/
inductive MapStep : (Text → Option Text) → Text → (Text → Option Text) → Prop
  | define {m params name cmd} : Defines params name cmd →
    MapStep m params (fun t => if t = name then some cmd else m t)
  | keep {m params} : NoDefinition params → MapStep m params m

def freed (es : List Event) : List Ptr :=
  es.filterMap fun
    | .free p => some p
    | _ => none

/-- What one call of `alias` does to a table. -/
structure LastWriterWins (s : Terminal) (params : Text) (s' : Terminal) : Prop where
  /-- The name defined is found, with exactly the new command. -/
  defines : ∀ name cmd, Defines params name cmd → ∃ p, Finds s' name (some p) ∧ s'.commandOf p = cmd
  /-- Every other name finds what it found. -/
  others : ∀ name cmd, Defines params name cmd → ∀ t, t ≠ name → ∀ r, Finds s t r →
    Finds s' t r ∧ ∀ p, r = some p → s'.commandOf p = s.commandOf p
  /-- A call that defines nothing changes no entry. -/
  keeps : NoDefinition params → s'.aliases = s.aliases ∧ ∀ p ∈ s.aliases,
    s'.struct p = s.struct p ∧ s'.nameOf p = s.nameOf p ∧ s'.commandOf p = s.commandOf p
  /-- An overwriting one frees the old command and its own name string, and
  nothing else; no alias uses either. -/
  frees : ∀ name cmd, Defines params name cmd → ∀ p, Finds s name (some p) → ∃ es newname,
    s'.log = es ++ s.log ∧ Event.alloc newname ∈ es ∧ s'.str newname = name ∧
      freed es = [newname, (s.struct p).command] ∧
      ∀ f ∈ freed es, ∀ q ∈ s'.aliases, (s'.struct q).name ≠ f ∧ (s'.struct q).command ≠ f

theorem aliasMap_eq {s : Terminal} (hnull : NULL ∉ s.aliases) (t : Text) :
    aliasMap s t = (lookup s.nameOf s.aliases t).map s.commandOf := by
  obtain ⟨vs, -, h⟩ := findAlias_eq (t := t) hnull
  rw [aliasMap, h]
  cases lookup s.nameOf s.aliases t <;> rfl

theorem aliasMap_of_finds {s : Terminal} {t : Text} {r : Option Ptr} (hf : Finds s t r) :
    aliasMap s t = r.map s.commandOf := by
  obtain ⟨s', hf⟩ := hf
  rw [aliasMap, hf]
  cases r <;> rfl

namespace LastWriterWins

variable {s s' : Terminal} {params name cmd : Text}

/-- A definition that is found, disturbs no other name and frees what it should. -/
theorem of_defines (hd : Defines params name cmd) (hnew : ∃ p, Finds s' name (some p) ∧ s'.commandOf p = cmd)
    (hothers : ∀ t, t ≠ name → ∀ r, Finds s t r →
      Finds s' t r ∧ ∀ p, r = some p → s'.commandOf p = s.commandOf p)
    (hfrees : ∀ p, Finds s name (some p) → ∃ es newname,
      s'.log = es ++ s.log ∧ Event.alloc newname ∈ es ∧ s'.str newname = name ∧
        freed es = [newname, (s.struct p).command] ∧
        ∀ f ∈ freed es, ∀ q ∈ s'.aliases, (s'.struct q).name ≠ f ∧ (s'.struct q).command ≠ f) :
    LastWriterWins s params s' where
  defines name' cmd' hd' := by
    obtain ⟨rfl, rfl⟩ := hd.unique hd'
    exact hnew
  others name' cmd' hd' := by
    obtain ⟨rfl, rfl⟩ := hd.unique hd'
    exact hothers
  keeps hno := absurd hno hd.not_noDefinition
  frees name' cmd' hd' := by
    obtain ⟨rfl, rfl⟩ := hd.unique hd'
    exact hfrees

/-- The map steps with the table. -/
theorem mapStep (hnull : NULL ∉ s.aliases) (hnull' : NULL ∉ s'.aliases) (h : LastWriterWins s params s') :
    MapStep (aliasMap s) params (aliasMap s') := by
  rcases defines_or params with hno | ⟨name, cmd, hd⟩
  · obtain ⟨hal, hsame⟩ := h.keeps hno
    have hmap : aliasMap s' = aliasMap s := by
      funext t
      rw [aliasMap_eq hnull, aliasMap_eq hnull', hal, lookup_congr fun p hp => (hsame p hp).2.1]
      cases hl : lookup s.nameOf s.aliases t with
      | none => rfl
      | some p => exact congrArg some (hsame p (lookup_mem hl)).2.2
    rw [hmap]
    exact .keep hno
  · have hmap : aliasMap s' = fun t => if t = name then some cmd else aliasMap s t := by
      funext t
      by_cases ht : t = name
      · obtain ⟨p, hf, hcmd⟩ := h.defines name cmd hd
        rw [if_pos ht, ht, aliasMap_of_finds hf, Option.map_some, hcmd]
      · obtain ⟨hf, hcmd⟩ := h.others name cmd hd t ht _ ((finds_iff hnull).mpr rfl)
        rw [if_neg ht, aliasMap_of_finds hf, aliasMap_eq hnull]
        cases hl : lookup s.nameOf s.aliases t with
        | none => rfl
        | some p => exact congrArg some (hcmd p hl)
    rw [hmap]
    exact .define hd

end LastWriterWins

/-! ### The three kinds of calls -/

namespace AliasTable

variable {s s' : Terminal} {params name cmd : Text} {p : Ptr} {vs : List Ptr}

theorem keeps_lastWriterWins (h : AliasTable s) (hno : NoDefinition params) (he : Entries s s') :
    LastWriterWins s params s' where
  defines _ _ hd := absurd hno hd.not_noDefinition
  others _ _ hd := absurd hno hd.not_noDefinition
  keeps _ := ⟨he.aliases, fun p hp => ⟨by rw [he.struct], he.nameOf h hp, he.commandOf h hp⟩⟩
  frees _ _ hd := absurd hno hd.not_noDefinition

theorem freed_derefs (vs : List Ptr) : freed (vs.map .deref).reverse = [] := by
  simp [freed]

/-- The two strings an overwriting definition frees. -/
theorem overwritten_frees (h : AliasTable s) (hp : p ∈ s.aliases)
    (hs' : s' = (s.prepared name cmd).overwritten vs p s.next (s.next + 1)) : ∃ es newname,
    s'.log = es ++ s.log ∧ Event.alloc newname ∈ es ∧ s'.str newname = name ∧
      freed es = [newname, (s.struct p).command] ∧
      ∀ f ∈ freed es, ∀ q ∈ s'.aliases, (s'.struct q).name ≠ f ∧ (s'.struct q).command ≠ f := by
  have ho := overwritten_overwrote s vs p name cmd
  rw [← hs'] at ho
  have hold : ((s.prepared name cmd).struct p).command ≠ NULL := h.command_ne_null p hp
  have hlog : s'.log = .free s.next :: .free (s.struct p).command ::
      ((vs.map .deref).reverse ++ (.alloc (s.next + 1) :: .alloc s.next :: s.log)) := by
    rw [hs', Terminal.overwritten, Terminal.release, Terminal.release, if_neg h.next_ne_null, if_neg hold]
    rfl
  have hfreed : freed (.free s.next :: .free (s.struct p).command ::
      ((vs.map .deref).reverse ++ [.alloc (s.next + 1), .alloc s.next])) =
        [s.next, (s.struct p).command] := by
    have hvs := freed_derefs vs
    simp only [freed] at hvs
    simp [freed, hvs]
  refine ⟨.free s.next :: .free (s.struct p).command ::
    ((vs.map .deref).reverse ++ [.alloc (s.next + 1), .alloc s.next]), s.next, ?_, ?_, ?_, hfreed, ?_⟩
  · rw [hlog]
    simp
  · simp
  · rw [hs', (overwritten_rest _ _ _ _ _).1]
    exact (if_neg (Nat.ne_of_lt (Nat.lt_succ_self _))).trans (if_pos rfl)
  · rw [hfreed, ho.aliases]
    intro f hf q hq
    rw [ho.name]
    rcases List.mem_cons.mp hf with rfl | hf
    · refine ⟨Nat.ne_of_lt (h.name_lt q hq), ?_⟩
      by_cases hqp : q = p
      · rw [hqp, ho.command]
        exact Nat.succ_ne_self _
      · rw [ho.others q hqp]
        exact Nat.ne_of_lt (h.command_lt q hq)
    · rw [List.mem_singleton.mp hf]
      refine ⟨h.name_ne_command q hq p hp, ?_⟩
      by_cases hqp : q = p
      · rw [hqp, ho.command]
        exact Nat.ne_of_gt (Nat.lt_succ_of_lt (h.command_lt p hp))
      · rw [ho.others q hqp]
        exact fun he => hqp (h.command_inj q hq p hp he)

theorem overwritten_lastWriterWins (h : AliasTable s) (hd : Defines params name cmd)
    (hl : lookup s.nameOf s.aliases name = some p) :
    LastWriterWins s params ((s.prepared name cmd).overwritten vs p s.next (s.next + 1)) := by
  have ho := overwritten_overwrote s vs p name cmd
  have hnull := (ho.table h).ne_null
  refine .of_defines hd ⟨p, ?_, ho.commandOf_same⟩ (fun t ht r hf => ?_) fun q hq => ?_
  · rw [finds_iff hnull, ho.lookup_eq h, hl]
  · rw [finds_iff h.ne_null] at hf
    rw [finds_iff hnull, ho.lookup_eq h]
    refine ⟨hf, fun q hq => ho.commandOf_ne h (lookup_mem (hf.trans hq)) fun hqp => ?_⟩
    rw [← lookup_key hl, ← hqp, lookup_key (hf.trans hq)] at ht
    exact ht rfl
  · rw [finds_iff h.ne_null, hl] at hq
    cases hq
    exact h.overwritten_frees (lookup_mem hl) rfl

theorem appended_lastWriterWins (h : AliasTable s) (hd : Defines params name cmd)
    (hl : lookup s.nameOf s.aliases name = none) :
    LastWriterWins s params ((s.prepared name cmd).appended vs s.next (s.next + 1)) := by
  have ha := h.appended_appended vs name cmd
  have hnull := (ha.table h hl).ne_null
  refine .of_defines hd ⟨s.next + 2, ?_, ha.commandOf_new⟩ (fun t ht r hf => ?_) fun q hq => ?_
  · rw [finds_iff hnull, ha.lookup_same h hl]
  · rw [finds_iff h.ne_null] at hf
    rw [finds_iff hnull, ha.lookup_ne h ht]
    exact ⟨hf, fun q hq => ha.commandOf h (lookup_mem (hf.trans hq))⟩
  · rw [finds_iff h.ne_null, hl] at hq
    exact absurd hq nofun

end AliasTable

/-- **One call of `alias`** keeps the table one, and is last writer wins. -/
theorem aliasStep_spec {s s' : Terminal} {params : Text} (h : AliasTable s) (hstep : AliasStep s params s') :
    AliasTable s' ∧ LastWriterWins s params s' := by
  obtain ⟨r, hr⟩ := hstep
  rcases defines_or params with hno | ⟨name, cmd, hd⟩
  · have he := aliasCmd_noDefinition hno hr
    exact ⟨he.table h, h.keeps_lastWriterWins hno he⟩
  · obtain ⟨vs, -, hcall⟩ := h.aliasCmd_eq hd
    cases hl : lookup s.nameOf s.aliases name with
    | some p =>
      rw [hl] at hcall
      cases hr.symm.trans hcall
      exact ⟨(AliasTable.overwritten_overwrote s vs p name cmd).table h, h.overwritten_lastWriterWins hd hl⟩
    | none =>
      rw [hl] at hcall
      cases hr.symm.trans hcall
      exact ⟨(h.appended_appended vs name cmd).table h hl, h.appended_lastWriterWins hd hl⟩

/-- A call on the empty table leaves it empty, or makes a table of it. -/
theorem aliasStep_empty {s s' : Terminal} {params : Text} (hal : s.aliases = [NULL]) (hin : s.input < s.next)
    (hstep : AliasStep s params s') : s'.aliases = [NULL] ∧ s'.input < s'.next ∨ AliasTable s' := by
  obtain ⟨r, hr⟩ := hstep
  rcases defines_or params with hno | ⟨name, cmd, hd⟩
  · have he := aliasCmd_noDefinition hno hr
    refine .inl ⟨he.aliases.trans hal, ?_⟩
    rw [he.input]
    exact Nat.lt_of_lt_of_le hin he.le_next
  · obtain ⟨vs, -, hcall⟩ := aliasCmd_defined (Nat.ne_zero_of_lt hin) hd
    rw [hcall] at hr
    cases hl : lookup (s.prepared name cmd).nameOf s.aliases name with
    | some p =>
      rw [hl] at hr
      cases hr
      obtain ⟨-, haliases, hnext, hinput⟩ :=
        overwritten_rest (s.prepared name cmd) vs p s.next (s.next + 1)
      refine .inl ⟨haliases.trans hal, ?_⟩
      simp only [hnext, hinput]
      exact Nat.lt_add_right 2 hin
    | none =>
      rw [hl] at hr
      cases hr
      exact .inr (.first hal hin name cmd)

/-- **The tables there are**: from the empty one, calls of `alias` make no other
kind of table. -/
theorem aliasTable_of_empty {s s' : Terminal} {ps : List Text} (hal : s.aliases = [NULL])
    (hin : s.input < s.next) (hrun : Runs AliasStep s ps s') : s'.aliases = [NULL] ∨ AliasTable s' := by
  have h := hrun.invariant (I := fun s => s.aliases = [NULL] ∧ s.input < s.next ∨ AliasTable s)
    (fun h hstep => h.elim (fun h => aliasStep_empty h.1 h.2 hstep) fun h => .inr (aliasStep_spec h hstep).1)
    (.inl ⟨hal, hin⟩)
  exact h.imp_left And.left

/-- **The alias table is a last-writer-wins map** along every sequence of calls
of `alias`, each of which returns. -/
theorem alias_last_writer_wins {s s' : Terminal} {ps : List Text} (h : AliasTable s)
    (hrun : Runs AliasStep s ps s') :
    AliasTable s' ∧ Runs MapStep (aliasMap s) ps (aliasMap s') ∧
      ∀ params, ∃ s'', AliasStep s' params s'' ∧ LastWriterWins s' params s'' := by
  have htable : AliasTable s' := hrun.invariant (fun h hstep => (aliasStep_spec h hstep).1) h
  have hmap : ∀ {s params s' m}, AliasTable s ∧ m = aliasMap s → AliasStep s params s' →
      ∃ m', MapStep m (id params) m' ∧ AliasTable s' ∧ m' = aliasMap s' := by
    intro s params s' m hx hstep
    obtain ⟨hs, rfl⟩ := hx
    obtain ⟨hs', hw⟩ := aliasStep_spec hs hstep
    exact ⟨_, hw.mapStep hs.ne_null hs'.ne_null, hs', rfl⟩
  obtain ⟨m, hm, -, rfl⟩ :=
    hrun.simulate (f := id) (R := fun s m => AliasTable s ∧ m = aliasMap s) hmap ⟨h, rfl⟩
  rw [List.map_id] at hm
  refine ⟨htable, hm, fun params => ?_⟩
  obtain ⟨r, s'', hcall⟩ := aliasCmd_total params s'
  exact ⟨s'', ⟨r, hcall⟩, (aliasStep_spec htable ⟨r, hcall⟩).2⟩

/-- A table of one alias, `ls` for `help`. -/
def oneAlias : Terminal :=
  { blank with
    str := fun q => if q = 2 then Text.lit "ls" else if q = 3 then Text.lit "help" else Text.empty
    struct := fun _ => { name := 2, command := 3 }
    next := 5
    input := 1
    aliases := [4] }

theorem oneAlias_table : AliasTable oneAlias := by
  have hone : ∀ p ∈ oneAlias.aliases, p = 4 := fun p hp => List.mem_singleton.mp hp
  exact
    { ne_nil := List.cons_ne_nil _ _
      ne_null := by decide
      struct_lt := by decide
      input_lt := by decide
      nodup := by decide
      name_lt := by decide
      name_ne_null := by decide
      name_ne_input := by decide
      command_lt := by decide
      command_ne_null := by decide
      command_ne_input := by decide
      command_inj := fun p hp q hq _ => (hone p hp).trans (hone q hq).symm
      name_ne_command := by decide
      names := fun p hp q hq _ => (hone p hp).trans (hone q hq).symm }

theorem alias_last_writer_wins_ls : ∃ s, Runs AliasStep oneAlias [Text.lit "ls echo", Text.lit "h history"] s ∧
    AliasTable s ∧ Runs MapStep (aliasMap oneAlias) [Text.lit "ls echo", Text.lit "h history"] (aliasMap s) ∧
      ∀ params, ∃ s', AliasStep s params s' ∧ LastWriterWins s params s' := by
  obtain ⟨r₁, s₁, h₁⟩ := aliasCmd_total (Text.lit "ls echo") oneAlias
  obtain ⟨r₂, s₂, h₂⟩ := aliasCmd_total (Text.lit "h history") s₁
  have hrun : Runs AliasStep oneAlias [Text.lit "ls echo", Text.lit "h history"] s₂ :=
    .cons ⟨r₁, h₁⟩ (.single ⟨r₂, h₂⟩)
  exact ⟨s₂, hrun, alias_last_writer_wins oneAlias_table hrun⟩

end Ssmos

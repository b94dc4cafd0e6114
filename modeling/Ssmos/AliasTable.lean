/-
The alias table with an alias in it, and what a call of `alias` makes of it: an
entry with a new command, a new entry, or the same table.
-/
import Ssmos.Aliases

namespace Ssmos

/-! ## The table -/

/-- A table with at least one alias: its own objects, all in use, no two with
one name and no string used twice. -/
structure AliasTable (s : Terminal) : Prop where
  ne_nil : s.aliases ≠ []
  ne_null : NULL ∉ s.aliases
  struct_lt : ∀ p ∈ s.aliases, p < s.next
  input_lt : s.input < s.next
  nodup : s.aliases.Nodup
  name_lt : ∀ p ∈ s.aliases, (s.struct p).name < s.next
  name_ne_null : ∀ p ∈ s.aliases, (s.struct p).name ≠ NULL
  name_ne_input : ∀ p ∈ s.aliases, (s.struct p).name ≠ s.input
  command_lt : ∀ p ∈ s.aliases, (s.struct p).command < s.next
  command_ne_null : ∀ p ∈ s.aliases, (s.struct p).command ≠ NULL
  command_ne_input : ∀ p ∈ s.aliases, (s.struct p).command ≠ s.input
  command_inj : ∀ p ∈ s.aliases, ∀ q ∈ s.aliases, (s.struct p).command = (s.struct q).command → p = q
  name_ne_command : ∀ p ∈ s.aliases, ∀ q ∈ s.aliases, (s.struct p).name ≠ (s.struct q).command
  names : ∀ p ∈ s.aliases, ∀ q ∈ s.aliases, s.nameOf p = s.nameOf q → p = q

/-- A string an alias may own: it is in use, and not the input. -/
structure Terminal.Owns (s : Terminal) (p : Ptr) : Prop where
  lt : p < s.next
  ne_null : p ≠ NULL
  ne_input : p ≠ s.input

theorem Terminal.Owns.mono {s s' : Terminal} {p : Ptr} (h : s.Owns p) (hnext : s.next ≤ s'.next)
    (hin : s'.input = s.input) : s'.Owns p :=
  ⟨Nat.lt_of_lt_of_le h.lt hnext, h.ne_null, hin ▸ h.ne_input⟩

theorem Terminal.owns_fresh {s s' : Terminal} {p : Ptr} (h : s.input < s.next) (hp : s.next ≤ p)
    (hlt : p < s'.next) (hin : s'.input = s.input) : s'.Owns p :=
  ⟨hlt, Nat.ne_zero_of_lt (Nat.lt_of_lt_of_le h hp), hin ▸ Nat.ne_of_gt (Nat.lt_of_lt_of_le h hp)⟩

namespace AliasTable

variable {s : Terminal} {params name cmd : Text} {p : Ptr} {vs : List Ptr}

theorem ownsName (h : AliasTable s) (hp : p ∈ s.aliases) : s.Owns (s.struct p).name :=
  ⟨h.name_lt p hp, h.name_ne_null p hp, h.name_ne_input p hp⟩

theorem ownsCommand (h : AliasTable s) (hp : p ∈ s.aliases) : s.Owns (s.struct p).command :=
  ⟨h.command_lt p hp, h.command_ne_null p hp, h.command_ne_input p hp⟩

theorem of_owns (hne : s.aliases ≠ []) (hnull : NULL ∉ s.aliases) (hlt : ∀ p ∈ s.aliases, p < s.next)
    (hin : s.input < s.next) (hnodup : s.aliases.Nodup) (hname : ∀ p ∈ s.aliases, s.Owns (s.struct p).name)
    (hcmd : ∀ p ∈ s.aliases, s.Owns (s.struct p).command)
    (hinj : ∀ p ∈ s.aliases, ∀ q ∈ s.aliases, (s.struct p).command = (s.struct q).command → p = q)
    (hapart : ∀ p ∈ s.aliases, ∀ q ∈ s.aliases, (s.struct p).name ≠ (s.struct q).command)
    (hnames : ∀ p ∈ s.aliases, ∀ q ∈ s.aliases, s.nameOf p = s.nameOf q → p = q) : AliasTable s where
  ne_nil := hne
  ne_null := hnull
  struct_lt := hlt
  input_lt := hin
  nodup := hnodup
  name_lt p hp := (hname p hp).lt
  name_ne_null p hp := (hname p hp).ne_null
  name_ne_input p hp := (hname p hp).ne_input
  command_lt p hp := (hcmd p hp).lt
  command_ne_null p hp := (hcmd p hp).ne_null
  command_ne_input p hp := (hcmd p hp).ne_input
  command_inj := hinj
  name_ne_command := hapart
  names := hnames

theorem next_ne_null (h : AliasTable s) : s.next ≠ NULL := Nat.ne_zero_of_lt h.input_lt

theorem prepared_str (s : Terminal) {q : Ptr} (hq : q < s.next) : (s.prepared name cmd).str q = s.str q := by
  simp only [Terminal.prepared]
  rw [if_neg (Nat.ne_of_lt (Nat.lt_succ_of_lt hq)), if_neg (Nat.ne_of_lt hq)]

theorem prepared_lookup (h : AliasTable s) (t : Text) :
    lookup (s.prepared name cmd).nameOf s.aliases t = lookup s.nameOf s.aliases t :=
  lookup_congr fun p hp => prepared_str s (h.name_lt p hp)

theorem aliasCmd_eq (h : AliasTable s) (hd : Defines params name cmd) :
    ∃ vs, (∀ v ∈ vs, v ∈ s.aliases) ∧ Term.aliasCmd params s =
      .ok (SIG_SUCCESS, match lookup s.nameOf s.aliases name with
        | some p => (s.prepared name cmd).overwritten vs p s.next (s.next + 1)
        | none => (s.prepared name cmd).appended vs s.next (s.next + 1)) := by
  obtain ⟨vs, hvs, hcall⟩ := aliasCmd_defined h.next_ne_null hd
  rw [h.prepared_lookup] at hcall
  exact ⟨vs, hvs, hcall⟩

/-! ### Overwriting -/

/-- What an overwriting definition leaves, as seen from the old table. -/
structure Overwrote (s : Terminal) (p : Ptr) (cmd : Text) (s' : Terminal) : Prop where
  aliases : s'.aliases = s.aliases
  next : s'.next = s.next + 2
  input : s'.input = s.input
  name : ∀ q, (s'.struct q).name = (s.struct q).name
  command : (s'.struct p).command = s.next + 1
  others : ∀ q, q ≠ p → s'.struct q = s.struct q
  str : ∀ q, q < s.next → s'.str q = s.str q
  newcmd : s'.str (s.next + 1) = cmd

theorem overwritten_overwrote (s : Terminal) (vs : List Ptr) (p : Ptr) (name cmd : Text) :
    Overwrote s p cmd ((s.prepared name cmd).overwritten vs p s.next (s.next + 1)) := by
  obtain ⟨hstr, hal, hnext, hin⟩ := overwritten_rest (s.prepared name cmd) vs p s.next (s.next + 1)
  exact
    { aliases := hal
      next := hnext
      input := hin
      name := fun q => by
        rw [overwritten_struct]
        split
        next h => rw [h]; rfl
        next => rfl
      command := by rw [overwritten_struct, if_pos rfl]
      others := fun q hq => by rw [overwritten_struct, if_neg hq]; rfl
      str := fun q hq => by rw [hstr, prepared_str s hq]
      newcmd := by rw [hstr]; exact if_pos rfl }

namespace Overwrote

variable {s' : Terminal}

theorem nameOf (h : AliasTable s) (ho : Overwrote s p cmd s') {q : Ptr} (hq : q ∈ s.aliases) :
    s'.nameOf q = s.nameOf q := by
  rw [Terminal.nameOf, ho.name, ho.str _ (h.name_lt q hq)]
  rfl

theorem commandOf_same (ho : Overwrote s p cmd s') : s'.commandOf p = cmd := by
  rw [Terminal.commandOf, ho.command, ho.newcmd]

theorem commandOf_ne (h : AliasTable s) (ho : Overwrote s p cmd s') {q : Ptr} (hq : q ∈ s.aliases)
    (hne : q ≠ p) : s'.commandOf q = s.commandOf q := by
  rw [Terminal.commandOf, ho.others q hne, ho.str _ (h.command_lt q hq)]
  rfl

theorem lookup_eq (h : AliasTable s) (ho : Overwrote s p cmd s') {t : Text} :
    lookup s'.nameOf s'.aliases t = lookup s.nameOf s.aliases t := by
  rw [ho.aliases]
  exact lookup_congr fun q hq => ho.nameOf h hq

theorem table (h : AliasTable s) (ho : Overwrote s p cmd s') : AliasTable s' := by
  have hle : s.next ≤ s'.next := by rw [ho.next]; exact Nat.le_add_right _ _
  have hmem : ∀ {q}, q ∈ s'.aliases → q ∈ s.aliases := fun hq => ho.aliases ▸ hq
  have hfresh : ∀ q < s.next, s.next + 1 ≠ q := fun q hq => Nat.ne_of_gt (Nat.lt_succ_of_lt hq)
  -- a command is the old one, or the new string
  have hcmd : ∀ q, s'.struct q = s.struct q ∨ q = p := fun q => by
    by_cases hq : q = p
    · exact .inr hq
    · exact .inl (ho.others q hq)
  refine of_owns (ho.aliases ▸ h.ne_nil) (ho.aliases ▸ h.ne_null)
    (fun q hq => Nat.lt_of_lt_of_le (h.struct_lt q (hmem hq)) hle)
    (by rw [ho.input]; exact Nat.lt_of_lt_of_le h.input_lt hle) (ho.aliases ▸ h.nodup)
    (fun q hq => ?_) (fun q hq => ?_) (fun q hq r hr he => ?_) (fun q hq r hr => ?_) fun q hq r hr he => ?_
  · rw [ho.name]
    exact (h.ownsName (hmem hq)).mono hle ho.input
  · rcases hcmd q with hs | rfl
    · rw [hs]
      exact (h.ownsCommand (hmem hq)).mono hle ho.input
    · rw [ho.command]
      exact Terminal.owns_fresh h.input_lt (Nat.le_succ _) (by rw [ho.next]; exact Nat.lt_succ_self _) ho.input
  · have hq := hmem hq
    have hr := hmem hr
    by_cases hqp : q = p <;> by_cases hrp : r = p
    · rw [hqp, hrp]
    · rw [hqp, ho.command, ho.others r hrp] at he
      exact absurd he (hfresh _ (h.command_lt r hr))
    · rw [hrp, ho.command, ho.others q hqp] at he
      exact absurd he.symm (hfresh _ (h.command_lt q hq))
    · rw [ho.others q hqp, ho.others r hrp] at he
      exact h.command_inj q hq r hr he
  · rw [ho.name]
    rcases hcmd r with hs | rfl
    · rw [hs]
      exact h.name_ne_command q (hmem hq) r (hmem hr)
    · rw [ho.command]
      exact Ne.symm (hfresh _ (h.name_lt q (hmem hq)))
  · rw [ho.nameOf h (hmem hq), ho.nameOf h (hmem hr)] at he
    exact h.names q (hmem hq) r (hmem hr) he

end Overwrote

/-! ### Appending -/

/-- What a definition under a new name leaves, as seen from the old table. -/
structure Appended (s : Terminal) (name cmd : Text) (s' : Terminal) : Prop where
  aliases : s'.aliases = s.aliases ++ [s.next + 2]
  next : s'.next = s.next + 3
  input : s'.input = s.input
  struct : s'.struct (s.next + 2) = { name := s.next, command := s.next + 1 }
  others : ∀ q, q < s.next → s'.struct q = s.struct q
  str : ∀ q, q < s.next → s'.str q = s.str q
  newname : s'.str s.next = name
  newcmd : s'.str (s.next + 1) = cmd

theorem appended_appended (h : AliasTable s) (vs : List Ptr) (name cmd : Text) :
    Appended s name cmd ((s.prepared name cmd).appended vs s.next (s.next + 1)) :=
  { aliases := addValue_eq h.ne_nil h.ne_null
    next := rfl
    input := rfl
    struct := if_pos rfl
    others := fun _ hq => if_neg (Nat.ne_of_lt (Nat.lt_add_right 2 hq))
    str := fun _ hq => prepared_str s hq
    newname := (if_neg (Nat.ne_of_lt (Nat.lt_succ_self _))).trans (if_pos rfl)
    newcmd := if_pos rfl }

namespace Appended

variable {s' : Terminal}

theorem nameOf (h : AliasTable s) (ha : Appended s name cmd s') {q : Ptr} (hq : q ∈ s.aliases) :
    s'.nameOf q = s.nameOf q := by
  rw [Terminal.nameOf, ha.others q (h.struct_lt q hq), ha.str _ (h.name_lt q hq)]
  rfl

theorem nameOf_new (ha : Appended s name cmd s') : s'.nameOf (s.next + 2) = name := by
  rw [Terminal.nameOf, ha.struct, ha.newname]

theorem commandOf_new (ha : Appended s name cmd s') : s'.commandOf (s.next + 2) = cmd := by
  rw [Terminal.commandOf, ha.struct, ha.newcmd]

theorem commandOf (h : AliasTable s) (ha : Appended s name cmd s') {q : Ptr} (hq : q ∈ s.aliases) :
    s'.commandOf q = s.commandOf q := by
  rw [Terminal.commandOf, ha.others q (h.struct_lt q hq), ha.str _ (h.command_lt q hq)]
  rfl

theorem lookup_old (h : AliasTable s) (ha : Appended s name cmd s') {t : Text} :
    lookup s'.nameOf s.aliases t = lookup s.nameOf s.aliases t :=
  lookup_congr fun _ hq => ha.nameOf h hq

theorem lookup_same (h : AliasTable s) (ha : Appended s name cmd s')
    (hnone : lookup s.nameOf s.aliases name = none) :
    lookup s'.nameOf s'.aliases name = some (s.next + 2) := by
  have hold := ha.lookup_old h (t := name)
  rw [hnone, ← ha.nameOf_new] at hold
  rw [ha.aliases, ← ha.nameOf_new]
  exact lookup_append_same hold

theorem lookup_ne (h : AliasTable s) (ha : Appended s name cmd s') {t : Text} (ht : t ≠ name) :
    lookup s'.nameOf s'.aliases t = lookup s.nameOf s.aliases t := by
  rw [ha.aliases, lookup_append_ne (by rw [ha.nameOf_new]; exact Ne.symm ht), ha.lookup_old h]

theorem table (h : AliasTable s) (ha : Appended s name cmd s')
    (hnone : lookup s.nameOf s.aliases name = none) : AliasTable s' := by
  have hle : s.next ≤ s'.next := by rw [ha.next]; exact Nat.le_add_right _ _
  have hlt : ∀ {k}, k < 3 → s.next + k < s'.next := fun hk => by rw [ha.next]; exact Nat.add_lt_add_left hk _
  have hmem : ∀ q ∈ s'.aliases, q ∈ s.aliases ∨ q = s.next + 2 := fun q hq => by
    rw [ha.aliases] at hq
    simpa using hq
  have hold : ∀ q ∈ s.aliases, s'.struct q = s.struct q := fun q hq => ha.others q (h.struct_lt q hq)
  have hnames := lookup_eq_none.mp hnone
  have hname : ∀ q < s.next, s.next ≠ q := fun q hq => Nat.ne_of_gt hq
  have hcmd : ∀ q < s.next, s.next + 1 ≠ q := fun q hq => Nat.ne_of_gt (Nat.lt_succ_of_lt hq)
  refine of_owns ?_ (fun hq => ?_) (fun q hq => ?_) ?_ ?_ (fun q hq => ?_) (fun q hq => ?_)
    (fun q hq r hr he => ?_) (fun q hq r hr => ?_) fun q hq r hr he => ?_
  · rw [ha.aliases]
    exact List.append_ne_nil_of_right_ne_nil _ (List.cons_ne_nil _ _)
  · rcases hmem _ hq with hq | hq
    · exact h.ne_null hq
    · exact absurd hq.symm (Nat.succ_ne_zero _)
  · rcases hmem q hq with hq | rfl
    · exact Nat.lt_of_lt_of_le (h.struct_lt q hq) hle
    · exact hlt (by decide)
  · rw [ha.input]
    exact Nat.lt_of_lt_of_le h.input_lt hle
  · rw [ha.aliases, List.nodup_append]
    refine ⟨h.nodup, by simp, fun q hq r hr => ?_⟩
    rw [List.mem_singleton.mp hr]
    exact Nat.ne_of_lt (Nat.lt_add_right 2 (h.struct_lt q hq))
  · rcases hmem q hq with hq | rfl
    · rw [hold q hq]
      exact (h.ownsName hq).mono hle ha.input
    · rw [ha.struct]
      exact Terminal.owns_fresh h.input_lt (le_refl _) (hlt (k := 0) (by decide)) ha.input
  · rcases hmem q hq with hq | rfl
    · rw [hold q hq]
      exact (h.ownsCommand hq).mono hle ha.input
    · rw [ha.struct]
      exact Terminal.owns_fresh h.input_lt (Nat.le_succ _) (hlt (by decide)) ha.input
  · rcases hmem q hq with hq | rfl <;> rcases hmem r hr with hr | rfl
    · rw [hold q hq, hold r hr] at he
      exact h.command_inj q hq r hr he
    · rw [hold q hq, ha.struct] at he
      exact absurd he.symm (hcmd _ (h.command_lt q hq))
    · rw [hold r hr, ha.struct] at he
      exact absurd he (hcmd _ (h.command_lt r hr))
    · rfl
  · rcases hmem q hq with hq | rfl <;> rcases hmem r hr with hr | rfl
    · rw [hold q hq, hold r hr]
      exact h.name_ne_command q hq r hr
    · rw [hold q hq, ha.struct]
      exact Ne.symm (hcmd _ (h.name_lt q hq))
    · rw [hold r hr, ha.struct]
      exact hname _ (h.command_lt r hr)
    · rw [ha.struct]
      exact Nat.ne_of_lt (Nat.lt_succ_self _)
  · rcases hmem q hq with hq | rfl <;> rcases hmem r hr with hr | rfl
    · rw [ha.nameOf h hq, ha.nameOf h hr] at he
      exact h.names q hq r hr he
    · rw [ha.nameOf h hq, ha.nameOf_new] at he
      exact absurd he (hnames q hq)
    · rw [ha.nameOf h hr, ha.nameOf_new] at he
      exact absurd he.symm (hnames r hr)
    · rfl

end Appended

end AliasTable

/-! ## Calls that define nothing -/

/-- Every entry, and every string but the input, is as it was. -/
structure Entries (s₀ s : Terminal) : Prop where
  aliases : s.aliases = s₀.aliases
  struct : s.struct = s₀.struct
  le_next : s₀.next ≤ s.next
  input : s.input = s₀.input
  str : ∀ q, q < s₀.next → q ≠ s₀.input → s.str q = s₀.str q

namespace Entries

variable {s₀ s s' : Terminal}

theorem refl (s : Terminal) : Entries s s := ⟨rfl, rfl, le_refl _, rfl, fun _ _ _ => rfl⟩

theorem stable (s₀ : Terminal) : EventStable s₀.next (fun _ => True) (Entries s₀) where
  le_next _ h := h.le_next
  alloc _ h := { h with le_next := Nat.le_succ_of_le h.le_next }
  setStr _ p _ hp h :=
    { h with
      str := fun q hq hin => (if_neg (Nat.ne_of_lt (Nat.lt_of_lt_of_le hq hp))).trans (h.str q hq hin) }
  mark _ _ _ h := { h with }
  free _ _ _ h := { h with }
  newPrompt s h := by
    obtain ⟨fb, hfb⟩ := newPrompt_eq s
    rw [hfb]
    exact
      { h with
        str := fun q hq hin => (if_neg (h.input ▸ hin)).trans (h.str q hq hin) }
  screen _ _ _ _ h := { h with }
  home _ _ h := { h with }
  interrupts _ _ h := { h with }
  endterm _ h := { h with }
  freeAny _ _ h := { h with }
  deref _ _ _ h := { h with }
  guarded _ _ _ _ _ := trivial

theorem nameOf (ht : AliasTable s₀) (h : Entries s₀ s) {p : Ptr} (hp : p ∈ s₀.aliases) :
    s.nameOf p = s₀.nameOf p := by
  rw [Terminal.nameOf, h.struct, h.str _ (ht.name_lt p hp) (ht.name_ne_input p hp)]
  rfl

theorem commandOf (ht : AliasTable s₀) (h : Entries s₀ s) {p : Ptr} (hp : p ∈ s₀.aliases) :
    s.commandOf p = s₀.commandOf p := by
  rw [Terminal.commandOf, h.struct, h.str _ (ht.command_lt p hp) (ht.command_ne_input p hp)]
  rfl

theorem table (ht : AliasTable s₀) (h : Entries s₀ s) : AliasTable s := by
  have hmem : ∀ {p}, p ∈ s.aliases → p ∈ s₀.aliases := fun hp => h.aliases ▸ hp
  refine .of_owns (h.aliases ▸ ht.ne_nil) (h.aliases ▸ ht.ne_null)
    (fun p hp => Nat.lt_of_lt_of_le (ht.struct_lt p (hmem hp)) h.le_next)
    (h.input ▸ Nat.lt_of_lt_of_le ht.input_lt h.le_next) (h.aliases ▸ ht.nodup)
    (fun p hp => ?_) (fun p hp => ?_) (by rw [h.struct, h.aliases]; exact ht.command_inj)
    (by rw [h.struct, h.aliases]; exact ht.name_ne_command) fun p hp q hq he => ?_
  · rw [h.struct]
    exact (ht.ownsName (hmem hp)).mono h.le_next h.input
  · rw [h.struct]
    exact (ht.ownsCommand (hmem hp)).mono h.le_next h.input
  · rw [h.nameOf ht (hmem hp), h.nameOf ht (hmem hq)] at he
    exact ht.names p (hmem hp) q (hmem hq) he

end Entries

/-- A call that defines nothing leaves every entry. -/
theorem aliasCmd_noDefinition {s s' : Terminal} {params : Text} {r : Int} (hno : NoDefinition params)
    (hx : Term.aliasCmd params s = .ok (r, s')) : Entries s s' :=
  ((Entries.stable s).aliasCmd_noDefinition hno (Entries.refl s) hx).2

/-! ## The first alias -/

/-- The alias that is the first value of the empty table. -/
theorem AliasTable.first {s : Terminal} {vs : List Ptr} (hal : s.aliases = [NULL]) (hin : s.input < s.next)
    (name cmd : Text) : AliasTable ((s.prepared name cmd).appended vs s.next (s.next + 1)) := by
  have haliases : ((s.prepared name cmd).appended vs s.next (s.next + 1)).aliases = [s.next + 2] :=
    congrArg (addValue · (s.next + 2)) hal
  have hstruct : ((s.prepared name cmd).appended vs s.next (s.next + 1)).struct (s.next + 2) =
      { name := s.next, command := s.next + 1 } := if_pos rfl
  have hone : ∀ p ∈ ((s.prepared name cmd).appended vs s.next (s.next + 1)).aliases, p = s.next + 2 := by
    simp [haliases]
  have hlt : ∀ {k}, k < 3 → s.next + k < ((s.prepared name cmd).appended vs s.next (s.next + 1)).next :=
    fun hk => Nat.add_lt_add_left hk _
  refine of_owns (by simp [haliases]) (fun hmem => absurd (hone _ hmem) (Ne.symm (Nat.succ_ne_zero _)))
    (fun p hp => hone p hp ▸ hlt (by decide)) (Nat.lt_add_right 3 hin) (by simp [haliases])
    (fun p hp => ?_) (fun p hp => ?_) (fun p hp q hq _ => (hone p hp).trans (hone q hq).symm)
    (fun p hp q hq => ?_) fun p hp q hq _ => (hone p hp).trans (hone q hq).symm
  · rw [hone p hp, hstruct]
    exact Terminal.owns_fresh hin (le_refl _) (hlt (k := 0) (by decide)) rfl
  · rw [hone p hp, hstruct]
    exact Terminal.owns_fresh hin (Nat.le_succ _) (hlt (by decide)) rfl
  · rw [hone p hp, hone q hq, hstruct]
    exact Nat.ne_of_lt (Nat.lt_succ_self _)

end Ssmos

/-
What `alias` does, call by call: the two searches of the table as a lookup by
name, and the states a definition leaves.
-/
import Ssmos.Base.Assoc
import Ssmos.LineEditor

namespace Ssmos

namespace Terminal

def nameOf (s : Terminal) (p : Ptr) : Text := s.str (s.struct p).name

def commandOf (s : Terminal) (p : Ptr) : Text := s.str (s.struct p).command

/-- After the values `ps` were used as a `struct alias`, in this order. -/
def derefs (s : Terminal) (ps : List Ptr) : Terminal :=
  { s with log := (ps.map .deref).reverse ++ s.log }

theorem derefs_cons (s : Terminal) (p : Ptr) (ps : List Ptr) :
    (s.event (.deref p)).derefs ps = s.derefs (p :: ps) := by
  simp [derefs, event]

end Terminal

/-- What `find_alias` returns. -/
def Finds (s : Terminal) (name : Text) (r : Option Ptr) : Prop :=
  ∃ s', Term.findAlias name s = .ok (r, s')

/-! ## The two searches -/

section

variable {s : Terminal} {t : Text} {ps : List Ptr}

theorem strcmp_text {t u : Text} : strcmp t.chars u.chars = 0 ↔ t = u :=
  strcmp_eq_zero.trans ⟨Text.ext, congrArg Text.chars⟩

theorem findAliasLoop_eq (hps : NULL ∉ ps) : ∃ vs, (∀ v ∈ vs, v ∈ ps) ∧
    Term.findAliasLoop t ps s = .ok (lookup s.nameOf ps t, s.derefs vs) := by
  induction ps generalizing s with
  | nil => exact ⟨[], by simp, rfl⟩
  | cons p ps ih =>
    have hp := List.ne_of_not_mem_cons hps
    have hps := List.not_mem_of_not_mem_cons hps
    have hstep : Term.findAliasLoop t (p :: ps) s =
        if strcmp (s.nameOf p).chars t.chars = 0 then .ok (some p, s.derefs [p])
        else Term.findAliasLoop t ps (s.event (.deref p)) := by
      simp only [Term.findAliasLoop, if_neg (Ne.symm hp)]
      change (if strcmp (s.nameOf p).chars t.chars = 0 then pure (some p)
        else Term.findAliasLoop t ps : Term _) (s.event (.deref p)) = _
      split <;> rfl
    rw [hstep, lookup_cons]
    by_cases hname : s.nameOf p = t
    · exact ⟨[p], by simp, by rw [if_pos (strcmp_text.mpr hname), if_pos hname]⟩
    · obtain ⟨vs, hvs, h⟩ := ih (s := s.event (.deref p)) hps
      refine ⟨p :: vs, by simpa using fun v hv => .inr (hvs v hv), ?_⟩
      rw [if_neg (mt strcmp_text.mp hname), if_neg hname, h, Terminal.derefs_cons]
      rfl

theorem findAlias_eq (hnull : NULL ∉ s.aliases) : ∃ vs, (∀ v ∈ vs, v ∈ s.aliases) ∧
    Term.findAlias t s = .ok (lookup s.nameOf s.aliases t, s.derefs vs) := by
  rw [Term.findAlias, StateT.bind_of_ok (Term.get_eq s)]
  cases hal : s.aliases with
  | nil => exact ⟨[], by simp, rfl⟩
  | cons p ps =>
    rw [hal] at hnull
    rw [if_neg (show firstValue (p :: ps) ≠ NULL from Ne.symm (List.ne_of_not_mem_cons hnull))]
    exact findAliasLoop_eq hnull

theorem finds_iff (hnull : NULL ∉ s.aliases) {r : Option Ptr} :
    Finds s t r ↔ lookup s.nameOf s.aliases t = r := by
  obtain ⟨vs, -, h⟩ := findAlias_eq (t := t) hnull
  simp only [Finds, h, Except.ok.injEq, Prod.mk.injEq]
  exact ⟨fun ⟨_, hr, _⟩ => hr, fun hr => ⟨_, hr, rfl⟩⟩

theorem overwriteLoop_eq {newalias : Ptr} (newcmd : Ptr) (ps : List Ptr) (ht : s.str newalias = t) :
    ∃ vs, (∀ v ∈ vs, v ∈ ps) ∧ Term.overwriteLoop newalias newcmd ps s =
      match lookup s.nameOf ps t with
      | none => .ok (false, s.derefs vs)
      | some p => .ok (true, (((s.derefs vs).setStruct p { s.struct p with command := newcmd }).release
          (s.struct p).command).release newalias) := by
  induction ps generalizing s with
  | nil => exact ⟨[], by simp, rfl⟩
  | cons p ps ih =>
    have hstep : Term.overwriteLoop newalias newcmd (p :: ps) s =
        if strcmp t.chars (s.nameOf p).chars = 0 then
          .ok (true, (((s.derefs [p]).setStruct p { s.struct p with command := newcmd }).release
            (s.struct p).command).release newalias)
        else Term.overwriteLoop newalias newcmd ps (s.event (.deref p)) := by
      subst ht
      change (if strcmp (s.str newalias).chars (s.nameOf p).chars = 0 then _
        else Term.overwriteLoop newalias newcmd ps : Term _) (s.event (.deref p)) = _
      split <;> rfl
    rw [hstep, lookup_cons]
    by_cases hname : s.nameOf p = t
    · exact ⟨[p], by simp, by rw [if_pos (strcmp_text.mpr hname.symm), if_pos hname]⟩
    · obtain ⟨vs, hvs, h⟩ := ih (s := s.event (.deref p)) ht
      refine ⟨p :: vs, by simpa using fun v hv => .inr (hvs v hv), ?_⟩
      rw [if_neg fun hz => hname (strcmp_text.mp hz).symm, if_neg hname, h, Terminal.derefs_cons]
      rfl

end

/-! ## Definitions -/

/-- `params` is `name ' ' cmd`. -/
def Defines (params name cmd : Text) : Prop :=
  params.chars = name.chars ++ 0x20 :: cmd.chars ∧ name.chars ≠ [] ∧ 0x20 ∉ name.chars

/-- `params` is empty, starts with a space, or is one word. -/
def NoDefinition (params : Text) : Prop :=
  params.chars = [] ∨ params.chars.head? = some 0x20 ∨ 0x20 ∉ params.chars

/-- Parameters that are there and define nothing are one word. -/
theorem NoDefinition.space_notMem {params : Text} (hno : NoDefinition params)
    (hlist : ¬(params.chars = [] ∨ params.chars.head? = some 0x20)) : 0x20 ∉ params.chars := by
  rcases hno with hno | hno | hno
  · exact absurd (.inl hno) hlist
  · exact absurd (.inr hno) hlist
  · exact hno

theorem defines_or (params : Text) : NoDefinition params ∨ ∃ name cmd, Defines params name cmd := by
  by_cases hspace : 0x20 ∈ params.chars
  · obtain ⟨name, cmd, hsplit, hname⟩ := List.eq_append_cons_of_mem hspace
    by_cases hne : name = []
    · exact .inl (.inr (.inl (by rw [hsplit, hne]; rfl)))
    · have hnz : ∀ c ∈ name ++ 0x20 :: cmd, c ≠ 0 := hsplit ▸ params.nonzero
      exact .inr ⟨⟨name, fun c hc => hnz c (List.mem_append_left _ hc)⟩,
        ⟨cmd, fun c hc => hnz c (List.mem_append_right _ (List.mem_cons_of_mem _ hc))⟩, hsplit, hne, hname⟩
  · exact .inl (.inr (.inr hspace))

/-- A definition is split at its first space. -/
theorem Defines.split {params name cmd : Text} (h : Defines params name cmd) :
    params.word = name ∧ params.afterWord = cmd := by
  obtain ⟨hparams, -, hspace⟩ := h
  obtain ⟨hword, hrest⟩ := Text.split_eq hparams hspace (.inr rfl)
  exact ⟨hword, Text.ext (congrArg List.tail hrest)⟩

theorem defines_of_split {params : Text} (hname : params.word.chars ≠ [])
    (hcmd : params.afterWord.chars ≠ []) :
    Defines params params.word params.afterWord := by
  refine ⟨?_, hname, params.space_not_mem_word⟩
  rcases params.dropWord_eq with ⟨-, hafter⟩ | hrest
  · exact absurd (congrArg Text.chars hafter) hcmd
  · rw [← hrest]
    exact params.chars_eq

theorem Defines.unique {params name cmd name' cmd' : Text} (h : Defines params name cmd)
    (h' : Defines params name' cmd') : name' = name ∧ cmd' = cmd :=
  ⟨h'.split.1.symm.trans h.split.1, h'.split.2.symm.trans h.split.2⟩

theorem Defines.not_noDefinition {params name cmd : Text} (h : Defines params name cmd) :
    ¬NoDefinition params := by
  obtain ⟨hparams, hne, hspace⟩ := h
  intro hx
  rcases hx with hnil | hhead | hword
  · rw [hparams] at hnil
    exact List.append_ne_nil_of_left_ne_nil hne _ hnil
  · rw [hparams, List.head?_append_of_ne_nil _ hne] at hhead
    exact hspace (List.mem_of_head? hhead)
  · exact hword (by rw [hparams]; exact List.mem_append_right _ List.mem_cons_self)

/-! ## One call of `alias` -/

section

variable {s : Terminal} {params name cmd : Text}

/-- The two strings `alias` makes of them. -/
def Terminal.prepared (s : Terminal) (name cmd : Text) : Terminal :=
  { s with
    str := fun q => if q = s.next + 1 then cmd else if q = s.next then name else s.str q
    next := s.next + 2
    log := .alloc (s.next + 1) :: .alloc s.next :: s.log
    blocks := ((s.mark (.data s.next)).mark (.data (s.next + 1))).blocks }

theorem Terminal.next_ne (s : Terminal) : s.next ≠ s.next + 1 := Nat.ne_of_lt (Nat.lt_succ_self _)

/-- As the first one is filled. -/
theorem fresh_setStr (s : Terminal) (name : Text) :
    s.fresh.fresh.setStr s.next name = s.prepared name Text.empty := by
  simp only [Terminal.prepared, Terminal.fresh, Terminal.setStr, Terminal.alloc, Terminal.event, Terminal.mark,
    Terminal.mk.injEq, and_true]
  refine ⟨?_, trivial, trivial, trivial, rfl⟩
  funext q
  by_cases hq : q = s.next
  · rw [if_pos hq, hq, if_neg s.next_ne, if_pos rfl]
  · rw [if_neg hq, if_neg hq, if_neg hq]
    rfl

theorem prepared_setName {t : Text} : (s.prepared name cmd).setStr s.next t = s.prepared t cmd := by
  simp only [Terminal.prepared, Terminal.setStr, Terminal.mk.injEq, and_true]
  funext q
  by_cases hq : q = s.next
  · rw [if_pos hq, hq, if_neg s.next_ne, if_pos rfl]
  · rw [if_neg hq, if_neg hq, if_neg hq]

theorem prepared_setCmd {t : Text} : (s.prepared name cmd).setStr (s.next + 1) t = s.prepared name t := by
  simp only [Terminal.prepared, Terminal.setStr, Terminal.mk.injEq, and_true]
  funext q
  split <;> rfl

theorem prepared_name : (s.prepared name cmd).str s.next = name :=
  (if_neg s.next_ne).trans (if_pos rfl)

theorem prepared_cmd : (s.prepared name cmd).str (s.next + 1) = cmd := if_pos rfl

theorem prepared_blocks : (s.prepared name cmd).blocks (.data (s.next + 1)) = true := Terminal.blocks_mark _ _

theorem prepared_blocks_name : (s.prepared name cmd).blocks (.data s.next) = true :=
  Terminal.mark_kept (Terminal.blocks_mark _ _)

theorem fresh_fresh_blocks (s : Terminal) : s.fresh.fresh.blocks (.data s.next) = true :=
  Terminal.mark_kept (fresh_blocks s)

theorem fresh_str (s : Terminal) : s.fresh.fresh.str s.next = Text.empty :=
  (if_neg s.next_ne).trans (if_pos rfl)

theorem aliasCmd_defines (hnext : s.next ≠ NULL) (h : Defines params name cmd) :
    Term.aliasCmd params s = Term.aliasDefine s.next (s.next + 1) (s.prepared name cmd) := by
  obtain ⟨hparams, hne, hspace⟩ := h
  have hnot : ¬(params.chars = [] ∨ params.chars.head? = some 0x20) := by
    rw [hparams]
    cases hc : name.chars with
    | nil => exact absurd hc hne
    | cons c cs =>
      rw [hc] at hspace
      simpa using Ne.symm (List.ne_of_not_mem_cons hspace)
  have hword : Term.copyWord s.next params.chars ((s.fresh).fresh) =
      .ok (0x20 :: cmd.chars, s.prepared name Text.empty) := by
    rw [hparams, copyWord_eq hnext (fresh_fresh_blocks s) hspace (.inr rfl), Text.foldl_push, fresh_str,
      Text.empty_append, fresh_setStr]
  have hrest : Term.copyRest (s.next + 1) cmd.chars (s.prepared name Text.empty) =
      .ok ((), s.prepared name cmd) := by
    rw [copyRest_eq (Nat.succ_ne_zero _) prepared_blocks, Text.foldl_push, prepared_cmd, Text.empty_append,
      prepared_setCmd]
  rw [Term.aliasCmd, if_neg hnot, StateT.bind_of_ok (stringNew_eq s), StateT.bind_of_ok (stringNew_eq _),
    StateT.bind_of_ok hword]
  exact StateT.bind_of_ok hrest

/-- A definition that found the old alias `p`, after looking at `vs`. -/
def Terminal.overwritten (s : Terminal) (vs : List Ptr) (p newalias newcmd : Ptr) : Terminal :=
  (((s.derefs vs).setStruct p { s.struct p with command := newcmd }).release
    (s.struct p).command).release newalias

/-- A definition that found none. -/
def Terminal.appended (s : Terminal) (vs : List Ptr) (newalias newcmd : Ptr) : Terminal :=
  ((s.derefs vs).alloc.setStruct s.next { name := newalias, command := newcmd }).addAlias s.next

theorem aliasDefine_eq {newalias : Ptr} (newcmd : Ptr) (hname : s.str newalias = name) :
    ∃ vs, (∀ v ∈ vs, v ∈ s.aliases) ∧ Term.aliasDefine newalias newcmd s =
      .ok (SIG_SUCCESS, match lookup s.nameOf s.aliases name with
        | some p => s.overwritten vs p newalias newcmd
        | none => s.appended vs newalias newcmd) := by
  obtain ⟨vs, hvs, hloop⟩ := overwriteLoop_eq newcmd s.aliases hname
  refine ⟨vs, hvs, ?_⟩
  rw [Term.aliasDefine, StateT.bind_of_ok (Term.get_eq s)]
  cases hfind : lookup s.nameOf s.aliases name with
  | none =>
    rw [hfind] at hloop
    rw [StateT.bind_of_ok hloop]
    rfl
  | some p =>
    rw [hfind] at hloop
    rw [StateT.bind_of_ok hloop]
    rfl

/-- **A definition** of a name overwrites the alias that has it, or is a new one. -/
theorem aliasCmd_defined (hnext : s.next ≠ NULL) (hd : Defines params name cmd) :
    ∃ vs, (∀ v ∈ vs, v ∈ s.aliases) ∧ Term.aliasCmd params s =
      .ok (SIG_SUCCESS, match lookup (s.prepared name cmd).nameOf s.aliases name with
        | some p => (s.prepared name cmd).overwritten vs p s.next (s.next + 1)
        | none => (s.prepared name cmd).appended vs s.next (s.next + 1)) := by
  rw [aliasCmd_defines hnext hd]
  exact aliasDefine_eq (s.next + 1) prepared_name

/-- The struct of an overwritten alias has the new command. -/
theorem overwritten_struct {vs : List Ptr} {p newalias newcmd q : Ptr} :
    (s.overwritten vs p newalias newcmd).struct q =
    if q = p then { s.struct p with command := newcmd } else s.struct q := by
  simp only [Terminal.overwritten, Terminal.release, Terminal.event, Terminal.setStruct, Terminal.derefs]
  split <;> split <;> rfl

theorem overwritten_rest (s : Terminal) (vs : List Ptr) (p newalias newcmd : Ptr) :
    (s.overwritten vs p newalias newcmd).str = s.str ∧
    (s.overwritten vs p newalias newcmd).aliases = s.aliases ∧
    (s.overwritten vs p newalias newcmd).next = s.next ∧
    (s.overwritten vs p newalias newcmd).input = s.input := by
  simp only [Terminal.overwritten, Terminal.release, Terminal.event, Terminal.setStruct, Terminal.derefs]
  split <;> split <;> exact ⟨rfl, rfl, rfl, rfl⟩

end

theorem addValue_eq {l : List Ptr} {q : Ptr} (hl : l ≠ []) (hnull : NULL ∉ l) :
    addValue l q = l ++ [q] := by
  cases l with
  | nil => exact absurd rfl hl
  | cons v vs => exact if_neg (Ne.symm (List.ne_of_not_mem_cons hnull))

theorem EventCalm.aliasCmd_noDefinition {n : Ptr} {D : Ptr → Prop} {I : Terminal → Prop} {params : Text}
    (h : EventCalm n D I) (hno : NoDefinition params) : Preserves I (Term.aliasCmd params) := by
  refine .ite (fun _ => h.aliasList) fun hlist => ?_
  have hword := hno.space_notMem hlist
  refine h.stringNew.bind fun _ hp => h.stringNew.bind fun _ hq => ?_
  refine Yields.bind (h.copyWord_nil hp hword) fun rest hrest => ?_
  subst hrest
  exact h.aliasError hp hq

end Ssmos

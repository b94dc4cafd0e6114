/-
The listing of `help`: all names in rows of four columns, and one read of
`commands[]` too many. `listLoop` is the loop of `help` on the buffer's text,
with the lines it prints and the entries whose name it reads.
-/
import Ssmos.Lines
import Ssmos.Wrapping

namespace Ssmos

/-! ## The loop, with its reads -/

/-- The buffer filled with blanks up to the next column. -/
def padded (t : Text) : Text :=
  t.append ⟨List.replicate ((20 - t.length % 20) % 20) 0x20, fun c hc => by
    rw [List.eq_of_mem_replicate hc]
    decide⟩

/-- What filling a line leaves, and the entries it read. -/
structure Line where
  buffer : Text
  i : Nat
  reads : List Nat

/-- `while (strlen(stringbuffer->data) <= 60)`; `rest` are the commands from `i` on. -/
def fillFrom (buffer : Text) : List Command → Nat → Line
  | [], i => ⟨if buffer.length ≤ 60 then padded buffer else buffer, i, []⟩
  | c :: cs, i =>
    if buffer.length ≤ 60 then
      let line := fillFrom ((padded buffer).append c.name) cs (i + 1)
      { line with reads := i :: line.reads }
    else ⟨buffer, i, []⟩

/-- What a run of the loop prints, and the entries it reads. -/
structure Listing where
  printed : List Text
  reads : List Nat

/-- `while (i <= num_commands)`; `past` is the name behind the last entry. -/
def listLoop (table : List Command) (past : Option Text) : Nat → Nat → Bool → Text → Option Listing
  | 0, _, _, _ => none
  | n + 1, i, linecomplete, buffer =>
    if i ≤ table.length then
      if linecomplete then
        let next := match table[i]? with
          | some c => c.name
          | none => past.getD buffer
        (listLoop table past n (i + 1) false next).map fun r => ⟨buffer :: r.printed, i :: r.reads⟩
      else
        let line := fillFrom buffer (table.drop i) i
        (listLoop table past n line.i true line.buffer).map fun r => ⟨r.printed, line.reads ++ r.reads⟩
    else some ⟨[], []⟩

def listing (table : List Command) (past : Option Text) : Option Listing :=
  listLoop table past (2 * table.length + 5) 0 false .empty

/-- `writeline` for each of the lines. -/
def Term.writelines : List Text → Term Unit
  | [] => pure ()
  | line :: lines => do
    writeline line
    writelines lines

/-! ## The handler runs it -/

section

variable {table : List Command} {env : Env} {s : Terminal} {p : Ptr} {t u : Text} {k i : Nat} {cs : List Command}
  {msg : Text}

theorem padded_length (t : Text) : (padded t).length % 20 = 0 := by
  rw [padded, Text.append_length]
  simp only [Text.length, List.length_replicate]
  omega

theorem padded_of_mod (h : t.length % 20 = 0) : padded t = t := by
  refine Text.ext ?_
  simp [padded, Text.append, h]

theorem padded_push (h : t.length % 20 ≠ 0) : padded (t.push 0x20) = padded t := by
  have hne : (0x20 : UInt8) ≠ 0 := by decide
  have hlen : (20 - t.length % 20) % 20 = (20 - (t.push 0x20).length % 20) % 20 + 1 := by
    rw [Text.push_length hne]
    omega
  refine Text.ext ?_
  simp only [padded, Text.append, Text.push_chars hne, hlen, List.replicate_succ, List.append_assoc,
    List.singleton_append]

theorem padLoop_eq (hp : p ≠ NULL) (hb : s.blocks (.data p) = true) (hk : (20 - (s.str p).length % 20) % 20 < k) :
    Term.padLoop p k s = .ok ((), s.setStr p (padded (s.str p))) := by
  induction k generalizing s with
  | zero => omega
  | succ k ih =>
    have htext : Term.text p s = .ok (s.str p, s) := rfl
    rw [Term.padLoop, StateT.bind_of_ok htext]
    by_cases hmod : (s.str p).length % 20 = 0
    · rw [if_neg (not_not.mpr hmod), padded_of_mod hmod, Terminal.setStr_self]
      rfl
    · have hadd : Term.stringAddchar p 0x20 s = .ok ((), s.setStr p ((s.str p).push 0x20)) :=
        congrArg (fun s => Except.ok ((), s)) (Terminal.update_eq hp hb)
      have hb' : (s.setStr p ((s.str p).push 0x20)).blocks (.data p) = true := hb
      have hlen : ((s.str p).push 0x20).length = (s.str p).length + 1 := Text.push_length (by decide)
      rw [if_pos hmod, StateT.bind_of_ok hadd, ih hb' (by rw [Terminal.setStr_str_same, hlen]; omega),
        Terminal.setStr_setStr, Terminal.setStr_str_same, padded_push hmod]

theorem fillLine_eq (hp : p ≠ NULL) (hb : s.blocks (.data p) = true) : Term.fillLine p cs i s =
    .ok ((fillFrom (s.str p) cs i).i, s.setStr p (fillFrom (s.str p) cs i).buffer) := by
  have htext : ∀ s, Term.text p s = .ok (s.str p, s) := fun _ => rfl
  have hpad : ∀ s : Terminal, s.blocks (.data p) = true →
      Term.padLoop p 20 s = .ok ((), s.setStr p (padded (s.str p))) := fun s hb => padLoop_eq hp hb (by omega)
  induction cs generalizing i s with
  | nil =>
    rw [Term.fillLine, StateT.bind_of_ok (htext s), fillFrom]
    split
    · exact StateT.bind_of_ok (hpad s hb)
    · rw [Terminal.setStr_self]
      rfl
  | cons c cs ih =>
    rw [Term.fillLine, StateT.bind_of_ok (htext s), fillFrom]
    split
    · have hbs : ∀ t, (s.setStr p t).blocks (.data p) = true := fun _ => hb
      have hadd : Term.stringAdd p c.name (s.setStr p (padded (s.str p))) =
          .ok ((), s.setStr p ((padded (s.str p)).append c.name)) := by
        refine (congrArg (fun s => Except.ok ((), s)) (Terminal.update_eq hp (hbs _))).trans ?_
        rw [Terminal.setStr_setStr, Terminal.setStr_str_same]
      rw [StateT.bind_of_ok (hpad s hb), StateT.bind_of_ok hadd, ih (hbs _), Terminal.setStr_setStr,
        Terminal.setStr_str_same]
    · rw [Terminal.setStr_self]
      rfl

/-! ### Printing and the buffer -/

theorem setStr_comm {q : Ptr} (h : p ≠ q) : (s.setStr p t).setStr q u = (s.setStr q u).setStr p t := by
  simp only [Terminal.setStr, Terminal.mk.injEq, and_true]
  funext r
  by_cases hq : r = q
  · rw [if_pos hq, if_neg (by rw [hq]; exact Ne.symm h), if_pos hq]
  · rw [if_neg hq, if_neg hq]

theorem scrollLoop_scroll (h : s.promptY > ROWS - 1) : scrollLoop (k + 1) s = scrollLoop k { s with
    framebuffer := kccolor (kscroll s.framebuffer) (getPosition 0 0) (COLUMNS * ROWS) s.terminalColor
    promptY := s.promptY - 1 } := if_pos h

theorem scrollLoop_done (h : ¬s.promptY > ROWS - 1) : scrollLoop (k + 1) s = s := if_neg h

theorem scrollLoop_setStr : scrollLoop k (s.setStr p t) = (scrollLoop k s).setStr p t := by
  induction k generalizing s with
  | zero => rfl
  | succ k ih =>
    by_cases hlow : s.promptY > ROWS - 1
    · have hlow' : (s.setStr p t).promptY > ROWS - 1 := hlow
      rw [scrollLoop_scroll hlow, scrollLoop_scroll hlow', ← ih]
      simp only [Terminal.setStr]
    · have hlow' : ¬(s.setStr p t).promptY > ROWS - 1 := hlow
      rw [scrollLoop_done hlow, scrollLoop_done hlow']

/-- What a new prompt ends with. -/
theorem prompt_setStr (h : p ≠ s.input) :
    ({ ({ s.setStr p t with cursorY := s.promptY, cursorX := s.promptStringLength } : Terminal).setStr s.input
        Text.empty with inputPtr := 0 } : Terminal) =
      ({ ({ s with cursorY := s.promptY, cursorX := s.promptStringLength } : Terminal).setStr s.input
        Text.empty with inputPtr := 0 } : Terminal).setStr p t :=
  congrArg (fun s : Terminal => { s with inputPtr := 0 })
    (setStr_comm (s := { s with cursorY := s.promptY, cursorX := s.promptStringLength }) h)

theorem newPrompt_setStr (h : p ≠ s.input) : newPrompt (s.setStr p t) = (newPrompt s).setStr p t := by
  have hnext : ({ s.setStr p t with promptY := (s.setStr p t).promptY + 1 } : Terminal) =
      ({ s with promptY := s.promptY + 1 } : Terminal).setStr p t := rfl
  have hinput : (scrollLoop (s.promptY + 1 - (ROWS - 1) : Int).toNat
      { s with promptY := s.promptY + 1 }).input = s.input := by
    obtain ⟨fb, hfb⟩ := scrollLoop_eq (s := { s with promptY := s.promptY + 1 })
      (k := (s.promptY + 1 - (ROWS - 1) : Int).toNat) (by simp only; omega)
    rw [hfb]
  simp only [newPrompt]
  rw [hnext, scrollLoop_setStr]
  exact prompt_setStr fun he => h (he.trans hinput)

theorem pageLoop_setStr {w : List UInt8} {g : Page} (h : p ≠ s.input) :
    pageLoop i w (s.setStr p t) g = ((pageLoop i w s g).1.setStr p t, (pageLoop i w s g).2) := by
  induction w generalizing i s g with
  | nil => rfl
  | cons c w ih =>
    let s₁ : Terminal := { s with
      framebuffer := kputchar s.framebuffer (getPosition (i % COLUMNS) s.promptY) c s.terminalColor }
    have hput : ∀ s g, pageLoop i (c :: w) s g =
        if i > 0 ∧ i % (COLUMNS - 1) = 0 then
          pageLoop (i + 1) w (newPrompt { s with
            framebuffer := kputchar s.framebuffer (getPosition (i % COLUMNS) s.promptY) c s.terminalColor })
            (g.put i).newRow
        else pageLoop (i + 1) w { s with
          framebuffer := kputchar s.framebuffer (getPosition (i % COLUMNS) s.promptY) c s.terminalColor }
          (g.put i) := fun _ _ => rfl
    have hin : (newPrompt s₁).input = s.input := by
      obtain ⟨fb, hprompt⟩ := newPrompt_eq s₁
      rw [hprompt]
      rfl
    rw [hput, hput]
    split
    · have hnext := newPrompt_setStr (s := s₁) (t := t) h
      rw [← ih (s := newPrompt s₁) (by rw [hin]; exact h), ← hnext]
      rfl
    · exact ih (s := s₁) h

theorem writeline_setStr (h : p ≠ s.input) : Term.writeline msg (s.setStr p t) =
    .ok ((), (page s msg).1.setStr p t) := by
  rw [writeline_page, page, newPrompt_setStr h, pageLoop_setStr]
  · rfl
  · obtain ⟨fb, hprompt⟩ := newPrompt_eq s
    rw [hprompt]
    exact h

/-! ### The loop -/

/-- What the buffer held before is forgotten. -/
theorem writelines_setStr {lines : List Text} (h : p ≠ s.input) :
    (do Term.writelines lines; modify (·.setStr p t) : Term Unit) (s.setStr p u) =
      (do Term.writelines lines; modify (·.setStr p t) : Term Unit) s := by
  induction lines generalizing s with
  | nil => exact congrArg (fun s => Except.ok ((), s)) Terminal.setStr_setStr
  | cons line lines ih =>
    have hkept := ((quiet_string p (s.str p)).writeline ⟨rfl, Ne.symm h⟩ (writeline_page s line)).2.2
    simp only [Term.writelines, bind_assoc]
    rw [StateT.bind_of_ok (writeline_setStr h), StateT.bind_of_ok (writeline_page s line)]
    exact ih (Ne.symm hkept)

/-- The name that the buffer is set to after a line. -/
theorem setName_eq (hp : p ≠ NULL) (hb : s.blocks (.data p) = true) : Term.setName table env p i s =
    .ok ((), s.setStr p (match table[i]? with
      | some c => c.name
      | none => env.pastCommands.getD (s.str p))) := by
  have hset : ∀ t, Term.stringSet p t s = .ok ((), s.setStr p t) := fun t =>
    congrArg (fun s => Except.ok ((), s)) (Terminal.update_eq hp hb)
  rw [Term.setName]
  cases table[i]? with
  | some c => exact hset c.name
  | none =>
    cases env.pastCommands with
    | some name => exact hset name
    | none =>
      rw [Option.getD_none, Terminal.setStr_self]
      rfl

/-- **The loop of `help`** prints the lines of `listLoop`. -/
theorem helpLoop_eq {n : Nat} {linecomplete : Bool} {r : Listing} (hp : p ≠ NULL)
    (hb : s.blocks (.data p) = true) (hin : p ≠ s.input)
    (h : listLoop table env.pastCommands n i linecomplete (s.str p) = some r) :
    ∃ t, Term.helpLoop table env p n i linecomplete s =
      (do Term.writelines r.printed; modify (·.setStr p t) : Term Unit) s := by
  induction n generalizing i linecomplete s r with
  | zero => cases h
  | succ n ih =>
    have htext : Term.text p s = .ok (s.str p, s) := rfl
    rw [listLoop] at h
    rw [Term.helpLoop]
    by_cases hi : i ≤ table.length
    · rw [if_pos hi] at h ⊢
      cases linecomplete with
      | true =>
        obtain ⟨r, hr, rfl⟩ := Option.map_eq_some_iff.mp h
        obtain ⟨hstr, hin₁⟩ := ((quiet_string p (s.str p)).writeline ⟨rfl, Ne.symm hin⟩
          (writeline_page s (s.str p))).2
        have hb₁ := ((quiet_blocks (.data p)).writeline hb (writeline_page s (s.str p))).2
        generalize hs₁ : (page s (s.str p)).1 = s₁ at hstr hin₁ hb₁
        have hwrite : Term.writeline (s.str p) s = .ok ((), s₁) := hs₁ ▸ writeline_page s (s.str p)
        rw [← hstr] at hr
        obtain ⟨t, ht⟩ := ih (s := s₁.setStr p _) hb₁ (Ne.symm hin₁) (by rw [Terminal.setStr_str_same]; exact hr)
        refine ⟨t, ?_⟩
        rw [if_pos rfl, StateT.bind_of_ok htext, StateT.bind_of_ok hwrite, StateT.bind_of_ok (setName_eq hp hb₁), ht,
          writelines_setStr (Ne.symm hin₁)]
        simp only [Term.writelines, bind_assoc]
        rw [StateT.bind_of_ok hwrite]
      | false =>
        obtain ⟨r, hr, rfl⟩ := Option.map_eq_some_iff.mp h
        obtain ⟨t, ht⟩ := ih (s := s.setStr p _) hb hin (by rw [Terminal.setStr_str_same]; exact hr)
        refine ⟨t, ?_⟩
        rw [if_neg Bool.false_ne_true, StateT.bind_of_ok (fillLine_eq hp hb), ht, writelines_setStr hin]
    · rw [if_neg hi] at h ⊢
      cases h
      exact ⟨s.str p, congrArg (fun s => Except.ok ((), s)) Terminal.setStr_self.symm⟩

/-- `help` without parameters, with its lines and with what it leaves in the buffer. -/
def Term.helpPrinting (lines : List Text) (last : Text) : Term Int := do
  let stringbuffer ← stringNew
  writeline (Text.lit "Commands (type help COMMAND for more information):")
  writeline (Text.lit "")
  writelines lines
  modify (·.setStr stringbuffer last)
  stringFree stringbuffer
  modify newPrompt
  return SIG_SUCCESS

theorem help_eq {r : Listing} (hin : s.input < s.next) (h : listing table env.pastCommands = some r) :
    ∃ last, Term.help table env .empty s = Term.helpPrinting r.printed last s := by
  have hempty : s.fresh.str s.next = Text.empty := if_pos rfl
  have hquiet := quiet_string s.next Text.empty
  obtain ⟨_, s₁, hwrite₁⟩ : ∃ r s₁, Term.writeline
      (Text.lit "Commands (type help COMMAND for more information):") s.fresh = .ok (r, s₁) := writeline_total _
  obtain ⟨_, s₂, hwrite₂⟩ : ∃ r s₂, Term.writeline (Text.lit "") s₁ = .ok (r, s₂) := writeline_total _
  have hs₁ := (hquiet.writeline ⟨hempty, Nat.ne_of_lt hin⟩ hwrite₁).2
  have hs₂ := (hquiet.writeline hs₁ hwrite₂).2
  have hblocks := quiet_blocks (.data s.next)
  have hb₂ : s₂.blocks (.data s.next) = true :=
    (hblocks.writeline (hblocks.writeline (fresh_blocks s) hwrite₁).2 hwrite₂).2
  obtain ⟨last, hloop⟩ := helpLoop_eq (s := s₂) (p := s.next) (Nat.ne_zero_of_lt hin) hb₂ (Ne.symm hs₂.2)
    (by rw [hs₂.1]; exact h)
  refine ⟨last, ?_⟩
  simp only [Term.help, Text.empty, ne_eq, not_true_eq_false, if_false, Term.helpList, Term.helpPrinting,
    bind_assoc]
  rw [StateT.bind_of_ok (stringNew_eq s), StateT.bind_of_ok (stringNew_eq s), StateT.bind_of_ok hwrite₁,
    StateT.bind_of_ok hwrite₁, StateT.bind_of_ok hwrite₂, StateT.bind_of_ok hwrite₂, StateT.bind_congr_left hloop]
  simp only [bind_assoc]

end

/-! ## Rows of four columns -/

/-- A column holds the name and at least one blank. -/
def FitsColumn (c : Command) : Prop := 1 ≤ c.name.length ∧ c.name.length < 20

def columns (row : List Command) : Text := row.foldr (fun c t => (padded c.name).append t) .empty

/-- The commands in order, four in a row. -/
def rows (table : List Command) : List Text :=
  (List.range ((table.length + 3) / 4)).map fun q => columns ((table.drop (4 * q)).take 4)

section

variable {table row done cs : List Command} {c : Command} {a b buffer : Text} {past : Option Text} {i n : Nat}

theorem padded_fits (h : FitsColumn c) : (padded c.name).length = 20 := by
  obtain ⟨hpos, hlt⟩ := h
  rw [padded, Text.append_length]
  simp only [Text.length, List.length_replicate] at *
  omega

theorem columns_length (h : ∀ c ∈ row, FitsColumn c) : (columns row).length = 20 * row.length := by
  induction row with
  | nil => rfl
  | cons c row ih =>
    rw [columns, List.foldr_cons, Text.append_length, padded_fits (h c List.mem_cons_self)]
    have := ih fun d hd => h d (List.mem_cons_of_mem _ hd)
    rw [columns] at this
    rw [this, List.length_cons]
    omega

theorem columns_concat : columns (row ++ [c]) = (columns row).append (padded c.name) := by
  induction row with
  | nil => exact Text.ext (by simp [columns, Text.append, Text.empty])
  | cons d row ih =>
    simp only [columns, List.cons_append, List.foldr_cons] at ih ⊢
    rw [ih]
    exact Text.ext (List.append_assoc _ _ _).symm

theorem padded_append (h : a.length % 20 = 0) : padded (a.append b) = a.append (padded b) := by
  have hmod : (a.append b).length % 20 = b.length % 20 := by
    rw [Text.append_length]
    omega
  refine Text.ext ?_
  change (a.append b).chars ++ List.replicate ((20 - (a.append b).length % 20) % 20) 0x20 = _
  rw [hmod]
  exact List.append_assoc _ _ _

/-- The buffer holds the commands of `done`, but for the blanks after the last. -/
structure Columns (done : List Command) (buffer : Text) : Prop where
  fits : ∀ c ∈ done, FitsColumn c
  padded : padded buffer = columns done
  le : done.length ≤ 4
  room : buffer.length ≤ 60 ↔ done.length < 4

theorem Columns.empty : Columns [] .empty :=
  ⟨fun c hc => absurd hc List.not_mem_nil, Text.ext rfl, by decide, by decide⟩

/-- A line begun with a name. -/
theorem Columns.single (hc : FitsColumn c) : Columns [c] c.name := by
  refine ⟨by simpa using hc, Text.ext (List.append_nil _).symm, by simp, ?_⟩
  have hle := hc.2
  rw [List.length_singleton]
  omega

theorem Columns.push (h : Columns done buffer) (hlt : done.length < 4) (hc : FitsColumn c) :
    Columns (done ++ [c]) ((Ssmos.padded buffer).append c.name) := by
  have hlen := columns_length h.fits
  rw [h.padded]
  refine ⟨fun d hd => ?_, ?_, ?_, ?_⟩
  · rcases List.mem_append.mp hd with hd | hd
    · exact h.fits d hd
    · rw [List.mem_singleton.mp hd]
      exact hc
  · rw [padded_append (by omega), columns_concat]
  · rw [List.length_append, List.length_singleton]
    omega
  · obtain ⟨hpos, hle⟩ := hc
    rw [Text.append_length, List.length_append, List.length_singleton]
    omega

/-- Filling a line takes the commands there is room for. -/
theorem fillFrom_spec (h : Columns done buffer) (hcs : ∀ c ∈ cs, FitsColumn c) :
    ∃ buffer', fillFrom buffer cs i = ⟨buffer', i + min (4 - done.length) cs.length,
        List.range' i (min (4 - done.length) cs.length)⟩ ∧
      Ssmos.padded buffer' = columns (done ++ cs.take (4 - done.length)) := by
  induction cs generalizing done buffer i with
  | nil =>
    rw [fillFrom]
    refine ⟨_, by simp; rfl, ?_⟩
    rw [List.take_nil, List.append_nil, ← h.padded]
    split
    · exact padded_of_mod (padded_length buffer)
    · rfl
  | cons c cs ih =>
    have hlen := h.le
    rw [fillFrom]
    by_cases hroom : buffer.length ≤ 60
    · have hlt := h.room.mp hroom
      obtain ⟨buffer', hfill, hpad⟩ := ih (i := i + 1) (h.push hlt (hcs c List.mem_cons_self))
        fun d hd => hcs d (List.mem_cons_of_mem _ hd)
      obtain ⟨k, hk⟩ : ∃ k, 4 - done.length = k + 1 := ⟨3 - done.length, by omega⟩
      rw [List.length_append, List.length_singleton, show 4 - (done.length + 1) = k by omega] at hfill hpad
      refine ⟨buffer', ?_, ?_⟩
      · rw [if_pos hroom, hfill, hk, List.length_cons, Nat.add_min_add_right, List.range'_succ]
        simp only [Line.mk.injEq, and_true, true_and]
        omega
      · rw [hpad, hk, List.take_succ_cons, List.append_assoc, List.singleton_append]
    · rw [if_neg hroom]
      have hfull : 4 - done.length = 0 := by
        have := mt h.room.mpr hroom
        omega
      refine ⟨buffer, by rw [hfull, Nat.zero_min]; rfl, ?_⟩
      rw [hfull, List.take_zero, List.append_nil, h.padded]

theorem rows_cons (h : table ≠ []) : rows table = columns (table.take 4) :: rows (table.drop 4) := by
  have hpos := List.length_pos_iff.mpr h
  have hlen : (table.length + 3) / 4 = ((table.drop 4).length + 3) / 4 + 1 := by
    rw [List.length_drop]
    omega
  rw [rows, hlen, List.range_succ_eq_map, List.map_cons, List.map_map, rows]
  simp only [Nat.mul_zero, List.drop_zero, List.cons.injEq, true_and]
  refine List.map_congr_left fun q _ => ?_
  simp only [Function.comp_apply, List.drop_drop]
  congr 3
  omega

/-- A begun line takes what there is room for, and the rest are rows again. -/
theorem rows_append (h : done.length ≤ 4) (hne : done ++ cs ≠ []) :
    rows (done ++ cs) =
      columns (done ++ cs.take (4 - done.length)) :: rows (cs.drop (4 - done.length)) := by
  rw [rows_cons hne, List.take_append, List.take_of_length_le h, List.drop_append, List.drop_eq_nil_of_le h,
    List.nil_append]

theorem listLoop_end {linecomplete : Bool} (h : table.length < i) :
    listLoop table past (n + 1) i linecomplete buffer = some ⟨[], []⟩ := if_neg (Nat.not_le_of_lt h)

/-- From any entry on, with the names before it on the line already. -/
theorem listLoop_spec (past : Option Text) {k : Nat} (hn : 2 * k + 3 ≤ n) (h : Columns done buffer)
    (hdone : done.length ≤ 1) (hcs : ∀ c ∈ table.drop i, FitsColumn c) (hk : i + k = table.length)
    (hne : done ++ table.drop i ≠ []) :
    ∃ r, listLoop table past n i false buffer = some r ∧ r.printed.map padded = rows (done ++ table.drop i) ∧
      r.reads = List.range' i (k + 1) := by
  induction n using Nat.strong_induction_on generalizing done buffer i k with
  | _ n ih =>
    obtain ⟨n, rfl⟩ : ∃ j, n = j + 2 := ⟨n - 2, by omega⟩
    have hlen : (table.drop i).length = k := by
      rw [List.length_drop]
      omega
    obtain ⟨buffer', hfill, hpad⟩ := fillFrom_spec (i := i) h hcs
    rw [hlen] at hfill
    obtain ⟨m, hm⟩ : ∃ m, m = min (4 - done.length) k := ⟨_, rfl⟩
    rw [← hm] at hfill
    rw [listLoop, if_pos (by omega), if_neg Bool.false_ne_true, hfill]
    simp only
    rw [listLoop, if_pos (by omega), if_pos rfl, rows_append h.le hne, ← hpad]
    by_cases hlast : m = k
    · -- The commands are all on the line; the entry behind the last is read after it.
      have hrest : (table.drop i).drop (4 - done.length) = [] := List.drop_eq_nil_of_le (by omega)
      obtain ⟨n, rfl⟩ : ∃ j, n = j + 1 := ⟨n - 1, by omega⟩
      refine ⟨⟨[buffer'], List.range' i m ++ [i + m]⟩, ?_, ?_, ?_⟩
      · simp only [listLoop_end (show table.length < i + m + 1 by omega)]
        rfl
      · rw [hrest]
        rfl
      · rw [hlast]
        exact List.range'_1_concat.symm
    · -- The next one begins a line.
      have hlt : i + m < table.length := by omega
      have hnext : (table.drop i).drop (4 - done.length) = table[i + m] :: table.drop (i + m + 1) := by
        rw [List.drop_drop, ← List.drop_eq_getElem_cons hlt]
        congr 1
        omega
      have hfits : FitsColumn table[i + m] := hcs _ (List.mem_of_mem_drop (hnext ▸ List.mem_cons_self))
      obtain ⟨r, hloop, hprinted, hreads⟩ := ih n (by omega) (k := k - m - 1) (i := i + m + 1) (by omega)
        (.single hfits) (Nat.le_refl _)
        (fun c hc => hcs c (List.mem_of_mem_drop (hnext ▸ List.mem_cons_of_mem _ hc))) (by omega)
        (List.cons_ne_nil _ _)
      refine ⟨⟨buffer' :: r.printed, List.range' i m ++ (i + m) :: r.reads⟩, ?_, ?_, ?_⟩
      · simp only [List.getElem?_eq_getElem hlt, hloop]
        rfl
      · rw [hnext, List.map_cons, hprinted]
        rfl
      · simp only [hreads]
        rw [← List.range'_succ, List.range'_append_1]
        congr 1
        omega

/-- All names, once and in order, and no entry but those of the table. -/
def ListsInBounds (table : List Command) (past : Option Text) : Prop :=
  ∃ r, listing table past = some r ∧ r.printed.map padded = rows table ∧ ∀ i ∈ r.reads, i < table.length

/-- **The help listing** ends, with all names once and in order in columns of
20 chars, and reads the name behind the last entry of every table. -/
theorem help_never_inBounds (hne : table ≠ []) (hfits : ∀ c ∈ table, FitsColumn c) (past : Option Text) :
    (∃ r, listing table past = some r ∧ r.printed.map padded = rows table ∧
      r.reads = List.range (table.length + 1) ∧
      ∀ env s, env.pastCommands = past → s.input < s.next →
        ∃ last, Term.help table env .empty s = Term.helpPrinting r.printed last s) ∧
    ¬ListsInBounds table past := by
  obtain ⟨r, hlist, hprinted, hreads⟩ := listLoop_spec past (i := 0) (Nat.le_add_right _ 2) .empty
    (Nat.zero_le _) hfits (Nat.zero_add _) hne
  rw [← List.range_eq_range'] at hreads
  refine ⟨⟨r, hlist, hprinted, hreads, fun env s hpast hin => help_eq hin (hpast ▸ hlist)⟩, fun hx => ?_⟩
  obtain ⟨r', hlist', -, hbound⟩ := hx
  obtain rfl : r = r' := Option.some.inj (hlist.symm.trans hlist')
  have := hbound table.length (by rw [hreads, List.mem_range]; exact Nat.lt_succ_self _)
  omega

theorem help_never_inBounds_commands : (∃ r, listing commands none = some r ∧
      r.printed.map padded = rows commands ∧ r.reads = List.range 19 ∧
      ∀ env s, env.pastCommands = none → s.input < s.next →
        ∃ last, Term.help commands env .empty s = Term.helpPrinting r.printed last s) ∧
    ¬ListsInBounds commands none :=
  help_never_inBounds (List.cons_ne_nil _ _) (by unfold FitsColumn; decide) none

/-- `help` over the command list reads `commands[18].name`, of 18 commands. -/
theorem help_reads_past : ¬ListsInBounds commands none := by
  have hpast : (listing commands none).map (fun r => decide (commands.length ∈ r.reads)) = some true := by
    decide +kernel
  intro hx
  obtain ⟨r, hlist, -, hbound⟩ := hx
  rw [hlist] at hpast
  exact absurd (hbound _ (of_decide_eq_true (Option.some.inj hpast))) (Nat.lt_irrefl _)

end

end Ssmos

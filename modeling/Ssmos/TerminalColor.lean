/-
`tcolor`: the color names it takes, the screen it leaves when both of its words
are one, and what it leaves alone otherwise.
-/
import Ssmos.Owed
import Ssmos.Cells

namespace Ssmos

/-! ## Names -/

/-- The names `tocolor` knows. -/
def colorNames : List (Text × Color) :=
  [(Text.lit "black", .black), (Text.lit "blue", .blue), (Text.lit "green", .green), (Text.lit "cyan", .cyan),
    (Text.lit "red", .red), (Text.lit "magenta", .magenta), (Text.lit "brown", .brown),
    (Text.lit "white", .lightGrey)]

/-- `t` is a name of `c`, whatever its case. -/
def Names (t : Text) (c : Color) : Prop := ∃ name, (name, c) ∈ colorNames ∧ t.tolower = name.tolower

theorem colorOf_eq (t : Text) :
    Term.colorOf t = ((lookup Prod.fst colorNames t).map Prod.snd).getD .unknown := by
  have hswap : ∀ u, t = u ↔ u = t := fun u => eq_comm
  have hnil : lookup Prod.fst ([] : List (Text × Color)) t = none := rfl
  simp only [Term.colorOf, strcmp_text, hswap, colorNames, lookup_cons, hnil, apply_ite (Option.map Prod.snd),
    apply_ite (Option.getD · Color.unknown), Option.map_some, Option.map_none, Option.getD_some,
    Option.getD_none]

theorem colorOf_iff {t : Text} {c : Color} : Term.colorOf t = c ∧ c ≠ .unknown ↔ (t, c) ∈ colorNames := by
  have hkeys : (colorNames.map Prod.fst).Nodup := by decide +kernel
  have hknown : ∀ x ∈ colorNames, x.2 ≠ .unknown := by decide +kernel
  rw [colorOf_eq]
  constructor
  · rintro ⟨hcolor, hc⟩
    cases hfind : lookup Prod.fst colorNames t with
    | none =>
      rw [hfind] at hcolor
      exact absurd hcolor.symm hc
    | some x =>
      rw [hfind] at hcolor
      have hx : x = (t, c) := Prod.ext (lookup_key hfind) hcolor
      exact hx ▸ lookup_mem hfind
  · intro h
    rw [lookup_of_mem (a := (t, c)) hkeys h]
    exact ⟨rfl, hknown _ h⟩

/-- `tocolor` finds the color with a name. -/
theorem colorOf_tolower_iff {t : Text} {c : Color} : Term.colorOf t.tolower = c ∧ c ≠ .unknown ↔ Names t c := by
  have hlower : ∀ x ∈ colorNames, x.1.tolower = x.1 := by decide +kernel
  refine colorOf_iff.trans ⟨fun h => ⟨_, h, (hlower _ h).symm⟩, ?_⟩
  rintro ⟨name, hname, ht⟩
  rw [ht, hlower _ hname]
  exact hname

/-! ## Words -/

/-- `f` is before the first space of `params`, and `b` is after it, up to the next one or the end. -/
def SplitsInto (params f b : Text) : Prop :=
  ∃ tail, params.chars = f.chars ++ 0x20 :: (b.chars ++ tail) ∧ 0x20 ∉ f.chars ∧ 0x20 ∉ b.chars ∧
    (tail = [] ∨ tail.head? = some 0x20)

theorem splitsInto_iff {params f b : Text} :
    SplitsInto params f b ↔ 0x20 ∈ params.chars ∧ params.word = f ∧ params.afterWord.word = b := by
  constructor
  · rintro ⟨tail, hparams, hf, hb, htail⟩
    obtain ⟨hword, hrest⟩ := Text.split_eq hparams hf (.inr rfl)
    refine ⟨hparams ▸ List.mem_append_right _ List.mem_cons_self, hword, ?_⟩
    exact (Text.split_eq (congrArg List.tail hrest) hb htail).1
  · rintro ⟨hspace, rfl, rfl⟩
    refine ⟨params.afterWord.chars.dropWhile (· ≠ 0x20), ?_, params.space_not_mem_word,
      params.afterWord.space_not_mem_word, params.afterWord.dropWord_head⟩
    rw [← params.afterWord.chars_eq, ← Text.dropWord_of_mem hspace]
    exact params.chars_eq

/-- The two words of `params` name these colors. -/
def Accepts (params : Text) (fg bg : Color) : Prop :=
  ∃ f b, SplitsInto params f b ∧ Names f fg ∧ Names b bg

theorem accepts_iff {params : Text} {fg bg : Color} :
    Accepts params fg bg ↔ 0x20 ∈ params.chars ∧
      (Term.colorOf params.word.tolower = fg ∧ fg ≠ .unknown) ∧
      (Term.colorOf params.afterWord.word.tolower = bg ∧ bg ≠ .unknown) := by
  constructor
  · rintro ⟨f, b, hsplit, hf, hb⟩
    obtain ⟨hspace, rfl, rfl⟩ := splitsInto_iff.mp hsplit
    exact ⟨hspace, colorOf_tolower_iff.mpr hf, colorOf_tolower_iff.mpr hb⟩
  · rintro ⟨hspace, hf, hb⟩
    exact ⟨_, _, splitsInto_iff.mpr ⟨hspace, rfl, rfl⟩, colorOf_tolower_iff.mp hf, colorOf_tolower_iff.mp hb⟩

/-! ## The two ways it ends -/

/-- The screen and the terminal are in the colors of `tcolor`, and the chars are what they were. -/
structure Recolored (s s' : Terminal) (fg bg : Color) : Prop where
  color : s'.terminalColor.toNat = bg.code.toNat * 16 + fg.code.toNat
  colors : ∀ i < COLUMNS * ROWS, s'.framebuffer (2 * i + 1) = s'.terminalColor
  chars : ∀ i, s'.framebuffer (2 * i) = s.framebuffer (2 * i)

theorem Recolored.event {s s' : Terminal} {fg bg : Color} (h : Recolored s s' fg bg) (e : Event) :
    Recolored s (s'.event e) fg bg :=
  ⟨h.color, h.colors, h.chars⟩

theorem Recolored.prepared {s s' : Terminal} {f b : Text} {fg bg : Color}
    (h : Recolored (s.prepared f b) s' fg bg) : Recolored s s' fg bg :=
  ⟨h.color, h.colors, h.chars⟩

theorem getColor_toNat {fg bg : Color} (hfg : fg ≠ .unknown) (hbg : bg ≠ .unknown) :
    (getColor fg bg).toNat = bg.code.toNat * 16 + fg.code.toNat := by
  have hnibble : ∀ c : Color, c ≠ .unknown → c.code.toNat < 16 := by
    intro c hc
    cases c
    case unknown => exact absurd rfl hc
    all_goals decide
  have hf := hnibble fg hfg
  have hb := hnibble bg hbg
  have hshift : (bg.code <<< 4).toNat = bg.code.toNat <<< 4 := by
    rw [UInt8.toNat_shiftLeft]
    exact Nat.mod_eq_of_lt (by rw [Nat.shiftLeft_eq]; simp; omega)
  rw [getColor, UInt8.toNat_or, hshift, Nat.or_comm, ← Nat.shiftLeft_add_eq_or_of_lt hf, Nat.shiftLeft_eq]

theorem setColors_recolored {s : Terminal} {fg bg : Color} (hfg : fg ≠ .unknown) (hbg : bg ≠ .unknown) :
    Recolored s (Term.setColors fg bg s) fg bg where
  color := getColor_toNat hfg hbg
  colors i hi := by
    have hfirst : getPosition 0 0 + 1 = 1 := rfl
    simp only [Term.setColors, kccolor]
    rw [hfirst, Nat.add_comm]
    exact kccolorLoop_colored (by simp only [FRAMEBUFFER_SIZE]; omega) hi
  chars i := by
    simp only [Term.setColors, kccolor]
    exact kccolorLoop_even (by omega) rfl

/-- Printing keeps the colors that are set. -/
theorem writeline_colors {msg : Text} {tc cc : UInt8} :
    Preserves (fun s => s.terminalColor = tc ∧ s.cursorColor = cc) (Term.writeline msg) := by
  have hprompt : Preserves (fun s => s.terminalColor = tc ∧ s.cursorColor = cc) (modify newPrompt : Term Unit) :=
    .modify fun s hs => by
      obtain ⟨fb, hfb⟩ := newPrompt_eq s
      rw [hfb]
      exact hs
  have hloop : ∀ (cs : List UInt8) (i : Nat),
      Preserves (fun s => s.terminalColor = tc ∧ s.cursorColor = cc) (Term.writelineLoop i cs) := by
    intro cs
    induction cs with
    | nil => exact fun _ => .pure
    | cons c cs ih =>
      intro i
      refine (Preserves.modify fun s hs => ?_).bind fun _ =>
        (Preserves.ite (fun _ => hprompt) fun _ => .pure).bind fun _ => ih (i + 1)
      exact hs
  exact hprompt.bind fun _ => hloop _ _

section

variable {s : Terminal} {p q : Ptr} {params : Text}

theorem tcolorError_eq (hp : p ≠ NULL) (hq : q ≠ NULL) : ∃ s', Term.tcolorError p q s = .ok (SIG_FAIL, s') ∧
    s'.terminalColor = s.terminalColor ∧ s'.cursorColor = s.cursorColor ∧
    s'.log = .free q :: .free p :: s.log := by
  have hreturns : Total (Term.writeline (Text.lit "Cannot parse color parameters, see help for format.")) :=
    writeline_total
  obtain ⟨_, s', hprint⟩ := hreturns ((s.event (.free p)).event (.free q))
  have hcolors := (writeline_colors ⟨rfl, rfl⟩ hprint).2
  have hlog : s'.holdings = _ := ((Quiet.holdings _).writeline rfl hprint).2
  refine ⟨s', ?_, hcolors.1, hcolors.2, congrArg Holdings.log hlog⟩
  rw [Term.tcolorError, StateT.bind_of_ok (stringFree_eq hp), StateT.bind_of_ok (stringFree_eq hq),
    StateT.bind_of_ok hprint]
  rfl

theorem tocolor_eq (hp : p ≠ NULL) (hb : s.blocks (.data p) = true) :
    Term.tocolor p s = .ok (Term.colorOf (s.str p).tolower, s.setStr p (s.str p).tolower) := by
  have hupdate : s.update p Text.tolower = s.setStr p (s.str p).tolower := Terminal.update_eq hp hb
  change Except.ok (Term.colorOf ((s.update p Text.tolower).str p), s.update p Text.tolower) = _
  rw [hupdate, Terminal.setStr_str_same]

/-- Parameters without a space are an error. -/
theorem tcolor_word (hnext : s.next ≠ NULL) (hspace : 0x20 ∉ params.chars) : Term.tcolor params s =
    Term.tcolorError s.next (s.next + 1) (s.prepared params.word Text.empty) := by
  rw [Term.tcolor, StateT.bind_of_ok (stringNew_eq s), StateT.bind_of_ok (stringNew_eq _),
    StateT.bind_of_ok (copyWord_word hnext (fresh_fresh_blocks s) (fresh_str s)),
    Text.dropWord_of_notMem hspace, fresh_setStr]
  rfl

/-- Of two words, the colors decide. -/
theorem tcolor_words (hnext : s.next ≠ NULL) (hspace : 0x20 ∈ params.chars) : Term.tcolor params s =
    (let fg := Term.colorOf params.word.tolower
    let bg := Term.colorOf params.afterWord.word.tolower
    if fg = .unknown ∨ bg = .unknown then Term.tcolorError s.next (s.next + 1)
    else do
      modify (Term.setColors fg bg)
      Term.stringFree s.next
      Term.stringFree (s.next + 1)
      return SIG_SUCCESS : Term Int)
      (s.prepared params.word.tolower params.afterWord.word.tolower) := by
  have hnext' : s.next + 1 ≠ NULL := Nat.succ_ne_zero _
  have hfresh : s.fresh.next = s.next + 1 := rfl
  rw [Term.tcolor, StateT.bind_of_ok (stringNew_eq s), StateT.bind_of_ok (stringNew_eq _),
    StateT.bind_of_ok (copyWord_word hnext (fresh_fresh_blocks s) (fresh_str s)),
    Text.dropWord_of_mem hspace, fresh_setStr, hfresh]
  change (Term.copyWord (s.next + 1) params.afterWord.chars >>= _) _ = _
  rw [StateT.bind_of_ok (copyWord_word hnext' prepared_blocks prepared_cmd), prepared_setCmd,
    StateT.bind_of_ok (tocolor_eq hnext prepared_blocks_name), prepared_name, prepared_setName,
    StateT.bind_of_ok (tocolor_eq hnext' prepared_blocks), prepared_cmd, prepared_setCmd]

/-- The strings of one call of `tcolor`: both are made, and both are freed. -/
def Terminal.temporaries (s : Terminal) : List Event :=
  [.free (s.next + 1), .free s.next, .alloc (s.next + 1), .alloc s.next]

theorem tcolor_accepted {fg bg : Color} (hnext : s.next ≠ NULL) (h : Accepts params fg bg) :
    ∃ s', Term.tcolor params s = .ok (SIG_SUCCESS, s') ∧ Recolored s s' fg bg ∧
      s'.log = s.temporaries ++ s.log := by
  obtain ⟨hspace, ⟨rfl, hfg⟩, ⟨rfl, hbg⟩⟩ := accepts_iff.mp h
  have hset := setColors_recolored (s := s.prepared params.word.tolower params.afterWord.word.tolower) hfg hbg
  refine ⟨_, ?_, (hset.prepared.event (.free s.next)).event (.free (s.next + 1)), rfl⟩
  rw [tcolor_words hnext hspace]
  simp only [if_neg (not_or.mpr ⟨hfg, hbg⟩)]
  have hmodify : ∀ f : Terminal → Terminal, ∀ t, (modify f : Term Unit) t = .ok ((), f t) := fun _ _ => rfl
  rw [StateT.bind_of_ok (hmodify _ _), StateT.bind_of_ok (stringFree_eq hnext),
    StateT.bind_of_ok (stringFree_eq (Nat.succ_ne_zero _))]
  rfl

theorem tcolor_rejected (hnext : s.next ≠ NULL) (h : ¬∃ fg bg, Accepts params fg bg) :
    ∃ s', Term.tcolor params s = .ok (SIG_FAIL, s') ∧ s'.terminalColor = s.terminalColor ∧
      s'.cursorColor = s.cursorColor ∧ s'.log = s.temporaries ++ s.log := by
  by_cases hspace : 0x20 ∈ params.chars
  · have hunknown : Term.colorOf params.word.tolower = .unknown ∨
        Term.colorOf params.afterWord.word.tolower = .unknown := by
      by_contra hknown
      obtain ⟨hfg, hbg⟩ := not_or.mp hknown
      exact h ⟨_, _, accepts_iff.mpr ⟨hspace, ⟨rfl, hfg⟩, ⟨rfl, hbg⟩⟩⟩
    rw [tcolor_words hnext hspace]
    simp only [if_pos hunknown]
    exact tcolorError_eq hnext (Nat.succ_ne_zero _)
  · rw [tcolor_word hnext hspace]
    exact tcolorError_eq hnext (Nat.succ_ne_zero _)

/-- **`tcolor`** takes what its two words name, and leaves the colors alone otherwise. -/
theorem tcolor_atomic (params : Text) (hnext : s.next ≠ NULL) : ∃ r s', Term.tcolor params s = .ok (r, s') ∧
    (r = SIG_SUCCESS ↔ ∃ fg bg, Accepts params fg bg) ∧
    (∀ fg bg, Accepts params fg bg → Recolored s s' fg bg) ∧
    ((¬∃ fg bg, Accepts params fg bg) →
      r = SIG_FAIL ∧ s'.terminalColor = s.terminalColor ∧ s'.cursorColor = s.cursorColor) ∧
    s'.log = s.temporaries ++ s.log := by
  by_cases h : ∃ fg bg, Accepts params fg bg
  · obtain ⟨fg, bg, haccepts⟩ := h
    obtain ⟨s', htcolor, hset, hlog⟩ := tcolor_accepted hnext haccepts
    refine ⟨_, s', htcolor, iff_of_true rfl ⟨fg, bg, haccepts⟩, fun fg' bg' h' => ?_,
      fun hno => absurd ⟨fg, bg, haccepts⟩ hno, hlog⟩
    obtain ⟨-, ⟨hfg, -⟩, ⟨hbg, -⟩⟩ := accepts_iff.mp haccepts
    obtain ⟨-, ⟨rfl, -⟩, ⟨rfl, -⟩⟩ := accepts_iff.mp h'
    rw [hfg, hbg]
    exact hset
  · obtain ⟨s', htcolor, htc, hcc, hlog⟩ := tcolor_rejected hnext h
    exact ⟨_, s', htcolor, iff_of_false (by decide) h, fun fg bg h' => absurd ⟨fg, bg, h'⟩ h,
      fun _ => ⟨rfl, htc, hcc⟩, hlog⟩

theorem tcolor_atomic_white : ∃ s', Term.tcolor (Text.lit "White blue") blank = .ok (SIG_SUCCESS, s') ∧
    Recolored blank s' .lightGrey .blue ∧ s'.log = blank.temporaries := by
  have haccepts : Accepts (Text.lit "White blue") .lightGrey .blue :=
    accepts_iff.mpr ⟨by decide +kernel, ⟨by decide +kernel, nofun⟩, by decide +kernel, nofun⟩
  obtain ⟨r, s', htcolor, hstatus, hset, -, hlog⟩ :=
    tcolor_atomic (s := blank) (Text.lit "White blue") (by decide)
  rw [hstatus.mpr ⟨_, _, haccepts⟩] at htcolor
  exact ⟨s', htcolor, hset _ _ haccepts, hlog⟩

end

end Ssmos

/-
All the strings of a program on the one heap: variables that hold dynamic
strings refine variables that hold texts, whichever of them are made, changed,
copied into each other, given numbers and freed. Nothing else in use on the heap
is touched, and nothing but the strings that are left is in use afterwards.
-/
import Ssmos.NumberHistory
import Ssmos.HeapContracts
import Mathlib.Logic.Function.Basic

namespace Ssmos

/-! ## Programs -/

/-- The memory and the variables of type `string*`. -/
structure Strings where
  mem : Mem
  var : Nat → Nat

/-- A call on the variables. -/
inductive StringCall
  | new (i init : Nat)
  | free (i : Nat)
  | on (i : Nat) (op : StringOp)
  /-- `string_set(i, j->data)` -/
  | copy (i j : Nat)
  /-- `string_add(i, j->data)` -/
  | append (i j : Nat)
  | addnum (i : Nat) (val base : Int)

/-- The text that `tostring` writes. -/
def numberText (base : Nat) (val : Int) : Text := Text.ofChars (written base val)

namespace StringCall

def run (num numbuffer : Nat) (s : Strings) : StringCall → Except Stop Strings
  | new i init => do
    let (str, m) ← stringNewsz s.mem init
    .ok { mem := m, var := Function.update s.var i str }
  | free i => .ok { mem := stringFree s.mem (s.var i), var := Function.update s.var i NULL }
  | on i op => do .ok { s with mem := ← op.run s.mem (s.var i) }
  | copy i j => do .ok { s with mem := ← stringSet s.mem (s.var i) (s.mem.data (s.var j)) }
  | append i j => do .ok { s with mem := ← stringAdd s.mem (s.var i) (s.mem.data (s.var j)) }
  | addnum i val base => do
    let (_, m) ← stringAddnum num numbuffer s.mem (s.var i) val base
    .ok { s with mem := m }

/-- What the program promises, with `room` bytes at `numbuffer`. -/
def ok (room : Nat) (s : Strings) : StringCall → Prop
  | new i init => s.var i = NULL ∧ init ≤ 2 ^ 32 - 5
  | free _ => True
  | on i op => s.var i ≠ NULL ∧ op.ok s.mem (s.var i)
  | copy i j | append i j => i ≠ j ∧ s.var i ≠ NULL ∧ s.var j ≠ NULL
  | addnum i val base =>
    s.var i ≠ NULL ∧ -2 ^ 31 < val ∧ val < 2 ^ 31 ∧ Supported base ∧ FitsRoom room val base

/-- What the call is for. -/
def apply (texts : Nat → Option Text) : StringCall → Nat → Option Text
  | new i _ => Function.update texts i (some .empty)
  | free i => Function.update texts i none
  | on i op => Function.update texts i ((texts i).map op.apply)
  | copy i j => Function.update texts i (texts j)
  | append i j => Function.update texts i ((texts i).bind fun t => (texts j).map t.append)
  | addnum i val base => Function.update texts i ((texts i).map fun t => t.append (numberText base.toNat val))

end StringCall

def StringsStep (num numbuffer room : Nat) (s : Strings) (c : StringCall) (s' : Strings) : Prop :=
  c.ok room s ∧ c.run num numbuffer s = .ok s'

instance CStr.decidable (m : Mem) : (d : Nat) → (cs : List UInt8) → Decidable (CStr m d cs)
  | d, [] => inferInstanceAs (Decidable (m.load8 d = 0))
  | d, c :: cs =>
    have := CStr.decidable m (d + 1) cs
    inferInstanceAs (Decidable (m.load8 d = c ∧ c ≠ 0 ∧ CStr m (d + 1) cs))

/-- The byte at `a` may be read by a call on the string at `str`. -/
def Readable (m : Mem) (str a : Nat) : Prop :=
  ∀ b ∈ ((headers m).toOption.getD []), ¬(b ≤ a ∧ a < b + HEADER_SIZE) ∧
    (m.isFree b = 1 ∨ toData b = str ∨ toData b = m.data str →
      ¬(toData b ≤ a ∧ a < toData b + m.blockSize b))

instance (m : Mem) (str a : Nat) : Decidable (Readable m str a) := inferInstanceAs (Decidable (∀ b ∈ _, _ ∧ _))

theorem argument_iff {m : Mem} {str d : Nat} {u : Text} : Argument m str d u ↔
    d ≠ NULL ∧ CStr m d u.chars ∧ d + u.length < 2 ^ 32 ∧ ∀ i < u.length + 1, Readable m str (d + i) := by
  constructor
  · intro h
    refine ⟨h.ne_null, h.content, h.lt, fun i hi b hb => ?_⟩
    cases hh : headers m with
    | error e => simp [hh, Except.toOption] at hb
    | ok hs =>
      rw [hh] at hb
      exact h.apart hs hh b hb (d + i) (Nat.le_add_right _ _) (by omega)
  · intro hx
    obtain ⟨hd, hc, hlt, hread⟩ := hx
    refine ⟨hd, hc, hlt, fun hs hh b hb a h₁ h₂ => ?_⟩
    have h := hread (a - d) (by omega) b (by rw [hh]; exact hb)
    rwa [Nat.add_sub_cancel' h₁] at h

instance (m : Mem) (str d : Nat) (u : Text) : Decidable (Argument m str d u) := decidable_of_iff' _ argument_iff

instance (m : Mem) (str : Nat) (op : StringOp) : Decidable (op.ok m str) :=
  match op with
  | .set d u | .add d u => inferInstanceAs (Decidable (Argument m str d u))
  | .resize n => inferInstanceAs (Decidable (n ≤ 2 ^ 32 - 5))
  | .addchar _ | .clear | .trim => isTrue trivial

instance (room : Nat) (s : Strings) (c : StringCall) : Decidable (c.ok room s) :=
  match c with
  | .new i init => inferInstanceAs (Decidable (s.var i = NULL ∧ init ≤ 2 ^ 32 - 5))
  | .free _ => isTrue trivial
  | .on i op => inferInstanceAs (Decidable (s.var i ≠ NULL ∧ op.ok s.mem (s.var i)))
  | .copy i j | .append i j => inferInstanceAs (Decidable (i ≠ j ∧ s.var i ≠ NULL ∧ s.var j ≠ NULL))
  | .addnum i val base =>
    inferInstanceAs (Decidable (s.var i ≠ NULL ∧ -2 ^ 31 < val ∧ val < 2 ^ 31 ∧ (2 ≤ base ∧ base ≤ 35) ∧
      FitsRoom room val base))

/-- The same as a function. -/
def StringCall.step? (num numbuffer room : Nat) (s : Strings) (c : StringCall) : Option Strings :=
  if c.ok room s then (c.run num numbuffer s).toOption else none

theorem StringCall.step?_eq_some {num numbuffer room : Nat} {s s' : Strings} {c : StringCall} :
    c.step? num numbuffer room s = some s' ↔ StringsStep num numbuffer room s c s' := by
  unfold StringCall.step? StringsStep
  split
  next h => simp [h, Except.toOption_eq_some]
  next h => simp [h]

/-- The block at `q` is one of the two of a string. -/
def Strings.Owns (s : Strings) (q : Nat) : Prop :=
  ∃ i, s.var i ≠ NULL ∧ (q = s.var i ∨ q = s.mem.data (s.var i))

/-! ## Other strings -/

section

variable {heapsize : Nat} {m m' : Mem} {H H' H₀ : Heap heapsize} {m₀ : Mem} {str p q n a : Nat} {t t' : Text}
  {ps : List Nat} {num numbuffer room i j init : Nat}

theorem Heap.Used.not_spare (h : H.Used p n) (h₁ : p ≤ a) (h₂ : a < p + n) : ¬H.Spare a := by
  obtain ⟨b, hb, hf, rfl, rfl⟩ := h
  intro hx
  obtain ⟨c, hc, hle, hlt⟩ := hx
  have hapart := H.apart hb hc
  by_cases hcb : b.addr = c.addr
  · have : b = c := H.eq_of_data hb hc (congrArg (· + 16) hcb)
    subst this
    rw [hf] at hlt
    simp only [Blk.data] at h₁
    simp only [Bool.false_eq_true, if_false] at hlt
    omega
  · have := hapart hcb
    simp only [Blk.data] at h₁ h₂
    split at hlt <;> omega

/-- A string whose two blocks are kept. -/
theorem StrRep.kept (h : StrRep m H str t) (hr : Rep m' H') (hk : Keeps H m ps H' m') (hstr : str ∉ ps)
    (hdata : m.data str ∉ ps) : m'.data str = m.data str ∧ StrRep m' H' str t := by
  obtain ⟨k, hk₁, hs⟩ := h.struct
  obtain ⟨n, hn, hb⟩ := h.buffer
  obtain ⟨hs', hsbytes⟩ := hk str k hs hstr
  obtain ⟨hb', hbbytes⟩ := hk _ n hb hdata
  have hfits := h.fits
  simp only [STRING_SIZE] at hk₁
  have hd : m'.data str = m.data str := Mem.load32_congr fun i hi => hsbytes i (by omega)
  have hsize : m'.size str = m.size str := Mem.load32_congr fun i hi => by
    rw [Nat.add_assoc]
    exact hsbytes (4 + i) (by omega)
  refine ⟨hd, hr, ⟨k, hk₁, hs'⟩, ⟨n, hsize ▸ hn, hd ▸ hb'⟩, hd ▸ h.apart, ?_, hsize ▸ h.fits⟩
  rw [hd]
  exact h.content.congr fun i hi => hbbytes i (by simp only [Text.length] at hfits; omega)

/-- The two blocks of a new string, apart from all in use. -/
theorem Heap.newString_used (h : H.newString init = some (str, H')) : ∃ p, (∀ n, ¬H.Used str n) ∧
    (∀ n, ¬H.Used p n) ∧ (∀ q n, H.Used q n → H'.Used q n) ∧
    (∀ q n, H'.Used q n → q = str ∨ q = p ∨ H.Used q n) ∧ H.blocks.length ≤ H'.blocks.length := by
  unfold Heap.newString at h
  obtain ⟨⟨str', H₁⟩, h₁, h⟩ := Option.bind_eq_some_iff.mp h
  obtain ⟨⟨p, H₂⟩, h₂, h⟩ := Option.map_eq_some_iff.mp h
  cases h
  obtain ⟨k₁, -, -, hfresh₁, hiff₁⟩ := Heap.malloc_used h₁
  obtain ⟨k₂, -, -, hfresh₂, hiff₂⟩ := Heap.malloc_used h₂
  refine ⟨p, hfresh₁, fun n hp => hfresh₂ n ((hiff₁ p n).mpr (.inr hp)),
    fun q n hq => (hiff₂ q n).mpr (.inr ((hiff₁ q n).mpr (.inr hq))), fun q n hq => ?_,
    Nat.le_trans (Heap.malloc_length h₁) (Heap.malloc_length h₂)⟩
  rcases (hiff₂ q n).mp hq with ⟨rfl, -⟩ | hq
  · exact .inr (.inl rfl)
  · rcases (hiff₁ q n).mp hq with ⟨rfl, -⟩ | hq
    · exact .inl rfl
    · exact .inr (.inr hq)

theorem numberText_chars {b : Nat} {val : Int} (hb : 1 < b) (hb' : b ≤ 36) :
    (numberText b val).chars = written b val :=
  List.takeWhile_eq_self_iff.mpr fun c hc => by simpa using written_ne_zero hb hb' hc

/-! ## The invariant -/

/-- The variables hold the texts, each in two blocks of its own, and no other
block was taken from or added to those in use in `H₀`. -/
structure Strings.Inv (H₀ : Heap heapsize) (m₀ : Mem) (num : Nat) (s : Strings) (H : Heap heapsize)
    (texts : Nat → Option Text) : Prop where
  rep : Rep s.mem H
  split : 2 ≤ H.blocks.length
  table : Table s.mem num
  kept : Keeps H₀ m₀ [] H s.mem
  holds : ∀ i, s.var i ≠ NULL → ∃ t, texts i = some t ∧ StrRep s.mem H (s.var i) t
  null : ∀ i, s.var i = NULL → texts i = none
  apart : ∀ i j, i ≠ j → s.var i ≠ NULL → s.var j ≠ NULL → s.var i ≠ s.var j ∧
    s.var i ≠ s.mem.data (s.var j) ∧ s.mem.data (s.var i) ≠ s.mem.data (s.var j)
  used : ∀ q n, H.Used q n → H₀.Used q n ∨ s.Owns q
  fresh : ∀ q, s.Owns q → ∀ n, ¬H₀.Used q n

variable {s s' : Strings} {texts : Nat → Option Text} {c : StringCall}

theorem Rep.not_untouched_of_split (hr : Rep m H) (hsplit : 2 ≤ H.blocks.length) : ¬untouched m := by
  rw [untouched_iff hr]
  intro hx
  obtain ⟨r, hH, -⟩ := hx
  simp [hH] at hsplit

/-- What is in memory below the heap is still there. -/
theorem Table.served (h : Table m num) (hlay : Layout num numbuffer room) (hs : Serves H m str H' m' t) :
    Table m' num :=
  h.frame hs.wrote fun x _ hx => hs.rep.not_reach (hs.foreign x (foreign_below (by
    have := hlay.digits
    omega)))

/-- The strings of other variables come through what keeps their blocks. -/
theorem Strings.Inv.other (h : s.Inv H₀ m₀ num H texts) (hr : Rep m' H')
    (hkept : Keeps H s.mem [s.var i, s.mem.data (s.var i)] H' m') (hi : s.var i ≠ NULL) (hj : j ≠ i)
    (hlive : s.var j ≠ NULL) : ∃ t, texts j = some t ∧ m'.data (s.var j) = s.mem.data (s.var j) ∧
      StrRep m' H' (s.var j) t := by
  obtain ⟨t, ht, hstr⟩ := h.holds j hlive
  obtain ⟨h₁, h₂, h₃⟩ := h.apart j i hj hlive hi
  obtain ⟨-, h₂', -⟩ := h.apart i j hj.symm hi hlive
  exact ⟨t, ht, hstr.kept hr hkept (by simp [h₁, h₂]) (by simp [h₂'.symm, h₃])⟩

/-- **A call on one string** leaves the other ones. -/
theorem Strings.Inv.serve (h : s.Inv H₀ m₀ num H texts) (hlay : Layout num numbuffer room) (hi : s.var i ≠ NULL)
    (hs : Serves H s.mem (s.var i) H' m' t') :
    Strings.Inv H₀ m₀ num { s with mem := m' } H' (Function.update texts i (some t')) := by
  obtain ⟨t, -, hstr⟩ := h.holds i hi
  have hothers := fun j (hj : j ≠ i) => h.other hs.rep.rep hs.keeps hi hj
  have howns : ∀ q, Strings.Owns { s with mem := m' } q → q = m'.data (s.var i) ∨
      s.Owns q ∧ q ≠ s.mem.data (s.var i) := fun q hq => by
    obtain ⟨j, hj, hq⟩ := hq
    by_cases hji : j = i
    · subst hji
      rcases hq with rfl | rfl
      · exact .inr ⟨⟨j, hj, .inl rfl⟩, hstr.apart.symm⟩
      · exact .inl rfl
    · obtain ⟨-, -, hdata, -⟩ := hothers j hji hj
      obtain ⟨-, h₂, h₃⟩ := h.apart j i hji hj hi
      simp only [hdata] at hq
      rcases hq with rfl | rfl
      · exact .inr ⟨⟨j, hj, .inl rfl⟩, h₂⟩
      · exact .inr ⟨⟨j, hj, .inr rfl⟩, h₃⟩
  have hkept : ∀ q n, H₀.Used q n → q ∉ [s.var i, s.mem.data (s.var i)] := fun q n hq hmem => by
    rw [List.mem_cons, List.mem_singleton] at hmem
    exact h.fresh q ⟨i, hi, hmem⟩ n hq
  refine
    { rep := hs.rep.rep
      split := Nat.le_trans h.split hs.grows
      table := h.table.served hlay hs
      kept := fun q n hq hne => ?_
      holds := fun j hj => ?_
      null := fun j hj => ?_
      apart := fun j k hjk hj hk => ?_
      used := fun q n hq => ?_
      fresh := fun q hq n hx => ?_ }
  · obtain ⟨hq₁, hbytes₁⟩ := h.kept q n hq hne
    obtain ⟨hq₂, hbytes₂⟩ := hs.keeps q n hq₁ (hkept q n hq)
    exact ⟨hq₂, fun k hk => (hbytes₂ k hk).trans (hbytes₁ k hk)⟩
  · by_cases hji : j = i
    · subst hji
      exact ⟨t', Function.update_self .., hs.rep⟩
    · obtain ⟨t, ht, -, hstr⟩ := hothers j hji hj
      exact ⟨t, (Function.update_of_ne hji ..).trans ht, hstr⟩
  · have hji : j ≠ i := fun he => hi (he ▸ hj)
    rw [Function.update_of_ne hji]
    exact h.null j hj
  · -- The buffer may be a new one: it is none that was in use.
    have hnew : ∀ {j}, j ≠ i → s.var j ≠ NULL → s.var j ≠ m'.data (s.var i) ∧
        s.mem.data (s.var j) ≠ m'.data (s.var i) := fun {j} hj hne => by
      obtain ⟨t, -, hstr⟩ := h.holds j hne
      obtain ⟨k, -, hstruct⟩ := hstr.struct
      obtain ⟨n, -, hbuffer⟩ := hstr.buffer
      obtain ⟨-, h₂, h₃⟩ := h.apart j i hj hne hi
      exact ⟨hs.apart _ k hstruct h₂, hs.apart _ n hbuffer h₃⟩
    obtain ⟨h₁, h₂, h₃⟩ := h.apart j k hjk hj hk
    by_cases hji : j = i
    · subst hji
      obtain ⟨-, -, hdata, -⟩ := hothers k hjk.symm hk
      simp only [hdata]
      exact ⟨h₁, h₂, (hnew hjk.symm hk).2.symm⟩
    · obtain ⟨-, -, hdata, -⟩ := hothers j hji hj
      by_cases hki : k = i
      · subst hki
        simp only [hdata]
        exact ⟨h₁, hnew hji hj⟩
      · obtain ⟨-, -, hdata', -⟩ := hothers k hki hk
        simp only [hdata, hdata']
        exact ⟨h₁, h₂, h₃⟩
  · rcases hs.only q n hq with rfl | ⟨hq, hne⟩
    · exact .inr ⟨i, hi, .inr rfl⟩
    · refine (h.used q n hq).imp_right fun howned => ?_
      obtain ⟨j, hj, hq⟩ := howned
      by_cases hji : j = i
      · subst hji
        exact ⟨j, hj, .inl (hq.resolve_right hne)⟩
      · obtain ⟨-, -, hdata, -⟩ := hothers j hji hj
        refine ⟨j, hj, ?_⟩
        simp only [hdata]
        exact hq
  · rcases howns q hq with rfl | ⟨hq, -⟩
    · obtain ⟨hq₁, -⟩ := h.kept _ n hx List.not_mem_nil
      have hne := hkept _ n hx
      rw [List.mem_cons, List.mem_singleton, not_or] at hne
      exact hs.apart _ n hq₁ hne.2 rfl
    · exact h.fresh q hq n hx

/-- **A new string** takes two blocks of its own. -/
theorem Strings.Inv.made (h : s.Inv H₀ m₀ num H texts) (hlay : Layout num numbuffer room) (hnull : s.var i = NULL)
    (hinit : init ≤ 2 ^ 32 - 5) (hnew : stringNewsz s.mem init = .ok (str, m')) :
    ∃ H' : Heap heapsize, Strings.Inv H₀ m₀ num { mem := m', var := Function.update s.var i str } H'
      (Function.update texts i (some .empty)) := by
  obtain ⟨H', hH, hstr, hsize, hw, hspare⟩ :=
    stringNewsz_ok h.rep (h.rep.not_untouched_of_split h.split) hinit hnew
  obtain ⟨p, hfresh, hfreshp, hold, honly, hlen⟩ := Heap.newString_used hH
  have hne : str ≠ NULL := hstr.ne_null
  have hkept : Keeps H s.mem [] H' m' := fun q n hq _ => ⟨hold q n hq, fun k hk => hw.load8_eq fun hx => by
    have hlt := hq.lt
    rw [wrap_of_lt (by omega)] at hx
    exact hq.not_spare (by omega) (by omega) (hspare _ hx)⟩
  -- The buffer is the other block that was taken.
  have hdata : ∀ n, ¬H.Used (m'.data str) n := fun n hq => by
    obtain ⟨k, hk, hb⟩ := hstr.buffer
    have hkn := hb.unique (hold _ n hq)
    refine hq.not_spare (Nat.le_refl _) (by omega) (hspare _ (.inr ?_))
    rw [Set.mem_Ico]
    omega
  have hp : m'.data str = p := by
    obtain ⟨k, -, hb⟩ := hstr.buffer
    rcases honly _ k hb with hq | hq | hq
    · exact absurd hq hstr.apart
    · exact hq
    · exact absurd hq (hdata k)
  have hothers : ∀ j, j ≠ i → s.var j ≠ NULL → ∃ t, texts j = some t ∧
      m'.data (s.var j) = s.mem.data (s.var j) ∧ StrRep m' H' (s.var j) t := fun j _ hj => by
    obtain ⟨t, ht, hold⟩ := h.holds j hj
    exact ⟨t, ht, hold.kept hstr.rep hkept List.not_mem_nil List.not_mem_nil⟩
  have hvar : ∀ {j}, j ≠ i → Function.update s.var i str j = s.var j := fun hj => Function.update_of_ne hj ..
  have hself : Function.update s.var i str i = str := Function.update_self ..
  refine ⟨H',
    { rep := hstr.rep
      split := Nat.le_trans h.split hlen
      table := h.table.frame hw fun x _ hx hr => ?_
      kept := h.kept.trans hkept
      holds := fun j hj => ?_
      null := fun j hj => ?_
      apart := fun j k hjk hj hk => ?_
      used := fun q n hq => ?_
      fresh := fun q hq n hx => ?_ }⟩
  · have hbelow := (hspare x hr).start_le
    have hlow := hlay.digits
    simp only [HEAP_START] at hlow
    omega
  · dsimp only at hj ⊢
    by_cases hji : j = i
    · subst hji
      rw [hself]
      exact ⟨.empty, Function.update_self .., hstr⟩
    · rw [hvar hji] at hj ⊢
      obtain ⟨t, ht, -, hrep⟩ := hothers j hji hj
      exact ⟨t, (Function.update_of_ne hji ..).trans ht, hrep⟩
  · dsimp only at hj
    by_cases hji : j = i
    · subst hji
      exact absurd (hself.symm.trans hj) hne
    · rw [hvar hji] at hj
      exact (Function.update_of_ne hji ..).trans (h.null j hj)
  · -- What is in use already is neither of the new blocks.
    have hnew : ∀ {j}, j ≠ i → s.var j ≠ NULL → s.var j ≠ str ∧ s.var j ≠ m'.data str ∧
        s.mem.data (s.var j) ≠ str ∧ s.mem.data (s.var j) ≠ m'.data str := fun {j} _ hj => by
      obtain ⟨t, -, hrep⟩ := h.holds j hj
      obtain ⟨k, -, hstruct⟩ := hrep.struct
      obtain ⟨n, -, hbuffer⟩ := hrep.buffer
      exact ⟨fun he => hfresh k (he ▸ hstruct), fun he => hdata k (he ▸ hstruct),
        fun he => hfresh n (he ▸ hbuffer), fun he => hdata n (he ▸ hbuffer)⟩
    dsimp only at hj hk ⊢
    by_cases hji : j = i
    · subst hji
      rw [hvar hjk.symm] at hk
      obtain ⟨-, -, hsame, -⟩ := hothers k hjk.symm hk
      obtain ⟨h₁, h₂, h₃, h₄⟩ := hnew hjk.symm hk
      simp only [hself, hvar hjk.symm, hsame]
      exact ⟨h₁.symm, h₃.symm, h₄.symm⟩
    · rw [hvar hji] at hj
      obtain ⟨-, -, hsame, -⟩ := hothers j hji hj
      by_cases hki : k = i
      · subst hki
        obtain ⟨h₁, h₂, h₃, h₄⟩ := hnew hji hj
        simp only [hself, hvar hji, hsame]
        exact ⟨h₁, h₂, h₄⟩
      · rw [hvar hki] at hk
        obtain ⟨-, -, hsame', -⟩ := hothers k hki hk
        simp only [hvar hji, hvar hki, hsame, hsame']
        exact h.apart j k hjk hj hk
  · rcases honly q n hq with rfl | rfl | hq
    · exact .inr ⟨i, by simpa only [hself] using hne, .inl hself.symm⟩
    · exact .inr ⟨i, by simpa only [hself] using hne, .inr (by simp only [hself, hp])⟩
    · refine (h.used q n hq).imp_right fun howned => ?_
      obtain ⟨j, hj, hq⟩ := howned
      have hji : j ≠ i := fun he => hj (he ▸ hnull)
      obtain ⟨-, -, hsame, -⟩ := hothers j hji hj
      exact ⟨j, by simpa only [hvar hji] using hj, by simpa only [hvar hji, hsame] using hq⟩
  · obtain ⟨j, hj, hq⟩ := hq
    obtain ⟨hq₁, -⟩ := h.kept q n hx List.not_mem_nil
    by_cases hji : j = i
    · subst hji
      simp only [hself] at hq
      rcases hq with rfl | rfl
      · exact hfresh n hq₁
      · exact hdata n hq₁
    · simp only [hvar hji] at hj hq
      obtain ⟨-, -, hsame, -⟩ := hothers j hji hj
      rw [hsame] at hq
      exact h.fresh q ⟨j, hj, hq⟩ n hx

/-- Freeing a string's buffer and its struct. -/
theorem stringFree_spec (h : StrRep m H str t) (hlay : Layout num numbuffer room) :
    Rep (stringFree m str) ((H.release (m.data str)).release str) ∧
      Keeps H m [str, m.data str] ((H.release (m.data str)).release str) (stringFree m str) ∧
      (Table m num → Table (stringFree m str) num) := by
  obtain ⟨k, -, hs⟩ := h.struct
  obtain ⟨n, -, hb⟩ := h.buffer
  obtain ⟨hr₁, hkeep₁⟩ := kfree_keeps h.rep hb
  have hs₁ : (H.release (m.data str)).Used str k := Heap.release_used.mpr ⟨hs, h.apart.symm⟩
  obtain ⟨hr₂, hkeep₂⟩ := kfree_keeps hr₁ hs₁
  have hfree : stringFree m str = kfree (kfree m (m.data str)) str := by
    rw [stringFree, if_neg h.ne_null]
    rfl
  rw [hfree]
  refine ⟨hr₂, (hkeep₁.mono ?_).trans (hkeep₂.mono ?_), fun htable => ?_⟩
  · simp
  · simp
  · have hlow := hlay.digits
    simp only [HEAP_START] at hlow
    have hbelow : ∀ {K : Heap heapsize} {x : Nat}, x < num + 36 → x ∉ headerBytes K.blocks := fun {K x} hx hm => by
      have := (Heap.Spare.of_header hm).start_le
      omega
    obtain ⟨b, hbm, -, hbd, -⟩ := hb
    obtain ⟨c, hcm, -, hcd, -⟩ := hs₁
    obtain ⟨-, hw₁⟩ := kfree_refines h.rep hbm
    obtain ⟨-, hw₂⟩ := kfree_refines hr₁ hcm
    rw [hbd] at hw₁
    rw [hcd] at hw₂
    exact (htable.frame hw₁ fun x _ hx => hbelow hx).frame hw₂ fun x _ hx => hbelow hx

/-- **A string that is freed** gives its two blocks back, and no other. -/
theorem Strings.Inv.freed (h : s.Inv H₀ m₀ num H texts) (hlay : Layout num numbuffer room) (i : Nat) :
    ∃ H' : Heap heapsize, Strings.Inv H₀ m₀ num
      { mem := stringFree s.mem (s.var i), var := Function.update s.var i NULL } H'
      (Function.update texts i none) := by
  by_cases hi : s.var i = NULL
  · have hsame : ({ mem := stringFree s.mem (s.var i), var := Function.update s.var i NULL } : Strings) = s := by
      rw [stringFree, if_pos hi, ← hi, Function.update_eq_self]
    rw [hsame, ← h.null i hi, Function.update_eq_self]
    exact ⟨H, h⟩
  obtain ⟨t, -, hstr⟩ := h.holds i hi
  obtain ⟨hr, hkept, htable⟩ := stringFree_spec hstr hlay
  generalize stringFree s.mem (s.var i) = m' at hr hkept htable
  have hothers := fun j (hj : j ≠ i) => h.other hr hkept hi hj
  have hvar : ∀ {j}, j ≠ i → Function.update s.var i NULL j = s.var j := fun hj => Function.update_of_ne hj ..
  have hself : Function.update s.var i NULL i = NULL := Function.update_self ..
  have hlive : ∀ {j}, Function.update s.var i NULL j ≠ NULL → j ≠ i := fun hj he => hj (he ▸ hself)
  refine ⟨_,
    { rep := hr
      split := by simpa [Heap.release] using h.split
      table := htable h.table
      kept := fun q n hq hne => ?_
      holds := fun j hj => ?_
      null := fun j hj => ?_
      apart := fun j k hjk hj hk => ?_
      used := fun q n hq => ?_
      fresh := fun q hq n hx => ?_ }⟩
  · obtain ⟨hq₁, hbytes₁⟩ := h.kept q n hq hne
    obtain ⟨hq₂, hbytes₂⟩ := hkept q n hq₁ fun hmem => by
      rw [List.mem_cons, List.mem_singleton] at hmem
      exact h.fresh q ⟨i, hi, hmem⟩ n hq
    exact ⟨hq₂, fun k hk => (hbytes₂ k hk).trans (hbytes₁ k hk)⟩
  · dsimp only at hj ⊢
    have hji := hlive hj
    rw [hvar hji] at hj ⊢
    obtain ⟨t, ht, -, hrep⟩ := hothers j hji hj
    exact ⟨t, (Function.update_of_ne hji ..).trans ht, hrep⟩
  · dsimp only at hj
    by_cases hji : j = i
    · subst hji
      exact Function.update_self ..
    · rw [hvar hji] at hj
      exact (Function.update_of_ne hji ..).trans (h.null j hj)
  · dsimp only at hj hk ⊢
    have hji := hlive hj
    have hki := hlive hk
    rw [hvar hji] at hj
    rw [hvar hki] at hk
    obtain ⟨-, -, hsame, -⟩ := hothers j hji hj
    obtain ⟨-, -, hsame', -⟩ := hothers k hki hk
    simp only [hvar hji, hvar hki, hsame, hsame']
    exact h.apart j k hjk hj hk
  · obtain ⟨hq₁, hne⟩ := Heap.release_used.mp hq
    obtain ⟨hq₂, hne'⟩ := Heap.release_used.mp hq₁
    refine (h.used q n hq₂).imp_right fun howned => ?_
    obtain ⟨j, hj, howned⟩ := howned
    have hji : j ≠ i := fun he => (he ▸ howned).elim hne hne'
    obtain ⟨-, -, hsame, -⟩ := hothers j hji hj
    exact ⟨j, by simpa only [hvar hji] using hj, by simpa only [hvar hji, hsame] using howned⟩
  · obtain ⟨j, hj, hq⟩ := hq
    have hji := hlive hj
    simp only [hvar hji] at hj hq
    obtain ⟨-, -, hsame, -⟩ := hothers j hji hj
    rw [hsame] at hq
    exact h.fresh q ⟨j, hj, hq⟩ n hx

/-! ## Calls -/

/-- Another string's buffer may be passed. -/
theorem Strings.Inv.arg (h : s.Inv H₀ m₀ num H texts) (hij : i ≠ j) (hi : s.var i ≠ NULL) (hj : s.var j ≠ NULL)
    (hstr : StrRep s.mem H (s.var j) t) : Arg s.mem H (s.var i) (s.mem.data (s.var j)) t := by
  obtain ⟨t', -, hstr'⟩ := h.holds i hi
  obtain ⟨n, hn, hu⟩ := hstr.buffer
  obtain ⟨-, h₂, h₃⟩ := h.apart i j hij hi hj
  have hfits := hstr.fits
  have hlt := hu.lt
  refine ⟨hstr.data_ne_null, hstr.content, by omega, fun a h₁ ha => ⟨hu.not_spare h₁ (by omega), ?_⟩⟩
  intro q k hq hused
  have hne : q ≠ s.mem.data (s.var j) := by
    rcases hq with rfl | rfl
    · exact h₂
    · exact h₃
  have hapart := hused.apart hu hne
  omega

/-- Numbers are written below the heap, in `numbuffer`. -/
theorem Strings.Inv.below (h : s.Inv H₀ m₀ num H texts) (hlay : Layout num numbuffer room)
    (hw : Wrote s.mem m' (Set.Ico numbuffer (numbuffer + room))) :
    Strings.Inv H₀ m₀ num { s with mem := m' } H texts := by
  have hlow := hlay.buffer
  have hbelow : ∀ x ∈ Set.Ico numbuffer (numbuffer + room), x < HEAP_START := fun x hx => by
    rw [Set.mem_Ico] at hx
    omega
  have hin : ∀ {q n}, H.Used q n → ∀ x, q ≤ x → x ∉ Set.Ico numbuffer (numbuffer + room) := fun hu x hx hs => by
    have := hbelow x hs
    have := hu.bounds
    simp only [HEAP_START] at *
    omega
  have hsame : ∀ j, s.var j ≠ NULL → m'.data (s.var j) = s.mem.data (s.var j) := fun j hj => by
    obtain ⟨t, -, hstr⟩ := h.holds j hj
    obtain ⟨k, hk, hu⟩ := hstr.struct
    have hlt := hu.lt
    simp only [STRING_SIZE] at hk
    exact hw.load32_eq (by omega) fun x hx _ => hin hu x hx
  have howns : ∀ q, Strings.Owns { s with mem := m' } q ↔ s.Owns q := fun q =>
    exists_congr fun j => and_congr_right fun hj => by
      change q = s.var j ∨ q = m'.data (s.var j) ↔ _
      rw [hsame j hj]
  refine
    { rep := h.rep.frame hw fun x hx hs => ?_
      split := h.split
      table := h.table.frame hw fun x h₁ h₂ hs => ?_
      kept := fun q n hq hne => ?_
      holds := fun j hj => (h.holds j hj).imp fun t ht => ⟨ht.1, ht.2.below hw hbelow⟩
      null := h.null
      apart := fun j k hjk hj hk => ?_
      used := fun q n hq => (h.used q n hq).imp_right (howns q).mpr
      fresh := fun q hq => h.fresh q ((howns q).mp hq) }
  · have := hbelow x hs
    have := (Heap.Spare.of_header hx).start_le
    simp only [HEAP_START] at *
    omega
  · have := hlay.apart
    rw [Set.mem_Ico] at hs
    omega
  · obtain ⟨hu, hbytes⟩ := h.kept q n hq hne
    refine ⟨hu, fun k hk => (hw.load8_eq ?_).trans (hbytes k hk)⟩
    have hlt := hu.lt
    rw [wrap_of_lt (by omega)]
    exact hin hu _ (by omega)
  · simp only [hsame j hj, hsame k hk]
    exact h.apart j k hjk hj hk

/-- What a call that returned left, and what it may fail for. -/
theorem Strings.Inv.step (h : s.Inv H₀ m₀ num H texts) (hlay : Layout num numbuffer room) (hok : c.ok room s) :
    c.run num numbuffer s = .error outOfMemory ∨ ∃ s', ∃ H' : Heap heapsize, c.run num numbuffer s = .ok s' ∧
      s'.Inv H₀ m₀ num H' (c.apply texts) := by
  cases c with
  | new i init =>
    obtain ⟨hnull, hinit⟩ := hok
    rcases stringNewsz_spec h.rep (h.rep.not_untouched_of_split h.split) hinit with
      ⟨-, hnew⟩ | ⟨str, m', H₁, -, hnew, -⟩
    · exact .inl (by rw [StringCall.run, hnew]; rfl)
    · obtain ⟨H', hinv⟩ := h.made hlay hnull hinit hnew
      exact .inr ⟨_, H', by rw [StringCall.run, hnew]; rfl, hinv⟩
  | free i =>
    obtain ⟨H', hinv⟩ := h.freed hlay i
    exact .inr ⟨_, H', rfl, hinv⟩
  | on i op =>
    obtain ⟨hi, hok⟩ := hok
    obtain ⟨t, ht, hstr⟩ := h.holds i hi
    rcases StringOp.spec hstr hok with hrun | ⟨m', H', hrun, hserves⟩
    · exact .inl (by rw [StringCall.run, hrun]; rfl)
    · refine .inr ⟨_, H', by rw [StringCall.run, hrun]; rfl, ?_⟩
      rw [StringCall.apply, ht]
      exact h.serve hlay hi hserves
  | copy i j =>
    obtain ⟨hij, hi, hj⟩ := hok
    obtain ⟨t, -, hstr⟩ := h.holds i hi
    obtain ⟨u, hu, hsrc⟩ := h.holds j hj
    rcases stringSet_spec hstr (h.arg hij hi hj hsrc) with hrun | ⟨m', H', hrun, hserves⟩
    · exact .inl (by rw [StringCall.run, hrun]; rfl)
    · refine .inr ⟨_, H', by rw [StringCall.run, hrun]; rfl, ?_⟩
      rw [StringCall.apply, hu]
      exact h.serve hlay hi hserves
  | append i j =>
    obtain ⟨hij, hi, hj⟩ := hok
    obtain ⟨t, ht, hstr⟩ := h.holds i hi
    obtain ⟨u, hu, hsrc⟩ := h.holds j hj
    rcases stringAdd_spec hstr (h.arg hij hi hj hsrc) with hrun | ⟨m', H', hrun, hserves⟩
    · exact .inl (by rw [StringCall.run, hrun]; rfl)
    · refine .inr ⟨_, H', by rw [StringCall.run, hrun]; rfl, ?_⟩
      rw [StringCall.apply, ht, hu]
      exact h.serve hlay hi hserves
  | addnum i val base =>
    obtain ⟨hi, hval, hlt, hbase, hfits⟩ := hok
    obtain ⟨b, rfl⟩ := Int.eq_ofNat_of_zero_le (show 0 ≤ base by have := hbase.1; omega)
    have hb : 1 < b := by have := hbase.1; omega
    have hb' : b ≤ 35 := by have := hbase.2; omega
    have hlen := hfits hbase
    rw [Int.toNat_natCast] at hlen
    have hlow := hlay.buffer
    have hapart := hlay.apart
    simp only [HEAP_START] at hlow
    obtain ⟨m₁, hrun, hspec⟩ := tostring_spec s.mem num (by omega) hlt hb hb' hlay.ne_null (by omega)
    have hw := hspec.wrote.mono (Set.Ico_subset_Ico_right (show _ ≤ numbuffer + room by omega))
    have hcontent := hspec.content (by omega) h.table (by omega)
    rw [← numberText_chars hb (by omega)] at hcontent hlen
    -- The number is in the buffer; the string is as it was.
    have h₁ := h.below hlay hw
    obtain ⟨t, ht, hstr₁⟩ := h₁.holds i hi
    obtain ⟨_, -, hstr⟩ := h.holds i hi
    have haddnum := stringAddnum_eq hlay hstr hrun
    rcases stringAdd_spec hstr₁ (hlay.arg hcontent hlen) with hadd | ⟨m', H', hadd, hserves⟩
    · exact .inl (by rw [StringCall.run, haddnum, hadd]; rfl)
    · refine .inr ⟨_, H', by rw [StringCall.run, haddnum, hadd]; rfl, ?_⟩
      rw [StringCall.apply, ht]
      exact h₁.serve hlay hi hserves

theorem Strings.Inv.run {ops : List StringCall} (h : s.Inv H₀ m₀ num H texts) (hlay : Layout num numbuffer room)
    (hrun : Runs (StringsStep num numbuffer room) s ops s') :
    ∃ H' : Heap heapsize, s'.Inv H₀ m₀ num H' (ops.foldl StringCall.apply texts) := by
  induction hrun generalizing H texts with
  | nil => exact ⟨H, h⟩
  | cons hstep _ ih =>
    rcases h.step hlay hstep.1 with herror | ⟨s₁, H₁, hok, h₁⟩
    · rw [hstep.2] at herror
      cases herror
    · rw [hstep.2] at hok
      cases hok
      exact ih h₁

/-! ## Programs from boot on -/

/-- What a program that started at `s` shows when its variables should hold
`texts`. -/
structure Strings.Refines (s : HeapState) (st : Strings) (texts : Nat → Option Text) : Prop where
  holds : ∀ i t, texts i = some t → Holds st.mem (st.var i) t
  null : ∀ i, texts i = none ↔ st.var i = NULL
  /-- Each block that was in use still is, with the same bytes. -/
  others : ∀ p, s.Good p → st.mem.isFree (toHeader p) = 0 ∧
    ∀ k < s.mem.blockSize (toHeader p), st.mem.load8 (p + k) = s.mem.load8 (p + k)
  /-- The others in use are those of the strings there are. -/
  noLeak : ∃ hs₀ hs, headers s.mem = .ok hs₀ ∧ headers st.mem = .ok hs ∧ ∀ b ∈ hs, st.mem.isFree b = 0 →
    b ∈ hs₀ ∧ s.mem.isFree b = 0 ∨ st.Owns (toData b)

theorem Strings.Inv.refines {s : HeapState} {st : Strings} (hi : s.Inv H₀)
    (h : st.Inv H₀ s.mem num H texts) : st.Refines s texts where
  holds i t ht := by
    have hne : st.var i ≠ NULL := fun hnull => by
      rw [h.null i hnull] at ht
      cases ht
    obtain ⟨u, hu, hstr⟩ := h.holds i hne
    rw [ht] at hu
    cases hu
    exact hstr.holds
  null i := by
    refine ⟨fun hnone => ?_, h.null i⟩
    by_contra hne
    obtain ⟨t, ht, -⟩ := h.holds i hne
    rw [hnone] at ht
    cases ht
  others p hp := by
    obtain ⟨b, hb, hf, rfl⟩ := hi.good hp
    obtain ⟨⟨c, hc, hcf, hcb, -⟩, hbytes⟩ := h.kept b.data b.size ⟨b, hb, hf, rfl, rfl⟩ List.not_mem_nil
    obtain ⟨_, hh⟩ := hi.rep.header_mem hb
    rw [toHeader_eq hb, hh.size]
    refine ⟨?_, hbytes⟩
    rw [← Blk.data_inj.mp hcb]
    exact (isFree_eq_zero h.rep hc).mpr hcf
  noLeak := by
    refine ⟨_, _, headers_eq hi.rep, headers_eq h.rep, fun a ha hfree => ?_⟩
    obtain ⟨b, hb, rfl⟩ := List.mem_map.mp ha
    rw [toData_eq hb]
    refine (h.used b.data b.size ⟨b, hb, (isFree_eq_zero h.rep hb).mp hfree, rfl, rfl⟩).imp_left fun hu => ?_
    obtain ⟨c, hc, hcf, hcb, -⟩ := hu
    rw [← Blk.data_inj.mp hcb]
    exact ⟨List.mem_map_of_mem hc, (isFree_eq_zero hi.rep hc).mpr hcf⟩

/-- **Strings are variables of texts**: a program that makes, changes, copies and
frees any number of strings, after any run of the allocator, and adds numbers
for which there is room at `numbuffer`, has in each variable the text that its
calls make. All other blocks in use are as they were,
and no further ones are in use but two for each string there is. A call fails
only for want of memory. -/
theorem strings_refine {s₀ s : HeapState} {st : Strings} {calls : List Call} {ops : List StringCall}
    (hboot : Booted heapsize s₀) (hrun : Runs EverStep s₀ calls s) (hlay : Layout num numbuffer room)
    (htable : Table s.mem num)
    (hops : Runs (StringsStep num numbuffer room) { mem := s.mem, var := fun _ => NULL } ops st) :
    st.Refines s (ops.foldl StringCall.apply fun _ => none) ∧
      ∀ c : StringCall, c.ok room st → c.run num numbuffer st = .error outOfMemory ∨
        ∃ st', c.run num numbuffer st = .ok st' := by
  obtain ⟨H₀, hi⟩ := EverStep.run hboot hrun
  have hstart : Strings.Inv H₀ s.mem num { mem := s.mem, var := fun _ => NULL } H₀ fun _ => none :=
    { rep := hi.rep
      split := hi.split
      table := htable
      kept := .refl _ _ _
      holds := fun _ hne => absurd rfl hne
      null := fun _ _ => rfl
      apart := fun _ _ _ hne => absurd rfl hne
      used := fun _ _ hu => .inl hu
      fresh := fun _ ⟨_, hne, _⟩ => absurd rfl hne }
  obtain ⟨H, h⟩ := hstart.run hlay hops
  refine ⟨h.refines hi, fun c hok => ?_⟩
  rcases h.step hlay hok with herror | ⟨st', -, hok, -⟩
  · exact .inl herror
  · exact .inr ⟨st', hok⟩

/-- A number in one string, put behind `n=` in another one: 1 KiB. -/
def numbered : List StringCall :=
  [.new 0 0, .addnum 0 (-42) 16, .new 1 0, .on 1 (.addchar 0x6E), .on 1 (.addchar 0x3D), .append 1 0, .free 0]

theorem strings_refine_numbered : ∃ s₀ st, Booted 1 s₀ ∧
    Runs (StringsStep 64 128 MAX_INT_CHARS) { mem := s₀.mem, var := fun _ => NULL } numbered st ∧
    st.Refines s₀ (numbered.foldl StringCall.apply fun _ => none) ∧
    Holds st.mem (st.var 1) (Text.lit "n=-2a") := by
  let kernel : Mem := ⟨fun a => numChars.getD (a - 64) 0, []⟩
  obtain ⟨⟨l, m₀⟩, hboot, htable, st, hst⟩ : ∃ r, memoryInit kernel 1 0 = .ok r ∧
      (List.range 36).map (fun i => r.2.load8 (64 + i)) = numChars ∧
      ∃ st, exec (StringCall.step? 64 128 MAX_INT_CHARS) { mem := r.2, var := fun _ => NULL } numbered = some st := by
    have h : ((memoryInit kernel 1 0).toOption.any fun r : Nat × Mem =>
        decide ((List.range 36).map (fun i => r.2.load8 (64 + i)) = numChars) &&
          (exec (StringCall.step? 64 128 MAX_INT_CHARS) { mem := r.2, var := fun _ => NULL } numbered).isSome) =
        true := by
      decide +kernel
    simpa [Option.any_eq_true, Except.toOption_eq_some, Option.isSome_iff_exists] using h
  have hbooted : Booted 1 ⟨m₀, [l], [l]⟩ := ⟨by decide, by decide, kernel, 0, l, m₀, hboot, rfl⟩
  have hdigits : Table m₀ 64 := by
    refine ⟨fun i hi => ?_, by decide⟩
    simp only [← htable, List.getElem_map, List.getElem_range]
  have hops := (exec_eq_some StringCall.step?_eq_some).mp hst
  have hrefines := (strings_refine hbooted .nil ⟨by decide, by decide, by decide, by decide, by decide⟩ hdigits hops).1
  exact ⟨_, st, hbooted, hops, hrefines, hrefines.holds 1 _ (by decide +kernel)⟩

end

end Ssmos

/-
Counters of several digits, most significant first, where the range of a digit
may depend on the digits before it (a calendar, say). From one value a counter
reaches exactly the values not below it. In a few steps a digit rises by no
more than them, or a carry out of it brings it down to the start of its range.
Digits read one by one while it runs are the digits of no value above its last
one.
-/
import Mathlib.Data.List.Lex
import Mathlib.Logic.Relation

namespace Ssmos

inductive Dials
  | done
  | dial (lo hi : Nat) (rest : Nat → Dials)

namespace Dials

open Relation

def Valid : Dials → List Nat → Prop
  | done, [] => True
  | dial lo hi rest, d :: ds => lo ≤ d ∧ d ≤ hi ∧ Valid (rest d) ds
  | _, _ => False

def least : Dials → List Nat
  | done => []
  | dial lo _ rest => lo :: least (rest lo)

def greatest : Dials → List Nat
  | done => []
  | dial _ hi rest => hi :: greatest (rest hi)

/-- The next value, if this is not the last one. -/
def next : Dials → List Nat → Option (List Nat)
  | dial _ hi rest, d :: ds =>
    match next (rest d) ds with
    | some ds' => some (d :: ds')
    | none => if d < hi then some ((d + 1) :: least (rest (d + 1))) else none
  | _, _ => none

/-- Every digit has a value. -/
def Sound : Dials → Prop
  | done => True
  | dial lo hi rest => lo ≤ hi ∧ ∀ d, lo ≤ d → d ≤ hi → Sound (rest d)

/-- One step of the counter. -/
def Ticks (D : Dials) (ds ds' : List Nat) : Prop := D.next ds = some ds'

def Reaches (D : Dials) : List Nat → List Nat → Prop := ReflTransGen D.Ticks

/-- `n` steps of the counter. -/
def After (D : Dials) : Nat → List Nat → List Nat → Prop
  | 0, ds, ds' => ds = ds'
  | n + 1, ds, ds' => ∃ mid, D.Ticks ds mid ∧ D.After n mid ds'

/-- Every digit starts at `b` or below, and goes above it. -/
def Spans (b : Nat) : Dials → Prop
  | done => True
  | dial lo hi rest => lo ≤ b ∧ b < hi ∧ ∀ d, (rest d).Spans b

variable {D : Dials} {lo hi d e b n m i : Nat} {rest : Nat → Dials} {ds ds' ds'' : List Nat}

theorem nil_le : [] ≤ ds := by
  cases ds with
  | nil => exact le_refl _
  | cons d ds => exact le_of_lt (List.nil_lt_cons d ds)

theorem cons_le_cons_iff : d :: ds ≤ e :: ds' ↔ d < e ∨ d = e ∧ ds ≤ ds' := by
  rw [le_iff_lt_or_eq, List.cons_lt_cons_iff, List.cons.injEq, le_iff_lt_or_eq (a := ds), or_assoc,
    ← and_or_left]

theorem valid_done_iff : done.Valid ds ↔ ds = [] := by
  cases ds <;> simp [Valid]

theorem valid_dial_iff : (dial lo hi rest).Valid ds ↔
    ∃ d ds', ds = d :: ds' ∧ lo ≤ d ∧ d ≤ hi ∧ (rest d).Valid ds' := by
  constructor
  · intro h
    cases ds with
    | nil => cases h
    | cons d ds => exact ⟨d, ds, rfl, h⟩
  · intro h
    obtain ⟨d, ds, rfl, h⟩ := h
    exact h

theorem Sound.least (h : D.Sound) : D.Valid D.least := by
  induction D with
  | done => trivial
  | dial lo hi rest ih => exact ⟨Nat.le_refl lo, h.1, ih lo (h.2 lo (Nat.le_refl lo) h.1)⟩

/-! ## Upwards -/

theorem Ticks.spec (hsound : D.Sound) (hvalid : D.Valid ds) (h : D.Ticks ds ds') :
    D.Valid ds' ∧ ds < ds' := by
  induction D generalizing ds ds' with
  | done => cases ds <;> cases h
  | dial lo hi rest ih =>
    cases ds with
    | nil => cases h
    | cons d ds =>
      obtain ⟨hlo, hhi, hds⟩ := hvalid
      rw [Ticks, next] at h
      split at h
      next ds₁ hnext =>
        cases h
        obtain ⟨hvalid, hlt⟩ := ih d (hsound.2 d hlo hhi) hds hnext
        exact ⟨⟨hlo, hhi, hvalid⟩, List.cons_lt_cons_iff.mpr (.inr ⟨rfl, hlt⟩)⟩
      next =>
        split at h
        next hd =>
          cases h
          have hlo' : lo ≤ d + 1 := by omega
          refine ⟨⟨hlo', hd, (hsound.2 _ hlo' hd).least⟩, List.cons_lt_cons_iff.mpr (.inl ?_)⟩
          exact Nat.lt_succ_self d
        next => cases h

theorem Reaches.spec (hsound : D.Sound) (hvalid : D.Valid ds) (h : D.Reaches ds ds') :
    D.Valid ds' ∧ ds ≤ ds' := by
  induction h with
  | refl => exact ⟨hvalid, le_refl ds⟩
  | tail _ htick ih =>
    obtain ⟨hvalid', hlt⟩ := htick.spec hsound ih.1
    exact ⟨hvalid', ih.2.trans hlt.le⟩

/-! ## Counted steps -/

theorem After.reaches (h : D.After n ds ds') : D.Reaches ds ds' := by
  induction n generalizing ds with
  | zero => exact h ▸ .refl
  | succ n ih =>
    obtain ⟨mid, htick, hrest⟩ := h
    exact .head htick (ih hrest)

theorem Reaches.after (h : D.Reaches ds ds') : ∃ n, D.After n ds ds' := by
  induction h using ReflTransGen.head_induction_on with
  | refl => exact ⟨0, rfl⟩
  | head htick _ ih =>
    obtain ⟨n, hn⟩ := ih
    exact ⟨n + 1, _, htick, hn⟩

theorem After.trans (h : D.After n ds ds') (h' : D.After m ds' ds'') : D.After (n + m) ds ds'' := by
  induction n generalizing ds with
  | zero =>
    cases h
    rwa [Nat.zero_add]
  | succ n ih =>
    obtain ⟨mid, htick, hrest⟩ := h
    rw [Nat.succ_add]
    exact ⟨mid, htick, ih hrest⟩

/-- A counter has one way to go. -/
theorem After.tail_of_le (h : D.After n ds ds') (h' : D.After m ds ds'') (hle : n ≤ m) :
    D.After (m - n) ds' ds'' := by
  induction n generalizing ds m with
  | zero =>
    cases h
    exact h'
  | succ n ih =>
    obtain ⟨mid, htick, hrest⟩ := h
    obtain ⟨m, rfl⟩ : ∃ k, m = k + 1 := ⟨m - 1, by omega⟩
    obtain ⟨mid', htick', hrest'⟩ := h'
    obtain rfl : mid = mid' := Option.some.inj (htick.symm.trans htick')
    rw [Nat.succ_sub_succ]
    exact ih hrest hrest' (by omega)

theorem After.eq_zero (hsound : D.Sound) (hvalid : D.Valid ds) (h : D.After n ds ds) : n = 0 := by
  cases n with
  | zero => rfl
  | succ n =>
    obtain ⟨mid, htick, hrest⟩ := h
    obtain ⟨hmid, hlt⟩ := htick.spec hsound hvalid
    exact absurd hlt (not_lt_of_ge (hrest.reaches.spec hsound hmid).2)

theorem After.unique (hsound : D.Sound) (hvalid : D.Valid ds) (h : D.After n ds ds') (h' : D.After m ds ds') :
    n = m := by
  have hend := (h.reaches.spec hsound hvalid).1
  rcases Nat.le_total n m with hle | hle
  · have := (h.tail_of_le h' hle).eq_zero hsound hend
    omega
  · have := (h'.tail_of_le h hle).eq_zero hsound hend
    omega

theorem Spans.least (h : D.Spans b) (i : Nat) : D.least.getD i 0 ≤ b := by
  induction D generalizing i with
  | done => exact Nat.zero_le _
  | dial lo hi rest ih =>
    cases i with
    | zero => exact h.1
    | succ i => exact ih lo (h.2.2 lo) i

/-- A step adds one to a digit, leaves it, or takes it back to its start. -/
theorem Ticks.digit (hspans : D.Spans b) (h : D.Ticks ds ds') (i : Nat) :
    ds.getD i 0 ≤ ds'.getD i 0 ∧ ds'.getD i 0 ≤ ds.getD i 0 + 1 ∨ ds'.getD i 0 ≤ b := by
  induction D generalizing ds ds' i with
  | done => cases ds <;> cases h
  | dial lo hi rest ih =>
    cases ds with
    | nil => cases h
    | cons d ds =>
      rw [Ticks, next] at h
      split at h
      next ds₁ hnext =>
        cases h
        cases i with
        | zero => exact .inl ⟨Nat.le_refl _, Nat.le_succ _⟩
        | succ i => exact ih d (hspans.2.2 d) hnext i
      next =>
        split at h
        next =>
          cases h
          cases i with
          | zero => exact .inl ⟨Nat.le_succ _, Nat.le_refl _⟩
          | succ i => exact .inr ((hspans.2.2 (d + 1)).least i)
        next => cases h

theorem After.digit (hspans : D.Spans b) (h : D.After n ds ds') (i : Nat) :
    ds.getD i 0 ≤ ds'.getD i 0 ∧ ds'.getD i 0 ≤ ds.getD i 0 + n ∨ ds'.getD i 0 + 1 ≤ b + n := by
  induction n generalizing ds with
  | zero =>
    cases h
    exact .inl ⟨Nat.le_refl _, Nat.le_refl _⟩
  | succ n ih =>
    obtain ⟨mid, htick, hrest⟩ := h
    rcases htick.digit hspans i with hmid | hmid <;> rcases ih hrest with hend | hend <;> omega

/-! ## To every value above -/

theorem next_greatest : D.next D.greatest = none := by
  induction D with
  | done => rfl
  | dial lo hi rest ih => simp [greatest, next, ih]

theorem Valid.greatest (hsound : D.Sound) : D.Valid D.greatest := by
  induction D with
  | done => trivial
  | dial lo hi rest ih => exact ⟨hsound.1, Nat.le_refl hi, ih hi (hsound.2 hi hsound.1 (Nat.le_refl hi))⟩

theorem Valid.le_greatest (h : D.Valid ds) : ds ≤ D.greatest := by
  induction D generalizing ds with
  | done =>
    cases ds with
    | nil => exact nil_le
    | cons => cases h
  | dial lo hi rest ih =>
    cases ds with
    | nil => exact nil_le
    | cons d ds =>
      obtain ⟨-, hhi, hds⟩ := h
      rcases Nat.lt_or_eq_of_le hhi with hlt | rfl
      · exact cons_le_cons_iff.mpr (.inl hlt)
      · exact cons_le_cons_iff.mpr (.inr ⟨rfl, ih d hds⟩)

theorem eq_greatest (h : D.Valid ds) (hnext : D.next ds = none) : ds = D.greatest := by
  induction D generalizing ds with
  | done => exact valid_done_iff.mp h
  | dial lo hi rest ih =>
    cases ds with
    | nil => cases h
    | cons d ds =>
      obtain ⟨-, hhi, hds⟩ := h
      rw [next] at hnext
      split at hnext
      next => cases hnext
      next hlower =>
        have hd : ¬ d < hi := fun hlt => by
          rw [if_pos hlt] at hnext
          cases hnext
        obtain rfl : d = hi := by omega
        rw [greatest, ← ih d hds hlower]

theorem Spans.greatest (h : D.Spans b) : ∀ i < D.greatest.length, b < D.greatest.getD i 0 := by
  induction D with
  | done => exact fun i hi => absurd hi (Nat.not_lt_zero i)
  | dial lo hi rest ih =>
    intro i hi'
    cases i with
    | zero => exact h.2.1
    | succ i => exact ih hi (h.2.2 hi) i (Nat.lt_of_succ_lt_succ hi')

/-- A carry out of a digit, which changes one before it, brings it down. -/
theorem Ticks.carry (hspans : D.Spans b) (hvalid : D.Valid ds) (h : D.Ticks ds ds') (hi : i < ds.length)
    (htake : ds.take i ≠ ds'.take i) : ds'.getD i 0 < ds.getD i 0 := by
  induction D generalizing ds ds' i with
  | done => cases ds <;> cases h
  | dial lo hi' rest ih =>
    cases ds with
    | nil => cases h
    | cons d ds =>
      obtain ⟨-, -, hds⟩ := hvalid
      cases i with
      | zero => exact absurd rfl htake
      | succ i =>
        rw [Ticks, next] at h
        split at h
        next ds₁ hnext =>
          cases h
          have htake' : ds.take i ≠ ds₁.take i := fun heq => htake (by simp [heq])
          have hlower := ih d (hspans.2.2 d) hds hnext (Nat.lt_of_succ_lt_succ hi) htake'
          exact hlower
        next hnext =>
          split at h
          next =>
            cases h
            have hdown := (hspans.2.2 (d + 1)).least i
            obtain rfl := eq_greatest hds hnext
            have hup := (hspans.2.2 d).greatest i (Nat.lt_of_succ_lt_succ hi)
            simp only [List.getD_cons_succ]
            omega
          next => cases h

theorem Valid.least_le (h : D.Valid ds) : D.least ≤ ds := by
  induction D generalizing ds with
  | done => exact nil_le
  | dial lo hi rest ih =>
    cases ds with
    | nil => cases h
    | cons d ds =>
      obtain ⟨hlo, -, hds⟩ := h
      rcases Nat.lt_or_eq_of_le hlo with hlt | rfl
      · exact cons_le_cons_iff.mpr (.inl hlt)
      · exact cons_le_cons_iff.mpr (.inr ⟨rfl, ih lo hds⟩)

/-- The lower digits run under a fixed one. -/
theorem Reaches.lift (h : (rest d).Reaches ds ds') : (dial lo hi rest).Reaches (d :: ds) (d :: ds') := by
  refine ReflTransGen.lift (d :: ·) (fun as bs hstep => ?_) ds ds' h
  have hnext : (rest d).next as = some bs := hstep
  change (dial lo hi rest).next (d :: as) = some (d :: bs)
  rw [next, hnext]

theorem ticks_carry (h : d < hi) :
    (dial lo hi rest).Ticks (d :: (rest d).greatest) ((d + 1) :: (rest (d + 1)).least) := by
  rw [Ticks, next, next_greatest]
  exact if_pos h

/-- Once every digit list not below another is reached in the lower digits, so
is the next value of the digit before them. -/
theorem reaches_carry (hrest : ∀ d, lo ≤ d → d ≤ hi → ∀ {ds ds'}, (rest d).Valid ds → (rest d).Valid ds' →
      ds ≤ ds' → (rest d).Reaches ds ds')
    (hsound : (dial lo hi rest).Sound) (hlo : lo ≤ d) (hde : d < e) (hhi : e ≤ hi)
    (hds : (rest d).Valid ds) : (dial lo hi rest).Reaches (d :: ds) (e :: (rest e).least) := by
  have hfrom : ∀ d ds, lo ≤ d → d < hi → (rest d).Valid ds →
      (dial lo hi rest).Reaches (d :: ds) ((d + 1) :: (rest (d + 1)).least) := by
    intro d ds hlo hlt hds
    have hgreatest : (rest d).Valid (rest d).greatest := Valid.greatest (hsound.2 d hlo (by omega))
    exact ((hrest d hlo (by omega) hds hgreatest hds.le_greatest).lift).tail (ticks_carry hlt)
  induction e with
  | zero => exact absurd hde (Nat.not_lt_zero d)
  | succ e ih =>
    rcases Nat.lt_or_eq_of_le (Nat.le_of_lt_succ hde) with hlt | rfl
    · have hleast : (rest e).Valid (rest e).least := (hsound.2 e (by omega) (by omega)).least
      exact (ih hlt (by omega)).trans (hfrom e _ (by omega) hhi hleast)
    · exact hfrom d ds hlo hhi hds

theorem reaches_of_le (hsound : D.Sound) (hds : D.Valid ds) (hds' : D.Valid ds') (h : ds ≤ ds') :
    D.Reaches ds ds' := by
  induction D generalizing ds ds' with
  | done =>
    cases ds with
    | nil =>
      cases ds' with
      | nil => exact .refl
      | cons => cases hds'
    | cons => cases hds
  | dial lo hi rest ih =>
    have hrest : ∀ d, lo ≤ d → d ≤ hi → ∀ {ds ds'}, (rest d).Valid ds → (rest d).Valid ds' →
        ds ≤ ds' → (rest d).Reaches ds ds' :=
      fun d hlo hhi _ _ hds hds' hle => ih d (hsound.2 d hlo hhi) hds hds' hle
    cases ds with
    | nil => cases hds
    | cons d ds =>
      cases ds' with
      | nil => cases hds'
      | cons e es =>
        obtain ⟨hlo, hhi, hds⟩ := hds
        obtain ⟨hlo', hhi', hes⟩ := hds'
        rcases cons_le_cons_iff.mp h with hlt | heq
        · have hleast : (rest e).Valid (rest e).least := (hsound.2 e hlo' hhi').least
          refine (reaches_carry hrest hsound hlo hlt hhi' hds).trans (Reaches.lift ?_)
          exact hrest e hlo' hhi' hleast hes hes.least_le
        · obtain ⟨rfl, hle⟩ := heq
          exact (hrest d hlo hhi hds hes hle).lift

/-- **What a counter reaches.** -/
theorem reaches_iff (hsound : D.Sound) (hvalid : D.Valid ds) :
    D.Reaches ds ds' ↔ D.Valid ds' ∧ ds ≤ ds' :=
  ⟨fun h => h.spec hsound hvalid, fun h => reaches_of_le hsound hvalid h.1 h.2⟩

/-! ## Digits read one by one -/

/-- The order by its first difference. -/
theorem le_iff_getD {xs ys : List Nat} (hlength : xs.length = ys.length) :
    xs ≤ ys ↔ ∀ i < xs.length, (∀ j < i, xs.getD j 0 = ys.getD j 0) → xs.getD i 0 ≤ ys.getD i 0 := by
  induction xs generalizing ys with
  | nil => exact iff_of_true nil_le fun i hi => absurd hi (Nat.not_lt_zero i)
  | cons x xs ih =>
    obtain ⟨y, ys, rfl⟩ := List.exists_cons_of_length_eq_add_one hlength.symm
    rw [cons_le_cons_iff, ih (Nat.succ.inj hlength)]
    constructor
    · intro h i hi hsame
      cases i with
      | zero =>
        rcases h with hlt | heq
        · exact Nat.le_of_lt hlt
        · exact Nat.le_of_eq heq.1
      | succ i =>
        have hhead : x = y := hsame 0 (Nat.succ_pos i)
        rcases h with hlt | heq
        · exact absurd hhead (Nat.ne_of_lt hlt)
        · exact heq.2 i (Nat.lt_of_succ_lt_succ hi) fun j hj => hsame (j + 1) (Nat.succ_lt_succ hj)
    · intro h
      have hhead : x ≤ y := h 0 (Nat.succ_pos _) fun j hj => absurd hj (Nat.not_lt_zero j)
      rcases Nat.lt_or_eq_of_le hhead with hlt | rfl
      · exact .inl hlt
      · refine .inr ⟨rfl, fun i hi hsame => h (i + 1) (Nat.succ_lt_succ hi) fun j hj => ?_⟩
        cases j with
        | zero => rfl
        | succ j => exact hsame j (Nat.lt_of_succ_lt_succ hj)

/-- While no digit before it changes, a digit does not fall. -/
theorem getD_le_of_take_eq {xs ys : List Nat} (hlength : xs.length = ys.length) (hle : xs ≤ ys)
    (hi : i < xs.length) (htake : xs.take i = ys.take i) : xs.getD i 0 ≤ ys.getD i 0 := by
  refine (le_iff_getD hlength).mp hle i hi fun j hj => ?_
  have hget := congrArg (fun l => l.getD j 0) htake
  simpa [List.getD_eq_getElem?_getD, List.getElem?_take, hj] using hget

/-- Digit `i` of the `i`-th of the values. -/
def diagonal (n : Nat) (f : Nat → List Nat) : List Nat := (List.range n).map fun i => (f i).getD i 0

theorem diagonal_succ {f : Nat → List Nat} :
    diagonal (n + 1) f = (f 0).getD 0 0 :: diagonal n fun k => (f (k + 1)).tail := by
  simp [diagonal, List.range_succ_eq_map]

/-- Read from the most significant digit on, they are never above what the counter then has. -/
theorem diagonal_le {f : Nat → List Nat} (hlength : ∀ k ≤ m, (f k).length = n)
    (hmono : ∀ i j, i ≤ j → j ≤ m → f i ≤ f j) (hn : n ≤ m + 1) : diagonal n f ≤ f m := by
  induction n generalizing m f with
  | zero => exact nil_le
  | succ n ih =>
    obtain ⟨a, as, ha⟩ := List.exists_cons_of_length_eq_add_one (hlength 0 (Nat.zero_le m))
    obtain ⟨b, bs, hb⟩ := List.exists_cons_of_length_eq_add_one (hlength m (Nat.le_refl m))
    have hdiagonal : diagonal (n + 1) f = a :: diagonal n fun k => (f (k + 1)).tail := by
      rw [diagonal_succ, ha]
      rfl
    have hends : a :: as ≤ b :: bs := ha ▸ hb ▸ hmono 0 m (Nat.zero_le m) (Nat.le_refl m)
    rw [hdiagonal, hb]
    rcases cons_le_cons_iff.mp hends with hlt | heq
    · exact cons_le_cons_iff.mpr (.inl hlt)
    · obtain ⟨rfl, -⟩ := heq
      refine cons_le_cons_iff.mpr (.inr ⟨rfl, ?_⟩)
      -- the first digit stays, so the others run on by themselves
      have hhead : ∀ k ≤ m, f k = a :: (f k).tail := by
        intro k hk
        obtain ⟨d, ds, hd⟩ := List.exists_cons_of_length_eq_add_one (hlength k hk)
        have hlower : a :: as ≤ d :: ds := ha ▸ hd ▸ hmono 0 k (Nat.zero_le k) hk
        have hupper : d :: ds ≤ a :: bs := hb ▸ hd ▸ hmono k m hk (Nat.le_refl m)
        have had : d = a := by
          rcases cons_le_cons_iff.mp hlower with h₁ | h₁ <;>
            rcases cons_le_cons_iff.mp hupper with h₂ | h₂ <;> omega
        rw [hd, had]
        rfl
      cases n with
      | zero => exact nil_le
      | succ n =>
        obtain ⟨m, rfl⟩ : ∃ m', m = m' + 1 := ⟨m - 1, by omega⟩
        have htail : (f (m + 1)).tail = bs := by rw [hb]; rfl
        rw [← htail]
        refine ih (m := m) (fun k hk => ?_) (fun i j hij hj => ?_) (by omega)
        · rw [List.length_tail, hlength (k + 1) (by omega)]
          rfl
        · have hle := hmono (i + 1) (j + 1) (by omega) (by omega)
          rw [hhead (i + 1) (by omega), hhead (j + 1) (by omega)] at hle
          rcases cons_le_cons_iff.mp hle with hlt | heq
          · exact absurd hlt (Nat.lt_irrefl a)
          · exact heq.2

end Dials

end Ssmos

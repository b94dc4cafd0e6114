/-
What a dynamic string is for: a sequence of non-zero chars. The functions of
`lib/string.c` are these operations on it (`Ssmos.StringFacts`).
-/
import Ssmos.Base.ThreeWay

namespace Ssmos

/-- A sequence of non-zero chars. -/
structure Text where
  chars : List UInt8
  nonzero : ∀ c ∈ chars, c ≠ 0
  deriving DecidableEq

namespace Text

theorem ext {s t : Text} (h : s.chars = t.chars) : s = t := by
  cases s; cases t; cases h; rfl

/-- `strlen`. -/
def length (t : Text) : Nat := t.chars.length

def empty : Text := ⟨[], nofun⟩

def append (s t : Text) : Text where
  chars := s.chars ++ t.chars
  nonzero := fun c hc => (List.mem_append.mp hc).elim (s.nonzero c) (t.nonzero c)

/-- Appending a char: the terminator leaves a string as it was. -/
def push (t : Text) (c : UInt8) : Text :=
  if h : c = 0 then t
  else {
    chars := t.chars ++ [c]
    nonzero := fun d hd => (List.mem_append.mp hd).elim (t.nonzero d) fun he => by
      rwa [List.mem_singleton.mp he] }

/-- What a C reader sees of a run of chars: all up to the first zero. -/
def ofChars (l : List UInt8) : Text where
  chars := l.takeWhile (· ≠ 0)
  nonzero := fun c hc => by
    have := List.all_takeWhile (l := l) (p := (· ≠ 0))
    simpa using List.all_eq_true.mp this c hc

/-- A string literal. -/
def lit (s : String) : Text := ofChars (s.toList.map fun c => UInt8.ofNat c.toNat)

def take (t : Text) (n : Nat) : Text where
  chars := t.chars.take n
  nonzero := fun c hc => t.nonzero c (List.mem_of_mem_take hc)

def drop (t : Text) (n : Nat) : Text where
  chars := t.chars.drop n
  nonzero := fun c hc => t.nonzero c (List.mem_of_mem_drop hc)

@[simp] theorem empty_length : empty.length = 0 := rfl

@[simp] theorem append_length (s t : Text) : (s.append t).length = s.length + t.length :=
  List.length_append

@[simp] theorem take_length (t : Text) (n : Nat) : (t.take n).length = min n t.length := List.length_take

theorem push_zero (t : Text) : t.push 0 = t := by simp [push]

theorem push_chars {t : Text} {c : UInt8} (h : c ≠ 0) : (t.push c).chars = t.chars ++ [c] := by
  simp [push, h]

theorem push_length {t : Text} {c : UInt8} (h : c ≠ 0) : (t.push c).length = t.length + 1 := by
  simp [length, push_chars h]

/-- Char by char is all at once. -/
theorem foldl_push (t u : Text) : u.chars.foldl push t = t.append u := by
  obtain ⟨w, hw⟩ := u
  induction w generalizing t with
  | nil => exact ext (by simp [append])
  | cons c w ih =>
    rw [List.foldl_cons, ih (t.push c) fun d hd => hw d (List.mem_cons_of_mem _ hd)]
    exact ext (by simp [append, push_chars (hw c List.mem_cons_self)])

theorem empty_append (t : Text) : empty.append t = t := ext rfl

theorem take_of_length_le {t : Text} {n : Nat} (h : t.length ≤ n) : t.take n = t :=
  ext (List.take_of_length_le h)

end Text

/-! ## The functions of `lib/string.c` on C strings, by their chars -/

/-- `strcmp`, where a `char` is signed. -/
def strcmp : List UInt8 → List UInt8 → Int
  | [], [] => 0
  | [], _ :: _ => -1
  | _ :: _, [] => 1
  | x :: xs, y :: ys =>
    if y.toInt8 > x.toInt8 then -1
    else if x.toInt8 > y.toInt8 then 1
    else strcmp xs ys

def lowerChar (c : UInt8) : UInt8 := if c ≤ 90 ∧ 65 ≤ c then c + 32 else c

theorem lowerChar_ne_zero {c : UInt8} (h : c ≠ 0) : lowerChar c ≠ 0 := by
  unfold lowerChar
  split
  next hc =>
    rw [UInt8.le_iff_toNat_le, UInt8.le_iff_toNat_le] at hc
    intro h0
    have h32 := congrArg UInt8.toNat h0
    rw [UInt8.toNat_add] at h32
    simp only [UInt8.reduceToNat] at h32 hc
    omega
  next => exact h

/-- `tolower`. -/
def Text.tolower (t : Text) : Text where
  chars := t.chars.map lowerChar
  nonzero := fun c hc => by
    obtain ⟨d, hd, rfl⟩ := List.mem_map.mp hc
    exact lowerChar_ne_zero (t.nonzero d hd)

/-- A char as the number the comparisons see. -/
def signed (c : UInt8) : Int := c.toInt8.toInt

theorem signed_lt {x y : UInt8} : signed x < signed y ↔ x.toInt8 < y.toInt8 := Int8.lt_iff_toInt_lt.symm

theorem signed_injective : Function.Injective signed :=
  fun _ _ h => congrArg Int8.toUInt8 (Int8.toInt_inj.mp h)

/-- `strcmp` compares the two sequences of numbers. -/
theorem strcmp_eq (s t : List UInt8) : strcmp s t = threeWay (s.map signed) (t.map signed) := by
  fun_induction strcmp s t with
  | case1 => simp
  | case2 => simp
  | case3 => simp
  | case4 x xs y ys h => rw [List.map_cons, List.map_cons, threeWay_cons_of_lt (signed_lt.mpr h)]
  | case5 x xs y ys _ h => rw [List.map_cons, List.map_cons, threeWay_cons_of_gt (signed_lt.mpr h)]
  | case6 x xs y ys h h' ih =>
    have hxy : signed x = signed y := le_antisymm
      (not_lt.mp (mt signed_lt.mp h')) (not_lt.mp (mt signed_lt.mp h))
    rw [List.map_cons, List.map_cons, hxy, threeWay_cons_self, ih]

theorem strcmp_eq_zero {s t : List UInt8} : strcmp s t = 0 ↔ s = t := by
  rw [strcmp_eq, threeWay_eq_zero, (List.map_injective_iff.mpr signed_injective).eq_iff]

end Ssmos

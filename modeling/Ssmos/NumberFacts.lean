/-
`tostring` writes numerals: sign and digits of the number it is given, while
that is not the least `int` and while there is room.
-/
import Mathlib.Data.List.TakeWhile
import Ssmos.Base.Bytes
import Ssmos.Base.Numerals
import Ssmos.Commands
import Ssmos.Numbers
import Ssmos.StringFacts

namespace Ssmos

/-! ## Turning around -/

section

variable {m m' : Mem} {n num dest a : Nat}

/-- The swaps turn `k` bytes around. -/
theorem strrevLoop_spec {x y k n : Nat} (hlast : y + 1 = x + k) (hn : k < n) (hfirst : 0 < x)
    (hlt : x + k ≤ 2 ^ 32) : ∃ m', strrevLoop n m x y = .ok m' ∧
      Wrote m m' (Set.Ico x (x + k)) ∧
      ∀ i, i < k → m'.load8 (x + i) = m.load8 (x + (k - 1 - i)) := by
  induction n generalizing m x y k with
  | zero => omega
  | succ n ih =>
    rw [strrevLoop]
    by_cases hswap : y > x
    · rw [if_pos hswap]
      obtain ⟨k, rfl⟩ : ∃ j, k = j + 2 := ⟨k - 2, by omega⟩
      have hback : wrap (y + (2 ^ 32 - 1)) = y - 1 := by
        unfold wrap
        omega
      rw [wrap_of_lt (by omega), hback]
      have hw : Wrote m ((m.store8 y (m.load8 x)).store8 x (m.load8 y))
          (Set.Ico x (x + (k + 2))) :=
        (Wrote.store8_Ico (by omega) (by omega) (by omega)).trans
          (.store8_Ico (by omega) (by omega) (by omega))
      obtain ⟨m', hrev, hw', hturned⟩ := ih (m := (m.store8 y (m.load8 x)).store8 x (m.load8 y))
        (x := x + 1) (y := y - 1) (k := k) (by omega) (by omega) (by omega) (by omega)
      refine ⟨m', hrev, hw.trans (hw'.mono (Set.Ico_subset_Ico (by omega) (by omega))), fun i hi => ?_⟩
      -- The two ends are what was swapped; the rest is what the remaining swaps turn around.
      have houter : ∀ a, a = x ∨ a = y →
          m'.load8 a = ((m.store8 y (m.load8 x)).store8 x (m.load8 y)).load8 a := fun a ha =>
        hw'.load8_eq_Ico (by omega) (by omega)
      by_cases h₀ : i = 0
      · rw [h₀, Nat.add_zero, houter x (.inl rfl), Mem.load8_store8_same]
        exact congrArg m.load8 (by omega)
      · by_cases h₁ : i = k + 1
        · rw [show x + i = y by omega, houter y (.inr rfl),
            Mem.load8_store8_ne (by rw [wrap_of_lt (by omega), wrap_of_lt (by omega)]; omega),
            Mem.load8_store8_same]
          exact congrArg m.load8 (by omega)
        · have := hturned (i - 1) (by omega)
          rw [show x + 1 + (i - 1) = x + i by omega] at this
          rw [this, Mem.load8_store8_ne (by rw [wrap_of_lt (by omega), wrap_of_lt (by omega)]; omega),
            Mem.load8_store8_ne (by rw [wrap_of_lt (by omega), wrap_of_lt (by omega)]; omega)]
          exact congrArg m.load8 (by omega)
    · rw [if_neg hswap]
      refine ⟨m, rfl, .refl _ _, fun i hi => ?_⟩
      exact congrArg m.load8 (by omega)

/-! ## The digits -/

variable {b k : Nat} {s base val : Int}

theorem tmod_signed (hs : s = 1 ∨ s = -1) : (s * k).tmod b = s * (k % b : Nat) := by
  rcases hs with rfl | rfl
  · simp only [one_mul]
    rfl
  · simp only [neg_mul, one_mul, Int.neg_tmod]
    rfl

theorem tdiv_signed (hs : s = 1 ∨ s = -1) : (s * k).tdiv b = s * (k / b : Nat) := by
  rcases hs with rfl | rfl
  · simp only [one_mul]
    rfl
  · simp only [neg_mul, one_mul, Int.neg_tdiv]
    rfl

/-- `num[]`, without its terminator. -/
def numChars : List UInt8 := (Text.lit "0123456789abcdefghijklmnopqrstuvwxyz").chars

theorem numChars_length : numChars.length = 36 := by decide

def digitChar (d : Nat) : UInt8 := numChars.getD d 0

/-- The digits are in memory, at `num`. -/
structure Table (m : Mem) (num : Nat) : Prop where
  bytes : BytesAt m num numChars
  lt : num + 36 ≤ 2 ^ 32

theorem Table.load8 {d : Nat} (h : Table m num) (hd : d < 36) :
    m.load8 (ofInt (num + (1 : Int) * d)) = digitChar d := by
  have hlt := h.lt
  have hat : ofInt (num + (1 : Int) * d) = num + d := by
    unfold ofInt
    omega
  rw [hat, h.bytes d (by rw [numChars_length]; exact hd), digitChar,
    List.getElem_eq_getD]

theorem Table.frame {S : Set Nat} (h : Table m num) (hw : Wrote m m' S)
    (hs : ∀ x, num ≤ x → x < num + 36 → x ∉ S) : Table m' num :=
  ⟨h.bytes.frame hw (by rw [numChars_length]; exact h.lt) (by rw [numChars_length]; exact hs), h.lt⟩

/-- The loop goes through the numeral, each digit with the sign of the number,
and the positive ones it finds in the table. -/
theorem fillLoop_spec (m : Mem) (num buffer : Nat) (hs : s = 1 ∨ s = -1) (hb : 1 < b) (hn : k < n) : ∃ m',
    fillLoop num b n m buffer (s * k) =
      .ok ⟨m', wrap (buffer + (numeral b k).length), (numeral b k).map fun d : Nat => s * (d : Int)⟩ ∧
    (buffer + (numeral b k).length ≤ 2 ^ 32 →
      Wrote m m' (Set.Ico buffer (buffer + (numeral b k).length)) ∧
      (s = 1 → b ≤ 36 → Table m num → num + 36 ≤ buffer ∨ buffer + (numeral b k).length ≤ num →
        BytesAt m' buffer ((numeral b k).map digitChar))) := by
  induction n generalizing m buffer k with
  | zero => omega
  | succ n ih =>
    have hstep := numeral_step hb k
    have hdigit : k % b < b := Nat.mod_lt _ (by omega)
    rw [fillLoop]
    simp only [tmod_signed hs, tdiv_signed hs]
    generalize hm₁ : m.store8 buffer (m.load8 (ofInt (num + s * (k % b : Nat)))) = m₁
    have hw : buffer + 1 ≤ 2 ^ 32 → Wrote m m₁ {buffer} := fun hlt =>
      hm₁ ▸ .store8_singleton (by omega)
    have hfirst : s = 1 → b ≤ 36 → Table m num → m₁.load8 buffer = digitChar (k % b) := fun hs₁ hb₁ htable => by
      rw [← hm₁, hs₁, Mem.load8_store8_same, htable.load8 (by omega)]
    by_cases hz : k / b = 0
    · rw [if_pos hz] at hstep
      rw [if_neg (by simp [hz]), hstep]
      refine ⟨m₁, rfl, fun hlt => ⟨(hw hlt).mono ?_, fun hs₁ hb₁ htable _ => ?_⟩⟩
      · rw [Set.singleton_subset_iff, Set.mem_Ico]
        exact ⟨Nat.le_refl _, Nat.lt_succ_self _⟩
      · exact .cons (hfirst hs₁ hb₁ htable) (.nil _ _)
    · have hne : ¬s * ((k / b : Nat) : Int) = 0 :=
        mul_ne_zero (by rcases hs with rfl | rfl <;> decide) (Int.ofNat_ne_zero.mpr hz)
      have hlt : k / b < n := by
        have hpos : 0 < k := Nat.pos_of_ne_zero fun h₀ => hz (by rw [h₀, Nat.zero_div])
        have := Nat.div_lt_self hpos hb
        omega
      rw [if_neg hz] at hstep
      obtain ⟨m', hrest, hspec⟩ := ih m₁ (wrap (buffer + 1)) hlt
      rw [if_pos hne, hrest, hstep]
      refine ⟨m', ?_, fun hroom => ?_⟩
      · simp only [Except.ok_bind, List.length_cons]
        congr 2
        unfold wrap
        omega
      · have hpos := List.length_pos_of_ne_nil (numeral_ne_nil b (k / b))
        rw [List.length_cons] at hroom ⊢
        rw [wrap_of_lt (by omega)] at hspec
        obtain ⟨hw', hbytes⟩ := hspec (by omega)
        refine ⟨((hw (by omega)).mono ?_).trans (hw'.mono ?_), fun hs₁ hb₁ htable hapart => .cons ?_ ?_⟩
        · rw [Set.singleton_subset_iff, Set.mem_Ico]
          omega
        · exact Set.Ico_subset_Ico (by omega) (by omega)
        · rw [hw'.load8_eq_Ico (by omega) (by omega)]
          exact hfirst hs₁ hb₁ htable
        · refine hbytes hs₁ hb₁ (htable.frame (hw (by omega)) fun x h₁ h₂ hx => ?_) (by omega)
          rw [Set.mem_singleton_iff] at hx
          omega

/-! ## `tostring` -/

/-- A number written down: its sign and its digits, the highest first. -/
def written (b : Nat) (val : Int) : List UInt8 :=
  (if val < 0 then [0x2D] else []) ++ (numeral b val.natAbs).reverse.map digitChar

theorem written_length (b : Nat) (val : Int) : (written b val).length =
    (numeral b val.natAbs).length + if val < 0 then 1 else 0 := by
  rw [written, List.length_append, List.length_map, List.length_reverse, Nat.add_comm]
  split <;> rfl

theorem written_length_pos (b : Nat) (val : Int) : 0 < (written b val).length := by
  rw [written_length]
  have := List.length_pos_of_ne_nil (numeral_ne_nil b val.natAbs)
  omega

theorem digitChar_ne_zero {d : Nat} (h : d < 36) : digitChar d ≠ 0 := by
  decide +revert

theorem written_ne_zero (hb : 1 < b) (hb' : b ≤ 36) {c : UInt8} (hc : c ∈ written b val) : c ≠ 0 := by
  rcases List.mem_append.mp hc with hc | hc
  · split at hc
    · rw [List.mem_singleton.mp hc]
      decide
    · exact absurd hc List.not_mem_nil
  · obtain ⟨d, hd, rfl⟩ := List.mem_map.mp hc
    have := numeral_lt hb (List.mem_reverse.mp hd)
    exact digitChar_ne_zero (by omega)

/-- Only the least `int` has no positive counterpart. -/
theorem magnitude_signed (hval : -2 ^ 31 ≤ val) (hlt : val < 2 ^ 31) :
    ∃ s : Int, (s = 1 ∨ s = -1) ∧ magnitude val = s * val.natAbs ∧ (val ≠ -2 ^ 31 → s = 1) := by
  by_cases hneg : val < 0
  · by_cases hleast : val = -2 ^ 31
    · exact ⟨-1, .inr rfl, by rw [hleast]; rfl, fun h => absurd hleast h⟩
    · refine ⟨1, .inl rfl, ?_, fun _ => rfl⟩
      rw [magnitude, if_pos hneg, negate, toInt, ofInt]
      rw [if_pos (by unfold wrap; omega)]
      unfold wrap
      omega
  · exact ⟨1, .inl rfl, by rw [magnitude, if_neg hneg]; omega, fun _ => rfl⟩

/-- Bytes with a terminator behind them. -/
theorem BytesAt.cstr {bs : List UInt8} (h : BytesAt m a bs) (hne : ∀ c ∈ bs, c ≠ 0)
    (hz : m.load8 (a + bs.length) = 0) : CStr m a bs := by
  induction bs generalizing a with
  | nil => exact hz
  | cons c bs ih =>
    refine ⟨h 0 (Nat.zero_lt_succ _), hne c List.mem_cons_self, ih (fun i hi => ?_)
      (fun d hd => hne d (List.mem_cons_of_mem _ hd)) ?_⟩
    · rw [show a + 1 + i = a + (i + 1) by omega]
      exact h (i + 1) (by simpa using hi)
    · rwa [List.length_cons, show a + (bs.length + 1) = a + 1 + bs.length by omega] at hz

/-- What `tostring` does to the memory, for every `int` and every base it takes. -/
structure Tostring (m : Mem) (num : Nat) (val : Int) (dest b : Nat) (m' : Mem) : Prop where
  wrote : Wrote m m' (Set.Ico dest (dest + (written b val).length + 1))
  last : WroteAt m m' (dest + (written b val).length)
  zero : m'.load8 (dest + (written b val).length) = 0
  sign : val < 0 → m'.load8 dest = 0x2D
  content : val ≠ -2 ^ 31 → Table m num → num + 36 ≤ dest ∨ dest + (written b val).length < num →
    CStr m' dest (written b val)

/-- The sign goes behind the digits. -/
theorem sign_spec {m₁ : Mem} (hroom : dest + (written b val).length < 2 ^ 32)
    (hw : Wrote m m₁ (Set.Ico dest (dest + (numeral b val.natAbs).length))) : ∃ m₂,
    (if val < 0 then (m₁.store8 (dest + (numeral b val.natAbs).length) 0x2D,
        wrap (dest + (numeral b val.natAbs).length + 1))
      else (m₁, dest + (numeral b val.natAbs).length)) = (m₂, dest + (written b val).length) ∧
    Wrote m m₂ (Set.Ico dest (dest + (written b val).length)) ∧
    (val < 0 → m₂.load8 (dest + ((written b val).length - 1)) = 0x2D) ∧
    (BytesAt m₁ dest ((numeral b val.natAbs).map digitChar) → BytesAt m₂ dest (written b val).reverse) := by
  have hlen := written_length b val
  by_cases hneg : val < 0
  · rw [if_pos hneg] at hlen ⊢
    have hw₂ : Wrote m₁ (m₁.store8 (dest + (numeral b val.natAbs).length) 0x2D)
        {dest + (numeral b val.natAbs).length} := .store8_singleton (by omega)
    refine ⟨_, by rw [wrap_of_lt (by omega), hlen, Nat.add_assoc], (hw.mono ?_).trans (hw₂.mono ?_),
      fun _ => ?_, fun hdigits => ?_⟩
    · exact Set.Ico_subset_Ico_right (by omega)
    · rw [Set.singleton_subset_iff, Set.mem_Ico]
      omega
    · rw [hlen, Nat.add_sub_cancel, Mem.load8_store8_same]
    · rw [written, if_pos hneg, List.reverse_append, ← List.map_reverse, List.reverse_reverse]
      refine (hdigits.frame hw₂ ?_ fun x h₁ h₂ hx => ?_).append (.cons ?_ (.nil _ _))
      · rw [List.length_map]
        omega
      · rw [List.length_map] at h₂
        rw [Set.mem_singleton_iff] at hx
        omega
      · rw [List.length_map, Mem.load8_store8_same]
  · rw [if_neg hneg] at hlen ⊢
    rw [Nat.add_zero] at hlen
    refine ⟨m₁, by rw [hlen], hw.mono (by rw [hlen]), fun h => absurd h hneg, fun hdigits => ?_⟩
    rw [written, if_neg hneg, List.nil_append, ← List.map_reverse, List.reverse_reverse]
    exact hdigits

theorem tostring_spec (m : Mem) (num : Nat) (hval : -2 ^ 31 ≤ val) (hlt : val < 2 ^ 31) (hb : 1 < b)
    (hb' : b ≤ 35) (hdest : dest ≠ NULL) (hroom : dest + (written b val).length < 2 ^ 32) :
    ∃ m', m.tostring num val dest b = .ok m' ∧ Tostring m num val dest b m' := by
  obtain ⟨s, hs, hmag, hleast⟩ := magnitude_signed hval hlt
  have hlen := written_length b val
  have hpos := written_length_pos b val
  have hdest₀ : dest ≠ 0 := hdest
  obtain ⟨m₁, hfill, hspec⟩ := fillLoop_spec m num dest hs hb
    (show val.natAbs < loopBound by simp only [loopBound]; omega)
  obtain ⟨hw₁, hbytes₁⟩ := hspec (by omega)
  rw [wrap_of_lt (by omega)] at hfill
  obtain ⟨m₂, hsign, hw₂, hminus, hbytes₂⟩ := sign_spec hroom hw₁
  -- The terminator, and all before it turned around.
  generalize hL : (written b val).length = len at *
  have hw₃ : Wrote m₂ (m₂.store8 (dest + len) 0) {dest + len} := .store8_singleton hroom
  obtain ⟨m', hrev, hw', hturned⟩ := strrevLoop_spec (m := m₂.store8 (dest + len) 0) (x := dest)
    (y := dest + len - 1) (k := len) (n := loopBound) (by omega) (by simp only [loopBound]; omega)
    (by omega) (by omega)
  have hback : wrap (dest + len + (2 ^ 32 - 1)) = dest + len - 1 := by
    unfold wrap
    omega
  have hzero : m'.load8 (dest + len) = 0 := by
    rw [hw'.load8_eq_Ico hroom (by omega), Mem.load8_store8_same]
  have hkept : ∀ i, i < len → (m₂.store8 (dest + len) 0).load8 (dest + i) = m₂.load8 (dest + i) := fun i hi =>
    hw₃.load8_eq (by rw [wrap_of_lt (by omega), Set.mem_singleton_iff]; omega)
  refine ⟨m', ?_, ⟨?_, ?_, by rw [hL]; exact hzero, fun hneg => ?_, fun hne htable hapart => ?_⟩⟩
  · rw [Mem.tostring, if_neg hdest, if_neg (by omega), hmag, hfill]
    simp only [Except.ok_bind]
    rw [hsign]
    simp only
    rw [hback, strrev, if_neg (by simp only [NULL]; omega), hrev]
  · rw [hL]
    refine ((hw₂.mono ?_).trans (hw₃.mono ?_)).trans (hw'.mono ?_)
    · exact Set.Ico_subset_Ico_right (by omega)
    · rw [Set.singleton_subset_iff, Set.mem_Ico]
      omega
    · exact Set.Ico_subset_Ico_right (by omega)
  · rw [hL]
    exact (WroteAt.before hw₂ (.store8 (wrap_of_lt hroom))).after hw'
  · have := hturned 0 hpos
    rw [Nat.add_zero, Nat.sub_zero, hkept _ (by omega)] at this
    rw [this, hminus hneg]
  · rw [hL] at hapart
    have hdigits := hbytes₁ (hleast hne) (by omega) htable (by omega)
    have hbytes : BytesAt m' dest (written b val).reverse.reverse := (hbytes₂ hdigits).reverse fun i hi => by
      rw [List.length_reverse, hL] at hi ⊢
      rw [hturned i hi, hkept _ (by omega)]
    rw [List.reverse_reverse] at hbytes
    exact hbytes.cstr (fun c hc => written_ne_zero hb (by omega) hc) (by rw [hL]; exact hzero)

/-! ## The text of a number -/

theorem digitAt_natCast (env : Env) (k : Nat) : digitAt env k = digitChar k := by
  rw [digitAt, if_neg (by omega), Int.toNat_natCast]
  rfl

theorem digitLoop_eq (env : Env) (hb : 1 < b) (hk : k < 2 ^ n) (hn : 0 < n) :
    digitLoop env b n k = (numeral b k).map digitChar := by
  induction n generalizing k with
  | zero => omega
  | succ n ih =>
    have hdiv : k / b < 2 ^ n := by
      have : k / b ≤ k / 2 := Nat.div_le_div_left hb (by decide)
      omega
    have hmod : (k : Int).tmod b = (k % b : Nat) := rfl
    have hquot : (k : Int).tdiv b = (k / b : Nat) := rfl
    rw [digitLoop, numeral_step hb, hmod, hquot, digitAt_natCast, List.map_cons]
    by_cases hz : k / b = 0
    · rw [if_neg (by simp [hz]), if_pos hz]
      rfl
    · have hn : n ≠ 0 := fun h₀ => hz (Nat.lt_one_iff.mp (by rwa [h₀, pow_zero] at hdiv))
      rw [if_pos (Int.ofNat_ne_zero.mpr hz), if_neg hz, ih hdiv (Nat.pos_of_ne_zero hn)]

/-- The text that the commands work with is what `tostring` writes. -/
theorem tostring_chars (env : Env) (hval : -2 ^ 31 < val) (hlt : val < 2 ^ 31) (hb : 1 < b) (hb' : b ≤ 36) :
    (tostring env val b).chars = written b val := by
  have hmag : (if val < 0 ∧ val ≠ -2 ^ 31 then -val else val) = (val.natAbs : Int) := by
    split <;> omega
  have hall : ((if val < 0 then (numeral b val.natAbs).map digitChar ++ [0x2D]
      else (numeral b val.natAbs).map digitChar).reverse) = written b val := by
    rw [written]
    split
    · rw [List.reverse_append, ← List.map_reverse]
      rfl
    · rw [← List.map_reverse, List.nil_append]
  rw [tostring, hmag, digitLoop_eq env hb (by omega) (by decide), Text.ofChars]
  simp only
  rw [hall, List.takeWhile_eq_self_iff.mpr fun c hc => by simpa using written_ne_zero hb hb' hc]

/-! ## Reading back -/

def digitValue (c : UInt8) : Nat := numChars.idxOf c

/-- The number that a string stands for. -/
def readNumber (b : Nat) : List UInt8 → Int
  | [] => 0
  | c :: cs =>
    if c = 0x2D then -(Nat.ofDigits b (cs.reverse.map digitValue) : Nat)
    else (Nat.ofDigits b ((c :: cs).reverse.map digitValue) : Nat)

/-- A minus sign for a negative number, and the digits of its value with no
zero in front. -/
structure Canonical (b : Nat) (val : Int) (cs : List UInt8) : Prop where
  sign : cs.head? = some 0x2D ↔ val < 0
  digits : ∃ ds : List Nat, cs = (if val < 0 then [0x2D] else []) ++ ds.map digitChar ∧ ds ≠ [] ∧
    (∀ d ∈ ds, d < b) ∧ (ds.head? = some 0 → val = 0 ∧ ds = [0]) ∧ Nat.ofDigits b ds.reverse = val.natAbs

theorem digitChar_ne_minus {d : Nat} (h : d < 36) : digitChar d ≠ 0x2D := by
  decide +revert

theorem digitValue_digitChar {d : Nat} (h : d < 36) : digitValue (digitChar d) = d := by
  decide +revert

/-- The digits of a numeral, the highest first, are the first one and the rest. -/
theorem numeral_reverse_cons (hb : 1 < b) (k : Nat) : ∃ d ds, (numeral b k).reverse = d :: ds ∧ d < b ∧
    (d = 0 → k = 0 ∧ numeral b k = [0]) := by
  have hne := numeral_ne_nil b k
  refine ⟨(numeral b k).getLast hne, (numeral b k).dropLast.reverse, ?_, numeral_lt hb (List.getLast_mem hne),
    numeral_getLast_eq_zero⟩
  rw [← List.reverse_concat, List.dropLast_append_getLast]

theorem written_canonical (hb : 1 < b) (hb' : b ≤ 36) : Canonical b val (written b val) := by
  obtain ⟨d, ds, hcons, hd, hzero⟩ := numeral_reverse_cons hb val.natAbs
  refine ⟨?_, _, rfl, ?_, fun d hd => numeral_lt hb (List.mem_reverse.mp hd), fun hhead => ?_, ?_⟩
  · rw [written, hcons]
    split
    · next hneg => simp [hneg]
    · next hneg => simp [hneg, digitChar_ne_minus (d := d) (by omega)]
  · rw [hcons]
    simp
  · rw [hcons, List.head?_cons, Option.some.injEq] at hhead
    obtain ⟨hval, hnum⟩ := hzero hhead
    exact ⟨Int.natAbs_eq_zero.mp hval, by rw [hnum]; rfl⟩
  · rw [List.reverse_reverse, ofDigits_numeral]

/-- A number has no other canonical string. -/
theorem Canonical.unique {cs : List UInt8} (hb : 1 < b) (h : Canonical b val cs) : cs = written b val := by
  obtain ⟨ds, rfl, hne, hlt, hhead, hval⟩ := h.digits
  have hds : numeral b val.natAbs = ds.reverse := by
    rw [← hval]
    refine numeral_ofDigits hb (by simpa) (fun d hd => hlt d (List.mem_reverse.mp hd)) fun hlast => ?_
    rw [List.getLast_reverse] at hlast
    obtain ⟨-, rfl⟩ := hhead (by rw [List.head?_eq_some_head hne, hlast])
    rfl
  rw [written, hds, List.reverse_reverse]

theorem readNumber_written (val : Int) (hb : 1 < b) (hb' : b ≤ 36) : readNumber b (written b val) = val := by
  have hback : ((numeral b val.natAbs).map digitChar).map digitValue = numeral b val.natAbs := by
    rw [List.map_map]
    refine List.map_congr_left (fun d hd => digitValue_digitChar ?_) |>.trans (List.map_id _)
    have := numeral_lt hb hd
    omega
  by_cases hneg : val < 0
  · rw [written, if_pos hneg, List.singleton_append, readNumber, if_pos rfl, ← List.map_reverse,
      List.reverse_reverse, hback, ofDigits_numeral]
    omega
  · obtain ⟨d, ds, hcons, hd, -⟩ := numeral_reverse_cons hb val.natAbs
    have hsame : written b val = digitChar d :: ds.map digitChar := by
      rw [written, if_neg hneg, hcons]
      rfl
    have hall : (digitChar d :: ds.map digitChar).reverse = (numeral b val.natAbs).map digitChar := by
      rw [← List.map_cons, ← hcons, ← List.map_reverse, List.reverse_reverse]
    rw [hsame, readNumber, if_neg (digitChar_ne_minus (by omega)), hall, hback, ofDigits_numeral]
    omega

/-- **`tostring` round-trips**: what it leaves at `dest` is the canonical
numeral, which reads back as the number. -/
theorem tostring_round_trip (hval : -2 ^ 31 < val) (hlt : val < 2 ^ 31) (hbase : 2 ≤ base) (hbase' : base ≤ 35)
    (htable : Table m num) (hdest : dest ≠ NULL) (hroom : dest + (written base.toNat val).length < 2 ^ 32)
    (hapart : num + 36 ≤ dest ∨ dest + (written base.toNat val).length < num) :
    (∃ m', m.tostring num val dest base = .ok m' ∧ CStr m' dest (written base.toNat val) ∧
      Wrote m m' (Set.Ico dest (dest + (written base.toNat val).length + 1))) ∧
    Canonical base.toNat val (written base.toNat val) ∧ readNumber base.toNat (written base.toNat val) = val ∧
    ∀ val', val' ≠ val → written base.toNat val' ≠ written base.toNat val := by
  obtain ⟨b, rfl⟩ := Int.eq_ofNat_of_zero_le (show 0 ≤ base by omega)
  rw [Int.toNat_natCast] at *
  have hb : 1 < b := by omega
  have hb' : b ≤ 35 := by omega
  refine ⟨?_, written_canonical hb (by omega), readNumber_written val hb (by omega), fun val' hne he => hne ?_⟩
  · obtain ⟨m', hrun, hspec⟩ := tostring_spec m num (by omega) hlt hb hb' hdest hroom
    exact ⟨m', hrun, hspec.content (by omega) htable hapart, hspec.wrote⟩
  · rw [← readNumber_written val' hb (by omega), he, readNumber_written val hb (by omega)]

/-- The digits at 64. -/
def digitTable : Mem := ⟨fun a => (numChars.getD (a - 64) 0), []⟩

theorem tostring_round_trip_hex : (∃ m', digitTable.tostring 64 (-255) 128 16 = .ok m' ∧
      CStr m' 128 (written 16 (-255)) ∧ Wrote digitTable m' (Set.Ico 128 (128 + 3 + 1))) ∧
    Canonical 16 (-255) (written 16 (-255)) ∧ readNumber 16 (written 16 (-255)) = -255 ∧
    ∀ val', val' ≠ -255 → written 16 val' ≠ written 16 (-255) :=
  tostring_round_trip (by decide) (by decide) (by decide) (by decide) ⟨by decide, by decide⟩ (by decide)
    (by decide) (by decide)

end

end Ssmos

/-
Where `tostring` is not safe: the least `int` cannot be negated, and a number
with more than fourteen chars does not fit `numbuffer`.
-/
import Ssmos.NumberFacts

namespace Ssmos

variable {m : Mem} {num numbuffer dest : Nat} {val base : Int}

/-! ## The least `int` -/

/-- The negation gives the opposite number, and each index into `num[]` is a digit. -/
def SafeArithmetic (m : Mem) (num : Nat) (val : Int) (dest : Nat) (base : Int) : Prop :=
  (val < 0 → negate val = -val) ∧ ∃ r, fillLoop num base loopBound m dest (magnitude val) = .ok r ∧
    ∀ i ∈ r.indices, 0 ≤ i ∧ i < base

/-- **The arithmetic of `tostring`** is safe for every `int` but the least. -/
theorem tostring_safe_iff (hval : -2 ^ 31 ≤ val) (hlt : val < 2 ^ 31) (hbase : 2 ≤ base) (hbase' : base ≤ 35) :
    SafeArithmetic m num val dest base ↔ val ≠ -2 ^ 31 := by
  constructor
  · intro h hleast
    have hneg := h.1 (by omega)
    rw [hleast] at hneg
    exact absurd hneg (by decide)
  · intro hne
    obtain ⟨b, rfl⟩ := Int.eq_ofNat_of_zero_le (show 0 ≤ base by omega)
    obtain ⟨s, hs, hmag, hpos⟩ := magnitude_signed hval hlt
    obtain rfl := hpos hne
    obtain ⟨m', hfill, -⟩ := fillLoop_spec m num dest (b := b) hs (by omega)
      (show val.natAbs < loopBound by simp only [loopBound]; omega)
    refine ⟨fun hneg => ?_, _, hmag ▸ hfill, fun i hi => ?_⟩
    · rw [magnitude, if_pos hneg] at hmag
      omega
    · obtain ⟨d, hd, rfl⟩ := List.mem_map.mp hi
      have := numeral_lt (b := b) (by omega) hd
      omega

theorem tostring_safe_iff_hex : SafeArithmetic digitTable 64 (-255) 128 16 :=
  (tostring_safe_iff (by decide) (by decide) (by decide) (by decide)).mpr (by decide)

/-- The least `int` stays negative, and the first index is `-8`. -/
theorem tostring_least_unsafe : negate (-2 ^ 31) = -2 ^ 31 ∧
    (∃ r, fillLoop 64 10 loopBound digitTable 128 (magnitude (-2 ^ 31)) = .ok r ∧ -8 ∈ r.indices) ∧
    ¬SafeArithmetic digitTable 64 (-2 ^ 31) 128 10 := by
  refine ⟨by decide, ?_, fun h => absurd (h.1 (by decide)) (by decide)⟩
  obtain ⟨m', hfill, -⟩ := fillLoop_spec digitTable 64 128 (s := -1) (.inr rfl)
    (show 1 < 10 by decide) (show 2 ^ 31 < loopBound by decide)
  exact ⟨_, hfill, List.mem_map.mpr ⟨8, by decide, rfl⟩⟩

/-! ## The shared buffer -/

/-- The number, its sign and the terminator are at most `MAX_INT_CHARS` bytes. -/
def FitsNumbuffer (val base : Int) : Prop := (0 ≤ val → val < base ^ 14) ∧ (val < 0 → -val < base ^ 13)

theorem written_fits (val : Int) (hbase : 2 ≤ base) :
    (written base.toNat val).length < MAX_INT_CHARS ↔ FitsNumbuffer val base := by
  obtain ⟨b, rfl⟩ := Int.eq_ofNat_of_zero_le (show 0 ≤ base by omega)
  have hb : 1 < b := by omega
  have hpow : ∀ n : Nat, ((b : Int) ^ n) = (b ^ n : Nat) := fun n => (Int.natCast_pow b n).symm
  rw [Int.toNat_natCast, written_length, MAX_INT_CHARS, FitsNumbuffer, hpow, hpow]
  by_cases hneg : val < 0
  · have := numeral_length_le (k := 13) (n := val.natAbs) hb (by decide)
    rw [if_pos hneg]
    omega
  · have := numeral_length_le (k := 14) (n := val.natAbs) hb (by decide)
    rw [if_neg hneg]
    omega

theorem written_length_le (hval : -2 ^ 31 ≤ val) (hlt : val < 2 ^ 31) {b : Nat} (hb : 1 < b) :
    (written b val).length ≤ 33 := by
  have hpow : 2 ^ 32 ≤ b ^ 32 := Nat.pow_le_pow_left hb 32
  have := (numeral_length_le (n := val.natAbs) hb (by decide : 0 < 32)).mpr (by omega)
  rw [written_length]
  split <;> omega

/-- From base 6 on every number is short enough. -/
theorem written_short (hval : -2 ^ 31 ≤ val) (hlt : val < 2 ^ 31) {b : Nat} (hb : 5 < b) :
    (written b val).length < MAX_INT_CHARS := by
  have hpow : 6 ^ 12 ≤ b ^ 12 := Nat.pow_le_pow_left hb 12
  have := (numeral_length_le (n := val.natAbs) (by omega : 1 < b) (by decide : 0 < 12)).mpr (by omega)
  rw [written_length, MAX_INT_CHARS]
  split <;> omega

/-- **What `kprintnum` and `string_addnum` have `tostring` write** lies in
`numbuffer` exactly if the number is short enough. What they do with a longer
one is said of a pointer `numbuffer` that the number does not run over. -/
theorem numbuffer_fits_iff (hval : -2 ^ 31 ≤ val) (hlt : val < 2 ^ 31) (hbase : 2 ≤ base) (hbase' : base ≤ 35)
    (hnull : numbuffer ≠ NULL) (hroom : numbuffer + 34 ≤ 2 ^ 32) :
    ∃ m', m.tostring num val numbuffer base = .ok m' ∧
      (Wrote m m' (Set.Ico numbuffer (numbuffer + MAX_INT_CHARS)) ↔ FitsNumbuffer val base) ∧
      (∀ v pos color, ∃ v', kprintnum num numbuffer m v pos val color base = .ok (m', v')) ∧
      ∀ str, str ≠ NULL →
        stringAddnum num numbuffer m str val base = (stringAdd m' str numbuffer).map (numbuffer, ·) := by
  have hfits := written_fits val hbase
  obtain ⟨b, rfl⟩ := Int.eq_ofNat_of_zero_le (show 0 ≤ base by omega)
  rw [Int.toNat_natCast] at hfits
  have hb : 1 < b := by omega
  have hlen := written_length_le hval hlt hb
  obtain ⟨m', hrun, hspec⟩ := tostring_spec m num hval hlt hb (by omega) hnull (by omega)
  rw [← hfits]
  refine ⟨m', hrun, ⟨fun hw => ?_, fun hlt => hspec.wrote.mono ?_⟩, fun v pos color => ?_, fun str hstr => ?_⟩
  · -- The terminator comes last.
    have := hw.mem hspec.last
    rw [Set.mem_Ico] at this
    omega
  · exact Set.Ico_subset_Ico_right (by omega)
  · exact ⟨_, by rw [kprintnum, hrun]; rfl⟩
  · rw [stringAddnum, if_neg hstr, if_neg hnull]
    simp only [Except.ok_bind, hrun]
    cases stringAdd m' str numbuffer <;> rfl

theorem numbuffer_fits_iff_hex : ∃ m', digitTable.tostring 64 (-255) 128 16 = .ok m' ∧
    Wrote digitTable m' (Set.Ico 128 (128 + MAX_INT_CHARS)) ∧
    (∀ v pos color, ∃ v', kprintnum 64 128 digitTable v pos (-255) color 16 = .ok (m', v')) ∧
    ∀ str, str ≠ NULL →
      stringAddnum 64 128 digitTable str (-255) 16 = (stringAdd m' str 128).map (128, ·) := by
  have hfits : FitsNumbuffer (-255) 16 := ⟨by decide, by decide⟩
  obtain ⟨m', hrun, hiff, hcalls⟩ := @numbuffer_fits_iff digitTable 64 128 (-255) 16 (by decide) (by decide)
    (by decide) (by decide) (by decide) (by decide)
  exact ⟨m', hrun, hiff.mpr hfits, hcalls⟩

/-- In base 2 the number `2 ^ 30` has 31 digits. -/
theorem numbuffer_overrun : ∃ m', digitTable.tostring 64 (2 ^ 30) 128 2 = .ok m' ∧
    ¬Wrote digitTable m' (Set.Ico 128 (128 + MAX_INT_CHARS)) := by
  obtain ⟨m', hrun, hspec⟩ : ∃ m', digitTable.tostring 64 (2 ^ 30) 128 (2 : Nat) = .ok m' ∧
      Tostring digitTable 64 (2 ^ 30) 128 2 m' :=
    tostring_spec digitTable 64 (by decide) (by decide) (by decide) (by decide) (by decide) (by decide)
  refine ⟨m', hrun, fun hw => ?_⟩
  have := hw.mem hspec.last
  rw [Set.mem_Ico, show (written 2 (2 ^ 30)).length = 31 by decide, MAX_INT_CHARS] at this
  omega

end Ssmos

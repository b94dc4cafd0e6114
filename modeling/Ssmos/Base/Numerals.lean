/-
Numerals: the digits of a natural number in a base, the lowest first and never
none of them. Zero has the one digit zero, so this is `Nat.digits` but for
zero, and it is what a loop that divides after each digit goes through.
-/
import Mathlib.Data.Nat.Digits.Lemmas

namespace Ssmos

def numeral (b n : Nat) : List Nat := if n = 0 then [0] else b.digits n

section

variable {b n d k : Nat}

theorem numeral_ne_nil (b n : Nat) : numeral b n ≠ [] := by
  unfold numeral
  split
  · simp
  · next h => exact Nat.digits_ne_nil_iff_ne_zero.mpr h

/-- One turn of the division. -/
theorem numeral_step (hb : 1 < b) (n : Nat) :
    numeral b n = n % b :: if n / b = 0 then [] else numeral b (n / b) := by
  by_cases hn : n = 0
  · simp [hn, numeral]
  · rw [numeral, if_neg hn, Nat.digits_def' hb (Nat.pos_of_ne_zero hn), numeral]
    split
    · next h => rw [h, Nat.digits_zero]
    · rfl

theorem numeral_lt (hb : 1 < b) (hd : d ∈ numeral b n) : d < b := by
  unfold numeral at hd
  split at hd
  · rw [List.mem_singleton.mp hd]
    omega
  · exact Nat.digits_lt_base hb hd

theorem ofDigits_numeral (b n : Nat) : Nat.ofDigits b (numeral b n) = n := by
  unfold numeral
  split
  · next h => simp [h]
  · exact Nat.ofDigits_digits b n

/-- No zero leads but the one of zero itself. -/
theorem numeral_getLast_eq_zero (h : (numeral b n).getLast (numeral_ne_nil b n) = 0) :
    n = 0 ∧ numeral b n = [0] := by
  by_cases hn : n = 0
  · exact ⟨hn, by rw [numeral, if_pos hn]⟩
  · simp only [numeral, if_neg hn] at h
    exact absurd h (Nat.getLast_digit_ne_zero b hn)

/-- Digits with no leading zero are the numeral of their number. -/
theorem numeral_ofDigits {ds : List Nat} (hb : 1 < b) (hne : ds ≠ []) (hlt : ∀ d ∈ ds, d < b)
    (hlast : ds.getLast hne = 0 → ds = [0]) : numeral b (Nat.ofDigits b ds) = ds := by
  by_cases hz : ds.getLast hne = 0
  · rw [hlast hz]
    simp [numeral]
  · have hdigits := Nat.digits_ofDigits b hb ds hlt fun _ => hz
    have hn : Nat.ofDigits b ds ≠ 0 := fun h₀ => by
      rw [h₀, Nat.digits_zero] at hdigits
      exact hne hdigits.symm
    rw [numeral, if_neg hn, hdigits]

theorem numeral_length_le (hb : 1 < b) (hk : 0 < k) : (numeral b n).length ≤ k ↔ n < b ^ k := by
  by_cases hn : n = 0
  · rw [numeral, if_pos hn, hn]
    exact iff_of_true hk (Nat.pow_pos (by omega))
  · rw [numeral, if_neg hn]
    exact Nat.digits_length_le_iff hb n

end

end Ssmos

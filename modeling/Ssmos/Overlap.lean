/-
`kmemcpy` on ranges that overlap. It copies the lowest byte first, so a range
moved down arrives whole, and one moved up over itself arrives as its first
bytes over and over.
-/
import Ssmos.MemoryFacts

namespace Ssmos

section Overlap

variable {m m' : Mem} {dest src sz i : Nat}

/-- What `memcpy` is for: the bytes from `src` are at `dest`, and no byte
outside the range at `dest` has changed. -/
def Moved (m m' : Mem) (dest src sz : Nat) : Prop :=
  (∀ i < sz, m'.load8 (dest + i) = m.load8 (src + i)) ∧
    ∀ a, wrap a ∉ Set.Ico dest (dest + sz) → m'.load8 a = m.load8 a

/-- The `sz` bytes from `src` repeat every `d`. -/
def Repeats (m : Mem) (src sz d : Nat) : Prop := ∀ i, i + d < sz → m.load8 (src + (i + d)) = m.load8 (src + i)

/-- Bytes that repeat are those of the first stretch. -/
theorem Repeats.mod {d : Nat} (h : Repeats m src sz d) (hd : 0 < d) :
    ∀ i < sz, m.load8 (src + i % d) = m.load8 (src + i) := by
  intro i
  induction i using Nat.strongRecOn with
  | ind i ih =>
    intro hi
    by_cases hid : i < d
    · rw [Nat.mod_eq_of_lt hid]
    · have hback := h (i - d) (by omega)
      rw [Nat.sub_add_cancel (by omega)] at hback
      rw [hback, ← ih (i - d) (by omega) (by omega), Nat.mod_eq_sub_mod (by omega)]

/-- Moved up, a byte is one of the first `dest - src`, read before any of them
is overwritten. -/
theorem kmemcpy_up (hd : dest + sz ≤ 2 ^ 32) (hlt : src < dest) (hi : i < sz) :
    (kmemcpy m dest src sz).load8 (dest + i) = m.load8 (src + i % (dest - src)) := by
  induction sz generalizing i with
  | zero => omega
  | succ n ih =>
    simp only [kmemcpy]
    by_cases hin : i = n
    · subst hin
      rw [Mem.load8_store8_same]
      by_cases hfirst : i < dest - src
      · rw [Nat.mod_eq_of_lt hfirst]
        refine (kmemcpy_wrote (by omega)).load8_eq fun hx => ?_
        rw [wrap_of_lt (by omega), Set.mem_Ico] at hx
        omega
      · -- The byte read here was written `dest - src` turns ago.
        have hback := ih (i := i - (dest - src)) (by omega) (by omega)
        rw [show dest + (i - (dest - src)) = src + i by omega] at hback
        rw [hback, Nat.mod_eq_sub_mod (show i ≥ dest - src by omega)]
    · rw [Mem.load8_store8_ne (by rw [wrap_of_lt (by omega), wrap_of_lt (by omega)]; omega)]
      exact ih (by omega) (by omega)

theorem kmemcpy_outside (hd : dest + sz ≤ 2 ^ 32) :
    ∀ a, wrap a ∉ Set.Ico dest (dest + sz) → (kmemcpy m dest src sz).load8 a = m.load8 a :=
  fun _ ha => (kmemcpy_wrote hd).load8_eq ha

/-- **`memcpy` moves a range** that does not wrap exactly when it is moved
down, or to where it does not overlap itself, or repeats every `dest - src`
bytes. -/
theorem kmemcpy_moved_iff (m : Mem) (hd : dest + sz ≤ 2 ^ 32) (hs : src + sz ≤ 2 ^ 32) :
    Moved m (kmemcpy m dest src sz) dest src sz ↔
      dest ≤ src ∨ src + sz ≤ dest ∨ Repeats m src sz (dest - src) := by
  constructor
  · intro hmoved
    by_cases hup : dest ≤ src ∨ src + sz ≤ dest
    · rcases hup with h | h
      · exact .inl h
      · exact .inr (.inl h)
    · refine .inr (.inr fun i hi => ?_)
      have hlate := hmoved.1 (i + (dest - src)) hi
      have hearly := hmoved.1 i (by omega)
      rw [kmemcpy_up hd (by omega) hi] at hlate
      rw [kmemcpy_up hd (by omega) (by omega)] at hearly
      rw [← hlate, Nat.add_mod_right, hearly]
  · intro hcond
    refine ⟨fun i hi => ?_, kmemcpy_outside hd⟩
    by_cases hapart : dest ≤ src ∨ src + sz ≤ dest
    · exact kmemcpy_load8 hd hs hapart hi
    · have hrep : Repeats m src sz (dest - src) := by
        rcases hcond with h | h | h
        · exact absurd (.inl h) hapart
        · exact absurd (.inr h) hapart
        · exact h
      rw [kmemcpy_up hd (by omega) hi, hrep.mod (by omega) i hi]

/-- Two bytes moved down by one, and up by one. -/
theorem kmemcpy_moved_iff_pair : (let m : Mem := ⟨fun a => UInt8.ofNat a, []⟩
    Moved m (kmemcpy m 0x1000 0x1001 2) 0x1000 0x1001 2 ∧ ¬ Moved m (kmemcpy m 0x1001 0x1000 2) 0x1001 0x1000 2) := by
  refine ⟨(kmemcpy_moved_iff _ (by decide) (by decide)).mpr (.inl (by decide)), fun hmoved => ?_⟩
  rcases (kmemcpy_moved_iff _ (by decide) (by decide)).mp hmoved with h | h | h
  · exact absurd h (by decide)
  · exact absurd h (by decide)
  · exact absurd (h 0 (by decide)) (by decide)

/-- `memcpy(0x1001, 0x1000, 2)` writes the byte at `0x1000` twice. -/
theorem kmemcpy_not_moved : ¬ ∀ (m : Mem) (dest src sz : Nat), dest + sz ≤ 2 ^ 32 → src + sz ≤ 2 ^ 32 →
    Moved m (kmemcpy m dest src sz) dest src sz := by
  intro hall
  have hbyte := (hall ⟨fun a => UInt8.ofNat a, []⟩ 0x1001 0x1000 2 (by decide) (by decide)).1 1 (by decide)
  exact absurd hbyte (by decide)

end Overlap

end Ssmos

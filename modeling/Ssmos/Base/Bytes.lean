/-
Lists of bytes in a memory, and the addresses a piece of code did write.
`Wrote` bounds the writes from above; `WroteAt` says that one was made.
-/
import Ssmos.Base.Mem

namespace Ssmos

/-! ## Bytes in memory -/

/-- The bytes `bs` from address `a` on. -/
def BytesAt (m : Mem) (a : Nat) (bs : List UInt8) : Prop :=
  ∀ i (h : i < bs.length), m.load8 (a + i) = bs[i]

instance (m : Mem) (a : Nat) (bs : List UInt8) : Decidable (BytesAt m a bs) :=
  Nat.decidableBallLT bs.length fun i h => m.load8 (a + i) = bs[i]

namespace BytesAt

variable {m m' : Mem} {a : Nat} {b : UInt8} {bs cs : List UInt8}

theorem nil (m : Mem) (a : Nat) : BytesAt m a [] := fun i h => absurd h (Nat.not_lt_zero i)

theorem cons (hb : m.load8 a = b) (h : BytesAt m (a + 1) bs) : BytesAt m a (b :: bs) := by
  intro i hi
  cases i with
  | zero => exact hb
  | succ i =>
    rw [show a + (i + 1) = a + 1 + i by omega]
    exact h i (by simpa using hi)

theorem append (h : BytesAt m a bs) (h' : BytesAt m (a + bs.length) cs) : BytesAt m a (bs ++ cs) := by
  intro i hi
  by_cases hlt : i < bs.length
  · rw [List.getElem_append_left hlt]
    exact h i hlt
  · rw [List.length_append] at hi
    have := h' (i - bs.length) (by omega)
    rwa [List.getElem_append_right (by omega), ← show a + bs.length + (i - bs.length) = a + i by omega]

theorem frame (h : BytesAt m a bs) {S : Set Nat} (hw : Wrote m m' S) (hlt : a + bs.length ≤ 2 ^ 32)
    (hs : ∀ x, a ≤ x → x < a + bs.length → x ∉ S) : BytesAt m' a bs := fun i hi => by
  rw [hw.load8_eq (by rw [wrap_of_lt (by omega)]; exact hs _ (by omega) (by omega))]
  exact h i hi

/-- What was at `a`, turned around. -/
theorem reverse (h : BytesAt m a bs)
    (hm : ∀ i, i < bs.length → m'.load8 (a + i) = m.load8 (a + (bs.length - 1 - i))) :
    BytesAt m' a bs.reverse := by
  intro i hi
  rw [List.length_reverse] at hi
  rw [hm i hi, h _ (by omega), List.getElem_reverse]

end BytesAt

/-! ## Writes that were made -/

/-- `a` was written on the way from `m` to `m'`. -/
def WroteAt (m m' : Mem) (a : Nat) : Prop := ∃ w, m'.log = w ++ m.log ∧ a ∈ w

section

variable {m m' m'' : Mem} {S : Set Nat} {a : Nat}

theorem Wrote.mem (h : Wrote m m' S) (ha : WroteAt m m' a) : a ∈ S := by
  obtain ⟨w, hlog, hw, -⟩ := h
  obtain ⟨w', hlog', ha⟩ := ha
  rw [hlog] at hlog'
  exact hw a (List.append_cancel_right hlog' ▸ ha)

theorem WroteAt.store8 {v : UInt8} (h : wrap a = a) : WroteAt m (m.store8 a v) a :=
  ⟨[wrap a], rfl, by simp [h]⟩

theorem WroteAt.before (h : Wrote m m' S) (ha : WroteAt m' m'' a) : WroteAt m m'' a := by
  obtain ⟨w, hlog, -⟩ := h
  obtain ⟨w', hlog', ha⟩ := ha
  exact ⟨w' ++ w, by rw [hlog', hlog, List.append_assoc], List.mem_append_left _ ha⟩

theorem WroteAt.after (ha : WroteAt m m' a) (h : Wrote m' m'' S) : WroteAt m m'' a := by
  obtain ⟨w, hlog, ha⟩ := ha
  obtain ⟨w', hlog', -⟩ := h
  exact ⟨w' ++ w, by rw [hlog', hlog, List.append_assoc], List.mem_append_right _ ha⟩

end

end Ssmos

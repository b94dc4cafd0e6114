/-
The words of a stack that grows down through memory. A stack is read from its
top, one word every four bytes, and may wrap around the address space; a push
keeps what lies above as long as the stack does not fill it.
-/
import Ssmos.Base.Mem

namespace Ssmos

/-- `ws` are the words from `esp` up. -/
def StackAt (m : Mem) : UInt32 → List UInt32 → Prop
  | _, [] => True
  | esp, w :: ws => UInt32.ofNat (m.load32 esp.toNat) = w ∧ StackAt m (esp + 4) ws

namespace StackAt

variable {m : Mem} {esp : UInt32} {ws vs : List UInt32}

theorem append : StackAt m esp (ws ++ vs) ↔
    StackAt m esp ws ∧ StackAt m (esp + 4 * UInt32.ofNat ws.length) vs := by
  induction ws generalizing esp with
  | nil => simp [StackAt]
  | cons w ws ih =>
    have hadd : esp + 4 + 4 * UInt32.ofNat ws.length = esp + 4 * UInt32.ofNat (ws.length + 1) := by
      rw [UInt32.ofNat_add, UInt32.add_assoc, UInt32.mul_add, UInt32.add_comm 4]
      rfl
    simp only [List.cons_append, StackAt, ih, List.length_cons, hadd, and_assoc]

/-- A word stored where the stack does not reach. -/
theorem store {top v : UInt32} (hlo : 4 ≤ (esp - top).toNat)
    (hhi : (esp - top).toNat + 4 * ws.length ≤ 2 ^ 32) (h : StackAt m esp ws) :
    StackAt (m.store32 top.toNat v.toNat) esp ws := by
  induction ws generalizing esp with
  | nil => trivial
  | cons w ws ih =>
    obtain ⟨hw, hws⟩ := h
    simp only [List.length_cons] at hhi
    have hsub : (esp - top).toNat = (2 ^ 32 - top.toNat + esp.toNat) % 2 ^ 32 := UInt32.toNat_sub _ _
    refine ⟨?_, ?_⟩
    · rw [Mem.load32_store32_of_ne fun i j hi hj => ?_, hw]
      have := top.toNat_lt
      have := esp.toNat_lt
      unfold wrap
      omega
    · rcases List.eq_nil_or_concat ws with rfl | ⟨_, _, rfl⟩
      · trivial
      · have hnext : (esp + 4 - top).toNat = (esp - top).toNat + 4 := by
          rw [show esp + 4 - top = esp - top + 4 by grind, UInt32.toNat_add,
            show (4 : UInt32).toNat = 4 from rfl]
          simp only [List.length_concat] at hhi
          omega
        exact ih (by omega) (by rw [hnext]; omega) hws

/-- The stack a push leaves. -/
theorem push {v : UInt32} (hlen : ws.length < 2 ^ 30) (h : StackAt m esp ws) :
    StackAt (m.store32 (esp - 4).toNat v.toNat) (esp - 4) (v :: ws) := by
  have hsub : (esp - (esp - 4)).toNat = 4 := by
    rw [show esp - (esp - 4) = 4 by grind]
    rfl
  refine ⟨?_, ?_⟩
  · rw [Mem.load32_store32_same, wrap_of_lt v.toNat_lt, UInt32.ofNat_toNat]
  · rw [UInt32.sub_add_cancel]
    exact h.store (by omega) (by omega)

end StackAt

end Ssmos

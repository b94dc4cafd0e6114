/-
A 32-bit address space of bytes, with little-endian words over it.

Addresses are naturals; an access reduces its address modulo `2 ^ 32`, as the
machine does. A memory also remembers which addresses were written (`log`,
latest first). No load reads the log: it is there so that a statement can be
about the bytes a call wrote, not only about the bytes it changed.
-/
import Mathlib.Algebra.Group.Int.Defs
import Mathlib.Algebra.Group.Nat.Defs
import Mathlib.Order.Interval.Set.Basic

namespace Ssmos

/-- What a 32-bit register keeps of a number. -/
def wrap (n : Nat) : Nat := n % 2 ^ 32

theorem wrap_lt (n : Nat) : wrap n < 2 ^ 32 := Nat.mod_lt _ (by decide)

theorem wrap_of_lt {n : Nat} (h : n < 2 ^ 32) : wrap n = n := Nat.mod_eq_of_lt h

@[simp] theorem wrap_wrap (n : Nat) : wrap (wrap n) = wrap n := wrap_of_lt (wrap_lt n)

/-- Bytes by address, and the addresses written so far. -/
structure Mem where
  cells : Nat → UInt8
  log : List Nat

namespace Mem

def load8 (m : Mem) (a : Nat) : UInt8 := m.cells (wrap a)

def store8 (m : Mem) (a : Nat) (v : UInt8) : Mem :=
  { cells := fun x => if x = wrap a then v else m.cells x, log := wrap a :: m.log }

def load32 (m : Mem) (a : Nat) : Nat :=
  (m.load8 a).toNat + 2 ^ 8 * (m.load8 (a + 1)).toNat + 2 ^ 16 * (m.load8 (a + 2)).toNat +
    2 ^ 24 * (m.load8 (a + 3)).toNat

def store32 (m : Mem) (a v : Nat) : Mem :=
  (((m.store8 a (UInt8.ofNat v)).store8 (a + 1) (UInt8.ofNat (v / 2 ^ 8))).store8 (a + 2)
    (UInt8.ofNat (v / 2 ^ 16))).store8 (a + 3) (UInt8.ofNat (v / 2 ^ 24))

def load16 (m : Mem) (a : Nat) : Nat := (m.load8 a).toNat + 2 ^ 8 * (m.load8 (a + 1)).toNat

def store16 (m : Mem) (a v : Nat) : Mem :=
  (m.store8 a (UInt8.ofNat v)).store8 (a + 1) (UInt8.ofNat (v / 2 ^ 8))

theorem load32_lt (m : Mem) (a : Nat) : m.load32 a < 2 ^ 32 := by
  have h0 := (m.load8 a).toNat_lt
  have h1 := (m.load8 (a + 1)).toNat_lt
  have h2 := (m.load8 (a + 2)).toNat_lt
  have h3 := (m.load8 (a + 3)).toNat_lt
  unfold load32
  omega

theorem load8_store8 (m : Mem) (a b : Nat) (v : UInt8) :
    (m.store8 a v).load8 b = if wrap b = wrap a then v else m.load8 b := rfl

@[simp] theorem load8_store8_same (m : Mem) (a : Nat) (v : UInt8) : (m.store8 a v).load8 a = v := by
  simp [load8_store8]

theorem load8_store8_ne {m : Mem} {a b : Nat} {v : UInt8} (h : wrap b ≠ wrap a) :
    (m.store8 a v).load8 b = m.load8 b := by
  simp [load8_store8, h]

@[simp] theorem load16_store16_same (m : Mem) (a v : Nat) : (m.store16 a v).load16 a = v % 2 ^ 16 := by
  have hne : wrap a ≠ wrap (a + 1) := by unfold wrap; omega
  unfold load16 store16
  rw [load8_store8_same, load8_store8_ne hne, load8_store8_same]
  simp only [UInt8.toNat_ofNat']
  omega

/-- Byte `i` of a stored word. -/
theorem load8_store32 (m : Mem) (a v : Nat) {i : Nat} (hi : i < 4) :
    (m.store32 a v).load8 (a + i) = UInt8.ofNat (v / 2 ^ (8 * i)) := by
  have hne : ∀ j, j < 4 → j ≠ i → wrap (a + i) ≠ wrap (a + j) := fun j hj hji => by
    unfold wrap; omega
  have h0 := hne 0 (by omega)
  simp only [Nat.add_zero] at h0
  unfold store32
  rcases (by omega : i = 0 ∨ i = 1 ∨ i = 2 ∨ i = 3) with rfl | rfl | rfl | rfl
  · simp only [Nat.add_zero] at hne ⊢
    rw [load8_store8_ne (hne 3 (by omega) (by omega)), load8_store8_ne (hne 2 (by omega) (by omega)),
      load8_store8_ne (hne 1 (by omega) (by omega)), load8_store8_same]
    simp
  · rw [load8_store8_ne (hne 3 (by omega) (by omega)), load8_store8_ne (hne 2 (by omega) (by omega)),
      load8_store8_same]
  · rw [load8_store8_ne (hne 3 (by omega) (by omega)), load8_store8_same]
  · rw [load8_store8_same]

theorem load8_store32_ne {m : Mem} {a b v : Nat} (h : ∀ i, i < 4 → wrap b ≠ wrap (a + i)) :
    (m.store32 a v).load8 b = m.load8 b := by
  have h0 := h 0 (by omega)
  simp only [Nat.add_zero] at h0
  unfold store32
  rw [load8_store8_ne (h 3 (by omega)), load8_store8_ne (h 2 (by omega)),
    load8_store8_ne (h 1 (by omega)), load8_store8_ne h0]

@[simp] theorem load32_store32_same (m : Mem) (a v : Nat) : (m.store32 a v).load32 a = wrap v := by
  have h0 := load8_store32 m a v (i := 0) (by omega)
  simp only [Nat.add_zero] at h0
  unfold load32
  rw [h0, load8_store32 m a v (i := 1) (by omega), load8_store32 m a v (i := 2) (by omega),
    load8_store32 m a v (i := 3) (by omega)]
  simp only [UInt8.toNat_ofNat', wrap]
  omega

theorem load32_congr {m m' : Mem} {a : Nat} (h : ∀ i, i < 4 → m'.load8 (a + i) = m.load8 (a + i)) :
    m'.load32 a = m.load32 a := by
  have h0 := h 0 (by omega)
  simp only [Nat.add_zero] at h0
  unfold load32
  rw [h0, h 1 (by omega), h 2 (by omega), h 3 (by omega)]

/-- Words at addresses whose bytes differ modulo `2 ^ 32`. -/
theorem load32_store32_of_ne {m : Mem} {a b v : Nat}
    (h : ∀ i j, i < 4 → j < 4 → wrap (b + i) ≠ wrap (a + j)) : (m.store32 a v).load32 b = m.load32 b :=
  load32_congr fun i hi => load8_store32_ne fun j hj => h i j hi hj

/-- Words that do not overlap. -/
theorem load32_store32_ne {m : Mem} {a b v : Nat} (h : a + 4 ≤ b ∨ b + 4 ≤ a) (ha : a + 4 ≤ 2 ^ 32)
    (hb : b + 4 ≤ 2 ^ 32) : (m.store32 a v).load32 b = m.load32 b :=
  load32_store32_of_ne fun i j hi hj => by unfold wrap; omega

end Mem

/-! ## What a piece of code wrote -/

/-- `m'` is `m` after writes at addresses in `S`, and at no others. -/
def Wrote (m m' : Mem) (S : Set Nat) : Prop :=
  ∃ w, m'.log = w ++ m.log ∧ (∀ a ∈ w, a ∈ S) ∧ ∀ a, a ∉ w → m'.cells a = m.cells a

namespace Wrote

theorem refl (m : Mem) (S : Set Nat) : Wrote m m S := ⟨[], rfl, by simp, fun _ _ => rfl⟩

theorem trans {m₁ m₂ m₃ : Mem} {S : Set Nat} (h₁ : Wrote m₁ m₂ S) (h₂ : Wrote m₂ m₃ S) :
    Wrote m₁ m₃ S := by
  obtain ⟨w₁, hl₁, hs₁, hc₁⟩ := h₁
  obtain ⟨w₂, hl₂, hs₂, hc₂⟩ := h₂
  refine ⟨w₂ ++ w₁, by rw [hl₂, hl₁, List.append_assoc], fun a ha => ?_, fun a ha => ?_⟩
  · rcases List.mem_append.mp ha with h | h
    · exact hs₂ a h
    · exact hs₁ a h
  · simp only [List.mem_append, not_or] at ha
    rw [hc₂ a ha.1, hc₁ a ha.2]

theorem mono {m m' : Mem} {S T : Set Nat} (h : Wrote m m' S) (hst : S ⊆ T) : Wrote m m' T := by
  obtain ⟨w, hl, hs, hc⟩ := h
  exact ⟨w, hl, fun a ha => hst (hs a ha), hc⟩

theorem store8 {m : Mem} {a : Nat} {v : UInt8} {S : Set Nat} (h : wrap a ∈ S) :
    Wrote m (m.store8 a v) S := by
  refine ⟨[wrap a], rfl, by simpa using h, fun x hx => ?_⟩
  simp only [List.mem_singleton] at hx
  simp [Mem.store8, hx]

theorem store8_singleton {m : Mem} {a : Nat} {v : UInt8} (ha : a < 2 ^ 32) : Wrote m (m.store8 a v) {a} :=
  store8 (by rw [wrap_of_lt ha]; rfl)

theorem store8_Ico {m : Mem} {a lo hi : Nat} {v : UInt8} (ha : a < 2 ^ 32) (hlo : lo ≤ a) (hhi : a < hi) :
    Wrote m (m.store8 a v) (Set.Ico lo hi) :=
  store8 (by rw [wrap_of_lt ha]; exact ⟨hlo, hhi⟩)

theorem store32 {m : Mem} {a v : Nat} {S : Set Nat} (h : ∀ i, i < 4 → wrap (a + i) ∈ S) :
    Wrote m (m.store32 a v) S := by
  have h0 := h 0 (by omega)
  simp only [Nat.add_zero] at h0
  exact (((store8 h0).trans (store8 (h 1 (by omega)))).trans (store8 (h 2 (by omega)))).trans
    (store8 (h 3 (by omega)))

/-- A word store that does not reach the end of the address space. -/
theorem store32_Ico {m : Mem} {a v : Nat} {S : Set Nat} (ha : a + 4 ≤ 2 ^ 32)
    (h : Set.Ico a (a + 4) ⊆ S) : Wrote m (m.store32 a v) S :=
  store32 fun i hi => by
    rw [wrap_of_lt (by omega)]
    exact h (Set.mem_Ico.mpr (by omega))

theorem store16_Ico {m : Mem} {a v : Nat} {S : Set Nat} (ha : a + 2 ≤ 2 ^ 32) (h : Set.Ico a (a + 2) ⊆ S) :
    Wrote m (m.store16 a v) S :=
  (store8 (by rw [wrap_of_lt (by omega)]; exact h (Set.mem_Ico.mpr (by omega)))).trans
    (store8 (by rw [wrap_of_lt (by omega)]; exact h (Set.mem_Ico.mpr (by omega))))

theorem cells_eq {m m' : Mem} {S : Set Nat} (h : Wrote m m' S) {a : Nat} (ha : a ∉ S) :
    m'.cells a = m.cells a := by
  obtain ⟨w, -, hs, hc⟩ := h
  exact hc a fun hw => ha (hs a hw)

theorem load8_eq {m m' : Mem} {S : Set Nat} (h : Wrote m m' S) {a : Nat} (ha : wrap a ∉ S) :
    m'.load8 a = m.load8 a := h.cells_eq ha

/-- A word none of whose bytes was written. -/
theorem load32_eq {m m' : Mem} {S : Set Nat} (h : Wrote m m' S) {a : Nat} (hlt : a + 4 ≤ 2 ^ 32)
    (ha : ∀ x, a ≤ x → x < a + 4 → x ∉ S) : m'.load32 a = m.load32 a :=
  Mem.load32_congr fun i hi => h.load8_eq (by
    rw [wrap_of_lt (by omega)]
    exact ha _ (by omega) (by omega))

/-- A byte apart from the bytes written, where those are an interval. -/
theorem load8_eq_Ico {m m' : Mem} {a lo hi : Nat} (h : Wrote m m' (Set.Ico lo hi)) (ha : a < 2 ^ 32)
    (hapart : a < lo ∨ hi ≤ a) : m'.load8 a = m.load8 a :=
  h.load8_eq (by
    rw [wrap_of_lt ha, Set.mem_Ico]
    omega)

/-- The same of a word. -/
theorem load32_eq_Ico {m m' : Mem} {a lo hi : Nat} (h : Wrote m m' (Set.Ico lo hi)) (ha : a + 4 ≤ 2 ^ 32)
    (hapart : a + 4 ≤ lo ∨ hi ≤ a) : m'.load32 a = m.load32 a :=
  h.load32_eq ha fun x _ _ hx => by
    rw [Set.mem_Ico] at hx
    omega

/-- And of half a word. -/
theorem load16_eq_Ico {m m' : Mem} {a lo hi : Nat} (h : Wrote m m' (Set.Ico lo hi)) (ha : a + 2 ≤ 2 ^ 32)
    (hapart : a + 2 ≤ lo ∨ hi ≤ a) : m'.load16 a = m.load16 a := by
  unfold Mem.load16
  rw [h.load8_eq_Ico (by omega) (by omega), h.load8_eq_Ico (by omega) (by omega)]

end Wrote

end Ssmos

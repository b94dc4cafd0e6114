/-
The interrupt descriptor table (`kernel/interrupts.c`), byte by byte, and the
processor that takes its gates from it. `interrupts_init` gives every vector
with a stub its gate, and no other.
-/
import Ssmos.IsrFacts

namespace Ssmos

/-! ## The table -/

def IDT_SIZE : Nat := 256

/-- The bytes of the packed `struct idt_entry`. -/
def ENTRY_BYTES : Nat := 8

def INTERRUPT_GATE : UInt8 := 0x8E

/-- Where the linker puts what `interrupts.c` and `isr.asm` define: the table,
its pointer, and the stubs `interrupt_handler_…`. -/
structure IdtLayout where
  idt : Nat
  idtptr : Nat
  stubAddress : UInt8 → UInt32
  idt_lt : idt + ENTRY_BYTES * IDT_SIZE ≤ 2 ^ 32
  idtptr_lt : idtptr + 6 ≤ 2 ^ 32
  apart : idtptr + 6 ≤ idt ∨ idt + ENTRY_BYTES * IDT_SIZE ≤ idtptr
  labels : ∀ num n, (stub num.toUInt32).isSome → (stub n.toUInt32).isSome → stubAddress num = stubAddress n → num = n

/-- `&idt[num]`. -/
def IdtLayout.entry (l : IdtLayout) (num : UInt8) : Nat := l.idt + ENTRY_BYTES * num.toNat

def addInterrupt (l : IdtLayout) (num : UInt8) (base : UInt32) (selector : UInt16) (flags : UInt8) (m : Mem) : Mem :=
  let e := l.entry num
  let m := m.store16 (e + 2) selector.toNat
  let m := m.store8 (e + 4) 0
  let m := m.store8 (e + 5) flags
  let m := m.store16 e (base &&& 0xFFFF).toNat
  m.store16 (e + 6) ((base >>> 16) &&& 0xFFFF).toNat

/-- What `lidt` loads. -/
structure Idtr where
  limit : Nat
  base : Nat
  deriving DecidableEq, Repr

def lidt (m : Mem) (a : Nat) : Idtr := ⟨m.load16 a, m.load32 (a + 2)⟩

/-- The vectors `interrupts_init` adds, one call each, in its order. -/
def addedVectors : List UInt8 :=
  [0, 1, 2, 3, 4, 5, 6, 7, 8, 9, 10, 11, 12, 13, 14, 15, 16, 17, 18, 19, 20, 30,
    32, 33, 34, 35, 36, 37, 38, 39, 40, 41, 42, 43, 44, 45, 46, 47, 128]

/-- The calls of `add_interrupt` for some vectors. -/
def addInterrupts (l : IdtLayout) (nums : List UInt8) (m : Mem) : Mem :=
  nums.foldl (fun m num => addInterrupt l num (l.stubAddress num) KERNEL_SELECTOR INTERRUPT_GATE m) m

def interruptsInit (l : IdtLayout) (m : Mem) : Mem × Idtr :=
  let m := m.store16 l.idtptr (ENTRY_BYTES * IDT_SIZE - 1)
  let m := m.store32 (l.idtptr + 2) l.idt
  let m := addInterrupts l addedVectors m
  (m, lidt m l.idtptr)

/-! ## The processor -/

structure Gate where
  selector : UInt16
  offset : UInt32
  deriving DecidableEq, Repr

/-- The gate of a vector: within the limit, present, and a 32-bit interrupt gate. -/
def Idtr.gate? (r : Idtr) (m : Mem) (num : UInt8) : Option Gate :=
  let e := r.base + ENTRY_BYTES * num.toNat
  if ENTRY_BYTES * num.toNat + 7 ≤ r.limit ∧ m.load8 (e + 5) &&& 0x9F = 0x8E then
    some ⟨UInt16.ofNat (m.load16 (e + 2)), UInt32.ofNat (m.load16 e + 2 ^ 16 * m.load16 (e + 6))⟩
  else none

/-- The vectors the processor pushes an error code for. -/
def pushesError (num : UInt8) : Bool := num ∈ [8, 10, 11, 12, 13, 14, 17, 21, 29, 30]

/-- An interrupt through the table: the flags and the way back are pushed, and
for some exceptions the error code. -/
def Cpu.interrupt (r : Idtr) (c : Cpu) (num : UInt8) (err : UInt32) : Option Cpu :=
  (r.gate? c.mem num).map fun g =>
    let c' := { ((c.push c.eflags).push c.cs.toUInt32).push c.eip with
      cs := g.selector, eip := g.offset, eflags := c.eflags &&& GATE_MASK }
    if pushesError num then c'.push err else c'

/-- A vector comes in `c`, and the stub its gate leads to runs to the end. -/
def Interrupted (l : IdtLayout) (r : Idtr) (handler : Cpu → Cpu → Prop) (num : UInt8) (err : UInt32) (c c' : Cpu) :
    Prop :=
  ∃ c₁ n code, c.interrupt r num err = some c₁ ∧ l.stubAddress n = c₁.eip ∧ stub n.toUInt32 = some code ∧
    Runs (Instr.Step handler) c₁ code c'

/-! ## One entry -/

section

variable {l : IdtLayout} {m : Mem} {num n : UInt8} {base : UInt32} {selector : UInt16} {flags : UInt8}

theorem IdtLayout.entry_le (l : IdtLayout) (num : UInt8) :
    l.entry num + ENTRY_BYTES ≤ l.idt + ENTRY_BYTES * IDT_SIZE := by
  have := num.toNat_lt
  simp only [IdtLayout.entry, ENTRY_BYTES, IDT_SIZE]
  omega

theorem IdtLayout.entry_lt (l : IdtLayout) (num : UInt8) : l.entry num + 8 ≤ 2 ^ 32 :=
  (l.entry_le num).trans l.idt_lt

/-- Entries of different vectors do not overlap. -/
theorem IdtLayout.entry_apart (l : IdtLayout) (h : num ≠ n) :
    l.entry num + 8 ≤ l.entry n ∨ l.entry n + 8 ≤ l.entry num := by
  have hne : num.toNat ≠ n.toNat := fun heq => h (UInt8.toNat_inj.mp heq)
  simp only [IdtLayout.entry, ENTRY_BYTES]
  omega

theorem addInterrupt_wrote :
    Wrote m (addInterrupt l num base selector flags m) (Set.Ico (l.entry num) (l.entry num + 8)) := by
  have hlt := l.entry_lt num
  unfold addInterrupt
  refine (((Wrote.store16_Ico (by omega) ?_).trans (Wrote.store8_Ico (by omega) (by omega) (by omega))).trans
    (Wrote.store8_Ico (by omega) (by omega) (by omega))).trans ((Wrote.store16_Ico (by omega) ?_).trans
      (Wrote.store16_Ico (by omega) ?_))
  all_goals exact Set.Ico_subset_Ico (by omega) (by omega)

/-- What an entry holds after it was added. -/
theorem addInterrupt_loads {m' : Mem} (hm : m' = addInterrupt l num base selector flags m) :
    m'.load16 (l.entry num) = base.toNat % 2 ^ 16 ∧ m'.load16 (l.entry num + 2) = selector.toNat ∧
      m'.load8 (l.entry num + 5) = flags ∧ m'.load16 (l.entry num + 6) = base.toNat / 2 ^ 16 := by
  have hlt := l.entry_lt num
  have hselector := selector.toNat_lt
  have hbase := base.toNat_lt
  have hlow : (base &&& 0xFFFF).toNat = base.toNat % 2 ^ 16 := by
    rw [UInt32.toNat_and]
    exact Nat.and_two_pow_sub_one_eq_mod _ 16
  have hhigh : ((base >>> 16) &&& 0xFFFF).toNat = base.toNat / 2 ^ 16 := by
    rw [UInt32.toNat_and, UInt32.toNat_shiftRight]
    refine (Nat.and_two_pow_sub_one_eq_mod _ 16).trans ?_
    rw [show ((16 : UInt32).toNat % 32) = 16 from rfl, Nat.shiftRight_eq_div_pow]
    omega
  unfold addInterrupt at hm
  dsimp only at hm
  rw [hlow, hhigh] at hm
  -- The memory after each store, and what that store wrote.
  generalize hm₁ : m.store16 (l.entry num + 2) selector.toNat = m₁ at hm
  generalize hm₂ : m₁.store8 (l.entry num + 4) 0 = m₂ at hm
  generalize hm₃ : m₂.store8 (l.entry num + 5) flags = m₃ at hm
  generalize hm₄ : m₃.store16 (l.entry num) (base.toNat % 2 ^ 16) = m₄ at hm
  have h₂ : Wrote m₁ m₂ (Set.Ico (l.entry num + 4) (l.entry num + 5)) :=
    hm₂ ▸ Wrote.store8_Ico (by omega) (by omega) (by omega)
  have h₃ : Wrote m₂ m₃ (Set.Ico (l.entry num + 5) (l.entry num + 6)) :=
    hm₃ ▸ Wrote.store8_Ico (by omega) (by omega) (by omega)
  have h₄ : Wrote m₃ m₄ (Set.Ico (l.entry num) (l.entry num + 2)) := hm₄ ▸ Wrote.store16_Ico (by omega) subset_rfl
  have h₅ : Wrote m₄ m' (Set.Ico (l.entry num + 6) (l.entry num + 8)) := hm ▸ Wrote.store16_Ico (by omega) subset_rfl
  refine ⟨?_, ?_, ?_, ?_⟩
  · rw [h₅.load16_eq_Ico (by omega) (by omega), ← hm₄, Mem.load16_store16_same, Nat.mod_mod]
  · rw [h₅.load16_eq_Ico (by omega) (by omega), h₄.load16_eq_Ico (by omega) (by omega),
      h₃.load16_eq_Ico (by omega) (by omega), h₂.load16_eq_Ico (by omega) (by omega), ← hm₁,
      Mem.load16_store16_same, Nat.mod_eq_of_lt hselector]
  · rw [h₅.load8_eq_Ico (by omega) (by omega), h₄.load8_eq_Ico (by omega) (by omega), ← hm₃,
      Mem.load8_store8_same]
  · rw [hm, Mem.load16_store16_same, Nat.mod_eq_of_lt (by omega)]

/-! ## The whole table -/

/-- What the processor's register is to hold. -/
def IdtLayout.idtr (l : IdtLayout) : Idtr := ⟨ENTRY_BYTES * IDT_SIZE - 1, l.idt⟩

/-- A gate depends on the bytes of its entry. -/
theorem gate?_congr {m' : Mem} (h : ∀ i, i < 8 → m'.load8 (l.entry num + i) = m.load8 (l.entry num + i)) :
    l.idtr.gate? m' num = l.idtr.gate? m num := by
  have h0 := h 0 (by omega)
  rw [Nat.add_zero] at h0
  simp only [Idtr.gate?, Mem.load16, Nat.add_assoc, Nat.reduceAdd]
  simp only [IdtLayout.entry] at h h0
  simp only [IdtLayout.idtr, h0, ← Nat.add_assoc, h 1 (by omega), h 2 (by omega), h 3 (by omega), h 5 (by omega),
    h 6 (by omega), h 7 (by omega)]

/-- A vector added has its gate, and the others have theirs. -/
theorem addInterrupt_gate (num n : UInt8) : l.idtr.gate? (addInterrupt l n base selector INTERRUPT_GATE m) num =
    if num = n then some ⟨selector, base⟩ else l.idtr.gate? m num := by
  by_cases h : num = n
  · subst h
    have hlimit : ENTRY_BYTES * num.toNat + 7 ≤ l.idtr.limit := by
      have := num.toNat_lt
      simp only [IdtLayout.idtr, ENTRY_BYTES, IDT_SIZE]
      omega
    obtain ⟨hlow, hselector, hflags, hhigh⟩ :=
      addInterrupt_loads (rfl : addInterrupt l num base selector INTERRUPT_GATE m = _)
    simp only [IdtLayout.entry] at hlow hselector hflags hhigh
    rw [if_pos rfl, Idtr.gate?, if_pos ⟨hlimit, by simp only [IdtLayout.idtr, hflags]; decide⟩]
    simp only [IdtLayout.idtr, hlow, hselector, hhigh, Nat.mod_add_div, UInt16.ofNat_toNat, UInt32.ofNat_toNat]
  · rw [if_neg h]
    refine gate?_congr fun i hi => addInterrupt_wrote.load8_eq_Ico ?_ ?_
    · have := l.entry_lt num
      omega
    · have := l.entry_apart h
      omega

theorem addInterrupts_gate (nums : List UInt8) (m : Mem) : l.idtr.gate? (addInterrupts l nums m) num =
    if num ∈ nums then some ⟨KERNEL_SELECTOR, l.stubAddress num⟩ else l.idtr.gate? m num := by
  induction nums generalizing m with
  | nil => simp [addInterrupts]
  | cons n nums ih =>
    rw [addInterrupts, List.foldl_cons, ← addInterrupts, ih, addInterrupt_gate]
    by_cases hn : num = n
    · simp [hn]
    · simp [hn]

theorem addInterrupts_wrote (nums : List UInt8) (m : Mem) :
    Wrote m (addInterrupts l nums m) (Set.Ico l.idt (l.idt + ENTRY_BYTES * IDT_SIZE)) := by
  induction nums generalizing m with
  | nil => exact .refl _ _
  | cons n nums ih =>
    have hn : Set.Ico (l.entry n) (l.entry n + 8) ⊆ Set.Ico l.idt (l.idt + ENTRY_BYTES * IDT_SIZE) :=
      Set.Ico_subset_Ico (Nat.le_add_right _ _) (l.entry_le n)
    exact (addInterrupt_wrote.mono hn).trans (ih _)

/-- The vectors with a stub are the vectors added. -/
theorem mem_addedVectors (num : UInt8) : num ∈ addedVectors ↔ (stub num.toUInt32).isSome := by
  have hall : ∀ b : BitVec 8, UInt8.ofBitVec b ∈ addedVectors ↔ (stub (UInt8.ofBitVec b).toUInt32).isSome := by
    decide +kernel
  exact hall num.toBitVec

/-- The bytes of the table. -/
def SameTable (l : IdtLayout) (m m' : Mem) : Prop :=
  ∀ a, l.idt ≤ a → a < l.idt + ENTRY_BYTES * IDT_SIZE → m'.load8 a = m.load8 a

theorem SameTable.gate? {m' : Mem} (h : SameTable l m m') (num : UInt8) : l.idtr.gate? m' num = l.idtr.gate? m num :=
  gate?_congr fun i hi => h _ (by rw [IdtLayout.entry]; omega) (by
    have := l.entry_le num
    simp only [ENTRY_BYTES] at this ⊢
    omega)

theorem interruptsInit_idtr (l : IdtLayout) (m : Mem) : (interruptsInit l m).2 = l.idtr := by
  have hptr := l.idtptr_lt
  have hidt := l.idt_lt
  have hapart := l.apart
  unfold interruptsInit
  dsimp only
  generalize hm₁ : m.store16 l.idtptr (ENTRY_BYTES * IDT_SIZE - 1) = m₁
  generalize hm₂ : m₁.store32 (l.idtptr + 2) l.idt = m₂
  have h₂ : Wrote m₁ m₂ (Set.Ico (l.idtptr + 2) (l.idtptr + 6)) := hm₂ ▸ Wrote.store32_Ico (by omega) (by simp)
  have h₃ := addInterrupts_wrote (l := l) addedVectors m₂
  have hlimit : (addInterrupts l addedVectors m₂).load16 l.idtptr = ENTRY_BYTES * IDT_SIZE - 1 := by
    rw [h₃.load16_eq_Ico (by omega) (by omega), h₂.load16_eq_Ico (by omega) (by omega), ← hm₁,
      Mem.load16_store16_same]
    rfl
  have hbase : (addInterrupts l addedVectors m₂).load32 (l.idtptr + 2) = l.idt := by
    simp only [ENTRY_BYTES, IDT_SIZE] at hidt
    rw [h₃.load32_eq_Ico (by omega) (by omega), ← hm₂, Mem.load32_store32_same, wrap_of_lt (by omega)]
  simp only [lidt, hlimit, hbase, IdtLayout.idtr]

theorem interruptsInit_pointer :
    Wrote m ((m.store16 l.idtptr (ENTRY_BYTES * IDT_SIZE - 1)).store32 (l.idtptr + 2) l.idt)
      (Set.Ico l.idtptr (l.idtptr + 6)) := by
  have hptr := l.idtptr_lt
  exact (Wrote.store16_Ico (by omega) (Set.Ico_subset_Ico le_rfl (by omega))).trans
    (Wrote.store32_Ico (by omega) (Set.Ico_subset_Ico (by omega) le_rfl))

theorem interruptsInit_wrote (l : IdtLayout) (m : Mem) : Wrote m (interruptsInit l m).1
    (Set.Ico l.idtptr (l.idtptr + 6) ∪ Set.Ico l.idt (l.idt + ENTRY_BYTES * IDT_SIZE)) :=
  (interruptsInit_pointer.mono Set.subset_union_left).trans ((addInterrupts_wrote _ _).mono Set.subset_union_right)

/-- The gates in any memory with the table as `interrupts_init` left it. -/
theorem interruptsInit_gate? {m' : Mem} (hm : SameTable l (interruptsInit l m).1 m') (num : UInt8) :
    (interruptsInit l m).2.gate? m' num =
      if (stub num.toUInt32).isSome then some ⟨KERNEL_SELECTOR, l.stubAddress num⟩ else l.idtr.gate? m num := by
  have hkept : l.idtr.gate?
      ((m.store16 l.idtptr (ENTRY_BYTES * IDT_SIZE - 1)).store32 (l.idtptr + 2) l.idt) num = l.idtr.gate? m num := by
    refine gate?_congr fun i hi => interruptsInit_pointer.load8_eq_Ico ?_ ?_
    · have := l.entry_lt num
      omega
    · have hle := l.entry_le num
      have hapart := l.apart
      have hge : l.idt ≤ l.entry num := Nat.le_add_right _ _
      simp only [ENTRY_BYTES] at hle hapart
      omega
  rw [interruptsInit_idtr, hm.gate?, interruptsInit]
  dsimp only
  simp only [addInterrupts_gate, mem_addedVectors, hkept]

/-- **Every vector with a stub has its gate**, the others have what the memory
held, and nothing but the table and its pointer was written. -/
theorem interruptsInit_gates (l : IdtLayout) (m : Mem) :
    (∀ c num, SameTable l (interruptsInit l m).1 c → (interruptsInit l m).2.gate? c num =
      if (stub num.toUInt32).isSome then some ⟨KERNEL_SELECTOR, l.stubAddress num⟩ else l.idtr.gate? m num) ∧
    Wrote m (interruptsInit l m).1
      (Set.Ico l.idtptr (l.idtptr + 6) ∪ Set.Ico l.idt (l.idt + ENTRY_BYTES * IDT_SIZE)) :=
  ⟨fun _ num hc => interruptsInit_gate? hc num, interruptsInit_wrote l m⟩

end

/-- A kernel with its table at `0x20000` and 16 bytes for each stub. -/
def sampleLayout : IdtLayout where
  idt := 0x20000
  idtptr := 0x20800
  stubAddress num := 0x18000 + 16 * num.toUInt32
  idt_lt := by decide
  idtptr_lt := by decide
  apart := .inr (by decide)
  labels num n _ _ h := by
    have hnum := num.toNat_lt
    have hn := n.toNat_lt
    rw [UInt32.add_right_inj] at h
    have := congrArg UInt32.toNat h
    simp only [UInt32.toNat_mul, UInt8.toNat_toUInt32, UInt32.reduceToNat] at this
    exact UInt8.toNat_inj.mp (by omega)

/-- A memory of zeros. -/
def zeroed : Mem := ⟨fun _ => 0, []⟩

/-- The timer's gate, and none for the reserved vector 21. -/
theorem interruptsInit_gates_timer :
    (interruptsInit sampleLayout zeroed).2.gate? (interruptsInit sampleLayout zeroed).1 0x20 = some ⟨0x10, 0x18200⟩ ∧
      (interruptsInit sampleLayout zeroed).2.gate? (interruptsInit sampleLayout zeroed).1 0x15 = none := by
  have h := fun num => (interruptsInit_gates sampleLayout zeroed).1 _ num fun _ _ _ => rfl
  exact ⟨(h 0x20).trans (by decide), (h 0x15).trans (by decide)⟩

end Ssmos

/-
What a stub does to the code it interrupts, over an arbitrary register file,
stack and C handler.
-/
import Ssmos.Isr

namespace Ssmos

namespace Cpu

variable {c : Cpu} {us ws : List UInt32}

/-- `ws` are the words on top of the stack. -/
def Has (c : Cpu) (ws : List UInt32) : Prop := StackAt c.mem c.esp ws

/-- What `pushad` leaves on the stack. -/
def saved (c : Cpu) : List UInt32 :=
  [c.edi, c.esi, c.ebp, c.esp, c.ebx, c.edx, c.ecx, c.eax]

theorem Has.congr {c' : Cpu} (h : c.Has ws) (hmem : c'.mem = c.mem) (hesp : c'.esp = c.esp) :
    c'.Has ws := by
  rw [Has, hmem, hesp]
  exact h

theorem Has.push (h : c.Has ws) (v : UInt32) (hlen : ws.length < 2 ^ 30) : (c.push v).Has (v :: ws) :=
  StackAt.push hlen h

theorem Has.pushad (h : c.Has ws) (hlen : ws.length + 8 ≤ 2 ^ 30) : c.pushad.Has (c.saved ++ ws) := by
  refine (((((((h.push _ ?_).push _ ?_).push _ ?_).push _ ?_).push _ ?_).push _ ?_).push _ ?_).push _ ?_
  · omega
  all_goals
    simp only [List.length_cons]
    omega

theorem Has.drop (n : Nat) (h : c.Has ws) (hn : n ≤ ws.length) : (c.drop n).Has (ws.drop n) := by
  rw [← List.take_append_drop n ws] at h
  have := (StackAt.append.mp h).2
  rwa [List.length_take, Nat.min_eq_left hn] at this

theorem Has.word {i : Nat} {v : UInt32} (h : c.Has ws) (hi : ws[i]? = some v) : c.word i = v := by
  obtain ⟨hlt, hv⟩ := List.getElem?_eq_some_iff.mp hi
  have := h.drop i hlt.le
  rw [List.drop_eq_getElem_cons hlt, hv] at this
  exact this.1

end Cpu

/-! ## The two halves of a stub -/

/-- The state `common_handle` calls C in, from a stub without an error code. -/
def entered (num : UInt32) (c : Cpu) : Cpu :=
  ((((((deliver c).push 0).push c.buffer).pushad).push num).pushad)

/-- The words the stubs keep for the way back. -/
def frame (c : Cpu) : List UInt32 :=
  [c.edi, c.esi, c.ebp, c.esp - 20, c.ebx, c.edx, c.ecx, c.eax, c.buffer, 0, c.eip, c.cs.toUInt32,
    c.eflags]

/-- The arguments C finds: the second `pushad`, and the vector. -/
def arguments (num : UInt32) (c : Cpu) : List UInt32 :=
  [c.edi, c.esi, c.ebp, c.esp - 56, c.ebx, c.edx, c.ecx, c.eax, num]

theorem entered_esp {num : UInt32} {c : Cpu} : (entered num c).esp = c.esp - 88 := by
  simp only [entered, deliver, Cpu.pushad, Cpu.push]
  grind

theorem entered_has {num : UInt32} {c : Cpu} {ws : List UInt32} (hlen : ws.length + 23 ≤ 2 ^ 30)
    (h : c.Has ws) : (entered num c).Has (arguments num c ++ (frame c ++ ws)) := by
  have h₃ : (deliver c).Has (c.eip :: c.cs.toUInt32 :: c.eflags :: ws) :=
    ((h.push c.eflags (by omega)).push c.cs.toUInt32 (by simp; omega)).push c.eip (by simp; omega)
  have h₅ := (h₃.push 0 (by simp; omega)).push c.buffer (by simp; omega)
  have h₁₄ := (h₅.pushad (by simp; omega)).push num (by simp [Cpu.saved]; omega)
  have h₂₂ := h₁₄.pushad (by simp [Cpu.saved]; omega)
  refine (congrArg (entered num c).Has ?_).mp h₂₂
  simp only [Cpu.saved, arguments, frame, deliver, Cpu.pushad, Cpu.push, List.cons_append,
    List.nil_append, List.cons.injEq, true_and]
  grind

/-- `mov [BUFFER], eax; popad; add esp, 4`: away with C's arguments. -/
def discarded (r : Cpu) : Cpu := { r with buffer := r.eax }.popad.drop 1

/-- `popad; mov eax, [BUFFER]`: the saved registers, and C's result. -/
def restored (r : Cpu) : Cpu := { r.popad with eax := r.buffer }

/-- `pop dword [BUFFER]; add esp, 4`. -/
def unbuffered (r : Cpu) : Cpu := { r.drop 1 with buffer := r.word 0 }.drop 1

def iretd (r : Cpu) : Cpu :=
  { r.drop 3 with eip := r.word 0, cs := (r.word 1).toUInt16, eflags := r.word 2 }

/-- Where the stub takes the state C returns in. -/
def left (r : Cpu) : Cpu := iretd (unbuffered (restored (discarded r)))

/-- Everything the interrupted code had but `eax`. -/
structure Resumed (depth : Nat) (c c' : Cpu) : Prop where
  ecx : c'.ecx = c.ecx
  edx : c'.edx = c.edx
  ebx : c'.ebx = c.ebx
  esp : c'.esp = c.esp
  ebp : c'.ebp = c.ebp
  esi : c'.esi = c.esi
  edi : c'.edi = c.edi
  eip : c'.eip = c.eip
  cs : c'.cs = c.cs
  eflags : c'.eflags = c.eflags
  buffer : c'.buffer = c.buffer
  stack : ∀ ws, ws.length ≤ depth → c.Has ws → c'.Has ws

/-- **The stub is its two halves around the call.** -/
theorem runs_noError {handler : Cpu → Cpu → Prop} {num : UInt32} {c c' : Cpu} :
    Runs (Instr.Step handler) (deliver c) (noError num) c' ↔
      ∃ ret r, handler ((entered num c).push ret) r ∧ c' = left r := by
  simp only [noError, commonHandle, List.cons_append, List.nil_append, Runs.cons_iff, Runs.nil_iff,
    Instr.Step, exists_eq_left]
  constructor
  · intro hx
    obtain ⟨r, ⟨ret, hr⟩, h⟩ := hx
    exact ⟨ret, r, hr, h⟩
  · intro hx
    obtain ⟨ret, r, hr, h⟩ := hx
    exact ⟨r, ⟨ret, hr⟩, h⟩

theorem discarded_has {r : Cpu} {ws : List UInt32} (h : (r.drop 9).Has ws) : (discarded r).Has ws := by
  refine h.congr rfl ?_
  simp only [discarded, Cpu.drop, Cpu.popad]
  grind

theorem restored_has {r : Cpu} {ws : List UInt32} (h : r.Has ws) (hlen : 8 ≤ ws.length) :
    (restored r).Has (ws.drop 8) :=
  (h.drop 8 hlen).congr rfl rfl

theorem unbuffered_has {r : Cpu} {v w : UInt32} {ws : List UInt32} (h : r.Has (v :: w :: ws)) :
    (unbuffered r).Has ws :=
  ((h.drop 1 (by simp)).drop 1 (by simp)).congr rfl rfl

theorem iretd_has {r : Cpu} {ws : List UInt32} (h : r.Has ws) (hlen : 3 ≤ ws.length) :
    (iretd r).Has (ws.drop 3) :=
  (h.drop 3 hlen).congr rfl rfl

theorem left_resumed {depth : Nat} {c r : Cpu} (hesp : r.esp = c.esp - 88)
    (hstack : ∀ ws, ws.length ≤ depth → c.Has ws → (r.drop 9).Has (frame c ++ ws)) :
    (left r).eax = r.eax ∧ Resumed depth c (left r) := by
  have hp : ∀ ws, ws.length ≤ depth → c.Has ws → (discarded r).Has (frame c ++ ws) :=
    fun ws hlen h => discarded_has (hstack ws hlen h)
  have hq : ∀ ws, ws.length ≤ depth → c.Has ws →
      (restored (discarded r)).Has (c.buffer :: 0 :: c.eip :: c.cs.toUInt32 :: c.eflags :: ws) :=
    fun ws hlen h => restored_has (hp ws hlen h) (by simp [frame])
  have ht : ∀ ws, ws.length ≤ depth → c.Has ws →
      (unbuffered (restored (discarded r))).Has (c.eip :: c.cs.toUInt32 :: c.eflags :: ws) :=
    fun ws hlen h => unbuffered_has (hq ws hlen h)
  have hp₀ := hp [] (Nat.zero_le _) trivial
  have hq₀ := hq [] (Nat.zero_le _) trivial
  have ht₀ := ht [] (Nat.zero_le _) trivial
  refine ⟨rfl, hp₀.word (i := 6) rfl, hp₀.word (i := 5) rfl, hp₀.word (i := 4) rfl, ?_,
    hp₀.word (i := 2) rfl, hp₀.word (i := 1) rfl, hp₀.word (i := 0) rfl, ht₀.word (i := 0) rfl, ?_,
    ht₀.word (i := 2) rfl, hq₀.word (i := 0) rfl, fun ws hlen h => ?_⟩
  · simp only [left, iretd, unbuffered, restored, discarded, Cpu.drop, Cpu.popad, hesp]
    grind
  · show ((unbuffered (restored (discarded r))).word 1).toUInt16 = c.cs
    rw [ht₀.word (i := 1) rfl]
    simp
  · exact iretd_has (ht ws hlen h) (by simp)

/-! ## Service through a stub without an error code -/

section

variable {syscall : UInt32 → UInt32 → UInt32 → UInt32 → UInt32 → UInt32 → Prop} {depth : Nat}
  {num ret v : UInt32} {c c' r : Cpu}

theorem called_has (num ret : UInt32) {ws : List UInt32} (hdepth : ws.length + 23 ≤ 2 ^ 30) (h : c.Has ws) :
    ((entered num c).push ret).Has (ret :: (arguments num c ++ (frame c ++ ws))) :=
  (entered_has hdepth h).push ret (by simp [arguments, frame]; omega)

/-- The dispatch that `interrupt_handler` makes on the arguments it finds. -/
def dispatched (num : UInt32) (c : Cpu) : Dispatch :=
  interruptHandler c.edi c.esi c.ebp (c.esp - 56) c.ebx c.edx c.ecx c.eax num

theorem called_dispatch (ret : UInt32) : ((entered num c).push ret).dispatch = dispatched num c := by
  have h := called_has num ret (c := c) (by decide : ([] : List UInt32).length + 23 ≤ 2 ^ 30) trivial
  generalize (entered num c).push ret = e at h ⊢
  rw [Cpu.dispatch, h.word (i := 1) rfl, h.word (i := 2) rfl, h.word (i := 3) rfl,
    h.word (i := 4) rfl, h.word (i := 5) rfl, h.word (i := 6) rfl, h.word (i := 7) rfl,
    h.word (i := 8) rfl, h.word (i := 9) rfl, dispatched]

theorem HandlerCall.resumes (hdepth : depth + 23 ≤ 2 ^ 30)
    (h : HandlerCall syscall (FRAME_WORDS + depth) ((entered num c).push ret) r) :
    (left r).eax = r.eax ∧ Resumed depth c (left r) := by
  refine left_resumed ?_ fun ws hlen hws => ?_
  · rw [h.esp, Cpu.push, entered_esp]
    grind
  · have hcall := (called_has num ret (by omega) hws).drop 10 (by simp [arguments])
    have hkept := h.stack (frame c ++ ws) (by simp [frame, FRAME_WORDS]; omega) hcall
    refine (congrArg (StackAt r.mem · (frame c ++ ws)) ?_).mp hkept
    simp only [Cpu.drop, h.esp]
    grind

/-- **What a service through such a stub does**: `eax` is a value the handler
may return, and nothing else of the interrupted code has changed. -/
theorem Serviced.spec (hstub : stub num = some (noError num)) (hdepth : depth + 23 ≤ 2 ^ 30)
    (h : Serviced syscall depth num c c') :
    (dispatched num c).Returns syscall c'.eax ∧ Resumed depth c c' := by
  obtain ⟨code, hcode, hrun⟩ := h
  obtain rfl := Option.some.inj (hstub.symm.trans hcode)
  obtain ⟨ret, r, hcall, rfl⟩ := runs_noError.mp hrun
  obtain ⟨heax, hres⟩ := hcall.resumes hdepth
  refine ⟨?_, hres⟩
  rw [heax, ← called_dispatch ret]
  exact hcall.returns

theorem exists_handlerCall (depth : Nat) {e : Cpu} (h : e.dispatch.Returns syscall v) :
    ∃ r, HandlerCall syscall depth e r :=
  ⟨{ e with eax := v, esp := e.esp + 4 },
    { ebx := rfl, esp := rfl, ebp := rfl, esi := rfl, edi := rfl, buffer := rfl
      stack := fun _ _ h => h
      returns := h }⟩

/-- A service exists whenever the handler can return at all. -/
theorem exists_serviced (hstub : stub num = some (noError num))
    (h : (dispatched num c).Returns syscall v) : ∃ c', Serviced syscall depth num c c' := by
  rw [← called_dispatch 0] at h
  obtain ⟨r, hr⟩ := exists_handlerCall (FRAME_WORDS + depth) h
  exact ⟨left r, noError num, hstub, runs_noError.mpr ⟨0, r, hr, rfl⟩⟩

/-! ## Hardware interrupts -/

theorem stub_irq (hlo : 0x20 ≤ num) (hhi : num ≤ 0x2F) : stub num = some (noError num) := by
  rw [UInt32.le_iff_toNat_le] at hlo hhi
  have hne : ¬(num = 0x8 ∨ 0xA ≤ num ∧ num ≤ 0xE ∨ num = 0x11 ∨ num = 0x1E) := by
    simp only [UInt32.le_iff_toNat_le, ← UInt32.toNat_inj, UInt32.reduceToNat] at hlo hhi ⊢
    omega
  rw [stub, if_neg hne, if_pos (.inr (.inl ⟨hlo, hhi⟩))]

theorem dispatched_irq (hlo : 0x20 ≤ num) (hhi : num ≤ 0x2F) :
    dispatched num c = .irq (num - MASTER_PIC_OFFSET) := by
  have hlo : 32 ≤ num.toNat := UInt32.le_iff_toNat_le.mp hlo
  have hhi : num.toNat ≤ 47 := UInt32.le_iff_toNat_le.mp hhi
  have hint : num.toInt32.toInt = num.toNat :=
    BitVec.toInt_eq_toNat_of_lt (x := num.toBitVec) (by rw [UInt32.toNat_toBitVec]; omega)
  have h32 : (0x20 : Int32).toInt = 32 := by decide
  have h48 : (0x30 : Int32).toInt = 48 := by decide
  rw [dispatched, interruptHandler, if_neg, if_pos]
  all_goals
    simp only [Int32.le_iff_toInt_le, Int32.lt_iff_toInt_lt, hint, h32, h48]
    omega

/-- The interrupted code's registers and `BUFFER`. -/
structure Transparent (c c' : Cpu) : Prop where
  eax : c'.eax = c.eax
  ecx : c'.ecx = c.ecx
  edx : c'.edx = c.edx
  ebx : c'.ebx = c.ebx
  esp : c'.esp = c.esp
  ebp : c'.ebp = c.ebp
  esi : c'.esi = c.esi
  edi : c'.edi = c.edi
  buffer : c'.buffer = c.buffer

theorem Resumed.transparent_iff (h : Resumed depth c c') : Transparent c c' ↔ c'.eax = c.eax :=
  ⟨Transparent.eax, fun heax =>
    ⟨heax, h.ecx, h.edx, h.ebx, h.esp, h.ebp, h.esi, h.edi, h.buffer⟩⟩

theorem Serviced.irq (hlo : 0x20 ≤ num) (hhi : num ≤ 0x2F) (hdepth : depth + 23 ≤ 2 ^ 30)
    (h : Serviced syscall depth num c c') : c'.eax = 0 ∧ Resumed depth c c' := by
  obtain ⟨hret, hres⟩ := h.spec (stub_irq hlo hhi) hdepth
  rw [dispatched_irq hlo hhi] at hret
  generalize c'.eax = v at hret ⊢
  cases hret with
  | irq => exact ⟨rfl, hres⟩

/-- **A hardware interrupt is transparent exactly to code whose `eax` is zero**:
the stubs are shared with system calls, and leave the handler's result there.
All else is restored, with `depth` words of the stack, `eip`, `cs` and the flags. -/
theorem irq_transparent_iff (hlo : 0x20 ≤ num) (hhi : num ≤ 0x2F) (hdepth : depth + 23 ≤ 2 ^ 30)
    (h : Serviced syscall depth num c c') :
    Resumed depth c c' ∧ (Transparent c c' ↔ c.eax = 0) := by
  obtain ⟨heax, hres⟩ := h.irq hlo hhi hdepth
  rw [hres.transparent_iff, heax]
  exact ⟨hres, eq_comm⟩

end

/-- Running code with a given `eax`. -/
def running (eax : UInt32) : Cpu where
  eax := eax
  ecx := 2
  edx := 3
  ebx := 4
  esp := 0x90000
  ebp := 0x90040
  esi := 5
  edi := 6
  eip := 0x10000
  cs := KERNEL_SELECTOR
  eflags := 0x202
  buffer := 7
  mem := { cells := fun _ => 0, log := [] }

theorem running_serviced (eax : UInt32) :
    ∃ c', Serviced (fun _ _ _ _ _ _ => False) 4 0x20 (running eax) c' :=
  exists_serviced (stub_irq (by decide) (by decide)) (v := 0) (by
    rw [dispatched_irq (by decide) (by decide)]
    exact .irq)

theorem irq_transparent_iff_timer : ∃ c',
    Serviced (fun _ _ _ _ _ _ => False) 4 0x20 (running 0) c' ∧ Resumed 4 (running 0) c' ∧
      Transparent (running 0) c' := by
  obtain ⟨c', h⟩ := running_serviced 0
  obtain ⟨hresumed, hiff⟩ := irq_transparent_iff (by decide) (by decide) (by decide) h
  exact ⟨c', h, hresumed, hiff.mpr rfl⟩

/-- A timer interrupt while `eax` is 1. -/
theorem irq_clobbers_eax : ∃ c',
    Serviced (fun _ _ _ _ _ _ => False) 4 0x20 (running 1) c' ∧ c'.eax = 0 ∧
      ¬Transparent (running 1) c' := by
  obtain ⟨c', h⟩ := running_serviced 1
  obtain ⟨heax, -⟩ := h.irq (by decide) (by decide) (by decide)
  refine ⟨c', h, heax, fun ht => ?_⟩
  rw [ht.eax] at heax
  exact absurd heax (by decide)

end Ssmos

/-
System calls: the switch of `process_syscall` (`kernel/syscalls.c`) on the
registers a call arrives with, and the wrappers of `lib/system.c` on the other
side of `int 0x80`.

What the kernel functions do is a relation here, from a call to the values it
may return; a call that never returns is related to none.
-/
import Ssmos.IsrFacts

namespace Ssmos

/-! ## The switch -/

/-- The kernel functions that system calls reach, with their arguments. -/
inductive KernelCall
  | ksleep (milliseconds : UInt32)
  | kclear
  | kmalloc (size : UInt32)
  | krealloc (ptr newsz : UInt32)
  | kfree (ptr : UInt32)
  | kmemcpy (dest src sz : UInt32)
  | kmemset (dest : UInt32) (c : UInt8) (sz : UInt32)
  | kputchar (pos : UInt32) (c color : UInt8)
  | kputstring (pos text c : UInt32) (color : UInt8)
  | kprint (pos text : UInt32) (color : UInt8)
  | kprintnum (pos num : UInt32) (color : UInt8) (base : UInt32)
  | kccolor (pos n : UInt32) (color : UInt8)
  | kscroll
  | kflip
  | ksync
  deriving DecidableEq, Repr

/-- One arm of the switch: call and `break`, return the call's value, `break`
at once, or stop for good. -/
inductive Arm
  | call (k : KernelCall)
  | value (k : KernelCall)
  | nothing
  | haltdump (msg : String)
  deriving DecidableEq, Repr

def processSyscall (eax ebx ecx edx esi : UInt32) : Arm :=
  if eax = 0x0 then .call (.ksleep ebx)
  else if eax = 0x1 then .nothing
  else if eax = 0x2 then .call .kclear
  else if eax = 0x3 then .value (.kmalloc ebx)
  else if eax = 0x4 then .value (.krealloc ebx ecx)
  else if eax = 0x5 then .call (.kfree ebx)
  else if eax = 0x6 then .call (.kmemcpy ebx ecx edx)
  else if eax = 0x7 then .call (.kmemset ebx ecx.toUInt8 edx)
  else if eax = 0x8 then .call (.kputchar ebx ecx.toUInt8 edx.toUInt8)
  else if eax = 0x9 then .call (.kputstring ebx ecx edx esi.toUInt8)
  else if eax = 0xA then .call (.kprint ebx ecx edx.toUInt8)
  else if eax = 0xB then .call (.kprintnum ebx ecx edx.toUInt8 esi)
  else if eax = 0xC then .call (.kccolor ebx ecx edx.toUInt8)
  else if eax = 0xD then .call .kscroll
  else if eax = 0xE then .call .kflip
  else if eax = 0xF then .call .ksync
  else .haltdump "Unknown or invalid system call."

/-- The values an arm can return: `NULL` after a `break`. -/
inductive Arm.Returns (kernel : KernelCall → UInt32 → Prop) : Arm → UInt32 → Prop
  | call {k v} : kernel k v → Returns kernel (.call k) 0
  | value {k v} : kernel k v → Returns kernel (.value k) v
  | nothing : Returns kernel .nothing 0

/-- `r` is a value `process_syscall` can return. -/
def ProcessSyscall (kernel : KernelCall → UInt32 → Prop) (eax ebx ecx edx esi r : UInt32) : Prop :=
  (processSyscall eax ebx ecx edx esi).Returns kernel r

/-! ## The wrappers -/

/-- The functions of `lib/system.c` with their arguments. -/
inductive UserCall
  | malloc (size : UInt32)
  | realloc (ptr newsz : UInt32)
  | free (ptr : UInt32)
  | memcpy (dest src sz : UInt32)
  | memset (dest : UInt32) (c : UInt8) (sz : UInt32)
  | sleep (x : UInt32)
  | system (command : UInt32)
  | clear
  | ccolor (pos n : UInt32) (color : UInt8)
  | putchar (pos : UInt32) (c color : UInt8)
  | putstring (pos text c : UInt32) (color : UInt8)
  | print (pos text : UInt32) (color : UInt8)
  | printnum (pos num : UInt32) (color : UInt8) (base : UInt32)
  | scroll
  | flip
  | sync

/-- The registers a wrapper has loaded when it reaches its `int 0x80`. The
compiler loads the low byte of a `char`; the bytes above may be anything. -/
def UserCall.Loaded (c : Cpu) : UserCall → Prop
  | .malloc size => c.eax = 0x3 ∧ c.ebx = size
  | .realloc ptr newsz => c.eax = 0x4 ∧ c.ebx = ptr ∧ c.ecx = newsz
  | .free ptr => c.eax = 0x5 ∧ c.ebx = ptr
  | .memcpy dest src sz => c.eax = 0x6 ∧ c.ebx = dest ∧ c.ecx = src ∧ c.edx = sz
  | .memset dest ch sz => c.eax = 0x7 ∧ c.ebx = dest ∧ c.ecx.toUInt8 = ch ∧ c.edx = sz
  | .sleep x => c.eax = 0x0 ∧ c.ebx = x
  | .system command => c.eax = 0x1 ∧ c.ebx = command
  | .clear => c.eax = 0x2
  | .ccolor pos n color => c.eax = 0xC ∧ c.ebx = pos ∧ c.ecx = n ∧ c.edx.toUInt8 = color
  | .putchar pos ch color => c.eax = 0x8 ∧ c.ebx = pos ∧ c.ecx.toUInt8 = ch ∧ c.edx.toUInt8 = color
  | .putstring pos text n color =>
    c.eax = 0x9 ∧ c.ebx = pos ∧ c.ecx = text ∧ c.edx = n ∧ c.esi.toUInt8 = color
  | .print pos text color => c.eax = 0xA ∧ c.ebx = pos ∧ c.ecx = text ∧ c.edx.toUInt8 = color
  | .printnum pos num color base =>
    c.eax = 0xB ∧ c.ebx = pos ∧ c.ecx = num ∧ c.edx.toUInt8 = color ∧ c.esi = base
  | .scroll => c.eax = 0xD
  | .flip => c.eax = 0xE
  | .sync => c.eax = 0xF

/-- What a wrapper is for: the kernel function of its name on the same arguments. -/
def UserCall.arm : UserCall → Arm
  | .malloc size => .value (.kmalloc size)
  | .realloc ptr newsz => .value (.krealloc ptr newsz)
  | .free ptr => .call (.kfree ptr)
  | .memcpy dest src sz => .call (.kmemcpy dest src sz)
  | .memset dest c sz => .call (.kmemset dest c sz)
  | .sleep x => .call (.ksleep x)
  | .system _ => .nothing
  | .clear => .call .kclear
  | .ccolor pos n color => .call (.kccolor pos n color)
  | .putchar pos c color => .call (.kputchar pos c color)
  | .putstring pos text c color => .call (.kputstring pos text c color)
  | .print pos text color => .call (.kprint pos text color)
  | .printnum pos num color base => .call (.kprintnum pos num color base)
  | .scroll => .call .kscroll
  | .flip => .call .kflip
  | .sync => .call .ksync

/-- Wrapper and switch agree on the register each argument travels in. -/
theorem UserCall.Loaded.processSyscall_eq {c : Cpu} {u : UserCall} (h : u.Loaded c) :
    processSyscall c.eax c.ebx c.ecx c.edx c.esi = u.arm := by
  cases u <;> simp only [UserCall.Loaded] at h <;> simp [processSyscall, UserCall.arm, h]

/-! ## A call through vector 0x80 -/

section

variable {syscall : UInt32 → UInt32 → UInt32 → UInt32 → UInt32 → UInt32 → Prop}
  {kernel : KernelCall → UInt32 → Prop} {handler : Cpu → Cpu → Prop} {depth : Nat} {c c' : Cpu}

/-- The nine words `interrupt_handler` takes as its parameters. -/
def Cpu.parameters (e : Cpu) : List UInt32 :=
  [e.word 1, e.word 2, e.word 3, e.word 4, e.word 5, e.word 6, e.word 7, e.word 8, e.word 9]

theorem called_parameters {num : UInt32} (ret : UInt32) :
    ((entered num c).push ret).parameters = arguments num c := by
  have h := called_has num ret (c := c) (by decide : ([] : List UInt32).length + 23 ≤ 2 ^ 30) trivial
  generalize (entered num c).push ret = e at h ⊢
  rw [Cpu.parameters, h.word (i := 1) rfl, h.word (i := 2) rfl, h.word (i := 3) rfl,
    h.word (i := 4) rfl, h.word (i := 5) rfl, h.word (i := 6) rfl, h.word (i := 7) rfl,
    h.word (i := 8) rfl, h.word (i := 9) rfl, arguments]

theorem stub_syscall : stub 0x80 = some (noError 0x80) := by
  rw [stub, if_neg (by decide), if_pos (by decide)]

theorem dispatched_syscall : dispatched 0x80 c = .syscall c.eax c.ebx c.ecx c.edx c.esi := by
  rw [dispatched, interruptHandler, if_neg (by decide), if_neg (by decide), if_pos rfl]

theorem Dispatch.Returns.of_syscall {eax ebx ecx edx esi r : UInt32}
    (h : (Dispatch.syscall eax ebx ecx edx esi).Returns syscall r) : syscall eax ebx ecx edx esi r := by
  cases h with
  | syscall h => exact h

/-- **The round trip of a system call**, for any C side `handler` that keeps to
the convention. The one call it gets finds the interrupted registers and the
vector as its nine parameters, so `process_syscall` gets `eax`, `ebx`, `ecx`,
`edx` and `esi`. After `iretd` the caller finds in `eax` what it returned, and
every other register, `BUFFER` and its stack as they were. -/
theorem syscall_round_trip
    (hhandler : ∀ e r, handler e r → HandlerCall (ProcessSyscall kernel) (FRAME_WORDS + depth) e r)
    (hdepth : depth + 23 ≤ 2 ^ 30)
    (hrun : ∃ code, stub 0x80 = some code ∧ Runs (Instr.Step handler) (deliver c) code c') :
    ∃ e r, handler e r ∧
      e.parameters = [c.edi, c.esi, c.ebp, c.esp - 56, c.ebx, c.edx, c.ecx, c.eax, 0x80] ∧
      e.dispatch = .syscall c.eax c.ebx c.ecx c.edx c.esi ∧
      ProcessSyscall kernel c.eax c.ebx c.ecx c.edx c.esi r.eax ∧ c'.eax = r.eax ∧
      Resumed depth c c' := by
  obtain ⟨code, hcode, hrun⟩ := hrun
  obtain rfl := Option.some.inj (stub_syscall.symm.trans hcode)
  obtain ⟨ret, r, hcall, rfl⟩ := runs_noError.mp hrun
  have hc := hhandler _ _ hcall
  have hdispatch : ((entered 0x80 c).push ret).dispatch = .syscall c.eax c.ebx c.ecx c.edx c.esi :=
    (called_dispatch ret).trans dispatched_syscall
  have hret := hc.returns
  rw [hdispatch] at hret
  obtain ⟨heax, hres⟩ := hc.resumes hdepth
  exact ⟨_, r, hcall, called_parameters ret, hdispatch, hret.of_syscall, heax, hres⟩

/-- `malloc(4)` with a C side that only sets `eax`. -/
theorem syscall_round_trip_malloc : ∃ c', ∃ e r,
    HandlerCall (ProcessSyscall fun k v => k = .kmalloc 4 ∧ v = 0x100020) (FRAME_WORDS + 4) e r ∧
      e.parameters = [6, 5, 0x90040, 0x90000 - 56, 4, 3, 2, 3, 0x80] ∧
      e.dispatch = .syscall 3 4 2 3 5 ∧
      ProcessSyscall (fun k v => k = .kmalloc 4 ∧ v = 0x100020) 3 4 2 3 5 r.eax ∧ c'.eax = r.eax ∧
      Resumed 4 (running 3) c' := by
  obtain ⟨c', h⟩ : ∃ c', Serviced (ProcessSyscall fun k v => k = .kmalloc 4 ∧ v = 0x100020) 4 0x80
      (running 3) c' :=
    exists_serviced (v := 0x100020) stub_syscall (by
      rw [dispatched_syscall]
      exact .syscall (Arm.Returns.value ⟨rfl, rfl⟩))
  exact ⟨c', syscall_round_trip (fun _ _ h => h) (by decide) h⟩

/-- What a wrapper of `lib/system.c` finds in `eax` when its `int 0x80` returns. -/
theorem UserCall.Loaded.returns {u : UserCall} (h : u.Loaded c) (hdepth : depth + 23 ≤ 2 ^ 30)
    (hs : Serviced (ProcessSyscall kernel) depth 0x80 c c') :
    u.arm.Returns kernel c'.eax ∧ Resumed depth c c' := by
  obtain ⟨hret, hres⟩ := hs.spec stub_syscall hdepth
  rw [dispatched_syscall] at hret
  have := hret.of_syscall
  rw [ProcessSyscall, h.processSyscall_eq] at this
  exact ⟨this, hres⟩

end

end Ssmos

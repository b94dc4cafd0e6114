/-
The boot loader (`boot/boot.asm`) around `kernel_load`: the checks of memory, the
load of the second stage, and the switch to protected mode, up to the `call` of
`kernel_main`.

The firmware is a parameter. It is entered with `ds` zero, as `org` has it; what
it leaves in a register that is set before it is read is not followed, nor are
the screen and the coprocessor.
-/
import Ssmos.BootImage
import Ssmos.IsrFacts
import Ssmos.Waits
import Ssmos.Base.Preserves

namespace Ssmos

/-! ## The firmware and the loader -/

/-- The BIOS, with what its functions that size the memory answer. -/
structure Firmware extends Bios where
  /-- `ax` of `int 0x12`, unless it sets the carry flag. -/
  lowmem : Option UInt16
  /-- `ax` and `cx` of function `0xE801` of `int 0x15`, unless it sets the carry flag. -/
  himem : Option (UInt16 × UInt16)

/-- The variables that `kernel_load` does not use, and the ports. -/
structure Loader where
  loading : Boot
  lowmem : UInt16
  highmem : UInt16
  /-- The system control port, `0x92`. -/
  control : UInt8
  /-- What was sent to `PS2CONTROLLER`, latest first. -/
  ps2 : List UInt8

/-- Where the loader hangs. -/
inductive Hang
  /-- At a `jmp $`, its message printed. -/
  | message (text : List UInt8)
  /-- In `read_disk`, its tries used up, or at a `div` by zero. -/
  | disk

namespace Loader

def MINMEM : UInt16 := 0x1E0
def SECONDSTAGE : UInt16 := 0x7E00
def LOADERSECTORS : UInt8 := 0x1
def line (s : String) : List UInt8 := [0x0a, 0x0d] ++ s.toUTF8.toList ++ [0x0a, 0x0d]

def boot : List UInt8 := line "Bootloader running..."
def memerror : List UInt8 := line "Memory read error!"
def notenoughmemory : List UInt8 := line "Insufficient memory!"
def loadsuccess : List UInt8 := line "Kernel successfully loaded!"
def switchpm : List UInt8 := line "Switching to Protected Mode..."
def himemsuccess : List UInt8 := line "Found high memory..."
def himemerror : List UInt8 := line "Error while getting high memory!"
def ps2good : List UInt8 := line "PS/2 controller self-test passed."

def print (text : List UInt8) (l : Loader) : Loader := { l with loading := l.loading.printBios text }

/-- From `int 0x12` to `mem_good`. The comparison is signed. -/
def checkLowmem (fw : Firmware) (l : Loader) : Except Hang Loader :=
  match fw.lowmem with
  | none => .error (.message memerror)
  | some ax =>
    if ax.toInt16 ≤ MINMEM.toInt16 then .error (.message notenoughmemory) else .ok { l with lowmem := ax }

/-- `a20alt`, which is always jumped to. -/
def enableA20 (l : Loader) : Loader := { l with control := l.control ||| 2 }

/-- The request for the second stage: all but `es` is set. -/
def stageRequest (l : Loader) : Regs where
  ah := 0x2
  al := LOADERSECTORS
  bx := SECONDSTAGE
  ch := 0x0
  cl := 0x2
  dh := 0x0
  dl := l.loading.bootdrive
  es := l.loading.regs.es

def load (fw : Firmware) (l : Loader) : Except Hang Loader :=
  match (Boot.readDisk fw.toBios { l.loading with regs := l.stageRequest }).bind (Boot.kernelLoad fw.toBios) with
  | none => .error .disk
  | some loading => .ok { l with loading := loading }

/-- `get_himem`. -/
def getHimem (fw : Firmware) (l : Loader) : Except Hang Loader :=
  match fw.himem with
  | none => .error (.message himemerror)
  | some (ax, cx) =>
    let ah := (ax >>> 8).toUInt8
    if ah = 0x86 ∨ ah = 0x80 then .error (.message himemerror)
    else .ok ({ l with highmem := if cx = 0 then ax else cx }.print himemsuccess)

/-- `setup_ps2`, which tests nothing. -/
def setupPs2 (l : Loader) : Loader := { l with ps2 := 0xA7 :: l.ps2 }.print ps2good

/-- From the end of `kernel_load` to the jump to `switch_pm`. -/
def afterLoad (fw : Firmware) (l : Loader) : Except Hang Loader := do
  let l ← (l.print loadsuccess).getHimem fw
  .ok (l.setupPs2.print switchpm)

/-- From `start` to that jump. -/
def start (fw : Firmware) (l : Loader) : Except Hang Loader := do
  let l := { l with loading := { l.loading with bootdrive := l.loading.regs.dl } }.print boot
  let l ← l.checkLowmem fw
  let l ← l.enableA20.load fw
  l.afterLoad fw

end Loader

/-! ## Protected mode -/

/-- `gdt_begin`: the null descriptor, `gdt_data` and `gdt_code`. -/
def gdt : List UInt8 :=
  [0, 0, 0, 0, 0, 0, 0, 0] ++
  [0xff, 0xff, 0, 0, 0, 0b10010010, 0b11001111, 0] ++
  [0xff, 0xff, 0, 0, 0, 0b10011010, 0b11001111, 0]

/-- A segment of code or data, as the processor reads its descriptor. -/
structure Segment where
  base : Nat
  /-- The offset of its last byte. -/
  limit : Nat
  ring : Nat
  executable : Bool
  /-- Code that can be read, or data that can be written. -/
  access : Bool
  /-- 32-bit. -/
  big : Bool
  deriving DecidableEq, Repr

/-- The segment a selector of the table stands for. The null selector, one past
the table or of a local table, and a descriptor that is not present or not of a
segment stand for none. -/
def segment? (table : List UInt8) (selector : UInt16) : Option Segment :=
  match (table.drop (8 * (selector >>> 3).toNat)).take 8 with
  | [limit₀, limit₁, base₀, base₁, base₂, access, flags, base₃] =>
    let limit := limit₀.toNat + 2 ^ 8 * limit₁.toNat + 2 ^ 16 * (flags &&& 0xF).toNat
    if selector >>> 3 = 0 ∨ selector &&& 0x4 ≠ 0 ∨ access &&& 0x90 ≠ 0x90 then none
    else some {
      base := base₀.toNat + 2 ^ 8 * base₁.toNat + 2 ^ 16 * base₂.toNat + 2 ^ 24 * base₃.toNat
      limit := if flags &&& 0x80 = 0 then limit else 2 ^ 12 * limit + 0xFFF
      ring := ((access >>> 5) &&& 0x3).toNat
      executable := access &&& 0x8 ≠ 0
      access := access &&& 0x2 ≠ 0
      big := flags &&& 0x40 ≠ 0 }
  | _ => none

/-- All of memory, for the kernel. -/
def flat (executable : Bool) : Segment := ⟨0, 0xFFFFFFFF, 0, executable, true, true⟩

/-- The machine as `kernel_main` is called. -/
structure Handover where
  cpu : Cpu
  /-- `ds`, `es`, `fs`, `gs` and `ss`. -/
  segments : UInt16
  cr0 : UInt32
  gdt : List UInt8
  /-- The system control port. -/
  control : UInt8

/-- The BIOS after `n` calls of `int 0x13`. -/
def Bios.after (bios : Bios) (n : Nat) : Bios := { bios with fails := fun k => bios.fails (n + k) }

namespace Boot

section

variable {bios : Bios} {s : Boot} {n k : Nat} {rss : List (List Regs)}

end

end Boot

/-! ## What is loaded -/

/-- The BIOS finds this much memory from 1 MiB on, in KiB: in `cx`, or in `ax` if
`cx` is zero. -/
def Firmware.Finds (fw : Firmware) (high : UInt16) : Prop := ∃ ax cx, fw.himem = some (ax, cx) ∧
  (ax >>> 8).toUInt8 ≠ 0x86 ∧ (ax >>> 8).toUInt8 ≠ 0x80 ∧ high = if cx = 0 then ax else cx

/-- As the BIOS enters it: no sector is read yet, and `es` is zero. -/
structure Loader.Fresh (l : Loader) : Prop extends l.loading.Entered where
  es : l.loading.regs.es = 0

/-- The sectors up to `TOTALSECTORS` in memory, behind the boot sector. -/
def InMemory (image : Nat → Nat → UInt8) (memory : Nat → UInt8) : Prop :=
  ∀ n, 1 ≤ n → n ≤ TOTALSECTORS.toNat → ∀ j < 512, memory (0x7C00 + 512 * n + j) = image n j

/-- What `kernel_main` is called with. -/
structure Handed (image : Nat → Nat → UInt8) (drive : UInt8) (low high : UInt16) (ret : UInt32) (h : Handover) :
    Prop where
  /-- The arguments, in their order. -/
  stack : h.cpu.Has [ret, drive.toUInt32, low.toUInt32, high.toUInt32]
  disabled : checkInterruptsEnabled h.cpu.eflags = false
  mode : h.cr0 &&& 0x1 = 0x1
  /-- The selector that the gates of `interrupts_init` have. -/
  selector : h.cpu.cs = KERNEL_SELECTOR
  code : segment? h.gdt h.cpu.cs = some (flat true)
  data : segment? h.gdt h.segments = some (flat false)
  a20 : h.control &&& 0x2 = 0x2
  loaded : InMemory image h.cpu.mem.load8

section

variable {fw : Firmware} {l : Loader} {image : Nat → Nat → UInt8} {drive : UInt8} {low high : UInt16} {c : Cpu}
  {cr0 main ret : UInt32}

namespace Loader

/-- The loader at its jump to `switch_pm`. -/
def done (high : UInt16) (l : Loader) : Loader :=
  ({ l.print loadsuccess with highmem := high }.print himemsuccess).setupPs2.print switchpm

end Loader

end

end Ssmos

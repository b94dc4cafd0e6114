/-
The kernel's loading from disk (`boot/boot.asm`, 16-bit): `kernel_load`,
`lba_chs`, `read_disk` and `print_bios` on the registers they use.

The BIOS is a parameter: the disk it reads, the calls of `int 0x13` that fail,
and what its functions other than reading a sector do. The variables of the
boot sector are fields: the sectors are loaded from `0x8000` on, above them.
-/

namespace Ssmos

/-! ## The machine -/

/-- The registers a disk request is made of. -/
structure Regs where
  ah : UInt8
  al : UInt8
  bx : UInt16
  ch : UInt8
  cl : UInt8
  dh : UInt8
  dl : UInt8
  es : UInt16
  deriving DecidableEq, Repr

structure Boot where
  regs : Regs
  memory : Nat → UInt8
  bootdrive : UInt8
  currentSector : UInt16
  currentOffset : UInt16
  readAttempts : UInt8
  spt : UInt16
  numhd : UInt16
  sector : UInt8
  head : UInt8
  cyl : UInt8
  /-- The calls of `int 0x13` made so far. -/
  calls : Nat
  /-- The requests of the current `read_disk`, in order. -/
  requests : List Regs
  /-- The requests of each `read_disk` that returned, latest first. -/
  reads : List (List Regs)

structure Bios where
  /-- A byte of the sector at a drive, cylinder, head and sector number. -/
  disk : UInt8 → UInt8 → UInt8 → UInt8 → Nat → UInt8
  /-- The status of the `k`-th call of `int 0x13`, if that fails. -/
  fails : Nat → Option UInt8
  /-- What a request that does not read one sector does to memory. -/
  other : Regs → (Nat → UInt8) → Nat → UInt8
  /-- `cl` and `dh` as function `0x8` reports them. -/
  diskinfo : UInt8 × UInt8

def MAX_ATTEMPTS : UInt8 := 0x5
def TOTALSECTORS : UInt16 := 0x50
def SECTORSIZE : UInt16 := 0x020

/-- The string at `readerror`, without its end. -/
def readerror : List UInt8 :=
  [0x0a, 0x0d] ++ "Disk read error!".toUTF8.toList ++ [0x0a, 0x0d]

namespace Boot

/-- `ES:BX`. -/
def target (r : Regs) : Nat := r.es.toNat * 16 + r.bx.toNat

/-- A sector, read to `ES:BX`. -/
def readSector (bios : Bios) (r : Regs) (memory : Nat → UInt8) : Nat → UInt8 := fun a =>
  if target r ≤ a ∧ a < target r + 512 then bios.disk r.dl r.ch r.dh r.cl (a - target r) else memory a

/-- `int 0x13`, and whether it sets the carry flag. -/
def int13 (bios : Bios) (s : Boot) : Bool × Boot :=
  let s' := { s with calls := s.calls + 1, requests := s.requests ++ [s.regs] }
  match bios.fails s.calls with
  | some status => (true, { s' with regs := { s.regs with ah := status } })
  | none =>
    let memory :=
      if s.regs.ah = 0x2 ∧ s.regs.al = 0x1 then readSector bios s.regs s.memory
      else bios.other s.regs s.memory
    (false, { s' with memory := memory, regs := { s.regs with ah := 0x0 } })

/-- `_char`: each char is printed from `al`, by an `int 0x10` that keeps registers. -/
def charLoop : List UInt8 → Boot → Boot
  | [], s => s
  | c :: cs, s => charLoop cs { s with regs := { s.regs with al := c } }

/-- `print_bios`. That `bx` walks along the string is left out: it is set before
the call, and every caller here pops or sets it afterwards. -/
def printBios (text : List UInt8) (s : Boot) : Boot :=
  charLoop text { s with regs := { s.regs with ah := 0x0e } }

/-- `disk_read`, with the tries left: `READ_ATTEMPTS` allows no more than
`MAX_ATTEMPTS + 1`. It does not return if they are used up. -/
def diskRead (bios : Bios) : Nat → Boot → Option Boot
  | 0, _ => none
  | n + 1, s =>
    let (carry, s) := int13 bios s
    if carry then
      let s := printBios readerror s
      let s := { s with readAttempts := s.readAttempts + 1 }
      if s.readAttempts.toInt8 ≤ MAX_ATTEMPTS.toInt8 then diskRead bios n s else none
    else some s

def readDisk (bios : Bios) (s : Boot) : Option Boot := do
  let s ← diskRead bios (MAX_ATTEMPTS.toNat + 1) { s with readAttempts := 0x0, requests := [] }
  return { s with reads := s.requests :: s.reads }

/-- `get_diskinfo`. The registers are popped again. -/
def getDiskinfo (bios : Bios) (s : Boot) : Boot :=
  { s with numhd := (bios.diskinfo.2 + 1).toUInt16, spt := (bios.diskinfo.1 &&& 0x3F).toUInt16 }

/-- `lba_chs` of the sector in `ax`; `div` faults on zero. `bx` is clobbered. -/
def lbaChs (lba : UInt16) (s : Boot) : Option Boot :=
  if s.spt = 0 ∨ s.numhd = 0 then none
  else some { s with
    regs := { s.regs with bx := lba / s.spt }
    sector := (lba % s.spt).toUInt8 + 1
    head := (lba / s.spt % s.numhd).toUInt8
    cyl := (lba / s.spt / s.numhd).toUInt8 }

/-- One sector of `kernel_load`. -/
def loadSector (bios : Bios) (s : Boot) : Option Boot := do
  let s := { s with regs := { s.regs with es := s.currentOffset } }
  let s ← lbaChs s.currentSector s
  let s := { s with regs := { s.regs with
    ah := 0x2, bx := 0x0, al := 0x1, dl := s.bootdrive, ch := s.cyl &&& 0xFF, dh := s.head, cl := s.sector } }
  let s ← readDisk bios s
  return { s with
    currentOffset := s.currentOffset + SECTORSIZE
    currentSector := s.currentSector + 1 }

/-- The loop of `kernel_load`, with the turns it is given. -/
def loadLoop (bios : Bios) : Nat → Boot → Option Boot
  | 0, _ => none
  | n + 1, s => do
    let s ← loadSector bios s
    if s.currentSector.toInt16 ≤ TOTALSECTORS.toInt16 then loadLoop bios n s else some s

/-- `kernel_load`, after `get_diskinfo`. -/
def kernelLoad (bios : Bios) (s : Boot) : Option Boot :=
  loadLoop bios TOTALSECTORS.toNat (getDiskinfo bios s)

end Boot

end Ssmos

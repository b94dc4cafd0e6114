/-
The kernel heap (`kernel/memory.c`) and the system-call wrappers of the
library that reach it (`lib/system.c`).

The list of blocks is in band: a `struct memory_header` of four words sits in
memory before each block's data, and every function here reads and writes it
there. A loop carries a bound of `2 ^ 32` turns, the number of pointers there
are: a search that has not ended by then visits a header twice in a memory it
does not change, so in C it never ends, and here it is `Stop.spin`.
-/
import Ssmos.Base.Mem

namespace Ssmos

/-- Why a call does not return. -/
inductive Stop
  /-- `haltdump(msg, err)`. -/
  | haltdump (msg : String) (err : Int)
  /-- A loop that never ends. -/
  | spin
  /-- The machine is reset. -/
  | reset
  deriving DecidableEq, Repr

/-- `lib/signal.h`. -/
def ERR_OUT_OF_MEMORY : Int := 2

def NULL : Nat := 0

/-- The turns of a loop over pointers. -/
def loopBound : Nat := 2 ^ 32

/-- What an `unsigned` reads as once it is an `int`. -/
def toInt (n : Nat) : Int := if wrap n < 2 ^ 31 then wrap n else (wrap n : Int) - 2 ^ 32

/-! ## The block headers -/

def HEAP_START : Nat := 0x00100000
def HEADER_SIZE : Nat := 16
def SPLIT_THRESHOLD : Nat := 4

namespace Mem

/-! The fields of the `struct memory_header` at `b`. -/

def nextPtr (m : Mem) (b : Nat) : Nat := m.load32 b
def prevPtr (m : Mem) (b : Nat) : Nat := m.load32 (b + 4)
def blockSize (m : Mem) (b : Nat) : Nat := m.load32 (b + 8)
def isFree (m : Mem) (b : Nat) : Nat := m.load32 (b + 12)

def setNextPtr (m : Mem) (b v : Nat) : Mem := m.store32 b v
def setPrevPtr (m : Mem) (b v : Nat) : Mem := m.store32 (b + 4) v
def setBlockSize (m : Mem) (b v : Nat) : Mem := m.store32 (b + 8) v
def setIsFree (m : Mem) (b : Nat) (v : Bool) : Mem := m.store32 (b + 12) v.toNat

end Mem

def toData (block : Nat) : Nat := wrap (block + HEADER_SIZE)

/-- `data - HEADER_SIZE`, in 32 bits. -/
def toHeader (data : Nat) : Nat := wrap (data + (2 ^ 32 - HEADER_SIZE))

/-! ## Allocation -/

def splitblock (m : Mem) (block size : Nat) : Mem :=
  if wrap (size + HEADER_SIZE) > m.blockSize block ∨ m.isFree block = 0 then m
  else
    let newblock := wrap (block + HEADER_SIZE + size)
    let m := m.setIsFree newblock true
    let m := m.setPrevPtr newblock block
    let m := m.setNextPtr newblock (m.nextPtr block)
    let m := m.setBlockSize newblock (m.blockSize block + (2 ^ 32 - wrap (size + HEADER_SIZE)))
    let m := m.setNextPtr block newblock
    let m := m.setBlockSize block size
    m.setIsFree block false

/-- `while (size % 4 != 0) size++;` -/
def roundLoop : Nat → Nat → Nat
  | 0, size => size
  | n + 1, size => if size % 4 ≠ 0 then roundLoop n (wrap (size + 1)) else size

/-- The round-up loop: four turns are more than it ever takes. -/
def roundUp (size : Nat) : Nat := roundLoop 4 size

/-- The search loop of `kmalloc`, from the header at `newptr`. -/
def kmallocLoop : Nat → Mem → Nat → Nat → Except Stop Nat
  | 0, _, _, _ => .error .spin
  | n + 1, m, newptr, size =>
    if m.blockSize newptr < size ∨ m.isFree newptr = 0 then
      if m.nextPtr newptr = NULL then
        .error (.haltdump "Memory allocation error!" ERR_OUT_OF_MEMORY)
      else kmallocLoop n m (m.nextPtr newptr) size
    else .ok newptr

/-- Nothing has been allocated yet. -/
def untouched (m : Mem) : Prop := m.nextPtr HEAP_START = NULL ∧ m.isFree HEAP_START = 1

instance (m : Mem) : Decidable (untouched m) := inferInstanceAs (Decidable (_ ∧ _))

def kmalloc (m : Mem) (size : Nat) : Except Stop (Nat × Mem) :=
  let size := roundUp size
  if untouched m then
    .ok (toData HEAP_START, splitblock m HEAP_START size)
  else do
    let newptr ← kmallocLoop loopBound m HEAP_START size
    if m.blockSize newptr ≥ wrap (size + HEADER_SIZE + SPLIT_THRESHOLD) then
      .ok (toData newptr, splitblock m newptr size)
    else
      .ok (toData newptr, m.setIsFree newptr false)

def kfree (m : Mem) (ptr : Nat) : Mem := m.setIsFree (toHeader ptr) true

/-- The loop of `kmemcpy`, lowest byte first. -/
def kmemcpy (m : Mem) (dest src : Nat) : Nat → Mem
  | 0 => m
  | i + 1 =>
    let m := kmemcpy m dest src i
    m.store8 (dest + i) (m.load8 (src + i))

def kmemset (m : Mem) (dest : Nat) (c : UInt8) : Nat → Mem
  | 0 => m
  | i + 1 => (kmemset m dest c i).store8 (dest + i) c

def krealloc (m : Mem) (ptr newsz : Nat) : Except Stop (Nat × Mem) :=
  let block := toHeader ptr
  if m.blockSize block < newsz then do
    let (newptr, m) ← kmalloc m newsz
    let m := kmemcpy m newptr ptr (m.blockSize block)
    .ok (newptr, kfree m ptr)
  else if m.blockSize block > newsz then .ok (ptr, m)
  else .ok (ptr, m)

/-! ## Statistics -/

/-- The loop of the statistics functions: over the blocks from `blockptr`, add
what `f` gives for each to an `int`. -/
def sumBlocks (f : Mem → Nat → Nat) : Nat → Mem → Nat → Nat → Except Stop Nat
  | 0, _, _, _ => .error .spin
  | n + 1, m, blockptr, acc =>
    if blockptr = NULL then .ok acc
    else sumBlocks f n m (m.nextPtr blockptr) (wrap (acc + f m blockptr))

def heapSum (f : Mem → Nat → Nat) (m : Mem) : Except Stop Int :=
  (sumBlocks f loopBound m HEAP_START 0).map toInt

def totalBlocks (m : Mem) : Except Stop Int := heapSum (fun _ _ => 1) m
def freeBlocks (m : Mem) : Except Stop Int := heapSum (fun m b => if m.isFree b = 1 then 1 else 0) m
def usedBlocks (m : Mem) : Except Stop Int := heapSum (fun m b => if m.isFree b = 0 then 1 else 0) m
def freeMemory (m : Mem) : Except Stop Int :=
  heapSum (fun m b => if m.isFree b = 1 then m.blockSize b else 0) m
def usedMemory (m : Mem) : Except Stop Int :=
  heapSum (fun m b => if m.isFree b = 0 then m.blockSize b else 0) m

/-- The headers a walk along `next_ptr` from `blockptr` visits. -/
def walk : Nat → Mem → Nat → Except Stop (List Nat)
  | 0, _, _ => .error .spin
  | n + 1, m, blockptr =>
    if blockptr = NULL then .ok []
    else (walk n m (m.nextPtr blockptr)).map (blockptr :: ·)

/-- The headers of the heap, from `HEAP_START` on. -/
def headers (m : Mem) : Except Stop (List Nat) := walk loopBound m HEAP_START

/-! ## The library's wrappers -/

/-- `while (ptr == NULL)` around the system call. -/
def retry (call : Mem → Except Stop (Nat × Mem)) : Nat → Mem → Except Stop (Nat × Mem)
  | 0, _ => .error .spin
  | n + 1, m => do
    let (ptr, m) ← call m
    if ptr = NULL then retry call n m else .ok (ptr, m)

def malloc (m : Mem) (size : Nat) : Except Stop (Nat × Mem) := retry (kmalloc · size) loopBound m
def realloc (m : Mem) (ptr newsz : Nat) : Except Stop (Nat × Mem) :=
  retry (krealloc · ptr newsz) loopBound m
def free (m : Mem) (ptr : Nat) : Mem := kfree m ptr

end Ssmos

/-
The linked-list library (`lib/list.c`), over the kernel heap: a node is the
three words of a `struct element` in a block `malloc` returned. An `int` index
is an integer, and the `int` counters are 32-bit words read as integers. Then
the system log that is kept in such a list (`kernel/debug.c`), and the heap's
initialization, which logs through it (`memory_init` of `kernel/memory.c`).
-/
import Ssmos.Memory
import Ssmos.Base.Preserves

namespace Ssmos

/-- `sizeof(struct element)`. -/
def ELEMENT_SIZE : Nat := 12

namespace Mem

/-! The fields of the `struct element` at `p`. -/

def value (m : Mem) (p : Nat) : Nat := m.load32 p
def next (m : Mem) (p : Nat) : Nat := m.load32 (p + 4)
def prev (m : Mem) (p : Nat) : Nat := m.load32 (p + 8)

def setValue (m : Mem) (p v : Nat) : Mem := m.store32 p v
def setNext (m : Mem) (p v : Nat) : Mem := m.store32 (p + 4) v
def setPrev (m : Mem) (p v : Nat) : Mem := m.store32 (p + 8) v

end Mem

def listNew (m : Mem) (initVal : Nat) : Except Stop (Nat × Mem) := do
  let (newlist, m) ← malloc m ELEMENT_SIZE
  if newlist = NULL then .ok (NULL, m)
  else
    let m := m.setValue newlist initVal
    let m := m.setNext newlist NULL
    .ok (newlist, m.setPrev newlist NULL)

/-! ## Walking a list -/

/-- `while (list->f != NULL) list = list->f;` -/
def lastAlong (f : Mem → Nat → Nat) : Nat → Mem → Nat → Except Stop Nat
  | 0, _, _ => .error .spin
  | n + 1, m, list => if f m list ≠ NULL then lastAlong f n m (f m list) else .ok list

def getFirst (m : Mem) (list : Nat) : Except Stop Nat :=
  if list = NULL then .ok NULL else lastAlong Mem.prev loopBound m list

def getLast (m : Mem) (list : Nat) : Except Stop Nat :=
  if list = NULL then .ok NULL else lastAlong Mem.next loopBound m list

/-- `while (ptr->f != NULL) { ptr = ptr->f; c++; }` -/
def countAlong (f : Mem → Nat → Nat) : Nat → Mem → Nat → Nat → Except Stop Nat
  | 0, _, _, _ => .error .spin
  | n + 1, m, ptr, c =>
    if f m ptr ≠ NULL then countAlong f n m (f m ptr) (wrap (c + 1)) else .ok c

def listCount (m : Mem) (list : Nat) : Except Stop Int :=
  if list = NULL then .ok 0
  else do
    let c ← countAlong Mem.prev loopBound m list 1
    let c ← countAlong Mem.next loopBound m list c
    .ok (toInt c)

/-- The loop of `get_at`. -/
def getAtLoop : Nat → Mem → Nat → Int → Int → Int → Except Stop Nat
  | 0, _, _, _, _, _ => .error .spin
  | n + 1, m, list, i, index, max =>
    if i < index then
      if i + 1 > max ∨ m.next list = NULL then .ok NULL
      else getAtLoop n m (m.next list) (i + 1) index max
    else .ok list

def getAt (m : Mem) (list : Nat) (index : Int) : Except Stop Nat :=
  if list = NULL ∨ index < 0 then .ok NULL
  else do
    if index > (← listCount m list) - 1 then return NULL
    let max := (← listCount m list) - 1
    getAtLoop loopBound m (← getFirst m list) 0 index max

/-! ## Changing a list -/

def listAdd (m : Mem) (list val : Nat) : Except Stop Mem :=
  if list = NULL then .ok m
  else do
    let list ← getLast m list
    let (newelem, m) ← malloc m ELEMENT_SIZE
    let m := m.setValue newelem val
    let m := m.setPrev newelem list
    let m := m.setNext list newelem
    .ok (m.setNext newelem NULL)

def listAddat (m : Mem) (list val : Nat) (index : Int) : Except Stop Mem :=
  if list = NULL ∨ index < 0 then .ok m
  else do
    if index > (← listCount m list) - 1 then return m
    let prev ← getAt m list index
    let next := m.next prev
    let (newelem, m) ← malloc m ELEMENT_SIZE
    let m := m.setValue newelem val
    let m := m.setPrev newelem prev
    let m := m.setNext newelem next
    let m := m.setNext prev newelem
    .ok (if next ≠ NULL then m.setPrev next newelem else m)

def listAddfirst (m : Mem) (list val : Nat) : Except Stop Mem :=
  if list = NULL then .ok m
  else do
    let list ← getFirst m list
    let (newelem, m) ← malloc m ELEMENT_SIZE
    let m := m.setValue newelem val
    let m := m.setPrev newelem NULL
    .ok (m.setNext newelem list)

def listRemove (m : Mem) (item : Nat) : Mem :=
  if item = NULL then m
  else
    let prev := m.prev item
    let next := m.next item
    let m := if prev ≠ NULL then m.setNext prev next else m
    let m := if next ≠ NULL then m.setPrev next prev else m
    free m item

def listRemoveat (m : Mem) (list : Nat) (index : Int) : Except Stop Mem :=
  if list = NULL ∨ index < 0 then .ok m
  else do
    if index > (← listCount m list) - 1 then return m
    if (← getAt m list index) = NULL then return m
    .ok (listRemove m (← getAt m list index))

def listRemovelast (m : Mem) (list : Nat) : Except Stop Mem :=
  if list = NULL then .ok m
  else do
    .ok (listRemove m (← getLast m list))

/-- The loop of `list_delete`. -/
def listDeleteLoop : Nat → Mem → Nat → Except Stop Mem
  | 0, _, _ => .error .spin
  | n + 1, m, list =>
    if m.next list ≠ NULL then
      let list := m.next list
      listDeleteLoop n (listRemove m (m.prev list)) list
    else .ok (listRemove m list)

def listDelete (m : Mem) (list : Nat) : Except Stop Mem :=
  if list = NULL then .ok m
  else do
    listDeleteLoop loopBound m (← getFirst m list)

/-! ## The system log -/

/-- `klog`, with the global `systemlog` it reads and may set. -/
def klog (m : Mem) (systemlog msg : Nat) : Except Stop (Nat × Mem) :=
  if systemlog = NULL then listNew m msg
  else do
    .ok (systemlog, ← listAdd m systemlog msg)

/-- The root header `memory_init` writes: one free block over the whole heap. -/
def initRoot (m : Mem) (heapsize : Nat) : Mem :=
  let m := m.setNextPtr HEAP_START NULL
  let m := m.setPrevPtr HEAP_START NULL
  let m := m.setBlockSize HEAP_START (heapsize * 1024 + (2 ^ 32 - HEADER_SIZE))
  m.setIsFree HEAP_START true

/-- `memory_init`, at boot: `systemlog` is still `NULL`. `msg` is the address
of the string it logs; the result is the new `systemlog`. -/
def memoryInit (m : Mem) (heapsize msg : Nat) : Except Stop (Nat × Mem) :=
  klog (initRoot m heapsize) NULL msg

end Ssmos

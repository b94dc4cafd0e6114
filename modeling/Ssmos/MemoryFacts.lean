/-
The allocator refines `Ssmos.Heap`: a memory whose in-band headers represent a
heap (`Rep`) still does after `kmalloc`, `krealloc` or `kfree`, for the heap
those operations make of it, and the call wrote only headers and, when
`krealloc` moves a block, the copy.
-/
import Ssmos.Blocks
import Ssmos.Base.Preserves

namespace Ssmos

/-! ## Rounding -/

theorem roundLoop_eq {n size : Nat} (h : size ≤ 2 ^ 32 - 4) (hn : round4 size ≤ size + n) :
    roundLoop n size = round4 size := by
  induction n generalizing size with
  | zero =>
    have := le_round4 size
    simp only [roundLoop]
    omega
  | succ n ih =>
    unfold round4 at hn
    simp only [roundLoop]
    split
    · next h0 =>
      rw [wrap_of_lt (by omega), ih (by omega) (by unfold round4; omega)]
      unfold round4; omega
    · unfold round4; omega

theorem roundUp_eq {size : Nat} (h : size ≤ 2 ^ 32 - 4) : roundUp size = round4 size :=
  roundLoop_eq h (by unfold round4; omega)

/-- The sizes whose rounding wraps to zero. -/
theorem roundUp_wraps {size : Nat} (h : 2 ^ 32 - 4 < size) (hlt : size < 2 ^ 32) : roundUp size = 0 := by
  rcases (by omega : size = 2 ^ 32 - 3 ∨ size = 2 ^ 32 - 2 ∨ size = 2 ^ 32 - 1) with rfl | rfl | rfl <;> rfl

/-! ## Headers in memory -/

/-- The header at `b.addr` holds `b`, with `next` as its forward link. -/
structure HeaderAt (m : Mem) (b : Blk) (next : Nat) : Prop where
  next : m.nextPtr b.addr = next
  prev : m.prevPtr b.addr = b.prev
  size : m.blockSize b.addr = b.size
  free : m.isFree b.addr = b.free.toNat

/-- The address of the first block of a segment that `next` follows. -/
def headAddr : List Blk → Nat → Nat
  | [], next => next
  | b :: _, _ => b.addr

/-- The headers of the segment `bs`, linked in order, the last one to `next`. -/
def Encodes (m : Mem) (next : Nat) : List Blk → Prop
  | [] => True
  | b :: bs => HeaderAt m b (headAddr bs next) ∧ Encodes m next bs

@[simp] theorem headAddr_cons (b : Blk) (bs : List Blk) (next : Nat) : headAddr (b :: bs) next = b.addr := rfl

theorem headAddr_append (bs cs : List Blk) (next : Nat) :
    headAddr (bs ++ cs) next = headAddr bs (headAddr cs next) := by
  cases bs <;> rfl

theorem Encodes.append {m : Mem} {next : Nat} {bs cs : List Blk} :
    Encodes m next (bs ++ cs) ↔ Encodes m (headAddr cs next) bs ∧ Encodes m next cs := by
  induction bs with
  | nil => simp [Encodes]
  | cons b bs ih => simp only [List.cons_append, Encodes, headAddr_append, ih, and_assoc]

/-- Headers rewritten where they stand. -/
theorem Encodes.map {m m' : Mem} {next : Nat} {f : Blk → Blk} {bs : List Blk}
    (ha : ∀ b, (f b).addr = b.addr)
    (hf : ∀ b ∈ bs, ∀ next, HeaderAt m b next → HeaderAt m' (f b) next) (h : Encodes m next bs) :
    Encodes m' next (bs.map f) := by
  induction bs with
  | nil => trivial
  | cons b bs ih =>
    refine ⟨?_, ih (fun c hc => hf c (by simp [hc])) h.2⟩
    have hhead : headAddr (bs.map f) next = headAddr bs next := by
      cases bs <;> simp [headAddr, ha]
    rw [hhead]
    exact hf b (by simp) _ h.1

theorem HeaderAt.frame {m m' : Mem} {b : Blk} {next : Nat} {S : Set Nat} (h : HeaderAt m b next)
    (hw : Wrote m m' S) (hlt : b.addr + 16 ≤ 2 ^ 32)
    (hs : ∀ x, b.addr ≤ x → x < b.addr + 16 → x ∉ S) : HeaderAt m' b next where
  next := (hw.load32_eq (by omega) fun x _ _ => hs x (by omega) (by omega)).trans h.next
  prev := (hw.load32_eq (by omega) fun x _ _ => hs x (by omega) (by omega)).trans h.prev
  size := (hw.load32_eq (by omega) fun x _ _ => hs x (by omega) (by omega)).trans h.size
  free := (hw.load32_eq (by omega) fun x _ _ => hs x (by omega) (by omega)).trans h.free

theorem Encodes.frame {m m' : Mem} {next : Nat} {bs : List Blk} {S : Set Nat} (h : Encodes m next bs)
    (hw : Wrote m m' S) (hlt : ∀ b ∈ bs, b.addr + 16 ≤ 2 ^ 32)
    (hs : ∀ b ∈ bs, ∀ x, b.addr ≤ x → x < b.addr + 16 → x ∉ S) : Encodes m' next bs := by
  have hmap : Encodes m' next (bs.map id) := h.map (fun _ => rfl) fun b hb next hh =>
    hh.frame hw (hlt b hb) (hs b hb)
  rwa [List.map_id] at hmap

theorem HeaderAt.setIsFree {m : Mem} {b : Blk} {next : Nat} (h : HeaderAt m b next) (f : Bool)
    (hlt : b.addr + 16 ≤ 2 ^ 32) : HeaderAt (m.setIsFree b.addr f) { b with free := f } next := by
  have hne : ∀ a, b.addr ≤ a → a + 4 ≤ b.addr + 12 → (m.setIsFree b.addr f).load32 a = m.load32 a :=
    fun a _ _ => Mem.load32_store32_ne (by omega) (by omega) (by omega)
  exact ⟨(hne b.addr (by omega) (by omega)).trans h.next,
    (hne (b.addr + 4) (by omega) (by omega)).trans h.prev,
    (hne (b.addr + 8) (by omega) (by omega)).trans h.size,
    (Mem.load32_store32_same _ _ _).trans (by cases f <;> rfl)⟩

theorem wrote_setIsFree (m : Mem) {b : Nat} (f : Bool) (hlt : b + 16 ≤ 2 ^ 32) :
    Wrote m (m.setIsFree b f) (Set.Ico b (b + 16)) :=
  Wrote.store32_Ico (by omega) fun x hx => by
    simp only [Set.mem_Ico] at hx ⊢; omega

/-! ## Splitting a block -/

section Split

variable {m : Mem} {b : Blk} {next s : Nat}

/-- What `splitblock` does to a free block with room for the new header. -/
theorem splitblock_eq (h : HeaderAt m b next) (hf : b.free = true) (hs : s + 16 ≤ b.size)
    (hlt : b.addr + 16 + b.size < 2 ^ 32) :
    splitblock m b.addr s =
      ((((((m.setIsFree (b.addr + 16 + s) true).setPrevPtr (b.addr + 16 + s) b.addr).setNextPtr
        (b.addr + 16 + s) next).setBlockSize (b.addr + 16 + s) (b.size + (2 ^ 32 - (s + 16)))).setNextPtr
        b.addr (b.addr + 16 + s)).setBlockSize b.addr s).setIsFree b.addr false := by
  have hfree : m.isFree b.addr ≠ 0 := by rw [h.free, hf]; decide
  have hsz : wrap (s + HEADER_SIZE) = s + 16 := wrap_of_lt (by simp only [HEADER_SIZE]; omega)
  have hnb : wrap (b.addr + HEADER_SIZE + s) = b.addr + 16 + s :=
    wrap_of_lt (by simp only [HEADER_SIZE]; omega)
  unfold splitblock
  rw [hsz, hnb, h.size, if_neg (by omega)]
  simp only [Mem.setIsFree, Mem.setPrevPtr, Mem.setNextPtr, Mem.setBlockSize, Mem.nextPtr, Mem.blockSize]
  -- The two reads of the old header come before anything is written to it.
  have hn : (((m.store32 (b.addr + 16 + s + 12) true.toNat).store32 (b.addr + 16 + s + 4) b.addr).load32
      b.addr) = next := by
    rw [Mem.load32_store32_ne (by omega) (by omega) (by omega),
      Mem.load32_store32_ne (by omega) (by omega) (by omega)]
    exact h.next
  have hsize : ((((m.store32 (b.addr + 16 + s + 12) true.toNat).store32 (b.addr + 16 + s + 4)
      b.addr).store32 (b.addr + 16 + s) next).load32 (b.addr + 8)) = b.size := by
    rw [Mem.load32_store32_ne (by omega) (by omega) (by omega),
      Mem.load32_store32_ne (by omega) (by omega) (by omega),
      Mem.load32_store32_ne (by omega) (by omega) (by omega)]
    exact h.size
  rw [hn, hsize]

theorem splitblock_encodes (h : HeaderAt m b next) (hf : b.free = true) (hs : s + 16 ≤ b.size)
    (hlt : b.addr + 16 + b.size < 2 ^ 32) (hnext : next < 2 ^ 32) :
    Encodes (splitblock m b.addr s) next (cut s b) := by
  have hprev : b.prev < 2 ^ 32 := h.prev ▸ Mem.load32_lt _ _
  rw [splitblock_eq h hf hs hlt]
  simp only [Mem.setIsFree, Mem.setPrevPtr, Mem.setNextPtr, Mem.setBlockSize]
  refine ⟨⟨?_, ?_, ?_, ?_⟩, ⟨?_, ?_, ?_, ?_⟩, trivial⟩ <;>
    simp only [Mem.nextPtr, Mem.prevPtr, Mem.blockSize, Mem.isFree, headAddr]
  · simp (disch := omega) only [Mem.load32_store32_same, Mem.load32_store32_ne, wrap_of_lt]
  · simp (disch := omega) only [Mem.load32_store32_ne]
    exact h.prev
  · simp (disch := omega) only [Mem.load32_store32_same, Mem.load32_store32_ne, wrap_of_lt]
  · simp only [Mem.load32_store32_same]; rfl
  · simp (disch := omega) only [Mem.load32_store32_same, Mem.load32_store32_ne, wrap_of_lt]
  · simp (disch := omega) only [Mem.load32_store32_same, Mem.load32_store32_ne, wrap_of_lt]
  · simp (disch := omega) only [Mem.load32_store32_same, Mem.load32_store32_ne]
    unfold wrap; omega
  · simp (disch := omega) only [Mem.load32_store32_same, Mem.load32_store32_ne]; rfl

/-- The bytes of the headers of `bs`. -/
def headerBytes (bs : List Blk) : Set Nat := { x | ∃ b ∈ bs, b.addr ≤ x ∧ x < b.addr + 16 }

theorem splitblock_wrote (h : HeaderAt m b next) (hf : b.free = true) (hs : s + 16 ≤ b.size)
    (hlt : b.addr + 16 + b.size < 2 ^ 32) :
    Wrote m (splitblock m b.addr s) (headerBytes (cut s b)) := by
  have hold : ∀ x, b.addr ≤ x → x < b.addr + 16 → x ∈ headerBytes (cut s b) := fun x h₁ h₂ =>
    ⟨_, List.mem_cons_self, h₁, h₂⟩
  have hnew : ∀ x, b.addr + 16 + s ≤ x → x < b.addr + 16 + s + 16 → x ∈ headerBytes (cut s b) :=
    fun x h₁ h₂ => ⟨_, List.mem_cons_of_mem _ List.mem_cons_self, h₁, h₂⟩
  have store : ∀ {m a v}, a + 4 ≤ 2 ^ 32 → (∀ x, a ≤ x → x < a + 4 → x ∈ headerBytes (cut s b)) →
      Wrote m (m.store32 a v) (headerBytes (cut s b)) := fun ha hx =>
    Wrote.store32_Ico ha fun x hm => hx x hm.1 hm.2
  rw [splitblock_eq h hf hs hlt]
  exact ((((((store (by omega) fun x _ _ => hnew x (by omega) (by omega)).trans
    (store (by omega) fun x _ _ => hnew x (by omega) (by omega))).trans
    (store (by omega) fun x _ _ => hnew x (by omega) (by omega))).trans
    (store (by omega) fun x _ _ => hnew x (by omega) (by omega))).trans
    (store (by omega) fun x _ _ => hold x (by omega) (by omega))).trans
    (store (by omega) fun x _ _ => hold x (by omega) (by omega))).trans
    (store (by omega) fun x _ _ => hold x (by omega) (by omega))

end Split

/-! ## Representation -/

/-- The headers in `m` represent the heap `H`. -/
def Rep {heapsize : Nat} (m : Mem) (H : Heap heapsize) : Prop := Encodes m NULL H.blocks

/-- Nothing has been allocated from `H`. -/
def Heap.Fresh {heapsize : Nat} (H : Heap heapsize) : Prop := ∃ r, H.blocks = [r] ∧ r.free = true

def outOfMemory : Stop := .haltdump "Memory allocation error!" ERR_OUT_OF_MEMORY

section Refinement

variable {heapsize : Nat} {m m' : Mem} {H H' : Heap heapsize} {p q size : Nat}

theorem toData_eq {b : Blk} (hb : b ∈ H.blocks) : toData b.addr = b.data := by
  have := H.bounds hb
  simp only [toData, HEADER_SIZE, Blk.data]
  exact wrap_of_lt (by omega)

theorem toHeader_eq {b : Blk} (hb : b ∈ H.blocks) : toHeader b.data = b.addr := by
  have := H.bounds hb
  simp only [toHeader, HEADER_SIZE, Blk.data, wrap]
  omega

/-- The header of a block of a represented heap. -/
theorem Rep.header (hr : Rep m H) {b : Blk} {pre post : List Blk} (hH : H.blocks = pre ++ b :: post) :
    HeaderAt m b (headAddr post NULL) := by
  unfold Rep at hr
  rw [hH, Encodes.append] at hr
  exact hr.2.1

theorem Rep.header_root (hr : Rep m H) {b : Blk} {bs : List Blk} (hH : H.blocks = b :: bs) :
    HeaderAt m b (headAddr bs NULL) :=
  hr.header (show H.blocks = [] ++ b :: bs from hH)

theorem Rep.header_mem (hr : Rep m H) {b : Blk} (hb : b ∈ H.blocks) : ∃ next, HeaderAt m b next := by
  obtain ⟨pre, post, hH⟩ := List.append_of_mem hb
  exact ⟨_, hr.header hH⟩

theorem Rep.blockSize_eq (hr : Rep m H) {b : Blk} (hb : b ∈ H.blocks) :
    m.blockSize (toHeader b.data) = b.size := by
  obtain ⟨_, hh⟩ := hr.header_mem hb
  rw [toHeader_eq hb, hh.size]

theorem headAddr_lt {post : List Blk} (h : ∀ b ∈ post, b ∈ H.blocks) :
    headAddr post NULL < 2 ^ 32 := by
  cases post with
  | nil => decide
  | cons b bs =>
    have := H.bounds (h b (by simp))
    simp only [headAddr_cons]
    omega

theorem untouched_iff (hr : Rep m H) : untouched m ↔ H.Fresh := by
  obtain ⟨r, bs, hb, ha⟩ := H.exists_root
  have hh := hr.header_root hb
  unfold untouched Heap.Fresh
  rw [← ha, hh.next, hh.free, hb]
  constructor
  · intro hx
    obtain ⟨hn, hf⟩ := hx
    cases bs with
    | nil => exact ⟨r, rfl, by cases h : r.free <;> simp_all⟩
    | cons c bs =>
      have := H.bounds (b := c) (by simp [hb])
      simp only [headAddr_cons, NULL] at hn
      omega
  · intro hx
    obtain ⟨r', he, hf⟩ := hx
    simp only [List.cons.injEq] at he
    obtain ⟨rfl, rfl⟩ := he
    exact ⟨rfl, by simp [hf]⟩

/-- A block rewritten as blocks that tile it, nothing else touched. -/
theorem Rep.replace (hr : Rep m H) {pre post ws : List Blk} {b : Blk} (hH : H.blocks = pre ++ b :: post)
    (hH' : H'.blocks = pre ++ (ws ++ post)) (ht : Tiles Blk.addr Blk.len b.addr ws (b.addr + b.len))
    (hw : Wrote m m' (headerBytes ws)) (he : Encodes m' (headAddr post NULL) ws) :
    Rep m' H' ∧ Wrote m m' (headerBytes H'.blocks) := by
  have hsub : ∀ c ∈ ws, c ∈ H'.blocks := fun c hc => by rw [hH']; simp [hc]
  have hmem : ∀ c, c ∈ pre ∨ c ∈ post → c ∈ H.blocks := fun c hc => by
    rw [hH]; simp only [List.mem_append, List.mem_cons]; tauto
  have hlt : ∀ c, c ∈ pre ∨ c ∈ post → c.addr + 16 ≤ 2 ^ 32 := fun c hc => by
    have := H.bounds (hmem c hc); omega
  have hb := H.bounds (b := b) (by rw [hH]; simp)
  have hin : ∀ x ∈ headerBytes ws, b.addr ≤ x ∧ x < b.addr + b.len := by
    intro x hs
    obtain ⟨c, hc, h₁, h₂⟩ := hs
    have := ht.bounds hc
    simp only [Blk.len] at this ⊢
    omega
  have hapart : ∀ c, c ∈ pre ∨ c ∈ post → ∀ x, c.addr ≤ x → x < c.addr + 16 → x ∉ headerBytes ws := by
    intro c hc x h₁ h₂ hx
    have hx := hin x hx
    obtain ⟨hbefore, hafter⟩ := (hH ▸ H.tiles).around
    rcases hc with hc | hc
    · have := hbefore c hc; simp only [Blk.len] at this; omega
    · have := hafter c hc; simp only [Blk.len] at this hx; omega
  unfold Rep at hr ⊢
  rw [hH, Encodes.append] at hr
  have hhead : headAddr (ws ++ post) NULL = b.addr := by
    cases ws with
    | nil => simp only [Tiles, Blk.len] at ht; omega
    | cons c cs => exact ht.1
  have hheaders : ∀ x ∈ headerBytes ws, x ∈ headerBytes H'.blocks := by
    intro x hs
    obtain ⟨c, hc, hx⟩ := hs
    exact ⟨c, hsub c hc, hx⟩
  refine ⟨?_, hw.mono hheaders⟩
  rw [hH', Encodes.append, Encodes.append, hhead]
  exact ⟨hr.1.frame hw (fun c hc => hlt c (.inl hc)) (fun c hc => hapart c (.inl hc)), he,
    hr.2.2.frame hw (fun c hc => hlt c (.inr hc)) (fun c hc => hapart c (.inr hc))⟩

/-! ## `kmalloc` -/

theorem fits_iff {b : Blk} {next s : Nat} (h : HeaderAt m b next) :
    ¬ (m.blockSize b.addr < s ∨ m.isFree b.addr = 0) ↔ b.fits s := by
  rw [h.size, h.free]
  unfold Blk.fits
  cases b.free <;> simp

/-- The search finds the first block that fits, or reaches the end and halts. -/
theorem kmallocLoop_eq {s : Nat} {bs : List Blk} : ∀ {n : Nat} {b : Blk}, bs.length < n →
    Encodes m NULL (b :: bs) → (∀ c ∈ bs, c.addr ≠ NULL) →
    kmallocLoop n m b.addr s =
      match firstFit s (b :: bs) with
      | none => .error outOfMemory
      | some (_, c, _) => .ok c.addr := by
  induction bs with
  | nil =>
    intro n b hn he _
    obtain ⟨n, rfl⟩ : ∃ k, n = k + 1 := ⟨n - 1, by omega⟩
    have hfit := fits_iff (s := s) he.1
    have hnext : m.nextPtr b.addr = NULL := he.1.next
    simp only [kmallocLoop, firstFit]
    by_cases hb : b.fits s
    · rw [if_neg (hfit.mpr hb), if_pos hb]
    · rw [if_pos (by rwa [← hfit, not_not] at hb), if_pos hnext, if_neg hb]
      rfl
  | cons c bs ih =>
    intro n b hn he hne
    obtain ⟨n, rfl⟩ : ∃ k, n = k + 1 := ⟨n - 1, by omega⟩
    have hfit := fits_iff (s := s) he.1
    have hnext : m.nextPtr b.addr = c.addr := he.1.next
    rw [firstFit]
    simp only [kmallocLoop]
    by_cases hb : b.fits s
    · rw [if_neg (hfit.mpr hb), if_pos hb]
    · rw [if_pos (by rwa [← hfit, not_not] at hb), hnext, if_neg (hne c (by simp)), if_neg hb,
        ih (by simp at hn; omega) he.2 fun d hd => hne d (by simp [hd])]
      cases firstFit s (c :: bs) <;> rfl

theorem kmalloc_search (hr : Rep m H) {s : Nat} : kmallocLoop loopBound m HEAP_START s =
    match firstFit s H.blocks with
    | none => .error outOfMemory
    | some (_, c, _) => .ok c.addr := by
  obtain ⟨r, bs, hb, ha⟩ := H.exists_root
  have hlen := H.length_lt
  unfold Rep at hr
  rw [hb] at hr hlen
  rw [hb, ← ha]
  refine kmallocLoop_eq (by simpa using Nat.lt_of_succ_lt hlen) hr fun c hc => ?_
  have := H.bounds (b := c) (by simp [hb, hc])
  simp only [NULL]
  omega

/-- A heap with no block for the request: `kmalloc` halts. -/
theorem kmalloc_halts (hr : Rep m H) (hu : ¬ untouched m) (hs : size ≤ 2 ^ 32 - 4)
    (h : H.malloc size = none) : kmalloc m size = .error outOfMemory := by
  have hfit : firstFit (round4 size) H.blocks = none :=
    firstFit_eq_none.mpr (Heap.malloc_eq_none.mp h)
  simp only [kmalloc, roundUp_eq hs, if_neg hu, kmalloc_search hr, hfit, Except.error_bind]

/-- **`kmalloc` is first-fit allocation**, on a heap that is not fresh: it
returns the block `Heap.malloc` takes and leaves the heap it leaves, writing
nothing but headers. -/
theorem kmalloc_refines (hr : Rep m H) (hu : ¬ untouched m) (hs : size ≤ 2 ^ 32 - 4)
    (h : H.malloc size = some (p, H')) :
    ∃ m', kmalloc m size = .ok (p, m') ∧ Rep m' H' ∧ Wrote m m' (headerBytes H'.blocks) := by
  obtain ⟨pre, b, post, hfit, rfl, hH'⟩ := Heap.malloc_eq_some.mp h
  obtain ⟨hH, ⟨hfree, hle⟩, -⟩ := firstFit_eq_some.mp hfit
  have hmem : b ∈ H.blocks := by rw [hH]; simp
  have hb := H.bounds hmem
  have hh := hr.header hH
  have hnext := headAddr_lt (H := H) fun c (hc : c ∈ post) => by rw [hH]; simp [hc]
  have hsum : wrap (round4 size + HEADER_SIZE + SPLIT_THRESHOLD) = round4 size + 20 :=
    wrap_of_lt (by simp only [HEADER_SIZE, SPLIT_THRESHOLD]; omega)
  simp only [kmalloc, roundUp_eq hs, if_neg hu, kmalloc_search hr, hfit, Except.ok_bind, hh.size, hsum,
    toData_eq hmem]
  unfold place at hH'
  by_cases hsplit : round4 size + 20 ≤ b.size
  · rw [if_pos hsplit] at hH' ⊢
    exact ⟨_, rfl, hr.replace hH hH' (cut_tiles (by omega))
      (splitblock_wrote hh hfree (by omega) (by omega))
      (splitblock_encodes hh hfree (by omega) (by omega) hnext)⟩
  · rw [if_neg hsplit] at hH' ⊢
    refine ⟨_, rfl, hr.replace hH hH' (by simp [Tiles, Blk.len]) ?_ ⟨hh.setIsFree false (by omega), trivial⟩⟩
    exact (wrote_setIsFree m false (by omega)).mono fun x hx => ⟨_, List.mem_cons_self, hx.1, hx.2⟩

/-- On a fresh heap `kmalloc` cuts the request off the one free block. -/
theorem kmalloc_fresh (hr : Rep m H) {r : Blk} (hH : H.blocks = [r]) (hf : r.free = true)
    (hs : size ≤ 2 ^ 32 - 4) (hfit : round4 size + 16 ≤ r.size) :
    ∃ (m' : Mem) (H' : Heap heapsize), kmalloc m size = .ok (r.data, m') ∧
      H'.blocks = cut (round4 size) r ∧ Rep m' H' ∧ Wrote m m' (headerBytes H'.blocks) := by
  have hmem : r ∈ H.blocks := by simp [hH]
  have hb := H.bounds hmem
  have hh : HeaderAt m r NULL := hr.header_root hH
  have ha : r.addr = HEAP_START := Heap.root_addr hH
  let H' := H.replace [] r [] (cut (round4 size) r) hH (cut_tiles hfit)
    (cut_aligned (round4_mod size) (H.aligned r hmem) hfit)
  have hH' : H'.blocks = cut (round4 size) r := by simp [H', Heap.replace]
  obtain ⟨hr', hw⟩ := hr.replace (show H.blocks = [] ++ r :: [] from hH)
    (show H'.blocks = [] ++ (cut (round4 size) r ++ []) from rfl) (cut_tiles hfit)
    (splitblock_wrote hh hf hfit (by omega)) (splitblock_encodes hh hf hfit (by omega) (by decide))
  refine ⟨_, H', ?_, hH', hr', hw⟩
  rw [ha]
  simp only [kmalloc, roundUp_eq hs, if_pos ((untouched_iff hr).mpr ⟨r, hH, hf⟩), ← ha, toData_eq hmem]

/-- What a `kmalloc` that returned did. -/
theorem kmalloc_ok (hr : Rep m H) (hu : ¬ untouched m) (hs : size ≤ 2 ^ 32 - 4)
    (h : kmalloc m size = .ok (p, m')) :
    ∃ H', H.malloc size = some (p, H') ∧ Rep m' H' ∧ Wrote m m' (headerBytes H'.blocks) := by
  cases hm : H.malloc size with
  | none => rw [kmalloc_halts hr hu hs hm] at h; cases h
  | some r =>
    obtain ⟨q, H'⟩ := r
    obtain ⟨m'', hk, hr', hw⟩ := kmalloc_refines hr hu hs hm
    rw [hk] at h
    cases h
    exact ⟨H', rfl, hr', hw⟩

/-! ## `kfree` -/

theorem kfree_refines (hr : Rep m H) {b : Blk} (hb : b ∈ H.blocks) :
    Rep (kfree m b.data) (H.release b.data) ∧ Wrote m (kfree m b.data) (headerBytes H.blocks) := by
  have hbb := H.bounds hb
  have hw := wrote_setIsFree m (b := b.addr) true (by omega)
  unfold kfree
  rw [toHeader_eq hb]
  refine ⟨hr.map (releaseBlk_addr _) fun c hc next hh => ?_,
    hw.mono fun x hx => ⟨b, hb, hx.1, hx.2⟩⟩
  have hcb := H.bounds hc
  unfold releaseBlk
  split
  · next hd =>
    obtain rfl := H.eq_of_data hc hb hd
    exact hh.setIsFree true (by omega)
  · next hd =>
    have := H.apart hb hc fun he => hd (Blk.data_inj.mpr he.symm)
    refine hh.frame hw (by omega) fun x h₁ h₂ hx => ?_
    simp only [Set.mem_Ico] at hx
    omega

/-! ## Copying -/

theorem kmemcpy_wrote {d s n : Nat} (hd : d + n ≤ 2 ^ 32) :
    Wrote m (kmemcpy m d s n) (Set.Ico d (d + n)) := by
  induction n with
  | zero => exact .refl _ _
  | succ n ih =>
    refine ((ih (by omega)).mono fun x hx => ?_).trans (.store8 ?_)
    · simp only [Set.mem_Ico] at hx ⊢; omega
    · rw [wrap_of_lt (by omega)]
      simp only [Set.mem_Ico]; omega

/-- What is not overwritten before it is read is copied: ranges that do not
overlap, and any range moved down. -/
theorem kmemcpy_load8 {d s n i : Nat} (hd : d + n ≤ 2 ^ 32) (hs : s + n ≤ 2 ^ 32)
    (hapart : d ≤ s ∨ s + n ≤ d) (hi : i < n) :
    (kmemcpy m d s n).load8 (d + i) = m.load8 (s + i) := by
  induction n with
  | zero => omega
  | succ n ih =>
    simp only [kmemcpy]
    by_cases hin : i = n
    · subst hin
      rw [Mem.load8_store8_same]
      refine (kmemcpy_wrote (by omega)).load8_eq fun hx => ?_
      rw [wrap_of_lt (by omega), Set.mem_Ico] at hx
      omega
    · rw [Mem.load8_store8_ne (by rw [wrap_of_lt (by omega), wrap_of_lt (by omega)]; omega)]
      exact ih (by omega) (by omega) (by omega) (by omega)

/-- Writes outside the headers leave the heap as it is. -/
theorem Rep.frame (hr : Rep m H) {S : Set Nat} (hw : Wrote m m' S)
    (hs : ∀ x ∈ headerBytes H.blocks, x ∉ S) : Rep m' H :=
  Encodes.frame hr hw (fun b hb => by have := H.bounds hb; omega)
    fun b hb x h₁ h₂ => hs x ⟨b, hb, h₁, h₂⟩

theorem Heap.data_not_headerBytes {b : Blk} (hb : b ∈ H.blocks) {x : Nat} (h₁ : b.data ≤ x)
    (h₂ : x < b.data + b.size) : x ∉ headerBytes H.blocks := fun ⟨_, hc, hx⟩ =>
  H.data_not_header hb hc h₁ h₂ hx

/-! ## `krealloc` -/

theorem krealloc_stays (hr : Rep m H) {b : Blk} (hb : b ∈ H.blocks) (h : ¬ b.size < size) :
    krealloc m b.data size = .ok (b.data, m) := by
  obtain ⟨_, hh⟩ := hr.header_mem hb
  simp only [krealloc, toHeader_eq hb, hh.size, if_neg h, ite_self]

/-- **`krealloc` is `Heap.realloc`** of the block at its pointer, and the
block's bytes are those of the block it moves to. -/
theorem krealloc_refines (hr : Rep m H) (hu : ¬ untouched m) {b : Blk} (hb : b ∈ H.blocks)
    (hs : size ≤ 2 ^ 32 - 4) (h : H.realloc b size = some (q, H')) :
    ∃ m', krealloc m b.data size = .ok (q, m') ∧ Rep m' H' ∧
      Wrote m m' (headerBytes H'.blocks ∪ Set.Ico q (q + b.size)) ∧
      ∀ i, i < b.size → m'.load8 (q + i) = m.load8 (b.data + i) := by
  unfold Heap.realloc at h
  by_cases hlt : b.size < size
  · rw [if_pos hlt] at h
    simp only [Option.map_eq_some_iff, Prod.exists, Prod.mk.injEq] at h
    obtain ⟨q, H₁, hm, rfl, rfl⟩ := h
    obtain ⟨m₁, hk, hr₁, hw₁⟩ := kmalloc_refines hr hu hs hm
    obtain ⟨n, hn, ⟨c, hc, -, rfl, rfl⟩, -, -⟩ := Heap.malloc_used hm
    have hne := Heap.malloc_ne_of_size_lt hm hb hlt
    have hb₁ := Heap.malloc_keeps hm hb hne
    obtain ⟨_, hh⟩ := hr.header_mem hb
    obtain ⟨_, hh₁⟩ := hr₁.header_mem hb₁
    have hapart := H₁.data_apart hc hb₁ hne.symm
    have hclt := H₁.data_lt hc
    have hblt := H₁.data_lt hb₁
    have hdst : ∀ {x}, c.data ≤ x → x < c.data + c.size → x ∉ headerBytes H₁.blocks :=
      Heap.data_not_headerBytes hc
    have hsrc : ∀ {x}, b.data ≤ x → x < b.data + b.size → x ∉ headerBytes H₁.blocks :=
      Heap.data_not_headerBytes hb₁
    -- The copy goes into the data of the new block, away from every header.
    have hw₂ := kmemcpy_wrote (m := m₁) (d := c.data) (s := b.data) (n := b.size) (by omega)
    have hr₂ : Rep (kmemcpy m₁ c.data b.data b.size) H₁ := hr₁.frame hw₂ fun x hx hcopy => by
      simp only [Set.mem_Ico] at hcopy
      exact hdst hcopy.1 (by omega) hx
    obtain ⟨hr₃, hw₃⟩ := kfree_refines hr₂ hb₁
    have hheads : headerBytes (H₁.release b.data).blocks = headerBytes H₁.blocks := by
      simp [headerBytes, Heap.release]
    refine ⟨kfree (kmemcpy m₁ c.data b.data b.size) b.data, ?_, hr₃, ?_, fun i hi => ?_⟩
    · simp only [krealloc, toHeader_eq hb, hh.size, if_pos hlt, hk, Except.ok_bind, hh₁.size]
    · rw [hheads]
      exact ((hw₁.mono Set.subset_union_left).trans (hw₂.mono Set.subset_union_right)).trans
        (hw₃.mono Set.subset_union_left)
    · rw [hw₃.load8_eq (by rw [wrap_of_lt (by omega)]; exact hdst (by omega) (by omega)),
        kmemcpy_load8 (by omega) (by omega) (by omega) hi,
        hw₁.load8_eq (by rw [wrap_of_lt (by omega)]; exact hsrc (by omega) (by omega))]
  · rw [if_neg hlt] at h
    cases h
    exact ⟨m, krealloc_stays hr hb hlt, hr, .refl _ _, fun _ _ => rfl⟩

theorem krealloc_halts (hr : Rep m H) (hu : ¬ untouched m) {b : Blk} (hb : b ∈ H.blocks)
    (hs : size ≤ 2 ^ 32 - 4) (h : H.realloc b size = none) :
    krealloc m b.data size = .error outOfMemory := by
  unfold Heap.realloc at h
  split at h
  · next hlt =>
    obtain ⟨_, hh⟩ := hr.header_mem hb
    simp only [Option.map_eq_none_iff] at h
    simp only [krealloc, toHeader_eq hb, hh.size, if_pos hlt, kmalloc_halts hr hu hs h, Except.error_bind]
  · cases h

/-- What a `krealloc` that returned did. -/
theorem krealloc_ok (hr : Rep m H) (hu : ¬ untouched m) {b : Blk} (hb : b ∈ H.blocks)
    (hs : size ≤ 2 ^ 32 - 4) (h : krealloc m b.data size = .ok (q, m')) :
    ∃ H', H.realloc b size = some (q, H') ∧ Rep m' H' ∧
      Wrote m m' (headerBytes H'.blocks ∪ Set.Ico q (q + b.size)) ∧
      ∀ i, i < b.size → m'.load8 (q + i) = m.load8 (b.data + i) := by
  cases hm : H.realloc b size with
  | none => rw [krealloc_halts hr hu hb hs hm] at h; cases h
  | some r =>
    obtain ⟨q', H'⟩ := r
    obtain ⟨m'', hk, hrest⟩ := krealloc_refines hr hu hb hs hm
    rw [hk] at h
    cases h
    exact ⟨H', rfl, hrest⟩

end Refinement

/-! ## The library's wrappers -/

section Wrappers

variable {m : Mem}

/-- The wrappers' loops end at their first turn, where the call returns no `NULL`. -/
theorem retry_eq (call : Mem → Except Stop (Nat × Mem)) (h : ∀ p m', call m = .ok (p, m') → p ≠ NULL) :
    retry call loopBound m = call m := by
  have hn : loopBound = (2 ^ 32 - 1) + 1 := rfl
  rw [hn, retry]
  cases hc : call m with
  | error e => rfl
  | ok r =>
    obtain ⟨p, m'⟩ := r
    simp only [Except.ok_bind, if_neg (h p m' hc)]

variable {heapsize : Nat} {H : Heap heapsize} {size : Nat}

theorem Heap.Ptr.ne_null {p : Nat} (h : H.Ptr p) : p ≠ NULL := by
  obtain ⟨b, -, rfl⟩ := h
  simp only [Blk.data, NULL]
  omega

theorem malloc_eq_kmalloc (hr : Rep m H) (hu : ¬ untouched m) (hs : size ≤ 2 ^ 32 - 4) :
    malloc m size = kmalloc m size :=
  retry_eq (kmalloc · size) fun p m' h => by
    obtain ⟨H', hm, -⟩ := kmalloc_ok hr hu hs h
    obtain ⟨n, -, hused, -⟩ := Heap.malloc_used hm
    exact hused.ptr.ne_null

/-- `malloc` halts, or allocates as `Heap.malloc` does. -/
theorem malloc_outcome (hr : Rep m H) (hu : ¬ untouched m) (hs : size ≤ 2 ^ 32 - 4) :
    (H.malloc size = none ∧ malloc m size = .error outOfMemory) ∨
      ∃ p H' m', H.malloc size = some (p, H') ∧ malloc m size = .ok (p, m') ∧ Rep m' H' ∧
        Wrote m m' (headerBytes H'.blocks) := by
  rw [malloc_eq_kmalloc hr hu hs]
  cases hm : H.malloc size with
  | none => exact .inl ⟨rfl, kmalloc_halts hr hu hs hm⟩
  | some r =>
    obtain ⟨p, H'⟩ := r
    obtain ⟨m', hk, hrest⟩ := kmalloc_refines hr hu hs hm
    exact .inr ⟨p, H', m', rfl, hk, hrest⟩

theorem realloc_ptr {H' : Heap heapsize} {b : Blk} {q : Nat} (hb : b ∈ H.blocks)
    (h : H.realloc b size = some (q, H')) : H'.Ptr q := by
  unfold Heap.realloc at h
  split at h
  · simp only [Option.map_eq_some_iff, Prod.exists, Prod.mk.injEq] at h
    obtain ⟨q, H₁, hm, rfl, rfl⟩ := h
    obtain ⟨n, -, hused, -⟩ := Heap.malloc_used hm
    exact Heap.release_ptr.mpr hused.ptr
  · cases h
    exact ⟨b, hb, rfl⟩

theorem realloc_eq_krealloc (hr : Rep m H) (hu : ¬ untouched m) {b : Blk} (hb : b ∈ H.blocks)
    (hs : size ≤ 2 ^ 32 - 4) : realloc m b.data size = krealloc m b.data size :=
  retry_eq (krealloc · b.data size) fun p m' h => by
    obtain ⟨H', hm, -⟩ := krealloc_ok hr hu hb hs h
    exact (realloc_ptr hb hm).ne_null

end Wrappers

end Ssmos

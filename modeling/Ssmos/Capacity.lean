/-
When `kmalloc` keeps its promise: it halts, or returns a block that was free,
is used now and is large enough. On a heap that was never allocated from,
`splitblock` may refuse and `kmalloc` returns the block all the same, or lay
the new header over the old one; on one that was, a size whose rounding wraps
to zero gets any free block.
-/
import Ssmos.HeapRuns

namespace Ssmos

/-- What a request for `size` bytes should get. -/
def Capacity (m : Mem) (size : Nat) : Prop :=
  kmalloc m size = .error outOfMemory ∨
    ∃ hs b m', headers m = .ok hs ∧ b ∈ hs ∧ kmalloc m size = .ok (toData b, m') ∧
      m.isFree b = 1 ∧ m'.isFree b = 0 ∧ size ≤ m'.blockSize b

/-- A request that `kmalloc` serves as it should: while the heap is one free
block, that block has room for it and a header (sums of naturals, so neither
wraps); later, rounding it up does not wrap, or no block is free. -/
def Fits (m : Mem) (size : Nat) : Prop :=
  if untouched m then round4 size + HEADER_SIZE ≤ m.blockSize HEAP_START
  else size ≤ 2 ^ 32 - 4 ∨ freeBlocks m = .ok 0

/-- A request for which `block + HEADER_SIZE + size` wraps: the header that
`splitblock` makes lies over the one it splits. -/
def Overlays (m : Mem) (size : Nat) : Prop :=
  untouched m ∧ 2 ^ 32 - 20 < size ∧ size ≤ 2 ^ 32 - 4

/-- The requests of a call fit. -/
def Call.fits (m : Mem) : Call → Prop
  | .kmalloc size => size < 2 ^ 32 ∧ Fits m size
  | .krealloc p newsz => m.blockSize (toHeader p) < newsz → newsz < 2 ^ 32 ∧ Fits m newsz
  | .kfree _ => True
  | .write p i _ => i < m.blockSize (toHeader p)

/-- A call on a pointer ever returned, all of whose requests fit. -/
def FitStep (s : HeapState) (c : Call) (s' : HeapState) : Prop :=
  (∀ p, c.on = some p → p ∈ s.ever) ∧ c.fits s.mem ∧ c.run s = .ok s'

/-- The heap as `memory_init` writes it, before it logs. -/
def Started (heapsize : Nat) (s : HeapState) : Prop :=
  1 ≤ heapsize ∧ heapsize ≤ 65535 ∧ ∃ m, s = ⟨initRoot m heapsize, [], []⟩

/-! ## A heap never allocated from -/

section Untouched

variable {heapsize : Nat} {m : Mem} {H : Heap heapsize} {r : Blk} {size : Nat}

/-- What `splitblock` leaves in the header it splits, wherever the new one is. -/
theorem splitblock_header (block size : Nat)
    (h : ¬ (wrap (size + HEADER_SIZE) > m.blockSize block ∨ m.isFree block = 0)) (hlt : block + 16 ≤ 2 ^ 32) :
    (splitblock m block size).isFree block = 0 ∧ (splitblock m block size).blockSize block = wrap size := by
  rw [splitblock, if_neg h]
  simp only [Mem.setIsFree, Mem.isFree, Mem.setBlockSize, Mem.blockSize]
  refine ⟨by simp only [Mem.load32_store32_same]; rfl, ?_⟩
  rw [Mem.load32_store32_ne (by omega) (by omega) (by omega), Mem.load32_store32_same]

/-- The one block of such a heap is all of it but the header. -/
theorem blockSize_untouched (hr : Rep m H) (hu : untouched m) :
    1008 ≤ m.blockSize HEAP_START ∧ m.blockSize HEAP_START < 2 ^ 26 := by
  obtain ⟨r, hH, -⟩ := (untouched_iff hr).mp hu
  have ht := H.tiles
  have hpos := H.pos
  have hsmall := H.small
  rw [hH] at ht
  obtain ⟨ha, hend⟩ := ht
  simp only [Tiles, Blk.len, heapEnd] at hend
  have hB : m.blockSize HEAP_START = r.size := by rw [← ha, (hr.header_root hH).size]
  omega

theorem kmalloc_untouched (hu : untouched m) :
    kmalloc m size = .ok (toData HEAP_START, splitblock m HEAP_START (roundUp size)) := by
  simp only [kmalloc, if_pos hu]

/-- The block of a heap never allocated from is returned whatever `splitblock`
made of it. -/
theorem capacity_untouched_split (hr : Rep m H) (hu : untouched m) :
    Capacity m size ↔ (splitblock m HEAP_START (roundUp size)).isFree HEAP_START = 0 ∧
      size ≤ (splitblock m HEAP_START (roundUp size)).blockSize HEAP_START := by
  obtain ⟨r, hH, -⟩ := (untouched_iff hr).mp hu
  have hheaders : headers m = .ok [HEAP_START] := by
    rw [headers_eq hr, hH, List.map_singleton, Heap.root_addr hH]
  unfold Capacity
  rw [kmalloc_untouched hu, hheaders]
  constructor
  · intro hx
    rcases hx with h | ⟨hs, b, m', hhs, hb, hk, -, hused, hsize⟩
    · cases h
    · cases hhs
      simp only [Except.ok.injEq, Prod.mk.injEq] at hk
      rw [← hk.2, List.mem_singleton.mp hb] at hused hsize
      exact ⟨hused, hsize⟩
  · intro hx
    obtain ⟨hused, hsize⟩ := hx
    exact .inr ⟨_, HEAP_START, _, rfl, List.mem_singleton_self _, rfl, hu.2, hused, hsize⟩

/-- As the machine compares them: the sum with the header may wrap. -/
theorem capacity_untouched_wrap (hr : Rep m H) (hu : untouched m) (hlt : size < 2 ^ 32) :
    Capacity m size ↔ size ≤ 2 ^ 32 - 4 ∧ wrap (round4 size + HEADER_SIZE) ≤ m.blockSize HEAP_START := by
  have hfree : m.isFree HEAP_START = 1 := hu.2
  rw [capacity_untouched_split hr hu]
  by_cases hs : size ≤ 2 ^ 32 - 4
  · rw [roundUp_eq hs]
    by_cases hroom : wrap (round4 size + HEADER_SIZE) ≤ m.blockSize HEAP_START
    · obtain ⟨h₁, h₂⟩ := splitblock_header (m := m) HEAP_START (round4 size)
        (by rw [hfree]; omega) (by decide)
      have hle := le_round4 size
      have hround : round4 size < 2 ^ 32 := by unfold round4; omega
      rw [h₁, h₂, wrap_of_lt hround]
      exact ⟨fun _ => ⟨hs, hroom⟩, fun _ => ⟨rfl, hle⟩⟩
    · have : splitblock m HEAP_START (round4 size) = m := by
        rw [splitblock, if_pos (.inl (by omega))]
      rw [this, hfree]
      simp [hroom]
  · -- The size wraps to zero, and a block of no bytes is split off.
    obtain ⟨hmin, -⟩ := blockSize_untouched hr hu
    rw [roundUp_wraps (by omega) hlt]
    have hz : wrap (0 + HEADER_SIZE) = 16 := rfl
    obtain ⟨-, h₂⟩ := splitblock_header (m := m) HEAP_START 0 (by rw [hfree, hz]; omega) (by decide)
    have h0 : wrap 0 = 0 := rfl
    rw [h₂, h0]
    omega

/-- The sum wraps for the requests whose header overlays the old one, and for
no other that it lets through. -/
theorem capacity_untouched (hr : Rep m H) (hu : untouched m) (hlt : size < 2 ^ 32) :
    Capacity m size ↔ Fits m size ∨ Overlays m size := by
  obtain ⟨hmin, hmax⟩ := blockSize_untouched hr hu
  rw [capacity_untouched_wrap hr hu hlt, Fits, if_pos hu, Overlays]
  simp only [hu, true_and, wrap, round4, HEADER_SIZE]
  omega

/-- The four largest such headers are the old header itself, which then is the
block behind itself. -/
theorem kmalloc_overlays (hr : Rep m H) (hu : untouched m) (hs : 2 ^ 32 - 20 < size) (hle : size ≤ 2 ^ 32 - 16) :
    ∃ p m', kmalloc m size = .ok (p, m') ∧ m'.nextPtr HEAP_START = HEAP_START := by
  obtain ⟨hmin, -⟩ := blockSize_untouched hr hu
  have hround : round4 size = 2 ^ 32 - 16 := by unfold round4; omega
  have hwrap : wrap (2 ^ 32 - 16 + HEADER_SIZE) = 0 := rfl
  have hnew : wrap (HEAP_START + HEADER_SIZE + (2 ^ 32 - 16)) = HEAP_START := rfl
  have hfree : m.isFree HEAP_START = 1 := hu.2
  refine ⟨_, _, kmalloc_untouched hu, ?_⟩
  rw [roundUp_eq (by omega), hround, splitblock, if_neg (by rw [hwrap, hfree]; omega)]
  simp only [hnew, Mem.setIsFree, Mem.setBlockSize, Mem.setNextPtr, Mem.nextPtr]
  rw [Mem.load32_store32_ne (by decide) (by decide) (by decide),
    Mem.load32_store32_ne (by decide) (by decide) (by decide), Mem.load32_store32_same]
  rfl

end Untouched

/-! ## A heap allocated from -/

section Touched

variable {heapsize : Nat} {m : Mem} {H H' : Heap heapsize} {size : Nat}

theorem freeBlocks_eq_zero (hr : Rep m H) : freeBlocks m = .ok 0 ↔ ∀ b ∈ H.blocks, b.free = false := by
  have hsum : ∀ bs : List Blk, (bs.map fun b => if b.free then 1 else 0).sum = 0 ↔ ∀ b ∈ bs, b.free = false := by
    intro bs
    induction bs with
    | nil => simp
    | cons b bs ih => cases hb : b.free <;> simp [hb, ih]
  rw [freeBlocks_eq hr, ← hsum, Except.ok.injEq]
  omega

theorem kmalloc_wraps (h : 2 ^ 32 - 4 < size) (hlt : size < 2 ^ 32) : kmalloc m size = kmalloc m 0 := by
  have h0 : roundUp 0 = 0 := rfl
  simp only [kmalloc, roundUp_wraps h hlt, h0]

/-- A size that can be rounded up is served as it should be. -/
theorem capacity_sized (hr : Rep m H) (hu : ¬ untouched m) (hs : size ≤ 2 ^ 32 - 4) : Capacity m size := by
  cases hm : H.malloc size with
  | none => exact .inl (kmalloc_halts hr hu hs hm)
  | some q =>
    obtain ⟨p, H'⟩ := q
    obtain ⟨m', hk, hr', -⟩ := kmalloc_refines hr hu hs hm
    obtain ⟨b, hb, hfree, -, rfl⟩ := Heap.malloc_took hm
    obtain ⟨n, hn, ⟨c, hc, hcf, hd, rfl⟩, -⟩ := Heap.malloc_used hm
    have ha : c.addr = b.addr := Blk.data_inj.mp hd
    obtain ⟨_, hh⟩ := hr'.header_mem hc
    refine .inr ⟨_, b.addr, m', headers_eq hr, List.mem_map_of_mem hb, ?_,
      (isFree_eq_one hr hb).mpr hfree, ?_, ?_⟩
    · rw [hk, toData_eq hb]
    · rw [← ha, hh.free, hcf]
      rfl
    · rwa [← ha, hh.size]

/-- One that cannot is a request for nothing, which any free block serves; none
is as large as was asked for. -/
theorem capacity_wrapped (hr : Rep m H) (hu : ¬ untouched m) (hs : 2 ^ 32 - 4 < size) (hlt : size < 2 ^ 32) :
    Capacity m size ↔ freeBlocks m = .ok 0 := by
  rw [freeBlocks_eq_zero hr]
  have hzero : ∀ b : Blk, b.fits (round4 0) ↔ b.free = true := fun b => by simp [Blk.fits, round4]
  unfold Capacity
  rw [kmalloc_wraps hs hlt]
  cases hm : H.malloc 0 with
  | none =>
    simp only [kmalloc_halts hr hu (by decide) hm, true_or, true_iff]
    simpa [hzero] using Heap.malloc_eq_none.mp hm
  | some q =>
    obtain ⟨p, H'⟩ := q
    obtain ⟨m', hk, hr', -⟩ := kmalloc_refines hr hu (by decide) hm
    obtain ⟨n, hn, ⟨c, hc, -, hd, -⟩, -⟩ := Heap.malloc_used hm
    obtain ⟨e, he, hfree, -, -⟩ := Heap.malloc_took hm
    have hex : ¬ ∀ b ∈ H.blocks, b.free = false := fun h => by
      rw [h e he] at hfree
      cases hfree
    simp only [hk, hex, iff_false]
    intro hx
    rcases hx with h | ⟨hs', b, m'', hhs, hb, hkm, -, -, hsize⟩
    · cases h
    · rw [headers_eq hr, Except.ok.injEq] at hhs
      subst hhs
      obtain ⟨d, hd', rfl, -⟩ := mem_headers hr hb
      simp only [Except.ok.injEq, Prod.mk.injEq, toData_eq hd'] at hkm
      obtain ⟨rfl, rfl⟩ := hkm
      obtain ⟨_, hh⟩ := hr'.header_mem hc
      have hbound := H'.bounds hc
      rw [← Blk.data_inj.mp hd, hh.size] at hsize
      omega

theorem capacity_touched (hr : Rep m H) (hu : ¬ untouched m) (hlt : size < 2 ^ 32) :
    Capacity m size ↔ Fits m size := by
  rw [Fits, if_neg hu]
  by_cases hs : size ≤ 2 ^ 32 - 4
  · exact iff_of_true (capacity_sized hr hu hs) (.inl hs)
  · rw [capacity_wrapped hr hu (by omega) hlt]
    exact (or_iff_right hs).symm

/-- With no block free, `kmalloc` does not return. -/
theorem kmalloc_returns_sized {p : Nat} {m' : Mem} (hr : Rep m H) (hu : ¬ untouched m) (hlt : size < 2 ^ 32)
    (hfits : Fits m size) (hk : kmalloc m size = .ok (p, m')) : size ≤ 2 ^ 32 - 4 := by
  rw [Fits, if_neg hu] at hfits
  rcases hfits with hs | hnone
  · exact hs
  · by_contra hs
    have hcap := (capacity_wrapped hr hu (by omega) hlt).mpr hnone
    rcases hcap with h | ⟨hs, b, m', hhs, hb, -, hfree, -⟩
    · rw [hk] at h
      cases h
    · rw [headers_eq hr, Except.ok.injEq] at hhs
      subst hhs
      obtain ⟨c, hc, rfl, -⟩ := mem_headers hr hb
      have hused := (freeBlocks_eq_zero hr).mp hnone c hc
      rw [(isFree_eq_one hr hc).mp hfree] at hused
      cases hused

end Touched

/-! ## Runs of requests that fit -/

section Runs

variable {heapsize : Nat} {s₀ s s' : HeapState} {H : Heap heapsize} {c : Call} {calls : List Call} {size : Nat}

/-- Nothing was allocated yet, or the heap is that of a run after boot. -/
def FitInv (H : Heap heapsize) (s : HeapState) : Prop :=
  s.Inv H ∨ Rep s.mem H ∧ H.Fresh ∧ s.ever = []

theorem FitStep.ever (hi : s.Inv H) (h : FitStep s c s') : EverStep s c s' := by
  obtain ⟨hon, hfits, hrun⟩ := h
  have hu := hi.not_untouched
  refine ⟨hon, ?_, hrun⟩
  cases c with
  | kmalloc size =>
    obtain ⟨q, hk, -⟩ := Except.bind_ok_iff.mp hrun
    exact kmalloc_returns_sized hi.rep hu hfits.1 hfits.2 hk
  | krealloc p newsz =>
    obtain ⟨b, hb, rfl⟩ := hi.ever p (hon p rfl)
    have hbound := H.bounds hb
    simp only [Call.fits, hi.rep.blockSize_eq hb] at hfits
    simp only [Call.sized]
    by_cases hlt : b.size < newsz
    · obtain ⟨q, hre, -⟩ := Except.bind_ok_iff.mp hrun
      rw [krealloc, if_pos (by rwa [hi.rep.blockSize_eq hb])] at hre
      obtain ⟨q', hk, -⟩ := Except.bind_ok_iff.mp hre
      exact kmalloc_returns_sized hi.rep hu (hfits hlt).1 (hfits hlt).2 hk
    · omega
  | kfree p => trivial
  | write p i v => exact hfits

/-- The first call splits the one free block. -/
theorem FitStep.first (hr : Rep s.mem H) (hf : H.Fresh) (he : s.ever = []) (h : FitStep s c s') :
    ∃ H' : Heap heapsize, s'.Inv H' := by
  obtain ⟨hon, hfits, hrun⟩ := h
  have hnot : ∀ p, c.on ≠ some p := fun p hp => by simpa [he] using hon p hp
  cases c with
  | krealloc p newsz => exact absurd rfl (hnot p)
  | kfree p => exact absurd rfl (hnot p)
  | write p i v => exact absurd rfl (hnot p)
  | kmalloc size =>
    have hu := (untouched_iff hr).mpr hf
    obtain ⟨r, hH, hfree⟩ := hf
    have ha : r.addr = HEAP_START := Heap.root_addr hH
    simp only [Call.fits, Fits, if_pos hu] at hfits
    obtain ⟨hlt, hroom⟩ := hfits
    have hmax := (blockSize_untouched hr hu).2
    have hle := le_round4 size
    have hs : size ≤ 2 ^ 32 - 4 := by omega
    rw [← ha, (hr.header_root hH).size, HEADER_SIZE] at hroom
    obtain ⟨m', H', hk, hH', hr', -⟩ := kmalloc_fresh hr hH hfree hs hroom
    simp only [Call.run, hk, Except.ok_bind, Except.ok.injEq] at hrun
    subst hrun
    refine ⟨H', hr', by simp [hH', cut], fun p hp => ?_⟩
    simp only [he, List.mem_singleton] at hp
    refine ⟨{ r with size := round4 size, free := false }, by simp [hH', cut], hp.symm⟩

theorem FitStep.inv (hi : FitInv H s) (h : FitStep s c s') : ∃ H' : Heap heapsize, FitInv H' s' := by
  rcases hi with hi | ⟨hr, hf, he⟩
  · obtain ⟨H', -, hi'⟩ := (h.ever hi).effect hi
    exact ⟨H', .inl hi'⟩
  · obtain ⟨H', hi'⟩ := h.first hr hf he
    exact ⟨H', .inl hi'⟩

theorem Started.inv (h : Started heapsize s) : ∃ H : Heap heapsize, FitInv H s := by
  obtain ⟨hpos, hsmall, m, rfl⟩ := h
  exact ⟨_, .inr ⟨initRoot_rep hpos hsmall, ⟨_, rfl, rfl⟩, rfl⟩⟩

/-- **Capacity**: in every state a run of fitting requests reaches, a request
that fits is served as it should be. One that does not fit is not, except that
a header laid over the old one says so of a block that is lost. -/
theorem capacity_iff_fits (hstart : Started heapsize s₀) (hrun : Runs FitStep s₀ calls s)
    (hlt : size < 2 ^ 32) : (Fits s.mem size → Capacity s.mem size) ∧
      (Capacity s.mem size → Fits s.mem size ∨ Overlays s.mem size) := by
  obtain ⟨H, hi⟩ := hrun.invariant (I := fun s => ∃ H : Heap heapsize, FitInv H s)
    (fun ⟨_, hi⟩ hstep => hstep.inv hi) hstart.inv
  have hr : Rep s.mem H := by
    rcases hi with hi | hi
    · exact hi.rep
    · exact hi.1
  by_cases hu : untouched s.mem
  · have h := capacity_untouched hr hu hlt
    exact ⟨fun hf => h.mpr (.inl hf), h.mp⟩
  · have h := capacity_touched hr hu hlt
    exact ⟨h.mpr, fun hc => .inl (h.mp hc)⟩

/-- One request of 5 bytes on a heap of 1 KiB, and the next. -/
theorem capacity_iff_fits_kmalloc : ∃ s₀ s, Started 1 s₀ ∧ Runs FitStep s₀ [.kmalloc 5] s ∧
    Fits s.mem 100 ∧ Capacity s.mem 100 := by
  let s₀ : HeapState := ⟨initRoot ⟨fun _ => 0, []⟩ 1, [], []⟩
  obtain ⟨s, hs⟩ : ∃ s, ((Call.kmalloc 5).run s₀).toOption = some s :=
    Option.isSome_iff_exists.mp (by decide +kernel)
  have hrun : (Call.kmalloc 5).run s₀ = .ok s := Except.toOption_eq_some.mp hs
  have hstart : Started 1 s₀ := ⟨by decide, by decide, _, rfl⟩
  have hfits : Fits s₀.mem 5 := by
    rw [Fits, if_pos (by decide +kernel)]
    decide +kernel
  have hstep : FitStep s₀ (.kmalloc 5) s := ⟨nofun, ⟨by decide, hfits⟩, hrun⟩
  obtain ⟨H, hi⟩ := hstep.first (H := Heap.init 1 (by decide) (by decide))
    (initRoot_rep (by decide) (by decide)) ⟨_, rfl, rfl⟩ rfl
  have hnext : Fits s.mem 100 := by
    rw [Fits, if_neg hi.not_untouched]
    exact .inl (by decide)
  exact ⟨s₀, s, hstart, .single hstep, hnext,
    (capacity_iff_fits hstart (.single hstep) (by decide)).1 hnext⟩

/-- A fresh heap of 1 KiB has 1008 bytes: for 1000 of them `splitblock`
refuses, and `kmalloc` returns the block with its header unchanged, still free. -/
theorem capacity_refused : Started 1 ⟨initRoot ⟨fun _ => 0, []⟩ 1, [], []⟩ ∧
    kmalloc (initRoot ⟨fun _ => 0, []⟩ 1) 1000 = .ok (HEAP_START + 16, initRoot ⟨fun _ => 0, []⟩ 1) ∧
    (initRoot ⟨fun _ => 0, []⟩ 1).isFree HEAP_START = 1 ∧
    ¬ Capacity (initRoot ⟨fun _ => 0, []⟩ 1) 1000 := by
  have hr : Rep (initRoot ⟨fun _ => 0, []⟩ 1) (Heap.init 1 (by decide) (by decide)) :=
    initRoot_rep (by decide) (by decide)
  have hu : untouched (initRoot ⟨fun _ => 0, []⟩ 1) := by decide +kernel
  refine ⟨⟨by decide, by decide, _, rfl⟩, ?_, by decide +kernel, ?_⟩
  · rw [kmalloc_untouched hu, splitblock, if_pos (by decide +kernel)]
    rfl
  · rw [capacity_untouched_wrap hr hu (by decide)]
    decide +kernel

end Runs

end Ssmos

/-
What clients rely on after any run of the allocator: the blocks they hold are
theirs alone (`Isolated`), and the blocks always tile the heap (`Tiled`).
-/
import Ssmos.HeapContracts

namespace Ssmos

variable {heapsize : Nat} {s₀ s : HeapState} {m : Mem} {H : Heap heapsize} {calls : List Call}

/-! ## Isolation -/

/-- The data of the block at pointer `p`. -/
def dataRange (m : Mem) (p : Nat) : Set Nat := Set.Ico p (p + m.blockSize (toHeader p))

/-- The blocks in use are those of the live pointers, and each is its client's alone. -/
structure Isolated (heapsize : Nat) (s : HeapState) (hs : List Nat) : Prop where
  visits : headers s.mem = .ok hs
  used : ∀ b ∈ hs, s.mem.isFree b = 0 ↔ toData b ∈ s.live
  header : ∀ p ∈ s.live, toHeader p ∈ hs ∧ toData (toHeader p) = p
  nodup : s.live.Nodup
  inside : ∀ p ∈ s.live, dataRange s.mem p ⊆ Set.Ico HEAP_START (HEAP_START + heapsize * 1024)
  apart : ∀ p ∈ s.live, ∀ q ∈ s.live, p ≠ q → Disjoint (dataRange s.mem p) (dataRange s.mem q)
  headers : ∀ p ∈ s.live, ∀ b ∈ hs, Disjoint (dataRange s.mem p) (Set.Ico b (b + HEADER_SIZE))
  /-- A call on another pointer changes no byte of a live block. -/
  frame : ∀ c s', LiveStep s c s' → ∀ p ∈ s.live, c.on ≠ some p → ∀ a ∈ dataRange s.mem p,
    s'.mem.load8 a = s.mem.load8 a

theorem HeapState.Inv.dataRange_eq (hi : s.Inv H) {b : Blk} (hb : b ∈ H.blocks) :
    dataRange s.mem b.data = Set.Ico b.data (b.data + b.size) := by
  rw [dataRange, hi.rep.blockSize_eq hb]

/-- The block a live pointer points to. -/
theorem HeapState.LiveInv.block (hi : s.LiveInv H) {p : Nat} (hp : p ∈ s.live) :
    ∃ b ∈ H.blocks, b.free = false ∧ b.data = p := by
  obtain ⟨n, b, hb, hf, hd, -⟩ := (hi.live p).mp hp
  exact ⟨b, hb, hf, hd⟩

theorem HeapState.LiveInv.isolated (hi : s.LiveInv H) : Isolated heapsize s (H.blocks.map Blk.addr) where
  visits := headers_eq hi.rep
  used := by
    intro a ha
    obtain ⟨b, hb, rfl⟩ := List.mem_map.mp ha
    rw [isFree_eq_zero hi.rep hb, toData_eq hb, hi.live]
    constructor
    · intro hf
      exact ⟨b.size, b, hb, hf, rfl, rfl⟩
    · intro hs
      obtain ⟨n, c, hc, hf, hd, -⟩ := hs
      rwa [← H.eq_of_data hc hb hd]
  header := by
    intro p hp
    obtain ⟨b, hb, -, rfl⟩ := hi.block hp
    rw [toHeader_eq hb]
    exact ⟨List.mem_map_of_mem hb, toData_eq hb⟩
  nodup := hi.nodup
  inside := by
    intro p hp x hx
    obtain ⟨b, hb, -, rfl⟩ := hi.block hp
    rw [hi.dataRange_eq hb] at hx
    have := H.tiles.bounds hb
    simp only [Blk.data, Blk.len, heapEnd, Set.mem_Ico] at this hx ⊢
    omega
  apart := by
    intro p hp q hq hne
    obtain ⟨b, hb, -, rfl⟩ := hi.block hp
    obtain ⟨c, hc, -, rfl⟩ := hi.block hq
    have := H.data_apart hb hc hne
    rw [hi.dataRange_eq hb, hi.dataRange_eq hc, Set.disjoint_left]
    simp only [Set.mem_Ico]
    omega
  headers := by
    intro p hp a ha
    obtain ⟨b, hb, -, rfl⟩ := hi.block hp
    obtain ⟨c, hc, rfl⟩ := List.mem_map.mp ha
    rw [hi.dataRange_eq hb, Set.disjoint_left]
    intro x hx
    simp only [Set.mem_Ico] at hx ⊢
    exact H.data_not_header hb hc hx.1 hx.2
  frame := by
    intro c s' hstep p hp hon a ha
    obtain ⟨b, hb, hf, rfl⟩ := hi.block hp
    obtain ⟨H', he, -⟩ := hstep.effect hi
    rw [hi.dataRange_eq hb, Set.mem_Ico] at ha
    have := he.frame hb hf hon (i := a - b.data) (by omega)
    rwa [show b.data + (a - b.data) = a by omega] at this

/-- **Isolation**: after any run by clients that pass only pointers they hold,
their blocks are theirs alone. -/
theorem heap_isolation (hboot : Booted heapsize s₀) (hrun : Runs LiveStep s₀ calls s) :
    ∃ hs, Isolated heapsize s hs := by
  obtain ⟨H, hi⟩ := LiveStep.run hboot hrun
  exact ⟨_, hi.isolated⟩

/-- A run that splits, moves and frees: 1 KiB, five calls. -/
theorem heap_isolation_calls : ∃ s₀ s hs, Booted 1 s₀ ∧
    Runs LiveStep s₀ [.kmalloc 5, .kmalloc 0, .krealloc 0x10002c 40, .kfree 0x100044, .write 0x100054 3 7] s ∧
    Isolated 1 s hs := by
  obtain ⟨s, hs⟩ : ∃ s, runFrom HeapState.live 1
      [.kmalloc 5, .kmalloc 0, .krealloc 0x10002c 40, .kfree 0x100044, .write 0x100054 3 7] = some s :=
    Option.isSome_iff_exists.mp (by decide +kernel)
  obtain ⟨s₀, hboot, hrun⟩ := runFrom_eq_some (by decide) (by decide) hs
  obtain ⟨hs, hi⟩ := heap_isolation hboot hrun
  exact ⟨s₀, s, hs, hboot, hrun, hi⟩

/-! ## Tiling -/

/-- The blocks tile the heap, and the statistics account for all of it. -/
structure Tiled (heapsize : Nat) (m : Mem) (hs : List Nat) : Prop where
  visits : headers m = .ok hs
  aligned : ∀ b ∈ hs, b % 4 = 0
  next : ∀ b ∈ hs, m.nextPtr b ≠ NULL → m.nextPtr b = b + HEADER_SIZE + m.blockSize b
  last : ∀ b ∈ hs, m.nextPtr b = NULL → b + HEADER_SIZE + m.blockSize b = HEAP_START + heapsize * 1024
  stats : ∃ total free used freemem usedmem, totalBlocks m = .ok total ∧ freeBlocks m = .ok free ∧
    usedBlocks m = .ok used ∧ freeMemory m = .ok freemem ∧ usedMemory m = .ok usedmem ∧
    total = free + used ∧ freemem + usedmem + HEADER_SIZE * total = heapsize * 1024

/-- Where a block of a represented heap links to. -/
theorem Rep.next_eq (hr : Rep m H) {b : Blk} (hb : b ∈ H.blocks) :
    m.nextPtr b.addr = b.addr + 16 + b.size ∨
      m.nextPtr b.addr = NULL ∧ b.addr + 16 + b.size = heapEnd heapsize := by
  rw [hr.nextPtr_eq hb, linkTo]
  split
  · next hend => exact .inr ⟨rfl, hend⟩
  · exact .inl rfl

theorem Rep.stats (hr : Rep m H) : ∃ total free used freemem usedmem, totalBlocks m = .ok total ∧
    freeBlocks m = .ok free ∧ usedBlocks m = .ok used ∧ freeMemory m = .ok freemem ∧
    usedMemory m = .ok usedmem ∧ total = free + used ∧
    freemem + usedmem + HEADER_SIZE * total = heapsize * 1024 := by
  refine ⟨_, _, _, _, _, totalBlocks_eq hr, freeBlocks_eq hr, usedBlocks_eq hr, freeMemory_eq hr,
    usedMemory_eq hr, ?_, ?_⟩
  · have := sum_blocks_split H.blocks
    omega
  · have := sum_memory_split H.blocks
    have := H.tiles.sum_len
    simp only [heapEnd, HEADER_SIZE] at this ⊢
    omega

theorem Rep.tiled (hr : Rep m H) : Tiled heapsize m (H.blocks.map Blk.addr) where
  visits := headers_eq hr
  aligned := by
    intro a ha
    obtain ⟨b, hb, rfl⟩ := List.mem_map.mp ha
    exact (H.aligned b hb).1
  next := by
    intro a ha hne
    obtain ⟨b, hb, rfl, hsize, -⟩ := mem_headers hr ha
    rw [hsize]
    rcases hr.next_eq hb with h | h
    · exact h
    · exact absurd h.1 hne
  last := by
    intro a ha hnull
    obtain ⟨b, hb, rfl, hsize, -⟩ := mem_headers hr ha
    rw [hsize]
    rcases hr.next_eq hb with h | h
    · rw [hnull, NULL] at h
      omega
    · exact h.2
  stats := hr.stats

/-- The headers of a heap are those of any heap a run leads to. -/
theorem EverStep.headers_subset {s' : HeapState} {calls : List Call} (hi : s.Inv H)
    (hrun : Runs EverStep s calls s') :
    ∃ H' : Heap heapsize, s'.Inv H' ∧ ∀ q, H.Ptr q → H'.Ptr q :=
  hrun.invariant (I := fun s => ∃ H' : Heap heapsize, s.Inv H' ∧ ∀ q, H.Ptr q → H'.Ptr q)
    (fun ⟨_, hi, hsub⟩ hstep => by
      obtain ⟨H', he, hi'⟩ := hstep.effect hi
      exact ⟨H', hi', fun q hq => he.ptr (hsub q hq)⟩) ⟨H, hi, fun _ hq => hq⟩

/-- **Tiling**: after any run, even by clients that pass stale pointers, the
blocks tile the heap, and no header is ever lost by running on. -/
theorem heap_tiling (hboot : Booted heapsize s₀) (hrun : Runs EverStep s₀ calls s) :
    ∃ hs, Tiled heapsize s.mem hs ∧ ∀ calls' s', Runs EverStep s calls' s' →
      ∃ hs', Tiled heapsize s'.mem hs' ∧ hs ⊆ hs' := by
  obtain ⟨H, hi⟩ := EverStep.run hboot hrun
  refine ⟨_, hi.rep.tiled, fun calls' s' hrun' => ?_⟩
  obtain ⟨H', hi', hsub⟩ := EverStep.headers_subset hi hrun'
  refine ⟨_, hi'.rep.tiled, fun a ha => ?_⟩
  obtain ⟨b, hb, rfl⟩ := List.mem_map.mp ha
  obtain ⟨c, hc, hd⟩ := hsub _ ⟨b, hb, rfl⟩
  simp only [Blk.data] at hd
  exact List.mem_map.mpr ⟨c, hc, by omega⟩

/-- A run with a double free: 1 KiB, four calls. -/
theorem heap_tiling_calls : ∃ s₀ s hs, Booted 1 s₀ ∧
    Runs EverStep s₀ [.kmalloc 5, .kfree 0x10002c, .kfree 0x10002c, .krealloc 0x10002c 9] s ∧
    Tiled 1 s.mem hs := by
  obtain ⟨s, hs⟩ : ∃ s, runFrom HeapState.ever 1
      [.kmalloc 5, .kfree 0x10002c, .kfree 0x10002c, .krealloc 0x10002c 9] = some s :=
    Option.isSome_iff_exists.mp (by decide +kernel)
  obtain ⟨s₀, hboot, hrun⟩ := runFrom_eq_some (by decide) (by decide) hs
  obtain ⟨hs, ht, -⟩ := heap_tiling hboot hrun
  exact ⟨s₀, s, hs, hboot, hrun, ht⟩

end Ssmos

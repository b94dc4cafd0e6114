/-
Walking the block list: what `headers` and the statistics functions compute on
a memory that represents a heap.
-/
import Ssmos.MemoryFacts

namespace Ssmos

variable {heapsize : Nat} {m : Mem} {H : Heap heapsize}

theorem Heap.addr_ne_null (H : Heap heapsize) : ∀ b ∈ H.blocks, b.addr ≠ NULL := fun b hb => by
  have := H.bounds hb
  simp only [NULL]
  omega

theorem walk_eq {bs : List Blk} (hne : ∀ b ∈ bs, b.addr ≠ NULL) (he : Encodes m NULL bs) :
    ∀ {n : Nat}, bs.length < n → walk n m (headAddr bs NULL) = .ok (bs.map Blk.addr) := by
  induction bs with
  | nil =>
    intro n hn
    obtain ⟨n, rfl⟩ : ∃ k, n = k + 1 := ⟨n - 1, by omega⟩
    rfl
  | cons b bs ih =>
    intro n hn
    obtain ⟨n, rfl⟩ : ∃ k, n = k + 1 := ⟨n - 1, by omega⟩
    simp only [walk, headAddr_cons, if_neg (hne b (by simp)), he.1.next,
      ih (fun c hc => hne c (by simp [hc])) he.2 (by simpa using hn)]
    rfl

theorem Heap.headAddr_root (H : Heap heapsize) : headAddr H.blocks NULL = HEAP_START := by
  obtain ⟨r, bs, hb, ha⟩ := H.exists_root
  rw [hb]
  exact ha

/-- The walk from `HEAP_START` visits the headers of the heap's blocks, in order. -/
theorem headers_eq (hr : Rep m H) : headers m = .ok (H.blocks.map Blk.addr) := by
  unfold headers
  rw [← H.headAddr_root]
  exact walk_eq H.addr_ne_null hr H.length_lt

theorem mem_headers (hr : Rep m H) {b : Nat} (hb : b ∈ H.blocks.map Blk.addr) :
    ∃ c ∈ H.blocks, c.addr = b ∧ m.blockSize b = c.size ∧ m.isFree b = c.free.toNat := by
  obtain ⟨c, hc, rfl⟩ := List.mem_map.mp hb
  obtain ⟨_, hh⟩ := hr.header_mem hc
  exact ⟨c, hc, rfl, hh.size, hh.free⟩

/-! ## Statistics -/

theorem sumBlocks_eq {f : Mem → Nat → Nat} {bs : List Blk} (hne : ∀ b ∈ bs, b.addr ≠ NULL)
    (he : Encodes m NULL bs) : ∀ {n acc : Nat}, bs.length < n →
    acc + (bs.map fun b => f m b.addr).sum < 2 ^ 32 →
    sumBlocks f n m (headAddr bs NULL) acc = .ok (acc + (bs.map fun b => f m b.addr).sum) := by
  induction bs with
  | nil =>
    intro n acc hn _
    obtain ⟨n, rfl⟩ : ∃ k, n = k + 1 := ⟨n - 1, by omega⟩
    rfl
  | cons b bs ih =>
    intro n acc hn hlt
    obtain ⟨n, rfl⟩ : ∃ k, n = k + 1 := ⟨n - 1, by omega⟩
    simp only [List.map_cons, List.sum_cons] at hlt ⊢
    simp only [sumBlocks, headAddr_cons, if_neg (hne b (by simp)), he.1.next]
    rw [wrap_of_lt (by omega), ih (fun c hc => hne c (by simp [hc])) he.2 (by simpa using hn) (by omega),
      Nat.add_assoc]

/-- A statistic whose terms are bounded by the blocks they are for. -/
theorem heapSum_eq (hr : Rep m H) {f : Mem → Nat → Nat} {g : Blk → Nat}
    (hfg : ∀ b ∈ H.blocks, f m b.addr = g b) (hle : ∀ b, g b ≤ b.len) :
    heapSum f m = .ok ((H.blocks.map g).sum : Nat) := by
  have hsum := H.tiles.sum_len
  have hs := H.small
  have hmap : H.blocks.map (fun b => f m b.addr) = H.blocks.map g := List.map_congr_left hfg
  have hbound : ∀ bs : List Blk, (bs.map g).sum ≤ (bs.map Blk.len).sum := by
    intro bs
    induction bs with
    | nil => simp
    | cons b bs ih =>
      have := hle b
      simp only [List.map_cons, List.sum_cons]
      omega
  have hb := hbound H.blocks
  simp only [heapEnd, HEAP_START] at hsum
  unfold heapSum
  rw [← H.headAddr_root, sumBlocks_eq H.addr_ne_null hr H.length_lt (by rw [hmap]; omega), hmap]
  have hlt : (H.blocks.map g).sum < 2 ^ 31 := by omega
  simp only [Except.map, Nat.zero_add, toInt, wrap_of_lt (show (H.blocks.map g).sum < 2 ^ 32 by omega),
    if_pos hlt]

theorem isFree_eq_one (hr : Rep m H) {b : Blk} (hb : b ∈ H.blocks) : m.isFree b.addr = 1 ↔ b.free = true := by
  obtain ⟨_, hh⟩ := hr.header_mem hb
  rw [hh.free]
  cases b.free <;> simp

theorem isFree_eq_zero (hr : Rep m H) {b : Blk} (hb : b ∈ H.blocks) : m.isFree b.addr = 0 ↔ b.free = false := by
  obtain ⟨_, hh⟩ := hr.header_mem hb
  rw [hh.free]
  cases b.free <;> simp

theorem totalBlocks_eq (hr : Rep m H) : totalBlocks m = .ok ((H.blocks.map fun _ => 1).sum : Nat) :=
  heapSum_eq hr (fun _ _ => rfl) fun b => by unfold Blk.len; omega

theorem freeBlocks_eq (hr : Rep m H) :
    freeBlocks m = .ok ((H.blocks.map fun b => if b.free then 1 else 0).sum : Nat) :=
  heapSum_eq hr (fun _ hb => by simp only [isFree_eq_one hr hb]) fun b => by unfold Blk.len; split <;> omega

theorem usedBlocks_eq (hr : Rep m H) :
    usedBlocks m = .ok ((H.blocks.map fun b => if b.free then 0 else 1).sum : Nat) :=
  heapSum_eq hr (fun b hb => by simp only [isFree_eq_zero hr hb]; cases b.free <;> rfl)
    fun b => by unfold Blk.len; split <;> omega

theorem freeMemory_eq (hr : Rep m H) :
    freeMemory m = .ok ((H.blocks.map fun b => if b.free then b.size else 0).sum : Nat) :=
  heapSum_eq hr (fun b hb => by
    obtain ⟨_, hh⟩ := hr.header_mem hb
    simp only [isFree_eq_one hr hb, hh.size]) fun b => by unfold Blk.len; split <;> omega

theorem usedMemory_eq (hr : Rep m H) :
    usedMemory m = .ok ((H.blocks.map fun b => if b.free then 0 else b.size).sum : Nat) :=
  heapSum_eq hr (fun b hb => by
    obtain ⟨_, hh⟩ := hr.header_mem hb
    simp only [isFree_eq_zero hr hb, hh.size]
    cases b.free <;> rfl) fun b => by unfold Blk.len; split <;> omega

/-- Every block is counted once, as used or as free. -/
theorem sum_blocks_split (bs : List Blk) : (bs.map fun _ => 1).sum =
    (bs.map fun b => if b.free then 1 else 0).sum + (bs.map fun b => if b.free then 0 else 1).sum := by
  induction bs with
  | nil => rfl
  | cons b bs ih =>
    simp only [List.map_cons, List.sum_cons, ih]
    cases b.free <;> simp <;> omega

/-- Data and headers make up the blocks. -/
theorem sum_memory_split (bs : List Blk) : (bs.map Blk.len).sum =
    (bs.map fun b => if b.free then b.size else 0).sum + (bs.map fun b => if b.free then 0 else b.size).sum +
      16 * (bs.map fun _ => 1).sum := by
  induction bs with
  | nil => rfl
  | cons b bs ih =>
    simp only [List.map_cons, List.sum_cons, ih, Blk.len]
    cases b.free <;> simp <;> omega

end Ssmos

/-
The heap as its clients mean it: blocks that tile the heap's range, each used
or free. `Heap` carries the tiling as a field, so its operations (first-fit
allocation and release) are heaps again by construction. `Ssmos.MemoryFacts`
shows that the allocator's in-band headers represent one, and that `kmalloc`,
`krealloc` and `kfree` are these operations on it.
-/
import Ssmos.Base.Tiles
import Ssmos.Memory

namespace Ssmos

/-- A block: its header's address, the back link in it, its data's size. -/
structure Blk where
  addr : Nat
  prev : Nat
  size : Nat
  free : Bool
  deriving DecidableEq, Repr

namespace Blk

/-- The bytes a block takes, its header included. -/
def len (b : Blk) : Nat := 16 + b.size

/-- The pointer a client holds. -/
def data (b : Blk) : Nat := b.addr + 16

theorem data_inj {b c : Blk} : b.data = c.data ↔ b.addr = c.addr := Nat.add_right_cancel_iff

end Blk

def heapEnd (heapsize : Nat) : Nat := HEAP_START + heapsize * 1024

/-- A heap of `heapsize` KiB: 4-byte aligned blocks from `HEAP_START` to its
end, without gap or overlap. -/
structure Heap (heapsize : Nat) where
  blocks : List Blk
  tiles : Tiles Blk.addr Blk.len HEAP_START blocks (heapEnd heapsize)
  aligned : ∀ b ∈ blocks, b.addr % 4 = 0 ∧ b.size % 4 = 0
  pos : 1 ≤ heapsize
  small : heapsize ≤ 65535

/-! ## Operations on blocks -/

/-- A size rounded up to a multiple of four. -/
def round4 (size : Nat) : Nat := (size + 3) / 4 * 4

theorem round4_mod (size : Nat) : round4 size % 4 = 0 := by unfold round4; omega

theorem le_round4 (size : Nat) : size ≤ round4 size := by unfold round4; omega

/-- A free block cut after `s` bytes of data: a used block, then a free one. -/
def cut (s : Nat) (b : Blk) : List Blk :=
  [{ b with size := s, free := false }, ⟨b.addr + 16 + s, b.addr, b.size - (s + 16), true⟩]

/-- What becomes of the block that serves a request for `s` bytes. -/
def place (s : Nat) (b : Blk) : List Blk :=
  if s + 20 ≤ b.size then cut s b else [{ b with free := false }]

def Blk.fits (s : Nat) (b : Blk) : Prop := b.free = true ∧ s ≤ b.size

instance (s : Nat) (b : Blk) : Decidable (b.fits s) := inferInstanceAs (Decidable (_ ∧ _))

/-- The first block that can serve a request for `s` bytes, with the blocks
before and after it. -/
def firstFit (s : Nat) : List Blk → Option (List Blk × Blk × List Blk)
  | [] => none
  | b :: bs =>
    if b.fits s then some ([], b, bs)
    else (firstFit s bs).map fun (pre, c, post) => (b :: pre, c, post)

theorem firstFit_eq_some {s : Nat} {bs pre post : List Blk} {b : Blk} :
    firstFit s bs = some (pre, b, post) ↔
      bs = pre ++ b :: post ∧ b.fits s ∧ ∀ c ∈ pre, ¬ c.fits s := by
  induction bs generalizing pre with
  | nil => simp [firstFit]
  | cons c bs ih =>
    simp only [firstFit]
    split
    · next hc =>
      constructor
      · intro hx
        cases hx
        simp [hc]
      · intro hx
        obtain ⟨he, hb, hpre⟩ := hx
        cases pre with
        | nil => simp_all
        | cons d pre =>
          simp only [List.cons_append, List.cons.injEq] at he
          exact absurd hc (he.1 ▸ hpre d (by simp))
    · next hc =>
      simp only [Option.map_eq_some_iff, Prod.exists, Prod.mk.injEq]
      constructor
      · intro hx
        obtain ⟨pre', d, post', h, rfl, rfl, rfl⟩ := hx
        obtain ⟨rfl, hd, hpre⟩ := ih.mp h
        exact ⟨rfl, hd, by simpa [hc] using hpre⟩
      · intro hx
        obtain ⟨he, hb, hpre⟩ := hx
        cases pre with
        | nil =>
          simp only [List.nil_append, List.cons.injEq] at he
          exact absurd (he.1 ▸ hb) hc
        | cons d pre =>
          simp only [List.cons_append, List.cons.injEq] at he
          obtain ⟨rfl, rfl⟩ := he
          exact ⟨pre, b, post, ih.mpr ⟨rfl, hb, fun c hc => hpre c (by simp [hc])⟩, rfl, rfl, rfl⟩

theorem firstFit_eq_none {s : Nat} {bs : List Blk} :
    firstFit s bs = none ↔ ∀ b ∈ bs, ¬ b.fits s := by
  induction bs with
  | nil => simp [firstFit]
  | cons c bs ih =>
    simp only [firstFit]
    split <;> simp_all

theorem cut_tiles {s : Nat} {b : Blk} (hs : s + 16 ≤ b.size) :
    Tiles Blk.addr Blk.len b.addr (cut s b) (b.addr + b.len) := by
  refine ⟨rfl, ?_, ?_⟩
  · simp only [Blk.len]; omega
  · simp only [Tiles, Blk.len]; omega

theorem place_tiles {s : Nat} {b : Blk} : Tiles Blk.addr Blk.len b.addr (place s b) (b.addr + b.len) := by
  unfold place
  split
  · exact cut_tiles (by omega)
  · simp [Tiles, Blk.len]

theorem cut_aligned {s : Nat} {b : Blk} (hs : s % 4 = 0) (hb : b.addr % 4 = 0 ∧ b.size % 4 = 0)
    (hle : s + 16 ≤ b.size) : ∀ c ∈ cut s b, c.addr % 4 = 0 ∧ c.size % 4 = 0 := by
  intro c hc
  simp only [cut, List.mem_cons, List.not_mem_nil, or_false] at hc
  rcases hc with rfl | rfl <;> simp only <;> omega

theorem place_aligned {s : Nat} {b : Blk} (hs : s % 4 = 0) (hb : b.addr % 4 = 0 ∧ b.size % 4 = 0) :
    ∀ c ∈ place s b, c.addr % 4 = 0 ∧ c.size % 4 = 0 := by
  unfold place
  split
  · exact cut_aligned hs hb (by omega)
  · simpa using hb

/-- Mark the block at data pointer `p` free. -/
def releaseBlk (p : Nat) (b : Blk) : Blk := if b.data = p then { b with free := true } else b

@[simp] theorem releaseBlk_addr (p : Nat) (b : Blk) : (releaseBlk p b).addr = b.addr := by
  unfold releaseBlk; split <;> rfl

@[simp] theorem releaseBlk_prev (p : Nat) (b : Blk) : (releaseBlk p b).prev = b.prev := by
  unfold releaseBlk; split <;> rfl

@[simp] theorem releaseBlk_size (p : Nat) (b : Blk) : (releaseBlk p b).size = b.size := by
  unfold releaseBlk; split <;> rfl

@[simp] theorem releaseBlk_len (p : Nat) (b : Blk) : (releaseBlk p b).len = b.len := by simp [Blk.len]

@[simp] theorem releaseBlk_data (p : Nat) (b : Blk) : (releaseBlk p b).data = b.data := by
  simp [Blk.data]

theorem releaseBlk_free {p : Nat} {b : Blk} :
    (releaseBlk p b).free = true ↔ b.data = p ∨ b.free = true := by
  unfold releaseBlk
  split
  · next h => simp [h]
  · next h => simp [h]

/-! ## Operations on heaps -/

namespace Heap

variable {heapsize : Nat}

/-- A block of the heap replaced by aligned blocks that tile it. -/
def replace (H : Heap heapsize) (pre : List Blk) (b : Blk) (post ws : List Blk)
    (hH : H.blocks = pre ++ b :: post) (ht : Tiles Blk.addr Blk.len b.addr ws (b.addr + b.len))
    (ha : ∀ c ∈ ws, c.addr % 4 = 0 ∧ c.size % 4 = 0) : Heap heapsize where
  blocks := pre ++ (ws ++ post)
  tiles := (hH ▸ H.tiles).replace ht
  aligned := by
    intro c hc
    have hmem : ∀ d, d ∈ pre ∨ d ∈ post → d ∈ H.blocks := fun d hd => by
      rw [hH]; simp only [List.mem_append, List.mem_cons]; tauto
    simp only [List.mem_append] at hc
    rcases hc with h | h | h
    · exact H.aligned c (hmem c (.inl h))
    · exact ha c h
    · exact H.aligned c (hmem c (.inr h))
  pos := H.pos
  small := H.small

/-- First-fit allocation: the data pointer, and the heap after. -/
def malloc (H : Heap heapsize) (size : Nat) : Option (Nat × Heap heapsize) :=
  match h : firstFit (round4 size) H.blocks with
  | none => none
  | some (pre, b, post) =>
    have hH := (firstFit_eq_some.mp h).1
    some (b.data, H.replace pre b post (place (round4 size) b) hH place_tiles
      (place_aligned (round4_mod size) (H.aligned b (by rw [hH]; simp))))

def release (H : Heap heapsize) (p : Nat) : Heap heapsize where
  blocks := H.blocks.map (releaseBlk p)
  tiles := H.tiles.map (releaseBlk_addr p) (releaseBlk_len p)
  aligned := by
    intro c hc
    obtain ⟨b, hb, rfl⟩ := List.mem_map.mp hc
    simpa using H.aligned b hb
  pos := H.pos
  small := H.small

/-- The block an allocation takes, and what it leaves of it. -/
theorem malloc_eq_some {H H' : Heap heapsize} {size p : Nat} : H.malloc size = some (p, H') ↔
    ∃ pre b post, firstFit (round4 size) H.blocks = some (pre, b, post) ∧ p = b.data ∧
      H'.blocks = pre ++ (place (round4 size) b ++ post) := by
  unfold malloc
  split
  · next h => simp [h]
  · next pre b post h =>
    simp only [Option.some.injEq, Prod.mk.injEq]
    constructor
    · intro hx
      obtain ⟨rfl, rfl⟩ := hx
      exact ⟨pre, b, post, h, rfl, rfl⟩
    · intro hx
      obtain ⟨pre', b', post', h', rfl, he⟩ := hx
      rw [h] at h'
      obtain ⟨rfl, rfl, rfl⟩ : pre = pre' ∧ b = b' ∧ post = post' := by simpa using h'
      refine ⟨rfl, ?_⟩
      cases H'
      simp only [Heap.replace, Heap.mk.injEq]
      exact he.symm

theorem malloc_eq_none {H : Heap heapsize} {size : Nat} :
    H.malloc size = none ↔ ∀ b ∈ H.blocks, ¬ b.fits (round4 size) := by
  rw [← firstFit_eq_none]
  unfold malloc
  split <;> simp_all

/-! ## Where blocks are -/

theorem bounds (H : Heap heapsize) {b : Blk} (hb : b ∈ H.blocks) :
    0x100000 ≤ b.addr ∧ b.addr + 16 + b.size ≤ heapEnd heapsize ∧ heapEnd heapsize ≤ 0x40ffc00 := by
  have h := H.tiles.bounds hb
  have hs := H.small
  simp only [Blk.len] at h
  simp only [heapEnd, HEAP_START] at h ⊢
  omega

theorem eq_of_addr (H : Heap heapsize) {b c : Blk} (hb : b ∈ H.blocks) (hc : c ∈ H.blocks)
    (h : b.addr = c.addr) : b = c :=
  H.tiles.eq_of_start (fun w _ => by unfold Blk.len; omega) hb hc h

/-- Different blocks do not overlap, headers included. -/
theorem apart (H : Heap heapsize) {b c : Blk} (hb : b ∈ H.blocks) (hc : c ∈ H.blocks)
    (hne : b.addr ≠ c.addr) : b.addr + 16 + b.size ≤ c.addr ∨ c.addr + 16 + c.size ≤ b.addr := by
  have := H.tiles.apart hb hc hne
  simp only [Blk.len] at this
  omega

/-- An `int` can count the blocks. -/
theorem length_lt_int (H : Heap heapsize) : H.blocks.length < 2 ^ 31 := by
  have hsum := H.tiles.sum_len
  have hlen : ∀ bs : List Blk, 16 * bs.length ≤ (bs.map Blk.len).sum := by
    intro bs
    induction bs with
    | nil => simp
    | cons b bs ih =>
      simp only [List.length_cons, List.map_cons, List.sum_cons, Blk.len]
      omega
  have := hlen H.blocks
  have hs := H.small
  simp only [heapEnd, HEAP_START] at hsum
  omega

/-- There are fewer blocks than turns of a loop over them. -/
theorem length_lt (H : Heap heapsize) : H.blocks.length < loopBound :=
  Nat.lt_trans H.length_lt_int (by decide)

theorem blocks_ne_nil (H : Heap heapsize) : H.blocks ≠ [] := by
  intro h
  have ht := H.tiles
  have hp := H.pos
  simp only [h, Tiles, heapEnd, HEAP_START] at ht
  omega

theorem root_addr {H : Heap heapsize} {b : Blk} {bs : List Blk} (hH : H.blocks = b :: bs) : b.addr = HEAP_START := by
  have ht := H.tiles
  rw [hH] at ht
  exact ht.1

/-- The first block is the root. -/
theorem exists_root (H : Heap heapsize) : ∃ b bs, H.blocks = b :: bs ∧ b.addr = HEAP_START := by
  obtain ⟨b, bs, hH⟩ := List.exists_cons_of_ne_nil H.blocks_ne_nil
  exact ⟨b, bs, hH, root_addr hH⟩

theorem data_lt (H : Heap heapsize) {b : Blk} (hb : b ∈ H.blocks) : b.data + b.size < 2 ^ 32 := by
  have := H.bounds hb
  simp only [Blk.data]
  omega

theorem data_apart (H : Heap heapsize) {b c : Blk} (hb : b ∈ H.blocks) (hc : c ∈ H.blocks)
    (hne : b.data ≠ c.data) : b.data + b.size + 16 ≤ c.data ∨ c.data + c.size + 16 ≤ b.data := by
  simp only [Blk.data] at hne ⊢
  have := H.apart hb hc fun he => hne (by omega)
  omega

/-- A block's data lies outside every header. -/
theorem data_not_header (H : Heap heapsize) {b c : Blk} (hb : b ∈ H.blocks) (hc : c ∈ H.blocks) {x : Nat}
    (h₁ : b.data ≤ x) (h₂ : x < b.data + b.size) : ¬ (c.addr ≤ x ∧ x < c.addr + 16) := by
  simp only [Blk.data] at h₁ h₂
  by_cases he : b.addr = c.addr
  · omega
  · have := H.apart hb hc he
    omega

/-! ## Pointers -/

/-- `q` is the data pointer of a block of `n` bytes in use. -/
def Used (H : Heap heapsize) (q n : Nat) : Prop :=
  ∃ b ∈ H.blocks, b.free = false ∧ b.data = q ∧ b.size = n

/-- `q` is the data pointer of a block, used or free. -/
def Ptr (H : Heap heapsize) (q : Nat) : Prop := ∃ b ∈ H.blocks, b.data = q

theorem eq_of_data (H : Heap heapsize) {b c : Blk} (hb : b ∈ H.blocks) (hc : c ∈ H.blocks)
    (h : b.data = c.data) : b = c :=
  H.eq_of_addr hb hc (Blk.data_inj.mp h)

theorem Used.ptr {H : Heap heapsize} {q n : Nat} (h : H.Used q n) : H.Ptr q := by
  obtain ⟨b, hb, -, hd, -⟩ := h
  exact ⟨b, hb, hd⟩

theorem Used.unique {H : Heap heapsize} {q n k : Nat} (h₁ : H.Used q n) (h₂ : H.Used q k) : n = k := by
  obtain ⟨b, hb, -, hd, rfl⟩ := h₁
  obtain ⟨c, hc, -, hd', rfl⟩ := h₂
  rw [H.eq_of_data hb hc (hd.trans hd'.symm)]

theorem place_used {s : Nat} {b : Blk} (hs : s ≤ b.size) :
    ∃ n, s ≤ n ∧ ∀ c, c ∈ place s b ∧ c.free = false ↔ c = { b with size := n, free := false } := by
  unfold place
  split
  · refine ⟨s, Nat.le_refl _, fun c => ?_⟩
    simp only [cut, List.mem_cons, List.not_mem_nil, or_false]
    constructor
    · intro hx
      rcases hx with ⟨rfl | rfl, hf⟩
      · rfl
      · cases hf
    · intro hx
      subst hx
      exact ⟨.inl rfl, rfl⟩
  · refine ⟨b.size, hs, fun c => ?_⟩
    simp only [List.mem_singleton]
    exact ⟨fun h => h.1, fun h => ⟨h, by rw [h]⟩⟩

section Malloc

variable {H H' : Heap heapsize} {size p q k : Nat}

/-- A block that is not the one replaced stays. -/
theorem mem_replaced {pre post bs : List Blk} {b c : Blk} (hc : c ∈ pre ++ b :: post) (hne : c ≠ b) :
    c ∈ pre ++ (bs ++ post) := by
  simp only [List.mem_append, List.mem_cons] at hc ⊢
  rcases hc with hc | rfl | hc
  · exact .inl hc
  · exact absurd rfl hne
  · exact .inr (.inr hc)

/-- The block that serves a request is free and large enough. -/
theorem malloc_took (h : H.malloc size = some (p, H')) :
    ∃ b ∈ H.blocks, b.free = true ∧ round4 size ≤ b.size ∧ b.data = p := by
  obtain ⟨pre, b, post, hfit, rfl, -⟩ := malloc_eq_some.mp h
  obtain ⟨hH, ⟨hfree, hle⟩, -⟩ := firstFit_eq_some.mp hfit
  exact ⟨b, by rw [hH]; simp, hfree, hle, rfl⟩

/-- An allocation makes one pointer used, of a block large enough, that was not. -/
theorem malloc_used (h : H.malloc size = some (p, H')) : ∃ n, size ≤ n ∧ H'.Used p n ∧
    (∀ k, ¬ H.Used p k) ∧ ∀ q k, H'.Used q k ↔ (q = p ∧ k = n) ∨ H.Used q k := by
  obtain ⟨pre, b, post, hfit, rfl, hH'⟩ := malloc_eq_some.mp h
  obtain ⟨hH, ⟨hfree, hle⟩, -⟩ := firstFit_eq_some.mp hfit
  obtain ⟨n, hn, hplace⟩ := place_used hle
  have hb : b ∈ H.blocks := by rw [hH]; simp
  have hnot : ∀ k, ¬ H.Used b.data k := by
    intro k hx
    obtain ⟨c, hc, hcf, hd, -⟩ := hx
    have := H.eq_of_data hc hb hd
    subst this
    rw [hfree] at hcf; cases hcf
  have hiff : ∀ q k, H'.Used q k ↔ (q = b.data ∧ k = n) ∨ H.Used q k := by
    intro q k
    unfold Used
    rw [hH', hH]
    simp only [List.mem_append, List.mem_cons]
    constructor
    · intro hx
      rcases hx with ⟨c, hc | hc | hc, hf, rfl, rfl⟩
      · exact .inr ⟨c, .inl hc, hf, rfl, rfl⟩
      · have := (hplace c).mp ⟨hc, hf⟩
        subst this
        exact .inl ⟨rfl, rfl⟩
      · exact .inr ⟨c, .inr (.inr hc), hf, rfl, rfl⟩
    · intro hx
      rcases hx with ⟨rfl, rfl⟩ | ⟨c, hc | rfl | hc, hf, rfl, rfl⟩
      · exact ⟨_, .inr (.inl ((hplace _).mpr rfl).1), rfl, rfl, rfl⟩
      · exact ⟨c, .inl hc, hf, rfl, rfl⟩
      · rw [hfree] at hf; cases hf
      · exact ⟨c, .inr (.inr hc), hf, rfl, rfl⟩
  exact ⟨n, Nat.le_trans (le_round4 size) hn, (hiff _ _).mpr (.inl ⟨rfl, rfl⟩), hnot, hiff⟩

/-- Which pointers are in use after an allocation. -/
theorem malloc_inUse (h : H.malloc size = some (p, H')) : (∃ k, H'.Used q k) ↔ q = p ∨ ∃ k, H.Used q k := by
  obtain ⟨n, -, -, -, hiff⟩ := malloc_used h
  simp only [hiff]
  constructor
  · intro hx
    rcases hx with ⟨k, ⟨rfl, -⟩ | hk⟩
    · exact .inl rfl
    · exact .inr ⟨k, hk⟩
  · intro hx
    rcases hx with rfl | ⟨k, hk⟩
    · exact ⟨n, .inl ⟨rfl, rfl⟩⟩
    · exact ⟨k, .inr hk⟩

theorem malloc_not_inUse (h : H.malloc size = some (p, H')) : ¬∃ k, H.Used p k := by
  obtain ⟨n, -, -, hnot, -⟩ := malloc_used h
  exact fun hx => hnot hx.choose hx.choose_spec

/-- Blocks other than the one taken stay as they are. -/
theorem malloc_keeps (h : H.malloc size = some (p, H')) {c : Blk} (hc : c ∈ H.blocks)
    (hne : c.data ≠ p) : c ∈ H'.blocks := by
  obtain ⟨pre, b, post, hfit, rfl, hH'⟩ := malloc_eq_some.mp h
  have hH := (firstFit_eq_some.mp hfit).1
  rw [hH] at hc
  rw [hH']
  exact mem_replaced hc fun he => hne (congrArg Blk.data he)

theorem malloc_ptr (h : H.malloc size = some (p, H')) (hq : H.Ptr q) : H'.Ptr q := by
  by_cases hp : q = p
  · obtain ⟨n, -, hu, -⟩ := malloc_used h
    exact hp ▸ hu.ptr
  · obtain ⟨c, hc, rfl⟩ := hq
    exact ⟨c, malloc_keeps h hc hp, rfl⟩

theorem malloc_length (h : H.malloc size = some (p, H')) : H.blocks.length ≤ H'.blocks.length := by
  obtain ⟨pre, b, post, hfit, -, hH'⟩ := malloc_eq_some.mp h
  have hp : 1 ≤ (place (round4 size) b).length := by unfold place; split <;> simp [cut]
  rw [(firstFit_eq_some.mp hfit).1, hH']
  simp only [List.length_append, List.length_cons]
  omega

/-- A request is never served by a block smaller than it. -/
theorem malloc_ne_of_size_lt (h : H.malloc size = some (p, H')) {c : Blk} (hc : c ∈ H.blocks)
    (hlt : c.size < size) : c.data ≠ p := by
  obtain ⟨b, hb, -, hle, rfl⟩ := malloc_took h
  have hround := le_round4 size
  intro hd
  obtain rfl := H.eq_of_data hc hb hd
  omega

theorem release_used : (H.release p).Used q k ↔ H.Used q k ∧ q ≠ p := by
  unfold Used release
  simp only [List.mem_map]
  constructor
  · intro hx
    obtain ⟨-, ⟨b, hb, rfl⟩, hf, rfl, rfl⟩ := hx
    have hnot : ¬ (b.data = p ∨ b.free = true) := by rw [← releaseBlk_free, hf]; simp
    simp only [not_or, Bool.not_eq_true] at hnot
    simp only [releaseBlk_data, releaseBlk_size]
    exact ⟨⟨b, hb, hnot.2, rfl, rfl⟩, hnot.1⟩
  · intro hx
    obtain ⟨⟨b, hb, hf, rfl, rfl⟩, hne⟩ := hx
    exact ⟨_, ⟨b, hb, rfl⟩, by simp [releaseBlk, hne, hf], by simp, by simp⟩

theorem release_inUse : (∃ k, (H.release p).Used q k) ↔ q ≠ p ∧ ∃ k, H.Used q k := by
  simp only [release_used, exists_and_right]
  exact And.comm

theorem release_ptr : (H.release p).Ptr q ↔ H.Ptr q := by
  simp [Ptr, release]

end Malloc

/-- Reallocation of the block `b`: moved when it is too small. -/
def realloc (H : Heap heapsize) (b : Blk) (newsz : Nat) : Option (Nat × Heap heapsize) :=
  if b.size < newsz then (H.malloc newsz).map fun (q, H') => (q, H'.release b.data)
  else some (b.data, H)

/-- The heap `memory_init` writes: one free block. -/
def init (heapsize : Nat) (hpos : 1 ≤ heapsize) (hsmall : heapsize ≤ 65535) : Heap heapsize where
  blocks := [⟨HEAP_START, NULL, heapsize * 1024 - 16, true⟩]
  tiles := ⟨rfl, by simp only [Tiles, Blk.len, heapEnd, HEAP_START]; omega⟩
  aligned := by
    intro b hb
    simp only [List.mem_singleton] at hb
    subst hb
    have ha : HEAP_START % 4 = 0 := by decide
    have hs : (heapsize * 1024 - 16) % 4 = 0 := by omega
    exact ⟨ha, hs⟩
  pos := hpos
  small := hsmall

end Heap

end Ssmos

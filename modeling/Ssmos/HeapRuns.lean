/-
Whole runs of the allocator: what holds of the heap after any sequence of
calls, from the heap `memory_init` leaves behind.

A run's state carries, beside the memory, the pointers clients hold (`live`)
and the pointers ever returned (`ever`). A well-behaved client passes live
pointers only (`LiveStep`) and writes inside its own blocks; a careless one
passes any pointer it was ever given (`EverStep`), double frees included.
-/
import Ssmos.Base.Runs
import Ssmos.List
import Ssmos.HeapWalk

namespace Ssmos

/-! ## Calls -/

/-- A client's call of the allocator, or its write of a byte in a block. -/
inductive Call
  | kmalloc (size : Nat)
  | krealloc (p newsz : Nat)
  | kfree (p : Nat)
  | write (p i : Nat) (v : UInt8)
  deriving DecidableEq

structure HeapState where
  mem : Mem
  live : List Nat
  ever : List Nat

/-- The effect of a call that returns. -/
def Call.run (s : HeapState) : Call → Except Stop HeapState
  | .kmalloc size => do
    let (p, m) ← Ssmos.kmalloc s.mem size
    .ok ⟨m, p :: s.live, p :: s.ever⟩
  | .krealloc p newsz => do
    let (q, m) ← Ssmos.krealloc s.mem p newsz
    .ok ⟨m, q :: s.live.erase p, q :: s.ever⟩
  | .kfree p => .ok ⟨Ssmos.kfree s.mem p, s.live.erase p, s.ever⟩
  | .write p i v => .ok { s with mem := s.mem.store8 (p + i) v }

/-- The pointer a call is made on. -/
def Call.on : Call → Option Nat
  | .kmalloc _ => none
  | .krealloc p _ | .kfree p | .write p _ _ => some p

/-- Sizes are at most `2 ^ 32 - 4`, and a client writes inside the block. -/
def Call.sized (m : Mem) : Call → Prop
  | .kmalloc size => size ≤ 2 ^ 32 - 4
  | .krealloc _ newsz => newsz ≤ 2 ^ 32 - 4
  | .kfree _ => True
  | .write p i _ => i < m.blockSize (toHeader p)

/-- A call by a client that passes only pointers it holds. -/
def LiveStep (s : HeapState) (c : Call) (s' : HeapState) : Prop :=
  (∀ p, c.on = some p → p ∈ s.live) ∧ c.sized s.mem ∧ c.run s = .ok s'

/-- A call by a client that passes any pointer it was ever given. -/
def EverStep (s : HeapState) (c : Call) (s' : HeapState) : Prop :=
  (∀ p, c.on = some p → p ∈ s.ever) ∧ c.sized s.mem ∧ c.run s = .ok s'

/-- The heap after `memory_init`: the log's first node is allocated. -/
def Booted (heapsize : Nat) (s : HeapState) : Prop :=
  1 ≤ heapsize ∧ heapsize ≤ 65535 ∧ ∃ m msg systemlog m',
    memoryInit m heapsize msg = .ok (systemlog, m') ∧ s = ⟨m', [systemlog], [systemlog]⟩

/-! ## Running calls -/

instance decidableHeld (o : Option Nat) (l : List Nat) : Decidable (∀ p, o = some p → p ∈ l) :=
  match o with
  | none => isTrue nofun
  | some p => decidable_of_iff (p ∈ l) (by simp)

instance (m : Mem) (c : Call) : Decidable (c.sized m) :=
  match c with
  | .kmalloc size | .krealloc _ size => inferInstanceAs (Decidable (size ≤ 2 ^ 32 - 4))
  | .kfree _ => isTrue trivial
  | .write p i _ => inferInstanceAs (Decidable (i < m.blockSize (toHeader p)))

/-- The step a call makes, if it passes one of the pointers `held s`. -/
def Call.step? (held : HeapState → List Nat) (s : HeapState) (c : Call) : Option HeapState :=
  if (∀ p, c.on = some p → p ∈ held s) ∧ c.sized s.mem then (c.run s).toOption else none

theorem Call.step?_eq_some {held : HeapState → List Nat} {s s' : HeapState} {c : Call} :
    c.step? held s = some s' ↔
      (∀ p, c.on = some p → p ∈ held s) ∧ c.sized s.mem ∧ c.run s = .ok s' := by
  unfold Call.step?
  split
  · next h =>
    rw [Except.toOption_eq_some]
    exact ⟨fun he => ⟨h.1, h.2, he⟩, fun he => he.2.2⟩
  · next h =>
    simp only [reduceCtorEq, false_iff]
    exact fun ⟨h₁, h₂, _⟩ => h ⟨h₁, h₂⟩

/-- The state after boot, over a memory of zeros. -/
def bootState (heapsize : Nat) : Option HeapState :=
  (memoryInit ⟨fun _ => 0, []⟩ heapsize 0).toOption.map fun (systemlog, m) =>
    ⟨m, [systemlog], [systemlog]⟩

theorem bootState_booted {heapsize : Nat} {s : HeapState} (hpos : 1 ≤ heapsize)
    (hsmall : heapsize ≤ 65535) (h : bootState heapsize = some s) : Booted heapsize s := by
  simp only [bootState, Option.map_eq_some_iff, Prod.exists, Except.toOption_eq_some] at h
  obtain ⟨systemlog, m, hm, rfl⟩ := h
  exact ⟨hpos, hsmall, _, _, _, _, hm, rfl⟩

/-- The run of calls on held pointers from boot on. -/
def runFrom (held : HeapState → List Nat) (heapsize : Nat) (calls : List Call) : Option HeapState :=
  (bootState heapsize).bind fun s => exec (Call.step? held) s calls

theorem runFrom_eq_some {held : HeapState → List Nat} {heapsize : Nat} {calls : List Call}
    {s : HeapState} (hpos : 1 ≤ heapsize) (hsmall : heapsize ≤ 65535)
    (h : runFrom held heapsize calls = some s) :
    ∃ s₀, Booted heapsize s₀ ∧ Runs (fun s c s' => (∀ p, c.on = some p → p ∈ held s) ∧
      c.sized s.mem ∧ c.run s = .ok s') s₀ calls s := by
  simp only [runFrom, Option.bind_eq_some_iff] at h
  obtain ⟨s₀, hb, h⟩ := h
  exact ⟨s₀, bootState_booted hpos hsmall hb, (exec_eq_some Call.step?_eq_some).mp h⟩

/-! ## Boot -/

section Boot

variable {heapsize : Nat} {m : Mem}

theorem initRoot_rep (hpos : 1 ≤ heapsize) (hsmall : heapsize ≤ 65535) :
    Rep (initRoot m heapsize) (Heap.init heapsize hpos hsmall) := by
  have hsz : wrap (heapsize * 1024 + (2 ^ 32 - 16)) = heapsize * 1024 - 16 := by unfold wrap; omega
  simp only [initRoot, Mem.setNextPtr, Mem.setPrevPtr, Mem.setBlockSize, Mem.setIsFree, HEADER_SIZE]
  refine ⟨⟨?_, ?_, ?_, ?_⟩, trivial⟩ <;>
    simp only [Mem.nextPtr, Mem.prevPtr, Mem.blockSize, Mem.isFree, HEAP_START, headAddr]
  · simp (disch := omega) only [Mem.load32_store32_same, Mem.load32_store32_ne]; rfl
  · simp (disch := omega) only [Mem.load32_store32_same, Mem.load32_store32_ne]; rfl
  · simp (disch := omega) only [Mem.load32_store32_same, Mem.load32_store32_ne, hsz]
  · simp only [Mem.load32_store32_same]; rfl

/-- The first block cut off, for the log's node. -/
theorem initRoot_malloc (m : Mem) (hpos : 1 ≤ heapsize) (hsmall : heapsize ≤ 65535) :
    ∃ (m₁ : Mem) (H : Heap heapsize), malloc (initRoot m heapsize) ELEMENT_SIZE = .ok (HEAP_START + 16, m₁) ∧
      H.blocks = cut 12 ⟨HEAP_START, NULL, heapsize * 1024 - 16, true⟩ ∧ Rep m₁ H ∧
      Wrote (initRoot m heapsize) m₁ (headerBytes H.blocks) := by
  let r : Blk := ⟨HEAP_START, NULL, heapsize * 1024 - 16, true⟩
  have hr : Rep (initRoot m heapsize) (Heap.init heapsize hpos hsmall) := initRoot_rep hpos hsmall
  obtain ⟨m₁, H, hk, hH, hr₁, hw⟩ := kmalloc_fresh hr (r := r) rfl rfl
    (by decide : ELEMENT_SIZE ≤ 2 ^ 32 - 4)
    (show 12 + 16 ≤ heapsize * 1024 - 16 by omega)
  refine ⟨m₁, H, ?_, hH, hr₁, hw⟩
  rw [malloc, retry_eq (kmalloc · ELEMENT_SIZE) fun p m' h => ?_]
  · exact hk
  · rw [hk] at h
    cases h
    exact (by decide : HEAP_START + 16 ≠ NULL)

/-- `memory_init` returns, with the log's node allocated below one free block. -/
theorem memoryInit_eq (m : Mem) (msg : Nat) (hpos : 1 ≤ heapsize) (hsmall : heapsize ≤ 65535) :
    ∃ (m' : Mem) (H : Heap heapsize), memoryInit m heapsize msg = .ok (HEAP_START + 16, m') ∧
      H.blocks = cut 12 ⟨HEAP_START, NULL, heapsize * 1024 - 16, true⟩ ∧ Rep m' H := by
  obtain ⟨m₁, H, hmalloc, hH, hr₁, -⟩ := initRoot_malloc m hpos hsmall
  refine ⟨((m₁.setValue (HEAP_START + 16) msg).setNext (HEAP_START + 16) NULL).setPrev (HEAP_START + 16) NULL,
    H, ?_, hH, ?_⟩
  · simp only [memoryInit, klog, listNew, hmalloc, Except.ok_bind]
    rfl
  -- The node's words are the data of the block that was cut off.
  have hb : (⟨HEAP_START, NULL, 12, false⟩ : Blk) ∈ H.blocks := by rw [hH]; exact List.mem_cons_self
  have store : ∀ {m : Mem} {a v : Nat}, HEAP_START + 16 ≤ a → a + 4 ≤ HEAP_START + 28 → Rep m H →
      Rep (m.store32 a v) H := by
    intro m a v h₁ h₂ hr
    have hend : HEAP_START + 28 ≤ 2 ^ 32 := by decide
    refine hr.frame (Wrote.store32_Ico (by omega) (Set.Subset.refl _)) fun x hx hm => ?_
    simp only [Set.mem_Ico] at hm
    exact Heap.data_not_headerBytes hb (x := x) (by simp only [Blk.data]; omega)
      (by simp only [Blk.data]; omega) hx
  exact store (by omega) (by omega) (store (by omega) (by omega) (store (by omega) (by omega) hr₁))

end Boot

/-! ## The invariant of a run -/

/-- `s` represents `H`, something was allocated from it, and every pointer ever
returned is still the data pointer of a block. -/
structure HeapState.Inv {heapsize : Nat} (s : HeapState) (H : Heap heapsize) : Prop where
  rep : Rep s.mem H
  split : 2 ≤ H.blocks.length
  ever : ∀ p ∈ s.ever, H.Ptr p

/-- The live pointers are those of the used blocks, each once. -/
structure HeapState.LiveInv {heapsize : Nat} (s : HeapState) (H : Heap heapsize) : Prop extends
    s.Inv H where
  nodup : s.live.Nodup
  live : ∀ q, q ∈ s.live ↔ ∃ n, H.Used q n

namespace HeapState.Inv

variable {heapsize : Nat} {s s' : HeapState} {H : Heap heapsize} {c : Call}

theorem not_untouched (hi : s.Inv H) : ¬ untouched s.mem := by
  rw [untouched_iff hi.rep]
  intro hx
  obtain ⟨r, hr, -⟩ := hx
  have := hi.split
  simp [hr] at this

end HeapState.Inv

/-! ## What a call does -/

/-- What a call that returned did to a represented heap: the abstract heap and
the pointers after it, and which bytes it wrote. -/
inductive Effect {heapsize : Nat} (H : Heap heapsize) (s : HeapState) :
    Call → Heap heapsize → HeapState → Prop
  | kmalloc {size p H' m'} : H.malloc size = some (p, H') → Rep m' H' →
      Wrote s.mem m' (headerBytes H'.blocks) →
      Effect H s (.kmalloc size) H' ⟨m', p :: s.live, p :: s.ever⟩
  /-- `krealloc` of a block that is large enough. -/
  | stays {b newsz} : b ∈ H.blocks → ¬ b.size < newsz →
      Effect H s (.krealloc b.data newsz) H ⟨s.mem, b.data :: s.live.erase b.data, b.data :: s.ever⟩
  | moves {b newsz q H₁ m'} : b ∈ H.blocks → b.size < newsz → H.malloc newsz = some (q, H₁) →
      Rep m' (H₁.release b.data) → Wrote s.mem m' (headerBytes H₁.blocks ∪ Set.Ico q (q + b.size)) →
      Effect H s (.krealloc b.data newsz) (H₁.release b.data)
        ⟨m', q :: s.live.erase b.data, q :: s.ever⟩
  | kfree {b m'} : b ∈ H.blocks → Rep m' (H.release b.data) → Wrote s.mem m' (headerBytes H.blocks) →
      Effect H s (.kfree b.data) (H.release b.data) ⟨m', s.live.erase b.data, s.ever⟩
  | write {b i v m'} : b ∈ H.blocks → i < b.size → Rep m' H → Wrote s.mem m' {b.data + i} →
      Effect H s (.write b.data i v) H ⟨m', s.live, s.ever⟩

section Steps

variable {heapsize : Nat} {s s' : HeapState} {H H' : Heap heapsize} {c : Call} {q : Nat}

/-- A call on pointers to blocks has one of these effects. -/
theorem Call.run_effect (hi : s.Inv H) (hon : ∀ p, c.on = some p → H.Ptr p) (hs : c.sized s.mem)
    (h : c.run s = .ok s') : ∃ H' : Heap heapsize, Effect H s c H' s' := by
  have hu := hi.not_untouched
  cases c with
  | kmalloc size =>
    simp only [Call.run, Except.bind_ok_iff, Prod.exists] at h
    obtain ⟨p, m', hk, h⟩ := h
    cases h
    obtain ⟨H', hm, hr, hw⟩ := kmalloc_ok hi.rep hu hs hk
    exact ⟨H', .kmalloc hm hr hw⟩
  | krealloc p newsz =>
    obtain ⟨b, hb, rfl⟩ := hon p rfl
    simp only [Call.run, Except.bind_ok_iff, Prod.exists] at h
    obtain ⟨q, m', hk, h⟩ := h
    cases h
    by_cases hlt : b.size < newsz
    · obtain ⟨H', hm, hr, hw, -⟩ := krealloc_ok hi.rep hu hb hs hk
      simp only [Heap.realloc, if_pos hlt, Option.map_eq_some_iff, Prod.exists, Prod.mk.injEq] at hm
      obtain ⟨q, H₁, hm, rfl, rfl⟩ := hm
      have hheads : headerBytes (H₁.release b.data).blocks = headerBytes H₁.blocks := by
        simp [headerBytes, Heap.release]
      exact ⟨_, .moves hb hlt hm hr (hheads ▸ hw)⟩
    · rw [krealloc_stays hi.rep hb hlt] at hk
      cases hk
      exact ⟨H, .stays hb hlt⟩
  | kfree p =>
    obtain ⟨b, hb, rfl⟩ := hon p rfl
    cases h
    obtain ⟨hr, hw⟩ := kfree_refines hi.rep hb
    exact ⟨_, .kfree hb hr hw⟩
  | write p i v =>
    obtain ⟨b, hb, rfl⟩ := hon p rfl
    cases h
    simp only [Call.sized, hi.rep.blockSize_eq hb] at hs
    have hlt := H.data_lt hb
    have hw : Wrote s.mem (s.mem.store8 (b.data + i) v) {b.data + i} :=
      .store8_singleton (by omega)
    refine ⟨H, .write hb hs (hi.rep.frame hw fun x hx hm => ?_) hw⟩
    rw [Set.mem_singleton_iff] at hm
    exact Heap.data_not_headerBytes hb (by omega) (by omega) hx

/-- No block boundary disappears. -/
theorem Effect.ptr (h : Effect H s c H' s') (hq : H.Ptr q) : H'.Ptr q := by
  cases h with
  | kmalloc hm => exact Heap.malloc_ptr hm hq
  | stays => exact hq
  | moves _ _ hm => exact Heap.release_ptr.mpr (Heap.malloc_ptr hm hq)
  | kfree => exact Heap.release_ptr.mpr hq
  | write => exact hq

theorem Effect.inv (h : Effect H s c H' s') (hi : s.Inv H) : s'.Inv H' := by
  have hev : ∀ p ∈ s.ever, H'.Ptr p := fun p hp => h.ptr (hi.ever p hp)
  have hcons : ∀ {p}, H'.Ptr p → ∀ r ∈ p :: s.ever, H'.Ptr r := fun hp r hr => by
    rcases List.mem_cons.mp hr with rfl | hr
    · exact hp
    · exact hev r hr
  have hsplit := hi.split
  cases h with
  | kmalloc hm hr =>
    obtain ⟨n, -, hused, -⟩ := Heap.malloc_used hm
    have := Heap.malloc_length hm
    exact ⟨hr, by omega, hcons hused.ptr⟩
  | stays hb => exact ⟨hi.rep, hi.split, hcons ⟨_, hb, rfl⟩⟩
  | moves hb _ hm hr =>
    obtain ⟨n, -, hused, -⟩ := Heap.malloc_used hm
    have := Heap.malloc_length hm
    exact ⟨hr, by simp only [Heap.release, List.length_map]; omega, hcons (Heap.release_ptr.mpr hused.ptr)⟩
  | kfree _ hr => exact ⟨hr, by simpa [Heap.release] using hi.split, hev⟩
  | write _ _ hr => exact ⟨hr, hi.split, hi.ever⟩

/-- On live pointers, a call keeps the live pointers apart. -/
theorem Effect.nodup (h : Effect H s c H' s') (hi : s.LiveInv H) : s'.live.Nodup := by
  have herase : ∀ p, (s.live.erase p).Nodup := fun p => hi.nodup.erase p
  cases h with
  | kmalloc hm => exact List.nodup_cons.mpr ⟨mt (hi.live _).mp (Heap.malloc_not_inUse hm), hi.nodup⟩
  | stays => exact List.nodup_cons.mpr ⟨hi.nodup.not_mem_erase, herase _⟩
  | moves _ _ hm =>
    refine List.nodup_cons.mpr ⟨fun hp => Heap.malloc_not_inUse hm ?_, herase _⟩
    exact (hi.live _).mp (List.mem_of_mem_erase hp)
  | kfree => exact herase _
  | write => exact hi.nodup

/-- On live pointers, a call keeps the live pointers those of the used blocks. -/
theorem Effect.liveInv (h : Effect H s c H' s') (hi : s.LiveInv H)
    (hon : ∀ p, c.on = some p → p ∈ s.live) : s'.LiveInv H' := by
  refine { toInv := h.inv hi.toInv, nodup := h.nodup hi, live := fun r => ?_ }
  have herase : ∀ p, r ∈ s.live.erase p ↔ r ≠ p ∧ ∃ n, H.Used r n := fun p => by
    rw [hi.nodup.mem_erase_iff, hi.live]
  cases h with
  | kmalloc hm => rw [List.mem_cons, hi.live, Heap.malloc_inUse hm]
  | @stays b newsz hb hlt =>
    have hlive : b.data ∈ s.live := hon b.data rfl
    rw [List.mem_cons, herase]
    constructor
    · intro hx
      rcases hx with rfl | ⟨-, h⟩
      · exact (hi.live _).mp hlive
      · exact h
    · intro h
      by_cases hr : r = b.data
      · exact .inl hr
      · exact .inr ⟨hr, h⟩
  | @moves b newsz q H₁ m' hb hlt hm =>
    have hne := Heap.malloc_ne_of_size_lt hm hb hlt
    rw [List.mem_cons, herase, Heap.release_inUse, Heap.malloc_inUse hm]
    constructor
    · intro hx
      rcases hx with rfl | ⟨hr, hk⟩
      · exact ⟨hne.symm, .inl rfl⟩
      · exact ⟨hr, .inr hk⟩
    · intro hx
      rcases hx with ⟨hr, rfl | hk⟩
      · exact .inl rfl
      · exact .inr ⟨hr, hk⟩
  | kfree => rw [herase, Heap.release_inUse]
  | write => exact hi.live r

/-- A call writes no byte of a used block other than the one it is made on. -/
theorem Effect.frame (h : Effect H s c H' s') {b : Blk} (hb : b ∈ H.blocks) (hf : b.free = false)
    (hon : c.on ≠ some b.data) {i : Nat} (hlt : i < b.size) :
    s'.mem.load8 (b.data + i) = s.mem.load8 (b.data + i) := by
  have hend := H.data_lt hb
  have hwrap : wrap (b.data + i) = b.data + i := wrap_of_lt (by omega)
  have hnot : ∀ {H₁ : Heap heapsize}, b ∈ H₁.blocks → b.data + i ∉ headerBytes H₁.blocks := fun hb =>
    Heap.data_not_headerBytes hb (by omega) (by omega)
  have hkeep : ∀ {size p} {H₁ : Heap heapsize}, H.malloc size = some (p, H₁) →
      b.data ≠ p ∧ b ∈ H₁.blocks := fun hm => by
    obtain ⟨n, -, -, hfresh, -⟩ := Heap.malloc_used hm
    have hne : b.data ≠ _ := fun hd => hfresh b.size ⟨b, hb, hf, hd, rfl⟩
    exact ⟨hne, Heap.malloc_keeps hm hb hne⟩
  cases h with
  | kmalloc hm _ hw =>
    exact hw.load8_eq (by rw [hwrap]; exact hnot (hkeep hm).2)
  | stays => rfl
  | @moves c newsz q H₁ m' hc hsize hm _ hw =>
    obtain ⟨hne, hb₁⟩ := hkeep hm
    obtain ⟨n, hn, ⟨d, hd, -, rfl, rfl⟩, -⟩ := Heap.malloc_used hm
    have hapart := H₁.data_apart hb₁ hd hne
    refine hw.load8_eq ?_
    rw [hwrap]
    intro hs
    rcases hs with hx | hx
    · exact hnot hb₁ hx
    · simp only [Set.mem_Ico] at hx; omega
  | kfree _ _ hw => exact hw.load8_eq (by rw [hwrap]; exact hnot hb)
  | @write c j v m' hc hj _ hw =>
    have hne : b.data ≠ c.data := fun he => hon (by rw [he]; rfl)
    have hapart := H.data_apart hb hc hne
    refine hw.load8_eq ?_
    rw [hwrap, Set.mem_singleton_iff]
    omega

end Steps

/-! ## Runs -/

section Runs

variable {heapsize : Nat} {s₀ s s' : HeapState} {H : Heap heapsize} {c : Call} {calls : List Call}

/-- After boot the log's node is the one block in use, and the rest is free. -/
theorem Booted.liveInv (h : Booted heapsize s) : ∃ H : Heap heapsize, s.LiveInv H ∧
    H.blocks = cut 12 ⟨HEAP_START, NULL, heapsize * 1024 - 16, true⟩ := by
  obtain ⟨hpos, hsmall, m, msg, systemlog, m', hm, rfl⟩ := h
  obtain ⟨m'', H, hm', hH, hr⟩ := memoryInit_eq m msg hpos hsmall
  rw [hm'] at hm
  cases hm
  have hused : ∀ b ∈ H.blocks, b.free = false ↔ b = ⟨HEAP_START, NULL, 12, false⟩ := by
    intro b hb
    simp only [hH, cut, List.mem_cons, List.not_mem_nil, or_false] at hb
    rcases hb with rfl | rfl <;> simp
  have hnode : (⟨HEAP_START, NULL, 12, false⟩ : Blk) ∈ H.blocks := by rw [hH]; exact List.mem_cons_self
  refine ⟨H, ⟨⟨hr, ?_, ?_⟩, by simp, ?_⟩, hH⟩
  · simp [hH, cut]
  · simp only [List.mem_singleton, forall_eq]
    exact ⟨_, hnode, rfl⟩
  · intro q
    simp only [List.mem_singleton]
    constructor
    · intro hx
      subst hx
      exact ⟨12, _, hnode, rfl, rfl, rfl⟩
    · intro hx
      obtain ⟨n, b, hb, hf, rfl, -⟩ := hx
      rw [(hused b hb).mp hf]
      rfl

theorem LiveStep.effect (hi : s.LiveInv H) (h : LiveStep s c s') :
    ∃ H' : Heap heapsize, Effect H s c H' s' ∧ s'.LiveInv H' := by
  obtain ⟨hon, hs, hrun⟩ := h
  obtain ⟨H', he⟩ := Call.run_effect hi.toInv (fun p hp => by
    obtain ⟨n, hu⟩ := (hi.live p).mp (hon p hp)
    exact hu.ptr) hs hrun
  exact ⟨H', he, he.liveInv hi hon⟩

theorem EverStep.effect (hi : s.Inv H) (h : EverStep s c s') :
    ∃ H' : Heap heapsize, Effect H s c H' s' ∧ s'.Inv H' := by
  obtain ⟨hon, hs, hrun⟩ := h
  obtain ⟨H', he⟩ := Call.run_effect hi (fun p hp => hi.ever p (hon p hp)) hs hrun
  exact ⟨H', he, he.inv hi⟩

theorem LiveStep.run (hboot : Booted heapsize s₀) (hrun : Runs LiveStep s₀ calls s) :
    ∃ H : Heap heapsize, s.LiveInv H := by
  obtain ⟨H, hi, -⟩ := hboot.liveInv
  exact hrun.invariant (I := fun s => ∃ H : Heap heapsize, s.LiveInv H) (fun ⟨_, hi⟩ hstep => by
    obtain ⟨H', -, hi'⟩ := hstep.effect hi
    exact ⟨H', hi'⟩) ⟨H, hi⟩

theorem EverStep.run (hboot : Booted heapsize s₀) (hrun : Runs EverStep s₀ calls s) :
    ∃ H : Heap heapsize, s.Inv H := by
  obtain ⟨H, hi, -⟩ := hboot.liveInv
  exact hrun.invariant (I := fun s => ∃ H : Heap heapsize, s.Inv H) (fun ⟨_, hi⟩ hstep => by
    obtain ⟨H', -, hi'⟩ := hstep.effect hi
    exact ⟨H', hi'⟩) ⟨H, hi.toInv⟩

end Runs

end Ssmos

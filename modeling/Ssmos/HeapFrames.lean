/-
What the allocator leaves alone: the blocks in use that a call is not about
(`Keeps`), and which bytes are the allocator's own to write (`Heap.Spare`).
-/
import Ssmos.MemoryFacts

namespace Ssmos

/-- The blocks in use in `H` but for those at `ps` are in use in `H'`, with the
same bytes. -/
def Keeps {heapsize : Nat} (H : Heap heapsize) (m : Mem) (ps : List Nat) (H' : Heap heapsize) (m' : Mem) :
    Prop :=
  ∀ q n, H.Used q n → q ∉ ps → H'.Used q n ∧ ∀ i, i < n → m'.load8 (q + i) = m.load8 (q + i)

/-- `a` is the allocator's: in a header, or in the data of a free block. -/
def Heap.Spare {heapsize : Nat} (H : Heap heapsize) (a : Nat) : Prop :=
  ∃ b ∈ H.blocks, b.addr ≤ a ∧ a < b.addr + 16 + if b.free then b.size else 0

variable {heapsize : Nat} {m m' m'' : Mem} {H H' H'' : Heap heapsize} {p q n a size newsz : Nat} {ps : List Nat}

/-! ## Blocks in use -/

theorem Heap.Used.lt (h : H.Used p n) : p + n < 2 ^ 32 := by
  obtain ⟨b, hb, -, rfl, rfl⟩ := h
  exact H.data_lt hb

theorem Heap.Used.apart {k : Nat} (hp : H.Used p n) (hq : H.Used q k) (hne : p ≠ q) :
    p + n ≤ q ∨ q + k ≤ p := by
  obtain ⟨b, hb, -, rfl, rfl⟩ := hp
  obtain ⟨c, hc, -, rfl, rfl⟩ := hq
  have := H.data_apart hb hc hne
  omega

theorem Heap.Used.not_header (h : H.Used p n) {x : Nat} (h₁ : p ≤ x) (h₂ : x < p + n) :
    x ∉ headerBytes H.blocks := by
  obtain ⟨b, hb, -, rfl, rfl⟩ := h
  exact H.data_not_headerBytes hb h₁ h₂

/-- Writing in a block in use keeps the heap. -/
theorem Rep.frame_used {lo hi : Nat} (hr : Rep m H) (hu : H.Used p n) (hw : Wrote m m' (Set.Ico lo hi))
    (hlo : p ≤ lo) (hhi : hi ≤ p + n) : Rep m' H :=
  hr.frame hw fun x hx hm => by
    rw [Set.mem_Ico] at hm
    exact hu.not_header (by omega) (by omega) hx

theorem Heap.Used.bounds (h : H.Used p n) : 0x100000 + 16 ≤ p ∧ n < 2 ^ 31 := by
  obtain ⟨b, hb, -, rfl, rfl⟩ := h
  have := H.bounds hb
  simp only [Blk.data]
  omega

theorem Heap.Used.ne_null (h : H.Used p n) : p ≠ NULL := h.ptr.ne_null

/-! ## Keeping blocks -/

theorem Keeps.refl (H : Heap heapsize) (m : Mem) (ps : List Nat) : Keeps H m ps H m :=
  fun _ _ hu _ => ⟨hu, fun _ _ => rfl⟩

theorem Keeps.trans (h₁ : Keeps H m ps H' m') (h₂ : Keeps H' m' ps H'' m'') : Keeps H m ps H'' m'' := by
  intro q n hu hq
  obtain ⟨hu', hb⟩ := h₁ q n hu hq
  obtain ⟨hu'', hb'⟩ := h₂ q n hu' hq
  exact ⟨hu'', fun i hi => (hb' i hi).trans (hb i hi)⟩

theorem Keeps.mono {qs : List Nat} (h : Keeps H m ps H' m') (hsub : ps ⊆ qs) : Keeps H m qs H' m' :=
  fun q n hu hq => h q n hu fun hp => hq (hsub hp)

/-- A block that was not in use need not be excepted. -/
theorem Keeps.fresh (h : Keeps H m (p :: ps) H' m') (hp : ∀ n, ¬ H.Used p n) : Keeps H m ps H' m' :=
  fun q n hu hq => h q n hu fun hmem => by
    rcases List.mem_cons.mp hmem with rfl | hmem
    · exact hp n hu
    · exact hq hmem

/-- An allocation keeps every block in use. -/
theorem keeps_malloc (h : H.malloc size = some (p, H')) (hw : Wrote m m' (headerBytes H'.blocks)) :
    Keeps H m ps H' m' := by
  obtain ⟨k, -, -, -, hiff⟩ := Heap.malloc_used h
  intro q n hq _
  have hq' : H'.Used q n := (hiff q n).mpr (.inr hq)
  refine ⟨hq', fun i hi => hw.load8_eq ?_⟩
  have := hq.lt
  rw [wrap_of_lt (by omega)]
  exact hq'.not_header (by omega) (by omega)

theorem kfree_keeps (hr : Rep m H) (hp : H.Used p n) :
    Rep (kfree m p) (H.release p) ∧ Keeps H m [p] (H.release p) (kfree m p) := by
  obtain ⟨b, hb, -, rfl, -⟩ := hp
  obtain ⟨hr', hw⟩ := kfree_refines hr hb
  refine ⟨hr', fun q k hq hne => ⟨Heap.release_used.mpr ⟨hq, by simpa using hne⟩, fun i hi => hw.load8_eq ?_⟩⟩
  have := hq.lt
  rw [wrap_of_lt (by omega)]
  exact hq.not_header (by omega) (by omega)

/-! ## The allocator's bytes -/

theorem Heap.Spare.start_le (h : H.Spare a) : 0x100000 ≤ a := by
  obtain ⟨b, hb, hle, -⟩ := h
  have := (H.bounds hb).1
  omega

theorem Heap.Spare.of_header (h : a ∈ headerBytes H.blocks) : H.Spare a := by
  obtain ⟨b, hb, h₁, h₂⟩ := h
  exact ⟨b, hb, h₁, by omega⟩

theorem headerBytes_malloc (h : H.malloc size = some (p, H')) :
    headerBytes H.blocks ⊆ headerBytes H'.blocks := by
  intro x hs
  obtain ⟨b, hb, hx⟩ := hs
  obtain ⟨c, hc, hd⟩ := Heap.malloc_ptr h ⟨b, hb, rfl⟩
  simp only [Blk.data] at hd
  exact ⟨c, hc, by omega⟩

theorem headerBytes_release : headerBytes (H.release p).blocks = headerBytes H.blocks := by
  simp [headerBytes, Heap.release]

/-- An allocation takes its block and its headers from the allocator's bytes. -/
theorem Heap.malloc_spare (h : H.malloc size = some (p, H')) :
    (∀ a, H'.Spare a → H.Spare a) ∧ ∀ k a, H'.Used p k → p ≤ a → a < p + k → H.Spare a := by
  obtain ⟨pre, b, post, hfit, rfl, hH'⟩ := Heap.malloc_eq_some.mp h
  obtain ⟨hH, ⟨hfree, -⟩, -⟩ := firstFit_eq_some.mp hfit
  -- All of the block taken was the allocator's.
  have htaken : ∀ a, b.addr ≤ a → a < b.addr + b.len → H.Spare a := fun a h₁ h₂ =>
    ⟨b, by simp [hH], h₁, by simpa [hfree, Blk.len, Nat.add_assoc] using h₂⟩
  have hplace : ∀ c ∈ place (round4 size) b, b.addr ≤ c.addr ∧ c.addr + c.len ≤ b.addr + b.len :=
    fun c hc => place_tiles.bounds hc
  refine ⟨?_, fun k a hu h₁ h₂ => ?_⟩
  · intro a hx
    obtain ⟨c, hc, h₁, h₂⟩ := hx
    rw [hH'] at hc
    simp only [List.mem_append] at hc
    rcases hc with hc | hc | hc
    · exact ⟨c, by simp [hH, hc], h₁, h₂⟩
    · have := hplace c hc
      refine htaken a (by omega) ?_
      simp only [Blk.len] at this ⊢
      split at h₂ <;> omega
    · exact ⟨c, by simp [hH, hc], h₁, h₂⟩
  · obtain ⟨c, hc, hf, hd, rfl⟩ := hu
    have haddr : c.addr = b.addr := Blk.data_inj.mp hd
    have hcb : c ∈ place (round4 size) b := by
      rw [hH'] at hc
      simp only [List.mem_append] at hc
      obtain ⟨hbefore, hafter⟩ := (hH ▸ H.tiles).around
      rcases hc with hc | hc | hc
      · have := hbefore c hc
        simp only [Blk.len] at this
        omega
      · exact hc
      · have := hafter c hc
        simp only [Blk.len] at this
        omega
    have := hplace c hcb
    simp only [Blk.data, Blk.len] at h₁ h₂ this
    exact htaken a (by omega) (by simp only [Blk.len]; omega)

theorem Heap.release_spare (hp : H.Used p n) {a : Nat} (h : (H.release p).Spare a) :
    H.Spare a ∨ p ≤ a ∧ a < p + n := by
  obtain ⟨b, hb, -, rfl, rfl⟩ := hp
  obtain ⟨_, hmem, h₁, h₂⟩ := h
  obtain ⟨c, hc, rfl⟩ := List.mem_map.mp hmem
  rw [releaseBlk_addr, releaseBlk_size] at *
  by_cases hd : c.data = b.data
  · obtain rfl := H.eq_of_data hc hb hd
    by_cases hhead : a < c.addr + 16
    · exact .inl ⟨c, hc, h₁, by omega⟩
    · right
      simp only [Blk.data]
      split at h₂ <;> omega
  · refine .inl ⟨c, hc, h₁, ?_⟩
    rwa [releaseBlk, if_neg hd] at h₂

/-! ## Reallocation -/

/-- What a `realloc` of the block of `n` bytes at `p` that returned `q` did. -/
structure Reallocated {heapsize : Nat} (H : Heap heapsize) (m : Mem) (p n newsz : Nat) (H' : Heap heapsize)
    (m' : Mem) (q k : Nat) : Prop where
  rep : Rep m' H'
  used : H'.Used q k
  large : newsz ≤ k
  room : n ≤ k
  copied : ∀ i, i < n → m'.load8 (q + i) = m.load8 (p + i)
  wrote : Wrote m m' (headerBytes H'.blocks ∪ Set.Ico q (q + newsz))
  heads : headerBytes H.blocks ⊆ headerBytes H'.blocks
  keeps : Keeps H m [p] H' m'
  apart : ∀ r j, H.Used r j → r ≠ p → r ≠ q
  only : ∀ r j, H'.Used r j → r = q ∨ H.Used r j ∧ r ≠ p
  grows : H.blocks.length ≤ H'.blocks.length
  /-- Bytes that were neither the block's nor the allocator's still are not. -/
  foreign : ∀ a, ¬ H.Spare a → ¬ (p ≤ a ∧ a < p + n) → ¬ H'.Spare a ∧ ¬ (q ≤ a ∧ a < q + k)

theorem Rep.not_untouched (hr : Rep m H) (hp : H.Used p n) : ¬ untouched m := by
  rw [untouched_iff hr]
  intro hx
  obtain ⟨r, hH, hf⟩ := hx
  obtain ⟨b, hb, hbf, -⟩ := hp
  rw [hH, List.mem_singleton] at hb
  rw [hb, hf] at hbf
  cases hbf

theorem realloc_outcome (hr : Rep m H) (hp : H.Used p n) (hs : newsz ≤ 2 ^ 32 - 4) :
    realloc m p newsz = .error outOfMemory ∨
      ∃ q k m' H', realloc m p newsz = .ok (q, m') ∧ Reallocated H m p n newsz H' m' q k := by
  have hu := hr.not_untouched hp
  obtain ⟨b, hb, hbf, rfl, rfl⟩ := hp
  have hused : H.Used b.data b.size := ⟨b, hb, hbf, rfl, rfl⟩
  rw [realloc_eq_krealloc hr hu hb hs]
  by_cases hlt : b.size < newsz
  · cases hm : H.realloc b newsz with
    | none => exact .inl (krealloc_halts hr hu hb hs hm)
    | some r =>
      obtain ⟨q, H'⟩ := r
      obtain ⟨m', hk, hr', hw, hcopy⟩ := krealloc_refines hr hu hb hs hm
      simp only [Heap.realloc, if_pos hlt, Option.map_eq_some_iff, Prod.exists, Prod.mk.injEq] at hm
      obtain ⟨q, H₁, hm, rfl, rfl⟩ := hm
      obtain ⟨k, hnk, hq, hfresh, hiff⟩ := Heap.malloc_used hm
      have hne : b.data ≠ q := Heap.malloc_ne_of_size_lt hm hb hlt
      have hq' : (H₁.release b.data).Used q k := Heap.release_used.mpr ⟨hq, hne.symm⟩
      have hold : ∀ {r j}, H.Used r j → r ≠ q := fun hr he => hfresh _ (he ▸ hr)
      refine .inr ⟨q, k, m', _, hk, hr', hq', hnk, by omega, hcopy, hw.mono ?_, ?_, ?_,
        fun r j hr _ => hold hr, fun r j hr => ?_, ?_, ?_⟩
      · exact Set.union_subset_union_right _ (Set.Ico_subset_Ico_right (by omega))
      · rw [headerBytes_release]
        exact headerBytes_malloc hm
      · intro r j hr hne
        have hr₁ : H₁.Used r j := (hiff r j).mpr (.inr hr)
        have hr' : (H₁.release b.data).Used r j := Heap.release_used.mpr ⟨hr₁, by simpa using hne⟩
        refine ⟨hr', fun i hi => hw.load8_eq ?_⟩
        have hlt := hr.lt
        have := hr₁.apart hq (hold hr)
        rw [wrap_of_lt (by omega)]
        intro hex
        rcases hex with hx | hx
        · exact hr'.not_header (by omega) (by omega) hx
        · rw [Set.mem_Ico] at hx
          omega
      · obtain ⟨hr₁, hne⟩ := Heap.release_used.mp hr
        exact ((hiff r j).mp hr₁).imp And.left fun hr => ⟨hr, hne⟩
      · have := Heap.malloc_length hm
        simpa [Heap.release] using this
      · intro a hspare hdata
        obtain ⟨hs₁, hs₂⟩ := Heap.malloc_spare hm
        refine ⟨fun h => ?_, fun h => hspare (hs₂ k a hq h.1 h.2)⟩
        rcases Heap.release_spare ((hiff _ _).mpr (.inr hused)) h with h | h
        · exact hspare (hs₁ a h)
        · exact hdata h
  · exact .inr ⟨b.data, b.size, m, H, krealloc_stays hr hb hlt, hr, hused, by omega, Nat.le_refl _,
      fun _ _ => rfl,
      .refl _ _, Set.Subset.refl _, .refl _ _ _, fun _ _ _ hne => hne,
      fun r j hr => (em (r = b.data)).imp_right fun hne => ⟨hr, hne⟩, Nat.le_refl _, fun a h₁ h₂ => ⟨h₁, h₂⟩⟩

end Ssmos

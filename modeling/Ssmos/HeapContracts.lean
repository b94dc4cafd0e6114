/-
What one call promises its caller, after any run of the allocator: `kmalloc`
serves a request from the first block that fits and touches nothing else
(`ExactFit`), and `krealloc` carries a block's bytes along (`Carried`).

The runs are those of careless clients (`EverStep`); a pointer is good for a
call when its block is in use. Pointers held by clients that pass only what
they hold are (`LiveStep.good`).
-/
import Ssmos.HeapFrames
import Ssmos.HeapRuns
import Mathlib.Order.CompletePartialOrder
import Mathlib.Order.Interval.Set.Disjoint

namespace Ssmos

variable {heapsize : Nat} {s₀ s : HeapState} {m m' : Mem} {H H' : Heap heapsize} {calls : List Call}
  {p q size newsz : Nat}

/-! ## Headers that stay -/

/-- The header at `b` reads the same in both memories. -/
structure SameHeader (m m' : Mem) (b : Nat) : Prop where
  next : m'.nextPtr b = m.nextPtr b
  prev : m'.prevPtr b = m.prevPtr b
  size : m'.blockSize b = m.blockSize b
  free : m'.isFree b = m.isFree b

/-- Where a block that ends at `a` links to. -/
def linkTo (heapsize a : Nat) : Nat := if a = heapEnd heapsize then NULL else a

theorem linkTo_of_lt {a : Nat} (h : a < heapEnd heapsize) : linkTo heapsize a = a := if_neg (Nat.ne_of_lt h)

/-- The link of a block, from where the block is. -/
theorem Rep.nextPtr_eq (hr : Rep m H) {b : Blk} (hb : b ∈ H.blocks) :
    m.nextPtr b.addr = linkTo heapsize (b.addr + 16 + b.size) := by
  obtain ⟨pre, post, hH⟩ := List.append_of_mem hb
  have ht := H.tiles
  rw [(hr.header hH).next]
  rw [hH, Tiles.append] at ht
  obtain ⟨_, -, rfl, ht⟩ := ht
  cases post with
  | nil =>
    have hend : b.addr + 16 + b.size = heapEnd heapsize := by
      rw [Nat.add_assoc]
      exact ht
    rw [linkTo, if_pos hend]
    rfl
  | cons c cs =>
    have hc := H.bounds (show c ∈ H.blocks by rw [hH]; simp)
    have hstart : b.addr + 16 + b.size = c.addr := by
      rw [Nat.add_assoc]
      exact ht.1.symm
    rw [hstart, linkTo_of_lt (by omega), headAddr_cons]

theorem Rep.sameHeader (hr : Rep m H) (hr' : Rep m' H') {b : Blk} (hb : b ∈ H.blocks) (hb' : b ∈ H'.blocks) :
    SameHeader m m' b.addr := by
  obtain ⟨_, hh⟩ := hr.header_mem hb
  obtain ⟨_, hh'⟩ := hr'.header_mem hb'
  refine ⟨?_, hh'.prev.trans hh.prev.symm, hh'.size.trans hh.size.symm, hh'.free.trans hh.free.symm⟩
  rw [hr.nextPtr_eq hb, hr'.nextPtr_eq hb']

/-! ## `kmalloc` -/

/-- `kmalloc`, with the memory it leaves when it halts too. -/
def kmallocRun (m : Mem) (size : Nat) : Except Stop Nat × Mem :=
  let size := roundUp size
  if untouched m then (.ok (toData HEAP_START), splitblock m HEAP_START size)
  else
    match kmallocLoop loopBound m HEAP_START size with
    | .error e => (.error e, m)
    | .ok newptr =>
      if m.blockSize newptr ≥ wrap (size + HEADER_SIZE + SPLIT_THRESHOLD) then
        (.ok (toData newptr), splitblock m newptr size)
      else (.ok (toData newptr), m.setIsFree newptr false)

theorem kmalloc_eq_run (m : Mem) (size : Nat) :
    kmalloc m size = (kmallocRun m size).1.map fun p => (p, (kmallocRun m size).2) := by
  unfold kmalloc kmallocRun
  by_cases hu : untouched m
  · simp only [if_pos hu]
    rfl
  · simp only [if_neg hu]
    cases hl : kmallocLoop loopBound m HEAP_START (roundUp size) with
    | error e => rfl
    | ok b =>
      simp only [Except.ok_bind]
      split <;> rfl

theorem kmallocRun_error (hu : ¬ untouched m) {e : Stop} (h : kmalloc m size = .error e) :
    kmallocRun m size = (.error e, m) := by
  unfold kmalloc at h
  unfold kmallocRun
  simp only [if_neg hu] at h ⊢
  cases hl : kmallocLoop loopBound m HEAP_START (roundUp size) with
  | error e' =>
    rw [hl] at h
    cases h
    rfl
  | ok b =>
    rw [hl, Except.ok_bind] at h
    split at h <;> cases h

theorem kmallocRun_ok (h : kmalloc m size = .ok (p, m')) : kmallocRun m size = (.ok p, m') := by
  rw [kmalloc_eq_run] at h
  cases hk : kmallocRun m size with
  | mk r m₁ =>
    rw [hk] at h
    cases r with
    | error e => cases h
    | ok q => cases h; rfl

/-- The free block at `b` can serve a request for `s` bytes. -/
def HasRoom (m : Mem) (s b : Nat) : Prop := m.isFree b = 1 ∧ s ≤ m.blockSize b

/-- What taking the block at `b` for `s` bytes leaves: the block in use, cut
when the rest is worth a header, and every other header and every byte of a
block in use as it was. -/
structure Taken (m : Mem) (hs : List Nat) (s b : Nat) (m' : Mem) : Prop where
  used : m'.isFree b = 0
  prev : m'.prevPtr b = m.prevPtr b
  /-- The block is cut exactly when its size is `s + 20` or more. -/
  visits : ∃ pre post, hs = pre ++ b :: post ∧ headers m' =
    .ok (pre ++ (if s + 20 ≤ m.blockSize b then [b, b + 16 + s] else [b]) ++ post)
  cut : s + 20 ≤ m.blockSize b → m'.blockSize b = s ∧ m'.nextPtr b = b + 16 + s ∧
    m'.isFree (b + 16 + s) = 1 ∧ m'.blockSize (b + 16 + s) = m.blockSize b - s - 16 ∧
    m'.prevPtr (b + 16 + s) = b ∧ m'.nextPtr (b + 16 + s) = m.nextPtr b
  whole : ¬ s + 20 ≤ m.blockSize b → m'.blockSize b = m.blockSize b ∧ m'.nextPtr b = m.nextPtr b
  others : ∀ c ∈ hs, c ≠ b → SameHeader m m' c
  bytes : ∀ c ∈ hs, m.isFree c = 0 → ∀ i < m.blockSize c, m'.load8 (toData c + i) = m.load8 (toData c + i)

/-- A first-fit allocation of `s` bytes among the blocks `hs`: it halts exactly
when none fits, and takes the lowest that does. -/
structure ExactFit (m : Mem) (hs : List Nat) (s : Nat) (r : Except Stop Nat × Mem) : Prop where
  halts : r.1 = .error outOfMemory ↔ ∀ b ∈ hs, ¬ HasRoom m s b
  unchanged : ∀ e, r.1 = .error e → e = outOfMemory ∧ r.2 = m
  takes : ∀ p, r.1 = .ok p → ∃ b ∈ hs, p = toData b ∧ HasRoom m s b ∧ (∀ c ∈ hs, c < b → ¬ HasRoom m s c) ∧
    Taken m hs s b r.2

theorem Rep.hasRoom_iff (hr : Rep m H) {b : Blk} (hb : b ∈ H.blocks) : HasRoom m size b.addr ↔ b.fits size := by
  obtain ⟨_, hh⟩ := hr.header_mem hb
  rw [HasRoom, Blk.fits, hh.free, hh.size]
  cases b.free <;> simp

/-- The bytes of a block in use are outside every header of the heap after. -/
theorem malloc_bytes (h : H.malloc size = some (p, H')) (hw : Wrote m m' (headerBytes H'.blocks))
    {c : Blk} (hc : c ∈ H.blocks) (hf : c.free = false) {i : Nat} (hi : i < c.size) :
    m'.load8 (c.data + i) = m.load8 (c.data + i) := by
  have hkeeps : Keeps H m [] H' m' := keeps_malloc h hw
  exact (hkeeps c.data c.size ⟨c, hc, hf, rfl, rfl⟩ List.not_mem_nil).2 i hi

/-- Putting blocks in the place of one leaves the headers of the others. -/
theorem Rep.sameHeaders (hr : Rep m H) (hr' : Rep m' H') {pre post ws : List Blk} {b : Blk}
    (hH : H.blocks = pre ++ b :: post) (hH' : H'.blocks = pre ++ (ws ++ post)) :
    ∀ a ∈ H.blocks.map Blk.addr, a ≠ b.addr → SameHeader m m' a := by
  intro a ha hne
  obtain ⟨c, hc, rfl⟩ := List.mem_map.mp ha
  refine hr.sameHeader hr' hc ?_
  rw [hH] at hc
  rw [hH']
  exact Heap.mem_replaced hc fun he => hne (congrArg Blk.addr he)

/-- What holds of the bytes of the blocks in use holds of them by address. -/
theorem Rep.usedBytes (hr : Rep m H)
    (hbytes : ∀ c ∈ H.blocks, c.free = false → ∀ i < c.size, m'.load8 (c.data + i) = m.load8 (c.data + i)) :
    ∀ a ∈ H.blocks.map Blk.addr, m.isFree a = 0 → ∀ i < m.blockSize a,
      m'.load8 (toData a + i) = m.load8 (toData a + i) := by
  intro a ha hf i hi
  obtain ⟨c, hc, rfl⟩ := List.mem_map.mp ha
  obtain ⟨_, hh⟩ := hr.header_mem hc
  rw [hh.size] at hi
  rw [toData_eq hc]
  exact hbytes c hc ((isFree_eq_zero hr hc).mp hf) i hi

theorem Rep.taken (hr : Rep m H) (hr' : Rep m' H') {pre post : List Blk} {b : Blk}
    (hfit : firstFit (round4 size) H.blocks = some (pre, b, post))
    (hH' : H'.blocks = pre ++ (place (round4 size) b ++ post))
    (hbytes : ∀ c ∈ H.blocks, c.free = false → ∀ i < c.size,
      m'.load8 (c.data + i) = m.load8 (c.data + i)) :
    Taken m (H.blocks.map Blk.addr) (round4 size) b.addr m' := by
  obtain ⟨hH, ⟨hfree, hle⟩, -⟩ := firstFit_eq_some.mp hfit
  have hb : b ∈ H.blocks := by rw [hH]; simp
  obtain ⟨next, hh⟩ := hr.header_mem hb
  have hplace : ∀ c ∈ place (round4 size) b, c ∈ H'.blocks := fun c hc => by rw [hH']; simp [hc]
  have hothers := hr.sameHeaders hr' hH hH'
  have hbytes' := hr.usedBytes hbytes
  have hn := hr.nextPtr_eq hb
  by_cases hcut : round4 size + 20 ≤ b.size
  · rw [place, if_pos hcut] at hplace
    have hb₁ := hplace _ (List.mem_cons_self ..)
    have hb₂ := hplace _ (List.mem_cons_of_mem _ (List.mem_cons_self ..))
    obtain ⟨_, hh₁⟩ := hr'.header_mem hb₁
    obtain ⟨_, hh₂⟩ := hr'.header_mem hb₂
    have hn₁ := hr'.nextPtr_eq hb₁
    have hn₂ := hr'.nextPtr_eq hb₂
    have hbound := H'.bounds hb₂
    have hend : b.addr + 16 + round4 size + 16 + (b.size - (round4 size + 16)) = b.addr + 16 + b.size := by
      omega
    refine ⟨hh₁.free, hh₁.prev.trans hh.prev.symm, ⟨pre.map Blk.addr, post.map Blk.addr, by simp [hH], ?_⟩,
      fun _ => ⟨hh₁.size, hn₁.trans (linkTo_of_lt (by simp only at hbound ⊢; omega)), hh₂.free, ?_, hh₂.prev, ?_⟩,
      fun hx => absurd (hh.size ▸ hcut) hx, hothers, hbytes'⟩
    · rw [headers_eq hr', hH', if_pos (hh.size ▸ hcut), place, if_pos hcut]
      simp [cut]
    · rw [hh.size, Nat.sub_sub]
      exact hh₂.size
    · rw [hn₂, hn, hend]
  · rw [place, if_neg hcut] at hplace
    have hb₁ := hplace _ (List.mem_cons_self ..)
    obtain ⟨_, hh₁⟩ := hr'.header_mem hb₁
    have hn₁ := hr'.nextPtr_eq hb₁
    refine ⟨hh₁.free, hh₁.prev.trans hh.prev.symm, ⟨pre.map Blk.addr, post.map Blk.addr, by simp [hH], ?_⟩,
      fun hx => absurd (hh.size ▸ hx) hcut, fun _ => ⟨hh₁.size.trans hh.size.symm, hn₁.trans hn.symm⟩,
      hothers, hbytes'⟩
    rw [headers_eq hr', hH', if_neg (hh.size ▸ hcut), place, if_neg hcut]
    simp

/-- **`kmalloc` is exact first fit**: it halts when no free block is large enough
and only then, having changed nothing; else it takes the lowest that is, cuts it
exactly when the rest is worth a header, and touches nothing else in use. -/
theorem kmalloc_exact_fit (hboot : Booted heapsize s₀) (hrun : Runs EverStep s₀ calls s)
    (hsize : size ≤ 2 ^ 32 - 4) :
    kmalloc s.mem size = (kmallocRun s.mem size).1.map (fun p => (p, (kmallocRun s.mem size).2)) ∧
      ∃ hs, headers s.mem = .ok hs ∧ ExactFit s.mem hs (round4 size) (kmallocRun s.mem size) := by
  obtain ⟨H, hi⟩ := EverStep.run hboot hrun
  have hu := hi.not_untouched
  refine ⟨kmalloc_eq_run _ _, H.blocks.map Blk.addr, headers_eq hi.rep, ?_⟩
  have hfits : (∀ a ∈ H.blocks.map Blk.addr, ¬ HasRoom s.mem (round4 size) a) ↔ H.malloc size = none := by
    rw [Heap.malloc_eq_none, List.forall_mem_map]
    exact forall₂_congr fun b hb => not_congr (hi.rep.hasRoom_iff hb)
  cases hm : H.malloc size with
  | none =>
    rw [kmallocRun_error hu (kmalloc_halts hi.rep hu hsize hm)]
    exact ⟨⟨fun _ => hfits.mpr hm, fun _ => rfl⟩, fun e he => ⟨(Except.error.inj he).symm, rfl⟩, nofun⟩
  | some r =>
    obtain ⟨p, H'⟩ := r
    obtain ⟨m', hk, hr', hw⟩ := kmalloc_refines hi.rep hu hsize hm
    obtain ⟨pre, b, post, hfit, rfl, hH'⟩ := Heap.malloc_eq_some.mp hm
    obtain ⟨hH, hb, hpre⟩ := firstFit_eq_some.mp hfit
    have hmem : b ∈ H.blocks := by rw [hH]; simp
    rw [kmallocRun_ok hk]
    refine ⟨⟨nofun, fun h => ?_⟩, nofun, fun p hp => ?_⟩
    · rw [hfits, hm] at h
      cases h
    · obtain rfl := Except.ok.inj hp
      refine ⟨b.addr, List.mem_map_of_mem hmem, (toData_eq hmem).symm, (hi.rep.hasRoom_iff hmem).mpr hb,
        fun a ha hlt hx => ?_, hi.rep.taken hr' hfit hH' fun c hc hf i => malloc_bytes hm hw hc hf⟩
      obtain ⟨c, hc, rfl⟩ := List.mem_map.mp ha
      -- The blocks below `b` are those the search passed.
      have hbelow : c ∈ pre := by
        obtain ⟨-, hafter⟩ := (hH ▸ H.tiles).around
        rw [hH, List.mem_append, List.mem_cons] at hc
        rcases hc with hc | rfl | hc
        · exact hc
        · exact absurd hlt (Nat.lt_irrefl _)
        · have := hafter c hc
          omega
      exact hpre c hbelow ((hi.rep.hasRoom_iff hc).mp hx)

/-- A request for 5 bytes after one for 8 was freed: 1 KiB, two calls. -/
theorem kmalloc_exact_fit_reuse : ∃ s₀ s hs, Booted 1 s₀ ∧
    Runs EverStep s₀ [.kmalloc 8, .kfree 0x10002c] s ∧ headers s.mem = .ok hs ∧
    ExactFit s.mem hs (round4 5) (kmallocRun s.mem 5) := by
  obtain ⟨s, hs⟩ : ∃ s, runFrom HeapState.ever 1 [.kmalloc 8, .kfree 0x10002c] = some s :=
    Option.isSome_iff_exists.mp (by decide +kernel)
  obtain ⟨s₀, hboot, hrun⟩ := runFrom_eq_some (by decide) (by decide) hs
  obtain ⟨-, hs, hh, hf⟩ := kmalloc_exact_fit hboot hrun (by decide : 5 ≤ 2 ^ 32 - 4)
  exact ⟨s₀, s, hs, hboot, hrun, hh, hf⟩

/-! ## `krealloc` -/

/-- The bytes of the block at `b`, its header included. -/
def blockRange (m : Mem) (b : Nat) : Set Nat := Set.Ico b (b + HEADER_SIZE + m.blockSize b)

/-- A pointer that was returned to a client and whose block is in use. -/
def HeapState.Good (s : HeapState) (p : Nat) : Prop := p ∈ s.ever ∧ s.mem.isFree (toHeader p) = 0

instance decidableGood (s : HeapState) (p : Nat) : Decidable (s.Good p) :=
  inferInstanceAs (Decidable (_ ∧ _))

/-- What a `krealloc` of `p` that returned `q` did: the block at `q` is in use,
large enough and starts with the bytes of the old one, the other blocks in use
are as they were, and `p` either stayed or was left, free, for a block apart
from it that was free before. -/
structure Carried (m : Mem) (hs : List Nat) (p newsz q : Nat) (m' : Mem) (hs' : List Nat) : Prop where
  visits : headers m' = .ok hs'
  mem : toHeader q ∈ hs' ∧ toData (toHeader q) = q
  used : m'.isFree (toHeader q) = 0
  large : newsz ≤ m'.blockSize (toHeader q)
  copied : ∀ i < m.blockSize (toHeader p), m'.load8 (q + i) = m.load8 (p + i)
  others : ∀ b ∈ hs, m.isFree b = 0 → b ≠ toHeader p → b ∈ hs' ∧ SameHeader m m' b ∧
    ∀ i < m.blockSize b, m'.load8 (toData b + i) = m.load8 (toData b + i)
  outcome : (q = p ∧ m' = m) ∨
    (toHeader q ∈ hs ∧ m.isFree (toHeader q) = 1 ∧
      Disjoint (blockRange m' (toHeader q)) (blockRange m (toHeader p)) ∧
      toHeader p ∈ hs' ∧ m'.isFree (toHeader p) = 1)

theorem HeapState.Inv.good (hi : s.Inv H) (hp : s.Good p) : ∃ b ∈ H.blocks, b.free = false ∧ b.data = p := by
  obtain ⟨hev, hfree⟩ := hp
  obtain ⟨b, hb, rfl⟩ := hi.ever p hev
  rw [toHeader_eq hb] at hfree
  exact ⟨b, hb, (isFree_eq_zero hi.rep hb).mp hfree, rfl⟩

theorem Call.run_live_subset {c : Call} {s s' : HeapState} (h : s.live ⊆ s.ever) (hrun : c.run s = .ok s') :
    s'.live ⊆ s'.ever := by
  cases c with
  | kmalloc size =>
    simp only [Call.run, Except.bind_ok_iff, Prod.exists] at hrun
    obtain ⟨p, m', -, hrun⟩ := hrun
    cases hrun
    exact List.cons_subset_cons p h
  | krealloc p newsz =>
    simp only [Call.run, Except.bind_ok_iff, Prod.exists] at hrun
    obtain ⟨q, m', -, hrun⟩ := hrun
    cases hrun
    exact List.cons_subset_cons q fun r hr => h (List.erase_subset hr)
  | kfree p =>
    cases hrun
    exact fun q hq => h (List.erase_subset hq)
  | write p i v =>
    cases hrun
    exact h

theorem Booted.live_eq (h : Booted heapsize s) : s.live = s.ever := by
  obtain ⟨-, -, _, _, _, _, -, rfl⟩ := h
  rfl

/-- In a run of clients that pass only pointers they hold, those are good. -/
theorem LiveStep.good (hboot : Booted heapsize s₀) (hrun : Runs LiveStep s₀ calls s) (hp : p ∈ s.live) :
    Runs EverStep s₀ calls s ∧ s.Good p := by
  obtain ⟨H, hi⟩ := LiveStep.run hboot hrun
  obtain ⟨t, hever, rfl, hsub⟩ : ∃ t, Runs EverStep s₀ (calls.map id) t ∧ t = s ∧ s.live ⊆ s.ever :=
    hrun.simulate (R := fun s t => t = s ∧ s.live ⊆ s.ever) (fun hR hstep => by
      obtain ⟨rfl, hsub⟩ := hR
      obtain ⟨hon, hs, hc⟩ := hstep
      exact ⟨_, ⟨fun p hp => hsub (hon p hp), hs, hc⟩, rfl, Call.run_live_subset hsub hc⟩)
    ⟨rfl, hboot.live_eq ▸ List.Subset.refl _⟩
  obtain ⟨n, b, hb, hf, rfl, -⟩ := (hi.live p).mp hp
  rw [List.map_id] at hever
  exact ⟨hever, hsub hp, by rw [toHeader_eq hb]; exact (isFree_eq_zero hi.rep hb).mpr hf⟩

theorem Rep.carried_stays (hr : Rep m H) {b : Blk} (hb : b ∈ H.blocks) (hf : b.free = false)
    (hle : ¬ b.size < newsz) :
    Carried m (H.blocks.map Blk.addr) b.data newsz b.data m (H.blocks.map Blk.addr) := by
  obtain ⟨_, hh⟩ := hr.header_mem hb
  have hhead := toHeader_eq hb
  exact {
    visits := headers_eq hr
    mem := by rw [hhead]; exact ⟨List.mem_map_of_mem hb, toData_eq hb⟩
    used := by rw [hhead, isFree_eq_zero hr hb, hf]
    large := by rw [hhead, hh.size]; omega
    copied := fun _ _ => rfl
    others := fun c hc _ _ => ⟨hc, ⟨rfl, rfl, rfl, rfl⟩, fun _ _ => rfl⟩
    outcome := .inl ⟨rfl, rfl⟩ }

/-- A block in use other than the one that moved comes through the move. -/
theorem Rep.kept_by_move (hr : Rep m H) {b e : Blk} (hb : b ∈ H.blocks) {H₁ : Heap heapsize}
    (hm : H.malloc newsz = some (q, H₁)) (hr' : Rep m' (H₁.release b.data))
    (hw : Wrote m m' (headerBytes H₁.blocks ∪ Set.Ico q (q + b.size))) (hlt : b.size < newsz)
    (he : e ∈ H.blocks) (hef : e.free = false) (hne : e ≠ b) :
    e ∈ H₁.blocks ∧ SameHeader m m' e.addr ∧ ∀ i < e.size, m'.load8 (e.data + i) = m.load8 (e.data + i) := by
  obtain ⟨n, hn, ⟨d, hd, -, hdq, rfl⟩, hfresh, -⟩ := Heap.malloc_used hm
  have heq : e.data ≠ q := fun h => hfresh e.size ⟨e, he, hef, h, rfl⟩
  have he₁ : e ∈ H₁.blocks := Heap.malloc_keeps hm he heq
  have he' : e ∈ (H₁.release b.data).blocks :=
    List.mem_map.mpr ⟨e, he₁, if_neg fun h => hne (H.eq_of_data he hb h)⟩
  refine ⟨he₁, hr.sameHeader hr' he he', fun i hi => hw.load8_eq ?_⟩
  have hend := H.data_lt he
  have hapart := H₁.data_apart he₁ hd (by rw [hdq]; exact heq)
  rw [wrap_of_lt (by omega)]
  rintro (hx | hx)
  · exact Heap.data_not_headerBytes he₁ (by omega) (by omega) hx
  · rw [Set.mem_Ico] at hx
    omega

theorem Rep.carried_moves (hr : Rep m H) {b : Blk} (hb : b ∈ H.blocks) (hlt : b.size < newsz)
    {H₁ : Heap heapsize} (hm : H.malloc newsz = some (q, H₁))
    (hr' : Rep m' (H₁.release b.data)) (hw : Wrote m m' (headerBytes H₁.blocks ∪ Set.Ico q (q + b.size)))
    (hcopy : ∀ i, i < b.size → m'.load8 (q + i) = m.load8 (b.data + i)) :
    Carried m (H.blocks.map Blk.addr) b.data newsz q m' (H₁.blocks.map Blk.addr) := by
  obtain ⟨_, hh⟩ := hr.header_mem hb
  have hhead := toHeader_eq hb
  have hne : b.data ≠ q := Heap.malloc_ne_of_size_lt hm hb hlt
  -- The block at `q`, as it was and as it is.
  obtain ⟨c, hc, hcf, -, hcq⟩ := Heap.malloc_took hm
  obtain ⟨n, hn, ⟨d, hd, hdf, hdq, rfl⟩, -, -⟩ := Heap.malloc_used hm
  have hd' : d ∈ (H₁.release b.data).blocks := by
    refine List.mem_map.mpr ⟨d, hd, if_neg ?_⟩
    rw [hdq]
    exact hne.symm
  have hb₁ : b ∈ H₁.blocks := Heap.malloc_keeps hm hb hne
  have hb' : { b with free := true } ∈ (H₁.release b.data).blocks := List.mem_map.mpr ⟨b, hb₁, if_pos rfl⟩
  obtain ⟨_, hh'⟩ := hr'.header_mem hd'
  obtain ⟨_, hhb⟩ := hr'.header_mem hb'
  have hqhead : toHeader q = d.addr := by rw [← hdq, toHeader_eq hd]
  have haddrs : (H₁.release b.data).blocks.map Blk.addr = H₁.blocks.map Blk.addr := by
    simp [Heap.release]
  have hcd : c.addr = d.addr := Blk.data_inj.mp (hcq.trans hdq.symm)
  refine { visits := ?_, mem := ?_, used := ?_, large := ?_, copied := ?_, others := ?_, outcome := .inr ?_ }
  · rw [headers_eq hr', haddrs]
  · rw [hqhead]
    exact ⟨List.mem_map_of_mem hd, (toData_eq hd).trans hdq⟩
  · rw [hqhead, isFree_eq_zero hr' hd', hdf]
  · rw [hqhead, hh'.size]
    exact hn
  · rw [hhead, hh.size]
    exact hcopy
  · intro a ha hfa hna
    obtain ⟨e, he, rfl⟩ := List.mem_map.mp ha
    rw [hhead] at hna
    obtain ⟨_, hhe⟩ := hr.header_mem he
    obtain ⟨he₁, hsame, hbytes⟩ := hr.kept_by_move hb hm hr' hw hlt he ((isFree_eq_zero hr he).mp hfa)
      fun h => hna (congrArg Blk.addr h)
    rw [hhe.size, toData_eq he]
    exact ⟨List.mem_map_of_mem he₁, hsame, hbytes⟩
  · have hapart := H₁.apart hd hb₁ fun h => hne (by rw [← hdq, Blk.data, Blk.data, h])
    rw [hqhead, hhead]
    refine ⟨?_, ?_, ?_, List.mem_map_of_mem hb₁, hhb.free⟩
    · rw [← hcd]
      exact List.mem_map_of_mem hc
    · obtain ⟨_, hhc⟩ := hr.header_mem hc
      rw [← hcd, hhc.free, hcf]
      rfl
    · rw [blockRange, blockRange, hh'.size, hh.size, Set.disjoint_left]
      simp only [Set.mem_Ico, HEADER_SIZE]
      omega

/-- **`krealloc` preserves contents**, for every pointer good for a call after
any run. -/
theorem krealloc_carries (hboot : Booted heapsize s₀) (hrun : Runs EverStep s₀ calls s) (hp : s.Good p)
    (hsize : newsz ≤ 2 ^ 32 - 4) (h : krealloc s.mem p newsz = .ok (q, m')) :
    ∃ hs hs', headers s.mem = .ok hs ∧ Carried s.mem hs p newsz q m' hs' := by
  obtain ⟨H, hi⟩ := EverStep.run hboot hrun
  have hu := hi.not_untouched
  obtain ⟨b, hb, hf, rfl⟩ := hi.good hp
  by_cases hlt : b.size < newsz
  · obtain ⟨H', hm, hr', hw, hcopy⟩ := krealloc_ok hi.rep hu hb hsize h
    simp only [Heap.realloc, if_pos hlt, Option.map_eq_some_iff, Prod.exists, Prod.mk.injEq] at hm
    obtain ⟨q, H₁, hm, rfl, rfl⟩ := hm
    rw [show headerBytes (H₁.release b.data).blocks = headerBytes H₁.blocks from headerBytes_release] at hw
    exact ⟨_, _, headers_eq hi.rep, hi.rep.carried_moves hb hlt hm hr' hw hcopy⟩
  · rw [krealloc_stays hi.rep hb hlt] at h
    cases h
    exact ⟨_, _, headers_eq hi.rep, hi.rep.carried_stays hb hf hlt⟩

/-- A block of 5 bytes that has to move, over one that was freed: 1 KiB, four calls. -/
theorem krealloc_carries_moves : ∃ s₀ s, Booted 1 s₀ ∧
    Runs EverStep s₀ [.kmalloc 5, .kmalloc 8, .kmalloc 4, .write 0x10002c 4 7] s ∧ s.Good 0x10002c ∧
    ∃ q m', krealloc s.mem 0x10002c 9 = .ok (q, m') ∧
      ∃ hs hs', headers s.mem = .ok hs ∧ Carried s.mem hs 0x10002c 9 q m' hs' := by
  obtain ⟨s, hs, h⟩ : ∃ s, runFrom HeapState.ever 1
      [.kmalloc 5, .kmalloc 8, .kmalloc 4, .write 0x10002c 4 7] = some s ∧
        decide (s.Good 0x10002c ∧ (krealloc s.mem 0x10002c 9).toOption.isSome) = true :=
    (Option.any_eq_true _ _).mp (by decide +kernel)
  obtain ⟨hgood, hsome⟩ := of_decide_eq_true h
  obtain ⟨r, hr⟩ := Option.isSome_iff_exists.mp hsome
  have hk : krealloc s.mem 0x10002c 9 = .ok (r.1, r.2) := (Except.toOption_eq_some).mp hr
  obtain ⟨s₀, hboot, hrun⟩ := runFrom_eq_some (by decide) (by decide) hs
  exact ⟨s₀, s, hboot, hrun, hgood, _, _, hk, krealloc_carries hboot hrun hgood (by decide) hk⟩

end Ssmos

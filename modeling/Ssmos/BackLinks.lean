/-
The back links of the heap's list. `splitblock` gives the new header a back
link and leaves the one of the block that followed as it was, so the links stay
mirrored exactly as long as no request is served by splitting a block that has
a successor.
-/
import Ssmos.HeapRuns
import Mathlib.Data.List.Chain

namespace Ssmos

/-- The back links mirror the forward links. -/
def Mirrors (m : Mem) (hs : List Nat) : Prop :=
  m.prevPtr HEAP_START = NULL ∧ ∀ b ∈ hs, m.nextPtr b ≠ NULL → m.prevPtr (m.nextPtr b) = b

def BackLinks (m : Mem) : Prop := ∃ hs, headers m = .ok hs ∧ Mirrors m hs

/-- The first header of a free block of at least `size` bytes. -/
def firstFree (m : Mem) (size : Nat) : Option Nat :=
  (headers m).toOption.bind fun hs => hs.find? fun b => m.isFree b ≠ 0 ∧ round4 size ≤ m.blockSize b

/-- A request for `size` bytes meets first a block that it will split and that
is not the last one. -/
def SplitsInside (m : Mem) (size : Nat) : Prop :=
  ∃ b, firstFree m size = some b ∧ m.nextPtr b ≠ NULL ∧
    round4 size + HEADER_SIZE + SPLIT_THRESHOLD ≤ m.blockSize b

/-- The requests a call makes of `kmalloc`. -/
def Call.splitsInside (m : Mem) : Call → Prop
  | .kmalloc size => SplitsInside m size
  | .krealloc p newsz => m.blockSize (toHeader p) < newsz ∧ SplitsInside m newsz
  | .kfree _ | .write _ _ _ => False

/-! ## Back links of a list of blocks -/

/-- Each block with the next one is in the relation `R`, on where they start
and link back to. -/
def Linked (R : Nat → Nat → Prop) (bs : List Blk) : Prop := bs.IsChain fun b c => R b.addr c.prev

/-- Every back link is the address of the block before. -/
def Mirrored : List Blk → Prop := Linked fun addr prev => prev = addr

/-- No back link is past the block before: it may be one that was split since. -/
def Behind : List Blk → Prop := Linked fun addr prev => prev ≤ addr

section Lists

variable {R : Nat → Nat → Prop} {pre post : List Blk} {b c : Blk} {s p : Nat}

/-- Only where a block starts and links back to matters to its neighbours. -/
theorem Linked.replace (ha : c.addr = b.addr) (hp : c.prev = b.prev) :
    Linked R (pre ++ c :: post) ↔ Linked R (pre ++ b :: post) := by
  simp only [Linked, List.isChain_append, List.isChain_cons, List.head?_cons, Option.mem_some_iff,
    forall_eq', ha, hp]

theorem linked_cut : Linked R (pre ++ (cut s b ++ post)) ↔ Linked R (pre ++ [b]) ∧ R b.addr b.addr ∧
    Linked R (⟨b.addr + 16 + s, b.addr, b.size - (s + 16), true⟩ :: post) := by
  rw [← Linked.replace (b := b) (c := { b with size := s, free := false }) rfl rfl]
  simp only [Linked, cut, List.cons_append, List.nil_append]
  rw [List.isChain_split, List.isChain_cons_cons]

theorem Linked.split : Linked R (pre ++ b :: post) ↔ Linked R (pre ++ [b]) ∧ Linked R (b :: post) :=
  List.isChain_split

theorem Linked.release {bs : List Blk} : Linked R (bs.map (releaseBlk p)) ↔ Linked R bs := by
  simp only [Linked, List.isChain_map, releaseBlk_addr, releaseBlk_prev]

/-- Serving a request keeps back links behind. -/
theorem behind_place (h : Behind (pre ++ b :: post)) : Behind (pre ++ (place s b ++ post)) := by
  unfold place
  split
  · obtain ⟨hpre, hpost⟩ := Linked.split.mp h
    refine linked_cut.mpr ⟨hpre, Nat.le_refl _, ?_⟩
    cases post with
    | nil => exact .singleton _
    | cons d post =>
      obtain ⟨hd, hrest⟩ := List.isChain_cons_cons.mp hpost
      exact List.isChain_cons_cons.mpr ⟨by simp only; omega, hrest⟩
  · exact (Linked.replace (b := b) (c := { b with free := false }) rfl rfl).mpr h

/-- Serving a request from `b` keeps back links mirrored unless it splits `b`
before another block, and never repairs one. -/
theorem mirrored_place (h : Behind (pre ++ b :: post)) : Mirrored (pre ++ (place s b ++ post)) ↔
    Mirrored (pre ++ b :: post) ∧ ¬ (post ≠ [] ∧ s + 20 ≤ b.size) := by
  unfold place
  split
  · next hs =>
    rw [Mirrored, linked_cut, Linked.split]
    cases post with
    | nil => simp [Linked]
    | cons d post =>
      obtain ⟨hd, -⟩ := List.isChain_cons_cons.mp (Linked.split.mp h).2
      simp only [Linked, List.isChain_cons_cons]
      constructor
      · intro hx
        obtain ⟨-, -, hprev, -⟩ := hx
        omega
      · intro hx
        obtain ⟨-, hno⟩ := hx
        exact absurd ⟨by simp, hs⟩ hno
  · next hs =>
    have hlinks : Mirrored (pre ++ { b with free := false } :: post) ↔ Mirrored (pre ++ b :: post) :=
      Linked.replace rfl rfl
    simp only [hs, and_false, not_false_eq_true, and_true]
    exact hlinks

end Lists

/-! ## Back links in memory -/

section Memory

variable {heapsize : Nat} {m : Mem} {H H' : Heap heapsize} {size : Nat}

/-- The root has no back link, and the others' are behind. -/
structure Heap.Behind (H : Heap heapsize) : Prop where
  root : ∀ b ∈ H.blocks.head?, b.prev = NULL
  behind : Ssmos.Behind H.blocks

theorem mirrors_segment {bs : List Blk} (hne : ∀ b ∈ bs, b.addr ≠ NULL) (he : Encodes m NULL bs) :
    (∀ b ∈ bs.map Blk.addr, m.nextPtr b ≠ NULL → m.prevPtr (m.nextPtr b) = b) ↔ Mirrored bs := by
  induction bs with
  | nil => simp [Mirrored, Linked]
  | cons b bs ih =>
    have ih := ih (fun c hc => hne c (by simp [hc])) he.2
    simp only [List.map_cons, List.forall_mem_cons, ih, he.1.next]
    cases bs with
    | nil => simp [headAddr, Mirrored, Linked]
    | cons c bs =>
      simp only [headAddr_cons, he.2.1.prev, Mirrored, Linked, List.isChain_cons_cons,
        ne_eq, hne c (by simp), not_false_eq_true, forall_const]

theorem backLinks_iff (hr : Rep m H) (hb : H.Behind) : BackLinks m ↔ Mirrored H.blocks := by
  obtain ⟨r, bs, hH, ha⟩ := H.exists_root
  have hroot : m.prevPtr HEAP_START = NULL := by
    rw [← ha, (hr.header_root hH).prev]
    exact hb.root r (by simp [hH])
  rw [← mirrors_segment H.addr_ne_null hr]
  simp only [BackLinks, headers_eq hr, Except.ok.injEq, exists_eq_left', Mirrors, hroot, true_and]

/-- `firstFree` finds the block first fit takes. -/
theorem firstFree_eq (hr : Rep m H) :
    firstFree m size = (firstFit (round4 size) H.blocks).map fun (_, b, _) => b.addr := by
  have hfind : ∀ bs : List Blk, (∀ b ∈ bs, b ∈ H.blocks) →
      (bs.map Blk.addr).find? (fun b => m.isFree b ≠ 0 ∧ round4 size ≤ m.blockSize b) =
        (firstFit (round4 size) bs).map fun (_, b, _) => b.addr := by
    intro bs
    induction bs with
    | nil => intro _; rfl
    | cons b bs ih =>
      intro hmem
      obtain ⟨_, hh⟩ := hr.header_mem (hmem b (by simp))
      have hfit : (m.isFree b.addr ≠ 0 ∧ round4 size ≤ m.blockSize b.addr) ↔ b.fits (round4 size) := by
        rw [← fits_iff hh]; omega
      simp only [List.map_cons, List.find?_cons, firstFit, hfit]
      by_cases hb : b.fits (round4 size)
      · simp [hb]
      · simp only [hb, decide_false, if_false, ih fun c hc => hmem c (by simp [hc]), Option.map_map]
        rfl
  unfold firstFree
  rw [headers_eq hr]
  exact hfind H.blocks fun _ hb => hb

theorem splitsInside_iff (hr : Rep m H) {pre post : List Blk} {b : Blk}
    (h : firstFit (round4 size) H.blocks = some (pre, b, post)) :
    SplitsInside m size ↔ post ≠ [] ∧ round4 size + 20 ≤ b.size := by
  have hH := (firstFit_eq_some.mp h).1
  have hh := hr.header hH
  have hpost : headAddr post NULL ≠ NULL ↔ post ≠ [] := by
    cases post with
    | nil => simp [headAddr]
    | cons c cs => simpa [headAddr] using H.addr_ne_null c (by simp [hH])
  unfold SplitsInside
  rw [firstFree_eq hr, h]
  simp only [Option.map_some, Option.some.injEq, exists_eq_left', hh.next, hh.size, hpost, HEADER_SIZE,
    SPLIT_THRESHOLD]

theorem Heap.Behind.malloc {p : Nat} (hb : H.Behind) (h : H.malloc size = some (p, H')) : H'.Behind := by
  obtain ⟨pre, b, post, hfit, -, hH'⟩ := Heap.malloc_eq_some.mp h
  have hH := (firstFit_eq_some.mp hfit).1
  have hroot := hb.root
  refine ⟨?_, hH' ▸ behind_place (hH ▸ hb.behind)⟩
  rw [hH] at hroot
  rw [hH']
  cases pre with
  | nil =>
    have hprev : b.prev = NULL := hroot b (by simp)
    unfold place
    split <;> simp [cut, hprev]
  | cons r pre => simpa using hroot

theorem Heap.Behind.release {p : Nat} (hb : H.Behind) : (H.release p).Behind where
  root := by
    have := hb.root
    simp only [Heap.release, List.head?_map, Option.mem_def, Option.map_eq_some_iff]
    intro _ hx
    obtain ⟨b, hb, rfl⟩ := hx
    rw [releaseBlk_prev]
    exact this b hb
  behind := Linked.release.mpr hb.behind

theorem mirrored_malloc {p : Nat} (hr : Rep m H) (hb : H.Behind) (h : H.malloc size = some (p, H')) :
    Mirrored H'.blocks ↔ Mirrored H.blocks ∧ ¬ SplitsInside m size := by
  obtain ⟨pre, b, post, hfit, -, hH'⟩ := Heap.malloc_eq_some.mp h
  have hH := (firstFit_eq_some.mp hfit).1
  rw [splitsInside_iff hr hfit, hH', hH]
  exact mirrored_place (hH ▸ hb.behind)

end Memory

/-! ## Back links over runs -/

section Runs

variable {heapsize : Nat} {s₀ s s' : HeapState} {H H' : Heap heapsize} {c : Call} {calls : List Call}

theorem Effect.behind (h : Effect H s c H' s') (hb : H.Behind) : H'.Behind := by
  cases h with
  | kmalloc hm => exact hb.malloc hm
  | stays => exact hb
  | moves _ _ hm => exact (hb.malloc hm).release
  | kfree => exact hb.release
  | write => exact hb

theorem Effect.mirrored (hi : s.Inv H) (h : Effect H s c H' s') (hb : H.Behind) :
    Mirrored H'.blocks ↔ Mirrored H.blocks ∧ ¬ c.splitsInside s.mem := by
  cases h with
  | kmalloc hm => exact mirrored_malloc hi.rep hb hm
  | stays hb hlt => simp [Call.splitsInside, hi.rep.blockSize_eq hb, hlt]
  | moves hb' hlt hm =>
    simp only [Call.splitsInside, hi.rep.blockSize_eq hb', hlt, true_and]
    exact Linked.release.trans (mirrored_malloc hi.rep hb hm)
  | kfree =>
    simp only [Call.splitsInside, not_false_eq_true, and_true]
    exact Linked.release
  | write => simp [Call.splitsInside]

theorem Booted.mirrored (h : Booted heapsize s) :
    ∃ H : Heap heapsize, s.LiveInv H ∧ H.Behind ∧ Mirrored H.blocks := by
  obtain ⟨H, hi, hH⟩ := h.liveInv
  refine ⟨H, hi, ⟨?_, ?_⟩, ?_⟩
  · simp [hH, cut]
  · simp [hH, cut, Behind, Linked]
  · simp [hH, cut, Mirrored, Linked]

/-- **Back links**: after a run by clients that pass only pointers they hold,
they mirror the forward links if and only if no request of the run was served
by splitting a block with a successor. -/
theorem backLinks_iff_no_split_inside (hboot : Booted heapsize s₀) (hrun : Runs LiveStep s₀ calls s) :
    BackLinks s.mem ↔
      Runs (fun s c s' => LiveStep s c s' ∧ ¬ c.splitsInside s.mem) s₀ calls s := by
  obtain ⟨H, hi, hb, hm⟩ := hboot.mirrored
  have hiff := hrun.iff_all_good (J := fun s => BackLinks s.mem)
    (I := fun s => ∃ H : Heap heapsize, s.LiveInv H ∧ H.Behind)
    (fun s c => ¬ c.splitsInside s.mem) ⟨H, hi, hb⟩
    (fun h₁ h₂ => by
      have := h₁.2.2.symm.trans h₂.2.2
      simpa using this)
    (fun ⟨_, hi, hb⟩ hstep => by
      obtain ⟨H', he, hi'⟩ := hstep.effect hi
      exact ⟨H', hi', he.behind hb⟩)
    (fun ⟨_, hi, hb⟩ hstep => by
      obtain ⟨H', he, hi'⟩ := hstep.effect hi
      rw [backLinks_iff hi'.rep (he.behind hb), backLinks_iff hi.rep hb]
      exact he.mirrored hi.toInv hb)
  rw [hiff, backLinks_iff hi.rep hb]
  exact ⟨fun h => h.2, fun h => ⟨hm, h⟩⟩

/-- A run that splits only the last block: its back links stay mirrored. -/
theorem backLinks_iff_no_split_inside_calls : ∃ s₀ s, Booted 1 s₀ ∧
    Runs LiveStep s₀ [.kmalloc 100, .kmalloc 0, .kfree 0x10002c, .kmalloc 100] s ∧
    BackLinks s.mem ∧ Runs (fun s c s' => LiveStep s c s' ∧ ¬ c.splitsInside s.mem) s₀
      [.kmalloc 100, .kmalloc 0, .kfree 0x10002c, .kmalloc 100] s := by
  obtain ⟨s, hs, hlinks⟩ : ∃ s, runFrom HeapState.live 1
      [.kmalloc 100, .kmalloc 0, .kfree 0x10002c, .kmalloc 100] = some s ∧
      ((headers s.mem).toOption.map fun hs => s.mem.prevPtr HEAP_START == NULL &&
        hs.all fun b => s.mem.nextPtr b == NULL || s.mem.prevPtr (s.mem.nextPtr b) == b) = some true :=
    Option.map_eq_some_iff.mp (by decide +kernel)
  obtain ⟨s₀, hboot, hrun⟩ := runFrom_eq_some (by decide) (by decide) hs
  obtain ⟨hs, hh, hmirror⟩ := Option.map_eq_some_iff.mp hlinks
  have hback : BackLinks s.mem :=
    ⟨hs, Except.toOption_eq_some.mp hh, by simpa [Mirrors, or_iff_not_imp_left] using hmirror⟩
  exact ⟨s₀, s, hboot, hrun, hback, (backLinks_iff_no_split_inside hboot hrun).mp hback⟩

/-- A freed block of 100 bytes is split again, between two others: the header
at `0x100090` still links back to it, past the one split off at `0x100054`. -/
theorem back_link_goes_stale : ∃ s₀ s, Booted 1 s₀ ∧
    Runs LiveStep s₀ [.kmalloc 100, .kmalloc 0, .kfree 0x10002c, .kmalloc 40] s ∧
    s.mem.nextPtr 0x100054 = 0x100090 ∧ s.mem.prevPtr 0x100090 = 0x10001c ∧ ¬ BackLinks s.mem := by
  obtain ⟨s, hs, hlinks⟩ : ∃ s, runFrom HeapState.live 1
      [.kmalloc 100, .kmalloc 0, .kfree 0x10002c, .kmalloc 40] = some s ∧
      ((headers s.mem).toOption, s.mem.nextPtr 0x100054, s.mem.prevPtr 0x100090) =
        (some [0x100000, 0x10001c, 0x100054, 0x100090, 0x1000a0], 0x100090, 0x10001c) :=
    Option.map_eq_some_iff.mp (by decide +kernel)
  obtain ⟨s₀, hboot, hrun⟩ := runFrom_eq_some (by decide) (by decide) hs
  simp only [Prod.mk.injEq] at hlinks
  refine ⟨s₀, s, hboot, hrun, hlinks.2.1, hlinks.2.2, ?_⟩
  intro hx
  obtain ⟨hs, hh, -, hmirror⟩ := hx
  rw [hh] at hlinks
  have hmem : 0x100054 ∈ hs := by rw [Option.some.inj hlinks.1]; decide
  have := hmirror 0x100054 hmem
  rw [hlinks.2.1, hlinks.2.2] at this
  exact absurd (this (by decide)) (by decide)

end Runs

end Ssmos

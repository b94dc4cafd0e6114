/-
The list library refines sequences: on a heap whose blocks in use hold the
nodes of disjoint lists, each function of `Ssmos.List` does to the list its
handle is in what its name says, from any handle, and to no other block.
-/
import Ssmos.Base.DList
import Ssmos.HeapFrames
import Ssmos.HeapRuns
import Mathlib.Data.List.Nodup
import Mathlib.Data.List.Perm.Subperm

namespace Ssmos

/-! ## Nodes in memory -/

/-- The `struct element` at `p`. -/
def Mem.node (m : Mem) (p : Nat) : Node Nat Nat := ⟨m.value p, m.next p, m.prev p⟩

/-- `p` points to a block in use that can hold a node. -/
def Heap.Node {heapsize : Nat} (H : Heap heapsize) (p : Nat) : Prop := ∃ n, ELEMENT_SIZE ≤ n ∧ H.Used p n

section Nodes

variable {heapsize : Nat} {m m' : Mem} {H H' : Heap heapsize} {p q a v : Nat} {ps : List Nat}

theorem Heap.Node.lt (h : H.Node p) : p + 12 < 2 ^ 32 := by
  obtain ⟨n, hn, hu⟩ := h
  have := hu.lt
  simp only [ELEMENT_SIZE] at hn
  omega

theorem Heap.Node.ne_null (h : H.Node p) : p ≠ NULL := by
  obtain ⟨n, -, hu⟩ := h
  exact hu.ne_null

/-- A node that is kept reads the same. -/
theorem Keeps.node (h : Keeps H m ps H' m') (hq : H.Node q) (hne : q ∉ ps) : m'.node q = m.node q := by
  obtain ⟨n, hn, hu⟩ := hq
  obtain ⟨-, hb⟩ := h q n hu hne
  simp only [ELEMENT_SIZE] at hn
  have hword : ∀ d, d + 4 ≤ 12 → m'.load32 (q + d) = m.load32 (q + d) := fun d hd =>
    Mem.load32_congr fun i hi => by
      rw [Nat.add_assoc]
      exact hb (d + i) (by omega)
  have h0 := hword 0 (by omega)
  simp only [Nat.add_zero] at h0
  simp only [Mem.node, Mem.value, Mem.next, Mem.prev, h0, hword 4 (by omega), hword 8 (by omega)]

theorem Keeps.isNode (h : Keeps H m ps H' m') (hq : H.Node q) (hne : q ∉ ps) : H'.Node q := by
  obtain ⟨n, hn, hu⟩ := hq
  exact ⟨n, hn, (h q n hu hne).1⟩

/-- Writing a field of a node keeps the heap and every other block. -/
theorem Rep.storeNode (hr : Rep m H) (hp : H.Node p) (h₁ : p ≤ a) (h₂ : a + 4 ≤ p + 12) :
    Rep (m.store32 a v) H ∧ Keeps H m [p] H (m.store32 a v) := by
  obtain ⟨n, hn, hu⟩ := hp
  have hlt := hu.lt
  simp only [ELEMENT_SIZE] at hn
  have hw : Wrote m (m.store32 a v) (Set.Ico a (a + 4)) := .store32_Ico (by omega) (Set.Subset.refl _)
  refine ⟨hr.frame_used hu hw h₁ (by omega), fun q k hq hne => ⟨hq, fun i hi => ?_⟩⟩
  have hqlt := hq.lt
  have hapart := hu.apart hq (by rintro rfl; simp at hne)
  exact hw.load8_eq_Ico (by omega) (by omega)

theorem node_setValue (h : p + 12 ≤ 2 ^ 32) : (m.setValue p v).node p = { m.node p with value := wrap v } := by
  simp only [Mem.node, Mem.setValue, Mem.value, Mem.next, Mem.prev, Mem.load32_store32_same]
  rw [Mem.load32_store32_ne (by omega) (by omega) (by omega),
    Mem.load32_store32_ne (by omega) (by omega) (by omega)]

theorem node_setNext (h : p + 12 ≤ 2 ^ 32) : (m.setNext p v).node p = { m.node p with next := wrap v } := by
  simp only [Mem.node, Mem.setNext, Mem.value, Mem.next, Mem.prev, Mem.load32_store32_same]
  rw [Mem.load32_store32_ne (by omega) (by omega) (by omega),
    Mem.load32_store32_ne (by omega) (by omega) (by omega)]

theorem node_setPrev (h : p + 12 ≤ 2 ^ 32) : (m.setPrev p v).node p = { m.node p with prev := wrap v } := by
  simp only [Mem.node, Mem.setPrev, Mem.value, Mem.next, Mem.prev, Mem.load32_store32_same]
  rw [Mem.load32_store32_ne (by omega) (by omega) (by omega),
    Mem.load32_store32_ne (by omega) (by omega) (by omega)]

theorem Rep.setValue (hr : Rep m H) (hp : H.Node p) (hv : v < 2 ^ 32) : Rep (m.setValue p v) H ∧
    Keeps H m [p] H (m.setValue p v) ∧ (m.setValue p v).node p = { m.node p with value := v } := by
  have hlt := hp.lt
  obtain ⟨hr', hk⟩ := hr.storeNode (a := p) (v := v) hp (by omega) (by omega)
  exact ⟨hr', hk, by rw [node_setValue (by omega), wrap_of_lt hv]⟩

theorem Rep.setNext (hr : Rep m H) (hp : H.Node p) (hv : v < 2 ^ 32) : Rep (m.setNext p v) H ∧
    Keeps H m [p] H (m.setNext p v) ∧ (m.setNext p v).node p = { m.node p with next := v } := by
  have hlt := hp.lt
  obtain ⟨hr', hk⟩ := hr.storeNode (a := p + 4) (v := v) hp (by omega) (by omega)
  exact ⟨hr', hk, by rw [node_setNext (by omega), wrap_of_lt hv]⟩

theorem Rep.setPrev (hr : Rep m H) (hp : H.Node p) (hv : v < 2 ^ 32) : Rep (m.setPrev p v) H ∧
    Keeps H m [p] H (m.setPrev p v) ∧ (m.setPrev p v).node p = { m.node p with prev := v } := by
  have hlt := hp.lt
  obtain ⟨hr', hk⟩ := hr.storeNode (a := p + 8) (v := v) hp (by omega) (by omega)
  exact ⟨hr', hk, by rw [node_setPrev (by omega), wrap_of_lt hv]⟩

end Nodes

/-! ## Walking -/

section Walk

variable {m : Mem} {g : Mem → Nat → Nat} {F : Nat → Node Nat Nat} {a h : Nat} {xs ys ps : List Nat}

theorem lastAlong_eq (hg : ∀ p, g m p = (F p).next) : ∀ {ps : List Nat} {p a n : Nat},
    Seg F a NULL (p :: ps) → NULL ∉ ps → ps.length < n →
    lastAlong g n m p = .ok (ps.getLastD p) := by
  intro ps
  induction ps with
  | nil =>
    intro p a n hs _ hn
    obtain ⟨n, rfl⟩ : ∃ k, n = k + 1 := ⟨n - 1, by omega⟩
    have hnext : (F p).next = NULL := hs.2.1
    simp only [lastAlong, hg, hnext, ne_eq, not_true_eq_false, if_false]
    rfl
  | cons q ps ih =>
    intro p a n hs hnull hn
    obtain ⟨n, rfl⟩ : ∃ k, n = k + 1 := ⟨n - 1, by omega⟩
    have hnext : (F p).next = q := hs.2.1
    simp only [List.mem_cons, not_or] at hnull
    simp only [lastAlong, hg, hnext, ne_eq, Ne.symm hnull.1, not_false_eq_true, if_true, List.getLastD_cons]
    exact ih hs.2.2 hnull.2 (by simpa using hn)

theorem countAlong_eq (hg : ∀ p, g m p = (F p).next) : ∀ {ps : List Nat} {p a n c : Nat},
    Seg F a NULL (p :: ps) → NULL ∉ ps → ps.length < n → c + ps.length < 2 ^ 32 →
    countAlong g n m p c = .ok (c + ps.length) := by
  intro ps
  induction ps with
  | nil =>
    intro p a n c hs _ hn _
    obtain ⟨n, rfl⟩ : ∃ k, n = k + 1 := ⟨n - 1, by omega⟩
    have hnext : (F p).next = NULL := hs.2.1
    simp only [countAlong, hg, hnext, ne_eq, not_true_eq_false, if_false, List.length_nil, Nat.add_zero]
  | cons q ps ih =>
    intro p a n c hs hnull hn hc
    obtain ⟨n, rfl⟩ : ∃ k, n = k + 1 := ⟨n - 1, by omega⟩
    have hnext : (F p).next = q := hs.2.1
    simp only [List.mem_cons, not_or] at hnull
    simp only [List.length_cons] at hn hc ⊢
    simp only [countAlong, hg, hnext, ne_eq, Ne.symm hnull.1, not_false_eq_true, if_true]
    rw [wrap_of_lt (by omega), ih hs.2.2 hnull.2 (by omega) (by omega)]
    congr 1
    omega

theorem getAtLoop_eq {index max : Int} (hmax : index ≤ max) :
    ∀ {k : Nat} {ps : List Nat} {p a n : Nat} {i : Int},
    Seg m.node a NULL (p :: ps) → NULL ∉ ps → k ≤ ps.length → i + k = index → k < n →
    getAtLoop n m p i index max = .ok ((p :: ps).getD k NULL) := by
  intro k
  induction k with
  | zero =>
    intro ps p a n i _ _ _ hi hn
    obtain ⟨n, rfl⟩ : ∃ k, n = k + 1 := ⟨n - 1, by omega⟩
    simp only [getAtLoop, if_neg (show ¬ i < index by omega), List.getD_cons_zero]
  | succ k ih =>
    intro ps p a n i hs hnull hk hi hn
    obtain ⟨n, rfl⟩ : ∃ k, n = k + 1 := ⟨n - 1, by omega⟩
    cases ps with
    | nil => simp at hk
    | cons q ps =>
      have hnext : m.next p = q := hs.2.1
      simp only [List.mem_cons, not_or] at hnull
      simp only [List.length_cons] at hk
      have hin : ¬ (i + 1 > max ∨ q = NULL) := by
        intro hx
        rcases hx with h | h
        · omega
        · exact hnull.1 h.symm
      simp only [getAtLoop, if_pos (show i < index by omega), hnext, if_neg hin, List.getD_cons_succ]
      exact ih hs.2.2 hnull.2 (by omega) (by omega) (by omega)

/-- A list of nodes, linked both ways with `NULL` at both ends. -/
structure Linked2 (m : Mem) (ps : List Nat) : Prop where
  seg : Seg m.node NULL NULL ps
  null : NULL ∉ ps
  length : ps.length < 2 ^ 31

theorem Linked2.after (hl : Linked2 m (xs ++ h :: ys)) : Seg m.node (xs.getLastD NULL) NULL (h :: ys) :=
  (Seg.append.mp hl.seg).2

theorem Linked2.before (hl : Linked2 m (xs ++ h :: ys)) :
    Seg (fun p => (m.node p).swap) (ys.headD NULL) NULL (h :: xs.reverse) := by
  have hs := hl.seg.swap
  simp only [List.reverse_append, List.reverse_cons, List.append_assoc, List.singleton_append] at hs
  have := (Seg.append.mp hs).2
  rwa [getLastD_reverse] at this

theorem Linked2.getFirst_eq (hl : Linked2 m (xs ++ h :: ys)) :
    getFirst m h = .ok ((xs ++ h :: ys).headD NULL) := by
  have hnull := hl.null
  have hlen := hl.length
  simp only [List.mem_append, List.mem_cons, not_or, List.length_append, List.length_cons] at hnull hlen
  unfold getFirst
  rw [if_neg (Ne.symm hnull.2.1), lastAlong_eq (g := Mem.prev) (fun _ => rfl) hl.before (by simpa using hnull.1)
    (by simp only [List.length_reverse, loopBound]; omega), getLastD_reverse, headD_append]
  rfl

theorem Linked2.getLast_eq (hl : Linked2 m (xs ++ h :: ys)) :
    getLast m h = .ok ((xs ++ h :: ys).getLastD NULL) := by
  have hnull := hl.null
  have hlen := hl.length
  simp only [List.mem_append, List.mem_cons, not_or, List.length_append, List.length_cons] at hnull hlen
  unfold getLast
  rw [if_neg (Ne.symm hnull.2.1), lastAlong_eq (g := Mem.next) (fun _ => rfl) hl.after hnull.2.2
    (by simp only [loopBound]; omega), getLastD_append, List.getLastD_cons]

theorem Linked2.listCount_eq (hl : Linked2 m (xs ++ h :: ys)) :
    listCount m h = .ok ((xs ++ h :: ys).length : Nat) := by
  have hnull := hl.null
  have hlen := hl.length
  simp only [List.mem_append, List.mem_cons, not_or, List.length_append, List.length_cons] at hnull hlen
  unfold listCount
  rw [if_neg (Ne.symm hnull.2.1), countAlong_eq (g := Mem.prev) (fun _ => rfl) hl.before
    (by simpa using hnull.1) (by simp only [List.length_reverse, loopBound]; omega)
    (by simp only [List.length_reverse]; omega), Except.ok_bind,
    countAlong_eq (g := Mem.next) (fun _ => rfl) hl.after hnull.2.2 (by simp only [loopBound]; omega)
    (by simp only [List.length_reverse]; omega), Except.ok_bind]
  simp only [List.length_reverse, List.length_append, List.length_cons, toInt]
  rw [wrap_of_lt (by omega), if_pos (by omega)]
  congr 1
  omega

theorem Linked2.getAt_eq (hl : Linked2 m (xs ++ h :: ys)) (index : Int) :
    getAt m h index = .ok (if 0 ≤ index then (xs ++ h :: ys).getD index.toNat NULL else NULL) := by
  have hnull := hl.null
  have hlen := hl.length
  have hh : h ≠ NULL := fun he => hnull (by simp [he])
  unfold getAt
  by_cases h0 : 0 ≤ index
  · rw [if_neg (by rintro (he | he); exacts [hh he, by omega]), hl.listCount_eq, Except.ok_bind, if_pos h0]
    split
    · next hi =>
      have hlen : (xs ++ h :: ys).length ≤ index.toNat := by omega
      simp only [List.getD_eq_getElem?_getD, List.getElem?_eq_none hlen,
        Option.getD_none]
      rfl
    · next hi =>
      rw [Except.ok_bind, hl.getFirst_eq, Except.ok_bind]
      have hs := hl.seg
      -- The list is not empty, and the walk starts at its first node.
      obtain ⟨p, ps, hps⟩ : ∃ p ps, xs ++ h :: ys = p :: ps := by cases xs <;> simp
      rw [hps] at hs hnull hlen hi ⊢
      simp only [List.mem_cons, not_or, List.length_cons] at hnull hlen hi
      exact getAtLoop_eq (by simp only [List.length_cons]; omega) hs hnull.2 (by omega) (by omega)
        (by simp only [loopBound]; omega)
  · rw [if_pos (.inr (by omega)), if_neg h0]

end Walk

/-! ## Stores of lists -/

/-- A heap with disjoint lists in it, given by the addresses of their nodes. -/
structure Store {heapsize : Nat} (m : Mem) (H : Heap heapsize) (ls : List (List Nat)) : Prop where
  rep : Rep m H
  nodes : ∀ p ∈ ls.flatten, H.Node p
  nodup : ls.flatten.Nodup
  seg : ∀ l ∈ ls, Seg m.node NULL NULL l

/-- In `m'`, the list `l` of a store has become `l'`, which holds `vs`, the
lists before and after it are in the store as they were, and no block in use
outside `l` has changed. -/
def Becomes {heapsize : Nat} (m : Mem) (H : Heap heapsize) (before : List (List Nat)) (l : List Nat)
    (after : List (List Nat)) (l' vs : List Nat) (m' : Mem) : Prop :=
  ∃ H' : Heap heapsize, Store m' H' (before ++ l' :: after) ∧ l'.map m'.value = vs ∧ Keeps H m l H' m'

section Stores

variable {heapsize : Nat} {m m' : Mem} {H H' : Heap heapsize} {before after : List (List Nat)}
  {l l' vs xs ys : List Nat} {p q h v : Nat}

theorem mem_flatten_around : p ∈ (before ++ l :: after).flatten ↔ p ∈ l ∨ p ∈ (before ++ after).flatten := by
  simp only [List.flatten_append, List.flatten_cons, List.mem_append]
  tauto

theorem nodup_flatten_around : (before ++ l :: after).flatten.Nodup ↔
    l.Nodup ∧ (before ++ after).flatten.Nodup ∧ ∀ p ∈ l, p ∉ (before ++ after).flatten := by
  have hperm : (before ++ l :: after).flatten.Perm (l ++ (before ++ after).flatten) := by
    simp only [List.flatten_append, List.flatten_cons]
    exact List.perm_append_comm_assoc _ _ _
  rw [hperm.nodup_iff, List.nodup_append]
  refine and_congr_right fun _ => and_congr_right fun _ => ⟨fun h p hp hq => h p hp p hq rfl, ?_⟩
  intro h p hp q hq hx
  subst hx
  exact h p hp hq

theorem Heap.Node.ptr (h : H.Node p) : H.Ptr p := by
  obtain ⟨n, -, hu⟩ := h
  exact hu.ptr

/-- Every node of a list has a block of its own. -/
theorem Store.length_le (hs : Store m H (before ++ l :: after)) : l.length ≤ H.blocks.length := by
  have hsub : l ⊆ H.blocks.map Blk.data := fun p hp => by
    obtain ⟨b, hb, rfl⟩ := (hs.nodes p (mem_flatten_around.mpr (.inl hp))).ptr
    exact List.mem_map_of_mem hb
  have hle := (List.subperm_of_subset (nodup_flatten_around.mp hs.nodup).1 hsub).length_le
  rwa [List.length_map] at hle

theorem Store.linked (hs : Store m H (before ++ l :: after)) : Linked2 m l where
  seg := hs.seg l (by simp)
  null := fun h => (hs.nodes NULL (mem_flatten_around.mpr (.inl h))).ne_null rfl
  length := by
    have hle := hs.length_le
    have := H.length_lt_int
    omega

theorem Store.node (hs : Store m H (before ++ l :: after)) (hp : p ∈ l) : H.Node p :=
  hs.nodes p (mem_flatten_around.mpr (.inl hp))

/-- A list of a store replaced by one of its nodes and fresh ones. -/
theorem Store.replace (hs : Store m H (before ++ l :: after)) (hr : Rep m' H') (hk : Keeps H m l H' m')
    (hnodes : ∀ p ∈ l', H'.Node p) (hnodup : l'.Nodup) (hfresh : ∀ p ∈ l', p ∈ l ∨ ¬ H.Node p)
    (hseg : Seg m'.node NULL NULL l') : Store m' H' (before ++ l' :: after) := by
  obtain ⟨-, hothers, hapart⟩ := nodup_flatten_around.mp hs.nodup
  have hother : ∀ p ∈ (before ++ after).flatten, H.Node p ∧ p ∉ l := fun p hp =>
    ⟨hs.nodes p (mem_flatten_around.mpr (.inr hp)), fun hl => hapart p hl hp⟩
  refine ⟨hr, fun p hp => ?_, ?_, fun k hmem => ?_⟩
  · rcases mem_flatten_around.mp hp with hp | hp
    · exact hnodes p hp
    · exact hk.isNode (hother p hp).1 (hother p hp).2
  · refine nodup_flatten_around.mpr ⟨hnodup, hothers, fun p hp hp' => ?_⟩
    rcases hfresh p hp with hl | hn
    · exact hapart p hl hp'
    · exact hn (hother p hp').1
  · rcases (by simpa using hmem : k ∈ before ∨ k = l' ∨ k ∈ after) with hk' | rfl | hk'
    · refine (hs.seg k (by simp [hk'])).congr fun p hp => ?_
      have := hother p (List.mem_flatten.mpr ⟨k, by simp [hk'], hp⟩)
      exact hk.node this.1 this.2
    · exact hseg
    · refine (hs.seg k (by simp [hk'])).congr fun p hp => ?_
      have := hother p (List.mem_flatten.mpr ⟨k, by simp [hk'], hp⟩)
      exact hk.node this.1 this.2

theorem Store.becomes (hs : Store m H (before ++ l :: after)) (hr : Rep m' H') (hk : Keeps H m l H' m')
    (hnodes : ∀ p ∈ l', H'.Node p) (hnodup : l'.Nodup) (hfresh : ∀ p ∈ l', p ∈ l ∨ ¬ H.Node p)
    (hseg : Seg m'.node NULL NULL l') (hvs : l'.map m'.value = vs) :
    Becomes m H before l after l' vs m' :=
  ⟨H', hs.replace hr hk hnodes hnodup hfresh hseg, hvs, hk⟩

/-- The nodes next to a place in a list. -/
def around (xs ys : List Nat) : List Nat := xs.getLast?.toList ++ ys.head?.toList

theorem around_subset : around xs ys ⊆ xs ++ ys := by
  intro p hp
  simp only [around, List.mem_append, Option.mem_toList] at hp ⊢
  rcases hp with hp | hp
  · exact .inl (List.mem_of_getLast? hp)
  · exact .inr (List.mem_of_head? hp)

theorem cons_around_subset : p :: around xs ys ⊆ xs ++ p :: ys := by
  intro q hq
  rcases List.mem_cons.mp hq with rfl | hq
  · simp
  · have := around_subset hq
    simp only [List.mem_append, List.mem_cons] at this ⊢
    tauto

theorem not_around_dropLast (hn : (xs ++ ys).Nodup) (hq : q ∈ xs.dropLast) : q ∉ around xs ys := by
  rcases List.eq_nil_or_concat xs with rfl | ⟨zs, t, rfl⟩
  · simp at hq
  · simp only [List.concat_eq_append, List.dropLast_concat, List.append_assoc] at hn hq
    obtain ⟨-, -, hapart⟩ := List.nodup_append.mp hn
    intro h
    simp only [around, List.concat_eq_append, List.getLast?_concat, Option.toList_some, List.mem_append,
      Option.mem_toList, List.mem_singleton] at h
    refine hapart q hq q ?_ rfl
    rcases h with rfl | h
    · simp
    · simp [List.mem_of_head? h]

theorem not_around_tail (hn : (xs ++ ys).Nodup) (hq : q ∈ ys.tail) : q ∉ around xs ys := by
  cases ys with
  | nil => simp at hq
  | cons t ys =>
    obtain ⟨-, ht, hapart⟩ := List.nodup_append.mp hn
    simp only [List.tail_cons] at hq
    intro h
    simp only [around, List.head?_cons, Option.toList_some, List.mem_append, Option.mem_toList,
      List.mem_singleton] at h
    rcases h with h | rfl
    · exact hapart q (List.mem_of_getLast? h) q (by simp [hq]) rfl
    · exact (List.nodup_cons.mp ht).1 hq

/-- Relinking two neighbours leaves all values as they are. -/
theorem value_relinked {next prev : Nat} (hkept : ∀ q ∈ xs ++ ys, q ∉ around xs ys → m'.node q = m.node q)
    (hlast : ∀ q ∈ xs.getLast?, m'.node q = { m.node q with next := next })
    (hhead : ∀ q ∈ ys.head?, m'.node q = { m.node q with prev := prev }) :
    ∀ q ∈ xs ++ ys, m'.value q = m.value q := by
  intro q hq
  have hnode : (m'.node q).value = (m.node q).value := by
    by_cases ha : q ∈ around xs ys
    · simp only [around, List.mem_append, Option.mem_toList] at ha
      rcases ha with ha | ha
      · rw [hlast q ha]
      · rw [hhead q ha]
    · rw [hkept q hq ha]
  exact hnode

/-- What a function that links a new node `p` in between `xs` and `ys` does. -/
structure LinksIn (m : Mem) (H' : Heap heapsize) (m' : Mem) (xs : List Nat) (p v : Nat) (ys : List Nat) :
    Prop where
  rep : Rep m' H'
  new : m'.node p = ⟨v, ys.headD NULL, xs.getLastD NULL⟩
  last : ∀ q ∈ xs.getLast?, m'.node q = { m.node q with next := p }
  head : ∀ q ∈ ys.head?, m'.node q = { m.node q with prev := p }

/-- Linking in after an allocation. -/
theorem LinksIn.of_keeps {m₁ : Mem} (h : LinksIn m₁ H' m' xs p v ys) (hk : Keeps H m [] H' m₁)
    (hnodes : ∀ q ∈ xs ++ ys, H.Node q) : LinksIn m H' m' xs p v ys where
  rep := h.rep
  new := h.new
  last := fun q hq => by
    rw [h.last q hq, hk.node (hnodes q (by simp [List.mem_of_getLast? hq])) (by simp)]
  head := fun q hq => by
    rw [h.head q hq, hk.node (hnodes q (by simp [List.mem_of_head? hq])) (by simp)]

theorem Store.insert (xs ys : List Nat) (v : Nat) (hs : Store m H (before ++ (xs ++ ys) :: after))
    (hm : H.malloc ELEMENT_SIZE = some (p, H'))
    (hk : Keeps H m (around xs ys) H' m') (h : LinksIn m H' m' xs p v ys) :
    Becomes m H before (xs ++ ys) after (xs ++ p :: ys) (xs.map m.value ++ v :: ys.map m.value) m' := by
  obtain ⟨n, hn, hu, hnot, hiff⟩ := Heap.malloc_used hm
  have hfresh : ¬ H.Node p := fun ⟨k, _, hk⟩ => hnot k hk
  have hnode : ∀ q ∈ xs ++ ys, H.Node q := fun q hq => hs.node hq
  have hnodup : (xs ++ ys).Nodup := (nodup_flatten_around.mp hs.nodup).1
  have hkept : ∀ q ∈ xs ++ ys, q ∉ around xs ys → m'.node q = m.node q := fun q hq hne =>
    hk.node (hnode q hq) hne
  have hvalue := value_relinked hkept h.last h.head
  have hseg := hs.seg (xs ++ ys) (by simp)
  refine hs.becomes h.rep (hk.mono around_subset) (fun q hq => ?_) ?_ (fun q hq => ?_) ?_ ?_
  · rcases (by simpa using hq : q ∈ xs ∨ q = p ∨ q ∈ ys) with hq | rfl | hq
    · obtain ⟨k, hk, hu⟩ := hnode q (by simp [hq])
      exact ⟨k, hk, (hiff q k).mpr (.inr hu)⟩
    · exact ⟨n, hn, hu⟩
    · obtain ⟨k, hk, hu⟩ := hnode q (by simp [hq])
      exact ⟨k, hk, (hiff q k).mpr (.inr hu)⟩
  · exact List.nodup_middle.mpr (List.nodup_cons.mpr ⟨fun hp => hfresh (hnode p hp), hnodup⟩)
  · rcases (by simpa using hq : q ∈ xs ∨ q = p ∨ q ∈ ys) with hq | rfl | hq
    · exact .inl (by simp [hq])
    · exact .inr hfresh
    · exact .inl (by simp [hq])
  · refine hseg.insert (by rw [h.new]; exact ⟨rfl, rfl⟩) (fun q hq => ?_) (fun q hq => ?_) (fun q hq => ?_)
      fun q hq => ?_
    · exact hkept q (by simp [List.dropLast_subset _ hq]) (not_around_dropLast hnodup hq)
    · rw [h.last q hq]; exact ⟨rfl, rfl⟩
    · exact hkept q (by simp [List.mem_of_mem_tail hq]) (not_around_tail hnodup hq)
    · rw [h.head q hq]; exact ⟨rfl, rfl⟩
  · have hv : m'.value p = v := by
      have : (m'.node p).value = v := by rw [h.new]
      exact this
    rw [List.map_append, List.map_cons, hv]
    congr 1
    · exact List.map_congr_left fun q hq => hvalue q (by simp [hq])
    · congr 1
      exact List.map_congr_left fun q hq => hvalue q (by simp [hq])

/-- A new node's block: allocated, not in use before, and nothing else changed. -/
theorem Store.malloc (hs : Store m H (before ++ l :: after)) (hh : q ∈ l) :
    (H.malloc ELEMENT_SIZE = none ∧ malloc m ELEMENT_SIZE = .error outOfMemory) ∨
      ∃ p H' m', H.malloc ELEMENT_SIZE = some (p, H') ∧ Ssmos.malloc m ELEMENT_SIZE = .ok (p, m') ∧
        Rep m' H' ∧ Keeps H m [] H' m' ∧ H'.Node p ∧ ∀ n, ¬ H.Used p n := by
  obtain ⟨k, -, hq⟩ := hs.node hh
  rcases malloc_outcome hs.rep (hs.rep.not_untouched hq) (by decide : ELEMENT_SIZE ≤ 2 ^ 32 - 4) with h | h
  · exact .inl h
  · obtain ⟨p, H', m', hm, hk, hr, hw⟩ := h
    obtain ⟨n, hn, hu, hnot, -⟩ := Heap.malloc_used hm
    exact .inr ⟨p, H', m', hm, hk, hr, keeps_malloc hm hw, ⟨n, hn, hu⟩, hnot⟩

/-- What the queries answer from any handle of a list. -/
theorem Store.getFirst_eq (hs : Store m H (before ++ l :: after)) (hh : h ∈ l) :
    getFirst m h = .ok (l.headD NULL) := by
  obtain ⟨xs, ys, rfl⟩ := List.append_of_mem hh
  exact hs.linked.getFirst_eq

theorem Store.getLast_eq (hs : Store m H (before ++ l :: after)) (hh : h ∈ l) :
    getLast m h = .ok (l.getLastD NULL) := by
  obtain ⟨xs, ys, rfl⟩ := List.append_of_mem hh
  exact hs.linked.getLast_eq

theorem Store.listCount_eq (hs : Store m H (before ++ l :: after)) (hh : h ∈ l) :
    listCount m h = .ok (l.length : Nat) := by
  obtain ⟨xs, ys, rfl⟩ := List.append_of_mem hh
  exact hs.linked.listCount_eq

theorem Store.getAt_eq (hs : Store m H (before ++ l :: after)) (hh : h ∈ l) (index : Int) :
    getAt m h index = .ok (if 0 ≤ index then l.getD index.toNat NULL else NULL) := by
  obtain ⟨xs, ys, rfl⟩ := List.append_of_mem hh
  exact hs.linked.getAt_eq index

/-- The node added is a block that was not in use. -/
theorem listAdd_appends (hs : Store m H (before ++ l :: after)) (hh : h ∈ l) (hv : v < 2 ^ 32) :
    (H.malloc ELEMENT_SIZE = none ∧ listAdd m h v = .error outOfMemory) ∨
      ∃ p m', listAdd m h v = .ok m' ∧ (∀ n, ¬ H.Used p n) ∧
        Becomes m H before l after (l ++ [p]) (l.map m.value ++ [v]) m' := by
  have hlast := hs.getLast_eq hh
  have hnull := (hs.node hh).ne_null
  -- The last node, and those before it.
  obtain ⟨zs, q, hlq⟩ : ∃ zs q, l = zs ++ [q] := by
    rcases List.eq_nil_or_concat l with rfl | ⟨zs, q, h⟩
    · cases hh
    · exact ⟨zs, q, by simpa using h⟩
  have hq : H.Node q := hs.node (by simp [hlq])
  have hlastq : l.getLastD NULL = q := by rw [hlq, getLastD_append]; rfl
  unfold listAdd
  rw [if_neg hnull, hlast, Except.ok_bind, hlastq]
  rcases hs.malloc hh with ⟨hm, hk⟩ | ⟨p, H', m₁, hm, hk, hr, hkeep, hp, hfresh⟩
  · exact .inl ⟨hm, by rw [hk]; rfl⟩
  · refine .inr ⟨p, _, by rw [hk]; rfl, hfresh, ?_⟩
    have hpq : p ≠ q := fun he => by
      obtain ⟨n, -, hu⟩ := hq
      exact hfresh n (he ▸ hu)
    have hq' : H'.Node q := hkeep.isNode hq (by simp)
    have hqlt := hq.lt
    have hplt := hp.lt
    obtain ⟨hr₂, hk₂, hn₂⟩ := hr.setValue hp hv
    obtain ⟨hr₃, hk₃, hn₃⟩ := hr₂.setPrev hp (v := q) (by omega)
    obtain ⟨hr₄, hk₄, hn₄⟩ := hr₃.setNext hq' (v := p) (by omega)
    obtain ⟨hr₅, hk₅, hn₅⟩ := hr₄.setNext hp (v := NULL) (by decide)
    have hkall : Keeps H m [p, q] H' _ := ((((hkeep.mono (by simp)).trans (hk₂.mono (by simp))).trans
      (hk₃.mono (by simp))).trans (hk₄.mono (by simp))).trans (hk₅.mono (by simp))
    have hins := Store.insert l [] v (by simpa using hs) hm ?_
      ⟨hr₅, ?_, ?_, by simp⟩
    · simpa using hins
    · have : around l [] = [q] := by simp [around, hlq]
      rw [this]
      exact hkall.fresh hfresh
    · rw [hn₅, hk₄.node hp (by simpa using hpq), hn₃, hn₂, hlastq]
      rfl
    · simp only [hlq, List.getLast?_concat, Option.mem_some_iff, forall_eq']
      rw [hk₅.node hq' (by simpa using hpq.symm), hn₄, hk₃.node hq' (by simpa using hpq.symm),
        hk₂.node hq' (by simpa using hpq.symm), hkeep.node hq (by simp)]

theorem listAdd_becomes (hs : Store m H (before ++ l :: after)) (hh : h ∈ l) (hv : v < 2 ^ 32) :
    (H.malloc ELEMENT_SIZE = none ∧ listAdd m h v = .error outOfMemory) ∨
      ∃ p m', listAdd m h v = .ok m' ∧
        Becomes m H before l after (l ++ [p]) (l.map m.value ++ [v]) m' :=
  (listAdd_appends hs hh hv).imp_right fun ⟨p, m', hrun, _, h⟩ => ⟨p, m', hrun, h⟩

theorem insertIdx_length (xs ys : List Nat) (a : Nat) : (xs ++ ys).insertIdx xs.length a = xs ++ a :: ys := by
  induction xs with
  | nil => rfl
  | cons x xs ih => simp [ih]

/-- The node at an index, and the nodes around it. -/
theorem exists_split {i : Nat} (hi : i < l.length) : ∃ xs q ys, l = xs ++ q :: ys ∧ xs.length = i :=
  ⟨l.take i, l[i], l.drop (i + 1), by rw [List.getElem_cons_drop, List.take_append_drop],
    by rw [List.length_take]; omega⟩

theorem getD_split : (xs ++ q :: ys).getD xs.length NULL = q := by simp

/-- The fresh node's fields, linked in after `q`, in the order `list_addat` writes them. -/
theorem linksIn_after (xs ys : List Nat) (v : Nat) (hr : Rep m H) (hp : H.Node p) (hq : H.Node q)
    (hpq : p ≠ q) (hys : ∀ r ∈ ys.head?, H.Node r ∧ r ≠ p ∧ r ≠ q) (hv : v < 2 ^ 32) :
    let next := ys.headD NULL
    let m' := (((m.setValue p v).setPrev p q).setNext p next).setNext q p
    let m' := if next ≠ NULL then m'.setPrev next p else m'
    LinksIn m H m' (xs ++ [q]) p v ys ∧ Keeps H m (p :: around (xs ++ [q]) ys) H m' := by
  have hqlt := hq.lt
  have hplt := hp.lt
  have hnext : ys.headD NULL < 2 ^ 32 := by
    cases ys with
    | nil => decide
    | cons r ys =>
      have := (hys r rfl).1.lt
      simp only [List.headD_cons]
      omega
  obtain ⟨hr₂, hk₂, hn₂⟩ := hr.setValue hp hv
  obtain ⟨hr₃, hk₃, hn₃⟩ := hr₂.setPrev hp (v := q) (by omega)
  obtain ⟨hr₄, hk₄, hn₄⟩ := hr₃.setNext hp (v := ys.headD NULL) hnext
  obtain ⟨hr₅, hk₅, hn₅⟩ := hr₄.setNext hq (v := p) (by omega)
  have hkall : Keeps H m [p, q] H _ := (((hk₂.mono (by simp)).trans (hk₃.mono (by simp))).trans
    (hk₄.mono (by simp))).trans (hk₅.mono (by simp))
  have hnp : ((((m.setValue p v).setPrev p q).setNext p (ys.headD NULL)).setNext q p).node p =
      ⟨v, ys.headD NULL, q⟩ := by
    rw [hk₅.node hp (by simpa using hpq), hn₄, hn₃, hn₂]
  have hnq : ((((m.setValue p v).setPrev p q).setNext p (ys.headD NULL)).setNext q p).node q =
      { m.node q with next := p } := by
    rw [hn₅, hk₄.node hq (by simpa using hpq.symm), hk₃.node hq (by simpa using hpq.symm),
      hk₂.node hq (by simpa using hpq.symm)]
  have hlast : (xs ++ [q]).getLastD NULL = q := by rw [getLastD_append]; rfl
  cases ys with
  | nil =>
    simp only [List.headD_nil, ne_eq, not_true_eq_false, if_false] at *
    refine ⟨⟨hr₅, ?_, ?_, by simp⟩, hkall.mono (by simp [around])⟩
    · rw [hnp, hlast]; rfl
    · simpa using hnq
  | cons r ys =>
    obtain ⟨hrn, hrp, hrq⟩ := hys r rfl
    simp only [List.headD_cons, ne_eq, hrn.ne_null, not_false_eq_true, if_true] at *
    obtain ⟨hr₆, hk₆, hn₆⟩ := hr₅.setPrev hrn (v := p) (by omega)
    refine ⟨⟨hr₆, ?_, ?_, ?_⟩, (hkall.mono (by simp [around])).trans (hk₆.mono (by simp [around]))⟩
    · rw [hk₆.node hp (by simpa using Ne.symm hrp), hnp, hlast]; rfl
    · simp only [List.getLast?_concat, Option.mem_some_iff, forall_eq']
      rw [hk₆.node hq (by simpa using Ne.symm hrq), hnq]
    · simp only [List.head?_cons, Option.mem_some_iff, forall_eq']
      rw [hn₆, hkall.node hrn (by simp [hrp, hrq])]

theorem listAddat_becomes (hs : Store m H (before ++ l :: after)) (hh : h ∈ l) (hv : v < 2 ^ 32)
    {index : Int} (h₀ : 0 ≤ index) (h₁ : index < l.length) :
    (H.malloc ELEMENT_SIZE = none ∧ listAddat m h v index = .error outOfMemory) ∨
      ∃ p m', listAddat m h v index = .ok m' ∧ Becomes m H before l after
        (l.insertIdx (index.toNat + 1) p) ((l.map m.value).insertIdx (index.toNat + 1) v) m' := by
  have hcount := hs.listCount_eq hh
  have hat := hs.getAt_eq hh index
  obtain ⟨xs, q, ys, hlq, hlen⟩ := exists_split (l := l) (i := index.toNat) (by omega)
  rw [if_pos h₀, ← hlen, hlq, getD_split] at hat
  have hq : H.Node q := hs.node (by simp [hlq])
  have hnext : m.next q = ys.headD NULL := by
    have hseg := hs.seg l (by simp)
    rw [hlq] at hseg
    exact (Seg.append.mp hseg).2.2.1
  have hnull := (hs.node hh).ne_null
  unfold listAddat
  rw [if_neg (by rintro (he | he); exacts [hnull he, by omega]), hcount, Except.ok_bind,
    if_neg (by omega), hat]
  simp only [Except.ok_bind, hnext]
  rcases hs.malloc hh with ⟨hm, hk⟩ | ⟨p, H', m₁, hm, hk, hr, hkeep, hp, hfresh⟩
  · exact .inl ⟨hm, by rw [hk]; rfl⟩
  · refine .inr ⟨p, _, by rw [hk]; rfl, ?_⟩
    have hne : ∀ r ∈ l, p ≠ r := fun r hr he => by
      obtain ⟨n, -, hu⟩ := hs.node hr
      exact hfresh n (he ▸ hu)
    have hnodup := (nodup_flatten_around.mp hs.nodup).1
    rw [hlq] at hnodup
    obtain ⟨hlinks, hkall⟩ := linksIn_after xs ys v hr hp (hkeep.isNode hq (by simp))
      (hne q (by simp [hlq])) (fun r hr' => by
        have hrys := List.mem_of_head? hr'
        have hrl : r ∈ l := by simp [hlq, hrys]
        refine ⟨hkeep.isNode (hs.node hrl) (by simp), (hne r hrl).symm, ?_⟩
        intro hx
        subst hx
        exact (List.nodup_cons.mp (List.nodup_append.mp hnodup).2.1).1 hrys) hv
    have hl' : l = (xs ++ [q]) ++ ys := by simp [hlq]
    have hlen' : index.toNat + 1 = (xs ++ [q]).length := by simp [hlen]
    have hins := Store.insert (xs ++ [q]) ys v (hl' ▸ hs) hm
      (((hkeep.mono (by simp)).trans hkall).fresh hfresh)
      (hlinks.of_keeps hkeep fun r hr => hs.node (hl' ▸ hr))
    rw [hlen', hl', insertIdx_length, List.map_append, ← List.length_map (f := m.value), insertIdx_length]
    exact hins

/-! ## Removing -/

theorem headD_lt (h : ∀ q ∈ xs, H.Node q) : xs.headD NULL < 2 ^ 32 := by
  cases xs with
  | nil => decide
  | cons q xs =>
    have := (h q (by simp)).lt
    simp only [List.headD_cons]
    omega

theorem getLastD_lt (h : ∀ q ∈ xs, H.Node q) : xs.getLastD NULL < 2 ^ 32 := by
  rw [← List.reverse_reverse xs, getLastD_reverse]
  exact headD_lt fun q hq => h q (by simpa using hq)

theorem Rep.relinkNext (xs : List Nat) (v : Nat) (hr : Rep m H) (hxs : ∀ q ∈ xs.getLast?, H.Node q)
    (hv : v < 2 ^ 32) :
    let m' := if xs.getLastD NULL ≠ NULL then m.setNext (xs.getLastD NULL) v else m
    Rep m' H ∧ Keeps H m xs.getLast?.toList H m' ∧
      ∀ q ∈ xs.getLast?, m'.node q = { m.node q with next := v } := by
  rcases List.eq_nil_or_concat xs with rfl | ⟨zs, q, rfl⟩
  · simpa using And.intro hr (Keeps.refl H m [])
  · have hlast : (zs.concat q).getLastD NULL = q := by
      rw [List.concat_eq_append, getLastD_append]; rfl
    simp only [List.concat_eq_append, List.getLast?_concat, Option.mem_some_iff, forall_eq'] at hxs hlast ⊢
    simp only [hlast, ne_eq, hxs.ne_null, not_false_eq_true, if_true, Option.toList_some]
    exact hr.setNext hxs hv

theorem Rep.relinkPrev (ys : List Nat) (v : Nat) (hr : Rep m H) (hys : ∀ q ∈ ys.head?, H.Node q)
    (hv : v < 2 ^ 32) :
    let m' := if ys.headD NULL ≠ NULL then m.setPrev (ys.headD NULL) v else m
    Rep m' H ∧ Keeps H m ys.head?.toList H m' ∧ ∀ q ∈ ys.head?, m'.node q = { m.node q with prev := v } := by
  cases ys with
  | nil => simpa using And.intro hr (Keeps.refl H m [])
  | cons q ys =>
    simp only [List.head?_cons, Option.mem_some_iff, forall_eq'] at hys ⊢
    simp only [List.headD_cons, ne_eq, hys.ne_null, not_false_eq_true, if_true, Option.toList_some]
    exact hr.setPrev hys hv

/-- What a function that splices a node out from between `xs` and `ys` does. -/
structure SplicesOut (m : Mem) (H' : Heap heapsize) (m' : Mem) (xs ys : List Nat) : Prop where
  rep : Rep m' H'
  last : ∀ q ∈ xs.getLast?, m'.node q = { m.node q with next := ys.headD NULL }
  head : ∀ q ∈ ys.head?, m'.node q = { m.node q with prev := xs.getLastD NULL }

theorem Store.remove (hs : Store m H (before ++ (xs ++ p :: ys) :: after))
    (hk : Keeps H m (p :: around xs ys) (H.release p) m') (h : SplicesOut m (H.release p) m' xs ys) :
    Store m' (H.release p) (before ++ (xs ++ ys) :: after) ∧ ∀ q ∈ xs ++ ys, m'.value q = m.value q := by
  have hnodup := (nodup_flatten_around.mp hs.nodup).1
  obtain ⟨hp, hnodup⟩ := List.nodup_cons.mp (List.nodup_middle.mp hnodup)
  have hnode : ∀ q ∈ xs ++ ys, H.Node q ∧ q ≠ p := fun q hq => by
    refine ⟨hs.node ?_, fun he => hp (he ▸ hq)⟩
    simp only [List.mem_append, List.mem_cons] at hq ⊢
    tauto
  have hkept : ∀ q ∈ xs ++ ys, q ∉ around xs ys → m'.node q = m.node q := fun q hq hne =>
    hk.node (hnode q hq).1 (by simp [(hnode q hq).2, hne])
  refine ⟨hs.replace h.rep (hk.mono cons_around_subset) (fun q hq => ?_) hnodup (fun q hq => ?_) ?_,
    value_relinked hkept h.last h.head⟩
  · obtain ⟨n, hn, hu⟩ := (hnode q hq).1
    exact ⟨n, hn, Heap.release_used.mpr ⟨hu, (hnode q hq).2⟩⟩
  · simp only [List.mem_append, List.mem_cons] at hq ⊢
    tauto
  · refine hs.linked.seg.remove (fun q hq => ?_) (fun q hq => ?_) (fun q hq => ?_) fun q hq => ?_
    · exact hkept q (by simp [List.dropLast_subset _ hq]) (not_around_dropLast hnodup hq)
    · rw [h.last q hq]; exact ⟨rfl, rfl⟩
    · exact hkept q (by simp [List.mem_of_mem_tail hq]) (not_around_tail hnodup hq)
    · rw [h.head q hq]; exact ⟨rfl, rfl⟩

/-- What `list_remove` leaves: the list without the node, whose block is released. -/
theorem listRemove_store (hs : Store m H (before ++ (xs ++ p :: ys) :: after)) :
    Store (listRemove m p) (H.release p) (before ++ (xs ++ ys) :: after) ∧
      (∀ q ∈ xs ++ ys, (listRemove m p).value q = m.value q) ∧
      Keeps H m (p :: around xs ys) (H.release p) (listRemove m p) := by
  have hnode : ∀ q, q ∈ xs ∨ q ∈ ys → H.Node q := fun q hq => hs.node (by
    simp only [List.mem_append, List.mem_cons]; tauto)
  have hp : H.Node p := hs.node (by simp)
  obtain ⟨hpn, hnodup⟩ := List.nodup_cons.mp (List.nodup_middle.mp (nodup_flatten_around.mp hs.nodup).1)
  obtain ⟨-, -, hapart⟩ := List.nodup_append.mp hnodup
  have hseg := (Seg.append.mp hs.linked.seg).2
  have hprev : m.prev p = xs.getLastD NULL := hseg.1
  have hnext : m.next p = ys.headD NULL := hseg.2.1
  have hlast : ∀ q ∈ xs.getLast?, q ∈ xs := fun q hq => List.mem_of_getLast? hq
  have hhead : ∀ q ∈ ys.head?, q ∈ ys := fun q hq => List.mem_of_head? hq
  have hends : ys.headD NULL < 2 ^ 32 ∧ xs.getLastD NULL < 2 ^ 32 :=
    ⟨headD_lt fun q hq => hnode q (.inr hq), getLastD_lt fun q hq => hnode q (.inl hq)⟩
  simp only [listRemove, if_neg hp.ne_null, hprev, hnext, free]
  obtain ⟨hr₁, hk₁, hn₁⟩ := hs.rep.relinkNext xs (ys.headD NULL)
    (fun q hq => hnode q (.inl (hlast q hq))) hends.1
  obtain ⟨hr₂, hk₂, hn₂⟩ := hr₁.relinkPrev ys (xs.getLastD NULL)
    (fun q hq => hnode q (.inr (hhead q hq))) hends.2
  obtain ⟨n, -, hu⟩ := hp
  obtain ⟨hr₃, hk₃⟩ := kfree_keeps hr₂ hu
  have hk : Keeps H m (p :: around xs ys) _ _ := ((hk₁.mono fun q hq => by
    simp only [around, List.mem_cons, List.mem_append]; tauto).trans (hk₂.mono fun q hq => by
    simp only [around, List.mem_cons, List.mem_append]; tauto)).trans (hk₃.mono (by simp))
  have hremove := hs.remove hk ⟨hr₃, fun q hq => ?_, fun q hq => ?_⟩
  · exact ⟨hremove.1, hremove.2, hk⟩
  · have hqx := hlast q hq
    rw [hk₃.node (hnode q (.inl hqx)) (by simp only [List.mem_singleton]; rintro rfl; simp [hqx] at hpn),
      hk₂.node (hnode q (.inl hqx)) fun h => hapart q hqx q (hhead q (by simpa using h)) rfl, hn₁ q hq]
  · have hqy := hhead q hq
    rw [hk₃.node (hnode q (.inr hqy)) (by simp only [List.mem_singleton]; rintro rfl; simp [hqy] at hpn),
      hn₂ q hq, hk₁.node (hnode q (.inr hqy)) fun h => hapart q (hlast q (by simpa using h)) q hqy rfl]

theorem listRemove_becomes (hs : Store m H (before ++ (xs ++ p :: ys) :: after)) :
    Becomes m H before (xs ++ p :: ys) after (xs ++ ys) (xs.map m.value ++ ys.map m.value) (listRemove m p) := by
  obtain ⟨hs', hvalue, hk⟩ := listRemove_store hs
  refine ⟨H.release p, hs', ?_, hk.mono cons_around_subset⟩
  rw [← List.map_append]
  exact List.map_congr_left hvalue

theorem eraseIdx_length (xs ys : List Nat) (a : Nat) : (xs ++ a :: ys).eraseIdx xs.length = xs ++ ys := by
  induction xs with
  | nil => rfl
  | cons x xs ih => simp [ih]

/-- A node removed by its index. -/
theorem listRemove_nth {i : Nat} (hs : Store m H (before ++ l :: after)) (hi : l[i]? = some p) :
    Becomes m H before l after (l.eraseIdx i) ((l.map m.value).eraseIdx i) (listRemove m p) := by
  obtain ⟨hlt, hi⟩ := List.getElem?_eq_some_iff.mp hi
  obtain ⟨xs, q, ys, rfl, rfl⟩ := exists_split hlt
  obtain rfl : q = p := by simpa using hi
  rw [eraseIdx_length, List.map_append, List.map_cons, ← List.length_map (f := m.value), eraseIdx_length]
  exact listRemove_becomes hs

theorem listRemoveat_becomes (hs : Store m H (before ++ l :: after)) (hh : h ∈ l) {index : Int}
    (h₀ : 0 ≤ index) (h₁ : index < l.length) : ∃ m', listRemoveat m h index = .ok m' ∧
      Becomes m H before l after (l.eraseIdx index.toNat) ((l.map m.value).eraseIdx index.toNat) m' := by
  have hcount := hs.listCount_eq hh
  have hat := hs.getAt_eq hh index
  obtain ⟨xs, q, ys, rfl, hlen⟩ := exists_split (l := l) (i := index.toNat) (by omega)
  rw [if_pos h₀, ← hlen, getD_split] at hat
  have hq : H.Node q := hs.node (by simp)
  have hnull := (hs.node hh).ne_null
  refine ⟨listRemove m q, ?_, ?_⟩
  · unfold listRemoveat
    rw [if_neg (by rintro (he | he); exacts [hnull he, by omega]), hcount, Except.ok_bind,
      if_neg (by omega), hat]
    simp only [Except.ok_bind, if_neg hq.ne_null]
  · exact listRemove_nth hs (by simp [← hlen])

theorem listRemovelast_becomes (hs : Store m H (before ++ l :: after)) (hh : h ∈ l) :
    ∃ m', listRemovelast m h = .ok m' ∧
      Becomes m H before l after (l.eraseIdx (l.length - 1)) ((l.map m.value).eraseIdx (l.length - 1)) m' := by
  have hlast := hs.getLast_eq hh
  have hpos := List.length_pos_of_mem hh
  have hnull := (hs.node hh).ne_null
  obtain ⟨xs, q, ys, hlq, hlen⟩ := exists_split (l := l) (i := l.length - 1) (by omega)
  have hys : ys = [] := by
    have := congrArg List.length hlq
    simp only [List.length_append, List.length_cons] at this
    exact List.length_eq_zero_iff.mp (by omega)
  subst hlq hys
  refine ⟨listRemove m q, ?_, ?_⟩
  · rw [listRemovelast, if_neg hnull, hlast, getLastD_append]
    rfl
  · exact listRemove_nth hs (by simp)

/-! ## The library -/

/-- What the library's functions do with the list `l` of a store, from the
handle `h` in it. -/
structure ListSpec {heapsize : Nat} (m : Mem) (H : Heap heapsize) (before : List (List Nat)) (l : List Nat)
    (after : List (List Nat)) (h : Nat) : Prop where
  first : getFirst m h = .ok (l.headD NULL)
  last : getLast m h = .ok (l.getLastD NULL)
  count : listCount m h = .ok (l.length : Nat)
  get : ∀ index : Int, getAt m h index = .ok (if 0 ≤ index then l.getD index.toNat NULL else NULL)
  add : ∀ v, v < 2 ^ 32 → (H.malloc ELEMENT_SIZE = none ∧ listAdd m h v = .error outOfMemory) ∨
    ∃ p m', listAdd m h v = .ok m' ∧ Becomes m H before l after (l ++ [p]) (l.map m.value ++ [v]) m'
  addat : ∀ v (index : Int), v < 2 ^ 32 → 0 ≤ index → index < l.length →
    (H.malloc ELEMENT_SIZE = none ∧ listAddat m h v index = .error outOfMemory) ∨
      ∃ p m', listAddat m h v index = .ok m' ∧ Becomes m H before l after
        (l.insertIdx (index.toNat + 1) p) ((l.map m.value).insertIdx (index.toNat + 1) v) m'
  addat_out : ∀ v (index : Int), ¬ (0 ≤ index ∧ index < l.length) → listAddat m h v index = .ok m
  removeat : ∀ index : Int, 0 ≤ index → index < l.length → ∃ m', listRemoveat m h index = .ok m' ∧
    Becomes m H before l after (l.eraseIdx index.toNat) ((l.map m.value).eraseIdx index.toNat) m'
  removeat_out : ∀ index : Int, ¬ (0 ≤ index ∧ index < l.length) → listRemoveat m h index = .ok m
  removelast : ∃ m', listRemovelast m h = .ok m' ∧
    Becomes m H before l after (l.eraseIdx (l.length - 1)) ((l.map m.value).eraseIdx (l.length - 1)) m'
  remove : ∀ i, l[i]? = some h →
    Becomes m H before l after (l.eraseIdx i) ((l.map m.value).eraseIdx i) (listRemove m h)
  /-- Any other handle in the list gives the same. -/
  handle : ∀ h' ∈ l, (∀ v, listAdd m h' v = listAdd m h v) ∧
    (∀ v index, listAddat m h' v index = listAddat m h v index) ∧
    (∀ index, listRemoveat m h' index = listRemoveat m h index) ∧ listRemovelast m h' = listRemovelast m h

/-- **The list library refines sequences**: for every list of a store and every
handle in it, each function does what it should to that list, and leaves every
other list and every other block in use alone. -/
theorem list_refines (hs : Store m H (before ++ l :: after)) (hh : h ∈ l) : ListSpec m H before l after h where
  first := hs.getFirst_eq hh
  last := hs.getLast_eq hh
  count := hs.listCount_eq hh
  get := hs.getAt_eq hh
  add := fun _ hv => listAdd_becomes hs hh hv
  addat := fun _ _ hv h₀ h₁ => listAddat_becomes hs hh hv h₀ h₁
  addat_out := by
    intro v index hout
    unfold listAddat
    split
    · rfl
    · next hin =>
      rw [hs.listCount_eq hh, Except.ok_bind, if_pos (by omega)]
      rfl
  removeat := fun _ h₀ h₁ => listRemoveat_becomes hs hh h₀ h₁
  removeat_out := by
    intro index hout
    unfold listRemoveat
    split
    · rfl
    · next hin =>
      rw [hs.listCount_eq hh, Except.ok_bind, if_pos (by omega)]
      rfl
  removelast := listRemovelast_becomes hs hh
  remove := fun _ hi => listRemove_nth hs hi
  handle := by
    intro h' hh'
    have hn := (hs.node hh).ne_null
    have hn' := (hs.node hh').ne_null
    simp only [listAdd, listAddat, listRemoveat, listRemovelast, hn, hn', hs.getLast_eq hh, hs.getLast_eq hh',
      hs.listCount_eq hh, hs.listCount_eq hh', hs.getAt_eq hh, hs.getAt_eq hh', implies_true, and_self]

/-- The store boot leaves: the system log, of one node. `f` is any test of its
memory, for a run from there to be evaluated. -/
theorem bootState_store {α : Type} (f : Mem → α) {r : α} (hf : (bootState 1).map (fun s => f s.mem) = some r) :
    ∃ (m : Mem) (H : Heap 1), Store m H ([] ++ [0x100010] :: []) ∧ f m = r := by
  obtain ⟨s, hs, hr⟩ := Option.map_eq_some_iff.mp hf
  obtain ⟨s', hs', hlinks⟩ : ∃ s, bootState 1 = some s ∧ s.mem.node 0x100010 = ⟨0, NULL, NULL⟩ :=
    Option.map_eq_some_iff.mp (by decide +kernel)
  obtain rfl : s = s' := Option.some.inj (hs.symm.trans hs')
  obtain ⟨H, hi, hH⟩ := (bootState_booted (by decide) (by decide) hs).liveInv
  have hnode : H.Node 0x100010 :=
    ⟨12, by decide, ⟨HEAP_START, NULL, 12, false⟩, by rw [hH]; exact List.mem_cons_self, rfl, rfl, rfl⟩
  exact ⟨s.mem, H, ⟨hi.rep, by simpa using hnode, by simp, by simp [Seg, hlinks]⟩, hr⟩

/-- The system log after boot, with a second node added to it. -/
theorem list_refines_log : ∃ (m : Mem) (H : Heap 1) (p : Nat), Store m H [[0x100010, p]] ∧
    ListSpec m H [] [0x100010, p] [] p := by
  obtain ⟨m, H, hstore, hadd⟩ := bootState_store (fun m => (listAdd m 0x100010 7).toOption.isSome)
    (r := true) (by decide +kernel)
  rcases listAdd_becomes hstore (h := 0x100010) (v := 7) (by simp) (by decide) with
    ⟨-, hh⟩ | ⟨p, m', -, H', hs', -⟩
  · rw [hh] at hadd
    exact absurd hadd (by decide)
  · exact ⟨m', H', p, hs', list_refines hs' (by simp)⟩

end Stores

end Ssmos

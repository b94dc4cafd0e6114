/-
What `list_delete` does to each node: the functions it is made of, written
again over reads and writes of fields that leave a trace. Forgetting the trace
gives back the functions of `Ssmos.List`; the trace shows that each node is
freed once and left alone after that.
-/
import Ssmos.Base.Touch
import Ssmos.ListFacts

namespace Ssmos

/-- A memory, and what has been done to nodes so far, first event first. -/
structure Traced where
  mem : Mem
  trace : List (Touch Nat)

abbrev TraceM := StateT Traced (Except Stop)

namespace TraceM

/-! Every access to a node is one of these. -/

def next (p : Nat) : TraceM Nat := fun s => .ok (s.mem.next p, ⟨s.mem, s.trace ++ [.read p]⟩)
def prev (p : Nat) : TraceM Nat := fun s => .ok (s.mem.prev p, ⟨s.mem, s.trace ++ [.read p]⟩)
def setNext (p v : Nat) : TraceM Unit := fun s => .ok ((), ⟨s.mem.setNext p v, s.trace ++ [.write p]⟩)
def setPrev (p v : Nat) : TraceM Unit := fun s => .ok ((), ⟨s.mem.setPrev p v, s.trace ++ [.write p]⟩)
def free (p : Nat) : TraceM Unit := fun s => .ok ((), ⟨Ssmos.free s.mem p, s.trace ++ [.free p]⟩)

/-! The walk of `get_first`, `list_remove` and `list_delete` over them. -/

def toFirst : Nat → Nat → TraceM Nat
  | 0, _ => fun _ => .error .spin
  | n + 1, list => do
    if (← prev list) ≠ NULL then toFirst n (← prev list) else pure list

def getFirst (list : Nat) : TraceM Nat := if list = NULL then pure NULL else toFirst loopBound list

def listRemove (item : Nat) : TraceM Unit :=
  if item = NULL then pure ()
  else do
    let p ← prev item
    let n ← next item
    (if p ≠ NULL then setNext p n else pure ())
    (if n ≠ NULL then setPrev n p else pure ())
    free item

def listDeleteLoop : Nat → Nat → TraceM Unit
  | 0, _ => fun _ => .error .spin
  | n + 1, list => do
    if (← next list) ≠ NULL then
      let list ← next list
      listRemove (← prev list)
      listDeleteLoop n list
    else listRemove list

def listDelete (list : Nat) : TraceM Unit :=
  if list = NULL then pure ()
  else do
    listDeleteLoop loopBound (← getFirst list)

/-! ## The trace and the rest -/

variable {α β : Type}

theorem bind_of_ok {x : TraceM α} {f : α → TraceM β} {s s₁ : Traced} {a : α} (h : x s = .ok (a, s₁)) :
    (x >>= f) s = f a s₁ := by
  change Except.bind (x s) _ = _
  rw [h]
  rfl

/-- What `get_first` leaves in the trace. -/
def walked : Nat → Mem → Nat → List (Touch Nat)
  | 0, _, _ => []
  | n + 1, m, list =>
    if m.prev list ≠ NULL then .read list :: .read list :: walked n m (m.prev list) else [.read list]

/-- What `list_remove` leaves. -/
def removal (m : Mem) (item : Nat) : List (Touch Nat) :=
  if item = NULL then []
  else
    [.read item, .read item] ++ (if m.prev item ≠ NULL then [.write (m.prev item)] else []) ++
      (if m.next item ≠ NULL then [.write (m.next item)] else []) ++ [.free item]

/-- What the loop of `list_delete` leaves. -/
def deletion : Nat → Mem → Nat → List (Touch Nat)
  | 0, _, _ => []
  | n + 1, m, list =>
    if m.next list ≠ NULL then
      let item := m.prev (m.next list)
      [.read list, .read list, .read (m.next list)] ++ removal m item ++
        deletion n (Ssmos.listRemove m item) (m.next list)
    else [.read list] ++ removal m list

theorem toFirst_run (m : Mem) (t : List (Touch Nat)) (n list : Nat) :
    toFirst n list ⟨m, t⟩ = (lastAlong Mem.prev n m list).map fun p => (p, ⟨m, t ++ walked n m list⟩) := by
  induction n generalizing list t with
  | zero => rfl
  | succ n ih =>
    unfold toFirst
    rw [bind_of_ok (rfl : prev list ⟨m, t⟩ = _)]
    by_cases hp : m.prev list ≠ NULL
    · simp only [lastAlong, walked, if_pos hp]
      rw [bind_of_ok (rfl : prev list _ = _), ih]
      simp
    · simp only [lastAlong, walked, if_neg hp]
      rfl

theorem listRemove_run (m : Mem) (t : List (Touch Nat)) (item : Nat) :
    listRemove item ⟨m, t⟩ = .ok ((), ⟨Ssmos.listRemove m item, t ++ removal m item⟩) := by
  unfold listRemove Ssmos.listRemove removal
  by_cases hi : item = NULL
  · simp only [if_pos hi, List.append_nil]
    rfl
  · simp only [if_neg hi]
    rw [bind_of_ok (rfl : prev item _ = _), bind_of_ok (rfl : next item _ = _)]
    by_cases hp : m.prev item ≠ NULL
    · by_cases hn : m.next item ≠ NULL
      · simp only [if_pos hp, if_pos hn]
        rw [bind_of_ok (rfl : setNext _ _ _ = _), bind_of_ok (rfl : setPrev _ _ _ = _)]
        simp [free]
      · simp only [if_pos hp, if_neg hn]
        rw [bind_of_ok (rfl : setNext _ _ _ = _), bind_of_ok (rfl : (pure () : TraceM Unit) _ = _)]
        simp [free]
    · by_cases hn : m.next item ≠ NULL
      · simp only [if_neg hp, if_pos hn]
        rw [bind_of_ok (rfl : (pure () : TraceM Unit) _ = _), bind_of_ok (rfl : setPrev _ _ _ = _)]
        simp [free]
      · simp only [if_neg hp, if_neg hn]
        rw [bind_of_ok (rfl : (pure () : TraceM Unit) _ = _), bind_of_ok (rfl : (pure () : TraceM Unit) _ = _)]
        simp [free]

theorem listDeleteLoop_run (n : Nat) (m : Mem) (t : List (Touch Nat)) (list : Nat) :
    listDeleteLoop n list ⟨m, t⟩ =
      (Ssmos.listDeleteLoop n m list).map fun m' => ((), ⟨m', t ++ deletion n m list⟩) := by
  induction n generalizing m list t with
  | zero => rfl
  | succ n ih =>
    unfold listDeleteLoop
    rw [bind_of_ok (rfl : next list _ = _)]
    by_cases hn : m.next list ≠ NULL
    · simp only [Ssmos.listDeleteLoop, deletion, if_pos hn]
      rw [bind_of_ok (rfl : next list _ = _), bind_of_ok (rfl : prev _ _ = _),
        bind_of_ok (listRemove_run _ _ _), ih]
      simp
    · simp only [Ssmos.listDeleteLoop, deletion, if_neg hn]
      rw [listRemove_run]
      simp [Except.map]

/-- What `list_delete` leaves. -/
def deleted (m : Mem) (list : Nat) : List (Touch Nat) :=
  if list = NULL then []
  else
    walked loopBound m list ++ ((Ssmos.getFirst m list).toOption.map (deletion loopBound m)).getD []

/-- `list_delete` with its trace is `list_delete`, and the trace of it. -/
theorem listDelete_run (m : Mem) (t : List (Touch Nat)) (list : Nat) :
    listDelete list ⟨m, t⟩ = (Ssmos.listDelete m list).map fun m' => ((), ⟨m', t ++ deleted m list⟩) := by
  unfold listDelete Ssmos.listDelete deleted
  by_cases hl : list = NULL
  · simp only [if_pos hl, List.append_nil]
    rfl
  · simp only [if_neg hl, getFirst, Ssmos.getFirst]
    have hrun := toFirst_run m t loopBound list
    cases hf : lastAlong Mem.prev loopBound m list with
    | error e =>
      rw [hf] at hrun
      change Except.bind (toFirst loopBound list ⟨m, t⟩) _ = _
      rw [hrun]
      rfl
    | ok p =>
      rw [hf] at hrun
      rw [bind_of_ok hrun, listDeleteLoop_run, Except.ok_bind, List.append_assoc]
      rfl

end TraceM

/-! ## The nodes of a list -/

section Delete

variable {heapsize : Nat} {m m' : Mem} {H H' : Heap heapsize} {before after : List (List Nat)}
  {l xs ys : List Nat} {p q h : Nat}

open Touch

theorem freed_walked (n : Nat) (m : Mem) (p : Nat) : freed (TraceM.walked n m p) = [] := by
  induction n generalizing p with
  | zero => rfl
  | succ n ih =>
    unfold TraceM.walked
    split
    · simp [ih]
    · rfl

/-- The walk back from a node reads it and the nodes before it. -/
theorem walked_object {ps : List Nat} : ∀ {p z n : Nat}, Seg (fun p => (m.node p).swap) z NULL (p :: ps) →
    ∀ a ∈ TraceM.walked n m p, a.object ∈ p :: ps := by
  induction ps with
  | nil =>
    intro p z n hs a ha
    have hprev : m.prev p = NULL := hs.2.1
    cases n with
    | zero => cases ha
    | succ n =>
      rw [TraceM.walked, if_neg (by simp [hprev]), List.mem_singleton] at ha
      simp [ha, object]
  | cons q ps ih =>
    intro p z n hs a ha
    have hprev : m.prev p = q := hs.2.1
    cases n with
    | zero => cases ha
    | succ n =>
      rw [TraceM.walked, hprev] at ha
      split at ha
      · simp only [List.mem_cons] at ha
        rcases ha with rfl | rfl | ha
        · simp [object]
        · simp [object]
        · exact List.mem_cons_of_mem _ (ih hs.2.2 a ha)
      · rw [List.mem_singleton] at ha
        simp [ha, object]

theorem freed_removal (hp : p ≠ NULL) : freed (TraceM.removal m p) = [p] := by
  unfold TraceM.removal
  rw [if_neg hp]
  split <;> split <;> rfl

theorem safe_removal (hp : p ≠ NULL) : Safe (TraceM.removal m p) := by
  unfold TraceM.removal
  rw [if_neg hp]
  refine Safe.concat_free ?_
  split <;> split <;> rfl

/-- `list_remove` touches the node and its neighbours. -/
theorem removal_object {a : Touch Nat} (ha : a ∈ TraceM.removal m p) :
    a.object = p ∨ (m.prev p ≠ NULL ∧ a.object = m.prev p) ∨ (m.next p ≠ NULL ∧ a.object = m.next p) := by
  unfold TraceM.removal at ha
  split at ha
  · cases ha
  · simp only [List.mem_append, List.mem_cons, List.not_mem_nil, or_false] at ha
    rcases ha with ((ha | ha) | ha) | rfl
    · rcases ha with rfl | rfl <;> exact .inl rfl
    · split at ha
      · next hprev => exact .inr (.inl ⟨hprev, by simp [List.mem_singleton.mp ha, object]⟩)
      · cases ha
    · split at ha
      · next hnext => exact .inr (.inr ⟨hnext, by simp [List.mem_singleton.mp ha, object]⟩)
      · cases ha
    · exact .inl rfl

/-- What deleting the list `l` of a store leaves, and what it does to nodes on
the way: each of `l` is freed once and left alone from then on, no other node
is touched, and the other lists stay. -/
structure Deleted {heapsize : Nat} (m : Mem) (H : Heap heapsize) (before : List (List Nat)) (l : List Nat)
    (after : List (List Nat)) (t : List (Touch Nat)) (H' : Heap heapsize) (m' : Mem) : Prop where
  store : Store m' H' (before ++ after)
  keeps : Keeps H m l H' m'
  released : ∀ q k, H'.Used q k ↔ H.Used q k ∧ q ∉ l
  freed : freed t = l
  safe : Safe t
  within : ∀ a ∈ t, a.object ∈ l

/-- A list without nodes is no list. -/
theorem Store.drop_nil (hs : Store m H (before ++ [] :: after)) : Store m H (before ++ after) where
  rep := hs.rep
  nodes := fun p hp => hs.nodes p (mem_flatten_around.mpr (.inr hp))
  nodup := (nodup_flatten_around.mp hs.nodup).2.1
  seg := fun k hk => hs.seg k (by
    simp only [List.mem_append, List.mem_cons] at hk ⊢
    tauto)

/-- The first node of a list removed. -/
theorem Store.first (hs : Store m H (before ++ (p :: ys) :: after)) :
    m.prev p = NULL ∧ m.next p = ys.headD NULL ∧
      Store (listRemove m p) (H.release p) (before ++ ys :: after) ∧
      Keeps H m (p :: ys) (H.release p) (listRemove m p) := by
  have hseg := hs.linked.seg
  have hfirst : Store m H (before ++ ([] ++ p :: ys) :: after) := hs
  obtain ⟨hs', -, hk⟩ := listRemove_store hfirst
  exact ⟨hseg.1, hseg.2.1, hs', hk.mono cons_around_subset⟩

theorem deletion_store {ps : List Nat} : ∀ {p n : Nat} {m : Mem} {H : Heap heapsize},
    Store m H (before ++ (p :: ps) :: after) → ps.length < n →
    ∃ m', listDeleteLoop n m p = .ok m' ∧
      ∃ H', Deleted m H before (p :: ps) after (TraceM.deletion n m p) H' m' := by
  induction ps with
  | nil =>
    intro p n m H hs hn
    obtain ⟨n, rfl⟩ : ∃ k, n = k + 1 := ⟨n - 1, by omega⟩
    obtain ⟨hprev, hnext, hs', hk⟩ := hs.first
    have hp := (hs.node (p := p) (by simp)).ne_null
    simp only [List.headD_nil] at hnext
    simp only [listDeleteLoop, TraceM.deletion, hnext, ne_eq, not_true_eq_false, if_false]
    refine ⟨_, rfl, H.release p, hs'.drop_nil, hk, fun q k => by simp [Heap.release_used], ?_, ?_, fun a ha => ?_⟩
    · simp [freed_removal hp]
    · exact (Safe.of_freed_nil rfl).append (safe_removal hp) (by simp)
    · rcases List.mem_append.mp ha with ha | ha
      · simp [List.mem_singleton.mp ha, object]
      · have := removal_object ha
        simp only [hprev, hnext, ne_eq, not_true_eq_false, false_and, or_false] at this
        simp [this]
  | cons q ps ih =>
    intro p n m H hs hn
    obtain ⟨n, rfl⟩ : ∃ k, n = k + 1 := ⟨n - 1, by omega⟩
    obtain ⟨hprev, hnext, hs', hk⟩ := hs.first
    have hp := (hs.node (p := p) (by simp)).ne_null
    have hq := (hs.node (p := q) (by simp)).ne_null
    have hback : m.prev q = p := hs.linked.seg.2.2.1
    have hpq := (List.nodup_cons.mp (nodup_flatten_around.mp hs.nodup).1).1
    simp only [List.headD_cons] at hnext
    obtain ⟨m', hok, H', hd⟩ := ih (n := n) hs' (by simpa using hn)
    simp only [listDeleteLoop, TraceM.deletion, hnext, hback, ne_eq, hq, not_false_eq_true, if_true]
    refine ⟨m', hok, H', hd.store, hk.trans (hd.keeps.mono (by simp)), fun r k => ?_, ?_, ?_, fun a ha => ?_⟩
    · rw [hd.released, Heap.release_used, List.mem_cons (a := r) (b := p)]
      tauto
    · simp [freed_removal hp, hd.freed]
    · refine ((Safe.of_freed_nil rfl).append (safe_removal hp) (by simp)).append hd.safe ?_
      -- Only `p` has been freed, and what is left to do is about the nodes after it.
      intro r hr b hb he
      simp only [freed_append, freed_read, freed_nil, freed_removal hp, List.nil_append, List.mem_singleton] at hr
      exact hpq (hr ▸ he ▸ hd.within b hb)
    · simp only [List.mem_append, List.mem_cons, List.not_mem_nil, or_false] at ha
      rcases ha with (ha | ha) | ha
      · rcases ha with rfl | rfl | rfl <;> simp [object]
      · have := removal_object ha
        simp only [hprev, hnext, ne_eq, not_true_eq_false, false_and, false_or] at this
        rcases this with h | h
        · simp [h]
        · simp [h.2]
      · exact List.mem_cons_of_mem _ (hd.within a ha)

/-- **`list_delete` frees exactly the list**: from any node of a list of a
store it returns, having freed each node of that list once, in order, and no
other, and having touched no node after freeing it; the other lists are as
they were. -/
theorem listDelete_frees (hs : Store m H (before ++ l :: after)) (hh : h ∈ l) :
    ∃ m' t, listDelete m h = .ok m' ∧ TraceM.listDelete h ⟨m, []⟩ = .ok ((), ⟨m', t⟩) ∧ l.Nodup ∧
      (∃ H', Deleted m H before l after t H' m') ∧ ∀ q ∈ (before ++ after).flatten, m'.node q = m.node q := by
  have hlinked := hs.linked
  obtain ⟨hnodup, -, hapart⟩ := nodup_flatten_around.mp hs.nodup
  have hnull := (hs.node hh).ne_null
  have hfirst := hs.getFirst_eq hh
  obtain ⟨p, ps, rfl⟩ : ∃ p ps, l = p :: ps := List.exists_cons_of_ne_nil (List.ne_nil_of_mem hh)
  have hlen := hlinked.length
  simp only [List.length_cons] at hlen
  obtain ⟨m', hok, H', hd⟩ := deletion_store (n := loopBound) hs (by simp only [loopBound]; omega)
  have hdelete : listDelete m h = .ok m' := by
    rw [listDelete, if_neg hnull, hfirst, Except.ok_bind]
    exact hok
  have hdeleted : TraceM.deleted m h = TraceM.walked loopBound m h ++ TraceM.deletion loopBound m p := by
    rw [TraceM.deleted, if_neg hnull, hfirst]
    rfl
  -- Before the loop, the walk to the first node only reads.
  have hwalk : ∀ a ∈ TraceM.walked loopBound m h, a.object ∈ p :: ps := fun a ha => by
    obtain ⟨xs, ys, hl⟩ := List.append_of_mem hh
    have := walked_object (hl ▸ hlinked).before a ha
    rw [hl]
    simp only [List.mem_append, List.mem_cons, List.mem_reverse] at this ⊢
    tauto
  refine ⟨m', TraceM.deleted m h, hdelete, ?_, hnodup, ⟨H', hd.store, hd.keeps, hd.released, ?_, ?_, ?_⟩,
    fun q hq => hd.keeps.node (hs.nodes q (mem_flatten_around.mpr (.inr hq))) fun hl => hapart q hl hq⟩
  · rw [TraceM.listDelete_run, hdelete]
    simp [Except.map]
  · rw [hdeleted, freed_append, freed_walked, hd.freed, List.nil_append]
  · rw [hdeleted]
    exact (Safe.of_freed_nil (freed_walked _ _ _)).append hd.safe (by simp [freed_walked])
  · intro a ha
    rw [hdeleted, List.mem_append] at ha
    rcases ha with ha | ha
    · exact hwalk a ha
    · exact hd.within a ha

/-- The system log after boot, once two more nodes are added to it: a store
whose one list has three nodes. -/
theorem bootState_store_three : ∃ (m : Mem) (H : Heap 1),
    Store m H ([] ++ [0x100010, 0x10002c, 0x100048] :: []) := by
  obtain ⟨m, H, hs, hadds⟩ := bootState_store (r := some (0x10002c, 0x100048)) (fun m => (do
    let m ← listAdd m 0x100010 7
    let m ← listAdd m 0x100010 8
    .ok (m.next 0x100010, m.next (m.next 0x100010))).toOption) (by decide +kernel)
  obtain ⟨m₁, hadd₁, h⟩ := Except.bind_ok_iff.mp (Except.toOption_eq_some.mp hadds)
  obtain ⟨m₂, hadd₂, h⟩ := Except.bind_ok_iff.mp h
  simp only [Except.ok.injEq, Prod.mk.injEq] at h
  rcases listAdd_becomes hs (h := 0x100010) (v := 7) (by simp) (by decide) with ⟨-, hh⟩ | ⟨p, m', hok, H₁, hs₁, -⟩
  · rw [hh] at hadd₁
    cases hadd₁
  obtain rfl : m' = m₁ := Except.ok.inj (hok.symm.trans hadd₁)
  rcases listAdd_becomes hs₁ (h := 0x100010) (v := 8) (by simp) (by decide) with ⟨-, hh⟩ | ⟨q, m', hok, H₂, hs₂, -⟩
  · rw [hh] at hadd₂
    cases hadd₂
  obtain rfl : m' = m₂ := Except.ok.inj (hok.symm.trans hadd₂)
  have hseg := hs₂.linked.seg
  simp only [List.cons_append, List.nil_append, Seg, List.headD_cons] at hseg
  obtain ⟨-, hp, -, hq, -⟩ := hseg
  have hp' : m'.next 0x100010 = p := hp
  have hq' : m'.next p = q := hq
  rw [hp', hq'] at h
  obtain ⟨rfl, rfl⟩ := h
  exact ⟨m', H₂, hs₂⟩

/-- That list, deleted from its middle node. -/
theorem listDelete_frees_log : ∃ (m m' : Mem) (t : List (Touch Nat)), listDelete m 0x10002c = .ok m' ∧
    TraceM.listDelete 0x10002c ⟨m, []⟩ = .ok ((), ⟨m', t⟩) ∧ freed t = [0x100010, 0x10002c, 0x100048] := by
  obtain ⟨m, H, hs⟩ := bootState_store_three
  obtain ⟨m', t, hok, ht, -, ⟨H', hd⟩, -⟩ := listDelete_frees hs (h := 0x10002c) (by simp)
  exact ⟨m, m', t, hok, ht, hd.freed⟩

end Delete

end Ssmos

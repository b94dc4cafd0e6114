/-
The system log over whole runs (`kernel/debug.c`). `klog` builds its list on
the heap every other caller of the allocator uses, so that the log is complete
only if neither they nor the allocator ever touch its nodes.
-/
import Ssmos.ListFacts

namespace Ssmos

/-! ## Logging among other code -/

/-- The memory, the log's handle, and the blocks other code holds. -/
structure LogState where
  mem : Mem
  systemlog : Nat
  held : List Nat

/-- A `klog`, or other code's call of the allocator or write in its block. -/
inductive LogEvent
  | klog (msg : Nat)
  | call (c : Call)
  deriving DecidableEq

/-- The message an event logs. -/
def LogEvent.msg? : LogEvent → Option Nat
  | .klog msg => some msg
  | .call _ => none

/-- The step of an event that returns. Other code passes what it holds. -/
def LogEvent.step? (s : LogState) : LogEvent → Option LogState
  | .klog msg =>
    if msg < 2 ^ 32 then
      (Ssmos.klog s.mem s.systemlog msg).toOption.map fun (systemlog, m) => ⟨m, systemlog, s.held⟩
    else none
  | .call c => (c.step? HeapState.live ⟨s.mem, s.held, []⟩).map fun t => ⟨t.mem, s.systemlog, t.live⟩

/-- `getlog`. -/
def getlog (s : LogState) : Nat := s.systemlog

/-- The list of handle `log` holds `msgs`, in this order. -/
structure Logged (m : Mem) (log : Nat) (msgs : List Nat) : Prop where
  count : listCount m log = .ok msgs.length
  entry : ∀ i (h : i < msgs.length), ∃ p, getAt m log i = .ok p ∧ m.value p = msgs[i]

/-! ## What other code leaves -/

section Others

variable {heapsize : Nat} {H H' : Heap heapsize} {s s' : HeapState} {c : Call}

/-- A call keeps every block in use other than the one it is made on. -/
theorem Effect.keeps (h : Effect H s c H' s') : Keeps H s.mem c.on.toList H' s'.mem := by
  intro q n hu hne
  have hbytes : ∀ i, i < n → s'.mem.load8 (q + i) = s.mem.load8 (q + i) := by
    obtain ⟨b, hb, hf, rfl, rfl⟩ := hu
    exact fun i hi => h.frame hb hf (fun hon => hne (by simp [hon])) hi
  refine ⟨?_, hbytes⟩
  have hne' : ∀ p, c.on = some p → q ≠ p := fun p hon he => hne (by simp [hon, he])
  cases h with
  | kmalloc hm =>
    obtain ⟨k, -, -, -, hiff⟩ := Heap.malloc_used hm
    exact (hiff q n).mpr (.inr hu)
  | stays => exact hu
  | moves _ _ hm =>
    obtain ⟨k, -, -, -, hiff⟩ := Heap.malloc_used hm
    exact Heap.release_used.mpr ⟨(hiff q n).mpr (.inr hu), hne' _ rfl⟩
  | kfree => exact Heap.release_used.mpr ⟨hu, hne' _ rfl⟩
  | write => exact hu

/-- What a call leaves in the hands of its caller: blocks in use, each once,
that it held before or that nobody did. -/
theorem Effect.held (h : Effect H s c H' s') (hnodup : s.live.Nodup)
    (hused : ∀ p ∈ s.live, ∃ n, H.Used p n) (hon : ∀ p, c.on = some p → p ∈ s.live) :
    s'.live.Nodup ∧ ∀ p ∈ s'.live, (∃ n, H'.Used p n) ∧ (p ∈ s.live ∨ ∀ n, ¬ H.Used p n) := by
  have hkeeps := h.keeps
  have hkept : ∀ p ∈ s.live, c.on ≠ some p → ∃ n, H'.Used p n := fun p hp hne => by
    obtain ⟨n, hu⟩ := hused p hp
    exact ⟨n, (hkeeps p n hu (by simpa using fun hx => hne hx)).1⟩
  have herase : ∀ {p q}, q ∈ s.live.erase p → q ∈ s.live ∧ q ≠ p := fun hq =>
    ⟨List.mem_of_mem_erase hq, (hnodup.mem_erase_iff.mp hq).1⟩
  cases h with
  | kmalloc hm =>
    obtain ⟨k, -, hu, hfresh, -⟩ := Heap.malloc_used hm
    refine ⟨List.nodup_cons.mpr ⟨fun hp => ?_, hnodup⟩, fun q hq => ?_⟩
    · obtain ⟨n, hn⟩ := hused _ hp
      exact hfresh n hn
    · rcases List.mem_cons.mp hq with rfl | hq
      · exact ⟨⟨k, hu⟩, .inr hfresh⟩
      · exact ⟨hkept q hq (by simp [Call.on]), .inl hq⟩
  | stays hb =>
    have hp := hon _ rfl
    refine ⟨List.nodup_cons.mpr ⟨hnodup.not_mem_erase, hnodup.erase _⟩, fun q hq => ?_⟩
    rcases List.mem_cons.mp hq with rfl | hq
    · exact ⟨hused _ hp, .inl hp⟩
    · exact ⟨hused q (herase hq).1, .inl (herase hq).1⟩
  | moves hb hlt hm =>
    obtain ⟨k, -, hu, hfresh, -⟩ := Heap.malloc_used hm
    have hne := Heap.malloc_ne_of_size_lt hm hb hlt
    refine ⟨List.nodup_cons.mpr ⟨fun hp => ?_, hnodup.erase _⟩, fun q hq => ?_⟩
    · obtain ⟨n, hn⟩ := hused _ (herase hp).1
      exact hfresh n hn
    · rcases List.mem_cons.mp hq with rfl | hq
      · exact ⟨⟨k, Heap.release_used.mpr ⟨hu, hne.symm⟩⟩, .inr hfresh⟩
      · obtain ⟨hq, hqp⟩ := herase hq
        exact ⟨hkept q hq (by simpa [Call.on] using hqp.symm), .inl hq⟩
  | kfree =>
    refine ⟨hnodup.erase _, fun q hq => ?_⟩
    obtain ⟨hq, hqp⟩ := herase hq
    exact ⟨hkept q hq (by simpa [Call.on] using hqp.symm), .inl hq⟩
  | write hb _ hr =>
    exact ⟨hnodup, fun q hq => ⟨hused q hq, .inl hq⟩⟩

end Others

/-! ## The invariant -/

/-- The log's nodes are one list of the heap, and no other code holds one. -/
structure LogState.Inv {heapsize : Nat} (s : LogState) (H : Heap heapsize) (nodes msgs : List Nat) : Prop where
  store : Store s.mem H [nodes]
  head : nodes.head? = some s.systemlog
  values : nodes.map s.mem.value = msgs
  split : 2 ≤ H.blocks.length
  held : ∀ p ∈ s.held, (∃ n, H.Used p n) ∧ p ∉ nodes
  nodup : s.held.Nodup

section Invariant

variable {heapsize : Nat} {H H' : Heap heapsize} {s s' : LogState} {nodes msgs : List Nat} {e : LogEvent}

theorem LogState.Inv.mem_nodes (hi : s.Inv H nodes msgs) : s.systemlog ∈ nodes :=
  List.mem_of_head? hi.head

theorem LogState.Inv.node (hi : s.Inv H nodes msgs) {p : Nat} (hp : p ∈ nodes) : H.Node p :=
  hi.store.nodes p (by simpa using hp)

/-- A `klog` appends its message, or there is no block for it. -/
theorem LogState.Inv.klog (hi : s.Inv H nodes msgs) {msg : Nat} (hmsg : msg < 2 ^ 32) :
    (H.malloc ELEMENT_SIZE = none ∧ Ssmos.klog s.mem s.systemlog msg = .error outOfMemory) ∨
      ∃ (p : Nat) (m' : Mem) (H' : Heap heapsize), Ssmos.klog s.mem s.systemlog msg = .ok (s.systemlog, m') ∧
        LogState.Inv ⟨m', s.systemlog, s.held⟩ H' (nodes ++ [p]) (msgs ++ [msg]) := by
  have hlog := hi.mem_nodes
  have hnull : s.systemlog ≠ NULL := (hi.node hlog).ne_null
  have hstore : Store s.mem H ([] ++ nodes :: []) := hi.store
  rcases listAdd_appends hstore hlog hmsg with ⟨hfull, hadd⟩ | ⟨p, m', hadd, hfresh, H', hs', hvalues, hkeeps⟩
  · exact .inl ⟨hfull, by rw [Ssmos.klog, if_neg hnull, hadd]; rfl⟩
  · refine .inr ⟨p, m', H', by rw [Ssmos.klog, if_neg hnull, hadd]; rfl, hs', ?_, ?_, ?_, fun q hq => ?_, hi.nodup⟩
    · rw [List.head?_append, hi.head]
      rfl
    · rw [hvalues, hi.values]
    · have hle := hs'.length_le
      have hpos := List.length_pos_of_mem hlog
      rw [List.length_append, List.length_singleton] at hle
      omega
    · obtain ⟨⟨n, hu⟩, hne⟩ := hi.held q hq
      refine ⟨⟨n, (hkeeps q n hu hne).1⟩, fun hmem => ?_⟩
      rcases List.mem_append.mp hmem with h | h
      · exact hne h
      · obtain rfl := List.mem_singleton.mp h
        exact hfresh n hu

/-- Other code's calls leave the log as it is. -/
theorem LogState.Inv.call (hi : s.Inv H nodes msgs) {c : Call} {t : HeapState}
    (h : LiveStep ⟨s.mem, s.held, []⟩ c t) :
    ∃ H' : Heap heapsize, LogState.Inv ⟨t.mem, s.systemlog, t.live⟩ H' nodes msgs := by
  obtain ⟨hon, hsized, hrun⟩ := h
  have hinv : HeapState.Inv ⟨s.mem, s.held, []⟩ H := ⟨hi.store.rep, hi.split, by simp⟩
  obtain ⟨H', he⟩ := Call.run_effect hinv (fun p hp => by
    obtain ⟨⟨n, hu⟩, -⟩ := hi.held p (hon p hp)
    exact hu.ptr) hsized hrun
  have hinv' := he.inv hinv
  have hkeeps := he.keeps
  obtain ⟨hnodup, hheld⟩ := he.held hi.nodup (fun p hp => (hi.held p hp).1) hon
  -- No call is made on a node of the log.
  have hout : ∀ p ∈ nodes, p ∉ c.on.toList := fun p hp hmem =>
    (hi.held p (hon p (by simpa using hmem))).2 hp
  have hnode : ∀ p ∈ nodes, t.mem.node p = s.mem.node p := fun p hp => hkeeps.node (hi.node hp) (hout p hp)
  refine ⟨H', ⟨hinv'.rep, fun p hp => ?_, hi.store.nodup, fun l hl => ?_⟩, hi.head, ?_, hinv'.split,
    fun p hp => ⟨(hheld p hp).1, fun hmem => ?_⟩, hnodup⟩
  · have hp : p ∈ nodes := by simpa using hp
    exact hkeeps.isNode (hi.node hp) (hout p hp)
  · obtain rfl := List.mem_singleton.mp hl
    exact (hi.store.seg l hl).congr fun p hp => hnode p hp
  · rw [← hi.values]
    exact List.map_congr_left fun p hp => congrArg Node.value (hnode p hp)
  · rcases (hheld p hp).2 with hold | hfresh
    · exact (hi.held p hold).2 hmem
    · obtain ⟨n, -, hu⟩ := hi.node hmem
      exact hfresh n hu

theorem LogEvent.step_inv (hi : s.Inv H nodes msgs) (h : e.step? s = some s') :
    ∃ (H' : Heap heapsize) (nodes' : List Nat), s'.systemlog = s.systemlog ∧
      s'.Inv H' nodes' (msgs ++ e.msg?.toList) := by
  cases e with
  | klog msg =>
    simp only [LogEvent.step?] at h
    split at h
    · next hmsg =>
      rcases hi.klog hmsg with ⟨-, herr⟩ | ⟨p, m', H', hrun, hi'⟩
      · rw [herr] at h
        cases h
      · rw [hrun] at h
        cases h
        exact ⟨H', _, rfl, hi'⟩
    · cases h
  | call c =>
    obtain ⟨t, hstep, rfl⟩ := Option.map_eq_some_iff.mp h
    obtain ⟨H', hi'⟩ := hi.call (Call.step?_eq_some.mp hstep)
    exact ⟨H', nodes, rfl, by simpa [LogEvent.msg?] using hi'⟩

theorem LogEvent.runs_inv {events : List LogEvent} (hrun : Runs (fun s e s' => e.step? s = some s') s events s')
    (hi : s.Inv H nodes msgs) : ∃ (H' : Heap heapsize) (nodes' : List Nat), s'.systemlog = s.systemlog ∧
      s'.Inv H' nodes' (msgs ++ events.filterMap LogEvent.msg?) := by
  induction hrun generalizing H nodes msgs with
  | nil => exact ⟨H, nodes, rfl, by simpa using hi⟩
  | @cons s e s₁ es s' hstep _ ih =>
    obtain ⟨H₁, nodes₁, hlog₁, hi₁⟩ := LogEvent.step_inv hi hstep
    obtain ⟨H', nodes', hlog', hi'⟩ := ih hi₁
    refine ⟨H', nodes', hlog'.trans hlog₁, ?_⟩
    have hmsgs : msgs ++ e.msg?.toList ++ es.filterMap LogEvent.msg? =
        msgs ++ (e :: es).filterMap LogEvent.msg? := by
      rw [List.append_assoc, List.filterMap_cons]
      cases e.msg? <;> rfl
    rwa [hmsgs] at hi'

theorem LogState.Inv.logged (hi : s.Inv H nodes msgs) : Logged s.mem s.systemlog msgs := by
  have hlog := hi.mem_nodes
  have hstore : Store s.mem H ([] ++ nodes :: []) := hi.store
  have hlen : msgs.length = nodes.length := by rw [← hi.values, List.length_map]
  refine ⟨by rw [hlen]; exact hstore.listCount_eq hlog, fun i hilt => ⟨nodes.getD i NULL, ?_, ?_⟩⟩
  · rw [hstore.getAt_eq hlog, if_pos (by omega)]
    rfl
  · have hget : i < nodes.length := by omega
    simp only [List.getD_eq_getElem?_getD, List.getElem?_eq_getElem hget, Option.getD_some, ← hi.values,
      List.getElem_map]

end Invariant

/-! ## What is written -/

section Written

variable {heapsize : Nat} {H H' : Heap heapsize} {s s' : LogState} {nodes msgs : List Nat} {m m' : Mem}

theorem headerBytes_heap (H : Heap heapsize) : headerBytes H.blocks ⊆ Set.Ici HEAP_START := fun _ hx =>
  (Heap.Spare.of_header hx).start_le

theorem Heap.Node.ge (h : H.Node p) : HEAP_START ≤ p := by
  obtain ⟨n, -, hu⟩ := h
  have := hu.bounds.1
  simp only [HEAP_START]
  omega

/-- A word of a node is in the heap. -/
theorem Heap.Node.wrote {p a v : Nat} (h : H.Node p) (h₁ : p ≤ a) (h₂ : a + 4 ≤ p + 12) :
    Wrote m (m.store32 a v) (Set.Ici HEAP_START) := by
  have hlt := h.lt
  have hge := h.ge
  exact .store32_Ico (by omega) fun x hx => by
    simp only [Set.mem_Ico, Set.mem_Ici] at hx ⊢
    omega

/-- The allocator and its callers write in the heap only. -/
theorem Effect.wrote {t t' : HeapState} {c : Call} (h : Effect H t c H' t') :
    Wrote t.mem t'.mem (Set.Ici HEAP_START) := by
  cases h with
  | kmalloc _ _ hw => exact hw.mono (headerBytes_heap _)
  | stays => exact .refl _ _
  | moves _ _ hm _ hw =>
    obtain ⟨n, -, hu, -⟩ := Heap.malloc_used hm
    refine hw.mono (Set.union_subset (headerBytes_heap _) fun x hx => ?_)
    have := hu.bounds.1
    simp only [Set.mem_Ico, Set.mem_Ici, HEAP_START] at hx ⊢
    omega
  | kfree _ _ hw => exact hw.mono (headerBytes_heap _)
  | write hb _ _ hw =>
    refine hw.mono fun x hx => ?_
    have := (H.bounds hb).1
    rw [Set.mem_singleton_iff] at hx
    simp only [Blk.data, Set.mem_Ici, HEAP_START] at hx ⊢
    omega

theorem LogState.Inv.klog_wrote (hi : s.Inv H nodes msgs) {msg log : Nat}
    (hrun : Ssmos.klog s.mem s.systemlog msg = .ok (log, m')) : Wrote s.mem m' (Set.Ici HEAP_START) := by
  have hlog := hi.mem_nodes
  have hnull : s.systemlog ≠ NULL := (hi.node hlog).ne_null
  have hstore : Store s.mem H ([] ++ nodes :: []) := hi.store
  have hlast : nodes.getLastD NULL ∈ nodes := by
    rw [List.getLastD_eq_getLast?, List.getLast?_eq_some_getLast (List.ne_nil_of_mem hlog)]
    exact List.getLast_mem _
  have hq := hi.node hlast
  obtain ⟨k, -, hu⟩ := hq
  simp only [Ssmos.klog, if_neg hnull, listAdd, hstore.getLast_eq hlog, Except.ok_bind] at hrun
  rcases malloc_outcome hi.store.rep (hi.store.rep.not_untouched hu) (by decide : ELEMENT_SIZE ≤ 2 ^ 32 - 4) with
    ⟨-, hm⟩ | ⟨p, H', m₁, hm, hrun₁, -, hw⟩
  · rw [hm] at hrun
    cases hrun
  · obtain ⟨n, hn, hp, -, hiff⟩ := Heap.malloc_used hm
    have hp : H'.Node p := ⟨n, hn, hp⟩
    have hq' : H'.Node (nodes.getLastD NULL) := by
      obtain ⟨k, hk, hu⟩ := hi.node hlast
      exact ⟨k, hk, (hiff _ _).mpr (.inr hu)⟩
    rw [hrun₁] at hrun
    cases hrun
    exact ((((hw.mono (headerBytes_heap _)).trans (hp.wrote (by omega) (by omega))).trans
      (hp.wrote (by omega) (by omega))).trans (hq'.wrote (by omega) (by omega))).trans
        (hp.wrote (by omega) (by omega))

/-- A step of the log's system writes in the heap only. -/
theorem LogEvent.step_wrote {e : LogEvent} (hi : s.Inv H nodes msgs) (h : e.step? s = some s') :
    Wrote s.mem s'.mem (Set.Ici HEAP_START) := by
  cases e with
  | klog msg =>
    simp only [LogEvent.step?] at h
    split at h
    · obtain ⟨⟨log, m'⟩, hrun, rfl⟩ := Option.map_eq_some_iff.mp h
      exact hi.klog_wrote (Except.toOption_eq_some.mp hrun)
    · cases h
  | call c =>
    obtain ⟨t, hstep, rfl⟩ := Option.map_eq_some_iff.mp h
    obtain ⟨hon, hsized, hrun⟩ := Call.step?_eq_some.mp hstep
    have hinv : HeapState.Inv ⟨s.mem, s.held, []⟩ H := ⟨hi.store.rep, hi.split, by simp⟩
    obtain ⟨H', he⟩ := Call.run_effect hinv (fun p hp => by
      obtain ⟨⟨n, hu⟩, -⟩ := hi.held p (hon p hp)
      exact hu.ptr) hsized hrun
    exact he.wrote

theorem LogEvent.runs_wrote {events : List LogEvent} (hrun : Runs (fun s e s' => e.step? s = some s') s events s')
    (hi : s.Inv H nodes msgs) : Wrote s.mem s'.mem (Set.Ici HEAP_START) := by
  induction hrun generalizing H nodes msgs with
  | nil => exact .refl _ _
  | cons hstep _ ih =>
    obtain ⟨H₁, nodes₁, -, hi₁⟩ := LogEvent.step_inv hi hstep
    exact (LogEvent.step_wrote hi hstep).trans (ih hi₁)

end Written

/-! ## Boot -/

section Boot

variable {heapsize : Nat} {m m₀ : Mem} {log msg : Nat}

theorem listNew_node {p : Nat} {m' : Mem} (hrun : listNew m msg = .ok (p, m')) (hp : p ≠ NULL)
    (hlt : p + 12 ≤ 2 ^ 32) : m'.node p = ⟨wrap msg, NULL, NULL⟩ := by
  simp only [listNew, Except.bind_ok_iff, Prod.exists] at hrun
  obtain ⟨q, m₁, -, hrun⟩ := hrun
  split at hrun
  · cases hrun
    contradiction
  · cases hrun
    rw [node_setPrev hlt, node_setNext hlt, node_setValue hlt]
    rfl

/-- `memory_init` leaves the log with its one message. -/
theorem memoryInit_inv (hpos : 1 ≤ heapsize) (hsmall : heapsize ≤ 65535) (hmsg : msg < 2 ^ 32)
    (hboot : memoryInit m heapsize msg = .ok (log, m₀)) :
    ∃ H : Heap heapsize, LogState.Inv ⟨m₀, log, []⟩ H [log] [msg] ∧
      H.blocks = cut 12 ⟨HEAP_START, NULL, heapsize * 1024 - 16, true⟩ := by
  obtain ⟨m', H, hrun, hH, hr⟩ := memoryInit_eq m msg hpos hsmall
  rw [hrun] at hboot
  cases hboot
  have hnode : m₀.node (HEAP_START + 16) = ⟨msg, NULL, NULL⟩ := by
    have hnew : listNew (initRoot m heapsize) msg = .ok (HEAP_START + 16, m₀) := hrun
    rw [listNew_node hnew (by decide) (by decide), wrap_of_lt hmsg]
  have hused : H.Node (HEAP_START + 16) :=
    ⟨12, by decide, ⟨HEAP_START, NULL, 12, false⟩, by rw [hH]; exact List.mem_cons_self, rfl, rfl, rfl⟩
  have hvalue : m₀.value (HEAP_START + 16) = msg := congrArg Node.value hnode
  exact ⟨H, ⟨⟨hr, by simpa using hused, by simp, by simp [Seg, hnode]⟩, rfl, by simp [hvalue],
    by simp [hH, cut], by simp, .nil⟩, hH⟩

theorem memoryInit_wrote (hpos : 1 ≤ heapsize) (hsmall : heapsize ≤ 65535)
    (hboot : memoryInit m heapsize msg = .ok (log, m₀)) : Wrote m m₀ (Set.Ici HEAP_START) := by
  obtain ⟨m₁, H, hmalloc, hH, -, hw⟩ := initRoot_malloc m hpos hsmall
  have hnode : H.Node (HEAP_START + 16) :=
    ⟨12, by decide, ⟨HEAP_START, NULL, 12, false⟩, by rw [hH]; exact List.mem_cons_self, rfl, rfl, rfl⟩
  have hroot : Wrote m (initRoot m heapsize) (Set.Ici HEAP_START) := by
    have hend : HEAP_START + 16 ≤ 2 ^ 32 := by decide
    have hstore : ∀ {m : Mem} {a v : Nat}, HEAP_START ≤ a → a + 4 ≤ HEAP_START + 16 →
        Wrote m (m.store32 a v) (Set.Ici HEAP_START) := fun h₁ h₂ =>
      .store32_Ico (by omega) fun x hx => h₁.trans hx.1
    unfold initRoot
    exact ((hstore (by decide) (by decide)).trans (hstore (by decide) (by decide))).trans
      ((hstore (by decide) (by decide)).trans (hstore (by decide) (by decide)))
  simp only [memoryInit, klog, listNew, hmalloc, Except.ok_bind] at hboot
  cases hboot
  exact (hroot.trans (hw.mono (headerBytes_heap _))).trans ((hnode.wrote (by decide) (by decide)).trans
    ((hnode.wrote (by decide) (by decide)).trans (hnode.wrote (by decide) (by decide))))

end Boot

/-- **The log is complete.** In every run of logging and of other code that
passes the allocator only what it was given, and writes only there, the handle
never moves, the list at it holds every message logged since boot, each once
and in order, and the next `klog` returns unless the heap is exhausted. -/
theorem systemlog_complete {heapsize msg log : Nat} {m m₀ : Mem} {events : List LogEvent} {s : LogState}
    (hpos : 1 ≤ heapsize) (hsmall : heapsize ≤ 65535) (hmsg : msg < 2 ^ 32)
    (hboot : memoryInit m heapsize msg = .ok (log, m₀))
    (hrun : Runs (fun s e s' => LogEvent.step? s e = some s') ⟨m₀, log, []⟩ events s) :
    getlog s = log ∧ Logged s.mem (getlog s) (msg :: events.filterMap LogEvent.msg?) ∧
      ∀ next, next < 2 ^ 32 → (∃ m', klog s.mem s.systemlog next = .ok (log, m')) ∨
        klog s.mem s.systemlog next = .error outOfMemory := by
  obtain ⟨H, hi, -⟩ := memoryInit_inv hpos hsmall hmsg hboot
  obtain ⟨H', nodes', hlog, hi'⟩ := LogEvent.runs_inv hrun hi
  refine ⟨hlog, hi'.logged, fun next hnext => ?_⟩
  rcases hi'.klog hnext with ⟨-, herr⟩ | ⟨p, m', H'', hk, -⟩
  · exact .inr herr
  · exact .inl ⟨m', by rw [hk, hlog]⟩

/-- Two messages logged around a block taken, written and freed. -/
def loggedAround : List LogEvent :=
  [.klog 0x3000, .call (.kmalloc 8), .call (.write 0x100048 7 9), .klog 0x4000, .call (.kfree 0x100048)]

theorem systemlog_complete_around : ∃ m₀ s, memoryInit ⟨fun _ => 0, []⟩ 1 0x2000 = .ok (0x100010, m₀) ∧
    Runs (fun s e s' => LogEvent.step? s e = some s') ⟨m₀, 0x100010, []⟩ loggedAround s ∧
    Logged s.mem 0x100010 [0x2000, 0x3000, 0x4000] := by
  obtain ⟨s, hs⟩ : ∃ s, ((memoryInit ⟨fun _ => 0, []⟩ 1 0x2000).toOption.bind fun (log, m) =>
      exec LogEvent.step? ⟨m, log, []⟩ loggedAround) = some s :=
    Option.isSome_iff_exists.mp (by decide +kernel)
  obtain ⟨m₀, H, hboot, -⟩ := memoryInit_eq ⟨fun _ => 0, []⟩ 0x2000 (show 1 ≤ 1 by decide) (by decide)
  rw [hboot] at hs
  have hrun : Runs (fun s e s' => LogEvent.step? s e = some s') ⟨m₀, 0x100010, []⟩ loggedAround s :=
    (exec_eq_some Iff.rfl).mp hs
  obtain ⟨hlog, hlogged, -⟩ := systemlog_complete (by decide) (by decide) (by decide) hboot hrun
  rw [hlog] at hlogged
  exact ⟨m₀, s, hboot, hrun, hlogged⟩

end Ssmos

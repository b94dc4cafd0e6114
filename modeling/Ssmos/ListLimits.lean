/-
`list_addfirst` never prepends: it links the new node on to the first one but
not the first one back to it, so every walk from a handle the caller has still
finds the list as it was, and the new node's block is lost to it.
-/
import Ssmos.ListFacts

namespace Ssmos

section Reached

variable {heapsize : Nat} {m m' : Mem} {H : Heap heapsize} {before after : List (List Nat)}
  {l ps qs us vs : List Nat} {h v : Nat}

/-- The list a caller reaches from `h`: well formed, with its nodes at `ps` and
`vs` in them, as `get_first`, `list_count` and `get_at` find them. -/
structure Reached (m : Mem) (h : Nat) (ps vs : List Nat) : Prop where
  linked : Linked2 m ps
  first : getFirst m h = .ok (ps.headD NULL)
  count : listCount m h = .ok (ps.length : Nat)
  get : ∀ index : Int, getAt m h index = .ok (if 0 ≤ index then ps.getD index.toNat NULL else NULL)
  values : ps.map m.value = vs

theorem Store.reached (hs : Store m H (before ++ l :: after)) (hh : h ∈ l) : Reached m h l (l.map m.value) :=
  ⟨hs.linked, hs.getFirst_eq hh, hs.listCount_eq hh, hs.getAt_eq hh, rfl⟩

/-- The count settles how many values there are. -/
theorem Reached.length_eq (hp : Reached m h ps us) (hq : Reached m h qs vs) : us.length = vs.length := by
  have hcount := hp.count.symm.trans hq.count
  rw [← hp.values, ← hq.values, List.length_map, List.length_map]
  injection hcount with hcount
  omega

/-- What `list_addfirst` does when there is room: a new node that leads into
the list, and the list as it was. -/
theorem listAddfirst_becomes (hs : Store m H (before ++ l :: after)) (hh : h ∈ l) (hv : v < 2 ^ 32) :
    (H.malloc ELEMENT_SIZE = none ∧ listAddfirst m h v = .error outOfMemory) ∨
      ∃ p m', listAddfirst m h v = .ok m' ∧ p ∉ (before ++ l :: after).flatten ∧ m'.node p = ⟨v, l.headD NULL, NULL⟩ ∧
        Becomes m H before l after l (l.map m.value) m' := by
  have hnull := (hs.node hh).ne_null
  unfold listAddfirst
  rw [if_neg hnull, hs.getFirst_eq hh, Except.ok_bind]
  rcases hs.malloc hh with ⟨hm, hk⟩ | ⟨p, H', m₁, -, hk, hr, hkeep, hp, hfresh⟩
  · exact .inl ⟨hm, by rw [hk]; rfl⟩
  · refine .inr ⟨p, _, by rw [hk]; rfl, ?_⟩
    have hpl : p ∉ (before ++ l :: after).flatten := fun hl => by
      obtain ⟨n, -, hu⟩ := hs.nodes p hl
      exact hfresh n hu
    obtain ⟨hr₂, hk₂, hn₂⟩ := hr.setValue hp hv
    obtain ⟨hr₃, hk₃, hn₃⟩ := hr₂.setPrev hp (v := NULL) (by decide)
    obtain ⟨hr₄, hk₄, hn₄⟩ := hr₃.setNext hp (v := l.headD NULL) (headD_lt fun q hq => hs.node hq)
    refine ⟨hpl, by rw [hn₄, hn₃, hn₂], ?_⟩
    -- Only the new node's block is written.
    have hkall : Keeps H m [] H' _ := (((hkeep.mono (by simp)).trans hk₂).trans hk₃).trans hk₄ |>.fresh hfresh
    have hnode : ∀ q ∈ l, (((m₁.setValue p v).setPrev p NULL).setNext p (l.headD NULL)).node q = m.node q :=
      fun q hq => hkall.node (hs.node hq) (by simp)
    exact hs.becomes hr₄ (hkall.mono (by simp)) (fun q hq => hkall.isNode (hs.node hq) (by simp))
      (nodup_flatten_around.mp hs.nodup).1 (fun q hq => .inl hq) (hs.linked.seg.congr hnode)
      (List.map_congr_left fun q hq => congrArg Node.value (hnode q hq))

/-- **`list_addfirst` prepends to no list**: the list a caller reaches from
any handle is never the value before the list's own. Without room for a node
the call does not return; with it, every list reads as it did before, and the
new node is in none of them. -/
theorem listAddfirst_never_prepends (hs : Store m H (before ++ l :: after)) (hh : h ∈ l) (hv : v < 2 ^ 32) :
    (¬ ∃ m' ps, listAddfirst m h v = .ok m' ∧ Reached m' h ps (v :: l.map m.value)) ∧
      (H.malloc ELEMENT_SIZE ≠ none → ∃ p m', listAddfirst m h v = .ok m' ∧
        p ∉ (before ++ l :: after).flatten ∧ m'.node p = ⟨v, l.headD NULL, NULL⟩ ∧
        Becomes m H before l after l (l.map m.value) m' ∧ ∀ h' ∈ l, Reached m' h' l (l.map m.value)) := by
  rcases listAddfirst_becomes hs hh hv with ⟨hm, he⟩ | ⟨p, m', hok, hp, hnode, hb⟩
  · refine ⟨fun hex => ?_, fun hroom => absurd hm hroom⟩
    obtain ⟨m', ps, hok, -⟩ := hex
    rw [he] at hok
    cases hok
  · have hreached : ∀ h' ∈ l, Reached m' h' l (l.map m.value) := fun h' hh' => by
      obtain ⟨H', hs', hvs, -⟩ := hb
      have := hs'.reached hh'
      rwa [hvs] at this
    refine ⟨fun hex => ?_, fun _ => ⟨p, m', hok, hp, hnode, hb, hreached⟩⟩
    obtain ⟨m₁, ps, hok₁, hr⟩ := hex
    rw [hok] at hok₁
    injection hok₁ with hm
    subst hm
    have := (hreached h hh).length_eq hr
    simp at this

/-- On the system log after boot. -/
theorem listAddfirst_never_prepends_log : ∃ (m m' : Mem) (p : Nat), listAddfirst m 0x100010 7 = .ok m' ∧
    p ≠ 0x100010 ∧ m'.node p = ⟨7, 0x100010, NULL⟩ ∧ Reached m' 0x100010 [0x100010] [m.value 0x100010] := by
  obtain ⟨m, H, hs, hmalloc⟩ := bootState_store (fun m => (malloc m ELEMENT_SIZE).toOption.isSome)
    (r := true) (by decide +kernel)
  have hroom : H.malloc ELEMENT_SIZE ≠ none := by
    rcases hs.malloc (q := 0x100010) (by simp) with ⟨-, he⟩ | ⟨p, H', m', hsome, -⟩
    · rw [he] at hmalloc
      exact absurd hmalloc (by decide)
    · simp [hsome]
  obtain ⟨p, m', hok, hp, hnode, -, hreached⟩ :=
    (listAddfirst_never_prepends hs (h := 0x100010) (v := 7) (by simp) (by decide)).2 hroom
  exact ⟨m, m', p, hok, by simpa using hp, hnode, hreached _ (by simp)⟩

/-- `list_addfirst(systemlog, 7)` leaves a list of one node. -/
theorem listAddfirst_not_prepend : ¬ ∀ (m : Mem) (H : Heap 1) (before after : List (List Nat)) (l : List Nat)
    (h v : Nat), Store m H (before ++ l :: after) → h ∈ l → v < 2 ^ 32 →
    ∃ m' ps, listAddfirst m h v = .ok m' ∧ Reached m' h ps (v :: l.map m.value) := by
  intro hall
  obtain ⟨m, H, hs, hcount⟩ := bootState_store
    (fun m => (listAddfirst m 0x100010 7 >>= fun m' => listCount m' 0x100010).toOption) (r := some 1)
    (by decide +kernel)
  obtain ⟨m', ps, hok, hr⟩ := hall m H [] [] [0x100010] 0x100010 7 hs (by simp) (by decide)
  rw [hok, Except.ok_bind, hr.count] at hcount
  have hlen := congrArg List.length hr.values
  simp only [Except.toOption, Option.some.injEq] at hcount
  simp only [List.length_map, List.length_cons, List.length_nil] at hlen
  omega

end Reached

end Ssmos

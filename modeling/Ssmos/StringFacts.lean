/-
Dynamic strings refine texts: while a `struct string` and its buffer are blocks
in use, each function of `Ssmos.String` makes the buffer hold what the
operation of `Ssmos.Text` gives, and writes in the buffer below its size only.
-/
import Ssmos.HeapFrames
import Ssmos.HeapRuns
import Ssmos.String
import Ssmos.Text

namespace Ssmos

/-! ## C strings -/

/-- The chars `cs` and a terminator at `d`. -/
def CStr (m : Mem) : Nat → List UInt8 → Prop
  | d, [] => m.load8 d = 0
  | d, c :: cs => m.load8 d = c ∧ c ≠ 0 ∧ CStr m (d + 1) cs

namespace CStr

variable {m m' : Mem} {d e n k : Nat} {cs ds : List UInt8}

/-- The same bytes elsewhere. -/
theorem copy (h : CStr m d cs) (hm : ∀ i, i ≤ cs.length → m'.load8 (e + i) = m.load8 (d + i)) :
    CStr m' e cs := by
  induction cs generalizing d e with
  | nil => exact (hm 0 (Nat.le_refl _)).trans h
  | cons c cs ih =>
    refine ⟨(hm 0 (Nat.zero_le _)).trans h.1, h.2.1, ih h.2.2 fun i hi => ?_⟩
    have := hm (i + 1) (by simpa using hi)
    rwa [show d + (i + 1) = d + 1 + i by omega, show e + (i + 1) = e + 1 + i by omega] at this

theorem congr (h : CStr m d cs) (hm : ∀ i, i ≤ cs.length → m'.load8 (d + i) = m.load8 (d + i)) :
    CStr m' d cs := h.copy hm

theorem frame (h : CStr m d cs) {S : Set Nat} (hw : Wrote m m' S) (hlt : d + cs.length < 2 ^ 32)
    (hs : ∀ x, d ≤ x → x ≤ d + cs.length → x ∉ S) : CStr m' d cs :=
  h.congr fun i hi => hw.load8_eq (by
    rw [wrap_of_lt (by omega)]
    exact hs _ (by omega) (by omega))

theorem zero (h : CStr m d cs) : m.load8 (d + cs.length) = 0 := by
  induction cs generalizing d with
  | nil => exact h
  | cons c cs ih =>
    rw [List.length_cons, show d + (cs.length + 1) = d + 1 + cs.length by omega]
    exact ih h.2.2

/-- A string whose end is written over goes on with what is there. -/
theorem append (h : CStr m d cs) (hlt : d + cs.length < 2 ^ 32)
    (hm : ∀ i, i < cs.length → m'.load8 (d + i) = m.load8 (d + i)) (he : CStr m' (d + cs.length) ds) :
    CStr m' d (cs ++ ds) := by
  induction cs generalizing d with
  | nil => exact he
  | cons c cs ih =>
    rw [List.length_cons] at hlt he
    refine ⟨(hm 0 (by simp)).trans h.1, h.2.1, ih h.2.2 (by omega) (fun i hi => ?_) ?_⟩
    · have := hm (i + 1) (by simpa using hi)
      rwa [show d + (i + 1) = d + 1 + i by omega] at this
    · rwa [show d + (cs.length + 1) = d + 1 + cs.length by omega] at he

/-- A terminator written at index `n` cuts a string off there. -/
theorem truncate (h : CStr m d cs) (hlt : d + cs.length < 2 ^ 32) (hn : d + n < 2 ^ 32) :
    CStr (m.store8 (d + n) 0) d (cs.take n) := by
  induction n generalizing d cs with
  | zero =>
    rw [List.take_zero]
    exact Mem.load8_store8_same _ _ _
  | succ n ih =>
    have hne : (m.store8 (d + (n + 1)) 0).load8 d = m.load8 d :=
      Mem.load8_store8_ne (by rw [wrap_of_lt (by omega), wrap_of_lt (by omega)]; omega)
    cases cs with
    | nil => exact hne.trans h
    | cons c cs =>
      rw [List.length_cons] at hlt
      refine ⟨hne.trans h.1, h.2.1, ?_⟩
      have := ih h.2.2 (by omega) (by omega)
      rwa [show d + 1 + n = d + (n + 1) by omega] at this

/-- A char and a terminator written at the end of a string; the char may be a
terminator itself. -/
theorem push {t : Text} (h : CStr m d t.chars) (hlt : d + t.chars.length + 1 < 2 ^ 32) (c : UInt8) :
    CStr ((m.store8 (d + t.chars.length) c).store8 (d + (t.chars.length + 1)) 0) d (t.push c).chars := by
  have hwrap : ∀ i, i ≤ t.chars.length + 1 → wrap (d + i) = d + i := fun i hi => wrap_of_lt (by omega)
  have hread : ∀ i, i ≤ t.chars.length →
      ((m.store8 (d + t.chars.length) c).store8 (d + (t.chars.length + 1)) 0).load8 (d + i) =
        if i = t.chars.length then c else m.load8 (d + i) := by
    intro i hi
    rw [Mem.load8_store8_ne (by rw [hwrap i (by omega), hwrap _ (Nat.le_refl _)]; omega), Mem.load8_store8,
      hwrap i (by omega), hwrap _ (Nat.le_succ _)]
    simp only [Nat.add_left_cancel_iff]
  by_cases hz : c = 0
  · subst hz
    rw [Text.push_zero]
    refine h.congr fun i hi => ?_
    rw [hread i hi]
    split
    · next he => rw [he, h.zero]
    · rfl
  · rw [Text.push_chars hz]
    refine h.append (by omega) (fun i hi => by rw [hread i (by omega), if_neg (by omega)]) ⟨?_, hz, ?_⟩
    · rw [hread _ (Nat.le_refl _), if_pos rfl]
    · exact Mem.load8_store8_same _ _ _

theorem strlenLoop_eq (h : CStr m d cs) (hn : cs.length < n) (hlt : d + cs.length < 2 ^ 32)
    (hk : k + cs.length < 2 ^ 32) : strlenLoop n m d k = .ok (k + cs.length) := by
  induction cs generalizing d n k with
  | nil =>
    obtain ⟨n, rfl⟩ : ∃ j, n = j + 1 := ⟨n - 1, by omega⟩
    have h : m.load8 d = 0 := h
    simp [strlenLoop, h]
  | cons c cs ih =>
    obtain ⟨n, rfl⟩ : ∃ j, n = j + 1 := ⟨n - 1, by omega⟩
    rw [List.length_cons] at hn hlt hk ⊢
    simp only [strlenLoop, h.1, ne_eq, h.2.1, not_false_eq_true, if_true]
    rw [wrap_of_lt (by omega), wrap_of_lt (by omega), ih h.2.2 (by omega) (by omega) (by omega)]
    congr 1
    omega

theorem strlen_eq (h : CStr m d cs) (hd : d ≠ NULL) (hlt : d + cs.length < 2 ^ 32) :
    strlen m d = .ok cs.length := by
  rw [strlen, if_neg hd, h.strlenLoop_eq (by simp only [loopBound]; omega) hlt (by omega), Nat.zero_add]

theorem endOf_eq (h : CStr m d cs) (hn : cs.length < n) (hlt : d + cs.length < 2 ^ 32) :
    endOf n m d = .ok (d + cs.length) := by
  induction cs generalizing d n with
  | nil =>
    obtain ⟨n, rfl⟩ : ∃ j, n = j + 1 := ⟨n - 1, by omega⟩
    have h : m.load8 d = 0 := h
    simp [endOf, h]
  | cons c cs ih =>
    obtain ⟨n, rfl⟩ : ∃ j, n = j + 1 := ⟨n - 1, by omega⟩
    rw [List.length_cons] at hn hlt ⊢
    simp only [endOf, h.1, ne_eq, h.2.1, not_false_eq_true, if_true]
    rw [wrap_of_lt (by omega), ih h.2.2 (by omega) (by omega)]
    congr 1
    omega

theorem zeroIndex_eq {str : Nat} (h : CStr m (m.data str + k) cs) (hn : cs.length < n)
    (hlt : k + cs.length < 2 ^ 32) : zeroIndex n m str k = .ok (k + cs.length) := by
  induction cs generalizing k n with
  | nil =>
    obtain ⟨n, rfl⟩ : ∃ j, n = j + 1 := ⟨n - 1, by omega⟩
    have h : m.load8 (m.data str + k) = 0 := h
    simp [zeroIndex, h]
  | cons c cs ih =>
    obtain ⟨n, rfl⟩ : ∃ j, n = j + 1 := ⟨n - 1, by omega⟩
    rw [List.length_cons] at hn hlt ⊢
    simp only [zeroIndex, h.1, ne_eq, h.2.1, not_false_eq_true, if_true]
    rw [wrap_of_lt (by omega), ih (k := k + 1) h.2.2 (by omega) (by omega)]
    congr 1
    omega

/-- A string copied to bytes it does not overlap. -/
theorem strcpyLoop_eq (h : CStr m e cs) (hn : cs.length < n) (hd : d + cs.length < 2 ^ 32)
    (he : e + cs.length < 2 ^ 32) (hapart : d + cs.length < e ∨ e + cs.length < d) :
    ∃ m', strcpyLoop n m d e = .ok m' ∧ CStr m' d cs ∧ Wrote m m' (Set.Ico d (d + cs.length + 1)) := by
  induction cs generalizing m d e n with
  | nil =>
    obtain ⟨n, rfl⟩ : ∃ j, n = j + 1 := ⟨n - 1, by omega⟩
    have h : m.load8 e = 0 := h
    rw [List.length_nil] at hd ⊢
    exact ⟨m.store8 d 0, by simp [strcpyLoop, h], Mem.load8_store8_same _ _ _,
      .store8_Ico (by omega) (by omega) (by omega)⟩
  | cons c cs ih =>
    obtain ⟨n, rfl⟩ : ∃ j, n = j + 1 := ⟨n - 1, by omega⟩
    rw [List.length_cons] at hn hd he hapart ⊢
    have hw : Wrote m (m.store8 d c) {d} := .store8_singleton (by omega)
    have hrest : CStr (m.store8 d c) (e + 1) cs :=
      h.2.2.frame hw (by omega) fun x h₁ h₂ hx => by rw [Set.mem_singleton_iff] at hx; omega
    obtain ⟨m', hcopy, hcs, hw'⟩ := ih (n := n) (d := d + 1) hrest (by omega) (by omega) (by omega) (by omega)
    refine ⟨m', ?_, ⟨?_, h.2.1, hcs⟩, (hw.mono ?_).trans (hw'.mono ?_)⟩
    · simp only [strcpyLoop, h.1, ne_eq, h.2.1, not_false_eq_true, if_true]
      rwa [wrap_of_lt (by omega), wrap_of_lt (by omega)]
    · rw [hw'.load8_eq_Ico (by omega) (by omega)]
      exact Mem.load8_store8_same _ _ _
    · rw [Set.singleton_subset_iff, Set.mem_Ico]
      omega
    · exact Set.Ico_subset_Ico (by omega) (by omega)

theorem unique (h : CStr m d cs) (h' : CStr m d ds) : cs = ds := by
  induction cs generalizing d ds with
  | nil =>
    cases ds with
    | nil => rfl
    | cons e ds => exact absurd (h'.1.symm.trans h) h'.2.1
  | cons c cs ih =>
    cases ds with
    | nil => exact absurd (h.1.symm.trans h') h.2.1
    | cons e ds => rw [← h.1, ← h'.1, ih h.2.2 h'.2.2]

/-- There is a string wherever a zero follows. -/
theorem exists_text (h : m.load8 (d + n) = 0) : ∃ u : Text, CStr m d u.chars ∧ u.length ≤ n := by
  induction n generalizing d with
  | zero => exact ⟨.empty, h, Nat.le_refl _⟩
  | succ n ih =>
    by_cases hz : m.load8 d = 0
    · exact ⟨.empty, hz, Nat.zero_le _⟩
    · obtain ⟨u, hu, hle⟩ := ih (d := d + 1) (by rwa [show d + 1 + n = d + (n + 1) by omega])
      refine ⟨⟨m.load8 d :: u.chars, fun c hc => ?_⟩, ⟨rfl, hz, hu⟩, Nat.succ_le_succ hle⟩
      rcases List.mem_cons.mp hc with rfl | hc
      · exact hz
      · exact u.nonzero c hc

end CStr

/-! ## Dynamic strings in memory -/

/-- The `struct string` at `str` and its buffer are blocks in use, and the
buffer holds `t`. -/
structure StrRep {heapsize : Nat} (m : Mem) (H : Heap heapsize) (str : Nat) (t : Text) : Prop where
  rep : Rep m H
  struct : ∃ k, STRING_SIZE ≤ k ∧ H.Used str k
  buffer : ∃ n, m.size str ≤ n ∧ H.Used (m.data str) n
  apart : m.data str ≠ str
  content : CStr m (m.data str) t.chars
  fits : t.length + 1 ≤ m.size str

/-- `a` is neither the allocator's nor in one of the string's two blocks. -/
def Foreign {heapsize : Nat} (H : Heap heapsize) (str data a : Nat) : Prop :=
  ¬ H.Spare a ∧ ∀ q n, q = str ∨ q = data → H.Used q n → ¬ (q ≤ a ∧ a < q + n)

/-- The bytes a call on the string may have written. -/
def reach {heapsize : Nat} (H : Heap heapsize) (m : Mem) (str : Nat) : Set Nat :=
  headerBytes H.blocks ∪ Set.Ico str (str + STRING_SIZE) ∪ Set.Ico (m.data str) (m.data str + m.size str)

/-- A call on the string at `str` left it holding `t`, and the other blocks in
use as they were. -/
structure Serves {heapsize : Nat} (H : Heap heapsize) (m : Mem) (str : Nat) (H' : Heap heapsize) (m' : Mem)
    (t : Text) : Prop where
  rep : StrRep m' H' str t
  wrote : Wrote m m' (reach H' m' str)
  foreign : ∀ a, Foreign H str (m.data str) a → Foreign H' str (m'.data str) a
  keeps : Keeps H m [str, m.data str] H' m'
  apart : ∀ q n, H.Used q n → q ≠ m.data str → q ≠ m'.data str
  only : ∀ q n, H'.Used q n → q = m'.data str ∨ H.Used q n ∧ q ≠ m.data str
  grows : H.blocks.length ≤ H'.blocks.length

section Dynamic

variable {heapsize : Nat} {m m' m₁ : Mem} {H H' H₁ : Heap heapsize} {str n d a : Nat} {t t' : Text}
  {cs : List UInt8}

theorem StrRep.ne_null (h : StrRep m H str t) : str ≠ NULL := by
  obtain ⟨k, -, hu⟩ := h.struct
  exact hu.ne_null

theorem StrRep.data_ne_null (h : StrRep m H str t) : m.data str ≠ NULL := by
  obtain ⟨n, -, hu⟩ := h.buffer
  exact hu.ne_null

theorem StrRep.strlen_eq (h : StrRep m H str t) : strlen m (m.data str) = .ok t.length := by
  obtain ⟨n, hn, hu⟩ := h.buffer
  have := hu.lt
  have := h.fits
  exact h.content.strlen_eq h.data_ne_null (by simp only [Text.length] at *; omega)

/-- What is foreign to a string, no call on it may write. -/
theorem StrRep.not_reach (h : StrRep m H str t) (ha : Foreign H str (m.data str) a) : a ∉ reach H m str := by
  obtain ⟨hspare, hown⟩ := ha
  intro hs
  rcases hs with (⟨b, hb, h₁, h₂⟩ | hx) | hx
  · exact hspare ⟨b, hb, h₁, by omega⟩
  · obtain ⟨k, hk, hu⟩ := h.struct
    rw [Set.mem_Ico] at hx
    exact hown str k (.inl rfl) hu ⟨hx.1, by omega⟩
  · obtain ⟨n, hn, hu⟩ := h.buffer
    rw [Set.mem_Ico] at hx
    exact hown _ n (.inr rfl) hu ⟨hx.1, by omega⟩

/-- A struct's words after a write apart from it. -/
theorem Wrote.fields_eq {p lo hi : Nat} (hw : Wrote m m' (Set.Ico lo hi)) (hlt : p + STRING_SIZE ≤ 2 ^ 32)
    (hapart : p + STRING_SIZE ≤ lo ∨ hi ≤ p) : m'.data p = m.data p ∧ m'.size p = m.size p := by
  simp only [STRING_SIZE] at hlt hapart
  exact ⟨hw.load32_eq_Ico (by omega) (by omega), hw.load32_eq_Ico (by omega) (by omega)⟩

/-- The struct's words after a write in the buffer only. -/
theorem StrRep.fields_eq (h : StrRep m H str t)
    (hw : Wrote m m' (Set.Ico (m.data str) (m.data str + m.size str))) :
    m'.data str = m.data str ∧ m'.size str = m.size str := by
  obtain ⟨k, hk, hs⟩ := h.struct
  obtain ⟨n, hn, hu⟩ := h.buffer
  have hlt := hs.lt
  have hapart := hs.apart hu h.apart.symm
  exact hw.fields_eq (by omega) (by omega)

/-- Writing in the buffer only. -/
theorem StrRep.write (h : StrRep m H str t)
    (hw : Wrote m m' (Set.Ico (m.data str) (m.data str + m.size str)))
    (hc : CStr m' (m.data str) t'.chars) (hf : t'.length + 1 ≤ m.size str) : StrRep m' H str t' := by
  obtain ⟨n, hn, hu⟩ := h.buffer
  obtain ⟨hdata, hsize⟩ := h.fields_eq hw
  exact ⟨h.rep.frame_used hu hw (Nat.le_refl _) (by omega), h.struct, ⟨n, hsize ▸ hn, hdata ▸ hu⟩,
    hdata ▸ h.apart, hdata ▸ hc, hsize ▸ hf⟩

theorem Serves.refl (h : StrRep m H str t) : Serves H m str H m t where
  rep := h
  wrote := .refl _ _
  foreign _ ha := ha
  keeps := .refl _ _ _
  apart _ _ _ hne := hne
  only q _ hq := (em (q = m.data str)).imp_right fun hne => ⟨hq, hne⟩
  grows := Nat.le_refl _

/-- Writing in a block in use keeps the others. -/
theorem Heap.Used.keeps_others {p lo hi : Nat} (hu : H.Used p n) (hw : Wrote m m' (Set.Ico lo hi))
    (hlo : p ≤ lo) (hhi : hi ≤ p + n) : Keeps H m [p] H m' := by
  intro q k hq hne
  refine ⟨hq, fun i hi => hw.load8_eq ?_⟩
  have hlt := hq.lt
  have hapart := hq.apart hu fun he => hne (List.mem_singleton.mpr he)
  rw [wrap_of_lt (by omega), Set.mem_Ico]
  omega

theorem Serves.write (h : Serves H m str H₁ m₁ t)
    (hw : Wrote m₁ m' (Set.Ico (m₁.data str) (m₁.data str + m₁.size str)))
    (hc : CStr m' (m₁.data str) t'.chars) (hf : t'.length + 1 ≤ m₁.size str) : Serves H m str H₁ m' t' := by
  obtain ⟨hdata, hsize⟩ := h.rep.fields_eq hw
  have hreach : reach H₁ m' str = reach H₁ m₁ str := by simp only [reach, hdata, hsize]
  obtain ⟨n, hn, hu⟩ := h.rep.buffer
  refine ⟨h.rep.write hw hc hf, ?_, fun a ha => by rw [hdata]; exact h.foreign a ha, fun q k hq hne => ?_,
    fun q k hq hne => by rw [hdata]; exact h.apart q k hq hne, by rw [hdata]; exact h.only, h.grows⟩
  · rw [hreach]
    exact h.wrote.trans (hw.mono Set.subset_union_right)
  · obtain ⟨hq₁, hbytes₁⟩ := h.keeps q k hq hne
    have hother : q ∉ [m₁.data str] := fun hx =>
      h.apart q k hq (fun he => hne (by simp [he])) (List.mem_singleton.mp hx)
    obtain ⟨-, hbytes'⟩ := hu.keeps_others hw (Nat.le_refl _) (by omega) q k hq₁ hother
    exact ⟨hq₁, fun i hi => (hbytes' i hi).trans (hbytes₁ i hi)⟩

/-- A foreign string reads the same after a call. -/
theorem Serves.cstr (h : Serves H m str H' m' t) (hc : CStr m d cs) (hlt : d + cs.length < 2 ^ 32)
    (ha : ∀ a, d ≤ a → a ≤ d + cs.length → Foreign H str (m.data str) a) : CStr m' d cs :=
  hc.frame h.wrote hlt fun x h₁ h₂ => h.rep.not_reach (h.foreign x (ha x h₁ h₂))

/-- What is below the heap is foreign to every string. -/
theorem foreign_below {data : Nat} (ha : a < HEAP_START) : Foreign H str data a := by
  simp only [HEAP_START] at ha
  refine ⟨fun hs => ?_, fun q n _ hu hx => ?_⟩
  · have := hs.start_le
    omega
  · have := hu.bounds
    omega

/-- Writing below the heap leaves every string as it is. -/
theorem StrRep.below (h : StrRep m H str t) {S : Set Nat} (hw : Wrote m m' S) (hS : ∀ x ∈ S, x < HEAP_START) :
    StrRep m' H str t := by
  have hout : ∀ {q n : Nat}, H.Used q n → ∀ x, q ≤ x → x ∉ S := fun hu x hx hs => by
    have hbelow := hS x hs
    have := hu.bounds
    simp only [HEAP_START] at hbelow
    omega
  obtain ⟨k, hk, hstruct⟩ := h.struct
  obtain ⟨n, hn, hbuffer⟩ := h.buffer
  have hslt := hstruct.lt
  have hblt := hbuffer.lt
  have hfits := h.fits
  simp only [STRING_SIZE] at hk
  have hdata : m'.data str = m.data str := hw.load32_eq (by omega) fun x hx _ => hout hstruct x hx
  have hsize : m'.size str = m.size str := hw.load32_eq (by omega) fun x hx _ => hout hstruct x (by omega)
  refine ⟨h.rep.frame hw fun x hx hs => ?_, h.struct, ⟨n, hsize ▸ hn, hdata ▸ hbuffer⟩, hdata ▸ h.apart, ?_,
    hsize ▸ h.fits⟩
  · have hbelow := hS x hs
    have := (Heap.Spare.of_header hx).start_le
    simp only [HEAP_START] at hbelow
    omega
  · rw [hdata]
    exact h.content.frame hw (by simp only [Text.length] at hfits; omega) fun x hx _ => hout hbuffer x hx

/-! ## Resizing -/

/-- The struct's two words, written. -/
theorem words_written {q newsz : Nat} (hstr : str + STRING_SIZE ≤ 2 ^ 32) (hq : q < 2 ^ 32) (hsz : newsz < 2 ^ 32) :
    ((m.setData str q).setSize str newsz).data str = q ∧ ((m.setData str q).setSize str newsz).size str = newsz ∧
      Wrote m ((m.setData str q).setSize str newsz) (Set.Ico str (str + STRING_SIZE)) := by
  simp only [STRING_SIZE] at hstr ⊢
  refine ⟨?_, ?_, ?_⟩
  · simp only [Mem.data, Mem.setSize, Mem.setData]
    rw [Mem.load32_store32_ne (by omega) (by omega) (by omega), Mem.load32_store32_same, wrap_of_lt hq]
  · simp only [Mem.size, Mem.setSize, Mem.load32_store32_same]
    exact wrap_of_lt hsz
  · have hdata : Wrote m (m.setData str q) (Set.Ico str (str + 8)) :=
      .store32_Ico (by omega) (Set.Ico_subset_Ico_right (by omega))
    exact hdata.trans (.store32_Ico (by omega) (Set.Ico_subset_Ico (by omega) (by omega)))

/-- What is foreign to a string is foreign to it with its buffer elsewhere. -/
theorem Reallocated.foreign_at {n₀ newsz q k j a : Nat} (hR : Reallocated H m (m.data str) n₀ newsz H₁ m₁ q k)
    (hp : H.Used (m.data str) n₀) (hs : H.Used str j) (hs₁ : H₁.Used str j)
    (ha : Foreign H str (m.data str) a) : Foreign H₁ str q a := by
  obtain ⟨hspare, hown⟩ := ha
  obtain ⟨hspare', hnotq⟩ := hR.foreign a hspare (hown _ _ (.inr rfl) hp)
  refine ⟨hspare', fun r i hr hu => ?_⟩
  rcases hr with rfl | rfl
  · rw [hu.unique hs₁]
    exact hown r j (.inl rfl) hs
  · rwa [hu.unique hR.used]

/-- The struct's two words after a reallocation of the buffer. -/
theorem StrRep.install {n₀ newsz q k : Nat} (h : StrRep m H str t) (hp : H.Used (m.data str) n₀)
    (hn₀ : m.size str ≤ n₀) (hR : Reallocated H m (m.data str) n₀ newsz H₁ m₁ q k) (hsz : newsz < 2 ^ 32) :
    let m₂ := (m₁.setData str q).setSize str newsz
    m₂.data str = q ∧ m₂.size str = newsz ∧ CStr m₂ q t.chars ∧ q + t.length < 2 ^ 32 ∧
      ∀ {m' t'}, Wrote m₂ m' (Set.Ico q (q + newsz)) → CStr m' q t'.chars → t'.length + 1 ≤ newsz →
        Serves H m str H₁ m' t' ∧ m'.size str = newsz := by
  intro m₂
  obtain ⟨j, hj, hs⟩ := h.struct
  obtain ⟨hs₁, -⟩ := hR.keeps str j hs (by simpa using h.apart.symm)
  have hq := hR.used
  have hqs : str ≠ q := hR.apart str j hs h.apart.symm
  have hslt := hs.lt
  have hqlt := hq.lt
  have hapart := hs₁.apart hq hqs
  have hlarge := hR.large
  have hroom := hR.room
  have hfits := h.fits
  simp only [STRING_SIZE] at hj
  simp only [Text.length] at hfits ⊢
  obtain ⟨hdata, hsize, hw⟩ : m₂.data str = q ∧ m₂.size str = newsz ∧
      Wrote m₁ m₂ (Set.Ico str (str + STRING_SIZE)) := words_written (by simp only [STRING_SIZE]; omega) (by omega) hsz
  simp only [STRING_SIZE] at hw
  have hc₁ : CStr m₁ q t.chars := h.content.copy fun i hi => hR.copied i (by omega)
  have hc₂ : CStr m₂ q t.chars := hc₁.frame hw (by omega) fun x _ _ hx => by
    rw [Set.mem_Ico] at hx
    omega
  refine ⟨hdata, hsize, hc₂, by omega, fun {m' t'} hw' hc' hf' => ?_⟩
  have hr₂ : Rep m₂ H₁ := hR.rep.frame_used hs₁ hw (Nat.le_refl _) (by omega)
  have hr' : Rep m' H₁ := hr₂.frame_used hq hw' (Nat.le_refl _) (by omega)
  obtain ⟨hkeptd, hkepts⟩ := hw'.fields_eq (p := str) (by simp only [STRING_SIZE]; omega)
    (by simp only [STRING_SIZE]; omega)
  have hdata' : m'.data str = q := hkeptd.trans hdata
  have hsize' : m'.size str = newsz := hkepts.trans hsize
  refine ⟨⟨⟨hr', ⟨j, hj, hs₁⟩, ⟨k, hsize' ▸ hlarge, hdata' ▸ hq⟩, hdata' ▸ hqs.symm, hdata' ▸ hc',
      hsize' ▸ hf'⟩,
    ?_, fun a ha => ?_, fun r i hr hne => ?_, by rw [hdata']; exact hR.apart, by rw [hdata']; exact hR.only, hR.grows⟩,
    hsize'⟩
  · have hreach : reach H₁ m' str = headerBytes H₁.blocks ∪ Set.Ico str (str + 8) ∪ Set.Ico q (q + newsz) := by
      rw [reach, hdata', hsize']
      rfl
    rw [hreach]
    refine ((hR.wrote.mono ?_).trans (hw.mono ?_)).trans (hw'.mono Set.subset_union_right)
    · exact Set.union_subset_union_left _ Set.subset_union_left
    · exact Set.subset_union_right.trans Set.subset_union_left
  · rw [hdata']
    exact hR.foreign_at hp hs hs₁ ha
  · rw [List.mem_cons, List.mem_singleton, not_or] at hne
    obtain ⟨hr₁, hbytes₁⟩ := hR.keeps r i hr (by simpa using hne.2)
    obtain ⟨-, hbytes₂⟩ := hs₁.keeps_others hw (Nat.le_refl _) (by omega) r i hr₁ (by simpa using hne.1)
    obtain ⟨-, hbytes'⟩ := hq.keeps_others hw' (Nat.le_refl _) (by omega) r i hr₁
      (by simpa using hR.apart r i hr hne.2)
    exact ⟨hr₁, fun j hj => (hbytes' j hj).trans ((hbytes₂ j hj).trans (hbytes₁ j hj))⟩

/-- **`string_resize`** keeps the first `n` chars, in a buffer of `n + 1` bytes. -/
theorem stringResize_spec (h : StrRep m H str t) (hn : n ≤ 2 ^ 32 - 5) :
    stringResize m str n = .error outOfMemory ∨ ∃ m' H', stringResize m str n = .ok m' ∧
      Serves H m str H' m' (t.take n) ∧ m'.size str = n + 1 := by
  obtain ⟨n₀, hn₀, hp⟩ := h.buffer
  have hfits := h.fits
  have hnew : wrap (n + 1) = n + 1 := wrap_of_lt (by omega)
  simp only [stringResize, if_neg h.ne_null, hnew]
  rcases realloc_outcome h.rep hp (by omega : n + 1 ≤ 2 ^ 32 - 4) with hr | ⟨q, k, m₁, H₁, hr, hR⟩
  · exact .inl (by rw [hr]; rfl)
  obtain ⟨hdata, -, hc, hlt, hserves⟩ := h.install hp hn₀ hR (by omega)
  refine .inr ⟨_, H₁, by rw [hr]; rfl, ?_⟩
  rw [hdata]
  have hqlt := hR.used.lt
  have hlarge := hR.large
  split
  · -- The string may be cut off: its terminator is written again.
    have haddr : wrap (q + (n + 1 + (2 ^ 32 - 1))) = q + n := by unfold wrap; omega
    have hstore : ((m₁.setData str q).setSize str (n + 1)).store8 (q + (n + 1 + (2 ^ 32 - 1))) 0 =
        ((m₁.setData str q).setSize str (n + 1)).store8 (q + n) 0 := by
      simp only [Mem.store8, haddr, wrap_of_lt (show q + n < 2 ^ 32 by omega)]
    rw [hstore]
    have hw : Wrote ((m₁.setData str q).setSize str (n + 1))
        (((m₁.setData str q).setSize str (n + 1)).store8 (q + n) 0) (Set.Ico q (q + (n + 1))) :=
      .store8_Ico (by omega) (by omega) (by omega)
    exact hserves hw (hc.truncate hlt (by omega)) (by rw [Text.take_length]; omega)
  · next hge =>
    have ht : t.take n = t := Text.take_of_length_le (by omega)
    rw [ht]
    exact hserves (.refl _ _) hc (by omega)

/-! ## Arguments -/

/-- A C string a caller may pass: no byte of it is the allocator's or the string's. -/
structure Arg {heapsize : Nat} (m : Mem) (H : Heap heapsize) (str d : Nat) (u : Text) : Prop where
  ne_null : d ≠ NULL
  content : CStr m d u.chars
  lt : d + u.length < 2 ^ 32
  foreign : ∀ a, d ≤ a → a ≤ d + u.length → Foreign H str (m.data str) a

variable {u : Text}

theorem Arg.after (ha : Arg m H str d u) (h : Serves H m str H' m' t) : Arg m' H' str d u where
  ne_null := ha.ne_null
  content := h.cstr ha.content ha.lt ha.foreign
  lt := ha.lt
  foreign := fun a h₁ h₂ => h.foreign a (ha.foreign a h₁ h₂)

/-- The argument and the buffer's block, header included, do not overlap. -/
theorem Arg.apart (ha : Arg m H str d u) {k : Nat} (hu : H.Used (m.data str) k) :
    d + u.length + 16 < m.data str ∨ m.data str + k ≤ d := by
  have hheader : ∀ a, m.data str ≤ a + 16 → a < m.data str → H.Spare a := fun a h₁ h₂ => by
    obtain ⟨b, hb, -, hd, -⟩ := hu
    simp only [Blk.data] at hd
    exact ⟨b, hb, by omega, by omega⟩
  rcases Nat.lt_or_ge (d + u.length + 16) (m.data str) with h | h
  · exact .inl h
  · refine .inr (Nat.le_of_not_lt fun hlt => ?_)
    -- Otherwise the first byte of one of them is in the other.
    rcases Nat.lt_or_ge d (m.data str) with hlt' | hge
    · have := hu.bounds
      exact (ha.foreign (max d (m.data str - 16)) (by omega) (by omega)).1 (hheader _ (by omega) (by omega))
    · exact (ha.foreign d (Nat.le_refl _) (by omega)).2 _ k (.inr rfl) hu ⟨hge, hlt⟩

/-! ## The operations -/

/-- The size is one more than the text and its terminator need: `string_resize`
adds one to a size that counts the terminator. -/
theorem stringTrim_spec (h : StrRep m H str t) : stringTrim m str = .error outOfMemory ∨
    ∃ m' H', stringTrim m str = .ok m' ∧ Serves H m str H' m' t ∧ m'.size str = t.length + 2 := by
  obtain ⟨n, hn, hu⟩ := h.buffer
  have hfits := h.fits
  have hblock := hu.bounds
  have hpad : toInt (m.size str + (2 ^ 32 - wrap (t.length + 1))) = (m.size str : Int) - (t.length + 1) := by
    have : wrap (m.size str + (2 ^ 32 - wrap (t.length + 1))) = m.size str - (t.length + 1) := by
      unfold wrap; omega
    rw [toInt, this, if_pos (by omega)]
    omega
  have hnew : ofInt (m.size str - ((m.size str : Int) - (t.length + 1))) = t.length + 1 := by
    unfold ofInt; omega
  simp only [stringTrim, stringPadding, if_neg h.ne_null, h.strlen_eq, Except.ok_bind, hpad, hnew]
  rcases stringResize_spec h (n := t.length + 1) (by omega) with hr | ⟨m', H', hr, hs, hsize⟩
  · exact .inl hr
  · rw [Text.take_of_length_le (by omega)] at hs
    exact .inr ⟨m', H', hr, hs, hsize⟩

/-- Making room for `n` chars, when there is none. -/
theorem room_spec (h : StrRep m H str t) (hn : n ≤ 2 ^ 32 - 5) {p : Prop} [Decidable p]
    (ht : p → t.length ≤ n) (hp : ¬ p → n + 1 ≤ m.size str) :
    (if p then stringResize m str n else .ok m) = .error outOfMemory ∨
      ∃ m' H', (if p then stringResize m str n else .ok m) = .ok m' ∧ Serves H m str H' m' t ∧
        n + 1 ≤ m'.size str := by
  split
  · next hyes =>
    rcases stringResize_spec h hn with hr | ⟨m', H', hr, hs, hsize⟩
    · exact .inl hr
    · rw [Text.take_of_length_le (ht hyes)] at hs
      exact .inr ⟨m', H', hr, hs, by omega⟩
  · next hno => exact .inr ⟨m, H, rfl, .refl h, hp hno⟩

/-- An argument is short enough for a buffer to hold it beside the text. -/
theorem Arg.length_lt (ha : Arg m H str d u) (h : StrRep m H str t) : t.length + u.length ≤ 2 ^ 32 - 5 := by
  obtain ⟨n, hn, hu⟩ := h.buffer
  have hfits := h.fits
  have hlt := ha.lt
  have hnull := ha.ne_null
  have hulen := hu.lt
  have hbase := hu.bounds
  have := ha.apart hu
  simp only [NULL] at hnull
  omega

theorem stringSet_spec (h : StrRep m H str t) (ha : Arg m H str d u) : stringSet m str d = .error outOfMemory ∨
    ∃ m' H', stringSet m str d = .ok m' ∧ Serves H m str H' m' u := by
  have hfits := h.fits
  have hlen := ha.length_lt h
  have hstrlen : strlen m d = .ok u.length := ha.content.strlen_eq ha.ne_null ha.lt
  have hw : wrap (u.length + 1) = u.length + 1 := wrap_of_lt (by omega)
  simp only [stringSet, if_neg (show ¬ (str = NULL ∨ d = NULL) by simp [h.ne_null, ha.ne_null]), hstrlen,
    Except.ok_bind, hw]
  rcases room_spec h (n := u.length) (p := u.length + 1 > m.size str) (by omega) (by omega) (by omega) with
    hr | ⟨m₁, H₁, hr, hs, hsize⟩
  · exact .inl (by rw [hr]; rfl)
  have ha₁ := ha.after hs
  obtain ⟨k, hk, hu⟩ := hs.rep.buffer
  have hapart := ha₁.apart hu
  have hult := hu.lt
  have halt := ha.lt
  simp only [Text.length] at hsize hapart halt
  obtain ⟨m', hcopy, hc, hw'⟩ := ha₁.content.strcpyLoop_eq (n := loopBound) (d := m₁.data str)
    (by simp only [loopBound]; omega) (by omega) (by omega) (by omega)
  refine .inr ⟨m', H₁, ?_, hs.write (hw'.mono (Set.Ico_subset_Ico_right (by omega))) hc hsize⟩
  simp only [hr, Except.ok_bind, strcpy, if_neg (show ¬ (m₁.data str = NULL ∨ d = NULL) by
    simp [hs.rep.data_ne_null, ha.ne_null]), hcopy]

theorem stringAdd_spec (h : StrRep m H str t) (ha : Arg m H str d u) : stringAdd m str d = .error outOfMemory ∨
    ∃ m' H', stringAdd m str d = .ok m' ∧ Serves H m str H' m' (t.append u) := by
  have hfits := h.fits
  have hlen := ha.length_lt h
  have hstrlen : strlen m d = .ok u.length := ha.content.strlen_eq ha.ne_null ha.lt
  have hw₁ : wrap (t.length + u.length) = t.length + u.length := wrap_of_lt (by omega)
  have hw₂ : wrap (t.length + u.length + 1) = t.length + u.length + 1 := wrap_of_lt (by omega)
  simp only [stringAdd, if_neg (show ¬ (str = NULL ∨ d = NULL) by simp [h.ne_null, ha.ne_null]), hstrlen,
    h.strlen_eq, Except.ok_bind, hw₁, hw₂]
  rcases room_spec h (n := t.length + u.length) (p := m.size str < t.length + u.length + 1) (by omega)
    (by omega) (by omega) with hr | ⟨m₁, H₁, hr, hs, hsize⟩
  · exact .inl (by rw [hr]; rfl)
  have ha₁ := ha.after hs
  obtain ⟨k, hk, hu⟩ := hs.rep.buffer
  have hapart := ha₁.apart hu
  have hult := hu.lt
  have halt := ha.lt
  have hnull : ¬ (m₁.data str = NULL ∨ d = NULL) := by simp [hs.rep.data_ne_null, ha.ne_null]
  simp only [Text.length] at hsize hapart halt
  have hend : endOf loopBound m₁ (m₁.data str) = .ok (m₁.data str + t.chars.length) :=
    hs.rep.content.endOf_eq (by simp only [loopBound]; omega) (by omega)
  obtain ⟨m', hcopy, hc, hw'⟩ := ha₁.content.strcpyLoop_eq (n := loopBound) (d := m₁.data str + t.chars.length)
    (by simp only [loopBound]; omega) (by omega) (by omega) (by omega)
  have hcat : CStr m' (m₁.data str) (t.append u).chars :=
    hs.rep.content.append (by omega) (fun i hi => hw'.load8_eq_Ico (by omega) (by omega)) hc
  refine .inr ⟨m', H₁, ?_, hs.write (hw'.mono (Set.Ico_subset_Ico (by omega) (by omega))) hcat
    (by rw [Text.append_length]; simp only [Text.length]; omega)⟩
  simp only [hr, Except.ok_bind, strcat, if_neg hnull, hend, hcopy]

theorem stringAddchar_spec (h : StrRep m H str t) (c : UInt8) : stringAddchar m str c = .error outOfMemory ∨
    ∃ m' H', stringAddchar m str c = .ok m' ∧ Serves H m str H' m' (t.push c) := by
  have hfits := h.fits
  obtain ⟨n, hn, hu⟩ := h.buffer
  have hblock := hu.bounds
  have hw₁ : wrap (t.length + 2) = t.length + 2 := wrap_of_lt (by omega)
  have hw₂ : wrap (m.size str + 1) = m.size str + 1 := wrap_of_lt (by omega)
  simp only [stringAddchar, if_neg h.ne_null, h.strlen_eq, Except.ok_bind, hw₁, hw₂]
  -- Two bytes are left past the text, by the growth if need be.
  obtain hr | ⟨m₁, H₁, hr, hs, hsize⟩ :
      (if m.size str ≤ t.length + 2 then stringResize m str (m.size str + 1) else .ok m) = .error outOfMemory ∨
        ∃ m₁ H₁, (if m.size str ≤ t.length + 2 then stringResize m str (m.size str + 1) else .ok m) = .ok m₁ ∧
          Serves H m str H₁ m₁ t ∧ t.length + 3 ≤ m₁.size str := by
    split
    · rcases stringResize_spec h (n := m.size str + 1) (by omega) with hr | ⟨m₁, H₁, hr, hs, hsize⟩
      · exact .inl hr
      · rw [Text.take_of_length_le (by omega)] at hs
        exact .inr ⟨m₁, H₁, hr, hs, by omega⟩
    · next hroom => exact .inr ⟨m, H, rfl, .refl h, by omega⟩
  · exact .inl (by rw [hr]; rfl)
  obtain ⟨k, hk, hu₁⟩ := hs.rep.buffer
  have hlt := hu₁.lt
  simp only [Text.length] at hsize
  have hzero : zeroIndex loopBound m₁ str 0 = .ok t.chars.length := by
    rw [CStr.zeroIndex_eq (k := 0) hs.rep.content (by simp only [loopBound]; omega) (by omega),
      Nat.zero_add]
  have hw₂ : Wrote m₁ (m₁.store8 (m₁.data str + t.chars.length) c)
      (Set.Ico (m₁.data str) (m₁.data str + m₁.size str)) :=
    .store8_Ico (by omega) (by omega) (by omega)
  have hw₃ : ∀ {m₂ : Mem}, Wrote m₂ (m₂.store8 (m₁.data str + (t.chars.length + 1)) 0)
      (Set.Ico (m₁.data str) (m₁.data str + m₁.size str)) :=
    .store8_Ico (by omega) (by omega) (by omega)
  refine .inr ⟨_, H₁, ?_, hs.write (hw₂.trans hw₃) (hs.rep.content.push (by omega) c) ?_⟩
  · have hdata := (hs.rep.fields_eq hw₂).1
    simp only [hr, Except.ok_bind, hzero, hdata]
  · by_cases hz : c = 0
    · rw [hz, Text.push_zero]
      simp only [Text.length]
      omega
    · rw [Text.push_length hz]
      simp only [Text.length]
      omega

/-- The loop of `string_clear`, with `k` bytes to go. -/
theorem clearLoop_eq (h : StrRep m H str t) : ∀ {k i n : Nat} {m₁ : Mem}, i + k = m.size str → k < n →
    Wrote m m₁ (Set.Ico (m.data str) (m.data str + m.size str)) →
    (∀ j, j < i → m₁.load8 (m.data str + j) = 0) →
    ∃ m', clearLoop n m₁ str i = .ok m' ∧ Wrote m m' (Set.Ico (m.data str) (m.data str + m.size str)) ∧
      ∀ j, j < m.size str → m'.load8 (m.data str + j) = 0 := by
  obtain ⟨b, hb, hu⟩ := h.buffer
  have hlt := hu.lt
  intro k
  induction k with
  | zero =>
    intro i n m₁ hi hn hw hz
    obtain ⟨n, rfl⟩ : ∃ j, n = j + 1 := ⟨n - 1, by omega⟩
    refine ⟨m₁, ?_, hw, fun j hj => hz j (by omega)⟩
    rw [clearLoop, (h.fields_eq hw).2, if_neg (by omega)]
  | succ k ih =>
    intro i n m₁ hi hn hw hz
    obtain ⟨n, rfl⟩ : ∃ j, n = j + 1 := ⟨n - 1, by omega⟩
    obtain ⟨hdata, hsize⟩ := h.fields_eq hw
    have hwrap : ∀ {j}, j ≤ i → wrap (m.data str + j) = m.data str + j := fun hj => wrap_of_lt (by omega)
    rw [clearLoop, hsize, if_pos (by omega), hdata, wrap_of_lt (by omega)]
    refine ih (by omega) (by omega) (hw.trans (.store8 ?_)) fun j hj => ?_
    · rw [hwrap (Nat.le_refl _), Set.mem_Ico]
      omega
    · rw [Mem.load8_store8, hwrap (by omega), hwrap (Nat.le_refl _)]
      split
      · rfl
      · exact hz j (by omega)

theorem stringClear_spec (h : StrRep m H str t) :
    ∃ m', stringClear m str = .ok m' ∧ Serves H m str H m' .empty := by
  have hfits := h.fits
  obtain ⟨n, hn, hu⟩ := h.buffer
  have hlt := hu.lt
  obtain ⟨m', hr, hw, hz⟩ := clearLoop_eq h (k := m.size str) (i := 0) (n := loopBound) (by omega)
    (by simp only [loopBound]; omega) (.refl _ _) (by omega)
  refine ⟨m', by rw [stringClear, if_neg h.ne_null, hr], (Serves.refl h).write hw (hz 0 (by omega)) ?_⟩
  rw [Text.empty_length]
  omega

/-- The buffer of a new string goes into its struct, where its size is already. -/
theorem StrRep.built {p k size : Nat} (hr : Rep m H) (hs : H.Used str k) (hk : STRING_SIZE ≤ k) (hp : H.Used p n)
    (hne : str ≠ p) (hsize : m.size str = size) (hpos : 0 < size) (hn : size ≤ n) :
    (m.setData str p).data str = p ∧ StrRep ((m.setData str p).store8 p 0) H str .empty ∧
      ((m.setData str p).store8 p 0).data str = p ∧ ((m.setData str p).store8 p 0).size str = size ∧
      Wrote m ((m.setData str p).store8 p 0) (Set.Ico str (str + STRING_SIZE) ∪ Set.Ico p (p + size)) := by
  have hslt := hs.lt
  have hplt := hp.lt
  have hapart := hs.apart hp hne
  simp only [STRING_SIZE] at hk
  have hw₁ : Wrote m (m.setData str p) (Set.Ico str (str + STRING_SIZE)) :=
    .store32_Ico (by omega) (Set.Ico_subset_Ico_right (by simp only [STRING_SIZE]; omega))
  have hw₂ : Wrote (m.setData str p) ((m.setData str p).store8 p 0) (Set.Ico p (p + size)) :=
    .store8_Ico (by omega) (by omega) (by omega)
  have hdata₁ : (m.setData str p).data str = p := by
    simp only [Mem.data, Mem.setData, Mem.load32_store32_same]
    exact wrap_of_lt (by omega)
  have hsize₁ : (m.setData str p).size str = m.size str :=
    Mem.load32_store32_ne (by omega) (by omega) (by omega)
  obtain ⟨hkeptd, hkepts⟩ := hw₂.fields_eq (p := str) (by simp only [STRING_SIZE]; omega)
    (by simp only [STRING_SIZE]; omega)
  have hdata : ((m.setData str p).store8 p 0).data str = p := hkeptd.trans hdata₁
  have hsize' : ((m.setData str p).store8 p 0).size str = size := hkepts.trans (hsize₁.trans hsize)
  refine ⟨hdata₁, ⟨?_, ⟨k, hk, hs⟩, ⟨n, by omega, hdata.symm ▸ hp⟩, hdata.symm ▸ hne.symm, ?_, ?_⟩, hdata, hsize',
    (hw₁.mono Set.subset_union_left).trans (hw₂.mono Set.subset_union_right)⟩
  · have hr₁ := hr.frame_used hs hw₁ (Nat.le_refl _) (by simp only [STRING_SIZE]; omega)
    exact hr₁.frame_used hp hw₂ (Nat.le_refl _) (by omega)
  · rw [hdata]
    exact Mem.load8_store8_same _ _ _
  · rw [Text.empty_length, hsize']
    omega

/-- The heap with the two blocks of a new string, if there is room for them. -/
def Heap.newString (H : Heap heapsize) (init : Nat) : Option (Nat × Heap heapsize) :=
  (H.malloc STRING_SIZE).bind fun r => (r.2.malloc (init + 1)).map fun q => (r.1, q.2)

/-- **`string_newsz`** makes an empty string with a buffer of `init + 1` bytes,
out of bytes that were the allocator's. -/
theorem stringNewsz_spec {init : Nat} (hr : Rep m H) (hu : ¬ untouched m) (hinit : init ≤ 2 ^ 32 - 5) :
    H.newString init = none ∧ stringNewsz m init = .error outOfMemory ∨
      ∃ (str : Nat) (m' : Mem) (H' : Heap heapsize), H.newString init = some (str, H') ∧
        stringNewsz m init = .ok (str, m') ∧ StrRep m' H' str .empty ∧ m'.size str = init + 1 ∧
        Wrote m m' (reach H' m' str) ∧ ∀ a, a ∈ reach H' m' str → H.Spare a := by
  rcases malloc_outcome hr hu (by decide : STRING_SIZE ≤ 2 ^ 32 - 4) with
    ⟨hH, hm⟩ | ⟨str, H₁, m₁, hH₁, hm₁, hr₁, hw₁⟩
  · exact .inl ⟨by rw [Heap.newString, hH]; rfl, by rw [stringNewsz, hm]; rfl⟩
  obtain ⟨k, hk, hs, -⟩ := Heap.malloc_used hH₁
  have hslt := hs.lt
  simp only [STRING_SIZE] at hk
  -- The size goes into the struct, and is read again for the buffer.
  have hw₂ : Wrote m₁ (m₁.setSize str (init + 1)) (Set.Ico str (str + STRING_SIZE)) :=
    .store32_Ico (by omega) (Set.Ico_subset_Ico (by omega) (by simp only [STRING_SIZE]; omega))
  have hr₂ : Rep (m₁.setSize str (init + 1)) H₁ :=
    hr₁.frame_used hs hw₂ (Nat.le_refl _) (by simp only [STRING_SIZE]; omega)
  have hsize₂ : (m₁.setSize str (init + 1)).size str = init + 1 := by
    simp only [Mem.size, Mem.setSize, Mem.load32_store32_same]
    exact wrap_of_lt (by omega)
  have hnew : stringNewsz m init = (do
      let q ← malloc (m₁.setSize str (init + 1)) (init + 1)
      let m := q.2.setData str q.1
      .ok (str, m.store8 (m.data str) 0)) := by
    simp only [stringNewsz, hm₁, Except.ok_bind, if_neg hs.ne_null, hsize₂]
  rw [hnew]
  rcases malloc_outcome hr₂ (hr₂.not_untouched hs) (by omega : init + 1 ≤ 2 ^ 32 - 4) with
    ⟨hH, hm⟩ | ⟨p, H₃, m₃, hH₃, hm₃, hr₃, hw₃⟩
  · exact .inl ⟨by rw [Heap.newString, hH₁, Option.bind_some, hH]; rfl, by rw [hm]; rfl⟩
  obtain ⟨n, hn, hp, hfresh, hiff⟩ := Heap.malloc_used hH₃
  have hs₃ : H₃.Used str k := (hiff str k).mpr (.inr hs)
  have hsize₃ : m₃.size str = init + 1 :=
    (hw₃.load32_eq (by omega) fun x _ _ => hs₃.not_header (by omega) (by omega)).trans hsize₂
  obtain ⟨hdata₄, hrep, hdata, hsize, hw₄⟩ :=
    StrRep.built hr₃ hs₃ hk hp (fun he => hfresh k (he ▸ hs)) hsize₃ (Nat.succ_pos _) hn
  have hreach : reach H₃ ((m₃.setData str p).store8 p 0) str =
      headerBytes H₃.blocks ∪ Set.Ico str (str + STRING_SIZE) ∪ Set.Ico p (p + (init + 1)) := by
    rw [reach, hdata, hsize]
  refine .inr ⟨str, _, H₃, by rw [Heap.newString, hH₁, Option.bind_some, hH₃]; rfl,
    by rw [hm₃]; simp only [Except.ok_bind, hdata₄], hrep, hsize, ?_, fun a ha => ?_⟩
  · rw [hreach]
    have hheads : headerBytes H₁.blocks ⊆ headerBytes H₃.blocks := headerBytes_malloc hH₃
    refine (((hw₁.mono fun x hx => .inl (.inl (hheads hx))).trans (hw₂.mono fun x hx => .inl (.inr hx))).trans
      (hw₃.mono fun x hx => .inl (.inl hx))).trans (hw₄.mono ?_)
    rw [Set.union_assoc]
    exact Set.subset_union_right
  · obtain ⟨hspare₁, htaken₁⟩ := Heap.malloc_spare hH₁
    obtain ⟨hspare₃, htaken₃⟩ := Heap.malloc_spare hH₃
    rw [hreach] at ha
    rcases ha with (ha | ha) | ha
    · exact hspare₁ a (hspare₃ a (.of_header ha))
    · simp only [STRING_SIZE, Set.mem_Ico] at ha
      exact htaken₁ k a hs ha.1 (by omega)
    · rw [Set.mem_Ico] at ha
      exact hspare₁ a (htaken₃ n a hp ha.1 (by omega))

/-- What is known of a string that was made. -/
theorem stringNewsz_ok {init : Nat} (hr : Rep m H) (hu : ¬ untouched m) (hinit : init ≤ 2 ^ 32 - 5)
    (hnew : stringNewsz m init = .ok (str, m')) :
    ∃ H', H.newString init = some (str, H') ∧ StrRep m' H' str .empty ∧ m'.size str = init + 1 ∧
      Wrote m m' (reach H' m' str) ∧ ∀ a, a ∈ reach H' m' str → H.Spare a := by
  rcases stringNewsz_spec hr hu hinit with ⟨-, he⟩ | ⟨str', m₁, H₁, hsome, hok, hrest⟩
  · rw [he] at hnew
    cases hnew
  · rw [hok] at hnew
    cases hnew
    exact ⟨H₁, hsome, hrest⟩

end Dynamic

/-! ## Runs of calls on one string -/

/-- A call on a string; `d` is the address of a C string argument, `u` its text. -/
inductive StringOp
  | set (d : Nat) (u : Text)
  | add (d : Nat) (u : Text)
  | addchar (c : UInt8)
  | clear
  | resize (n : Nat)
  | trim

/-- A C string at `d` in no header, in no free block and in neither of the
string's own blocks. -/
structure Argument (m : Mem) (str d : Nat) (u : Text) : Prop where
  ne_null : d ≠ NULL
  content : CStr m d u.chars
  lt : d + u.length < 2 ^ 32
  apart : ∀ hs, headers m = .ok hs → ∀ b ∈ hs, ∀ a, d ≤ a → a ≤ d + u.length →
    ¬ (b ≤ a ∧ a < b + HEADER_SIZE) ∧
      (m.isFree b = 1 ∨ toData b = str ∨ toData b = m.data str →
        ¬ (toData b ≤ a ∧ a < toData b + m.blockSize b))

namespace StringOp

def run (m : Mem) (str : Nat) : StringOp → Except Stop Mem
  | set d _ => stringSet m str d
  | add d _ => stringAdd m str d
  | addchar c => stringAddchar m str c
  | clear => stringClear m str
  | resize n => stringResize m str n
  | trim => stringTrim m str

/-- What the caller promises. -/
def ok (m : Mem) (str : Nat) : StringOp → Prop
  | set d u | add d u => Argument m str d u
  | resize n => n ≤ 2 ^ 32 - 5
  | addchar _ | clear | trim => True

/-- What the call is for. -/
def apply (t : Text) : StringOp → Text
  | set _ u => u
  | add _ u => t.append u
  | addchar c => t.push c
  | clear => .empty
  | resize n => t.take n
  | trim => t

end StringOp

def StringStep (str : Nat) (m : Mem) (op : StringOp) (m' : Mem) : Prop := op.ok m str ∧ op.run m str = .ok m'

/-- The string at `str` holds `t`, in a block in use that has room for it. -/
structure Holds (m : Mem) (str : Nat) (t : Text) : Prop where
  content : CStr m (m.data str) t.chars
  len : strlen m (m.data str) = .ok t.length
  fits : t.length + 1 ≤ m.size str
  block : ∃ hs, headers m = .ok hs ∧ toHeader (m.data str) ∈ hs ∧ m.isFree (toHeader (m.data str)) = 0 ∧
    m.size str ≤ m.blockSize (toHeader (m.data str))

/-- What was written from `m` to `m'` in the buffer is below its size, and the
rest is in headers and the string's struct. -/
structure WroteBelow (m m' : Mem) (str : Nat) : Prop where
  below : ∃ w, m'.log = w ++ m.log ∧ ∀ a ∈ w, m'.data str ≤ a →
    a < m'.data str + m'.blockSize (toHeader (m'.data str)) → a < m'.data str + m'.size str
  only : ∃ hs, headers m' = .ok hs ∧ Wrote m m' ({x | ∃ b ∈ hs, b ≤ x ∧ x < b + HEADER_SIZE} ∪
    Set.Ico str (str + STRING_SIZE) ∪ Set.Ico (m'.data str) (m'.data str + m'.size str))

section StringRuns

variable {heapsize : Nat} {m m' : Mem} {H : Heap heapsize} {str d init : Nat} {t u : Text} {op : StringOp}
  {ops : List StringOp} {s₀ s : HeapState} {calls : List Call}

theorem Argument.arg (ha : Argument m str d u) (hr : Rep m H) : Arg m H str d u where
  ne_null := ha.ne_null
  content := ha.content
  lt := ha.lt
  foreign := by
    intro a h₁ h₂
    have hap : ∀ b ∈ H.blocks, ¬ (b.addr ≤ a ∧ a < b.addr + 16) ∧
        (b.free = true ∨ b.data = str ∨ b.data = m.data str → ¬ (b.data ≤ a ∧ a < b.data + b.size)) := by
      intro b hb
      obtain ⟨_, hh⟩ := hr.header_mem hb
      have := ha.apart _ (headers_eq hr) b.addr (List.mem_map_of_mem hb) a h₁ h₂
      rwa [isFree_eq_one hr hb, toData_eq hb, hh.size] at this
    refine ⟨?_, ?_⟩
    · intro hx
      obtain ⟨b, hb, hle, hlt⟩ := hx
      obtain ⟨hhead, hdata⟩ := hap b hb
      by_cases hf : b.free = true
      · refine hdata (.inl hf) ?_
        simp only [hf, if_true] at hlt
        simp only [Blk.data]
        omega
      · simp only [hf, Bool.false_eq_true, if_false] at hlt
        exact hhead ⟨hle, by omega⟩
    · intro q n hq hx
      obtain ⟨b, hb, -, rfl, rfl⟩ := hx
      exact (hap b hb).2 (.inr hq)

/-- A C string below the heap may be passed: the kernel's literals are there. -/
theorem Argument.below (hr : Rep m H) (hd : d ≠ NULL) (hc : CStr m d u.chars) (hlt : d + u.length < HEAP_START) :
    Argument m str d u where
  ne_null := hd
  content := hc
  lt := Nat.lt_trans hlt (by decide)
  apart := by
    intro hs hhs b hb a h₁ h₂
    rw [headers_eq hr, Except.ok.injEq] at hhs
    subst hhs
    obtain ⟨c, hc, rfl⟩ := List.mem_map.mp hb
    have := H.bounds hc
    simp only [HEAP_START] at hlt
    rw [toData_eq hc]
    simp only [Blk.data]
    omega

theorem StrRep.holds (h : StrRep m H str t) : Holds m str t where
  content := h.content
  len := h.strlen_eq
  fits := h.fits
  block := by
    obtain ⟨n, hn, b, hb, hf, hd, rfl⟩ := h.buffer
    obtain ⟨_, hh⟩ := h.rep.header_mem hb
    refine ⟨_, headers_eq h.rep, ?_⟩
    rw [← hd, toHeader_eq hb, hh.free, hh.size, hf]
    exact ⟨List.mem_map_of_mem hb, rfl, hn⟩

theorem wroteBelow {H' : Heap heapsize} (h : StrRep m' H' str t) (hw : Wrote m m' (reach H' m' str)) :
    WroteBelow m m' str where
  below := by
    obtain ⟨w, hlog, hin, -⟩ := hw
    refine ⟨w, hlog, fun a ha h₁ h₂ => ?_⟩
    obtain ⟨j, hj, hs⟩ := h.struct
    obtain ⟨n, hn, hu⟩ := h.buffer
    obtain ⟨b, hb, hf, hd, rfl⟩ := hu
    have hu : H'.Used (m'.data str) b.size := ⟨b, hb, hf, hd, rfl⟩
    have hapart := hs.apart hu h.apart.symm
    obtain ⟨_, hh⟩ := h.rep.header_mem hb
    rw [← hd, toHeader_eq hb, hh.size, hd] at h₂
    rcases hin a ha with (hx | hx) | hx
    · exact absurd hx (hu.not_header h₁ h₂)
    · rw [Set.mem_Ico] at hx
      omega
    · exact hx.2
  only := by
    refine ⟨_, headers_eq h.rep, hw.mono fun x hx => ?_⟩
    rcases hx with (⟨b, hb, h₁, h₂⟩ | hx) | hx
    · exact .inl (.inl ⟨b.addr, List.mem_map_of_mem hb, h₁, h₂⟩)
    · exact .inl (.inr hx)
    · exact .inr hx

/-- Each call on a string halts for want of memory or does what it is for. -/
theorem StringOp.spec (h : StrRep m H str t) (hok : op.ok m str) : op.run m str = .error outOfMemory ∨
    ∃ m' H', op.run m str = .ok m' ∧ Serves H m str H' m' (op.apply t) := by
  cases op with
  | set d u => exact stringSet_spec h (Argument.arg hok h.rep)
  | add d u => exact stringAdd_spec h (Argument.arg hok h.rep)
  | addchar c => exact stringAddchar_spec h c
  | clear =>
    obtain ⟨m', hr, hs⟩ := stringClear_spec h
    exact .inr ⟨m', H, hr, hs⟩
  | resize n =>
    rcases stringResize_spec h hok with hr | ⟨m', H', hr, hs, -⟩
    · exact .inl hr
    · exact .inr ⟨m', H', hr, hs⟩
  | trim =>
    rcases stringTrim_spec h with hr | ⟨m', H', hr, hs, -⟩
    · exact .inl hr
    · exact .inr ⟨m', H', hr, hs⟩

theorem StringStep.runs (hops : Runs (StringStep str) m ops m') (h : StrRep m H str t) :
    ∃ H' : Heap heapsize, StrRep m' H' str (ops.foldl StringOp.apply t) := by
  induction hops generalizing H t with
  | nil => exact ⟨H, h⟩
  | cons hstep _ ih =>
    rcases StringOp.spec h hstep.1 with hr | ⟨m₁, H₁, hr, hs⟩
    · rw [hstep.2] at hr
      cases hr
    · rw [hstep.2] at hr
      cases hr
      exact ih hs.rep

/-- **Dynamic strings refine texts**: a string made by `string_newsz` after any
run of the allocator holds, after any sequence of calls, the text those calls
make; and the next call halts for want of memory, or makes of it what it is for
and writes below the buffer's size. -/
theorem string_refines (hboot : Booted heapsize s₀) (hrun : Runs EverStep s₀ calls s) (hinit : init ≤ 2 ^ 32 - 5)
    (hnew : stringNewsz s.mem init = .ok (str, m)) (hops : Runs (StringStep str) m ops m') :
    WroteBelow s.mem m str ∧ Holds m' str (ops.foldl StringOp.apply .empty) ∧
      ∀ op : StringOp, op.ok m' str → op.run m' str = .error outOfMemory ∨ ∃ m'', op.run m' str = .ok m'' ∧
        Holds m'' str (op.apply (ops.foldl StringOp.apply .empty)) ∧ WroteBelow m' m'' str := by
  obtain ⟨H, hi⟩ := EverStep.run hboot hrun
  obtain ⟨H₁, -, hs, -, hw, -⟩ := stringNewsz_ok hi.rep hi.not_untouched hinit hnew
  obtain ⟨H', hs'⟩ := StringStep.runs hops hs
  refine ⟨wroteBelow hs hw, hs'.holds, fun op hok => ?_⟩
  rcases StringOp.spec hs' hok with hr | ⟨m'', H'', hr, hserves⟩
  · exact .inl hr
  · exact .inr ⟨m'', hr, hserves.rep.holds, wroteBelow hserves.rep hserves.wrote⟩

/-- `string_newsz(0)`, set to `hi` (at address 16), and `!` added. -/
theorem string_refines_hi : ∃ s₀ str m m', Booted 1 s₀ ∧ stringNewsz s₀.mem 0 = .ok (str, m) ∧
    Runs (StringStep str) m [.set 16 ⟨[104, 105], by simp⟩, .addchar 33] m' ∧
    Holds m' str ⟨[104, 105, 33], by simp⟩ := by
  let kernel : Mem := ⟨fun a => if a = 16 then 104 else if a = 17 then 105 else 0, []⟩
  obtain ⟨⟨l, m₀⟩, hboot, ⟨str, m⟩, hnew, m₁, hset, m₂, hadd, hcells⟩ :
      ∃ r, memoryInit kernel 1 0 = .ok r ∧ ∃ q, stringNewsz r.2 0 = .ok q ∧
        ∃ m₁, stringSet q.2 q.1 16 = .ok m₁ ∧ ∃ m₂, stringAddchar m₁ q.1 33 = .ok m₂ ∧
          (q.2.load8 16, q.2.load8 17, q.2.load8 18) = (104, 105, 0) := by
    have h : (do
        let r ← memoryInit kernel 1 0
        let q ← stringNewsz r.2 0
        let m₁ ← stringSet q.2 q.1 16
        let _ ← stringAddchar m₁ q.1 33
        Except.ok (q.2.load8 16, q.2.load8 17, q.2.load8 18)).toOption = some (104, 105, 0) := by decide +kernel
    simpa only [Except.toOption_eq_some, Except.bind_ok_iff, Except.ok.injEq] using h
  let s₀ : HeapState := ⟨m₀, [l], [l]⟩
  have hbooted : Booted 1 s₀ := ⟨by decide, by decide, kernel, 0, l, m₀, hboot, rfl⟩
  have hops : Runs (StringStep str) m [.set 16 ⟨[104, 105], by simp⟩, .addchar 33] m₂ := by
    obtain ⟨H, hi⟩ := EverStep.run hbooted .nil
    obtain ⟨H', -, hs, -⟩ := stringNewsz_ok hi.rep hi.not_untouched (by decide) hnew
    simp only [Prod.mk.injEq] at hcells
    have harg : Argument m str 16 ⟨[104, 105], by simp⟩ :=
      .below hs.rep (by decide) ⟨hcells.1, by decide, hcells.2.1, by decide, hcells.2.2⟩ (by decide)
    exact .cons ⟨harg, hset⟩ (.single ⟨trivial, hadd⟩)
  exact ⟨s₀, str, m, m₂, hbooted, hnew, hops, (string_refines hbooted .nil (by decide) hnew hops).2.1⟩

end StringRuns

end Ssmos

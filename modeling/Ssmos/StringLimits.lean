/-
Where a size or a terminator of `lib/string.c` is not what it should be:
`strncat` leaves its result open, `string_trim` keeps a byte too many, and
`string_fromchar` copies into a buffer of one byte.
-/
import Ssmos.StringFacts

namespace Ssmos

/-! ## `strncat` -/

section

variable {m : Mem} {d s : List UInt8} {dest src n x y : Nat}

/-- The copied chars are a C string if a zero happens to follow them. -/
theorem strncatLoop_spec (h : CStr m y s) (hx : x + min n s.length < 2 ^ 32) (hy : y + s.length < 2 ^ 32)
    (hapart : x + min n s.length ≤ y ∨ y + s.length < x) :
    Wrote m (strncatLoop n m x y) (Set.Ico x (x + min n s.length)) ∧
      (CStr (strncatLoop n m x y) x (s.take n) ↔
        (strncatLoop n m x y).load8 (x + min n s.length) = 0) := by
  induction n generalizing m x y s with
  | zero => exact ⟨.refl _ _, by simp [strncatLoop, CStr]⟩
  | succ n ih =>
    cases s with
    | nil =>
      have hzero : m.load8 y = 0 := h
      rw [strncatLoop, if_pos hzero]
      exact ⟨.refl _ _, by simp [CStr]⟩
    | cons c cs =>
      obtain ⟨hc, hne, hcs⟩ := h
      have hmin : min (n + 1) (c :: cs).length = min n cs.length + 1 := by
        rw [List.length_cons]
        omega
      rw [hmin] at hx hapart ⊢
      rw [List.length_cons] at hy hapart
      rw [strncatLoop, if_neg (by rw [hc]; exact hne), hc, wrap_of_lt (by omega), wrap_of_lt (by omega)]
      have hw : Wrote m (m.store8 x c) {x} := .store8_singleton (by omega)
      have hrest : CStr (m.store8 x c) (y + 1) cs := hcs.frame hw (by omega) fun a h₁ h₂ ha => by
        rw [Set.mem_singleton_iff] at ha
        omega
      obtain ⟨hwrote, hiff⟩ := ih hrest (x := x + 1) (by omega) (by omega) (by omega)
      have hfirst : (strncatLoop n (m.store8 x c) (x + 1) (y + 1)).load8 x = c := by
        rw [hwrote.load8_eq_Ico (by omega) (by omega)]
        exact Mem.load8_store8_same _ _ _
      refine ⟨(hw.mono ?_).trans (hwrote.mono ?_), ?_⟩
      · rw [Set.singleton_subset_iff, Set.mem_Ico]
        omega
      · exact Set.Ico_subset_Ico (by omega) (by omega)
      · rw [List.take_succ_cons, CStr, hiff, and_iff_right hfirst, and_iff_right hne,
          show x + 1 + min n cs.length = x + (min n cs.length + 1) by omega]

/-- **`strncat`** makes the concatenation exactly if the byte after it is zero already. -/
theorem strncat_terminated_iff (hd : CStr m dest d) (hs : CStr m src s) (hdest : dest ≠ NULL)
    (hsrc : src ≠ NULL) (hroom : dest + (d.length + min n s.length) < 2 ^ 32) (hlt : src + s.length < 2 ^ 32)
    (hapart : dest + (d.length + min n s.length) < src ∨ src + s.length < dest) :
    ∃ m', strncat m dest src n = .ok (dest, m') ∧
      (CStr m' dest (d ++ s.take n) ↔ m.load8 (dest + (d.length + min n s.length)) = 0) := by
  by_cases hn : n < 1
  · obtain rfl : n = 0 := by omega
    refine ⟨m, if_pos (.inr (.inr hn)), ?_⟩
    simp [hd, hd.zero]
  have hstrncat : strncat m dest src n = .ok (dest, strncatLoop n m (dest + d.length) src) := by
    have hend := hd.endOf_eq (n := loopBound) (by simp only [loopBound]; omega) (by omega)
    rw [strncat, if_neg (by simp [hdest, hsrc]; omega), hend]
    rfl
  obtain ⟨hwrote, hiff⟩ := strncatLoop_spec hs (n := n) (x := dest + d.length) (by omega) hlt (by omega)
  have hafter : (strncatLoop n m (dest + d.length) src).load8 (dest + (d.length + min n s.length)) =
      m.load8 (dest + (d.length + min n s.length)) :=
    hwrote.load8_eq_Ico (by omega) (by omega)
  refine ⟨_, hstrncat, ?_, ?_⟩
  · intro hresult
    have hzero := hresult.zero
    rwa [List.length_append, List.length_take, hafter] at hzero
  · intro hzero
    rw [← hafter, ← Nat.add_assoc] at hzero
    refine hd.append (by omega) (fun i hi => ?_) (hiff.mpr hzero)
    exact hwrote.load8_eq_Ico (by omega) (by omega)

/-- `hi` at 16, a byte `0x41` behind its end, and `!` at 32. -/
def reused : Mem :=
  ⟨fun a => if a = 16 then 104 else if a = 17 then 105 else if a = 19 then 0x41 else if a = 32 then 33 else 0, []⟩

/-- To the empty text at 20 the `!` is added as it should be, to `hi` it is not. -/
theorem strncat_terminated_iff_reused : (∃ m', strncat reused 20 32 1 = .ok (20, m') ∧ CStr m' 20 [33]) ∧
    ∃ m', strncat reused 16 32 1 = .ok (16, m') ∧ ¬CStr m' 16 [104, 105, 33] := by
  have hmark : CStr reused 32 [33] := ⟨rfl, by decide, rfl⟩
  obtain ⟨m₁, hempty, hiff₁⟩ := strncat_terminated_iff (n := 1) (show CStr reused 20 [] from rfl) hmark (by decide)
    (by decide) (by decide) (by decide) (by decide)
  obtain ⟨m₂, hhi, hiff₂⟩ := strncat_terminated_iff (n := 1) (show CStr reused 16 [104, 105] from
    ⟨rfl, by decide, rfl, by decide, rfl⟩) hmark (by decide) (by decide) (by decide) (by decide) (by decide)
  exact ⟨⟨m₁, hempty, hiff₁.mpr (by decide)⟩, m₂, hhi, fun h => absurd (hiff₂.mp h) (by decide)⟩

/-- The stale byte behind the old terminator becomes part of the result. -/
theorem strncat_runs_on : ∃ m', strncat reused 16 32 1 = .ok (16, m') ∧ ¬CStr m' 16 [104, 105, 33] := by
  refine ⟨_, rfl, fun h => ?_⟩
  exact absurd h.zero (by decide)

end

/-! ## `string_trim` -/

section

variable {heapsize : Nat} {m m' : Mem} {H : Heap heapsize} {str d : Nat} {t u : Text}

/-- All unused space is gone. -/
structure Trimmed (m : Mem) (str : Nat) (t : Text) (m' : Mem) : Prop where
  content : CStr m' (m'.data str) t.chars
  size : m'.size str = t.length + 1
  padding : stringPadding m' str = .ok 0
  shrunk : m'.size str ≤ m.size str
  again : ∃ m'', stringTrim m' str = .ok m'' ∧ CStr m'' (m''.data str) t.chars ∧ m''.size str = m'.size str

/-- **`string_trim`** halts for want of memory, or leaves the text in a buffer
that is a byte too large: it never trims all. -/
theorem stringTrim_never_trims (h : StrRep m H str t) :
    (stringTrim m str = .error outOfMemory ∨ ∃ m', stringTrim m str = .ok m' ∧
      CStr m' (m'.data str) t.chars ∧ m'.size str = t.length + 2) ∧
    ¬∃ m', stringTrim m str = .ok m' ∧ Trimmed m str t m' := by
  rcases stringTrim_spec h with hr | ⟨m₁, H₁, hr, hs, hsize⟩
  · refine ⟨.inl hr, fun hx => ?_⟩
    obtain ⟨m', hok, -⟩ := hx
    rw [hr] at hok
    cases hok
  · refine ⟨.inr ⟨m₁, hr, hs.rep.content, hsize⟩, fun hx => ?_⟩
    obtain ⟨m', hok, htrimmed⟩ := hx
    rw [hr] at hok
    cases hok
    have := htrimmed.size
    omega

/-- `string_newsz(0)` right after the boot, with `hello` at address 16. -/
theorem hello_booted : ∃ s₀ str m, ∃ H : Heap 1, Booted 1 s₀ ∧ Rep s₀.mem H ∧ ¬untouched s₀.mem ∧
    CStr s₀.mem 16 [104, 101, 108, 108, 111] ∧ stringNewsz s₀.mem 0 = .ok (str, m) ∧
    (∃ m', stringTrim m str = .ok m' ∧ m'.size str = 2) ∧
    ∃ q m', stringFromchar s₀.mem 16 = .ok (q, m') ∧ m'.size q = 1 := by
  let kernel : Mem := ⟨fun a => [104, 101, 108, 108, 111].getD (a - 16) 0, []⟩
  obtain ⟨⟨l, m₀⟩, hboot, ⟨str, m⟩, hnew, m₁, htrim, ⟨q, m₂⟩, hfrom, hcells⟩ :
      ∃ r, memoryInit kernel 1 0 = .ok r ∧ ∃ p, stringNewsz r.2 0 = .ok p ∧
        ∃ m₁, stringTrim p.2 p.1 = .ok m₁ ∧ ∃ q, stringFromchar r.2 16 = .ok q ∧
          ((List.range 6).map (fun i => r.2.load8 (16 + i)), m₁.size p.1, q.2.size q.1) =
            ([104, 101, 108, 108, 111, 0], 2, 1) := by
    have h : (do
        let r ← memoryInit kernel 1 0
        let p ← stringNewsz r.2 0
        let m₁ ← stringTrim p.2 p.1
        let q ← stringFromchar r.2 16
        Except.ok ((List.range 6).map (fun i => r.2.load8 (16 + i)), m₁.size p.1, q.2.size q.1)).toOption =
        some ([104, 101, 108, 108, 111, 0], 2, 1) := by decide +kernel
    simpa only [Except.toOption_eq_some, Except.bind_ok_iff, Except.ok.injEq] using h
  have hbooted : Booted 1 ⟨m₀, [l], [l]⟩ := ⟨by decide, by decide, kernel, 0, l, m₀, hboot, rfl⟩
  obtain ⟨H, hi⟩ := EverStep.run hbooted .nil
  simp only [Prod.mk.injEq, List.range, List.range.loop, List.map, List.cons.injEq] at hcells
  obtain ⟨⟨h₀, h₁, h₂, h₃, h₄, h₅, -⟩, hsize₁, hsize₂⟩ := hcells
  exact ⟨_, str, m, H, hbooted, hi.rep, hi.not_untouched, ⟨h₀, by decide, h₁, by decide, h₂, by decide, h₃,
    by decide, h₄, by decide, h₅⟩, hnew, ⟨m₁, htrim, hsize₁⟩, q, m₂, hfrom, hsize₂⟩

theorem stringTrim_never_trims_new : ∃ s₀ str m, Booted 1 s₀ ∧ stringNewsz s₀.mem 0 = .ok (str, m) ∧
    (stringTrim m str = .error outOfMemory ∨ ∃ m', stringTrim m str = .ok m' ∧
      CStr m' (m'.data str) [] ∧ m'.size str = 2) ∧
    ¬∃ m', stringTrim m str = .ok m' ∧ Trimmed m str .empty m' := by
  obtain ⟨s₀, str, m, H, hbooted, hr, hu, -, hnew, -, -⟩ := hello_booted
  obtain ⟨H', -, hs, -⟩ := stringNewsz_ok hr hu (by decide) hnew
  exact ⟨s₀, str, m, hbooted, hnew, stringTrim_never_trims hs⟩

/-- A new string has no unused space, and `string_trim` gives it a byte. -/
theorem stringTrim_grows : ∃ s₀ str m, Booted 1 s₀ ∧ stringNewsz s₀.mem 0 = .ok (str, m) ∧
    ¬∃ m', stringTrim m str = .ok m' ∧ Trimmed m str .empty m' := by
  obtain ⟨s₀, str, m, H, hbooted, -, -, -, hnew, ⟨m₁, htrim, hsize⟩, -⟩ := hello_booted
  refine ⟨s₀, str, m, hbooted, hnew, fun hx => ?_⟩
  obtain ⟨m', hok, htrimmed⟩ := hx
  rw [htrim] at hok
  cases hok
  have : m₁.size str = 1 := htrimmed.size
  omega

/-! ## `string_fromchar` -/

/-- A C string in no header and in no free block. -/
structure Stored (m : Mem) (H : Heap heapsize) (d : Nat) (u : Text) : Prop where
  ne_null : d ≠ NULL
  content : CStr m d u.chars
  lt : d + u.length < 2 ^ 32
  kept : ∀ a, d ≤ a → a ≤ d + u.length → ¬H.Spare a

/-- `string_fromchar` makes a string of the text, with room for it, and the copy
stays in the block of its buffer. -/
def CopiesSafely (m : Mem) (d : Nat) (u : Text) : Prop :=
  ∃ str m₁ m', stringNew m = .ok (str, m₁) ∧ strcpy m₁ (m₁.data str) d = .ok m' ∧
    stringFromchar m d = .ok (str, m') ∧ CStr m' (m'.data str) u.chars ∧ u.length + 1 ≤ m'.size str ∧
    Wrote m₁ m' (Set.Ico (m₁.data str) (m₁.data str + m₁.blockSize (toHeader (m₁.data str))))

/-- The copy of an empty string is its terminator. -/
theorem strcpy_empty {d e : Nat} (hd : d ≠ NULL) (he : e ≠ NULL) (hzero : m.load8 e = 0) :
    strcpy m d e = .ok (m.store8 d 0) := by
  rw [strcpy, if_neg (by simp [hd, he])]
  simp [strcpyLoop, loopBound, hzero]

/-- **`string_fromchar`** is safe for the empty text alone, if there is room for a
string: the buffer it copies to is the one `string_new` makes, of one byte. -/
theorem stringFromchar_safe_iff (hr : Rep m H) (hu : ¬untouched m) (hd : Stored m H d u) :
    CopiesSafely m d u ↔ u.chars = [] ∧ (H.newString 0).isSome := by
  have hfrom : stringFromchar m d = (do
      let made ← stringNew m
      .ok (made.1, ← strcpy made.2 (made.2.data made.1) d)) := by
    rw [stringFromchar, if_neg hd.ne_null, hd.content.strlen_eq hd.ne_null hd.lt]
    rfl
  rcases stringNewsz_spec hr hu (by decide : 0 ≤ 2 ^ 32 - 5) with
    ⟨hnone, hnew⟩ | ⟨str, m₁, H₁, hsome, hnew, hs, hsize, hw, hreach⟩
  · refine iff_of_false (fun hx => ?_) (by simp [hnone])
    obtain ⟨str, m₁, m', hnew', -⟩ := hx
    rw [stringNew, hnew] at hnew'
    cases hnew'
  obtain ⟨k, hk, hstruct⟩ := hs.struct
  obtain ⟨n, hn, hbuffer⟩ := hs.buffer
  have hblock : m₁.blockSize (toHeader (m₁.data str)) = n := by
    obtain ⟨b, hb, -, hdata, rfl⟩ := hbuffer
    rw [← hdata]
    exact hs.rep.blockSize_eq hb
  simp only [hsome, Option.isSome_some, and_true]
  refine ⟨fun hx => ?_, fun hempty => ?_⟩
  · -- The copy left the struct alone, and that says there is one byte.
    obtain ⟨str', m₁', m', hnew', -, -, -, hroom, hcopy⟩ := hx
    rw [stringNew, hnew] at hnew'
    cases hnew'
    have hslt := hstruct.lt
    have hapart := hstruct.apart hbuffer hs.apart.symm
    simp only [STRING_SIZE] at hk
    have hkept : m'.size str = m₁.size str := hcopy.load32_eq (by omega) fun x _ _ hx => by
      rw [hblock, Set.mem_Ico] at hx
      omega
    rw [hkept, hsize] at hroom
    exact List.eq_nil_of_length_eq_zero (by simp only [Text.length] at hroom; omega)
  · have hstored : CStr m₁ d u.chars := hd.content.frame hw hd.lt fun x h₁ h₂ hx =>
      hd.kept x h₁ h₂ (hreach x hx)
    rw [hempty] at hstored
    have hcpy := strcpy_empty hs.data_ne_null hd.ne_null hstored
    have hlt := hbuffer.lt
    have hcopy : Wrote m₁ (m₁.store8 (m₁.data str) 0) (Set.Ico (m₁.data str) (m₁.data str + m₁.size str)) :=
      .store8_Ico (by omega) (by omega) (by omega)
    obtain ⟨hdata', hsize'⟩ := hs.fields_eq hcopy
    refine ⟨str, m₁, _, hnew, hcpy, ?_, ?_, ?_, hcopy.mono ?_⟩
    · simp only [hfrom, stringNew, hnew, Except.ok_bind, hcpy]
    · rw [hdata', hempty]
      exact Mem.load8_store8_same _ _ _
    · rw [hsize', hsize, Text.length, hempty]
      exact Nat.le_refl _
    · exact Set.Ico_subset_Ico_right (by omega)

/-- Not `hello`, but what is left behind its last char. -/
theorem stringFromchar_safe_iff_hello : ∃ s₀, Booted 1 s₀ ∧
    ¬CopiesSafely s₀.mem 16 ⟨[104, 101, 108, 108, 111], by simp⟩ ∧ CopiesSafely s₀.mem 21 ⟨[], nofun⟩ := by
  obtain ⟨s₀, str, m, H, hbooted, hr, hu, hhello, hnew, -, -⟩ := hello_booted
  have hlow : ∀ a, a ≤ 21 → ¬H.Spare a := fun a ha hs => by
    have := hs.start_le
    omega
  have hroom : (H.newString 0).isSome := by
    rcases stringNewsz_spec hr hu (by decide : 0 ≤ 2 ^ 32 - 5) with ⟨-, hfull⟩ | ⟨_, _, _, hsome, -⟩
    · rw [hnew] at hfull
      cases hfull
    · rw [hsome]
      rfl
  have hzero : CStr s₀.mem 21 [] := hhello.2.2.2.2.2.2.2.2.2.2
  refine ⟨s₀, hbooted, fun hx => ?_, ?_⟩
  · have hempty := ((stringFromchar_safe_iff hr hu
      ⟨by decide, hhello, by decide, fun a _ h₂ => hlow a h₂⟩).mp hx).1
    cases hempty
  · exact (stringFromchar_safe_iff hr hu
      ⟨by decide, hzero, by decide, fun a _ h₂ => hlow a h₂⟩).mpr ⟨rfl, hroom⟩

/-- The string made of `hello` says that its buffer has one byte. -/
theorem stringFromchar_overruns : ∃ s₀ str m, Booted 1 s₀ ∧ CStr s₀.mem 16 [104, 101, 108, 108, 111] ∧
    stringFromchar s₀.mem 16 = .ok (str, m) ∧ m.size str = 1 ∧
    ¬CopiesSafely s₀.mem 16 ⟨[104, 101, 108, 108, 111], by simp⟩ := by
  obtain ⟨s₀, -, -, -, hbooted, -, -, hhello, -, -, str, m, hok, hsize⟩ := hello_booted
  refine ⟨s₀, str, m, hbooted, hhello, hok, hsize, fun hx => ?_⟩
  obtain ⟨str', m₁, m', -, -, hok', -, hroom, -⟩ := hx
  rw [hok] at hok'
  cases hok'
  have hfive : 5 + 1 ≤ m.size str := hroom
  omega

end

end Ssmos

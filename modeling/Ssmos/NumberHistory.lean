/-
The history of `numbuffer`: every number written since the boot is still in it
when `tostring` refuses a base, and `string_addnum` adds what is in it all the
same.
-/
import Ssmos.NumberLimits

namespace Ssmos

/-! ## Calls -/

/-- What happens to the memory: a number is added to a string or drawn, or the
kernel does something else. -/
inductive NumberCall
  | addnum (str : Nat) (val base : Int)
  | kprintnum (pos : Nat) (val : Int) (color : UInt8) (base : Int)
  | other

/-- The bases that `tostring` takes. -/
def Supported (base : Int) : Prop := 2 ≤ base ∧ base ≤ 35

/-- The call leaves a number in `numbuffer`. -/
def NumberCall.fills : NumberCall → Prop
  | addnum _ _ base | kprintnum _ _ _ base => Supported base
  | other => False

def IsInt (val : Int) : Prop := -2 ^ 31 ≤ val ∧ val < 2 ^ 31

/-- The statics are below the heap, the digits apart from `room` bytes at
`numbuffer`: those of `nb`, and as many behind it as belong to nothing else. The
pointer `numbuffer` itself is not among them. -/
structure Layout (num numbuffer room : Nat) : Prop where
  ne_null : numbuffer ≠ NULL
  nb : MAX_INT_CHARS ≤ room
  buffer : numbuffer + room ≤ HEAP_START
  digits : num + 36 ≤ HEAP_START
  apart : num + 36 ≤ numbuffer ∨ numbuffer + room ≤ num

/-- What `tostring` writes of a number, with its terminator, is in the room. -/
def FitsRoom (room : Nat) (val base : Int) : Prop := Supported base → (written base.toNat val).length < room

instance (room : Nat) (val base : Int) : Decidable (FitsRoom room val base) :=
  inferInstanceAs (Decidable (2 ≤ base ∧ base ≤ 35 → _))

/-- The strings are dynamic strings of some heap, and the numbers fit; whatever
else the kernel does leaves the digits and the room at `numbuffer` alone. -/
def NumberStep (num numbuffer room : Nat) (m : Mem) : NumberCall → Mem → Prop
  | .addnum str val base, m' => IsInt val ∧ FitsRoom room val base ∧
      (∃ heapsize, ∃ H : Heap heapsize, ∃ t, StrRep m H str t) ∧
      stringAddnum num numbuffer m str val base = .ok (numbuffer, m')
  | .kprintnum pos val color base, m' => IsInt val ∧ FitsRoom room val base ∧
      ∃ v v', kprintnum num numbuffer m v pos val color base = .ok (m', v')
  | .other, m' => ∀ a, numbuffer ≤ a ∧ a < numbuffer + room ∨ num ≤ a ∧ a < num + 36 →
      m'.load8 a = m.load8 a

/-- In `nb` itself a number fits if it is short enough. -/
theorem fitsRoom_iff {val base : Int} : FitsRoom MAX_INT_CHARS val base ↔ (Supported base → FitsNumbuffer val base) :=
  forall_congr' fun hbase => written_fits val hbase.1

/-- Every `int` fits in 34 bytes, in every base. -/
theorem IsInt.fitsRoom {room : Nat} {val base : Int} (hval : IsInt val) (hroom : 34 ≤ room) :
    FitsRoom room val base := fun hbase => by
  have := written_length_le hval.1 hval.2 (b := base.toNat) (by have := hbase.1; omega)
  omega

/-! ## What is in the buffer -/

section

variable {heapsize : Nat} {m m' : Mem} {H : Heap heapsize} {num numbuffer room str d n a q : Nat} {t u : Text}
  {val base : Int} {p : Prop} {cs ds : List UInt8} {calls : List NumberCall}

/-- The digits are in place, and the string in `numbuffer` is empty as long as
no number was put there. -/
structure Buffered (num numbuffer room : Nat) (m : Mem) (used : Prop) : Prop where
  table : Table m num
  string : ∃ u : Text, CStr m numbuffer u.chars ∧ u.length < room ∧ (u.chars = [] ↔ ¬used)

theorem Buffered.frame (h : Buffered num numbuffer room m p)
    (hm : ∀ a, numbuffer ≤ a ∧ a < numbuffer + room ∨ num ≤ a ∧ a < num + 36 → m'.load8 a = m.load8 a) :
    Buffered num numbuffer room m' p := by
  obtain ⟨u, hu, hle, hiff⟩ := h.string
  refine ⟨⟨fun i hi => ?_, h.table.lt⟩, u, hu.congr fun i hi => hm _ (.inl ?_), hle, hiff⟩
  · rw [numChars_length] at hi
    rw [hm _ (.inr (by omega)), h.table.bytes i (by rw [numChars_length]; exact hi)]
  · simp only [Text.length] at hle
    omega

/-- A base that `tostring` does not take changes nothing. -/
theorem tostring_unsupported (hbase : ¬Supported base) : m.tostring num val d base = .ok m := by
  unfold Supported at hbase
  rw [Mem.tostring]
  split
  · rfl
  · rw [if_pos (by omega)]

theorem tostring_buffered (hlay : Layout num numbuffer room) (hval : IsInt val) (hfits : FitsRoom room val base)
    (h : Buffered num numbuffer room m p) (hrun : m.tostring num val numbuffer base = .ok m') :
    Buffered num numbuffer room m' (p ∨ Supported base) ∧ Wrote m m' (Set.Ico numbuffer (numbuffer + room)) := by
  by_cases hbase : Supported base
  · obtain ⟨b, rfl⟩ := Int.eq_ofNat_of_zero_le (show 0 ≤ base by have := hbase.1; omega)
    have hb : 1 < b := by have := hbase.1; omega
    have hlen := hfits hbase
    rw [Int.toNat_natCast] at hlen
    have hpos := written_length_pos b val
    have hlow := hlay.buffer
    have hapart := hlay.apart
    simp only [HEAP_START] at hlow
    obtain ⟨m₁, hrun', hspec⟩ := tostring_spec m num hval.1 hval.2 hb (by have := hbase.2; omega)
      hlay.ne_null (by omega)
    rw [hrun'] at hrun
    cases hrun
    have hwrote := hspec.wrote.mono (Set.Ico_subset_Ico_right (show _ ≤ numbuffer + room by omega))
    have hfirst : m'.load8 numbuffer ≠ 0 := by
      by_cases hneg : val < 0
      · rw [hspec.sign hneg]
        decide
      · have hcontent := hspec.content (by omega) h.table (by omega)
        obtain ⟨c, cs, hcons⟩ := List.exists_cons_of_length_pos hpos
        rw [hcons] at hcontent
        exact fun hz => hcontent.2.1 (hcontent.1 ▸ hz)
    obtain ⟨u, hu, hle⟩ := CStr.exists_text hspec.zero
    refine ⟨⟨h.table.frame hwrote fun x h₁ h₂ hx => ?_, u, hu, by omega, iff_of_false (fun he => ?_) ?_⟩, hwrote⟩
    · rw [Set.mem_Ico] at hx
      omega
    · rw [he] at hu
      exact hfirst hu
    · simp [hbase]
  · rw [tostring_unsupported hbase] at hrun
    cases hrun
    simpa [hbase] using ⟨h, Wrote.refl m _⟩

/-- What `string_addnum` does after its number is written down. -/
theorem stringAddnum_eq (hlay : Layout num numbuffer room) (h : StrRep m H str t) {m₁ : Mem}
    (hrun : m.tostring num val numbuffer base = .ok m₁) : stringAddnum num numbuffer m str val base =
      (stringAdd m₁ str numbuffer).map (numbuffer, ·) := by
  rw [stringAddnum, if_neg h.ne_null, if_neg hlay.ne_null]
  simp only [Except.ok_bind, hrun]
  cases stringAdd m₁ str numbuffer <;> rfl

/-- `numbuffer` may be passed to the string functions. -/
theorem Layout.arg (hlay : Layout num numbuffer room) (hu : CStr m numbuffer u.chars) (hlt : u.length < room) :
    Arg m H str numbuffer u := by
  have hlow := hlay.buffer
  simp only [HEAP_START] at hlow
  exact ⟨hlay.ne_null, hu, by omega, fun a _ h₂ => foreign_below (by simp only [HEAP_START]; omega)⟩

/-- **Each call** keeps the digits in place, and fills the buffer exactly if its
base is supported. -/
theorem NumberStep.buffered {e : NumberCall} (hlay : Layout num numbuffer room)
    (hstep : NumberStep num numbuffer room m e m') (h : Buffered num numbuffer room m p) :
    Buffered num numbuffer room m' (p ∨ e.fills) := by
  cases e with
  | addnum str val base =>
    obtain ⟨hval, hfits, hstr, hrun⟩ := hstep
    obtain ⟨heapsize, H, t, hstr⟩ := hstr
    cases htostring : m.tostring num val numbuffer base with
    | error e => simp [stringAddnum, hstr.ne_null, hlay.ne_null, htostring] at hrun
    | ok m₁ =>
      obtain ⟨hbuf, hw⟩ := tostring_buffered hlay hval hfits h htostring
      have hlow := hlay.buffer
      have hdigits := hlay.digits
      have hstr₁ := hstr.below hw fun x hx => by
        rw [Set.mem_Ico] at hx
        omega
      obtain ⟨u, hu, hle, -⟩ := hbuf.string
      rw [stringAddnum_eq hlay hstr htostring] at hrun
      rcases stringAdd_spec hstr₁ (hlay.arg hu hle) with hadd | ⟨m₂, H₂, hadd, hserves⟩
      · rw [hadd] at hrun
        cases hrun
      · rw [hadd] at hrun
        cases hrun
        -- The string's own blocks are in the heap.
        refine hbuf.frame fun a ha => hserves.wrote.load8_eq ?_
        have hlt : a < HEAP_START := by omega
        simp only [HEAP_START] at hlt
        rw [wrap_of_lt (by omega)]
        exact hserves.rep.not_reach (hserves.foreign a (foreign_below (by simp only [HEAP_START]; omega)))
  | kprintnum pos val color base =>
    obtain ⟨hval, hfits, v, v', hrun⟩ := hstep
    obtain ⟨m₁, htostring, heq⟩ := Except.bind_ok_iff.mp hrun
    cases heq
    exact (tostring_buffered hlay hval hfits h htostring).1
  | other => simpa [NumberCall.fills] using h.frame hstep

/-- So does every run of them. -/
theorem NumberStep.run_buffered (hlay : Layout num numbuffer room)
    (hrun : Runs (NumberStep num numbuffer room) m calls m') (h : Buffered num numbuffer room m p) :
    Buffered num numbuffer room m' (p ∨ ∃ e ∈ calls, e.fills) := by
  induction hrun generalizing p with
  | nil => simpa using h
  | cons hstep _ ih => simpa [or_assoc] using ih (hstep.buffered hlay h)

/-! ## A base that is not supported -/

/-- **`string_addnum` with an unsupported base**, after any calls since the
boot, leaves the string's content as it was exactly if no number was written
down before; otherwise it adds what is left of the last one. -/
theorem stringAddnum_unsupported_iff {m₀ : Mem} (hlay : Layout num numbuffer room) (htable : Table m₀ num)
    (hzero : m₀.load8 numbuffer = 0) (hrun : Runs (NumberStep num numbuffer room) m₀ calls m)
    (hstr : StrRep m H str t) (hbase : ¬Supported base) :
    stringAddnum num numbuffer m str val base = .error outOfMemory ∨
      ∃ m', stringAddnum num numbuffer m str val base = .ok (numbuffer, m') ∧
        (CStr m' (m'.data str) t.chars ↔ ∀ e ∈ calls, ¬e.fills) := by
  have hroom := hlay.nb
  have hstart : Buffered num numbuffer room m₀ False :=
    ⟨htable, .empty, hzero, Nat.lt_of_lt_of_le (by decide) hroom, iff_of_true rfl id⟩
  obtain ⟨u, hu, hle, hiff⟩ := (NumberStep.run_buffered hlay hrun hstart).string
  rw [false_or] at hiff
  rw [stringAddnum_eq hlay hstr (tostring_unsupported hbase)]
  rcases stringAdd_spec hstr (hlay.arg hu hle) with hadd | ⟨m', H', hadd, hserves⟩
  · exact .inl (by rw [hadd]; rfl)
  · refine .inr ⟨m', by rw [hadd]; rfl, ?_⟩
    have hcontent : CStr m' (m'.data str) (t.chars ++ u.chars) := hserves.rep.content
    calc CStr m' (m'.data str) t.chars
      _ ↔ u.chars = [] :=
        ⟨fun h => List.append_right_eq_self.mp (hcontent.unique h), fun h => by simpa [h] using hcontent⟩
      _ ↔ ∀ e ∈ calls, ¬e.fills := by rw [hiff]; simp

/-- The digits at 64 and `numbuffer` at 128, a new string, and a 7 drawn. -/
theorem seven_booted : ∃ s₀ str m m₁, ∃ H : Heap 1, Booted 1 s₀ ∧ stringNewsz s₀.mem 0 = .ok (str, m) ∧
    Layout 64 128 MAX_INT_CHARS ∧ Table m 64 ∧ m.load8 128 = 0 ∧
    StrRep m H str .empty ∧ (stringAddnum 64 128 m str 0 1).toOption.isSome ∧
    Runs (NumberStep 64 128 MAX_INT_CHARS) m [.kprintnum 0 7 0x07 10] m₁ ∧ StrRep m₁ H str .empty ∧
    ∃ m', stringAddnum 64 128 m₁ str 0 1 = .ok (128, m') ∧ m'.load8 (m'.data str) = 0x37 := by
  let kernel : Mem := ⟨fun a => numChars.getD (a - 64) 0, []⟩
  obtain ⟨⟨l, m₀⟩, hboot, ⟨str, m⟩, hnew, m₁, htostring, ⟨n, m'⟩, hadd, hcells⟩ :
      ∃ r, memoryInit kernel 1 0 = .ok r ∧ ∃ q, stringNewsz r.2 0 = .ok q ∧
        ∃ m₁, q.2.tostring 64 7 128 10 = .ok m₁ ∧ ∃ x, stringAddnum 64 128 m₁ q.1 0 1 = .ok x ∧
          (decide (BytesAt q.2 64 numChars), q.2.load8 128, (stringAddnum 64 128 q.2 q.1 0 1).toOption.isSome, x.1,
            x.2.load8 (x.2.data q.1)) = (true, 0, true, 128, 0x37) := by
    have h : (do
        let r ← memoryInit kernel 1 0
        let q ← stringNewsz r.2 0
        let m₁ ← q.2.tostring 64 7 128 10
        let x ← stringAddnum 64 128 m₁ q.1 0 1
        Except.ok (decide (BytesAt q.2 64 numChars), q.2.load8 128,
          (stringAddnum 64 128 q.2 q.1 0 1).toOption.isSome, x.1, x.2.load8 (x.2.data q.1))).toOption =
        some (true, 0, true, 128, 0x37) := by decide +kernel
    simpa only [Except.toOption_eq_some, Except.bind_ok_iff, Except.ok.injEq] using h
  have hbooted : Booted 1 ⟨m₀, [l], [l]⟩ := ⟨by decide, by decide, kernel, 0, l, m₀, hboot, rfl⟩
  have hlay : Layout 64 128 MAX_INT_CHARS := ⟨by decide, by decide, by decide, by decide, by decide⟩
  simp only [Prod.mk.injEq, decide_eq_true_eq] at hcells
  obtain ⟨hbytes, hzero, hadds, rfl, hseven⟩ := hcells
  have htable : Table m 64 := ⟨hbytes, by decide⟩
  obtain ⟨H, hi⟩ := EverStep.run hbooted .nil
  obtain ⟨H', -, hs, -⟩ := stringNewsz_ok hi.rep hi.not_untouched (by decide) hnew
  have hval : IsInt 7 := ⟨by decide, by decide⟩
  have hfits : FitsRoom MAX_INT_CHARS 7 10 := by decide
  have hempty : Buffered 64 128 MAX_INT_CHARS m False := ⟨htable, .empty, hzero, by decide, iff_of_true rfl id⟩
  have hw := (tostring_buffered hlay hval hfits hempty htostring).2
  let screen : Video := ⟨fun _ => 0, 0, []⟩
  have hstep : NumberStep 64 128 MAX_INT_CHARS m (.kprintnum 0 7 0x07 10) m₁ :=
    ⟨hval, hfits, screen, screen.kprint 0 (m₁.chars FRAMEBUFFER_SIZE 128) 0x07, by rw [kprintnum, htostring]; rfl⟩
  refine ⟨_, str, m, m₁, H', hbooted, hnew, hlay, htable, hzero, hs, hadds, .single hstep,
    hs.below hw fun x hx => ?_, _, hadd, hseven⟩
  rw [Set.mem_Ico] at hx
  simp only [HEAP_START]
  have hroom : MAX_INT_CHARS = 15 := rfl
  omega

/-- A number in base 1, added to it before anything was drawn, adds nothing, and
after the 7 something. -/
theorem stringAddnum_unsupported_iff_seven : ∃ (str : Nat) (m m₁ m' m₁' : Mem),
    Runs (NumberStep 64 128 MAX_INT_CHARS) m [.kprintnum 0 7 0x07 10] m₁ ∧
    stringAddnum 64 128 m str 0 1 = .ok (128, m') ∧ CStr m' (m'.data str) [] ∧
    stringAddnum 64 128 m₁ str 0 1 = .ok (128, m₁') ∧ ¬CStr m₁' (m₁'.data str) [] := by
  obtain ⟨-, str, m, m₁, H, -, -, hlay, htable, hzero, hnew, hadds, hrun, hstr, _, hadd, -⟩ := seven_booted
  have hbase : ¬Supported 1 := by unfold Supported; decide
  have hbefore : stringAddnum 64 128 m str 0 1 = .error outOfMemory ∨ _ :=
    stringAddnum_unsupported_iff hlay htable hzero .nil hnew hbase
  have hafter : stringAddnum 64 128 m₁ str 0 1 = .error outOfMemory ∨ _ :=
    stringAddnum_unsupported_iff hlay htable hzero hrun hstr hbase
  rcases hbefore with herror | ⟨m', hok, hempty⟩
  · rw [herror] at hadds
    cases hadds
  rcases hafter with herror | ⟨m₁', hok₁, hseven⟩
  · rw [herror] at hadd
    cases hadd
  refine ⟨str, m, m₁, m', m₁', hrun, hok, hempty.mpr nofun, hok₁, fun hnone => ?_⟩
  exact hseven.mp hnone _ (List.mem_singleton.mpr rfl) (show Supported 10 by unfold Supported; decide)

/-- A number in base 1, added to an empty string after a 7 was drawn, is a 7. -/
theorem stringAddnum_stale : ∃ m m₁ str, ∃ H : Heap 1, Table m 64 ∧ m.load8 128 = 0 ∧
    Runs (NumberStep 64 128 MAX_INT_CHARS) m [.kprintnum 0 7 0x07 10] m₁ ∧ StrRep m₁ H str .empty ∧
    ∃ m', stringAddnum 64 128 m₁ str 0 1 = .ok (128, m') ∧ ¬CStr m' (m'.data str) Text.empty.chars := by
  obtain ⟨-, str, m, m₁, H, -, -, -, htable, hzero, -, -, hrun, hstr, m', hadd, hseven⟩ := seven_booted
  refine ⟨m, m₁, str, H, htable, hzero, hrun, hstr, m', hadd, fun hempty => ?_⟩
  have hzero : m'.load8 (m'.data str) = 0 := hempty
  rw [hseven] at hzero
  exact absurd hzero (by decide)

end

end Ssmos

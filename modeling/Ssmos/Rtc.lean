/-
The date and time that `time` reads from the real-time clock
(`kernel/commands.c`, `lib/cmos.c`). `CMOS_sync` waits for nothing, so the clock
may tick between any two of the reads. A field that it has carried out of by
then is read after the fields above it were, and before it.
-/
import Ssmos.LineEditor
import Ssmos.Base.Dials

namespace Ssmos

open Dials

/-! ## The clock -/

def daysIn (leap : Nat → Nat → Bool) (century year month : Nat) : Nat :=
  match month with
  | 2 => if leap century year then 29 else 28
  | 4 | 6 | 9 | 11 => 30
  | _ => 31

/-- Century, year, month, day, hours, minutes, seconds. -/
def calendar (leap : Nat → Nat → Bool) : Dials :=
  dial 0 99 fun century => dial 0 99 fun year => dial 1 12 fun month =>
    dial 1 (daysIn leap century year month) fun _ => dial 0 23 fun _ => dial 0 59 fun _ =>
      dial 0 59 fun _ => done

/-- A clock while it is read: any number of seconds passes between two reads. -/
structure Clock where
  /-- Which years the clock takes for leap years. -/
  leap : Nat → Nat → Bool
  /-- Whether its registers are binary coded decimal, or flat binary. -/
  bcd : Bool
  /-- The date and time at the `k`-th read. -/
  date : Nat → List Nat
  /-- How many updates fall between the `k`-th read and the next one. -/
  updates : Nat → Nat
  valid : (calendar leap).Valid (date 0)
  advances : ∀ k, (calendar leap).After (updates k) (date k) (date (k + 1))

def rtcRegisters : List Nat :=
  [CMOS_CENTURY, CMOS_YEARS, CMOS_MONTHS, CMOS_DAYOFMONTH, CMOS_HOURS, CMOS_MINUTES, CMOS_SECONDS]

def encode (bcd : Bool) (value : Nat) : UInt8 :=
  UInt8.ofNat (if bcd then value / 10 * 16 + value % 10 else value)

/-- What the `k`-th read of a register finds, `other` being what is no clock register. -/
def Clock.cmos (clock : Clock) (other : Nat → Nat → UInt8) (k reg : Nat) : UInt8 :=
  match rtcRegisters.idxOf? reg with
  | some i => encode clock.bcd ((clock.date k).getD i 0)
  | none => other k reg

def Env.withClock (env : Env) (clock : Clock) : Env := { env with cmos := clock.cmos env.cmos }

/-! ## What is printed -/

/-- Whether `time` takes the registers for binary coded decimal. -/
def bcdProbe (env : Env) : Bool := cmosRead env 0 CMOS_CENTURY true == CENTURY

/-- The numbers `time` assembles. -/
def assembled (env : Env) : List Nat :=
  let bcd := bcdProbe env
  [cmosRead env 1 CMOS_CENTURY bcd, cmosRead env 2 CMOS_YEARS bcd, cmosRead env 3 CMOS_MONTHS bcd,
    cmosRead env 4 CMOS_DAYOFMONTH bcd, cmosRead env 5 CMOS_HOURS bcd, cmosRead env 6 CMOS_MINUTES bcd,
    cmosRead env 7 CMOS_SECONDS bcd]

/-- What `time` prints for a date, and for the century it finds afterwards. -/
def Term.printTime (env : Env) (date : List Nat) (century : Nat) : Term Int := do
  let stringbuffer ← stringNew
  let seconds := env.ticks / 1000
  let minutes := seconds / 60
  stringSet stringbuffer (Text.lit "Uptime: ")
  addTime env stringbuffer (minutes / 60) (minutes % 60) (seconds % 60)
  writeline (← text stringbuffer)
  sti
  stringSet stringbuffer (Text.lit "Date/Time: ")
  stringAddnum env stringbuffer (date.getD 0 0) 10
  stringAddnum env stringbuffer (date.getD 1 0) 10
  stringAddchar stringbuffer 0x2F
  stringAddnum env stringbuffer (date.getD 2 0) 10
  stringAddchar stringbuffer 0x2F
  stringAddnum env stringbuffer (date.getD 3 0) 10
  stringAdd stringbuffer (Text.lit " - ")
  addTime env stringbuffer (date.getD 4 0) (date.getD 5 0) (date.getD 6 0)
  (if century ≠ CENTURY then writeline (Text.lit "WARNING! Real time may not be accurate.") else pure ())
  writeline (← text stringbuffer)
  stringFree stringbuffer
  return SIG_SUCCESS

/-- The command prints the numbers it assembles. -/
theorem Term.time_eq (env : Env) :
    Term.time env = Term.printTime env (assembled env) (cmosRead env 8 CMOS_CENTURY (bcdProbe env)) :=
  rfl

/-! ## When it was the date -/

namespace Clock

variable {clock : Clock}

/-- The date printed is one the clock had, at the first read, at the last one, or in between. -/
def Held (clock : Clock) (env : Env) : Prop :=
  ∃ date, (calendar clock.leap).Reaches (clock.date 0) date ∧
    (calendar clock.leap).Reaches date (clock.date 8) ∧ assembled (env.withClock clock) = date

/-- Field `i` at the first read. -/
def first (clock : Clock) (i : Nat) : Nat := (clock.date 0).getD i 0

/-- Field `i` when it is read itself, after the fields above it. -/
def atRead (clock : Clock) (i : Nat) : Nat := (clock.date (i + 1)).getD i 0

/-- An update before the read of field `i` carries out of it: a field above it
changes. -/
def CarriedOut (clock : Clock) (i : Nat) : Prop := (clock.date 0).take i ≠ (clock.date (i + 1)).take i

/-- Where the updates may fall. -/
structure Untorn (clock : Clock) : Prop where
  /-- If a carry out of a field comes too late for the fields above it, which
  were read as they were at first, it has grown back when it is read. -/
  grown : ∀ i < 7, (∀ j < i, clock.first j = clock.atRead j) → clock.CarriedOut i →
    clock.first i ≤ clock.atRead i
  /-- If a carry out of the day comes too late for a field above it, the month
  that was read has the day. -/
  day : (∃ j < 3, clock.atRead j ≠ (clock.date 4).getD j 0) →
    clock.atRead 3 ≤ daysIn clock.leap (clock.atRead 0) (clock.atRead 1) (clock.atRead 2)

/-- The century at the first read tells the format of the registers. -/
def recognised (clock : Clock) : Bool :=
  if clock.bcd then clock.first 0 == 20 else clock.first 0 != 26 && clock.first 0 != 32

/-- A value that is taken for one in the other format. -/
def misread (bcd : Bool) (value : Nat) : Nat :=
  if bcd then value / 10 * 16 + value % 10 else value / 16 * 10 + value % 16

/-- The format is told, or no field is above 9 when it is read: then it is the
same in both. -/
def Legible (clock : Clock) : Prop :=
  clock.recognised ∨ clock.bcd ∧ ∀ i < 7, clock.atRead i < 10

def Whole (clock : Clock) : Prop := clock.Legible ∧ clock.Untorn

/-- The updates between the first read and the `k`-th. -/
def before (clock : Clock) : Nat → Nat
  | 0 => 0
  | k + 1 => clock.before k + clock.updates k

/-- Those between the first read and the last one. -/
def elapsed (clock : Clock) : Nat := clock.before 8

/-! ## The calendar -/

theorem daysIn_bounds (leap : Nat → Nat → Bool) (century year month : Nat) :
    1 ≤ daysIn leap century year month ∧ daysIn leap century year month ≤ 31 := by
  unfold daysIn
  split
  next => cases leap century year <;> decide
  all_goals decide

theorem sound (leap : Nat → Nat → Bool) : (calendar leap).Sound := by
  refine ⟨by decide, fun c _ _ => ⟨by decide, fun y _ _ => ⟨by decide, fun m _ _ => ?_⟩⟩⟩
  refine ⟨(daysIn_bounds leap c y m).1, fun _ _ _ => ⟨by decide, fun _ _ _ => ⟨by decide, fun _ _ _ => ?_⟩⟩⟩
  exact ⟨by decide, fun _ _ _ => trivial⟩

/-- No field starts above 1, and all go further. -/
theorem spans (leap : Nat → Nat → Bool) : (calendar leap).Spans 1 := by
  refine ⟨by decide, by decide, fun c => ⟨by decide, by decide, fun y => ⟨by decide, by decide, fun m => ?_⟩⟩⟩
  refine ⟨by decide, ?_, fun _ => ⟨by decide, by decide, fun _ => ⟨by decide, by decide, fun _ => ?_⟩⟩⟩
  · unfold daysIn
    split
    next => cases leap c y <;> decide
    all_goals decide
  · exact ⟨by decide, by decide, fun _ => trivial⟩

theorem valid_date (k : Nat) : (calendar clock.leap).Valid (clock.date k) := by
  induction k with
  | zero => exact clock.valid
  | succ k ih => exact ((clock.advances k).reaches.spec (sound _) ih).1

theorem date_le {i j : Nat} (hij : i ≤ j) : clock.date i ≤ clock.date j := by
  induction hij with
  | refl => exact le_refl _
  | step _ ih => exact ih.trans ((clock.advances _).reaches.spec (sound _) (valid_date _)).2

theorem after_date (k : Nat) : (calendar clock.leap).After (clock.before k) (clock.date 0) (clock.date k) := by
  induction k with
  | zero => rfl
  | succ k ih => exact ih.trans (clock.advances k)

theorem before_le {i j : Nat} (hij : i ≤ j) : clock.before i ≤ clock.before j := by
  induction hij with
  | refl => exact le_refl _
  | step _ ih => exact Nat.le_add_right_of_le ih

theorem fields_of_valid {leap : Nat → Nat → Bool} {date : List Nat} (hvalid : (calendar leap).Valid date) :
    ∃ c y mo d h mi s, date = [c, y, mo, d, h, mi, s] ∧ c ≤ 99 ∧ y ≤ 99 ∧ (1 ≤ mo ∧ mo ≤ 12) ∧
      (1 ≤ d ∧ d ≤ daysIn leap c y mo) ∧ h ≤ 23 ∧ mi ≤ 59 ∧ s ≤ 59 := by
  simp only [calendar, valid_dial_iff, valid_done_iff] at hvalid
  obtain ⟨c, _, rfl, -, hc, y, _, rfl, -, hy, mo, _, rfl, hmo, hmo', d, _, rfl, hd, hd', h, _, rfl, -, hh,
    mi, _, rfl, -, hmi, s, _, rfl, -, hs, rfl⟩ := hvalid
  exact ⟨c, y, mo, d, h, mi, s, rfl, hc, hy, ⟨hmo, hmo'⟩, ⟨hd, hd'⟩, hh, hmi, hs⟩

theorem fields_bounds {leap : Nat → Nat → Bool} {date : List Nat} (h : (calendar leap).Valid date) :
    date.getD 0 0 ≤ 99 ∧ date.getD 1 0 ≤ 99 ∧ (1 ≤ date.getD 2 0 ∧ date.getD 2 0 ≤ 12) ∧
      1 ≤ date.getD 3 0 ∧ date.getD 4 0 ≤ 23 ∧ date.getD 5 0 ≤ 59 ∧ date.getD 6 0 ≤ 59 := by
  obtain ⟨c, y, mo, d, h, mi, s, rfl, hc, hy, hmo, hd, hh, hmi, hs⟩ := fields_of_valid h
  exact ⟨hc, hy, hmo, hd.1, hh, hmi, hs⟩

theorem length_date (k : Nat) : (clock.date k).length = 7 := by
  have hvalid : (calendar clock.leap).Valid (clock.date k) := valid_date k
  obtain ⟨_, _, _, _, _, _, _, hdate, -⟩ := fields_of_valid hvalid
  rw [hdate]
  rfl

/-- Every field fits in two digits. -/
theorem field_lt (k i : Nat) : (clock.date k).getD i 0 < 100 := by
  have hvalid : (calendar clock.leap).Valid (clock.date k) := valid_date k
  obtain ⟨c, y, mo, d, h, mi, s, hdate, hc, hy, hmo, hd, hh, hmi, hs⟩ := fields_of_valid hvalid
  have hdays := (daysIn_bounds clock.leap c y mo).2
  have hall : ∀ v ∈ clock.date k, v < 100 := by
    simp only [hdate, List.mem_cons, List.not_mem_nil, or_false]
    omega
  rw [List.getD_eq_getElem?_getD]
  cases hv : (clock.date k)[i]? with
  | none => decide
  | some v => exact hall v (List.mem_of_getElem? hv)

/-! ## The reads -/

theorem convert_encode : ∀ (bcd convert : Bool), ∀ value < 100,
    (let ret := (encode bcd value).toNat
     if convert then ret / 16 * 10 + ret % 16 else ret) =
      if convert = bcd then value else misread bcd value := by
  decide +kernel

theorem probe_encode : ∀ (bcd : Bool), ∀ value < 100,
    (let ret := (encode bcd value).toNat
     (ret / 16 * 10 + ret % 16 == CENTURY) = bcd) ↔
      (if bcd then value == 20 else value != 26 && value != 32) = true := by
  decide +kernel

theorem cmosRead_field (env : Env) (k : Nat) (convert : Bool) : ∀ i < 7,
    cmosRead (env.withClock clock) k (rtcRegisters.getD i 0) convert =
      if convert = clock.bcd then (clock.date k).getD i 0
      else misread clock.bcd ((clock.date k).getD i 0) := by
  intro i hi
  rw [← convert_encode clock.bcd convert _ (field_lt k i)]
  rcases i with - | - | - | - | - | - | - | i
  all_goals first | rfl | omega

theorem probe_iff (env : Env) : bcdProbe (env.withClock clock) = clock.bcd ↔ clock.recognised = true :=
  probe_encode clock.bcd _ (field_lt 0 0)

/-- Each field, as it is when it is read. -/
def found (clock : Clock) : List Nat := diagonal 7 fun k => clock.date (k + 1)

theorem found_getD {i : Nat} (hi : i < 7) : clock.found.getD i 0 = clock.atRead i := by
  simp [found, diagonal, atRead, hi]

/-- The fields found are printed, misread if their format is not recognised. -/
theorem assembled_eq (env : Env) : assembled (env.withClock clock) =
    if clock.recognised then clock.found else clock.found.map (misread clock.bcd) := by
  have hread : ∀ i < 7, cmosRead (env.withClock clock) (i + 1) (rtcRegisters.getD i 0)
      (bcdProbe (env.withClock clock)) =
        if clock.recognised then (clock.date (i + 1)).getD i 0
        else misread clock.bcd ((clock.date (i + 1)).getD i 0) := by
    intro i hi
    rw [cmosRead_field env _ _ i hi]
    exact if_congr (probe_iff env) rfl rfl
  have hassembled : assembled (env.withClock clock) = (List.range 7).map fun i =>
      cmosRead (env.withClock clock) (i + 1) (rtcRegisters.getD i 0) (bcdProbe (env.withClock clock)) := rfl
  rw [hassembled, List.map_congr_left fun i hi => hread i (List.mem_range.mp hi)]
  cases clock.recognised <;> rfl

/-- The fields found make up a date exactly if the month found has the day. -/
theorem valid_found_iff : (calendar clock.leap).Valid clock.found ↔
    clock.atRead 3 ≤ daysIn clock.leap (clock.atRead 0) (clock.atRead 1) (clock.atRead 2) := by
  constructor
  · intro hvalid
    obtain ⟨-, -, -, -, -, -, -, hday, -⟩ := hvalid
    exact hday
  · intro hday
    have hfields : ∀ k, (calendar clock.leap).Valid (clock.date k) := valid_date
    obtain ⟨hc, -⟩ := fields_bounds (hfields 1)
    obtain ⟨-, hy, -⟩ := fields_bounds (hfields 2)
    obtain ⟨-, -, hmo, -⟩ := fields_bounds (hfields 3)
    obtain ⟨-, -, -, hd, -⟩ := fields_bounds (hfields 4)
    obtain ⟨-, -, -, -, hh, -⟩ := fields_bounds (hfields 5)
    obtain ⟨-, -, -, -, -, hmi, -⟩ := fields_bounds (hfields 6)
    obtain ⟨-, -, -, -, -, -, hs⟩ := fields_bounds (hfields 7)
    exact ⟨Nat.zero_le _, hc, Nat.zero_le _, hy, hmo.1, hmo.2, hd, hday, Nat.zero_le _, hh,
      Nat.zero_le _, hmi, Nat.zero_le _, hs, trivial⟩

/-- It has, if the fields above the day are those that were read. -/
theorem day_of_unchanged (h : ¬∃ j < 3, clock.atRead j ≠ (clock.date 4).getD j 0) :
    clock.atRead 3 ≤ daysIn clock.leap (clock.atRead 0) (clock.atRead 1) (clock.atRead 2) := by
  have hsame : ∀ j < 3, clock.atRead j = (clock.date 4).getD j 0 := fun j hj => by
    by_contra hne
    exact h ⟨j, hj, hne⟩
  have hvalid : (calendar clock.leap).Valid (clock.date 4) := valid_date 4
  obtain ⟨c, y, mo, d, hh, mi, s, hdate, -, -, -, hday, -⟩ := fields_of_valid hvalid
  rw [hsame 0 (by decide), hsame 1 (by decide), hsame 2 (by decide), atRead, hdate]
  exact hday.2

/-- What was found is not before the first read exactly if no field fell behind
in a carry that the fields above it had missed. -/
theorem le_found_iff : clock.date 0 ≤ clock.found ↔
    ∀ i < 7, (∀ j < i, clock.first j = clock.atRead j) → clock.CarriedOut i →
      clock.first i ≤ clock.atRead i := by
  have hlength : (clock.date 0).length = clock.found.length := by
    rw [length_date, found, diagonal, List.length_map, List.length_range]
  rw [le_iff_getD hlength, length_date]
  refine forall₂_congr fun i hi => ?_
  have hsame : (∀ j < i, (clock.date 0).getD j 0 = clock.found.getD j 0) ↔
      ∀ j < i, clock.first j = clock.atRead j :=
    forall₂_congr fun j hj => by rw [found_getD (hj.trans hi), first]
  rw [hsame, found_getD hi]
  refine forall_congr' fun _ => ⟨fun h _ => h, fun h => ?_⟩
  by_cases hcarried : clock.CarriedOut i
  · exact h hcarried
  · have hdates : (clock.date 0).length = (clock.date (i + 1)).length := by rw [length_date, length_date]
    exact getD_le_of_take_eq hdates (date_le (Nat.zero_le _)) (by rwa [length_date]) (not_not.mp hcarried)

theorem untorn_iff : clock.Untorn ↔ (calendar clock.leap).Valid clock.found ∧ clock.date 0 ≤ clock.found := by
  rw [valid_found_iff, le_found_iff]
  constructor
  · intro h
    refine ⟨?_, h.grown⟩
    by_cases hlate : ∃ j < 3, clock.atRead j ≠ (clock.date 4).getD j 0
    · exact h.day hlate
    · exact day_of_unchanged hlate
  · intro h
    exact ⟨h.2, fun _ => h.1⟩

/-- The clock is never behind the fields found. -/
theorem found_le : clock.found ≤ clock.date 8 :=
  diagonal_le (m := 7) (fun k _ => length_date (k + 1)) (fun i j hij _ => date_le (Nat.succ_le_succ hij))
    (by decide)

/-! ## Between the reads -/

theorem held_iff (env : Env) : clock.Held env ↔ (calendar clock.leap).Valid (assembled (env.withClock clock)) ∧
    clock.date 0 ≤ assembled (env.withClock clock) ∧ assembled (env.withClock clock) ≤ clock.date 8 := by
  have hbetween : ∀ date, ((calendar clock.leap).Reaches (clock.date 0) date ∧
      (calendar clock.leap).Reaches date (clock.date 8)) ↔
      (calendar clock.leap).Valid date ∧ clock.date 0 ≤ date ∧ date ≤ clock.date 8 := by
    intro date
    rw [reaches_iff (sound _) clock.valid, and_assoc]
    refine and_congr_right fun hdate => and_congr_right fun _ => ?_
    rw [reaches_iff (sound _) hdate]
    exact and_iff_right (valid_date 8)
  rw [← hbetween]
  exact ⟨fun ⟨_, hfrom, hto, heq⟩ => heq ▸ ⟨hfrom, hto⟩, fun h => ⟨_, h.1, h.2, rfl⟩⟩

/-- When the fields found are printed as they are. -/
theorem held_iff_untorn {env : Env} (h : assembled (env.withClock clock) = clock.found) :
    clock.Held env ↔ clock.Untorn := by
  rw [held_iff, h, untorn_iff]
  exact ⟨fun hx => ⟨hx.1, hx.2.1⟩, fun hx => ⟨hx.1, hx.2, found_le⟩⟩

theorem misread_small (bcd : Bool) {value : Nat} (h : value < 10) : misread bcd value = value := by
  cases bcd <;> simp only [misread] <;> split <;> omega

theorem assembled_legible {env : Env} (h : clock.Legible) : assembled (env.withClock clock) = clock.found := by
  rw [assembled_eq]
  split
  · rfl
  · next hformat =>
    obtain ⟨-, hsmall⟩ := h.resolve_left hformat
    rw [found, diagonal, List.map_map]
    exact List.map_congr_left fun i hi => misread_small _ (hsmall i (List.mem_range.mp hi))

/-- In a few updates no field comes to six more than it was, unless a carry
has taken it down. -/
theorem not_six_more {n : Nat} {ds ds' : List Nat} (h : (calendar clock.leap).After n ds ds') (hn : n < 6)
    (i : Nat) : ¬ ds.getD i 0 + 6 ≤ ds'.getD i 0 ∧ (ds'.getD i 0 + 6 ≤ ds.getD i 0 → ds'.getD i 0 < 10) := by
  rcases h.digit (spans clock.leap) i with hup | hdown <;> omega

/-- In the wrong format a field above 9 is six off or more, so that a few
updates do not make up for it. -/
theorem legible_of_held {env : Env} (h : clock.Held env) (hn : clock.elapsed < 6) : clock.Legible := by
  by_contra hillegible
  have hformat : clock.recognised ≠ true := fun hr => hillegible (.inl hr)
  obtain ⟨date, hfrom, hto, hdate⟩ := h
  rw [assembled_eq, if_neg hformat] at hdate
  have hfield : ∀ i < 7, date.getD i 0 = misread clock.bcd (clock.atRead i) := fun i hi => by
    simp [← hdate, found, diagonal, atRead, hi]
  -- The date and every one read are among the first few after the first read.
  obtain ⟨p, hp⟩ := hfrom.after
  obtain ⟨q, hq⟩ := hto.after
  have hall : p + q = clock.elapsed := (hp.trans hq).unique (sound _) clock.valid (after_date 8)
  have hnear : ∀ i < 7, ¬ clock.atRead i + 6 ≤ date.getD i 0 ∨ clock.atRead i < 10 := by
    intro i hi
    have hr := @after_date clock (i + 1)
    have hle : clock.before (i + 1) ≤ clock.elapsed := before_le (by omega)
    rcases Nat.le_total (clock.before (i + 1)) p with hlt | hlt
    · exact .inl (not_six_more (hr.tail_of_le hp hlt) (by omega) i).1
    · by_contra hfar
      have hback := (not_six_more (hp.tail_of_le hr hlt) (by omega) i).2
      rw [← atRead] at hback
      omega
  cases hbcd : clock.bcd with
  | true =>
    refine hillegible (.inr ⟨hbcd, fun i hi => ?_⟩)
    have hi' := hnear i hi
    rw [hfield i hi, hbcd, misread, if_pos rfl] at hi'
    omega
  | false =>
    -- The century is 26 or 32 at first, and little more when it is read.
    have hcentury : clock.first 0 = 26 ∨ clock.first 0 = 32 := by
      simpa [recognised, hbcd, or_iff_not_imp_left] using hformat
    have hread := (@after_date clock 1).digit (spans clock.leap) 0
    have hle : clock.before 1 ≤ clock.elapsed := before_le (by decide)
    have hmono : clock.first 0 ≤ clock.atRead 0 := getD_le_of_take_eq (by rw [length_date, length_date])
      (date_le (Nat.zero_le 1)) (by rw [length_date]; decide) rfl
    have hdates := (hp.reaches.spec (sound _) clock.valid)
    obtain ⟨_, _, _, _, _, _, _, hfields, -⟩ := fields_of_valid hdates.1
    have hlower : clock.first 0 ≤ date.getD 0 0 := getD_le_of_take_eq (by rw [length_date, hfields]; rfl)
      hdates.2 (by rw [length_date]; decide) rfl
    rw [hfield 0 (by decide), hbcd, misread, if_neg Bool.false_ne_true] at hlower
    change clock.first 0 ≤ clock.atRead 0 ∧ clock.atRead 0 ≤ clock.first 0 + _ ∨ clock.atRead 0 + 1 ≤ _ at hread
    omega

/-- **The date `time` prints** is one the clock had while it was read if the
format of its registers is told, or makes no difference, and no carry between
the reads tears it. If not, it is none that the clock had; only a clock whose
format is mistaken and that runs on for six seconds may then come to a date as
it was misread. -/
theorem held_iff_whole (clock : Clock) (env : Env) : (clock.Whole → clock.Held env) ∧
    (clock.recognised ∨ clock.elapsed < 6 → clock.Held env → clock.Whole) := by
  constructor
  · intro hwhole
    exact (held_iff_untorn (assembled_legible hwhole.1)).mpr hwhole.2
  · intro hbound hheld
    have hlegible : clock.Legible := by
      rcases hbound with hformat | hn
      · exact .inl hformat
      · exact legible_of_held hheld hn
    exact ⟨hlegible, (held_iff_untorn (assembled_legible hlegible)).mp hheld⟩

/-- A single update, between the reads `k` and `k + 1`: it may not carry into a
field read before it. -/
theorem untorn_of_update {k : Nat} (hk : k ≤ 6) (hone : ∀ j, clock.updates j = if j = k then 1 else 0) :
    clock.Untorn ↔ (clock.date k).take k = (clock.date (k + 1)).take k := by
  have hbefore : ∀ j ≤ k, clock.date j = clock.date 0 := by
    intro j hj
    induction j with
    | zero => rfl
    | succ j ih =>
      have hstay := clock.advances j
      rw [hone j, if_neg (by omega)] at hstay
      exact hstay.symm.trans (ih (by omega))
  have hafter : ∀ j, k + 1 ≤ j → clock.date j = clock.date (k + 1) := by
    intro j hj
    induction j, hj using Nat.le_induction with
    | base => rfl
    | succ j hj ih =>
      have hstay := clock.advances j
      rw [hone j, if_neg (by omega)] at hstay
      exact hstay.symm.trans ih
  have htick : (calendar clock.leap).Ticks (clock.date 0) (clock.date (k + 1)) := by
    have hstep := clock.advances k
    rw [hone k, if_pos rfl, hbefore k (Nat.le_refl k)] at hstep
    obtain ⟨mid, hmid, rfl⟩ := hstep
    exact hmid
  rw [hbefore k (Nat.le_refl k)]
  constructor
  · intro h
    by_contra hcarry
    have hsame : ∀ j < k, clock.first j = clock.atRead j := fun j hj => by
      rw [atRead, hbefore (j + 1) (by omega), first]
    have hdown := htick.carry (spans _) clock.valid (i := k) (by rw [length_date]; omega) hcarry
    exact absurd (h.grown k (by omega) hsame hcarry) (Nat.not_le_of_lt hdown)
  · intro htake
    have hsame : ∀ j < k, (clock.date 0).getD j 0 = (clock.date (k + 1)).getD j 0 := fun j hj => by
      have hget := congrArg (fun l => l.getD j 0) htake
      simpa [List.getD_eq_getElem?_getD, List.getElem?_take, hj] using hget
    -- The fields read before the update are those it leaves.
    have hread : ∀ j, clock.atRead j = (clock.date (k + 1)).getD j 0 := fun j => by
      rcases Nat.lt_or_ge j k with hj | hj
      · rw [atRead, hbefore (j + 1) (by omega), hsame j hj]
      · rw [atRead, hafter (j + 1) (by omega)]
    refine ⟨fun i hi hsame' _ => ?_, fun hlate => ?_⟩
    · have hlength : (clock.date 0).length = (clock.date (k + 1)).length := by rw [length_date, length_date]
      have hle := (le_iff_getD hlength).mp (date_le (Nat.zero_le (k + 1))) i (by rwa [length_date])
      rw [hread]
      exact hle fun j hj => (hsame' j hj).trans (hread j)
    · obtain ⟨j, hj, hne⟩ := hlate
      rw [hread] at hne
      rcases Nat.lt_or_ge k 4 with hk4 | hk4
      · exact absurd (by rw [hafter 4 hk4]) hne
      · exact absurd (by rw [hbefore 4 hk4, hsame j (by omega)]) hne

end Clock

/-- The new year begins after the year is read. -/
def newYear : Clock where
  leap := fun _ year => year % 4 == 0
  bcd := true
  date := fun k => if k ≤ 2 then [20, 23, 12, 31, 23, 59, 59] else [20, 24, 1, 1, 0, 0, 0]
  updates := fun k => if k = 2 then 1 else 0
  valid := by simp [calendar, Valid, daysIn]
  advances := by
    intro k
    rcases Nat.lt_trichotomy k 2 with hk | rfl | hk
    · rw [if_neg (by omega), if_pos (by omega), if_pos (by omega)]
      rfl
    · exact ⟨_, rfl, rfl⟩
    · rw [if_neg (by omega), if_neg (by omega), if_neg (by omega)]
      rfl

/-- It is then said to be the first of January of the old year. -/
theorem newYear_torn : ¬∀ (env : Env) (clock : Clock), clock.Held env := by
  intro hheld
  obtain ⟨date, hfrom, -, hdate⟩ := hheld bench newYear
  have hafter := (hfrom.spec (Clock.sound _) newYear.valid).2
  rw [← hdate] at hafter
  exact absurd hafter (by decide)

/-- The same year begins before the year is read: the new date is printed, as
no field above those that change was read before. -/
def newYearFirst : Clock where
  leap := fun _ year => year % 4 == 0
  bcd := true
  date := fun k => if k ≤ 1 then [20, 23, 12, 31, 23, 59, 59] else [20, 24, 1, 1, 0, 0, 0]
  updates := fun k => if k = 1 then 1 else 0
  valid := by simp [calendar, Valid, daysIn]
  advances := by
    intro k
    rcases Nat.lt_trichotomy k 1 with hk | rfl | hk
    · rw [if_neg (by omega), if_pos (by omega), if_pos (by omega)]
      rfl
    · exact ⟨_, rfl, rfl⟩
    · rw [if_neg (by omega), if_neg (by omega), if_neg (by omega)]
      rfl

theorem held_iff_whole_newYear : newYearFirst.Held bench ∧ ¬newYear.Whole ∧ ¬newYear.Held bench := by
  have hnot : ¬newYear.Whole := fun hwhole =>
    absurd ((Clock.untorn_of_update (k := 2) (by decide) fun _ => rfl).mp hwhole.2) (by decide)
  refine ⟨(Clock.held_iff_whole newYearFirst bench).1 ⟨.inl rfl, ?_⟩, hnot, fun hheld => ?_⟩
  · exact (Clock.untorn_of_update (k := 1) (by decide) fun _ => rfl).mpr rfl
  · exact hnot ((Clock.held_iff_whole newYear bench).2 (.inl rfl) hheld)

end Ssmos

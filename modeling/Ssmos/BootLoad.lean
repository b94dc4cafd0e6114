/-
The kernel's loading when reads fail. The message `read_error` prints goes
through `ax`, which holds the request: a retry asks for another function, so
the load is what it should be exactly if no read of it fails.
-/
import Ssmos.Boot

namespace Ssmos

/-! ## A load that failures do not affect -/

/-- The requests of one `read_disk` are one: to read one sector. -/
def SameRequest (rs : List Regs) : Prop := ∃ r, r.ah = 0x2 ∧ r.al = 0x1 ∧ ∀ r' ∈ rs, r' = r

/-- The same BIOS without failures. -/
def Bios.faultless (bios : Bios) : Bios := { bios with fails := fun _ => none }

/-- `s'` is what the load should leave, `t` being what it leaves without failures. -/
def Unaffected (s' t : Boot) : Prop := (∀ rs ∈ s'.reads, SameRequest rs) ∧ s'.memory = t.memory

/-- The load returns, retries as it should and leaves the image it should. -/
def LoadUnaffected (bios : Bios) (s : Boot) : Prop :=
  ∃ s' t, Boot.kernelLoad bios s = some s' ∧ Boot.kernelLoad bios.faultless s = some t ∧ Unaffected s' t

namespace Boot

variable {bios : Bios} {s s' : Boot} {n : Nat}

/-! ## One request -/

/-- Printing leaves its function and the last char in `ax`. -/
theorem printBios_eq (text : List UInt8) (s : Boot) :
    ∃ al, printBios text s = { s with regs := { s.regs with ah := 0x0e, al := al } } := by
  have hloop : ∀ (cs : List UInt8) (s : Boot),
      ∃ al, charLoop cs s = { s with regs := { s.regs with al := al } } := by
    intro cs
    induction cs with
    | nil => exact fun s => ⟨s.regs.al, rfl⟩
    | cons c cs ih =>
      intro s
      obtain ⟨al, h⟩ := ih { s with regs := { s.regs with al := c } }
      exact ⟨al, h⟩
  obtain ⟨al, h⟩ := hloop text { s with regs := { s.regs with ah := 0x0e } }
  exact ⟨al, h⟩

theorem int13_requests (bios : Bios) (s : Boot) : (int13 bios s).2.requests = s.requests ++ [s.regs] ∧
    (int13 bios s).2.reads = s.reads := by
  rw [int13]
  cases bios.fails s.calls <;> exact ⟨rfl, rfl⟩

/-- After a failure the request is another one. -/
theorem diskRead_failed {status : UInt8} (hfails : bios.fails s.calls = some status)
    (h : diskRead bios (n + 1) s = some s') : ∃ s₁, diskRead bios n s₁ = some s' ∧
      s₁.requests = s.requests ++ [s.regs] ∧ s₁.reads = s.reads ∧ s₁.regs.ah = 0x0e := by
  obtain ⟨al, hprint⟩ := printBios_eq readerror (int13 bios s).2
  obtain ⟨hreq, hreads⟩ := int13_requests bios s
  have hcarry : (int13 bios s).1 = true := by rw [int13, hfails]
  rw [diskRead] at h
  simp only [hcarry, if_true, hprint] at h
  split at h
  next => exact ⟨_, h, hreq, hreads, rfl⟩
  next => cases h

theorem diskRead_succeeded (hfails : bios.fails s.calls = none) (h : diskRead bios (n + 1) s = some s') :
    s' = (int13 bios s).2 := by
  have hcarry : (int13 bios s).1 = false := by rw [int13, hfails]
  rw [diskRead] at h
  simp only [hcarry, Bool.false_eq_true, if_false] at h
  exact (Option.some.inj h).symm

/-- `disk_read` starts with the request it is given. -/
theorem diskRead_requests (h : diskRead bios n s = some s') :
    (∃ rs, s'.requests = s.requests ++ s.regs :: rs) ∧ s'.reads = s.reads := by
  induction n generalizing s with
  | zero => cases h
  | succ n ih =>
    cases hfails : bios.fails s.calls with
    | none =>
      rw [diskRead_succeeded hfails h]
      exact ⟨⟨[], (int13_requests bios s).1⟩, (int13_requests bios s).2⟩
    | some status =>
      obtain ⟨s₁, h₁, hreq, hreads, -⟩ := diskRead_failed hfails h
      obtain ⟨⟨rs, hrs⟩, hreads'⟩ := ih h₁
      exact ⟨⟨s₁.regs :: rs, by rw [hrs, hreq, List.append_assoc]; rfl⟩, hreads'.trans hreads⟩

/-- A read that fails once makes two different requests. -/
theorem readDisk_failed {status : UInt8} (hfails : bios.fails s.calls = some status)
    (h : readDisk bios s = some s') :
    ∃ rs, s'.reads = rs :: s.reads ∧ (s.regs.ah = 0x2 → ¬SameRequest rs) := by
  obtain ⟨s₁, h₁, hs'⟩ := Option.bind_eq_some_iff.mp h
  cases hs'
  obtain ⟨s₂, h₂, hreq, hreads, hah⟩ :=
    diskRead_failed (s := { s with readAttempts := 0x0, requests := [] }) hfails h₁
  obtain ⟨⟨rs, hrs⟩, hreads'⟩ := diskRead_requests h₂
  refine ⟨s₁.requests, congrArg (s₁.requests :: ·) (hreads'.trans hreads), fun hfunction hsame => ?_⟩
  obtain ⟨r, hr, -, hall⟩ := hsame
  have hretry : s₂.regs = r := hall _ (by rw [hrs]; simp)
  rw [← hretry, hah] at hr
  exact absurd hr (by decide)

/-- One that does not fail makes one, and reads the sector. -/
theorem readDisk_succeeded (hfails : bios.fails s.calls = none) (hah : s.regs.ah = 0x2)
    (hal : s.regs.al = 0x1) : readDisk bios s = some { s with
      regs := { s.regs with ah := 0x0 }
      memory := readSector bios s.regs s.memory
      readAttempts := 0x0
      calls := s.calls + 1
      requests := [s.regs]
      reads := [s.regs] :: s.reads } := by
  have hint : int13 bios { s with readAttempts := 0x0, requests := [] } = (false, { s with
      regs := { s.regs with ah := 0x0 }
      memory := readSector bios s.regs s.memory
      readAttempts := 0x0
      calls := s.calls + 1
      requests := [s.regs] }) := by
    rw [int13]
    simp only [hfails, hah, hal, and_self, if_true, List.nil_append]
  rw [readDisk]
  simp only [diskRead, hint, Bool.false_eq_true, if_false]
  rfl

/-! ## One sector -/

/-- The request for the current sector. -/
def request (s : Boot) : Regs where
  ah := 0x2
  al := 0x1
  bx := 0x0
  ch := (s.currentSector / s.spt / s.numhd).toUInt8 &&& 0xFF
  cl := (s.currentSector % s.spt).toUInt8 + 1
  dh := (s.currentSector / s.spt % s.numhd).toUInt8
  dl := s.bootdrive
  es := s.currentOffset

/-- The state it is made in. -/
def prepared (s : Boot) : Boot :=
  { s with
    regs := s.request
    sector := (s.currentSector % s.spt).toUInt8 + 1
    head := (s.currentSector / s.spt % s.numhd).toUInt8
    cyl := (s.currentSector / s.spt / s.numhd).toUInt8 }

/-- On to the next sector. -/
def advanced (s : Boot) : Boot :=
  { s with currentOffset := s.currentOffset + SECTORSIZE, currentSector := s.currentSector + 1 }

theorem loadSector_eq (hspt : s.spt ≠ 0) (hnumhd : s.numhd ≠ 0) :
    loadSector bios s = (readDisk bios s.prepared).map advanced := by
  have hlba : lbaChs s.currentSector { s with regs := { s.regs with es := s.currentOffset } } = some
      { s.prepared with
        regs := { s.regs with es := s.currentOffset, bx := s.currentSector / s.spt } } :=
    if_neg (not_or.mpr ⟨hspt, hnumhd⟩)
  rw [loadSector]
  simp only [hlba, Option.bind_eq_bind, Option.bind_some]
  change (readDisk bios s.prepared).bind (fun s => some s.advanced) = _
  cases readDisk bios s.prepared <;> rfl

/-- The state after the current sector is read. -/
def loaded (bios : Bios) (s : Boot) : Boot :=
  { s.prepared.advanced with
    regs := { s.request with ah := 0x0 }
    memory := readSector bios s.request s.memory
    readAttempts := 0x0
    calls := s.calls + 1
    requests := [s.request]
    reads := [s.request] :: s.reads }

theorem loadSector_succeeded (hspt : s.spt ≠ 0) (hnumhd : s.numhd ≠ 0)
    (hfails : bios.fails s.calls = none) : loadSector bios s = some (s.loaded bios) := by
  rw [loadSector_eq hspt hnumhd, readDisk_succeeded (s := s.prepared) hfails rfl rfl]
  rfl

theorem loadSector_failed {status : UInt8} (hspt : s.spt ≠ 0) (hnumhd : s.numhd ≠ 0)
    (hfails : bios.fails s.calls = some status) (h : loadSector bios s = some s') :
    ∃ rs ∈ s'.reads, ¬SameRequest rs := by
  rw [loadSector_eq hspt hnumhd] at h
  obtain ⟨s₁, h₁, rfl⟩ := Option.map_eq_some_iff.mp h
  obtain ⟨rs, hreads, hdiffer⟩ := readDisk_failed (s := s.prepared) hfails h₁
  refine ⟨rs, ?_, hdiffer rfl⟩
  change rs ∈ s₁.reads
  rw [hreads]
  exact List.mem_cons_self

/-! ## The loop -/

theorem loadSector_reads (h : loadSector bios s = some s') : ∃ rs, s'.reads = rs :: s.reads := by
  rw [loadSector] at h
  obtain ⟨s₁, hlba, h⟩ := Option.bind_eq_some_iff.mp h
  obtain ⟨s₂, hread, h⟩ := Option.bind_eq_some_iff.mp h
  obtain ⟨s₃, hdisk, hs₂⟩ := Option.bind_eq_some_iff.mp hread
  cases h
  cases hs₂
  refine ⟨s₃.requests, congrArg (s₃.requests :: ·) ((diskRead_requests hdisk).2.trans ?_)⟩
  rw [lbaChs] at hlba
  split at hlba
  next => cases hlba
  next =>
    cases hlba
    rfl

/-- What was read stays read. -/
theorem loadLoop_reads (h : loadLoop bios n s = some s') : ∃ rss, s'.reads = rss ++ s.reads := by
  induction n generalizing s with
  | zero => cases h
  | succ n ih =>
    obtain ⟨s₁, h₁, h⟩ := Option.bind_eq_some_iff.mp h
    obtain ⟨rs, hrs⟩ := loadSector_reads h₁
    split at h
    next =>
      obtain ⟨rss, hrss⟩ := ih h
      exact ⟨rss ++ [rs], by rw [hrss, hrs, List.append_assoc]; rfl⟩
    next =>
      cases h
      exact ⟨[rs], hrs⟩

/-- Where the loop is before its `i`-th sector. -/
structure At (i : Nat) (s : Boot) : Prop where
  spt : s.spt ≠ 0
  numhd : s.numhd ≠ 0
  calls : s.calls = i
  sector : s.currentSector = UInt16.ofNat (2 + i)
  reads : ∀ rs ∈ s.reads, SameRequest rs

theorem At.loaded {i : Nat} (h : At i s) : At (i + 1) (s.loaded bios) where
  spt := h.spt
  numhd := h.numhd
  calls := congrArg (· + 1) h.calls
  sector := by
    change s.currentSector + 1 = _
    rw [h.sector, ← Nat.add_assoc, UInt16.ofNat_add (2 + i) 1]
    rfl
  reads rs hrs := by
    rcases List.mem_cons.mp hrs with rfl | hrs
    · exact ⟨s.request, rfl, rfl, fun r' hr' => List.mem_singleton.mp hr'⟩
    · exact h.reads rs hrs

/-- The loop goes on until the sector with the number `TOTALSECTORS` is read. -/
theorem goes_on_iff : ∀ i < 79,
    ((UInt16.ofNat (2 + (i + 1))).toInt16 ≤ TOTALSECTORS.toInt16 ↔ i + 1 < 79) := by
  decide +kernel

/-- A turn whose read does not fail. -/
theorem loadLoop_succeeded (hspt : s.spt ≠ 0) (hnumhd : s.numhd ≠ 0) (hfails : bios.fails s.calls = none) :
    loadLoop bios (n + 1) s =
      if (s.loaded bios).currentSector.toInt16 ≤ TOTALSECTORS.toInt16 then loadLoop bios n (s.loaded bios)
      else some (s.loaded bios) := by
  rw [loadLoop, loadSector_succeeded hspt hnumhd hfails]
  rfl

/-- **The rest of the load** from sector `i` on is unaffected exactly if no read of it fails. -/
theorem loadLoop_unaffected_iff {i : Nat} (h : At i s) (hi : i < 79) (hn : 79 ≤ n + i) :
    (∃ s' t, loadLoop bios n s = some s' ∧ loadLoop bios.faultless n s = some t ∧ Unaffected s' t) ↔
      ∀ k, i ≤ k → k < 79 → bios.fails k = none := by
  induction n generalizing i s with
  | zero => exact absurd hi (by omega)
  | succ n ih =>
    cases hfails : bios.fails i with
    | some status =>
      refine iff_of_false (fun hx => ?_) fun hx => ?_
      · obtain ⟨s', t, hload, -, hsame, -⟩ := hx
        obtain ⟨s₁, h₁, hload⟩ := Option.bind_eq_some_iff.mp hload
        obtain ⟨rs, hrs, hdiffer⟩ := loadSector_failed h.spt h.numhd (h.calls ▸ hfails) h₁
        refine hdiffer (hsame rs ?_)
        split at hload
        next =>
          obtain ⟨rss, hrss⟩ := loadLoop_reads hload
          rw [hrss]
          exact List.mem_append_right _ hrs
        next =>
          cases hload
          exact hrs
      · rw [hx i (Nat.le_refl i) hi] at hfails
        cases hfails
    | none =>
      have hnext : At (i + 1) (s.loaded bios) := h.loaded
      have hgo := goes_on_iff i hi
      have hsame : s.loaded bios.faultless = s.loaded bios := rfl
      rw [loadLoop_succeeded h.spt h.numhd (h.calls ▸ hfails), loadLoop_succeeded h.spt h.numhd rfl, hsame,
        hnext.sector]
      by_cases hlast : i + 1 < 79
      · rw [if_pos (hgo.mpr hlast), if_pos (hgo.mpr hlast), ih hnext hlast (by omega)]
        refine ⟨fun hx k hik hk => ?_, fun hx k hik hk => hx k (by omega) hk⟩
        rcases Nat.eq_or_lt_of_le hik with rfl | hlt
        · exact hfails
        · exact hx k hlt hk
      · rw [if_neg (mt hgo.mp hlast), if_neg (mt hgo.mp hlast)]
        refine iff_of_true ⟨_, _, rfl, rfl, hnext.reads, rfl⟩ fun k hik hk => ?_
        rw [show k = i by omega, hfails]

end Boot

/-! ## The whole load -/

/-- A geometry: up to 63 sectors per track, up to 255 heads. -/
def Bios.Geometry (bios : Bios) : Prop := bios.diskinfo.1 &&& 0x3F ≠ 0 ∧ bios.diskinfo.2 ≠ 0xFF

theorem Bios.Geometry.pos {bios : Bios} (h : bios.Geometry) :
    0 < (bios.diskinfo.1 &&& 0x3F).toNat ∧ 0 < (bios.diskinfo.2 + 1).toNat := by
  refine ⟨Nat.pos_of_ne_zero fun hzero => h.1 (UInt8.toNat_inj.mp hzero),
    Nat.pos_of_ne_zero fun hzero => h.2 ?_⟩
  have hheads : bios.diskinfo.2 + 1 = 0 := UInt8.toNat_inj.mp hzero
  rw [← UInt8.add_sub_cancel bios.diskinfo.2 1, hheads]
  rfl

/-- No more than `MAX_ATTEMPTS` calls in a row fail. -/
def Bios.Transient (bios : Bios) : Prop := ∀ k, ∃ j ≤ MAX_ATTEMPTS.toNat, bios.fails (k + j) = none

/-- As the second stage is entered: no sector of the kernel is read yet. -/
structure Boot.Initial (s : Boot) : Prop where
  sector : s.currentSector = 0x2
  calls : s.calls = 0
  reads : s.reads = []

/-- A 1.44 MB floppy whose `k`-th read fails as `fails` says. -/
def floppy (fails : Nat → Option UInt8) : Bios where
  disk := fun _ _ _ _ _ => 0x90
  fails := fails
  other := fun _ memory => memory
  diskinfo := (0x12, 0x1)

def bootsector : Boot where
  regs := { ah := 0, al := 0, bx := 0, ch := 0, cl := 0, dh := 0, dl := 0, es := 0 }
  memory := fun _ => 0
  bootdrive := 0
  currentSector := 0x2
  currentOffset := 0x0800
  readAttempts := 0
  spt := 0
  numhd := 0
  sector := 0
  head := 0
  cyl := 0
  calls := 0
  requests := []
  reads := []

theorem Boot.Initial.at {bios : Bios} {s : Boot} (h : s.Initial) (hgeometry : bios.Geometry) :
    (s.getDiskinfo bios).At 0 where
  spt hzero := Nat.ne_of_gt hgeometry.pos.1 (congrArg UInt16.toNat hzero)
  numhd hzero := Nat.ne_of_gt hgeometry.pos.2 (congrArg UInt16.toNat hzero)
  calls := h.calls
  sector := h.sector
  reads rs hrs := by
    have hnone : rs ∈ s.reads := hrs
    rw [h.reads] at hnone
    cases hnone

/-- **The kernel's load** is unaffected exactly if none of its 79 reads fails, on any disk. -/
theorem loadUnaffected_iff {bios : Bios} {s : Boot} (hgeometry : bios.Geometry) (h : s.Initial) :
    LoadUnaffected bios s ↔ ∀ k < 79, bios.fails k = none := by
  have hat := h.at hgeometry
  refine (Boot.loadLoop_unaffected_iff hat (by decide) (by decide)).trans ?_
  exact ⟨fun hx k hk => hx k k.zero_le hk, fun hx k _ hk => hx k hk⟩

theorem loadUnaffected_iff_floppy : LoadUnaffected (floppy fun _ => none) bootsector :=
  (loadUnaffected_iff ⟨by decide, by decide⟩ ⟨rfl, rfl, rfl⟩).mpr fun _ _ => rfl

/-- The first read fails once: the retry is no read. -/
theorem retry_differs : ¬∀ (bios : Bios) (s : Boot), bios.Geometry → bios.Transient → s.Initial →
    LoadUnaffected bios s := by
  intro hload
  have hgeometry : (floppy fun k => if k = 0 then some 0x4 else none).Geometry := ⟨by decide, by decide⟩
  have htransient : (floppy fun k => if k = 0 then some 0x4 else none).Transient := by
    intro k
    exact ⟨1, by decide, rfl⟩
  have hinitial : bootsector.Initial := ⟨rfl, rfl, rfl⟩
  have hunaffected := hload _ _ hgeometry htransient hinitial
  have hnone := (Boot.loadLoop_unaffected_iff (hinitial.at hgeometry) (by decide) (by decide)).mp hunaffected
  exact absurd (hnone 0 (Nat.le_refl 0) (by decide)) (by decide)

end Ssmos

/-
The kernel's loading when every read succeeds. On a disk that numbers its
sectors the standard way, of any geometry, each turn of `kernel_load` asks for
the next sector and places it behind the last one.
-/
import Ssmos.BootLoad
import Ssmos.Base.Chs

namespace Ssmos

/-! ## The disk -/

/-- Sectors per track, as `get_diskinfo` leaves them in `spt`. -/
def Bios.sectors (bios : Bios) : Nat := (bios.diskinfo.1 &&& 0x3F).toNat

/-- Heads, as `get_diskinfo` leaves them in `numhd`. -/
def Bios.heads (bios : Bios) : Nat := (bios.diskinfo.2 + 1).toNat

/-- The BIOS reads the sectors of `image` from a drive, by the standard mapping. -/
def Bios.Standard (bios : Bios) (drive : UInt8) (image : Nat → Nat → UInt8) : Prop :=
  ∀ (a : Chs bios.sectors bios.heads) (cyl head sector : UInt8), a.Held cyl head sector →
    ∀ j < 512, bios.disk drive cyl head sector j = image a.lba j

/-- How many sectors there are from the first one through `TOTALSECTORS`. -/
def SECTORS : Nat := TOTALSECTORS.toNat + 1 - 0x2

/-- Where the kernel is loaded. -/
def KERNEL : Nat := 0x8000

/-- The first `n` sectors of the kernel in place, and the rest of memory. -/
def inPlace (image : Nat → Nat → UInt8) (n : Nat) (memory : Nat → UInt8) : Nat → UInt8 := fun a =>
  if KERNEL ≤ a ∧ a < KERNEL + 512 * n then image (0x2 + (a - KERNEL) / 512) ((a - KERNEL) % 512)
  else memory a

/-- A request to read one sector of a drive to an address of memory. -/
structure Regs.Reads (bios : Bios) (drive : UInt8) (lba address : Nat) (r : Regs) : Prop where
  ah : r.ah = 0x2
  al : r.al = 0x1
  dl : r.dl = drive
  target : Boot.target r = address
  chs : ∃ a : Chs bios.sectors bios.heads, a.lba = lba ∧ a.Held r.ch r.dh r.cl

namespace Boot

variable {bios : Bios} {image : Nat → Nat → UInt8} {s s₁ : Boot} {n i : Nat}

/-! ## One sector -/

/-- The geometry is known. -/
structure Informed (bios : Bios) (s : Boot) : Prop where
  spt : s.spt.toNat = bios.sectors
  numhd : s.numhd.toNat = bios.heads

theorem getDiskinfo_informed (bios : Bios) (s : Boot) : (s.getDiskinfo bios).Informed bios :=
  ⟨rfl, rfl⟩

theorem Informed.pos (h : s.Informed bios) (hgeometry : bios.Geometry) :
    0 < s.spt.toNat ∧ 0 < s.numhd.toNat :=
  ⟨h.spt ▸ hgeometry.pos.1, h.numhd ▸ hgeometry.pos.2⟩

/-- The divisions of `lba_chs` find the address of a sector, if its cylinder is a byte. -/
theorem held_div (hgeometry : bios.Geometry) (h : s.Informed bios) {lba : UInt16} (hlba : lba.toNat < 256) :
    ∃ a : Chs bios.sectors bios.heads, a.lba = lba.toNat ∧
      a.Held (lba / s.spt / s.numhd).toUInt8 (lba / s.spt % s.numhd).toUInt8 ((lba % s.spt).toUInt8 + 1) := by
  obtain ⟨hspt, hnumhd⟩ := h.pos hgeometry
  have hsectors : s.spt.toNat < 256 := h.spt ▸ UInt8.toNat_lt _
  have hheads : s.numhd.toNat ≤ 256 := h.numhd ▸ Nat.le_of_lt (UInt8.toNat_lt _)
  have hcyl := Nat.lt_of_le_of_lt (Chs.cyl_ofLba_le hspt hnumhd lba.toNat) hlba
  rw [← h.spt, ← h.numhd]
  exact ⟨_, Chs.lba_ofLba hspt hnumhd _, Chs.held_div hspt hnumhd hsectors hheads hcyl⟩

/-- `lba_chs` finds the address of the sector, once the geometry is known. -/
def Converts (bios : Bios) (lba : UInt16) : Prop :=
  ∀ s : Boot, s.Informed bios → ∃ t, lbaChs lba s = some t ∧
    ∃ a : Chs bios.sectors bios.heads, a.lba = lba.toNat ∧ a.Held t.cyl t.head t.sector

theorem converts (hgeometry : bios.Geometry) {lba : UInt16} (hlba : lba.toNat < 256) : Converts bios lba := by
  intro s h
  obtain ⟨hspt, hnumhd⟩ := h.pos hgeometry
  have hdivisors : ¬(s.spt = 0 ∨ s.numhd = 0) := by
    rintro (hzero | hzero)
    · exact Nat.ne_of_gt hspt (congrArg UInt16.toNat hzero)
    · exact Nat.ne_of_gt hnumhd (congrArg UInt16.toNat hzero)
  exact ⟨_, if_neg hdivisors, held_div hgeometry h hlba⟩

/-- The request of the `i`-th turn. -/
def requestAt (s₁ : Boot) (i : Nat) : Regs :=
  request { s₁ with
    currentSector := UInt16.ofNat (0x2 + i)
    currentOffset := UInt16.ofNat (0x0800 + 0x020 * i) }

theorem ofNat_word {n : Nat} (hn : n < 0x10000) : (UInt16.ofNat n).toNat = n :=
  UInt16.toNat_ofNat_of_lt' hn

theorem requestAt_reads (hgeometry : bios.Geometry) (h : s₁.Informed bios) (hi : i < SECTORS) :
    (s₁.requestAt i).Reads bios s₁.bootdrive (0x2 + i) (KERNEL + 512 * i) where
  ah := rfl
  al := rfl
  dl := rfl
  target := by
    have hlast : i < 79 := hi
    have hes : (UInt16.ofNat (0x0800 + 0x020 * i)).toNat = 0x0800 + 0x020 * i :=
      ofNat_word (by omega)
    change (UInt16.ofNat (0x0800 + 0x020 * i)).toNat * 16 + 0 = 0x8000 + 512 * i
    rw [hes]
    omega
  chs := by
    have hlast : i < 79 := hi
    have hsector : (UInt16.ofNat (0x2 + i)).toNat = 0x2 + i :=
      ofNat_word (by omega)
    have hbyte : (UInt16.ofNat (0x2 + i)).toNat < 256 := by omega
    obtain ⟨a, ha, hheld⟩ := held_div hgeometry h hbyte
    refine ⟨a, ha.trans hsector, ?_⟩
    change a.Held (_ &&& 0xFF) _ _
    rw [show (0xFF : UInt8) = -1 from rfl, UInt8.and_neg_one]
    exact hheld

/-- A sector read behind those in place is in place. -/
theorem readSector_inPlace {r : Regs} {memory : Nat → UInt8} (hdisk : bios.Standard r.dl image)
    (hr : r.Reads bios r.dl (0x2 + i) (KERNEL + 512 * i)) :
    readSector bios r (inPlace image i memory) = inPlace image (i + 1) memory := by
  obtain ⟨a, ha, hheld⟩ := hr.chs
  funext x
  rw [readSector, hr.target]
  by_cases hx : KERNEL + 512 * i ≤ x ∧ x < KERNEL + 512 * i + 512
  · have hsector : (x - KERNEL) / 512 = i := by omega
    have hbyte : (x - KERNEL) % 512 = x - (KERNEL + 512 * i) := by omega
    rw [if_pos hx, hdisk a _ _ _ hheld _ (by omega), inPlace, if_pos (by omega), hsector, hbyte, ha]
  · rw [if_neg hx]
    simp only [inPlace]
    by_cases hold : KERNEL ≤ x ∧ x < KERNEL + 512 * i
    · rw [if_pos hold, if_pos (by omega)]
    · rw [if_neg hold, if_neg (by omega)]

/-! ## The loop -/

/-- What is loaded before the `i`-th sector is, from the state `s₁` the loop starts in. -/
structure Placed (image : Nat → Nat → UInt8) (s₁ : Boot) (i : Nat) (s : Boot) : Prop where
  turn : At i s
  spt : s.spt = s₁.spt
  numhd : s.numhd = s₁.numhd
  drive : s.bootdrive = s₁.bootdrive
  offset : s.currentOffset = UInt16.ofNat (0x0800 + 0x020 * i)
  reads : s.reads.reverse = (List.range i).map fun k => [s₁.requestAt k]
  memory : s.memory = inPlace image i s₁.memory

theorem Placed.request (h : Placed image s₁ i s) : s.request = s₁.requestAt i := by
  simp only [requestAt, Boot.request, h.turn.sector, h.spt, h.numhd, h.drive, h.offset]

/-- A turn places one more sector. -/
theorem Placed.loaded (h : Placed image s₁ i s) (hgeometry : bios.Geometry) (hinfo : s₁.Informed bios)
    (hdisk : bios.Standard s₁.bootdrive image) (hi : i < SECTORS) :
    Placed image s₁ (i + 1) (s.loaded bios) where
  turn := h.turn.loaded
  spt := h.spt
  numhd := h.numhd
  drive := h.drive
  offset := by
    change s.currentOffset + SECTORSIZE = _
    rw [h.offset, Nat.mul_succ, ← Nat.add_assoc, UInt16.ofNat_add (0x0800 + 0x020 * i) 0x020]
    rfl
  reads := by
    change ([s.request] :: s.reads).reverse = _
    rw [List.reverse_cons, h.reads, h.request, List.range_succ, List.map_append]
    rfl
  memory := by
    change readSector bios s.request s.memory = _
    rw [h.request, h.memory]
    exact readSector_inPlace hdisk (requestAt_reads hgeometry hinfo hi)

/-- The loop returns with the sectors through `TOTALSECTORS` in place. -/
theorem loadLoop_placed (hgeometry : bios.Geometry) (hinfo : s₁.Informed bios)
    (hdisk : bios.Standard s₁.bootdrive image) (hfails : ∀ k < SECTORS, bios.fails k = none)
    (h : Placed image s₁ i s) (hi : i < SECTORS) (hn : SECTORS ≤ n + i) :
    ∃ s', loadLoop bios n s = some s' ∧ Placed image s₁ SECTORS s' := by
  induction n generalizing i s with
  | zero => exact absurd hi (by omega)
  | succ n ih =>
    have hnext := h.loaded hgeometry hinfo hdisk hi
    rw [loadLoop_succeeded h.turn.spt h.turn.numhd (h.turn.calls ▸ hfails i hi), hnext.turn.sector]
    by_cases hlast : i + 1 < SECTORS
    · rw [if_pos ((goes_on_iff i hi).mpr hlast)]
      exact ih hnext hlast (by omega)
    · rw [if_neg (mt (goes_on_iff i hi).mp hlast)]
      have hall : i + 1 = SECTORS := by omega
      exact ⟨_, rfl, hall ▸ hnext⟩

end Boot

/-! ## The whole load -/

/-- As the second stage is entered, with the kernel's place in `CURRENT_OFFSET`. -/
structure Boot.Entered (s : Boot) : Prop extends s.Initial where
  offset : s.currentOffset = 0x0800

theorem Boot.Entered.placed {bios : Bios} {s : Boot} (h : s.Entered) (hgeometry : bios.Geometry)
    (image : Nat → Nat → UInt8) : Placed image (s.getDiskinfo bios) 0 (s.getDiskinfo bios) where
  turn := h.toInitial.at hgeometry
  spt := rfl
  numhd := rfl
  drive := rfl
  offset := h.offset
  reads := congrArg List.reverse h.reads
  memory := by
    funext a
    rw [inPlace, if_neg (by omega)]

/-- **The kernel's load**, on any disk of any geometry: the sectors from 2 through
`TOTALSECTORS` are asked for once each, in order, and are back to back in memory. -/
theorem kernelLoad_image {bios : Bios} {s : Boot} {image : Nat → Nat → UInt8} (hgeometry : bios.Geometry)
    (hdisk : bios.Standard s.bootdrive image) (hfails : ∀ k < SECTORS, bios.fails k = none) (h : s.Entered) :
    (∃ (s' : Boot) (asked : Nat → Regs), Boot.kernelLoad bios s = some s' ∧
      s'.reads.reverse = (List.range SECTORS).map (fun i => [asked i]) ∧
      (∀ i < SECTORS, (asked i).Reads bios s.bootdrive (0x2 + i) (KERNEL + 512 * i)) ∧
      s'.memory = inPlace image SECTORS s.memory) ∧
    ∀ lba ≤ TOTALSECTORS, Boot.Converts bios lba := by
  have hinfo := Boot.getDiskinfo_informed bios s
  obtain ⟨s', hload, hplaced⟩ := Boot.loadLoop_placed (n := TOTALSECTORS.toNat) hgeometry hinfo hdisk hfails
    (h.placed hgeometry image) (by decide) (by decide)
  refine ⟨⟨s', _, hload, hplaced.reads, ?_, hplaced.memory⟩, fun lba hlba => ?_⟩
  · exact fun i hi => Boot.requestAt_reads hgeometry hinfo hi
  · exact Boot.converts hgeometry (Nat.lt_of_le_of_lt (UInt16.le_iff_toNat_le.mp hlba) (by decide))

/-- A floppy whose sectors hold their own numbers. -/
def numberedFloppy : Bios where
  disk _ cyl head sector _ := UInt8.ofNat ((cyl.toNat * 2 + head.toNat) * 18 + (sector.toNat - 1))
  fails _ := none
  other _ memory := memory
  diskinfo := (0x12, 0x1)

/-- They are in order in memory. -/
theorem kernelLoad_image_floppy : ∃ s', Boot.kernelLoad numberedFloppy bootsector = some s' ∧
    s'.reads.length = SECTORS ∧ s'.memory KERNEL = 2 ∧ s'.memory (KERNEL + 512 * 17) = 19 ∧
    s'.memory (KERNEL + 512 * 79 - 1) = 80 ∧ s'.memory (KERNEL + 512 * 79) = 0 := by
  have hdisk : numberedFloppy.Standard 0 fun n _ => UInt8.ofNat n := fun a cyl head sector ha j hj => by
    change UInt8.ofNat ((cyl.toNat * 2 + head.toNat) * 18 + (sector.toNat - 1)) = _
    rw [ha.cyl, ha.head, ha.sector]
    rfl
  obtain ⟨⟨s', asked, hload, hreads, -, hmemory⟩, -⟩ := @kernelLoad_image numberedFloppy bootsector _
    ⟨by decide, by decide⟩ hdisk (fun _ _ => rfl) ⟨⟨rfl, rfl, rfl⟩, rfl⟩
  have hlength := congrArg List.length hreads
  rw [List.length_reverse, List.length_map, List.length_range] at hlength
  refine ⟨s', hload, hlength, ?_⟩
  rw [hmemory]
  decide

end Ssmos

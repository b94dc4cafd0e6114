/-
From the BIOS to the prompt: `kernel_main` on the stack and in the memory that
the boot loader leaves it.
-/
import Ssmos.Loader
import Ssmos.KernelMain

namespace Ssmos

/-- What the loader does not hand over: the devices, and the variables of `terminal.c`. -/
structure Surroundings where
  pics : Pics
  pit : Pit
  terminal : Terminal
  video : Framebuffer

/-- `kernel_main`, with the parameters it finds above its return address. -/
def Handover.kernelMain (h : Handover) (l : IdtLayout) (logged : BootMessages) (num numbuffer : Nat) (s : Surroundings)
    (keys : List Key) : Except Stop KernelRun :=
  Ssmos.kernelMain l logged num numbuffer (toInt (h.cpu.word 1).toNat) (toInt (h.cpu.word 2).toNat) (h.cpu.word 3).toNat
    ⟨h.cpu.mem, s.pics, s.pit, h.cpu.eflags, s.terminal, s.video⟩ keys

/-- The byte of a disk that is loaded to an address. -/
def loadedAt (image : Nat → Nat → UInt8) (a : Nat) : UInt8 := image ((a - 0x7C00) / 512) ((a - 0x7C00) % 512)

/-- The kernel's image has the digits where the kernel looks for them. -/
structure DigitsLoaded (image : Nat → Nat → UInt8) (num : Nat) : Prop where
  start : KERNEL ≤ num
  fits : num + 36 ≤ KERNEL + 512 * SECTORS
  bytes : ∀ i (h : i < numChars.length), loadedAt image (num + i) = numChars[i]

section

variable {fw : Firmware} {l : Loader} {image : Nat → Nat → UInt8} {drive : UInt8} {low high : UInt16} {ret : UInt32}
  {hand : Handover} {num numbuffer : Nat} {layout : IdtLayout} {logged : BootMessages}

theorem InMemory.loadedAt {memory : Nat → UInt8} (h : InMemory image memory) {a : Nat} (hlo : KERNEL ≤ a)
    (hhi : a < KERNEL + 512 * SECTORS) : memory a = loadedAt image a := by
  have hkernel : KERNEL = 0x8000 := rfl
  have hsectors : SECTORS = 79 := rfl
  have htotal : TOTALSECTORS.toNat = 80 := rfl
  have hat := h ((a - 0x7C00) / 512) (by omega) (by omega) ((a - 0x7C00) % 512) (Nat.mod_lt _ (by decide))
  rwa [show 0x7C00 + 512 * ((a - 0x7C00) / 512) + (a - 0x7C00) % 512 = a by omega] at hat

theorem DigitsLoaded.table (h : DigitsLoaded image num) (hhanded : Handed image drive low high ret hand) :
    Table hand.cpu.mem num := by
  have hkernel : KERNEL = 0x8000 := rfl
  have hsectors : SECTORS = 79 := rfl
  have hstart := h.start
  have hfits := h.fits
  refine ⟨fun i hi => ?_, by omega⟩
  have hi36 : i < 36 := numChars_length ▸ hi
  rw [hhanded.loaded.loadedAt (by omega) (by omega)]
  exact h.bytes i hi

/-- A parameter is the number that was pushed. -/
theorem toInt_toNat {v : UInt32} (hv : v.toNat < 2 ^ 31) : toInt v.toNat = v.toNat := by
  rw [toInt, wrap_of_lt v.toNat_lt, if_pos hv]

theorem Handed.parameters (h : Handed image drive low high ret hand) :
    toInt (hand.cpu.word 1).toNat = drive.toNat ∧ toInt (hand.cpu.word 2).toNat = low.toNat ∧
      (hand.cpu.word 3).toNat = high.toNat := by
  have hdrive := drive.toNat_lt
  have hlow := low.toNat_lt
  rw [h.stack.word (i := 1) rfl, h.stack.word (i := 2) rfl, h.stack.word (i := 3) rfl,
    toInt_toNat (by rw [UInt8.toNat_toUInt32]; omega), toInt_toNat (by rw [UInt16.toNat_toUInt32]; omega)]
  exact ⟨congrArg _ (UInt8.toNat_toUInt32 _), congrArg _ (UInt16.toNat_toUInt32 _), UInt16.toNat_toUInt32 _⟩

theorem Handed.runs (h : Handed image drive low high ret hand) (hhigh : high ≠ 0) (hdigits : DigitsLoaded image num)
    (hlay : Layout num numbuffer MAX_INT_CHARS) (hspares : layout.Spares num) (s : Surroundings) (keys : List Key)
    (hnull : (s.terminal.struct NULL).name < s.terminal.next) :
    ∃ fb video, Panelled fb (bootLines drive.toNat low.toNat high.toNat) bootColor ∧
      (∀ a, a < FRAMEBUFFER_SIZE → video a = fb a) ∧
      KernelRuns (s.terminal.nameOf NULL) (s.terminal.booted fb video) keys
        (hand.kernelMain layout logged num numbuffer s keys) := by
  obtain ⟨hdrive, hlow, hhimem⟩ := h.parameters
  have hpos : high.toNat ≠ 0 := fun hzero => hhigh (UInt16.toNat_inj.mp hzero)
  have hhighlt := high.toNat_lt
  have hlowlt := low.toNat_lt
  have hdrivelt := drive.toNat_lt
  obtain ⟨fb, video, hpanel, hvideo, hboot⟩ := @boot_ok layout logged num numbuffer high.toNat drive.toNat low.toNat
    ⟨hand.cpu.mem, s.pics, s.pit, hand.cpu.eflags, s.terminal, s.video⟩ (by omega) (by omega) hlay (hdigits.table h)
    hspares
    ⟨by omega, by omega⟩ ⟨by omega, by omega⟩
  refine ⟨fb, video, hpanel, hvideo, ?_⟩
  rw [Handover.kernelMain, hdrive, hlow, hhimem]
  exact kernelMain_of_boot hnull hboot keys

end

end Ssmos

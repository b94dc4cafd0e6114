/-
Disk addresses: a cylinder, a head and a sector of a drive with `S` sectors per
track and `H` heads. The standard mapping numbers them from 0; two divisions
find the address with a number.
-/

namespace Ssmos

structure Chs (S H : Nat) where
  cyl : Nat
  head : Nat
  sector : Nat
  head_lt : head < H
  sector_pos : 0 < sector
  sector_le : sector ≤ S

namespace Chs

variable {S H : Nat}

/-- The number of the sector at an address. -/
def lba (a : Chs S H) : Nat := (a.cyl * H + a.head) * S + (a.sector - 1)

/-- The address of the sector with a number. -/
def ofLba (hS : 0 < S) (hH : 0 < H) (n : Nat) : Chs S H where
  cyl := n / S / H
  head := n / S % H
  sector := n % S + 1
  head_lt := Nat.mod_lt _ hH
  sector_pos := Nat.succ_pos _
  sector_le := Nat.mod_lt _ hS

theorem lba_ofLba (hS : 0 < S) (hH : 0 < H) (n : Nat) : (ofLba hS hH n).lba = n := by
  change (n / S / H * H + n / S % H) * S + n % S = n
  rw [Nat.div_add_mod', Nat.div_add_mod']

theorem cyl_ofLba_le (hS : 0 < S) (hH : 0 < H) (n : Nat) : (ofLba hS hH n).cyl ≤ n :=
  Nat.le_trans (Nat.div_le_self _ _) (Nat.div_le_self _ _)

/-- The bytes hold the address, none of its parts truncated. -/
structure Held (a : Chs S H) (cyl head sector : UInt8) : Prop where
  cyl : cyl.toNat = a.cyl
  head : head.toNat = a.head
  sector : sector.toNat = a.sector

/-- The sector and the head are left over from the divisions. -/
theorem held_div {n s h : UInt16} (hs : 0 < s.toNat) (hh : 0 < h.toNat) (hsector : s.toNat < 256)
    (hhead : h.toNat ≤ 256) (hcyl : (ofLba hs hh n.toNat).cyl < 256) :
    (ofLba hs hh n.toNat).Held (n / s / h).toUInt8 (n / s % h).toUInt8 ((n % s).toUInt8 + 1) where
  cyl := by
    rw [UInt16.toNat_toUInt8, UInt16.toNat_div, UInt16.toNat_div]
    exact Nat.mod_eq_of_lt hcyl
  head := by
    have hlt : n.toNat / s.toNat % h.toNat < h.toNat := Nat.mod_lt _ hh
    rw [UInt16.toNat_toUInt8, UInt16.toNat_mod, UInt16.toNat_div]
    exact Nat.mod_eq_of_lt (Nat.lt_of_lt_of_le hlt hhead)
  sector := by
    have hlt : n.toNat % s.toNat < s.toNat := Nat.mod_lt _ hs
    have hbyte : (n % s).toUInt8.toNat = n.toNat % s.toNat := by
      rw [UInt16.toNat_toUInt8, UInt16.toNat_mod]
      exact Nat.mod_eq_of_lt (Nat.lt_trans hlt hsector)
    rw [UInt8.toNat_add, hbyte]
    change (n.toNat % s.toNat + 1) % 256 = n.toNat % s.toNat + 1
    exact Nat.mod_eq_of_lt (by omega)

end Chs

end Ssmos

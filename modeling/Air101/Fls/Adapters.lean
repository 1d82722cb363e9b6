import Air101.Fls.Program

/-!
# Fls.Adapters

The block device of the key-value store (`app/port/luat_sfd_onchip_air101.c`) and `luat_flash_erase`
(`app/port/luat_flash_air101.c`), both on top of the driver. Their erases take a length in bytes and
erase the one sector of the first address.

* `tlsFlsErase_at`: a sector erase at an address in the mapped range.
* `onchip_rewrite`: what a read finds after an erase and a write.
* `onchip_device_iff`: the device gives back what was written exactly if the bytes outside that sector
  have every bit that the data needs, and a range is erased exactly if its bytes outside that sector
  were erased before.
-/

namespace Air101
namespace Fls

open Storage

/-- `sfd_onchip_read`: the return value and the bytes. -/
def sfdOnchipRead (onchip : Option Nat) (d : Dev) (aligned : Bool) (offset len : Nat) : Int × List Byte :=
  match onchip with
  | none => (-1, [])
  | some addr =>
    match tlsFlsRead d aligned ((offset + addr) % 2 ^ 32) len with
    | (.ok, buff) => (len, buff)
    | (_, buff) => (-1, buff)

/-- `sfd_onchip_write`. -/
def sfdOnchipWrite (onchip : Option Nat) (heap : Bool) (d : Dev) (buff : List Byte) (offset : Nat) : Int × Dev :=
  match onchip with
  | none => (-1, d)
  | some addr =>
    let ret := tlsFlsWriteWithoutErase heap d ((offset + addr) % 2 ^ 32) buff
    if ret.1 ≠ .ok then (-1, ret.2) else (buff.length, ret.2)

/-- `sfd_onchip_erase`; the length is not looked at. -/
def sfdOnchipErase (onchip : Option Nat) (d : Dev) (offset _len : Nat) : Int × Dev :=
  match onchip with
  | none => (-1, d)
  | some addr =>
    let ret := tlsFlsErase d ((offset + addr) % 2 ^ 32 / 4096)
    if ret.1 ≠ .ok then (-1, ret.2) else (0, ret.2)

/-- `luat_flash_erase`; neither the length nor the status is looked at. -/
def luatFlashErase (d : Dev) (addr _len : Nat) : Int × Dev := (0, (tlsFlsErase d (addr / 4096)).2)

/-- An address counts from 0 or from `INSIDE_FLS_BASE_ADDR`. -/
def Mapped (c : Chip) (addr : Nat) : Prop := addr < 0x8000000 + c.density

/-- A partition of the chip. -/
structure Partition (c : Chip) where
  addr : Nat
  size : Nat
  mapped : Mapped c addr
  inside : addr % 0x8000000 + size ≤ c.density

/-- The old byte has every bit of the new one. -/
def Fits (old new : Byte) : Prop := old &&& new = new

instance (old new : Byte) : Decidable (Fits old new) := inferInstanceAs (Decidable (_ = _))

theorem tlsFlsErase_at (c : Chip) {d : Dev} (hd : d.insideFls = some c.density) {addr : Nat}
    (hmap : Mapped c addr) (hin : addr % 0x8000000 < c.density) :
    tlsFlsErase d (addr / 4096) =
      (.ok, d.issue (.erase (addr / 4096) [.erase (sectorOf (addr % 0x8000000)) 4096])) := by
  have hle := c.density_le
  have hal := c.aligned
  unfold Mapped at hmap
  have hsec : chipAddr (addr / 4096 * 4096) / 4096 * 4096 = sectorOf (addr % 0x8000000) := by
    unfold chipAddr sectorOf
    omega
  unfold tlsFlsErase eraseSector
  rw [hd]
  simp only []
  rw [if_neg (by omega), hsec]

theorem erase_cell (m : Nat → Byte) (a x : Nat) :
    (Op.erase (sectorOf a) 4096).apply m x = if sectorOf x = sectorOf a then 0xFF#8 else m x := by
  have hiff : (sectorOf a ≤ x ∧ x < sectorOf a + 4096) ↔ sectorOf x = sectorOf a := by
    unfold sectorOf
    omega
  simp only [Op.apply, hiff]

section Device

variable (c : Chip) {d : Dev}

theorem luatFlashErase_cell (hd : d.insideFls = some c.density) {addr : Nat} (hmap : Mapped c addr)
    (hin : addr % 0x8000000 < c.density) (len x : Nat) :
    (luatFlashErase d addr len).2.mem x =
      if sectorOf x = sectorOf (addr % 0x8000000) then 0xFF#8 else d.mem x := by
  rw [luatFlashErase, tlsFlsErase_at c hd hmap hin]
  exact erase_cell _ _ _

/-- Exactly the bytes outside the first sector must be erased before. -/
theorem luatFlashErase_iff (hd : d.insideFls = some c.density) {addr len : Nat} (hmap : Mapped c addr)
    (hlen : 1 ≤ len) (hin : addr % 0x8000000 + len ≤ c.density) :
    (∀ i, i < len → (luatFlashErase d addr len).2.mem (addr % 0x8000000 + i) = 0xFF#8) ↔
      ∀ i, i < len → sectorOf (addr % 0x8000000 + i) ≠ sectorOf (addr % 0x8000000) →
        d.mem (addr % 0x8000000 + i) = 0xFF#8 := by
  have hcell := luatFlashErase_cell c hd hmap (by omega) len
  constructor
  · intro h i hi hsec
    rw [← h i hi, hcell, if_neg hsec]
  · intro h i hi
    rw [hcell]
    split
    · rfl
    · rename_i hsec
      exact h i hi hsec

theorem slice_eq_iff (m : Nat → Byte) (a : Nat) (bs : List Byte) :
    slice m a bs.length = bs ↔ ∀ i, (h : i < bs.length) → m (a + i) = bs[i] := by
  constructor
  · intro h i hi
    have hcell := slice_getElem? m a bs.length i
    rw [h, if_pos hi, List.getElem?_eq_getElem hi] at hcell
    exact (Option.some.inj hcell).symm
  · intro h
    apply List.ext_getElem
    · exact slice_length _ _ _
    · intro i h1 h2
      rw [slice_getElem, h i h2]

theorem tlsFlsRead_at {addr len : Nat} (hd : d.insideFls = some c.density) (aligned : Bool) (hlen : 1 ≤ len)
    (hin : addr % 0x8000000 + len ≤ c.density) :
    tlsFlsRead d aligned addr len = (.ok, slice d.mem (addr % 0x8000000) len) := by
  have hle := c.density_le
  have hchip : chipAddr addr = addr % 0x8000000 := by
    unfold chipAddr
    omega
  unfold tlsFlsRead
  rw [rangeCheck_ok hd (by omega) hlen, flashRead_eq _ _ _ _ (by omega), hchip]

/-- The erase and the write succeed, and the read finds the data exactly if the bytes outside the first
sector can take it. -/
theorem onchip_rewrite (hd : d.insideFls = some c.density) (p : Partition c) (offset : Nat)
    (data : List Byte) (aligned : Bool) (hlen : 1 ≤ data.length) (hin : offset + data.length ≤ p.size) :
    let erased := sfdOnchipErase (some p.addr) d offset data.length
    let written := sfdOnchipWrite (some p.addr) true erased.2 data offset
    erased.1 = 0 ∧ written.1 = data.length ∧
      ((sfdOnchipRead (some p.addr) written.2 aligned offset data.length).2 = data ↔
        ∀ i, (h : i < data.length) →
          sectorOf (p.addr % 0x8000000 + offset + i) ≠ sectorOf (p.addr % 0x8000000 + offset) →
            Fits (d.mem (p.addr % 0x8000000 + offset + i)) data[i]) := by
  have hle := c.density_le
  have hpin := p.inside
  have hmap := p.mapped
  unfold Mapped at hmap
  have haddr : (offset + p.addr) % 2 ^ 32 = offset + p.addr := Nat.mod_eq_of_lt (by omega)
  have hbase : (offset + p.addr) % 0x8000000 = p.addr % 0x8000000 + offset := by omega
  have hmapped : Mapped c (offset + p.addr) := by unfold Mapped; omega
  have herase := tlsFlsErase_at c hd hmapped (by omega)
  rw [hbase] at herase
  simp only [sfdOnchipErase, haddr, herase, ne_eq, not_true_eq_false, if_false]
  generalize hd1 : d.issue (.erase ((offset + p.addr) / 4096)
    [.erase (sectorOf (p.addr % 0x8000000 + offset)) 4096]) = d1
  have hdens : d1.insideFls = some c.density := by rw [← hd1]; exact hd
  have hstart : (offset + p.addr) % 0x8000000 < c.density := by omega
  obtain ⟨hst, hmem⟩ := tlsFlsWriteWithoutErase_ok hdens hstart (List.length_pos_iff.mp hlen) (by omega)
  rw [hbase] at hmem
  simp only [sfdOnchipWrite, haddr, hst, ne_eq, not_true_eq_false, if_false]
  refine ⟨trivial, trivial, ?_⟩
  have hend : (offset + p.addr) % 0x8000000 + data.length ≤ c.density := by omega
  have hread := tlsFlsRead_at c (d := (tlsFlsWriteWithoutErase true d1 (offset + p.addr) data).2)
    (by rw [tlsFlsWriteWithoutErase_insideFls, hdens]) aligned hlen hend
  simp only [sfdOnchipRead, haddr, hread]
  rw [hbase, hmem, slice_eq_iff]
  -- a byte of the first sector is programmed onto ones, any other one onto what was there
  have hcell : ∀ x, d1.mem x =
      if sectorOf x = sectorOf (p.addr % 0x8000000 + offset) then 0xFF#8 else d.mem x := by
    intro x
    rw [← hd1]
    exact erase_cell _ _ _
  constructor
  · intro h i hi hsec
    have hi' := h i hi
    rwa [program_at _ _ _ i hi, hcell, if_neg hsec] at hi'
  · intro h i hi
    rw [program_at _ _ _ i hi, hcell]
    split
    · exact BitVec.allOnes_and
    · rename_i hsec
      exact h i hi hsec

end Device

/-- The store reads back what it wrote after an erase exactly if the bytes outside the first sector have
every bit that the data needs, and `luat_flash_erase` erases its range exactly if the bytes outside the
first sector were erased before. -/
theorem onchip_device_iff (c : Chip) {d : Dev} (hd : d.insideFls = some c.density) :
    (∀ (p : Partition c) (offset : Nat) (data : List Byte) (aligned : Bool), 1 ≤ data.length →
      offset + data.length ≤ p.size → offset % 4096 = 0 →
      let erased := sfdOnchipErase (some p.addr) d offset data.length
      let written := sfdOnchipWrite (some p.addr) true erased.2 data offset
      ((sfdOnchipRead (some p.addr) written.2 aligned offset data.length).2 = data ↔
        ∀ i, (h : i < data.length) →
          sectorOf (p.addr % 0x8000000 + offset + i) ≠ sectorOf (p.addr % 0x8000000 + offset) →
            Fits (d.mem (p.addr % 0x8000000 + offset + i)) data[i])) ∧
    ∀ addr len, Mapped c addr → 1 ≤ len → addr % 0x8000000 + len ≤ c.density →
      ((∀ i, i < len → (luatFlashErase d addr len).2.mem (addr % 0x8000000 + i) = 0xFF#8) ↔
        ∀ i, i < len → sectorOf (addr % 0x8000000 + i) ≠ sectorOf (addr % 0x8000000) →
          d.mem (addr % 0x8000000 + i) = 0xFF#8) := by
  refine ⟨?_, ?_⟩
  · intro p offset data aligned hlen hin _
    exact (onchip_rewrite c hd p offset data aligned hlen hin).2.2
  · intro addr len hmap hlen hin
    exact luatFlashErase_iff c hd hmap hlen hin

/-- A chip of 2 MB whose cells are all zero. -/
def zero2M : Dev := ⟨some 0x200000, fun _ => 0#8, []⟩

theorem partition_mapped : Mapped chip2M 0x1E0000 := by unfold Mapped; decide

theorem partition_inside : 0x1E0000 % 0x8000000 + 0x10000 ≤ chip2M.density := by decide

/-- A partition of 64 KB, given by its offset in the chip. -/
def partition64K : Partition chip2M :=
  { addr := 0x1E0000, size := 0x10000, mapped := partition_mapped, inside := partition_inside }

/-- One byte at the start of the partition, and one sector erased at the start of the chip. -/
theorem onchip_device_one_sector :
    (let erased := sfdOnchipErase (some 0x1E0000) zero2M 0 1
     let written := sfdOnchipWrite (some 0x1E0000) true erased.2 [0xA5#8] 0
     (sfdOnchipRead (some 0x1E0000) written.2 true 0 1).2 = [0xA5#8]) ∧
      ∀ i, i < 4096 → (luatFlashErase zero2M 0x8000000 4096).2.mem (0 + i) = 0xFF#8 := by
  obtain ⟨hstore, herase⟩ := onchip_device_iff chip2M (d := zero2M) rfl
  refine ⟨(hstore partition64K 0 [0xA5#8] true (by decide) (by decide) rfl).mpr ?_,
    (herase 0x8000000 4096 (by unfold Mapped; decide) (by decide) (by decide)).mpr ?_⟩
  · intro i hi hsec
    have hi0 : i = 0 := by simpa using hi
    subst hi0
    exact absurd rfl hsec
  · intro i hi hsec
    unfold sectorOf at hsec
    omega

/-- A sector and a byte over zeros: the last byte cannot be written, and is not erased either. -/
theorem onchip_device_two_sectors :
    ¬ ((∀ (p : Partition chip2M) (offset : Nat) (data : List Byte), 1 ≤ data.length →
        offset + data.length ≤ p.size → offset % 4096 = 0 →
        let erased := sfdOnchipErase (some p.addr) zero2M offset data.length
        let written := sfdOnchipWrite (some p.addr) true erased.2 data offset
        (sfdOnchipRead (some p.addr) written.2 true offset data.length).2 = data)) ∧
    ¬ ∀ i, i < 4097 → (luatFlashErase zero2M 0x8000000 4097).2.mem (0 + i) = 0xFF#8 := by
  refine ⟨?_, ?_⟩
  · intro h
    have hlen : (List.replicate 4097 0xFF#8).length = 4097 := List.length_replicate
    have hread := h partition64K 0 (List.replicate 4097 0xFF#8) (by rw [hlen]; decide) (by rw [hlen]; decide) rfl
    have hbits := (onchip_rewrite chip2M (d := zero2M) rfl partition64K 0 (List.replicate 4097 0xFF#8) true
      (by rw [hlen]; decide) (by rw [hlen]; decide)).2.2.mp hread 4096 (by rw [hlen]; decide) (by decide)
    rw [List.getElem_replicate] at hbits
    exact absurd hbits (by decide)
  · intro h
    have hmapped : Mapped chip2M 0x8000000 := by unfold Mapped; decide
    have hbefore := (luatFlashErase_iff chip2M (d := zero2M) rfl hmapped (by decide) (by decide)).mp h 4096
      (by decide) (by decide)
    exact absurd hbefore (by decide)

end Fls
end Air101

import Air101.BleWifi.Frame
import Air101.Storage.CrcBits

/-!
# Utils.Crc8

The CRC-8 of `platform/common/utils/utils.c`: `chk_crc8` and `calculate_crc8`, next to `get_crc8`
and its table. The table is eight shifts of the reflected register with the constant `0xE0`
(`crc8Tbl_shifts`), so the three functions are the bitwise CRC over the bits of the message, least
significant bit of a byte first (`calculateCrc8_eq`).
-/

namespace Air101
namespace Utils

open Storage
open BleWifi (crc8Tbl getCrc8)

/-- `chk_crc8`: 0 when the frame is accepted. -/
def chkCrc8 (bs : List Byte) : Int :=
  let crc8 := bs.foldl (fun crc8 data => crc8Tbl.getD (crc8 ^^^ data).toNat 0) 0
  if crc8 = 0 then 0 else -1

def calculateCrc8 (crc8 : Byte) (bs : List Byte) : Byte :=
  bs.foldl (fun crc8 data => crc8Tbl.getD (crc8 ^^^ data).toNat 0) crc8

theorem crc8Tbl_eq_map :
    crc8Tbl = (List.range 256).map fun i => (CrcBits.shift 0xE0#8)^[8] (BitVec.ofNat 8 i) := by
  decide +kernel

theorem crc8Tbl_shifts (a : Byte) :
    crc8Tbl.getD a.toNat 0 = (CrcBits.shift 0xE0#8)^[8] a := by
  rw [crc8Tbl_eq_map, List.getD_eq_getElem?_getD, List.getElem?_map, List.getElem?_range a.isLt,
    Option.map_some, Option.getD_some, BitVec.ofNat_toNat, BitVec.setWidth_eq]

/-- The table-driven loop is the bitwise CRC. -/
theorem calculateCrc8_eq (crc8 : Byte) (bs : List Byte) :
    calculateCrc8 crc8 bs = CrcBits.crc 0xE0#8 crc8 (CrcBits.bitsOf bs) := by
  induction bs generalizing crc8 with
  | nil => rfl
  | cons b bs ih =>
    have hstep : calculateCrc8 crc8 (b :: bs) =
        calculateCrc8 (crc8Tbl.getD (crc8 ^^^ b).toNat 0) bs := rfl
    rw [hstep, ih, crc8Tbl_shifts, CrcBits.crc_bitsOf_cons]

theorem getCrc8_eq (bs : List Byte) : getCrc8 bs = calculateCrc8 0 bs := rfl

theorem calculateCrc8_append (crc8 : Byte) (a b : List Byte) :
    calculateCrc8 crc8 (a ++ b) = calculateCrc8 (calculateCrc8 crc8 a) b := List.foldl_append

theorem chkCrc8_eq (bs : List Byte) : chkCrc8 bs = if getCrc8 bs = 0 then 0 else -1 := rfl

theorem chkCrc8_eq_zero_iff (bs : List Byte) : chkCrc8 bs = 0 ↔ getCrc8 bs = 0 := by
  rw [chkCrc8_eq]
  split <;> simp_all

/-- A byte that equals the register clears it. -/
theorem getCrc8_append_self (m : List Byte) : getCrc8 (m ++ [getCrc8 m]) = 0 := by
  have hlast : getCrc8 (m ++ [getCrc8 m]) =
      crc8Tbl.getD (getCrc8 m ^^^ getCrc8 m).toNat 0 := calculateCrc8_append 0 m [getCrc8 m]
  rw [hlast, BitVec.xor_self]
  rfl

/-- The CRC-8 of the three functions: the bitwise one, continued by `calculate_crc8`; `chk_crc8`
accepts a message with its CRC, and no frame that differs from an accepted one only within eight
consecutive bits. -/
theorem crc8_check :
    (∀ m, getCrc8 m = CrcBits.crc 0xE0#8 0#8 (CrcBits.bitsOf m)) ∧
    (∀ a b, calculateCrc8 (getCrc8 a) b = getCrc8 (a ++ b)) ∧
    (∀ m, chkCrc8 (m ++ [getCrc8 m]) = 0) ∧
    ∀ f f', chkCrc8 f = 0 → CrcBits.Burst 8 (CrcBits.bitsOf f) (CrcBits.bitsOf f') →
      chkCrc8 f' = -1 := by
  refine ⟨calculateCrc8_eq 0, fun a b => (calculateCrc8_append 0 a b).symm, ?_, ?_⟩
  · intro m
    exact (chkCrc8_eq_zero_iff _).mpr (getCrc8_append_self m)
  · intro f f' hf hburst
    have hne : getCrc8 f ≠ getCrc8 f' := by
      rw [getCrc8_eq, getCrc8_eq, calculateCrc8_eq, calculateCrc8_eq]
      exact CrcBits.crc_burst (by decide) 0 hburst
    rw [chkCrc8_eq, if_neg]
    intro hf'
    exact hne (((chkCrc8_eq_zero_iff f).mp hf).trans hf'.symm)

/-- An error across the two bytes of a frame. -/
theorem crc8_check_frame :
    chkCrc8 [0x01, 0x91] = 0 ∧ chkCrc8 [0x81, 0x90] = -1 :=
  ⟨crc8_check.2.2.1 [0x01],
    crc8_check.2.2.2 [0x01, 0x91] [0x81, 0x90] (by decide)
      ⟨CrcBits.byteBits 0x01 |>.take 7, [false, true], [true, false],
        (CrcBits.byteBits 0x91).drop 1, by decide, by decide, rfl, by decide, by decide⟩⟩

/-- Counted from the most significant bit down, an error within eight bits may go unnoticed. -/
example : chkCrc8 [0x00, 0x00] = 0 ∧ chkCrc8 [0x1B, 0x60] = 0 := by decide

end Utils
end Air101

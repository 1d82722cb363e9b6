import Air101.Param.Durable
import Air101.Tool.Crc

/-!
# Param.Checksum

The three CRC-32s of the sources: `get_crc32` in software, the table of the host tool and the
engine. `param_to_flash` stores the first one, and `tls_param_init` compares it with the complement
of what the third one says.

* `stamp_accepted`: the test of `tls_param_init` accepts every stamped record.
* `crc_implementations_agree`: the three on any bytes, and the record that `param_to_flash` leaves.
-/

namespace Air101
namespace Param

open Storage
open Crypto
open Fls
open Tool
open Utils

variable {hw : Engine} {c : Chip}

theorem getCrc32_checksum (bs : List Byte) : getCrc32 bs = Crc32.checksum bs := getCrc32_eq bs

theorem wmToolCrc32_checksum (bs : List Byte) :
    ~~~ wmToolCrc32 0xFFFFFFFF#32 bs 0 = Crc32.checksum bs := by
  rw [wmToolCrc32_eq]
  rfl

theorem stamp_accepted (hr : Reflected hw) (p : ParamFlash) (num : BitVec 16)
    (around : Int → Byte) : partitionOk hw around (p.stamp num).bytes = true :=
  partitionOk_valid hr (stamp_valid p num) around

/-- The partition that `param_to_flash` leaves passes the test. -/
theorem paramToFlash_accepted (hr : Reflected hw) {s : State}
    (hd : s.dev.insideFls = some c.density) (heap : Nat → Bool) {id : Int}
    (hid : ¬ (id < -1 ∨ 66 ≤ id)) (partitionNum : Int) (around : Int → Byte) :
    partitionOk hw around (c.part (paramToFlash c heap id partitionNum s).2.dev.mem
      (isSecond (s.target partitionNum))) = true := by
  obtain ⟨d', hs', hwrote, _⟩ := paramToFlash_spec hd heap hid partitionNum
  have hl := (s.flashParam.stamp (s.target partitionNum)).bytes_length
  rw [hs', hwrote.part_eq hl]
  exact stamp_accepted hr _ _ around

/-- `get_crc32` and the host tool compute the CRC-32 of any bytes (the tool without the complement),
and with an engine that continues the reflected register `tls_param_init` accepts every record that
`param_to_flash` stamps, in RAM and in the partition where the call leaves it. -/
theorem crc_implementations_agree (hr : Reflected hw) {s : State}
    (hd : s.dev.insideFls = some c.density) (heap : Nat → Bool) {id : Int}
    (hid : ¬ (id < -1 ∨ 66 ≤ id)) (partitionNum : Int) (around : Int → Byte) :
    (∀ bs, getCrc32 bs = Crc32.checksum bs) ∧
      (∀ bs, wmToolCrc32 0xFFFFFFFF#32 bs 0 = ~~~ Crc32.checksum bs) ∧
      (∀ p num, partitionOk hw around (ParamFlash.stamp p num).bytes = true) ∧
      partitionOk hw around (c.part (paramToFlash c heap id partitionNum s).2.dev.mem
        (isSecond (s.target partitionNum))) = true := by
  refine ⟨getCrc32_checksum, ?_, ?_, ?_⟩
  · intro bs
    rw [← wmToolCrc32_checksum, BitVec.not_not]
  · intro p num
    exact stamp_accepted hr p num around
  · exact paramToFlash_accepted hr hd heap hid partitionNum around

theorem crc_implementations_agree_filled :
    (∀ bs, getCrc32 bs = Crc32.checksum bs) ∧
      (∀ bs, wmToolCrc32 0xFFFFFFFF#32 bs 0 = ~~~ Crc32.checksum bs) ∧
      (∀ p num, partitionOk softEngine (fun _ => 0#8) (ParamFlash.stamp p num).bytes = true) ∧
      partitionOk softEngine (fun _ => 0#8) (air101Chip.part
        (paramToFlash air101Chip (fun _ => true) (-1) 1
          (State.reset (air101Chip.filled .zero))).2.dev.mem
        (isSecond ((State.reset (air101Chip.filled .zero)).target 1))) = true :=
  crc_implementations_agree softEngine_reflected rfl (fun _ => true) (by omega) 1 fun _ => 0#8

end Param
end Air101

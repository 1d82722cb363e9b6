import Air101.Crypto.Chunks
import Air101.Storage.Bytes

/-!
# Fota.Image

The image header `IMAGE_HEADER_PARAM_ST` (`include/platform/wm_fwup.h`): a packed record of 64
bytes in front of every image, and `img_checksum` of `app/port/luat_fota_air101.c`.

* `imgChecksum_eq`: on the reflected engine it is the CRC-32 register over the whole words of its
  range; a tail of one to three bytes is left out.
-/

namespace Air101
namespace Fota

open Storage
open Crypto

/-! ## The header -/

/-- `MAGIC_NO`. -/
def magicNo : Nat := 0xA0FFFF9F

namespace Header

/-- `magic_no`. -/
def magic (h : List Byte) : Nat := field h 0 4
/-- `img_attr.b.img_type`: the low four bits of the attribute word. -/
def imgType (h : List Byte) : Nat := field h 4 4 % 16
/-- `img_attr.b.code_encrypt`: bit 4 of the attribute word. -/
def codeEncrypt (h : List Byte) : Bool := field h 4 4 / 2 ^ 4 % 2 = 1
/-- `img_attr.b.signature`: bit 8 of the attribute word. -/
def signature (h : List Byte) : Bool := field h 4 4 / 2 ^ 8 % 2 = 1
/-- `img_addr`. -/
def imgAddr (h : List Byte) : Nat := field h 8 4
/-- `img_len`. -/
def imgLen (h : List Byte) : Nat := field h 12 4
/-- `img_header_addr`. -/
def imgHeaderAddr (h : List Byte) : Nat := field h 16 4
/-- `upgrade_img_addr`. -/
def upgradeImgAddr (h : List Byte) : Nat := field h 20 4
/-- `org_checksum`. -/
def orgChecksum (h : List Byte) : Nat := field h 24 4
/-- `next`. -/
def next (h : List Byte) : Nat := field h 56 4
/-- `hd_checksum`. -/
def hdChecksum (h : List Byte) : Nat := field h 60 4

theorem imgLen_lt (h : List Byte) : imgLen h < 2 ^ 32 := field_lt h 12 4

end Header

/-! ## The checksum -/

section Checksum

variable (hw : Engine)

/-- The loop of `img_checksum`: `n` words, four bytes an update. -/
def checksumWords : Nat → List Byte → PsCrcContext → PsCrcContext
  | 0, _, ctx => ctx
  | n + 1, bs, ctx => checksumWords n (bs.drop 4) (tlsCryptoCrcUpdate hw ctx (bs.take 4))

/-- `img_checksum` of the bytes `bs`: the loop runs `len / 4` times. -/
def imgChecksum (bs : List Byte) : Nat :=
  let crcContext := tlsCryptoCrcInit 0xFFFFFFFF#32 .crc32 3
  (tlsCryptoCrcFinal (checksumWords hw (bs.length / 4) bs crcContext)).toNat

/-- The two tests of a header: its magic number and the checksum of its first 60 bytes. -/
def HeadOk (h : List Byte) : Prop :=
  Header.magic h = magicNo ∧ imgChecksum hw (h.take 60) = Header.hdChecksum h

instance (h : List Byte) : Decidable (HeadOk hw h) := inferInstanceAs (Decidable (_ ∧ _))

variable {hw}

/-- The loop is a sequence of updates with four bytes each. -/
theorem checksumWords_chunks : ∀ (n : Nat) (bs : List Byte), n * 4 ≤ bs.length →
    ∃ cs, Chunks cs ∧ cs.flatten = bs.take (n * 4) ∧
      ∀ ctx, checksumWords hw n bs ctx = updates hw ctx cs := by
  intro n
  induction n with
  | zero =>
    intro bs _
    exact ⟨[], chunks_nil, by simp, fun _ => rfl⟩
  | succ n ih =>
    intro bs hn
    obtain ⟨cs, hcs, hflat, heq⟩ := ih (bs.drop 4) (by rw [List.length_drop]; omega)
    have hlen : (bs.take 4).length = 4 := by rw [List.length_take]; omega
    have hne : bs.take 4 ≠ [] := by
      intro h0
      rw [h0] at hlen
      simp at hlen
    refine ⟨bs.take 4 :: cs, chunks_cons hne (by omega) hcs, ?_, ?_⟩
    · rw [List.flatten_cons, hflat, show (n + 1) * 4 = 4 + n * 4 by omega, List.take_add]
    · intro ctx
      rw [checksumWords, heq]
      rfl

theorem imgChecksum_chunks (bs : List Byte) :
    ∃ cs, Chunks cs ∧ cs.flatten = bs.take (bs.length / 4 * 4) ∧
      imgChecksum hw bs = (crcOf hw 0xFFFFFFFF#32 .crc32 3 cs).toNat := by
  obtain ⟨cs, hcs, hflat, heq⟩ := checksumWords_chunks (bs.length / 4) bs (by omega)
  refine ⟨cs, hcs, hflat, ?_⟩
  unfold imgChecksum
  simp only []
  rw [heq]
  rfl

/-- On the reflected engine the checksum is the CRC-32 register over the whole words. -/
theorem imgChecksum_eq (hr : Reflected hw) (bs : List Byte) :
    imgChecksum hw bs = (Crc32.update 0xFFFFFFFF#32 (bs.take (bs.length / 4 * 4))).toNat := by
  obtain ⟨cs, hcs, hflat, heq⟩ := imgChecksum_chunks bs
  rw [heq, ← hflat, crcOf,
    show tlsCryptoCrcInit 0xFFFFFFFF#32 .crc32 3 = crcContext 0xFFFFFFFF#32 from rfl,
    updates_reflected hr hcs]
  rfl

theorem imgChecksum_words (hr : Reflected hw) {bs : List Byte} (h4 : bs.length % 4 = 0) :
    imgChecksum hw bs = (Crc32.update 0xFFFFFFFF#32 bs).toNat := by
  rw [imgChecksum_eq hr, List.take_of_length_le (by omega)]

end Checksum

end Fota
end Air101

import Air101.Fls.Contract
import Air101.Fota.Image

/-!
# Fwup.Header

The header test of the firmware update (`platform/common/fwup/wm_fwup.c`):
`tls_fwup_img_header_check`, and what it says about the flash that `fwup_scheduler` then writes.

The test adds `img_len` to two addresses in 32 bits and compares the sums with the end of a region.
`fwup_scheduler` writes 64 bytes more than `img_len`, and 192 more if the image is signed.

* `header_bounds_iff`: the regions are respected exactly when the second sum does not wrap and leaves
  room for these bytes.
-/

namespace Air101
namespace Fwup

open Storage
open Crypto
open Fls
open Fota (Header.magic Header.imgType Header.codeEncrypt Header.signature Header.imgAddr Header.imgLen
  Header.imgHeaderAddr Header.upgradeImgAddr Header.orgChecksum Header.hdChecksum magicNo imgChecksum)

/-- What the flash map depends on: `AIR6208` or not. -/
inductive Target where
  | air101
  | air6208
  deriving DecidableEq, Repr

/-- `USER_ADDR_START`. -/
def userAddrStart : Target → Nat
  | .air101 => 0x81E0000
  | .air6208 => 0x87E0000

/-- `CODE_UPD_START_ADDR`. -/
def codeUpdStartAddr : Nat := 0x8010000

/-- `CODE_RUN_START_ADDR`. -/
def codeRunStartAddr : Nat := 0x80D0000

/-- `addr | FLASH_BASE_ADDR`. -/
def based (addr : Nat) : Nat := addr ||| 0x8000000

/-- `program_base` for a header. -/
def programBaseOf (h : List Byte) : Nat := based (Header.upgradeImgAddr h)

/-- The bytes of the signature behind a signed image. -/
def signatureLen (h : List Byte) : Nat := if Header.signature h then 128 else 0

/-- The bytes of an image with its header and signature, not reduced to 32 bits. -/
def imageBytes (h : List Byte) : Nat := 64 + Header.imgLen h + signatureLen h

section Check

variable (hw : Engine) (t : Target)

/-- The header of the running image, as the test reads it. A refused read leaves the 64 bytes `junk`
that the stack held. -/
def runParam (d : Dev) (junk : List Byte) (h : List Byte) : List Byte :=
  match tlsFlsRead d true (Header.imgHeaderAddr h) 64 with
  | (.ok, bs) => bs
  | _ => junk

/-- `tls_fwup_img_header_check`. -/
def tlsFwupImgHeaderCheck (d : Dev) (junk : List Byte) (h : List Byte) : Bool :=
  if Header.magic h ≠ magicNo then false
  else if Header.imgType h ≠ 1 then false
  else if Header.signature (runParam d junk h) ≠ Header.signature h then false
  else if Header.codeEncrypt (runParam d junk h) ≠ Header.codeEncrypt h then false
  else if Header.imgAddr h % 0x400 ≠ 0 then false
  else if userAddrStart t ≤ based (Header.imgAddr h) then false
  else if userAddrStart t ≤ (based (Header.imgAddr h) + Header.imgLen h) % 2 ^ 32 then false
  else if programBaseOf h < codeUpdStartAddr ∨
      codeRunStartAddr ≤ (programBaseOf h + Header.imgLen h) % 2 ^ 32 then false
  else imgChecksum hw (h.take 60) = Header.hdChecksum h

end Check

/-! ## What an accepted header says -/

theorem based_ge (addr : Nat) : 0x8000000 ≤ based addr := Nat.right_le_or

/-- The comparisons of an accepted header, with the sums in 32 bits. -/
structure Accepted (t : Target) (h : List Byte) : Prop where
  img_lt : based (Header.imgAddr h) < userAddrStart t
  img_end : (based (Header.imgAddr h) + Header.imgLen h) % 2 ^ 32 < userAddrStart t
  base_ge : codeUpdStartAddr ≤ programBaseOf h
  base_end : (programBaseOf h + Header.imgLen h) % 2 ^ 32 < codeRunStartAddr

theorem accepted {hw : Engine} {t : Target} {d : Dev} {junk h : List Byte}
    (hok : tlsFwupImgHeaderCheck hw t d junk h = true) : Accepted t h := by
  unfold tlsFwupImgHeaderCheck at hok
  repeat' split at hok
  all_goals try exact absurd hok (by decide)
  rename_i himg hend hupd
  obtain ⟨hbase, hrun⟩ := not_or.mp hupd
  exact ⟨Nat.not_le.mp himg, Nat.not_le.mp hend, Nat.not_lt.mp hbase, Nat.not_le.mp hrun⟩

/-- The regions of the flash map, in natural numbers: what `fwup_scheduler` writes lies in the upgrade
area, and the run-time image lies below the user's area. -/
def InRegions (t : Target) (h : List Byte) : Prop :=
  codeUpdStartAddr ≤ programBaseOf h ∧ programBaseOf h + imageBytes h ≤ codeRunStartAddr ∧
    based (Header.imgAddr h) + Header.imgLen h ≤ userAddrStart t

theorem Accepted.inRegions_iff {t : Target} {h : List Byte} (hacc : Accepted t h) :
    InRegions t h ↔ programBaseOf h + Header.imgLen h < 2 ^ 32 ∧
      (programBaseOf h + Header.imgLen h) % 2 ^ 32 + 64 + signatureLen h ≤ codeRunStartAddr := by
  obtain ⟨himg, hend, hbase, hrun⟩ := hacc
  have huser : userAddrStart t ≤ 0x87E0000 := by cases t <;> decide
  have hsig : signatureLen h ≤ 128 := by
    unfold signatureLen
    split <;> omega
  have hge := based_ge (Header.upgradeImgAddr h)
  unfold InRegions imageBytes
  unfold codeUpdStartAddr at hbase ⊢
  unfold codeRunStartAddr at hrun ⊢
  unfold programBaseOf at hbase hrun ⊢
  constructor
  · rintro ⟨_, hfit, _⟩
    omega
  · rintro ⟨hwrap, hfit⟩
    refine ⟨hbase, by omega, by omega⟩

/-- An accepted header keeps to the regions exactly when the sum that is compared with
`CODE_RUN_START_ADDR` does not wrap and leaves room for the header and the signature. -/
theorem header_bounds_iff (hw : Engine) (t : Target) (d : Dev) (junk h : List Byte)
    (hok : tlsFwupImgHeaderCheck hw t d junk h = true) :
    InRegions t h ↔ programBaseOf h + Header.imgLen h < 2 ^ 32 ∧
      (programBaseOf h + Header.imgLen h) % 2 ^ 32 + 64 + signatureLen h ≤ codeRunStartAddr :=
  (accepted hok).inRegions_iff

/-- A header for the upgrade area with the given image length and checksum, and the run-time image at
`0x80D0400`. -/
def headerFor (len org : Nat) : List Byte :=
  let fields := leBytes 4 magicNo ++ leBytes 4 1 ++ leBytes 4 0x80D0400 ++ leBytes 4 len ++
    leBytes 4 0x80D0000 ++ leBytes 4 codeUpdStartAddr ++ leBytes 4 org ++ List.replicate 32 0#8
  fields ++ leBytes 4 (imgChecksum softEngine fields)

/-- A chip of 2 MB with nothing but zeros. -/
def zeros2M : Dev := ⟨some 0x200000, fun _ => 0#8, []⟩

theorem header_bounds_small :
    tlsFwupImgHeaderCheck softEngine .air101 zeros2M [] (headerFor 4 0) = true ∧
      InRegions .air101 (headerFor 4 0) := by
  have hok : tlsFwupImgHeaderCheck softEngine .air101 zeros2M [] (headerFor 4 0) = true := by
    decide +kernel
  refine ⟨hok, (header_bounds_iff softEngine .air101 zeros2M [] _ hok).mpr ?_⟩
  decide +kernel

/-- An image that ends one byte in front of `CODE_RUN_START_ADDR` by the test's own sum: its last bytes
are written behind it. -/
theorem header_bounds_overrun :
    ¬ ∀ h : List Byte, h.length = 64 →
      tlsFwupImgHeaderCheck softEngine .air101 zeros2M [] h = true → InRegions .air101 h := by
  intro hall
  obtain ⟨_, hend, _⟩ := hall (headerFor 0xBFFFF 0) (by simp [headerFor]) (by decide +kernel)
  revert hend
  decide +kernel

end Fwup
end Air101

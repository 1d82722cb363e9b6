import Air101.Fwup.Stream

/-!
# Fwup.Checksum

One checksum over an image, cut in two ways: `img_checksum` gives the engine a word at a time,
`fwup_scheduler` reads the flash back and gives it up to 1 KB at a time.

* `verifyLoop_imgChecksum`: these two agree on any whole words.
* `crc_cut_independent`: how the bytes are cut does not matter.
-/

namespace Air101
namespace Fwup

open Storage
open Crypto
open Fls
open Fota (imgChecksum imgChecksum_chunks)

variable {hw : Engine} (c : MapChip)

/-- Both loops get the same value for whole words. -/
theorem verifyLoop_imgChecksum (h : Continues hw) {d : Dev} (hd : d.insideFls = some c.density)
    (base left : Nat) (hend : base % 2 ^ 27 + 64 + left ≤ c.density) (hword : left % 4 = 0) :
    (State.verifyLoop hw d base left 64 left (tlsCryptoCrcInit 0xFFFFFFFF#32 .crc32 3)).map
        (fun ctx => (tlsCryptoCrcFinal ctx).toNat) =
      some (imgChecksum hw (slice d.mem (base % 2 ^ 27 + 64) left)) := by
  obtain ⟨cs, hcs, hflat, hloop⟩ := verifyLoop_chunks c base hd left 64 left (Nat.le_refl _) hend
  obtain ⟨ds, hds, hflat', hsum⟩ := imgChecksum_chunks (slice d.mem (base % 2 ^ 27 + 64) left)
  rw [slice_length, List.take_of_length_le (by rw [slice_length]; omega)] at hflat'
  have hcut := h.crcOf_congr 0xFFFFFFFF#32 .crc32 3 hcs hds (hflat.trans hflat'.symm)
  rw [hsum, ← hcut, hloop, Option.map_some]
  rfl

/-- The result of a CRC computation depends on the bytes and not on how they are cut into chunks: for
any seed, type and mode, and so for the words of `img_checksum` and the blocks of
`fwup_scheduler`. -/
theorem crc_cut_independent (h : Continues hw) :
    (∀ (key : BitVec 32) (type : CrcType) (mode : Nat) (cs ds : List (List Byte)),
      Chunks cs → Chunks ds → cs.flatten = ds.flatten →
        crcOf hw key type mode cs = crcOf hw key type mode ds) ∧
      ∀ (c : MapChip) (d : Dev) (base left : Nat), d.insideFls = some c.density →
        base % 2 ^ 27 + 64 + left ≤ c.density → left % 4 = 0 →
          (State.verifyLoop hw d base left 64 left (tlsCryptoCrcInit 0xFFFFFFFF#32 .crc32 3)).map
              (fun ctx => (tlsCryptoCrcFinal ctx).toNat) =
            some (imgChecksum hw (slice d.mem (base % 2 ^ 27 + 64) left)) := by
  constructor
  · intro key type mode cs ds hcs hds hflat
    exact h.crcOf_congr key type mode hcs hds hflat
  · intro c d base left hd hend hword
    exact verifyLoop_imgChecksum c h hd base left hend hword

theorem crc_cut_independent_ccitt :
    crcOf serialEngine 0xFFFF#32 .crc16Ccitt 1 [[1#8], [2#8, 3#8]] =
      crcOf serialEngine 0xFFFF#32 .crc16Ccitt 1 [[1#8, 2#8], [3#8]] :=
  (crc_cut_independent serialEngine_continues).1 _ _ _ _ _ (by simp [Chunks]) (by simp [Chunks]) rfl

end Fwup
end Air101

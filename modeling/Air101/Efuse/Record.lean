import Air101.Crypto.Crc
import Air101.Storage.Bytes

/-!
# Efuse.Record

The factory parameters (`platform/drivers/efuse/wm_efuse.c`): `FT_PARAM_ST_VER1`, 228 bytes. In
front `FT_PARAM_ST` with 140 bytes, which is all that the legacy format has; behind it the checksum
of the extension, the extension `FT_PARAM_ST_EXT_1` with 52 bytes, and 32 reserved bytes.

A record carries its length. Its members are parts of its bytes, so that a copy longer than the
member it is meant for runs into the next one as it does in the source.

* `part_write_same`, `part_write_other`, `part_write_head`: what a part is after a write.
* `check_checksums`: a record with renewed checksums and a valid extension passes the checks.
* `check_eq_one`: what a record that passes them is.
* `Summed.eq`: the checksums of a record are determined by its other bytes.
-/

namespace Air101
namespace Efuse

open Storage
open Crypto

/-- `SIGNATURE_WORD`. -/
def signatureWord : Nat := 0xA0FFFF9F

/-- `FT_PARAM_ST_VER1`, as its bytes. -/
structure FtParam where
  bytes : List Byte
  length_eq : bytes.length = 228
  deriving DecidableEq

namespace FtParam

def zero : FtParam := ⟨List.replicate 228 0#8, List.length_replicate⟩

/-- `memset` to `0xFF`. -/
def erased : FtParam := ⟨List.replicate 228 0xFF#8, List.length_replicate⟩

/-- The `n` bytes at an offset. -/
def part (p : FtParam) (offset n : Nat) : List Byte := (p.bytes.drop offset).take n

/-- Bytes put at an offset; the record ends after 228. -/
def write (p : FtParam) (offset : Nat) (bs : List Byte) : FtParam :=
  ⟨(patch p.bytes offset bs).take 228, take_patch_length p.length_eq offset bs⟩

/-- The record with the given bytes in front. -/
def ofBytes (bs : List Byte) : FtParam := erased.write 0 bs

def magicNo (p : FtParam) : Nat := leNat (p.part 0 4)
def checksum (p : FtParam) : Nat := leNat (p.part 4 4)
def versionNo (p : FtParam) : Nat := leNat (p.part 20 2)
def extParamLen (p : FtParam) : Nat := leNat (p.part 28 2)
def extChecksum (p : FtParam) : Nat := leNat (p.part 140 4)

/-- `_ft_ext1_valid`. -/
def ext1Valid (p : FtParam) : Bool :=
  0 < p.versionNo ∧ p.versionNo < 0xFFFF ∧ 52 ≤ p.extParamLen ∧ p.extParamLen ≤ 52 + 32

end FtParam

/-- The CRC that all checksums of the record are: one update from `0xFFFFFFFF`, both reflections. -/
def ftCrc (hw : Engine) (bs : List Byte) : Nat :=
  (tlsCryptoCrcFinal (tlsCryptoCrcUpdate hw (tlsCryptoCrcInit 0xFFFFFFFF#32 .crc32 3) bs)).toNat

namespace FtParam

variable (hw : Engine)

/-- `version_no` and `ext_param_len` both set to `0xFFFF`. -/
def legacy (p : FtParam) : FtParam :=
  (p.write 20 [0xFF#8, 0xFF#8]).write 28 [0xFF#8, 0xFF#8]

/-- What `_ft_param_init` makes of the record it has read: its return value, and the record. One
without a valid extension is taken for the legacy format. -/
def check (p : FtParam) : Nat × FtParam :=
  if p.magicNo = signatureWord then
    if p.checksum ≠ ftCrc hw (p.part 8 132) then (0, p)
    else if p.ext1Valid then
      if p.extChecksum = ftCrc hw (p.part 144 p.extParamLen) then (1, p) else (0, p)
    else (2, p.legacy)
  else (0, p)

/-- The start of the update in `tls_ft_param_set`: a record without a valid extension gets an empty
one. -/
def upgrade (p : FtParam) : FtParam :=
  if p.ext1Valid then p
  else
    ((p.write 20 (leBytes 2 1)).write 28 (leBytes 2 52)).write 144 (List.replicate 52 0xFF#8)

/-- `memcpy` into the record; `none` when it would write behind its end. -/
def copyIn (p : FtParam) (offset : Nat) (bs : List Byte) : Option FtParam :=
  if offset + bs.length ≤ 228 then some (p.write offset bs) else none

/-- The new checksum of the extension, the magic number, the new checksum. -/
def checksums (p : FtParam) : FtParam :=
  let p := p.write 140 (leBytes 4 (ftCrc hw (p.part 144 p.extParamLen)))
  let p := p.write 0 (leBytes 4 signatureWord)
  p.write 4 (leBytes 4 (ftCrc hw (p.part 8 132)))

/-- The end of the update in `tls_ft_param_set`. The CRC engine reads `ext_param_len` bytes of the
extension; `none` when that goes behind the end of the record. -/
def renew (p : FtParam) : Option FtParam :=
  if 144 + p.extParamLen ≤ 228 then some (p.checksums hw) else none

end FtParam

/-! ## Parts -/

namespace FtParam

theorem write_bytes (p : FtParam) {offset : Nat} {bs : List Byte} (h : offset + bs.length ≤ 228) :
    (p.write offset bs).bytes = patch p.bytes offset bs := by
  apply List.take_of_length_le
  rw [patch_length (by rw [p.length_eq]; exact h)]
  exact Nat.le_of_eq p.length_eq

theorem part_length (p : FtParam) {offset n : Nat} (h : offset + n ≤ 228) :
    (p.part offset n).length = n := by
  rw [part, List.length_take, List.length_drop, p.length_eq]
  omega

theorem part_all (p : FtParam) : p.part 0 228 = p.bytes := by
  rw [part, List.drop_zero, List.take_of_length_le (Nat.le_of_eq p.length_eq)]

theorem part_part (p : FtParam) (offset : Nat) {n k j : Nat} (h : k + j ≤ n) :
    ((p.part offset n).drop k).take j = p.part (offset + k) j := by
  rw [part, part, List.drop_take, List.take_take, Nat.min_eq_left (by omega), List.drop_drop]

theorem eq_of_part {p q : FtParam} (h : p.part 0 228 = q.part 0 228) : p = q := by
  rw [part_all, part_all] at h
  cases p
  cases q
  cases h
  rfl

section Write

variable (p : FtParam) {offset : Nat} {bs : List Byte} (h : offset + bs.length ≤ 228)

include h

/-- A part from the start of a write on: the new bytes, and behind them what was there. -/
theorem part_write_head {n : Nat} (hn : bs.length ≤ n) :
    (p.write offset bs).part offset n = bs ++ (p.part offset n).drop bs.length := by
  have htake : (p.bytes.take offset).length = offset := by
    rw [List.length_take, p.length_eq]
    omega
  rw [part, write_bytes p h, patch, List.append_assoc, List.drop_left' htake,
    List.take_append, List.take_of_length_le hn, part, List.drop_take, List.drop_drop]

theorem part_write_same : (p.write offset bs).part offset bs.length = bs := by
  rw [part_write_head p h (Nat.le_refl _), List.drop_eq_nil_of_le, List.append_nil]
  rw [part, List.length_take]
  omega

theorem part_write_other {k n : Nat} (hk : k + n ≤ offset ∨ offset + bs.length ≤ k) :
    (p.write offset bs).part k n = p.part k n := by
  have hl := p.length_eq
  rw [part, part, write_bytes p h, patch]
  rcases hk with hk | hk
  · rw [List.append_assoc, List.drop_append_of_le_length (by rw [List.length_take]; omega),
      List.take_append_of_le_length (by rw [List.length_drop, List.length_take]; omega),
      List.drop_take, List.take_take, Nat.min_eq_left (by omega)]
  · have hfront : (p.bytes.take offset ++ bs).length = offset + bs.length := by
      rw [List.length_append, List.length_take]
      omega
    obtain ⟨j, rfl⟩ : ∃ j, k = offset + bs.length + j := ⟨k - (offset + bs.length), by omega⟩
    rw [← List.drop_drop, List.drop_left' hfront, List.drop_drop]

end Write

theorem leNat_part_write (p : FtParam) {offset n v : Nat} (hin : offset + n ≤ 228) (hv : v < 256 ^ n) :
    leNat ((p.write offset (leBytes n v)).part offset n) = v := by
  have h := part_write_same p (show offset + (leBytes n v).length ≤ 228 by simpa using hin)
  rw [leBytes_length] at h
  rw [h, leNat_leBytes hv]

theorem write_part (p : FtParam) {offset n : Nat} (h : offset + n ≤ 228) :
    p.write offset (p.part offset n) = p := by
  have hl := part_length p h
  have hbytes := write_bytes p (show offset + (p.part offset n).length ≤ 228 by omega)
  rw [patch, hl, part, List.append_assoc, ← List.drop_drop, List.take_append_drop,
    List.take_append_drop] at hbytes
  apply eq_of_part
  rw [part_all, part_all]
  exact hbytes

theorem part_write_in (p : FtParam) {offset k n : Nat} {bs : List Byte}
    (h : offset + bs.length ≤ 228) (hk : k + n ≤ bs.length) :
    (p.write offset bs).part (offset + k) n = (bs.drop k).take n := by
  rw [← part_part (p.write offset bs) offset hk, part_write_same p h]

theorem ofBytes_bytes (p : FtParam) : ofBytes p.bytes = p := by
  have hl := p.length_eq
  apply eq_of_part
  have h := part_write_same erased (show 0 + p.bytes.length ≤ 228 by omega)
  rw [hl] at h
  rw [ofBytes, h, part_all]

theorem bytes_ofBytes {bs : List Byte} (h : bs.length = 228) : (ofBytes bs).bytes = bs := by
  have hw := part_write_same erased (show 0 + bs.length ≤ 228 by omega)
  rw [h, part_all] at hw
  exact hw

/-! ## Checks -/

section Checks

variable {hw : Engine} {p : FtParam}

theorem ftCrc_lt (hw : Engine) (bs : List Byte) : ftCrc hw bs < 256 ^ 4 := BitVec.isLt _

theorem ext1Valid_iff : p.ext1Valid = true ↔
    0 < p.versionNo ∧ p.versionNo < 0xFFFF ∧ 52 ≤ p.extParamLen ∧ p.extParamLen ≤ 84 := by
  simp [ext1Valid]

theorem check_eq_one : (p.check hw).1 = 1 ↔
    p.magicNo = signatureWord ∧ p.checksum = ftCrc hw (p.part 8 132) ∧ p.ext1Valid = true ∧
      p.extChecksum = ftCrc hw (p.part 144 p.extParamLen) := by
  unfold check
  constructor
  · intro h
    split at h
    · rename_i hmagic
      split at h
      · cases h
      · rename_i hsum
        split at h
        · rename_i hext
          split at h
          · rename_i hextsum
            exact ⟨hmagic, not_not.mp hsum, hext, hextsum⟩
          · cases h
        · cases h
    · cases h
  · rintro ⟨hmagic, hsum, hext, hextsum⟩
    rw [if_pos hmagic, if_neg (not_not.mpr hsum), if_pos hext, if_pos hextsum]

theorem check_of_one (h : (p.check hw).1 = 1) : p.check hw = (1, p) := by
  obtain ⟨hmagic, hsum, hext, hextsum⟩ := check_eq_one.mp h
  unfold check
  rw [if_pos hmagic, if_neg (not_not.mpr hsum), if_pos hext, if_pos hextsum]

theorem eq_of_check {q : FtParam} (h : q.check hw = (1, p)) : q = p := by
  have hone := check_of_one (show (q.check hw).1 = 1 by rw [h])
  rw [h] at hone
  cases hone
  rfl

theorem check_legacy (hmagic : p.magicNo = signatureWord)
    (hsum : p.checksum = ftCrc hw (p.part 8 132)) (hext : p.ext1Valid = false) :
    p.check hw = (2, p.legacy) := by
  unfold check
  rw [if_pos hmagic, if_neg (not_not.mpr hsum), hext]
  rfl

theorem magic_of_check (h : (p.check hw).1 ≠ 0) :
    p.magicNo = signatureWord ∧ p.checksum = ftCrc hw (p.part 8 132) := by
  unfold check at h
  split at h
  · rename_i hmagic
    split at h
    · exact absurd rfl h
    · rename_i hsum
      exact ⟨hmagic, not_not.mp hsum⟩
  · exact absurd rfl h

theorem check_magic (h : p.magicNo ≠ signatureWord) : p.check hw = (0, p) := by
  unfold check
  rw [if_neg h]

theorem check_cases (hw : Engine) (p : FtParam) :
    (p.check hw).1 = 0 ∨ p.check hw = (1, p) ∨ p.check hw = (2, p.legacy) := by
  unfold check
  split
  · split
    · exact .inl rfl
    · split
      · split
        · exact .inr (.inl rfl)
        · exact .inl rfl
      · exact .inr (.inr rfl)
  · exact .inl rfl

theorem erased_check (hw : Engine) : erased.check hw = (0, erased) := check_magic (by decide)

/-! ## Renewed checksums -/

theorem part_checksums (hw : Engine) (p : FtParam) {k n : Nat}
    (h : (8 ≤ k ∧ k + n ≤ 140) ∨ 144 ≤ k) : (p.checksums hw).part k n = p.part k n := by
  unfold checksums
  rw [part_write_other _ (by simp) (.inr (by simp; omega)),
    part_write_other _ (by simp) (.inr (by simp; omega)),
    part_write_other _ (by simp) (by simp; omega)]

theorem versionNo_checksums : (p.checksums hw).versionNo = p.versionNo := by
  rw [versionNo, part_checksums hw p (by omega), versionNo]

theorem extParamLen_checksums : (p.checksums hw).extParamLen = p.extParamLen := by
  rw [extParamLen, part_checksums hw p (by omega), extParamLen]

theorem ext1Valid_checksums : (p.checksums hw).ext1Valid = p.ext1Valid := by
  rw [ext1Valid, versionNo_checksums, extParamLen_checksums, ext1Valid]

theorem magicNo_checksums : (p.checksums hw).magicNo = signatureWord := by
  unfold checksums magicNo
  rw [part_write_other _ (by simp) (.inl (by simp)), leNat_part_write _ (by omega) (by decide)]

theorem checksum_checksums :
    (p.checksums hw).checksum = ftCrc hw ((p.checksums hw).part 8 132) := by
  rw [part_checksums hw p (by omega)]
  unfold checksums checksum
  rw [leNat_part_write _ (by omega) (ftCrc_lt hw _), part_write_other _ (by simp) (by simp),
    part_write_other _ (by simp) (by simp)]

theorem extChecksum_checksums : (p.checksums hw).extChecksum =
    ftCrc hw ((p.checksums hw).part 144 (p.checksums hw).extParamLen) := by
  rw [extParamLen_checksums, part_checksums hw p (by omega)]
  unfold checksums extChecksum
  rw [part_write_other _ (by simp) (.inr (by simp)), part_write_other _ (by simp) (.inr (by simp)),
    leNat_part_write _ (by omega) (ftCrc_lt hw _)]

theorem check_checksums (hw : Engine) (h : p.ext1Valid = true) :
    (p.checksums hw).check hw = (1, p.checksums hw) :=
  check_of_one (check_eq_one.mpr ⟨magicNo_checksums, checksum_checksums,
    by rw [ext1Valid_checksums]; exact h, extChecksum_checksums⟩)

theorem check_checksums_legacy (hw : Engine) (h : p.ext1Valid = false) :
    (p.checksums hw).check hw = (2, (p.checksums hw).legacy) :=
  check_legacy magicNo_checksums checksum_checksums (by rw [ext1Valid_checksums]; exact h)

end Checks

/-! ## The legacy format -/

theorem versionNo_legacy (p : FtParam) : p.legacy.versionNo = 0xFFFF := by
  unfold legacy versionNo
  rw [part_write_other _ (by decide) (by decide)]
  exact leNat_part_write p (v := 0xFFFF) (by omega) (by omega)

theorem extParamLen_legacy (p : FtParam) : p.legacy.extParamLen = 0xFFFF :=
  leNat_part_write _ (v := 0xFFFF) (by omega) (by omega)

theorem legacy_self {p : FtParam} (hversion : p.versionNo = 0xFFFF) (hlen : p.extParamLen = 0xFFFF) :
    p.legacy = p := by
  have hones : ∀ {k : Nat}, k + 2 ≤ 228 → leNat (p.part k 2) = 0xFFFF →
      p.part k 2 = [0xFF#8, 0xFF#8] := by
    intro k hk h
    have hbytes := leBytes_leNat (p.part k 2)
    rw [part_length p hk, h] at hbytes
    exact hbytes.symm
  unfold legacy
  rw [← hones (by omega) hversion, write_part p (by omega), hones (by omega) hversion,
    ← hones (by omega) hlen, write_part p (by omega)]

/-! ## The empty extension -/

theorem upgrade_of_valid {p : FtParam} (h : p.ext1Valid = true) : p.upgrade = p := by
  rw [upgrade, if_pos h]

theorem ext1Valid_upgrade (p : FtParam) : p.upgrade.ext1Valid = true := by
  unfold upgrade
  split
  · assumption
  · rw [ext1Valid_iff]
    have hversion : (((p.write 20 (leBytes 2 1)).write 28 (leBytes 2 52)).write 144
        (List.replicate 52 0xFF#8)).versionNo = 1 := by
      rw [versionNo, part_write_other _ (by simp) (by simp), part_write_other _ (by simp) (by simp)]
      exact leNat_part_write p (by omega) (by omega)
    have hlen : (((p.write 20 (leBytes 2 1)).write 28 (leBytes 2 52)).write 144
        (List.replicate 52 0xFF#8)).extParamLen = 52 := by
      rw [extParamLen, part_write_other _ (by simp) (by simp)]
      exact leNat_part_write _ (by omega) (by omega)
    rw [hversion, hlen]
    decide

theorem part_upgrade (p : FtParam) {k n : Nat} (h20 : k + n ≤ 20 ∨ 22 ≤ k)
    (h28 : k + n ≤ 28 ∨ 30 ≤ k) (h144 : k + n ≤ 144) : p.upgrade.part k n = p.part k n := by
  unfold upgrade
  split
  · rfl
  · rw [part_write_other _ (by simp) (.inl h144), part_write_other _ (by simp) (by simpa using h28),
      part_write_other _ (by simp) (by simpa using h20)]

/-! ## Bytes -/

theorem part_getElem? (p : FtParam) {offset n i : Nat} (h : i < n) :
    (p.part offset n)[i]? = p.bytes[offset + i]? := by
  rw [part, List.getElem?_take_of_lt h, List.getElem?_drop]

theorem part_eq {p q : FtParam} {offset n : Nat}
    (h : ∀ i, offset ≤ i → i < offset + n → p.bytes[i]? = q.bytes[i]?) :
    p.part offset n = q.part offset n := by
  apply List.ext_getElem?
  intro i
  by_cases hi : i < n
  · rw [part_getElem? p hi, part_getElem? q hi]
    exact h _ (by omega) (by omega)
  · rw [part, part, List.getElem?_take_eq_none (by omega), List.getElem?_take_eq_none (by omega)]

/-- Members with the same number have the same bytes. -/
theorem part_eq_of_leNat {p q : FtParam} {offset n : Nat} (hin : offset + n ≤ 228)
    (h : leNat (p.part offset n) = leNat (q.part offset n)) : p.part offset n = q.part offset n := by
  have hp := leBytes_leNat (p.part offset n)
  have hq := leBytes_leNat (q.part offset n)
  rw [part_length p hin] at hp
  rw [part_length q hin, ← h, hp] at hq
  exact hq

theorem write_out (p : FtParam) {offset i : Nat} {bs : List Byte} (h : offset + bs.length ≤ 228)
    (hi : i < offset ∨ offset + bs.length ≤ i) : (p.write offset bs).bytes[i]? = p.bytes[i]? := by
  have hl := p.length_eq
  rw [write_bytes p h, patch_out (by omega) hi]

theorem write_in (p : FtParam) {offset i : Nat} {bs : List Byte} (h : offset + bs.length ≤ 228)
    (hi : i < bs.length) : (p.write offset bs).bytes[offset + i]? = bs[i]? := by
  rw [← part_getElem? _ hi, part_write_same p h]

/-- The bytes of the magic number and the two checksums. -/
def IsSum (i : Nat) : Prop := i < 8 ∨ 140 ≤ i ∧ i < 144

/-- The magic number and the two checksums are those that `tls_ft_param_set` puts in. -/
structure Summed (hw : Engine) (p : FtParam) : Prop where
  magic : p.magicNo = signatureWord
  ext : p.extChecksum = ftCrc hw (p.part 144 p.extParamLen)
  sum : p.checksum = ftCrc hw (p.part 8 132)

theorem summed_checksums (hw : Engine) (p : FtParam) : (p.checksums hw).Summed hw :=
  ⟨magicNo_checksums, extChecksum_checksums, checksum_checksums⟩

theorem checksums_out (hw : Engine) (p : FtParam) {i : Nat} (h : ¬ IsSum i) :
    (p.checksums hw).bytes[i]? = p.bytes[i]? := by
  unfold IsSum at h
  unfold checksums
  rw [write_out _ (by simp) (by simp; omega), write_out _ (by simp) (by simp; omega),
    write_out _ (by simp) (by simp; omega)]

/-- Records with their checksums in order are equal when all other bytes are. -/
theorem Summed.eq {hw : Engine} {p q : FtParam} (hp : p.Summed hw) (hq : q.Summed hw)
    (h : ∀ i, ¬ IsSum i → p.bytes[i]? = q.bytes[i]?) : p = q := by
  have hhead : p.part 8 132 = q.part 8 132 := part_eq fun i _ _ => h i (by unfold IsSum; omega)
  have htail : ∀ n, p.part 144 n = q.part 144 n := fun n =>
    part_eq fun i _ _ => h i (by unfold IsSum; omega)
  have hlen : p.extParamLen = q.extParamLen := by
    rw [extParamLen, extParamLen, part_eq fun i _ _ => h i (by unfold IsSum; omega)]
  have hmagic : p.part 0 4 = q.part 0 4 := part_eq_of_leNat (by omega) (hp.magic.trans hq.magic.symm)
  have hsum : p.part 4 4 = q.part 4 4 := by
    apply part_eq_of_leNat (by omega)
    have hcrc := hp.sum
    rw [hhead, ← hq.sum] at hcrc
    exact hcrc
  have hext : p.part 140 4 = q.part 140 4 := by
    apply part_eq_of_leNat (by omega)
    have hcrc := hp.ext
    rw [hlen, htail, ← hq.ext] at hcrc
    exact hcrc
  have hbytes : ∀ {offset : Nat}, p.part offset 4 = q.part offset 4 →
      ∀ i, offset ≤ i → i < offset + 4 → p.bytes[i]? = q.bytes[i]? := by
    intro offset heq i hlo hhi
    have hcell := congrArg (fun bs => bs[i - offset]?) heq
    simp only [part_getElem? _ (show i - offset < 4 by omega)] at hcell
    rwa [Nat.add_sub_cancel' hlo] at hcell
  apply eq_of_part
  apply part_eq
  intro i _ _
  by_cases hi : IsSum i
  · rcases hi with hi | hi
    · by_cases h4 : i < 4
      · exact hbytes hmagic i (by omega) (by omega)
      · exact hbytes hsum i (by omega) (by omega)
    · exact hbytes hext i (by omega) (by omega)
  · exact h i hi

end FtParam

end Efuse
end Air101

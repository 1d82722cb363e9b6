import Air101.Fota.Accept
import Air101.Tool.Crc

/-!
# Tool.Pack

The packer of the host tool (`tools/xt804/wm_tool.c`): `wm_tool_pack_image` and
`wm_tool_pack_gz_image` put a header of 64 bytes in front of a binary and fill it up with zeros to
whole kilobytes. The file is read twice, a kilobyte at a time until `feof`: once for the length and
the checksum, once to copy it.

* `crcPass_eq`, `packFile_eq`: what the two passes over the file come to.
* `packHeader_headOk`, `packFile_orgChecksum`: the tests of the device hold of a packed file.
* `pack_image_accepted`: the device takes a packed file that fits in its zone, cut in any way.
-/

namespace Air101
namespace Tool

open Storage
open Crypto
open Fota

/-- `wm_tool_zip_type_e`. -/
inductive ZipType where
  | uncompress
  | compress
  deriving DecidableEq, Repr

def ZipType.code : ZipType → Nat
  | .uncompress => 0
  | .compress => 1

/-- The options that go into the header. `version` is the text behind `-V`. -/
structure Options where
  version : List Byte := []
  imageType : Nat := 0
  zipType : ZipType := .compress
  updAddr : Nat := 0x8090000
  runAddr : Nat := 0x8002400
  imageHeader : Nat := 0x8002000
  nextImageHeader : Nat := 0
  imageUpdNo : Nat := 0

/-- `wm_tool_image_version` after option `-V`: `strncpy` of sixteen bytes, and the last one cleared. -/
def wmToolImageVersion (optarg : List Byte) : List Byte :=
  (((cstr optarg).take 16 ++ List.replicate 16 0#8).take 16).set 15 0#8

/-- `strcpy` of it to the sixteen bytes of `ver`, which are clear before. -/
def ver (imageVersion : List Byte) : List Byte :=
  (cstr imageVersion ++ List.replicate 16 0#8).take 16

/-! ## Reading the file -/

/-- What the calls of `fread` for 1024 bytes return until `feof`: only a read that comes short of
them sets it, so a file of whole kilobytes ends with an empty read. -/
def freads : Nat → List Byte → List (List Byte)
  | 0, _ => []
  | fuel + 1, bin =>
    bin.take 1024 :: if (bin.take 1024).length < 1024 then [] else freads fuel (bin.drop 1024)

/-- The reads of a whole file. -/
def fileReads (bin : List Byte) : List (List Byte) := freads (bin.length / 1024 + 1) bin

/-- The variables of the checksum pass; `filelen` is a C `int`. -/
structure Pass where
  filelen : Nat
  patch : Nat
  fileCrc : BitVec 32

/-- One round of the checksum pass: the buffer is cleared before each read. -/
def Pass.round (p : Pass) (read : List Byte) : Pass :=
  let buf := read ++ List.replicate (1025 - read.length) 0#8
  let patch := if read.length % 1024 ≠ 0 then 1024 - read.length % 1024 else p.patch
  let readlen := if read.length % 1024 ≠ 0 then read.length + patch else read.length
  { filelen := (p.filelen + readlen) % 2 ^ 32
    patch := patch
    fileCrc := wmToolGetCrc32 p.fileCrc (buf.take readlen) 0 }

/-- The checksum pass. -/
def crcPass (bin : List Byte) : Pass := (fileReads bin).foldl Pass.round ⟨0, 0, 0xFFFFFFFF#32⟩

/-! ## The packed file -/

/-- `wm_tool_firmware_booter_t` without its last field. -/
def booter (o : Options) (zipType : ZipType) (p : Pass) : List Byte :=
  leBytes 4 magicNo ++ leBytes 2 o.imageType ++ leBytes 2 zipType.code ++ leBytes 4 o.runAddr ++
    leBytes 4 p.filelen ++ leBytes 4 o.imageHeader ++ leBytes 4 o.updAddr ++
    leBytes 4 p.fileCrc.toNat ++ leBytes 4 o.imageUpdNo ++ ver (wmToolImageVersion o.version) ++
    leBytes 4 0 ++ leBytes 4 0 ++ leBytes 4 o.nextImageHeader

/-- The header with `hd_checksum`. -/
def packHeader (o : Options) (zipType : ZipType) (p : Pass) : List Byte :=
  booter o zipType p ++ leBytes 4 (wmToolGetCrc32 0xFFFFFFFF#32 (booter o zipType p) 0).toNat

/-- The file that the two packers write: the header, a second pass over the input, and the patch. -/
def packFile (o : Options) (zipType : ZipType) (bin : List Byte) : List Byte :=
  packHeader o zipType (crcPass bin) ++ (fileReads bin).flatten ++
    List.replicate (crcPass bin).patch 0#8

/-- `wm_tool_pack_image`. -/
def wmToolPackImage (o : Options) (bin : List Byte) : List Byte := packFile o .uncompress bin

/-- `wm_tool_pack_gz_image`, on the bytes of the compressed file. -/
def wmToolPackGzImage (o : Options) (gzbin : List Byte) : List Byte := packFile o o.zipType gzbin

/-! ## The passes over the file -/

/-- The zeros that fill the last kilobyte. -/
def padding (bin : List Byte) : List Byte :=
  List.replicate ((bin.length + 1023) / 1024 * 1024 - bin.length) 0#8

theorem padded_length (bin : List Byte) :
    (bin ++ padding bin).length = (bin.length + 1023) / 1024 * 1024 := by
  rw [List.length_append, padding, List.length_replicate]
  omega

theorem flatten_freads : ∀ (fuel : Nat) (bin : List Byte), bin.length / 1024 < fuel →
    (freads fuel bin).flatten = bin := by
  intro fuel
  induction fuel with
  | zero => intro bin h; omega
  | succ fuel ih =>
    intro bin h
    rw [freads, List.flatten_cons]
    split
    · rename_i hshort
      rw [List.length_take] at hshort
      rw [List.flatten_nil, List.append_nil, List.take_of_length_le (by omega)]
    · rename_i hfull
      rw [List.length_take] at hfull
      rw [ih _ (by rw [List.length_drop]; omega), List.take_append_drop]

theorem round_full (p : Pass) {read : List Byte} (h : read.length = 1024) :
    p.round read = ⟨(p.filelen + 1024) % 2 ^ 32, p.patch, Crc32.update p.fileCrc read⟩ := by
  unfold Pass.round
  simp only [h, Nat.mod_self, ne_eq, not_true_eq_false, if_false, wmToolGetCrc32_eq]
  rw [List.take_left' h]

theorem round_last (p : Pass) {read : List Byte} (h : read.length < 1024) (hp : p.patch = 0) :
    p.round read = ⟨(p.filelen + (read ++ padding read).length) % 2 ^ 32, (padding read).length,
      Crc32.update p.fileCrc (read ++ padding read)⟩ := by
  have hpl := padded_length read
  unfold Pass.round
  simp only [wmToolGetCrc32_eq]
  by_cases h0 : read.length % 1024 = 0
  · have hnil : read = [] := List.length_eq_zero_iff.mp (by omega)
    subst hnil
    have hpad : padding [] = [] := rfl
    rw [hpad]
    simp only [List.length_nil, Nat.zero_mod, ne_eq, not_true_eq_false, if_false, List.append_nil,
      List.take_zero, hp]
  · have hpad : (padding read).length = 1024 - read.length % 1024 := by
      rw [padding, List.length_replicate]
      omega
    simp only [ne_eq, h0, not_false_eq_true, if_true]
    rw [hpl, hpad]
    have hbuf : (read ++ List.replicate (1025 - read.length) 0#8).take
        (read.length + (1024 - read.length % 1024)) = read ++ padding read := by
      rw [List.take_length_add_append, List.take_replicate, padding]
      congr 2
      omega
    rw [hbuf, show (read.length + 1023) / 1024 * 1024 =
      read.length + (1024 - read.length % 1024) by omega]

theorem foldl_freads : ∀ (fuel : Nat) (bin : List Byte) (p : Pass), bin.length / 1024 < fuel →
    p.patch = 0 →
    (freads fuel bin).foldl Pass.round p = ⟨(p.filelen + (bin ++ padding bin).length) % 2 ^ 32,
      (padding bin).length, Crc32.update p.fileCrc (bin ++ padding bin)⟩ := by
  intro fuel
  induction fuel with
  | zero => intro bin p h; omega
  | succ fuel ih =>
    intro bin p h hp
    rw [freads, List.foldl_cons]
    split
    · rename_i hshort
      rw [List.length_take] at hshort
      rw [List.foldl_nil, List.take_of_length_le (by omega), round_last p (by omega) hp]
    · rename_i hfull
      rw [List.length_take] at hfull
      have hread : (bin.take 1024).length = 1024 := by
        rw [List.length_take]
        omega
      have hpad : padding (bin.drop 1024) = padding bin := by
        have hsub : (bin.length - 1024 + 1023) / 1024 * 1024 - (bin.length - 1024) =
            (bin.length + 1023) / 1024 * 1024 - bin.length := by omega
        rw [padding, padding, List.length_drop, hsub]
      have hrest := ih (bin.drop 1024)
        ⟨(p.filelen + 1024) % 2 ^ 32, p.patch, Crc32.update p.fileCrc (bin.take 1024)⟩
        (by rw [List.length_drop]; omega) hp
      rw [round_full p hread, hrest, hpad]
      have hsplit : bin ++ padding bin = bin.take 1024 ++ (bin.drop 1024 ++ padding bin) := by
        rw [← List.append_assoc, List.take_append_drop]
      have hlen : (bin ++ padding bin).length = 1024 + (bin.drop 1024 ++ padding bin).length := by
        rw [hsplit, List.length_append, hread]
      have hcrc : Crc32.update p.fileCrc (bin ++ padding bin) =
          Crc32.update (Crc32.update p.fileCrc (bin.take 1024)) (bin.drop 1024 ++ padding bin) := by
        rw [hsplit, Crc32.update_append]
      rw [hlen, hcrc, Nat.mod_add_mod, Nat.add_assoc]

/-- The checksum pass of a file. -/
theorem crcPass_eq (bin : List Byte) :
    crcPass bin = ⟨(bin ++ padding bin).length % 2 ^ 32, (padding bin).length,
      Crc32.update 0xFFFFFFFF#32 (bin ++ padding bin)⟩ := by
  rw [crcPass, fileReads, foldl_freads _ bin _ (by omega) rfl, Nat.zero_add]

/-- A packed file is a header, the input and its padding. -/
theorem packFile_eq (o : Options) (zipType : ZipType) (bin : List Byte) :
    packFile o zipType bin = packHeader o zipType (crcPass bin) ++ (bin ++ padding bin) := by
  rw [packFile, fileReads, flatten_freads _ bin (by omega), crcPass_eq, List.append_assoc, padding,
    List.length_replicate]

/-! ## The header -/

section Header

variable (o : Options) (zipType : ZipType) (p : Pass)

theorem ver_length (v : List Byte) : (ver v).length = 16 := by
  rw [ver, List.length_take, List.length_append, List.length_replicate]
  omega

theorem booter_length : (booter o zipType p).length = 60 := by
  simp only [booter, List.length_append, leBytes_length, ver_length]

theorem packHeader_length : (packHeader o zipType p).length = 64 := by
  rw [packHeader, List.length_append, booter_length, leBytes_length]

theorem packHeader_magic : Header.magic (packHeader o zipType p) = magicNo := by
  have hfield : ((packHeader o zipType p).drop 0).take 4 = leBytes 4 magicNo := rfl
  rw [Header.magic, field, hfield, leNat_leBytes (by decide)]

theorem packHeader_imgLen (h : p.filelen < 2 ^ 32) :
    Header.imgLen (packHeader o zipType p) = p.filelen := by
  have hfield : ((packHeader o zipType p).drop 12).take 4 = leBytes 4 p.filelen := rfl
  rw [Header.imgLen, field, hfield, leNat_leBytes h]

theorem packHeader_orgChecksum : Header.orgChecksum (packHeader o zipType p) = p.fileCrc.toNat := by
  have hfield : ((packHeader o zipType p).drop 24).take 4 = leBytes 4 p.fileCrc.toNat := rfl
  rw [Header.orgChecksum, field, hfield, leNat_leBytes p.fileCrc.isLt]

theorem packHeader_hdChecksum : Header.hdChecksum (packHeader o zipType p) =
    (Crc32.update 0xFFFFFFFF#32 (booter o zipType p)).toNat := by
  rw [Header.hdChecksum, field, packHeader, List.drop_left' (booter_length o zipType p),
    List.take_of_length_le (Nat.le_of_eq (leBytes_length _ _)), wmToolGetCrc32_eq, leNat_leBytes (BitVec.isLt _)]

/-- The header passes both tests of the device. -/
theorem packHeader_headOk {hw : Engine} (hr : Reflected hw) : HeadOk hw (packHeader o zipType p) := by
  refine ⟨packHeader_magic o zipType p, ?_⟩
  rw [packHeader_hdChecksum, packHeader, List.take_left' (booter_length o zipType p),
    imgChecksum_words hr (by rw [booter_length])]

end Header

/-! ## The device takes what the tool packs -/

section Device

variable {hw : Engine} {z : Zone} {o : Options} {zipType : ZipType} {bin : List Byte}

theorem packFile_length :
    (packFile o zipType bin).length = 64 + (bin.length + 1023) / 1024 * 1024 := by
  rw [packFile_eq, List.length_append, packHeader_length, padded_length]

theorem packFile_take : (packFile o zipType bin).take 64 = packHeader o zipType (crcPass bin) := by
  rw [packFile_eq, List.take_left' (packHeader_length ..)]

theorem packFile_drop : (packFile o zipType bin).drop 64 = bin ++ padding bin := by
  rw [packFile_eq, List.drop_left' (packHeader_length ..)]

theorem packFile_imgLen (hlen : (bin.length + 1023) / 1024 * 1024 < 2 ^ 31) :
    Header.imgLen ((packFile o zipType bin).take 64) = (bin ++ padding bin).length := by
  have hfile : (crcPass bin).filelen = (bin ++ padding bin).length := by
    rw [crcPass_eq, padded_length]
    exact Nat.mod_eq_of_lt (by omega)
  rw [packFile_take, packHeader_imgLen _ _ _ (by rw [hfile, padded_length]; omega), hfile]

/-- The body passes the checksum test of the device. -/
theorem packFile_orgChecksum (hr : Reflected hw)
    (hlen : (bin.length + 1023) / 1024 * 1024 < 2 ^ 31) :
    imgChecksum hw (((packFile o zipType bin).drop 64).take
      (Header.imgLen ((packFile o zipType bin).take 64))) =
      Header.orgChecksum ((packFile o zipType bin).take 64) := by
  rw [packFile_imgLen hlen, packFile_drop, List.take_length, packFile_take, packHeader_orgChecksum,
    crcPass_eq]
  exact imgChecksum_words hr (by rw [padded_length]; omega)

/-- A packed file that fits in the zone, cut in any way: every write returns 0, the header has been
accepted, and `luat_fota_done` returns 0. -/
theorem packFile_accepted (hr : Reflected hw) {s : State} (hd : s.dev.insideFls = some z.density)
    (hfit : (packFile o zipType bin).length ≤ z.size) {chunks : List (List Byte)}
    (hchunks : chunks.flatten = packFile o zipType bin) :
    let s1 := (luatFotaInit z true s).2
    let s2 := runs (next hw z) s1 (chunks.map .write)
    (∀ p ∈ trace (next hw z) s1 (chunks.map .write), (call hw z p.1 p.2).1 = 0) ∧
      s2.fotaHeadCheck = true ∧ (luatFotaDone hw z s2).1 = 0 := by
  have hz := z.density_le
  have he := z.end_le
  have hl : (packFile o zipType bin).length = 64 + (bin.length + 1023) / 1024 * 1024 :=
    packFile_length
  have hok : HeadOk hw ((packFile o zipType bin).take 64) := by
    rw [packFile_take]
    exact packHeader_headOk o zipType _ hr
  have hinit := (init_staged (z := z) hd).2
  obtain ⟨hcodes, hst⟩ := Staged.writes hfit hok chunks [] _ hinit hchunks
  refine ⟨hcodes, ?_, ?_⟩
  · exact Staged.writes_checked hfit hok (by omega) chunks [] _ hinit hchunks (by
      rintro rfl
      have := congrArg List.length hchunks
      rw [List.flatten_nil, List.length_nil] at this
      omega)
  · refine hst.done_ok hfit ?_ (packFile_orgChecksum hr (by omega))
    rw [packFile_imgLen (by omega), padded_length]
    omega

end Device

/-- For every binary that the tool can count and all options, both packers write a header of 64
bytes, the binary and zeros up to whole kilobytes, with that length in the header; and for every
chunking of a file that fits in the OTA zone, the device accepts its header and its body. -/
theorem pack_image_accepted (o : Options) (bin file : List Byte)
    (hlen : (bin.length + 1023) / 1024 * 1024 < 2 ^ 31)
    (hfile : file = wmToolPackImage o bin ∨ file = wmToolPackGzImage o bin) :
    (∃ head, head.length = 64 ∧ file = head ++ bin ++
        List.replicate ((bin.length + 1023) / 1024 * 1024 - bin.length) 0#8 ∧
        Header.imgLen head = (bin.length + 1023) / 1024 * 1024) ∧
      ∀ (hw : Engine) (z : Zone) (s : State) (chunks : List (List Byte)), Reflected hw →
        s.dev.insideFls = some z.density → file.length ≤ z.size → chunks.flatten = file →
        let s1 := (luatFotaInit z true s).2
        let s2 := runs (next hw z) s1 (chunks.map .write)
        (∀ p ∈ trace (next hw z) s1 (chunks.map .write), (call hw z p.1 p.2).1 = 0) ∧
          s2.fotaHeadCheck = true ∧ (luatFotaDone hw z s2).1 = 0 := by
  obtain ⟨zipType, rfl⟩ : ∃ zipType, file = packFile o zipType bin := by
    rcases hfile with rfl | rfl
    · exact ⟨.uncompress, rfl⟩
    · exact ⟨o.zipType, rfl⟩
  refine ⟨⟨(packFile o zipType bin).take 64, ?_, ?_, ?_⟩, ?_⟩
  · rw [packFile_take, packHeader_length]
  · rw [packFile_take, packFile_eq, ← List.append_assoc, padding]
  · rw [packFile_imgLen hlen, padded_length]
  · intro hw z s chunks hr hd hfit hchunks
    exact packFile_accepted hr hd hfit hchunks

theorem pack_image_accepted_one_byte :
    (luatFotaDone softEngine air101 (runs (next softEngine air101)
      (luatFotaInit air101 true (State.reset air101Dev)).2
      ([(wmToolPackImage {} [0x5A#8]).take 7, (wmToolPackImage {} [0x5A#8]).drop 7].map
        .write))).1 = 0 := by
  refine ((pack_image_accepted {} [0x5A#8] _ (by decide) (.inl rfl)).2 softEngine air101
    (State.reset air101Dev) _ softEngine_reflected rfl ?_ (by simp)).2.2
  rw [wmToolPackImage, packFile_length]
  decide

/-- Behind an accepted header, a write that leaves more than the zone holds is only staged, and
`luat_fota_done` refuses it. -/
theorem done_too_large {hw : Engine} {z : Zone} {m1 : Nat → Byte} {s : State} {pre data : List Byte}
    (h : Staged z m1 pre s) (hc : s.fotaHeadCheck = true) (hpre : pre.length + data.length < 0x8000)
    (hne : data ≠ []) (hbig : z.size < pre.length + data.length) :
    (luatFotaDone hw z (luatFotaWrite hw z s data).2).1 = -1 := by
  have htot := h.total_eq
  unfold State.total at htot
  have hwrite : luatFotaWrite hw z s data = (0, s.stage data) := by
    unfold luatFotaWrite
    rw [if_neg (not_not.mpr h.ongo), if_neg (by simp [h.alloc]), copyLoop_stage (by omega)]
    simp [headCheck, State.stage, hc]
  rw [hwrite]
  unfold luatFotaDone
  have hsum : z.size < ((s.stage data).fotaWriteOffset + (s.stage data).buf.length) % 2 ^ 32 := by
    simp only [State.stage, List.length_append]
    rw [Nat.mod_eq_of_lt (by omega)]
    omega
  rw [if_pos (by simp [State.stage, hne]), if_pos hsum]

theorem air101_too_large {file : List Byte} (hlen : file.length = 4160)
    (hok : HeadOk softEngine (file.take 64)) :
    (luatFotaDone softEngine air101 (runs (next softEngine air101)
      (luatFotaInit air101 true (State.reset air101Dev)).2
      ([file.take 64, file.drop 64].map .write))).1 = -1 := by
  have hhead : (file.take 64).length = 64 := by
    rw [List.length_take]
    omega
  have hbody : (file.drop 64).length = 4096 := by
    rw [List.length_drop]
    omega
  have hinit := (init_staged (z := air101) (s := State.reset air101Dev) rfl).2
  generalize (luatFotaInit air101 true (State.reset air101Dev)).2 = s at hinit ⊢
  have hfit : ([] : List Byte).length + (file.take 64).length ≤ air101.size := by
    rw [hhead]
    decide
  obtain ⟨hst, hret⟩ := hinit.write softEngine hfit
  rw [List.nil_append] at hst hret
  have hchecked := (hret fun _ => by rw [List.take_take]; exact hok).2 (Nat.le_of_eq hhead.symm)
  exact done_too_large hst hchecked (by rw [hhead, hbody]; decide)
    (by intro h0; rw [h0] at hbody; simp at hbody) (by rw [hhead, hbody]; decide)

/-- A binary of 4 KB makes a file of 4160 bytes, too much for the zone of the AIR101 board: written
in two parts, the header and the body, it is refused by `luat_fota_done`. -/
theorem pack_image_too_large :
    ¬ ∀ (o : Options) (bin : List Byte) (chunks : List (List Byte)),
      chunks.flatten = wmToolPackImage o bin →
      (luatFotaDone softEngine air101 (runs (next softEngine air101)
        (luatFotaInit air101 true (State.reset air101Dev)).2 (chunks.map .write))).1 = 0 := by
  intro hall
  have hbin : (List.replicate 4096 0#8).length = 4096 := List.length_replicate
  have hdone := hall {} (List.replicate 4096 0#8)
  generalize List.replicate 4096 0#8 = bin at hbin hdone
  have hlen : (wmToolPackImage {} bin).length = 4160 := by
    rw [wmToolPackImage, packFile_length, hbin]
  have hok : HeadOk softEngine ((wmToolPackImage {} bin).take 64) := by
    rw [wmToolPackImage, packFile_take]
    exact packHeader_headOk _ _ _ softEngine_reflected
  generalize wmToolPackImage {} bin = file at hlen hok hdone
  have hzero := hdone [file.take 64, file.drop 64] (by simp)
  rw [air101_too_large hlen hok] at hzero
  exact absurd hzero (by omega)

end Tool
end Air101

import Air101.Fls.Contract
import Air101.Fota.Image
import Air101.Storage.Runs

/-!
# Fota.Download

The downloader of `app/port/luat_fota_air101.c`: `luat_fota_init`, `luat_fota_write`,
`luat_fota_done` and `luat_fota_end`, over the flash driver.

The OTA zone (`upgrade_img_addr`, `ota_zone_size`) is set once by `luat_fota_boot_check`; `Zone`
carries what the partition tables say about it. The 32 KB staging buffer is the list of its
`fota_buffer_len` bytes. Offsets are 32-bit counters, so their sums are taken modulo `2 ^ 32`.
-/

namespace Air101
namespace Fota

open Storage
open Crypto
open Fls

/-- The OTA zone of a board: `base` is the chip offset of `upgrade_img_addr`. It starts on a sector
and ends below the last 24 KB of the chip, where the system parameters and the OTA flag are. -/
structure Zone where
  density : Nat
  base : Nat
  size : Nat
  base_aligned : base % 4096 = 0
  head_le : 64 ≤ size
  end_le : base + size + 0x6000 ≤ density
  density_le : density ≤ 2 ^ 24

/-- `upgrade_img_addr`. -/
def Zone.addr (z : Zone) : Nat := 0x8000000 + z.base

/-- `TLS_FLASH_OTA_FLAG_ADDR`, set from the density by `tls_fls_sys_param_postion_init`. -/
def Zone.flagAddr (z : Zone) : Nat := 0x8000000 + z.density - 0x1000

/-- The zone of the AIR101 partition table (`partition/AIR101.csv`): 4 KB at `0x10000` of 2 MB. -/
def air101 : Zone :=
  { density := 0x200000, base := 0x10000, size := 0x1000, base_aligned := by decide,
    head_le := by decide, end_le := by decide, density_le := by decide }

/-- An erased chip of that size behind an installed driver. -/
def air101Dev : Dev := { insideFls := some 0x200000, mem := fun _ => 0xFF#8, log := [] }

inductive FotaState where
  | idle
  | ongo
  | done
  deriving DecidableEq, Repr

/-- The globals of the downloader and the flash under it. `fotaBuffer` says whether `fota_buffer`
is allocated; `buf` is the part of it in use (`fota_buffer_len` bytes). -/
structure State where
  dev : Dev
  fotaState : FotaState
  fotaWriteOffset : Nat
  fotaHeadCheck : Bool
  fotaBuffer : Bool
  buf : List Byte

def State.reset (d : Dev) : State :=
  { dev := d, fotaState := .idle, fotaWriteOffset := 0, fotaHeadCheck := false,
    fotaBuffer := false, buf := [] }

section Calls

variable (hw : Engine) (z : Zone)

/-- The header behind the pointer `imghead`: the flash is mapped at `upgrade_img_addr`. -/
def State.imghead (s : State) : List Byte := slice s.dev.mem z.base 64

/-- Write the buffer behind what is already in flash, and empty it. -/
def State.flush (s : State) : State :=
  { s with
    dev := (tlsFlsWrite s.dev ((z.addr + s.fotaWriteOffset) % 2 ^ 32) s.buf).2
    fotaWriteOffset := (s.fotaWriteOffset + s.buf.length) % 2 ^ 32
    buf := [] }

/-- The flush in front of the header test: only if something is staged. -/
def State.flushRest (s : State) : State := if s.buf = [] then s else s.flush z

/-- The erase loop of `luat_fota_init`. -/
def eraseZone (d : Dev) : Nat → Dev
  | 0 => d
  | n + 1 => (tlsFlsErase (eraseZone d n) ((z.addr + n * 4096) / 4096)).2

/-- `luat_fota_init`; `heap` says whether `luat_heap_malloc` finds the 32 KB. -/
def luatFotaInit (heap : Bool) (s : State) : Int × State :=
  let s := { s with fotaState := .ongo, fotaWriteOffset := 0, fotaHeadCheck := false, buf := [] }
  if s.fotaBuffer = false ∧ heap = false then (-1, s)
  else (0, { s with fotaBuffer := true, dev := eraseZone z s.dev (z.size / 4096) })

/-- The copy loop of `luat_fota_write`; `true` when it stops because the zone is full. A pass takes
at least one byte unless the buffer was full before, so `len + 1` passes are enough. -/
def copyLoop : Nat → State → List Byte → State × Bool
  | 0, s, _ => (s, false)
  | fuel + 1, s, data =>
    if data = [] then (s, false)
    else
      let copyLen := min (0x8000 - s.buf.length) data.length
      let s1 := { s with buf := s.buf ++ data.take copyLen }
      if 0x8000 ≤ s1.buf.length then
        if z.size < (s1.fotaWriteOffset + s1.buf.length) % 2 ^ 32 then (s1, true)
        else copyLoop fuel (s1.flush z) (data.drop copyLen)
      else copyLoop fuel s1 (data.drop copyLen)

/-- The header test of `luat_fota_write`, made on every call until it passes. -/
def headCheck (s : State) : Int × State :=
  if s.fotaHeadCheck = false ∧ 64 ≤ (s.fotaWriteOffset + s.buf.length) % 2 ^ 32 then
    let s := s.flushRest z
    let imghead := s.imghead z
    if Header.magic imghead ≠ magicNo then (-2, s)
    else if imgChecksum hw (imghead.take 60) ≠ Header.hdChecksum imghead then (-3, s)
    else (0, { s with fotaHeadCheck := true })
  else (0, s)

/-- `luat_fota_write`. -/
def luatFotaWrite (s : State) (data : List Byte) : Int × State :=
  if s.fotaState ≠ .ongo then (-1, s)
  else if s.fotaBuffer = false then (-1, s)
  else
    match copyLoop z (data.length + 1) s data with
    | (s, true) => (-1, s)
    | (s, false) => headCheck hw z s

/-- The tests of `luat_fota_done` once everything is in flash. -/
def doneCheck (s : State) : Int × State :=
  let imghead := s.imghead z
  if s.fotaWriteOffset = 0 then (-1, s)
  else if s.fotaWriteOffset < 64 then (-2, s)
  else if s.fotaWriteOffset < (Header.imgLen imghead + 64) % 2 ^ 32 then (-4, s)
  else if imgChecksum hw (slice s.dev.mem (z.base + 64) (Header.imgLen imghead)) ≠
      Header.orgChecksum imghead then (-3, s)
  else (0, { s with fotaState := .done })

/-- `luat_fota_done`. -/
def luatFotaDone (s : State) : Int × State :=
  if s.buf ≠ [] then
    if z.size < (s.fotaWriteOffset + s.buf.length) % 2 ^ 32 then (-1, s)
    else doneCheck hw z (s.flush z)
  else doneCheck hw z s

/-- `luat_fota_end`: a full image (type 1) leaves its checksum in the OTA flag for the loader. -/
def luatFotaEnd (isOk : Bool) (s : State) : Int × State :=
  if s.fotaState = .done ∧ isOk = true then
    let imghead := s.imghead z
    if Header.imgType imghead = 1 then
      let (ret, dev) := tlsFlsWrite s.dev z.flagAddr ((imghead.drop 24).take 4)
      (ret.code, { s with dev := dev })
    else (0, s)
  else (-1, s)

/-! ## Runs -/

inductive Call where
  | init (heap : Bool)
  | write (data : List Byte)
  | done
  | fin (isOk : Bool)

def call (s : State) : Call → Int × State
  | .init heap => luatFotaInit z heap s
  | .write data => luatFotaWrite hw z s data
  | .done => luatFotaDone hw z s
  | .fin isOk => luatFotaEnd z isOk s

def next (s : State) (c : Call) : State := (call hw z s c).2

end Calls

end Fota
end Air101

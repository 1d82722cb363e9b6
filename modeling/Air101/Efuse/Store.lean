import Air101.Efuse.Record
import Air101.Fls.Contract

/-!
# Efuse.Store

The factory parameter store (`platform/drivers/efuse/wm_efuse.c`): one record in RAM
(`gftParamVer1`), and two copies of it at the start of the first two sectors of the flash.
`tls_ft_param_init` loads the record, `tls_ft_param_get` reads members of it and `tls_ft_param_set`
changes one and writes both copies.

A pointer is the memory behind it, so what a call reads or writes there does not depend on the
length the caller passes. A call is `none` where it reads or writes outside of `gftParamVer1` or
`default_mac`. Whether `tls_mem_alloc` has memory is the argument `heap`; that memory is word
aligned. The write protection (`tls_flash_unlock`, and `tls_flash_lock`, which does nothing) is left
out.

* `ftParamInit_eq`: `_ft_param_init` checks the record in a copy.
* `write_copy`: a write to a copy, command by command.
-/

namespace Air101
namespace Efuse

open Storage
open Crypto
open Fls

/-- The two copies: at `FT_MAGICNUM_ADDR` and at `FT_PARAM_RUNTIME_ADDR`. -/
inductive Copy where
  | magicnum
  | runtime
  deriving DecidableEq, Repr

def Copy.addr : Copy → Nat
  | .magicnum => 0x8000000
  | .runtime => 0x8000000 + 0x1000

structure State where
  dev : Dev
  gftParam : FtParam

def State.reset (d : Dev) : State := { dev := d, gftParam := .zero }

/-- The operations that `tls_ft_param_set` and `tls_ft_param_get` have a case for. -/
inductive Cmd where
  | wifiMac
  | wifiMacap
  | btMac
  | txDc
  | rxDc
  | txIqGain
  | rxIqGain
  | txIqPhase
  | rxIqPhase
  | txGain
  | txAdcCal
  | freqErr
  | rfCalFlag
  deriving DecidableEq, Repr

/-- `opnum` by its number in `wm_efuse.h`. -/
def cmd : Nat → Option Cmd
  | 1 => some .wifiMac
  | 2 => some .wifiMacap
  | 3 => some .btMac
  | 4 => some .txDc
  | 5 => some .rxDc
  | 6 => some .txIqGain
  | 7 => some .rxIqGain
  | 8 => some .txIqPhase
  | 9 => some .rxIqPhase
  | 10 => some .txGain
  | 11 => some .txAdcCal
  | 12 => some .freqErr
  | 13 => some .rfCalFlag
  | _ => none

/-- Where the member of an operation lies in the record. -/
def Cmd.dest : Cmd → Nat
  | .wifiMac => 8
  | .wifiMacap => 14
  | .btMac => 22
  | .txDc => 32
  | .rxDc => 36
  | .txIqGain => 40
  | .rxIqGain => 44
  | .txIqPhase => 48
  | .rxIqPhase => 52
  | .txGain => 56
  | .txAdcCal => 152
  | .freqErr => 144
  | .rfCalFlag => 148

/-- How many bytes `tls_ft_param_set` copies: `len` for the addresses and the ADC calibration, `len`
up to the size of the gain table, and one word for all others. -/
def Cmd.count : Cmd → Nat → Nat
  | .wifiMac, len => len
  | .wifiMacap, len => len
  | .btMac, len => len
  | .txAdcCal, len => len
  | .txGain, len => if 84 ≤ len then 84 else len
  | _, _ => 4

/-! ## Loading -/

section Calls

variable (hw : Engine)

/-- `_ft_param_init`; a read that fails leaves the buffer `pft` as it is. -/
def ftParamInit (d : Dev) (ftAddr : Nat) (pft : FtParam) : Nat × FtParam :=
  match tlsFlsRead d true ftAddr 228 with
  | (.ok, bs) => (FtParam.ofBytes bs).check hw
  | _ => pft.check hw

/-- `tls_ft_param_init`. Of a legacy record only `FT_PARAM_ST` is taken. -/
def tlsFtParamInit (heap : Bool) (s : State) : Nat × State :=
  if s.gftParam.magicNo = signatureWord then (1, s)
  else
    let s := { s with gftParam := .erased }
    if heap = false then (0, s)
    else
      let r := ftParamInit hw s.dev Copy.runtime.addr .erased
      let r := if r.1 = 0 then ftParamInit hw s.dev Copy.magicnum.addr .erased else r
      if r.1 = 1 then (r.1, { s with gftParam := s.gftParam.write 0 (r.2.part 0 228) })
      else if r.1 = 2 then (r.1, { s with gftParam := s.gftParam.write 0 (r.2.part 0 140) })
      else (r.1, s)

/-! ## Reading -/

def defaultMac : List Byte := [0x00#8, 0x25#8, 0x08#8, 0x09#8, 0x01#8, 0x0F#8]

/-- The addresses that `CMD_WIFI_MAC` and `CMD_WIFI_MACAP` do not give out: a group address, or
none. -/
def wifiRefused (mac : List Byte) : Bool :=
  mac.headD 0#8 &&& 1#8 ≠ 0#8 ∨ mac.foldl (· ||| ·) 0#8 = 0#8

/-- The addresses that `CMD_BT_MAC` does not give out. -/
def btRefused (mac : List Byte) : Bool :=
  mac = List.replicate 6 0xFF#8 ∨ mac = List.replicate 6 0#8

/-- `memcpy` of `default_mac` to `data`. -/
def copyDefault (data : Nat → Byte) (rdlen : Nat) : Option (Nat → Byte) :=
  if rdlen ≤ 6 then some (overlay data 0 (defaultMac.take rdlen)) else none

/-- The default of `CMD_BT_MAC`: the last byte plus 1, and a public static type. -/
def copyDefaultBt (data : Nat → Byte) (rdlen : Nat) : Option (Nat → Byte) :=
  (copyDefault data rdlen).map fun data =>
    let data := overlay data 5 [data 5 + 1#8]
    overlay data 0 [data 0 ||| 0xC0#8]

/-- `memcpy` from the record to `data`. -/
def FtParam.copyOut (p : FtParam) (offset : Nat) (data : Nat → Byte) (rdlen : Nat) :
    Option (Nat → Byte) :=
  if offset + rdlen ≤ 228 then some (overlay data 0 (p.part offset rdlen)) else none

/-- The members behind `FT_PARAM_ST` that the legacy format has too; its copies are taken from the
flash (`FREQERR_ADDR`, `CAL_FLAG_ADDR`), at an address inside a page, where it makes no difference
how `data` is aligned. -/
def getExtWord (s : State) (offset flashAddr : Nat) (data : Nat → Byte) : Int × (Nat → Byte) :=
  if s.gftParam.ext1Valid then (0, overlay data 0 (s.gftParam.part offset 4))
  else
    match tlsFlsRead s.dev true flashAddr 4 with
    | (.ok, bs) => (0, overlay data 0 bs)
    | _ => (-1, data)

/-- `tls_ft_param_get`: the return value, and the caller's memory behind `data` afterwards. -/
def tlsFtParamGet (s : State) (opnum : Nat) (data : Nat → Byte) (rdlen : Nat) :
    Option (Int × (Nat → Byte)) :=
  let p := s.gftParam
  let ok := Option.map fun data => ((0, data) : Int × (Nat → Byte))
  match cmd opnum with
  | none => some (-1, data)
  | some .freqErr => some (getExtWord s 144 (0x8000000 + 140) data)
  | some .rfCalFlag => some (getExtWord s 148 (0x8000000 + 140 + 4) data)
  | some .txAdcCal => if p.ext1Valid then ok (p.copyOut 152 data rdlen) else some (-1, data)
  | some .wifiMac =>
    if wifiRefused (p.part 8 6) then ok (copyDefault data rdlen) else ok (p.copyOut 8 data rdlen)
  | some .wifiMacap =>
    if wifiRefused (p.part 14 6) then ok (copyDefault data rdlen) else ok (p.copyOut 14 data rdlen)
  | some .btMac =>
    if btRefused (p.part 22 6) then ok (copyDefaultBt data rdlen) else ok (p.copyOut 22 data rdlen)
  | some .txGain => ok (p.copyOut 56 data (if rdlen < 84 then rdlen else 84))
  | some c => ok (p.copyOut c.dest data 4)

/-! ## Updating -/

/-- The test after a write, and before it: the copy passes the checks and is the record in RAM. -/
def verify (s : State) (c : Copy) : Bool :=
  let r := ftParamInit hw s.dev c.addr .erased
  r.1 ≠ 0 ∧ r.2 = s.gftParam

/-- `tls_fls_write` of the record in RAM to a copy. -/
def State.store (s : State) (c : Copy) : State :=
  { s with dev := (tlsFlsWrite s.dev c.addr s.gftParam.bytes).2 }

/-- Before the runtime copy is erased, the one at `FT_MAGICNUM_ADDR` is made good; there is nothing
to lose when the runtime copy is not. -/
def repairMagicnum (s : State) : Bool × State :=
  if (ftParamInit hw s.dev Copy.runtime.addr .erased).1 = 0 then (true, s)
  else if verify hw s .magicnum then (true, s)
  else
    let s := s.store .magicnum
    (verify hw s .magicnum, s)

/-- The record with the data of an operation and new checksums. -/
def FtParam.update (p : FtParam) (c : Cmd) (data : Nat → Byte) (len : Nat) : Option FtParam :=
  (p.copyIn c.dest (slice data 0 (c.count len))).bind (FtParam.renew hw)

/-- The writes at the end of `tls_ft_param_set`. -/
def save (s : State) : Int × State :=
  let s := s.store .runtime
  if verify hw s .runtime then
    let s := s.store .magicnum
    if verify hw s .magicnum then (0, s) else (-1, s)
  else (-1, s)

/-- `tls_ft_param_set`; `data` is `none` for the null pointer. -/
def tlsFtParamSet (heap : Bool) (opnum : Nat) (data : Option (Nat → Byte)) (len : Nat) (s : State) :
    Option (Int × State) :=
  match data with
  | none => some (-1, s)
  | some data =>
    if len = 0 ∨ heap = false then some (-1, s)
    else
      match repairMagicnum hw s with
      | (false, s) => some (-1, s)
      | (true, s) =>
        let s := { s with gftParam := s.gftParam.upgrade }
        match cmd opnum with
        | none => some (-1, s)
        | some c =>
          (s.gftParam.update hw c data len).map fun p => save hw { s with gftParam := p }

end Calls

end Efuse
end Air101

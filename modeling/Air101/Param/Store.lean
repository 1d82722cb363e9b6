import Air101.Crypto.Crc
import Air101.Fls.Contract
import Air101.Param.Record
import Air101.Storage.Runs

/-!
# Param.Store

The parameter store (`platform/common/params/wm_param.c`): one record in RAM (`flash_param`), two
partitions of one sector each in flash. `tls_param_init` loads the record, `tls_param_set` and
`tls_param_get` work on the one in RAM, and `param_to_flash` writes it to the partitions in turn.

The heap and the semaphore are outside. Which allocations of a call succeed is an argument `heap`,
counted over the places of the call that allocate; memory from the heap is word aligned.
-/

namespace Air101
namespace Param

open Storage
open Crypto
open Fls

/-- `TLS_PARAM_STATUS_*`. -/
inductive Status where
  | ok
  | einvalid
  | emem
  | eio
  | eperm
  | einvalidid
  deriving DecidableEq, Repr

/-- A flash chip of whole sectors; the last six of them belong to the system. -/
structure Chip where
  density : Nat
  aligned : density % 4096 = 0
  system_le : 0x6000 ≤ density
  density_le : density ≤ 2 ^ 24

/-- `TLS_FLASH_PARAM1_ADDR` or `TLS_FLASH_PARAM2_ADDR`, as `tls_fls_sys_param_postion_init` sets
them. -/
def Chip.partAddr (c : Chip) (num : BitVec 16) : Nat :=
  if num = 0#16 then 0x8000000 + c.density - 0x4000 else 0x8000000 + c.density - 0x3000

/-- `TLS_FLASH_PARAM_RESTORE_ADDR`. -/
def Chip.restoreAddr (c : Chip) : Nat := 0x8000000 + c.density - 0x2000

structure State where
  dev : Dev
  flashParam : ParamFlash
  updpMode : Bool
  userDefaultParam : Option Params

def State.reset (d : Dev) : State :=
  { dev := d, flashParam := .zero, updpMode := false, userDefaultParam := none }

def State.withParams (s : State) (p : Params) : State :=
  { s with flashParam := { s.flashParam with parameters := p } }

section Calls

variable (hw : Engine) (c : Chip)

/-! ## Writing -/

/-- `param_flash_verify`. -/
def paramFlashVerify (heap : Bool) (d : Dev) (addr : Nat) (buf : List Byte) : Bool :=
  if heap = false then false
  else
    match tlsFlsRead d true addr buf.length with
    | (.ok, bs) => bs = buf
    | _ => false

/-- The partition that `param_to_flash` takes: with a negative `partition_num` the other one than
the last time. -/
def State.target (s : State) (partitionNum : Int) : BitVec 16 :=
  if partitionNum < 0 then (s.flashParam.partitionNum + 1#16) &&& 1#16
  else BitVec.ofInt 16 partitionNum

/-- `param_to_flash`; its argument `modify_count` is not used, the count is always 1. -/
def paramToFlash (heap : Nat → Bool) (id partitionNum : Int) (s : State) : Status × State :=
  if id < -1 ∨ 66 ≤ id then (.einvalid, s)
  else
    let num := s.target partitionNum
    let s := { s with flashParam := s.flashParam.stamp num }
    let addr := c.partAddr num
    if paramFlashVerify (heap 0) s.dev addr s.flashParam.bytes then (.ok, s)
    else
      match tlsFlsWrite s.dev addr s.flashParam.bytes with
      | (.ok, dev) =>
        let s := { s with dev := dev }
        if paramFlashVerify (heap 1) dev addr s.flashParam.bytes then (.ok, s) else (.eio, s)
      | (_, dev) => (.eio, { s with dev := dev })

def text (str : String) : List Byte := str.toList.map (fun ch => BitVec.ofNat 8 ch.toNat) ++ [0#8]

/-- The members that `tls_param_load_factory_default` sets to something else than zero. -/
def factoryDefaults : List (Nat × List Byte) :=
  [(0, [0x48#8, 0x01#8]), -- hardware_version: 'H', 1
    (54, [1#8]), -- wireless_region: TLS_PARAM_REGION_1_BG_BAND
    (53, [1#8]), -- channel
    (62, leBytes 2 0x3FFF), -- channellist
    (132, [2#8, 25#8]), -- wbgr: TLS_PARAM_PHY_11BGN_MIXED, TLS_PARAM_TX_RATEIDX_MCS13
    (61, [1#8]), -- ssid_broadcast_enable
    (56, [1#8]), -- wireless_protocol: TLS_PARAM_IEEE80211_INFRA
    (58, [255#8]), -- auto_retrycnt
    (318, leBytes 2 512), -- transparent_trigger_length
    (308, leBytes 4 115200), -- uart_cfg.baudrate
    (148, [1#8]), -- ipcfg.dhcp_enable
    (152, [192#8, 168#8, 1#8, 1#8]), -- ipcfg.ip
    (156, [255#8, 255#8, 255#8, 0#8]), -- ipcfg.netmask
    (160, [192#8, 168#8, 1#8, 1#8]), -- ipcfg.gateway
    (164, [192#8, 168#8, 1#8, 1#8]), -- ipcfg.dns1
    (168, [192#8, 168#8, 1#8, 1#8]), -- ipcfg.dns2
    (172, text "local.xt804"), -- local_dnsname
    (204, text "xt804"), -- local_device_name
    (323, [1#8]), -- remote_socket_cfg.client_or_server: TLS_PARAM_SOCKET_SERVER
    (324, leBytes 2 60000), -- remote_socket_cfg.port_num
    (372, [0x2B#8]), -- EscapeChar
    (374, leBytes 2 200), -- EscapePeriod
    (384, [1#8]), -- WebsCfg.AutoRun
    (386, leBytes 2 80), -- WebsCfg.PortNum
    (378, List.replicate 6 0x30#8), -- PassWord
    (606, [11#8]), -- channel4softap
    (676, [1#8]), -- ipcfg4softap.dhcp_enable
    (680, [192#8, 168#8, 0#8, 1#8]), -- ipcfg4softap.ip
    (684, [255#8, 255#8, 255#8, 0#8]), -- ipcfg4softap.netmask
    (688, [192#8, 168#8, 0#8, 1#8]), -- ipcfg4softap.gateway
    (692, [192#8, 168#8, 0#8, 1#8]), -- ipcfg4softap.dns1
    (700, [2#8, 9#8]), -- wbgr4softap: TLS_PARAM_PHY_11BGN_MIXED, TLS_PARAM_TX_RATEIDX_36M
    (704, text "cn.ntp.org.cn"), -- sntp_service1
    (736, text "ntp.sjtu.edu.cn"), -- sntp_service2
    (768, text "us.pool.ntp.org")] -- sntp_service3

@[irreducible] def factoryParams : Params := factoryDefaults.foldl (fun p w => p.write w.1 w.2) Params.zero

/-- `tls_param_load_factory_default`. -/
def loadFactoryDefault (s : State) : State := s.withParams factoryParams

/-! ## Loading -/

/-- What surrounds `tls_param_init`: the semaphore, the heap, and the memory around the buffer it
gets, by the distance from the buffer's start. -/
structure InitEnv where
  sem : Bool
  heap : Nat → Bool
  around : Int → Byte

def bufferAt (around : Int → Byte) (flash : List Byte) (i : Int) : Byte :=
  if 0 ≤ i ∧ i < flash.length then (flash[i.toNat]?).getD 0#8 else around i

def bufferSlice (around : Int → Byte) (flash : List Byte) (i : Int) (n : Nat) : List Byte :=
  (List.range n).map fun (k : Nat) => bufferAt around flash (i + (k : Int))

/-- The test of a partition in the buffer `flash`: its magic number, and the CRC over as many bytes
as its own length field says. The engine takes `flash->length - 4` as an unsigned number. -/
def partitionOk (around : Int → Byte) (flash : List Byte) : Bool :=
  let p := ParamFlash.ofBytes flash
  if p.magic ≠ paramMagic then false
  else
    let ctx := tlsCryptoCrcInit 0xFFFFFFFF#32 .crc32 3
    let crcvalue := tlsCryptoCrcFinal (tlsCryptoCrcUpdate hw ctx
      (bufferSlice around flash 0 (BitVec.ofInt 32 (p.length.toNat - 4)).toNat))
    ~~~ crcvalue = BitVec.ofNat 32 (leNat (bufferSlice around flash (p.length.toNat - 4) 4))

structure Scan where
  dev : Dev
  flash : List Byte
  flashParam : ParamFlash
  isDamage : Nat → Bool
  damaged : Nat
  tryrestore : Bool

/-- `MEMCPY` of a partition to RAM: all of it if it has the length of this layout, else as much as
its own length says, without its CRC; the size `flash->length - 4` is taken as an unsigned number. -/
def loadRecord (around : Int → Byte) (flash : List Byte) (old : ParamFlash) : ParamFlash :=
  let p := ParamFlash.ofBytes flash
  if p.length ≠ 2036#16 then
    let n := (BitVec.ofInt 32 (p.length.toNat - 4)).toNat
    ParamFlash.ofBytes ((bufferSlice around flash 0 n ++ old.bytes.drop n).take 2036)
  else p

/-- One pass of the scan; the flag says whether it came to its end (`continue` on damage). -/
def Scan.pass (around : Int → Byte) (s : Scan) (i : Nat) : Scan × Bool :=
  let flash := match tlsFlsRead s.dev true (c.partAddr (BitVec.ofNat 16 i)) 2036 with
    | (.ok, bs) => bs
    | _ => s.flash
  let s := { s with flash := flash }
  if partitionOk hw around flash = false then
    ({ s with isDamage := fun j => if j = i then true else s.isDamage j, damaged := s.damaged + 1 },
      false)
  else
    let p := ParamFlash.ofBytes flash
    let flashParam := if s.flashParam.magic = 0#32 ∨ s.flashParam.modifyCount < p.modifyCount then
      loadRecord around flash s.flashParam else s.flashParam
    ({ s with flashParam := flashParam, flash := List.replicate 2036 0#8 }, true)

/-- The scan over the two partitions, with its one restart after an erase of the spare sector. -/
def Scan.loop (around : Int → Byte) : Nat → Scan → Nat → Scan
  | 0, s, _ => s
  | fuel + 1, s, i =>
    if 2 ≤ i then s
    else
      match s.pass hw c around i with
      | (s, true) =>
        if s.tryrestore = false ∧ 2 ≤ s.damaged then
          Scan.loop around fuel
            { s with
              dev := (tlsFlsErase s.dev (c.restoreAddr / 4096)).2, flashParam := .zero,
              isDamage := fun _ => false, damaged := 0, tryrestore := true } 0
        else Scan.loop around fuel s (i + 1)
      | (s, false) => Scan.loop around fuel s (i + 1)

def Scan.start (d : Dev) : Scan :=
  { dev := d, flash := List.replicate 2036 0#8, flashParam := .zero, isDamage := fun _ => false,
    damaged := 0, tryrestore := false }

/-- The scan from its start: five passes are enough for two rounds. -/
def scan (around : Int → Byte) (d : Dev) : Scan := (Scan.start d).loop hw c around 5 0

/-- The places of a later `param_to_flash` in the heap's answers. -/
def later (heap : Nat → Bool) (n : Nat) : Nat → Bool := fun k => heap (n + k)

def writeDefaults (heap : Nat → Bool) (s : State) : Status × State :=
  match paramToFlash c heap (-1) 0 (loadFactoryDefault s) with
  | (.ok, s) => paramToFlash c (later heap 2) (-1) 1 s
  | r => r

def repair (heap : Nat → Bool) (isDamage : Nat → Bool) (s : State) : Status × State :=
  let first := if isDamage 0 then paramToFlash c heap (-1) 0 s else (.ok, s)
  match first with
  | (.ok, s) => if isDamage 1 then paramToFlash c (later heap 2) (-1) 1 s else (.ok, s)
  | (_, s) => (.eio, s)

def asEio : Status × State → Status × State
  | (.ok, s) => (.ok, s)
  | (_, s) => (.eio, s)

/-- `tls_param_init`. -/
def tlsParamInit (env : InitEnv) (s : State) : Status × State :=
  if s.flashParam.magic = paramMagic then (.eperm, s)
  else if env.sem = false then (.emem, s)
  else
    let s := { s with flashParam := .zero }
    if env.heap 0 = false then (.emem, s)
    else
      let r := scan hw c env.around s.dev
      let s := { s with dev := r.dev, flashParam := r.flashParam }
      if 2 ≤ r.damaged then asEio (writeDefaults c (later env.heap 1) s)
      else asEio (repair c (later env.heap 1) r.isDamage s)

/-! ## Access -/

/-- `tls_param_set`. While the default parameters are updated (`updp_mode`) it works on them and
leaves the flash alone. -/
def tlsParamSet (heap : Nat → Bool) (id : Int) (argv : Option (List Byte)) (toFlash : Bool)
    (s : State) : Status × State :=
  if id < -1 ∨ 66 ≤ id then (.einvalid, s)
  else
    match argv with
    | none => (.einvalid, s)
    | some argv =>
      if s.updpMode then
        -- `tls_param_user_param_init`
        match s.userDefaultParam.or (if heap 0 then some Params.zero else none) with
        | none => (.emem, s)
        | some p =>
          match p.set id argv with
          | none => (.einvalidid, { s with userDefaultParam := some p })
          | some p => (.ok, { s with userDefaultParam := some p })
      else
        match s.flashParam.parameters.set id argv with
        | none => (.einvalidid, s)
        | some p =>
          if toFlash then paramToFlash c (later heap 1) id (-1) (s.withParams p)
          else (.ok, s.withParams p)

/-- `tls_param_get`: the status and what it puts behind `argv`. -/
def tlsParamGet (heap : Bool) (id : Int) (fromFlash : Bool) (s : State) : Status × Option (List Byte) :=
  if id < -1 ∨ 66 ≤ id then (.einvalid, none)
  else
    let src :=
      if fromFlash ∧ heap then
        match tlsFlsRead s.dev true (c.partAddr s.flashParam.partitionNum) 2036 with
        | (.ok, bs) => (ParamFlash.ofBytes bs).parameters
        | _ => s.flashParam.parameters
      else s.flashParam.parameters
    match src.get id with
    | none => (.einvalidid, none)
    | some bs => (.ok, some bs)

/-- The comparison in `tls_param_to_flash` for all parameters: whether the partition that was
written last already has them. -/
def upToDate (heap : Bool) (s : State) : Bool :=
  if heap then
    match tlsFlsRead s.dev true (c.partAddr s.flashParam.partitionNum) 2036 with
    | (.ok, bs) => (ParamFlash.ofBytes bs).parameters = s.flashParam.parameters
    | _ => false
  else false

/-- `tls_param_to_flash`. -/
def tlsParamToFlash (heap : Nat → Bool) (id : Int) (s : State) : Status × State :=
  if id = -1 ∧ upToDate c (heap 0) s then (.ok, s)
  else paramToFlash c (later heap 1) id (-1) s

/-- `tls_param_to_default`. -/
def tlsParamToDefault (heap : Nat → Bool) (s : State) : Status × State :=
  match paramToFlash c heap (-1) 0 (loadFactoryDefault s) with
  | (.ok, s) =>
    let (err, s) := paramToFlash c (later heap 2) (-1) 1 s
    (err, { s with flashParam := { s.flashParam with magic := 0#32 } })
  | r => r

/-! ## Runs -/

/-- A call to the store after `tls_param_init`, with what the heap answers. -/
inductive Call where
  | set (id : Int) (argv : Option (List Byte)) (toFlash : Bool) (heap : Nat → Bool)
  | toFlash (id : Int) (heap : Nat → Bool)
  | toDefault (heap : Nat → Bool)

def call (s : State) : Call → Status × State
  | .set id argv toFlash heap => tlsParamSet c heap id argv toFlash s
  | .toFlash id heap => tlsParamToFlash c heap id s
  | .toDefault heap => tlsParamToDefault c heap s

def next (s : State) (x : Call) : State := (call c s x).2

end Calls

end Param
end Air101

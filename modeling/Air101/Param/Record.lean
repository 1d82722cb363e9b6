import Air101.Storage.Bytes
import Air101.Utils.Crc

/-!
# Param.Record

The parameter record (`platform/common/params/wm_param.h`): `struct tls_sys_param` with 2016 bytes
of parameters, and `struct tls_param_flash` with a header of 16 bytes in front of them and a CRC
behind them, as it lies in flash.

* `ofBytes_bytes`, `bytes_ofBytes`: a record and its 2036 bytes.
* `Valid bs`: the bytes of a complete record of this layout.
* `stamp_valid`: a record that has been stamped for writing is one.
-/

namespace Air101
namespace Param

open Storage
open Utils

/-! ## The parameter set -/

/-- `struct tls_sys_param`, as its bytes. -/
structure Params where
  bytes : List Byte
  length_eq : bytes.length = 2016
  deriving DecidableEq

namespace Params

/-- `memset` to zero. -/
def zero : Params := ⟨List.replicate 2016 0#8, List.length_replicate⟩

/-- Bytes put at an offset; what would run over the end of the set is dropped. -/
def write (p : Params) (offset : Nat) (bs : List Byte) : Params :=
  ⟨(patch p.bytes offset bs).take 2016, take_patch_length p.length_eq offset bs⟩

end Params

/-- A member of the set, as a case of `tls_param_set` or `tls_param_get` treats it: copied with its size,
or as a C string. -/
structure Field where
  offset : Nat
  size : Nat
  text : Bool

/-- The `switch` of `tls_param_set`: the members that are written. -/
def fields : List (Int × Field) :=
  [(-1, ⟨0, 2016, false⟩), -- TLS_PARAM_ID_ALL: param
    (0, ⟨16, 36, false⟩), -- TLS_PARAM_ID_SSID: ssid
    (1, ⟨55, 1, false⟩), -- TLS_PARAM_ID_ENCRY: encry
    (2, ⟨64, 68, false⟩), -- TLS_PARAM_ID_KEY: key
    (3, ⟨148, 24, false⟩), -- TLS_PARAM_ID_IP: ipcfg
    (4, ⟨316, 1, false⟩), -- TLS_PARAM_ID_AUTOMODE: auto_mode
    (5, ⟨322, 36, false⟩), -- TLS_PARAM_ID_DEFSOCKET: remote_socket_cfg
    (6, ⟨8, 8, false⟩), -- TLS_PARAM_ID_BSSID: bssid
    (7, ⟨53, 1, false⟩), -- TLS_PARAM_ID_CHANNEL: channel
    (34, ⟨62, 2, false⟩), -- TLS_PARAM_ID_CHANNEL_LIST: channellist
    (8, ⟨52, 1, false⟩), -- TLS_PARAM_ID_CHANNEL_EN: channel_enable
    (9, ⟨54, 1, false⟩), -- TLS_PARAM_ID_COUNTRY_REGION: wireless_region
    (10, ⟨56, 1, false⟩), -- TLS_PARAM_ID_WPROTOCOL: wireless_protocol
    (11, ⟨57, 1, false⟩), -- TLS_PARAM_ID_ADHOC_AUTOCREATE: auto_create_adhoc
    (12, ⟨59, 1, false⟩), -- TLS_PARAM_ID_ROAMING: auto_roam
    (13, ⟨58, 1, false⟩), -- TLS_PARAM_ID_AUTO_RETRY_CNT: auto_retrycnt
    (14, ⟨132, 4, false⟩), -- TLS_PARAM_ID_WBGR: wbgr
    (15, ⟨306, 1, false⟩), -- TLS_PARAM_ID_USRINTF: user_port_mode
    (16, ⟨318, 2, false⟩), -- TLS_PARAM_ID_AUTO_TRIGGER_LENGTH: transparent_trigger_length
    (28, ⟨320, 2, false⟩), -- TLS_PARAM_ID_AUTO_TRIGGER_PERIOD: transparent_trigger_period
    (29, ⟨372, 1, false⟩), -- TLS_PARAM_ID_ESCAPE_CHAR: EscapeChar
    (30, ⟨374, 2, false⟩), -- TLS_PARAM_ID_ESCAPE_PERIOD: EscapePeriod
    (31, ⟨376, 1, false⟩), -- TLS_PARAM_ID_IO_MODE: IoMode
    (32, ⟨377, 1, false⟩), -- TLS_PARAM_ID_CMD_MODE: CmdMode
    (33, ⟨378, 6, false⟩), -- TLS_PARAM_ID_PASSWORD: PassWord
    (35, ⟨384, 4, false⟩), -- TLS_PARAM_ID_WEBS_CONFIG: WebsCfg
    (17, ⟨360, 4, false⟩), -- TLS_PARAM_ID_DEBUG_MODE: debug_mode
    (18, ⟨0, 8, false⟩), -- TLS_PARAM_ID_HARDVERSION: hardware_version
    (19, ⟨61, 1, false⟩), -- TLS_PARAM_ID_BRDSSID: ssid_broadcast_enable
    (20, ⟨172, 32, true⟩), -- TLS_PARAM_ID_DNSNAME: local_dnsname
    (21, ⟨204, 32, true⟩), -- TLS_PARAM_ID_DEVNAME: local_device_name
    (22, ⟨60, 1, false⟩), -- TLS_PARAM_ID_PSM: auto_powersave
    (23, ⟨236, 68, false⟩), -- TLS_PARAM_ID_ORAY_CLIENT: oray_client_setting
    (24, ⟨304, 1, false⟩), -- TLS_PARAM_ID_UPNP: upnp_enable
    (26, ⟨308, 8, false⟩), -- TLS_PARAM_ID_UART: uart_cfg
    (36, ⟨388, 1, false⟩), -- TLS_PARAM_ID_ONESHOT_CFG: oneshotflag
    (37, ⟨391, 33, false⟩), -- TLS_PARAM_ID_SHA1: psk
    (38, ⟨424, 68, false⟩), -- TLS_PARAM_ID_ORIGIN_KEY: original_key
    (39, ⟨492, 36, false⟩), -- TLS_PARAM_ID_ORIGIN_SSID: original_ssid
    (40, ⟨528, 1, false⟩), -- TLS_PARAM_ID_AUTO_RECONNECT: auto_reconnect
    (41, ⟨532, 2, false⟩), -- TLS_PARAM_ID_QUICK_CONNECT: quick_connect
    (42, ⟨534, 1, false⟩), -- TLS_PARAM_ID_KEY_CHANGE: key_changed
    (43, ⟨535, 1, false⟩), -- TLS_PARAM_ID_SSID_CHANGE: ssid_changed
    (44, ⟨536, 36, false⟩), -- TLS_PARAM_ID_SOFTAP_SSID: apsta_ssid
    (45, ⟨572, 33, false⟩), -- TLS_PARAM_ID_SOFTAP_PSK: apsta_psk
    (46, ⟨607, 1, false⟩), -- TLS_PARAM_ID_SOFTAP_ENCRY: encry4softap
    (47, ⟨608, 68, false⟩), -- TLS_PARAM_ID_SOFTAP_KEY: key4softap
    (48, ⟨676, 24, false⟩), -- TLS_PARAM_ID_SOFTAP_IP: ipcfg4softap
    (49, ⟨606, 1, false⟩), -- TLS_PARAM_ID_SOFTAP_CHANNEL: channel4softap
    (50, ⟨700, 4, false⟩), -- TLS_PARAM_ID_SOFTAP_WBGR: wbgr4softap
    (51, ⟨704, 32, true⟩), -- TLS_PARAM_ID_SNTP_SERVER1: sntp_service1
    (52, ⟨736, 32, true⟩), -- TLS_PARAM_ID_SNTP_SERVER2: sntp_service2
    (53, ⟨768, 32, true⟩), -- TLS_PARAM_ID_SNTP_SERVER3: sntp_service3
    (54, ⟨800, 8, false⟩), -- TLS_PARAM_ID_TEM_OFFSET: params_tem
    (55, ⟨808, 108, false⟩), -- TLS_PARAM_ID_BT_ADAPTER: adapter_t
    (56, ⟨916, 220, false⟩), -- TLS_PARAM_ID_BT_REMOTE_DEVICE_1: remote_device1
    (57, ⟨1136, 220, false⟩), -- TLS_PARAM_ID_BT_REMOTE_DEVICE_2: remote_device2
    (58, ⟨1356, 220, false⟩), -- TLS_PARAM_ID_BT_REMOTE_DEVICE_3: remote_device3
    (59, ⟨1576, 220, false⟩), -- TLS_PARAM_ID_BT_REMOTE_DEVICE_4: remote_device4
    (60, ⟨1796, 220, false⟩)] -- TLS_PARAM_ID_BT_REMOTE_DEVICE_5: remote_device5

/-- The `switch` of `tls_param_get`: the members that are read. -/
def getFields : List (Int × Field) :=
  [(-1, ⟨0, 2016, false⟩), -- TLS_PARAM_ID_ALL: src
    (0, ⟨16, 36, false⟩), -- TLS_PARAM_ID_SSID: ssid
    (1, ⟨55, 1, false⟩), -- TLS_PARAM_ID_ENCRY: encry
    (2, ⟨64, 68, false⟩), -- TLS_PARAM_ID_KEY: key
    (3, ⟨148, 24, false⟩), -- TLS_PARAM_ID_IP: ipcfg
    (4, ⟨316, 1, false⟩), -- TLS_PARAM_ID_AUTOMODE: auto_mode
    (5, ⟨322, 36, false⟩), -- TLS_PARAM_ID_DEFSOCKET: remote_socket_cfg
    (6, ⟨8, 8, false⟩), -- TLS_PARAM_ID_BSSID: bssid
    (7, ⟨53, 1, false⟩), -- TLS_PARAM_ID_CHANNEL: channel
    (34, ⟨62, 2, false⟩), -- TLS_PARAM_ID_CHANNEL_LIST: channellist
    (8, ⟨52, 1, false⟩), -- TLS_PARAM_ID_CHANNEL_EN: channel_enable
    (9, ⟨54, 1, false⟩), -- TLS_PARAM_ID_COUNTRY_REGION: wireless_region
    (10, ⟨56, 1, false⟩), -- TLS_PARAM_ID_WPROTOCOL: wireless_protocol
    (11, ⟨57, 1, false⟩), -- TLS_PARAM_ID_ADHOC_AUTOCREATE: auto_create_adhoc
    (12, ⟨59, 1, false⟩), -- TLS_PARAM_ID_ROAMING: auto_roam
    (13, ⟨58, 1, false⟩), -- TLS_PARAM_ID_AUTO_RETRY_CNT: auto_retrycnt
    (14, ⟨132, 4, false⟩), -- TLS_PARAM_ID_WBGR: wbgr
    (15, ⟨306, 1, false⟩), -- TLS_PARAM_ID_USRINTF: user_port_mode
    (16, ⟨318, 2, false⟩), -- TLS_PARAM_ID_AUTO_TRIGGER_LENGTH: transparent_trigger_length
    (28, ⟨320, 2, false⟩), -- TLS_PARAM_ID_AUTO_TRIGGER_PERIOD: transparent_trigger_period
    (29, ⟨372, 1, false⟩), -- TLS_PARAM_ID_ESCAPE_CHAR: EscapeChar
    (30, ⟨374, 2, false⟩), -- TLS_PARAM_ID_ESCAPE_PERIOD: EscapePeriod
    (31, ⟨376, 1, false⟩), -- TLS_PARAM_ID_IO_MODE: IoMode
    (32, ⟨377, 1, false⟩), -- TLS_PARAM_ID_CMD_MODE: CmdMode
    (33, ⟨378, 6, false⟩), -- TLS_PARAM_ID_PASSWORD: PassWord
    (35, ⟨384, 4, false⟩), -- TLS_PARAM_ID_WEBS_CONFIG: WebsCfg
    (17, ⟨360, 4, false⟩), -- TLS_PARAM_ID_DEBUG_MODE: debug_mode
    (18, ⟨0, 8, false⟩), -- TLS_PARAM_ID_HARDVERSION: hardware_version
    (19, ⟨61, 1, false⟩), -- TLS_PARAM_ID_BRDSSID: ssid_broadcast_enable
    (20, ⟨172, 32, true⟩), -- TLS_PARAM_ID_DNSNAME: local_dnsname
    (21, ⟨204, 32, true⟩), -- TLS_PARAM_ID_DEVNAME: local_device_name
    (22, ⟨60, 1, false⟩), -- TLS_PARAM_ID_PSM: auto_powersave
    (23, ⟨236, 68, false⟩), -- TLS_PARAM_ID_ORAY_CLIENT: oray_client_setting
    (24, ⟨304, 1, false⟩), -- TLS_PARAM_ID_UPNP: upnp_enable
    (26, ⟨308, 8, false⟩), -- TLS_PARAM_ID_UART: uart_cfg
    (36, ⟨388, 1, false⟩), -- TLS_PARAM_ID_ONESHOT_CFG: oneshotflag
    (37, ⟨391, 33, false⟩), -- TLS_PARAM_ID_SHA1: psk
    (38, ⟨424, 68, false⟩), -- TLS_PARAM_ID_ORIGIN_KEY: original_key
    (39, ⟨492, 36, false⟩), -- TLS_PARAM_ID_ORIGIN_SSID: original_ssid
    (40, ⟨528, 1, false⟩), -- TLS_PARAM_ID_AUTO_RECONNECT: auto_reconnect
    (41, ⟨532, 2, false⟩), -- TLS_PARAM_ID_QUICK_CONNECT: quick_connect
    (42, ⟨534, 1, false⟩), -- TLS_PARAM_ID_KEY_CHANGE: key_changed
    (43, ⟨535, 1, false⟩), -- TLS_PARAM_ID_SSID_CHANGE: ssid_changed
    (44, ⟨536, 36, false⟩), -- TLS_PARAM_ID_SOFTAP_SSID: apsta_ssid
    (45, ⟨572, 33, false⟩), -- TLS_PARAM_ID_SOFTAP_PSK: apsta_psk
    (46, ⟨607, 1, false⟩), -- TLS_PARAM_ID_SOFTAP_ENCRY: encry4softap
    (47, ⟨608, 68, false⟩), -- TLS_PARAM_ID_SOFTAP_KEY: key4softap
    (48, ⟨676, 24, false⟩), -- TLS_PARAM_ID_SOFTAP_IP: ipcfg4softap
    (49, ⟨606, 1, false⟩), -- TLS_PARAM_ID_SOFTAP_CHANNEL: channel4softap
    (50, ⟨700, 4, false⟩), -- TLS_PARAM_ID_SOFTAP_WBGR: wbgr4softap
    (51, ⟨704, 32, true⟩), -- TLS_PARAM_ID_SNTP_SERVER1: sntp_service1
    (52, ⟨736, 32, true⟩), -- TLS_PARAM_ID_SNTP_SERVER2: sntp_service2
    (53, ⟨768, 32, true⟩), -- TLS_PARAM_ID_SNTP_SERVER3: sntp_service3
    (54, ⟨800, 8, false⟩), -- TLS_PARAM_ID_TEM_OFFSET: params_tem
    (55, ⟨808, 108, false⟩), -- TLS_PARAM_ID_BT_ADAPTER: adapter_t
    (56, ⟨916, 220, false⟩), -- TLS_PARAM_ID_BT_REMOTE_DEVICE_1: remote_device1
    (57, ⟨1136, 220, false⟩), -- TLS_PARAM_ID_BT_REMOTE_DEVICE_2: remote_device2
    (58, ⟨1356, 220, false⟩), -- TLS_PARAM_ID_BT_REMOTE_DEVICE_3: remote_device3
    (59, ⟨1576, 220, false⟩), -- TLS_PARAM_ID_BT_REMOTE_DEVICE_4: remote_device4
    (60, ⟨1796, 220, false⟩)] -- TLS_PARAM_ID_BT_REMOTE_DEVICE_5: remote_device5

/-- Both have a case for the same identifiers, with the same members in the same way. -/
theorem getFields_eq : getFields = fields := rfl

theorem fields_in : ∀ f ∈ fields, f.2.offset + f.2.size ≤ 2016 := by decide

namespace Params

/-- The `switch` of `tls_param_set`; `none` when it has no case for `id`. An argument shorter than
its member is read as if zeros followed. -/
def set (p : Params) (id : Int) (argv : List Byte) : Option Params :=
  (fields.lookup id).map fun f =>
    if f.text then p.write f.offset (cstr argv ++ [0#8])
    else p.write f.offset ((argv ++ List.replicate f.size 0#8).take f.size)

/-- The `switch` of `tls_param_get`: what it puts behind `argv`; `none` when it has no case for `id`. -/
def get (p : Params) (id : Int) : Option (List Byte) :=
  (getFields.lookup id).map fun f =>
    if f.text then cstr (p.bytes.drop f.offset) ++ [0#8]
    else (p.bytes.drop f.offset).take f.size

theorem write_read (p : Params) {offset n : Nat} {bs : List Byte} (hl : bs.length = n)
    (h : offset + n ≤ 2016) : ((p.write offset bs).bytes.drop offset).take n = bs := by
  have hp := p.length_eq
  have htake : (p.bytes.take offset).length = offset := by
    rw [List.length_take]
    omega
  simp only [write]
  rw [List.drop_take, List.take_take, Nat.min_eq_left (by omega), patch, List.append_assoc,
    List.drop_left' htake, List.take_left' hl]

theorem eq_of_get {p q : Params} (h : p.get (-1) = q.get (-1)) : p = q := by
  have hp := p.length_eq
  have hq := q.length_eq
  have hall : ∀ r : Params, r.get (-1) = some (r.bytes.take 2016) := fun _ => rfl
  rw [hall, hall, Option.some.injEq, List.take_of_length_le (by omega),
    List.take_of_length_le (by omega)] at h
  cases p
  cases q
  simpa using h

end Params

/-! ## The record -/

/-- `TLS_PARAM_MAGIC`. -/
def paramMagic : BitVec 32 := 0x4947414D#32

/-- `struct tls_param_flash`. -/
structure ParamFlash where
  magic : BitVec 32
  partitionNum : BitVec 16
  modifyCount : BitVec 16
  resv1 : BitVec 32
  resv2 : BitVec 16
  length : BitVec 16
  parameters : Params
  crc32 : BitVec 32
  deriving DecidableEq

namespace ParamFlash

/-- `memset` to zero. -/
def zero : ParamFlash := ⟨0, 0, 0, 0, 0, 0, Params.zero, 0⟩

/-- The record without its last field, as it lies in memory. -/
def body (p : ParamFlash) : List Byte :=
  leBytes 4 p.magic.toNat ++ leBytes 2 p.partitionNum.toNat ++ leBytes 2 p.modifyCount.toNat ++
    leBytes 4 p.resv1.toNat ++ leBytes 2 p.resv2.toNat ++ leBytes 2 p.length.toNat ++
    p.parameters.bytes

/-- The record as it lies in memory. -/
def bytes (p : ParamFlash) : List Byte := p.body ++ leBytes 4 p.crc32.toNat

/-- The record that a memory of 2036 bytes holds. -/
def ofBytes (bs : List Byte) : ParamFlash where
  magic := BitVec.ofNat 32 (field bs 0 4)
  partitionNum := BitVec.ofNat 16 (field bs 4 2)
  modifyCount := BitVec.ofNat 16 (field bs 6 2)
  resv1 := BitVec.ofNat 32 (field bs 8 4)
  resv2 := BitVec.ofNat 16 (field bs 12 2)
  length := BitVec.ofNat 16 (field bs 14 2)
  parameters := Params.zero.write 0 ((bs.drop 16).take 2016)
  crc32 := BitVec.ofNat 32 (field bs 2032 4)

theorem body_length (p : ParamFlash) : p.body.length = 2032 := by
  simp only [body, List.length_append, leBytes_length, p.parameters.length_eq]

theorem bytes_length (p : ParamFlash) : p.bytes.length = 2036 := by
  rw [bytes, List.length_append, body_length, leBytes_length]

theorem ofNat_leNat_leBytes {w n : Nat} (x : BitVec w) (h : w = 8 * n) :
    BitVec.ofNat w (leNat (leBytes n x.toNat)) = x := by
  subst h
  rw [leNat_leBytes, BitVec.ofNat_toNat, BitVec.setWidth_eq]
  rw [show (256 : Nat) = 2 ^ 8 from rfl, ← Nat.pow_mul]
  exact x.isLt

theorem write_all {bs : List Byte} (h : bs.length = 2016) : (Params.zero.write 0 bs).bytes = bs := by
  have hz := Params.zero.length_eq
  simp only [Params.write, patch, List.take_zero, List.nil_append, Nat.zero_add]
  rw [List.take_left' h]

theorem bytes_params (p : ParamFlash) : (p.bytes.drop 16).take 2016 = p.parameters.bytes := by
  have hdrop : p.bytes.drop 16 = p.parameters.bytes ++ leBytes 4 p.crc32.toNat := by
    rw [bytes, body]
    rfl
  rw [hdrop, List.take_left' p.parameters.length_eq]

theorem bytes_crc (p : ParamFlash) : (p.bytes.drop 2032).take 4 = leBytes 4 p.crc32.toNat := by
  rw [bytes, List.drop_left' (body_length p), List.take_of_length_le (Nat.le_of_eq (leBytes_length _ _))]

/-- A record comes back from its bytes. -/
theorem ofBytes_bytes (p : ParamFlash) : ofBytes p.bytes = p := by
  have h0 : field p.bytes 0 4 = leNat (leBytes 4 p.magic.toNat) := by rw [field, bytes, body]; rfl
  have h4 : field p.bytes 4 2 = leNat (leBytes 2 p.partitionNum.toNat) := by
    rw [field, bytes, body]; rfl
  have h6 : field p.bytes 6 2 = leNat (leBytes 2 p.modifyCount.toNat) := by
    rw [field, bytes, body]; rfl
  have h8 : field p.bytes 8 4 = leNat (leBytes 4 p.resv1.toNat) := by rw [field, bytes, body]; rfl
  have h12 : field p.bytes 12 2 = leNat (leBytes 2 p.resv2.toNat) := by
    rw [field, bytes, body]; rfl
  have h14 : field p.bytes 14 2 = leNat (leBytes 2 p.length.toNat) := by
    rw [field, bytes, body]; rfl
  have hcrc : field p.bytes 2032 4 = leNat (leBytes 4 p.crc32.toNat) := by rw [field, bytes_crc]
  have hpar : Params.zero.write 0 ((p.bytes.drop 16).take 2016) = p.parameters := by
    have hlen : ((p.bytes.drop 16).take 2016).length = 2016 := by
      rw [bytes_params, p.parameters.length_eq]
    have h := write_all hlen
    rw [bytes_params] at h ⊢
    cases hq : p.parameters with
    | mk bs hbs =>
      rw [hq] at h
      simpa [Params.write] using h
  have h32 : ∀ x : BitVec 32, BitVec.ofNat 32 (leNat (leBytes 4 x.toNat)) = x := fun x =>
    ofNat_leNat_leBytes x rfl
  have h16 : ∀ x : BitVec 16, BitVec.ofNat 16 (leNat (leBytes 2 x.toNat)) = x := fun x =>
    ofNat_leNat_leBytes x rfl
  simp only [ofBytes, h0, h4, h6, h8, h12, h14, hcrc, hpar, h32, h16]

theorem leBytes_field {bs : List Byte} {k n w : Nat} (hw : w = 8 * n) (h : k + n ≤ bs.length) :
    leBytes n (BitVec.ofNat w (field bs k n)).toNat = (bs.drop k).take n := by
  have hlen : ((bs.drop k).take n).length = n := by
    rw [List.length_take, List.length_drop]
    omega
  have hlt : field bs k n < 2 ^ w := by
    rw [hw, Nat.pow_mul]
    exact field_lt bs k n
  rw [BitVec.toNat_ofNat, Nat.mod_eq_of_lt hlt, field]
  have h := leBytes_leNat ((bs.drop k).take n)
  rw [hlen] at h
  exact h

/-- Memory of the size of a record is the bytes of the record it holds. -/
theorem bytes_ofBytes {bs : List Byte} (h : bs.length = 2036) : (ofBytes bs).bytes = bs := by
  have hpar : (ofBytes bs).parameters.bytes = (bs.drop 16).take 2016 := by
    apply write_all
    rw [List.length_take, List.length_drop]
    omega
  -- the record is put together from its parts, first to last
  have hjoin : ∀ k n, bs.take k ++ (bs.drop k).take n = bs.take (k + n) := fun k n =>
    List.take_add.symm
  have hend : bs.take 2036 = bs := List.take_of_length_le (by omega)
  rw [bytes, body, hpar]
  simp only [ofBytes]
  rw [leBytes_field rfl (by omega), leBytes_field rfl (by omega), leBytes_field rfl (by omega),
    leBytes_field rfl (by omega), leBytes_field rfl (by omega), leBytes_field rfl (by omega),
    leBytes_field rfl (by omega), List.drop_zero, hjoin, hjoin, hjoin, hjoin, hjoin, hjoin, hjoin]
  exact hend

end ParamFlash

/-! ## Complete records -/

/-- The bytes of a complete record of this layout: the magic number, the CRC of everything in front of
it, and the length 2036. `tls_param_init` tests the first two only (`partitionOk_iff`) and takes records
of other lengths as well. -/
def Valid (bs : List Byte) : Prop :=
  bs.length = 2036 ∧ (ParamFlash.ofBytes bs).magic = paramMagic ∧
    (ParamFlash.ofBytes bs).length = 2036#16 ∧
    (ParamFlash.ofBytes bs).crc32 = getCrc32 (bs.take 2032)

/-- What `param_to_flash` puts into the record in RAM before it writes it to partition `num`. -/
def ParamFlash.stamp (p : ParamFlash) (num : BitVec 16) : ParamFlash :=
  let p := { p with
    magic := paramMagic, length := 2036#16, modifyCount := 1#16, partitionNum := num,
    resv1 := 0#32, resv2 := 0#16 }
  { p with crc32 := getCrc32 p.body }

/-- A stamped record is complete. -/
theorem stamp_valid (p : ParamFlash) (num : BitVec 16) : Valid (p.stamp num).bytes := by
  refine ⟨ParamFlash.bytes_length _, ?_, ?_, ?_⟩
  · rw [ParamFlash.ofBytes_bytes]
    rfl
  · rw [ParamFlash.ofBytes_bytes]
    rfl
  · rw [ParamFlash.ofBytes_bytes, ParamFlash.bytes, List.take_left' (ParamFlash.body_length _)]
    rfl

end Param
end Air101

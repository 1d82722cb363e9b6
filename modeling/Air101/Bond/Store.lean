import Air101.Storage.Nor
import Mathlib.Logic.Function.Basic

/-!
# Bond.Store

The bond database of the BLE host: the tables in RAM (`nimble/host/store/config/src/ble_store_config.c`), the passes that
write them into the parameter records (`ble_store_nvram.c`) and the records themselves (`wm_bt_storage.c`).

One record (`bt_remote_device_t`) holds what is stored of one peer. Over its C fields the code lays a tag, a word of valid
bits and four areas, at the offsets 12 (address), 19 (our key), 91 (the peer's key) and 163 (the descriptors): bit 0 of
the valid bits says that our key is there, bit 1 that the peer's key is, and the bits from 2 on count the descriptors.

* `getSecIndex`: the record of an address, or the first free one.
* `persist`: the pass over a table; a record that was found is then replaced by the one with the table's index.
* `write`, `delete`, `flush`, `confInit`: the calls.
-/

namespace Air101
namespace Bond

open Storage

/-- `BLE_STORE_MAX_BONDS`, which is `BTM_SEC_MAX_BLE_DEVICE_RECORDS` too. -/
def maxBonds : Nat := 5

/-- `BLE_STORE_MAX_CCCDS`: the descriptors of one peer. -/
def maxCccds : Nat := 6

/-- `ble_addr_t`. `ble_addr_cmp` is only ever compared with zero, which is equality. -/
structure Addr where
  type : Byte
  val : BitVec 48
  deriving DecidableEq

def Addr.any : Addr := ⟨0, 0⟩

structure Sec where
  peerAddr : Addr
  keySize : Byte
  ediv : BitVec 16
  randNum : BitVec 64
  ltk : BitVec 128
  ltkPresent : Bool
  irk : BitVec 128
  irkPresent : Bool
  csrk : BitVec 128
  csrkPresent : Bool
  authenticated : Bool
  sc : Bool
  deriving DecidableEq

/-- `struct ble_store_value_noaddr_cccd`: a descriptor as a record holds it. -/
structure CccdValue where
  chrValHandle : BitVec 16
  flags : BitVec 16
  valueChanged : Bool
  deriving DecidableEq

/-- `struct ble_store_value_cccd`. The address takes seven bytes and one to align, the rest is the descriptor's value. -/
structure Cccd where
  peerAddr : Addr
  value : CccdValue
  deriving DecidableEq

structure KeySec where
  peerAddr : Addr
  ediv : BitVec 16
  randNum : BitVec 64
  edivRandPresent : Bool
  idx : Nat

structure KeyCccd where
  peerAddr : Addr
  chrValHandle : BitVec 16
  idx : Nat

/-- `ble_store_key_from_value_sec`. -/
def Sec.key (v : Sec) : KeySec := ⟨v.peerAddr, v.ediv, v.randNum, true, 0⟩

/-- `ble_store_key_from_value_cccd`. -/
def Cccd.key (v : Cccd) : KeyCccd := ⟨v.peerAddr, v.value.chrValHandle, 0⟩

/-! ## The records -/

/-- A `bt_remote_device_t`, as the code uses it. -/
structure Device where
  validTag : BitVec 32
  validBit : Nat
  addr : Addr
  ourSec : Sec
  peerSec : Sec
  cccdInfo : Nat → CccdValue

/-- The records, by index from `TLS_PARAM_ID_BT_REMOTE_DEVICE_1`: `tls_param_get` reads one, `tls_param_set` replaces
one. -/
abbrev Params := Nat → Device

def tagValid : BitVec 32 := 0xdeadbeae

def tagInvalid : BitVec 32 := 0x88888888

/-- `btif_config_get_sec_index`: the first valid record of the address, and `found` is set; else the first record that
is not valid, and `found` stays as it was. -/
def getSecIndex (recs : Params) (addr : Addr) (found : Bool) : Option Nat × Bool :=
  match (List.range maxBonds).find? fun i => (recs i).validTag = tagValid ∧ addr = (recs i).addr with
  | some i => (some i, true)
  | none => ((List.range maxBonds).find? fun i => (recs i).validTag ≠ tagValid, found)

/-- `btif_config_store_our_sec`; `none` when the assertion on the index fails. -/
def storeOurSec (recs : Params) (idx : Nat) (payload : Sec) : Option Params :=
  if idx < maxBonds then
    let device := recs idx
    if device.validTag = tagValid then
      some (Function.update recs idx { device with validBit := device.validBit ||| 1, ourSec := payload })
    else
      some (Function.update recs idx
        { device with validTag := tagValid, validBit := 1, addr := payload.peerAddr, ourSec := payload })
  else none

/-- `btif_config_store_peer_sec`. In a record that was not valid the pointer is set to the offset instead of moved by it:
the key is copied to the address 91, where neither the record nor any RAM is. -/
def storePeerSec (recs : Params) (idx : Nat) (payload : Sec) : Option Params :=
  if idx < maxBonds then
    let device := recs idx
    if device.validTag = tagValid then
      some (Function.update recs idx { device with validBit := device.validBit ||| 2, peerSec := payload })
    else
      some (Function.update recs idx
        { device with validTag := tagValid, validBit := 2, addr := payload.peerAddr })
  else none

/-- `btif_config_store_cccd`. In a record that was not valid the descriptors are copied to the address 163. -/
def storeCccd (recs : Params) (idx : Nat) (addr : Addr) (count : Nat) (payload : Nat → CccdValue) : Option Params :=
  if idx < maxBonds then
    let device := recs idx
    if device.validTag = tagValid then
      some (Function.update recs idx
        { device with validBit := count <<< 2 ||| (device.validBit &&& 0x03), cccdInfo := payload })
    else
      some (Function.update recs idx { device with validTag := tagValid, validBit := count <<< 2, addr := addr })
  else none

/-- What the three `btif_config_delete_*` do to a record: the valid bits in `test` are cleared by keeping those in `keep`,
and a record without a key left is not valid any more. -/
def deleteBits (test keep : Nat) (recs : Params) (idx : Nat) : Params :=
  let device := recs idx
  if device.validTag = tagValid ∧ device.validBit &&& test ≠ 0 then
    let bits := device.validBit &&& keep
    Function.update recs idx
      { device with validBit := bits, validTag := if bits &&& 0x03 = 0 then tagInvalid else device.validTag }
  else recs

/-- `btif_config_delete_our_sec`. -/
def deleteOurSec : Params → Nat → Params := deleteBits 0x01 0xFFFFFFFE

/-- `btif_config_delete_peer_sec`. -/
def deletePeerSec : Params → Nat → Params := deleteBits 0x02 0xFFFFFFFD

/-- `btif_config_delete_cccd`. -/
def deleteCccd : Params → Nat → Params := deleteBits 0xFFFFFFFC 0x03

/-! ## The tables in RAM -/

structure CccdNvram where
  addr : Addr
  offset : Nat
  value : Nat → CccdValue

/-- The tables, the static `cccd_nvram_array` and the records. Entries of the array from `maxBonds` on are the memory
behind it. -/
structure State where
  ourSecs : List Sec
  peerSecs : List Sec
  cccds : List Cccd
  nvramArray : Nat → CccdNvram
  params : Params

/-- What the source does not determine: the bytes of the stack that `btif_config_delete_all` puts into the records beside
the tag and the valid bits, and what the program's memory is after stores behind the end of `cccd_nvram_array`. -/
structure Env where
  stack : Device
  overrun : State → State

/-! ## The passes over the tables -/

section Persist

variable {α : Type} (addr : α → Addr) (store : Params → Nat → α → Option Params) (delete : Params → Nat → Params)

/-- The loop of a pass from the entry `i` on. `found` is not cleared between two entries, and once it is set every entry
goes to the record of its own index. The result is the pass's return code. -/
def persistLoop : List α → Nat → Bool → Params → Option (Params × Int)
  | [], _, _, recs => some (recs, 0)
  | x :: xs, i, found, recs =>
    match getSecIndex recs (addr x) found with
    | (none, _) => some (recs, -1)
    | (some idx, found) =>
      match store recs (if found then i else idx) x with
      | none => none
      | some recs => persistLoop xs (i + 1) found recs

def persist (xs : List α) (found : Bool) (recs : Params) : Option (Params × Int) :=
  match persistLoop addr store xs 0 found recs with
  | none => none
  | some (recs, rc) =>
    if rc = 0 then some ((List.range' xs.length (maxBonds - xs.length)).foldl delete recs, 0) else some (recs, rc)

end Persist

namespace State

/-- `ble_store_config_persist_peer_secs`. -/
def persistPeerSecs (s : State) : Option (State × Int) :=
  match persist Sec.peerAddr storePeerSec deletePeerSec s.peerSecs false s.params with
  | none => none
  | some (recs, rc) => some ({ s with params := recs }, rc)

/-- `ble_store_config_persist_our_secs`. -/
def persistOurSecs (s : State) : Option (State × Int) :=
  match persist Sec.peerAddr storeOurSec deleteOurSec s.ourSecs false s.params with
  | none => none
  | some (recs, rc) => some ({ s with params := recs }, rc)

end State

/-- The first loop of `ble_store_config_persist_cccds`, for `n` descriptors in the table. -/
def resetOffsets (n : Nat) (arr : Nat → CccdNvram) : Nat → CccdNvram :=
  fun j => if j < n then { arr j with offset := 0 } else arr j

def CccdNvram.push (g : CccdNvram) (v : CccdValue) : CccdNvram :=
  { g with value := Function.update g.value g.offset v, offset := g.offset + 1 }

structure Prep where
  arr : Nat → CccdNvram
  preferIndex : Nat
  found : Bool

def Prep.add (p : Prep) (c : Cccd) : Prep :=
  match (List.range p.preferIndex).find? fun j => c.peerAddr = (p.arr j).addr with
  | some j => ⟨Function.update p.arr j ((p.arr j).push c.value), p.preferIndex, true⟩
  | none =>
    let j := p.preferIndex
    ⟨Function.update p.arr j ({ p.arr j with addr := c.peerAddr }.push c.value), p.preferIndex + 1, false⟩

/-- The second loop of `ble_store_config_persist_cccds`. -/
def prepare (cccds : List Cccd) (arr : Nat → CccdNvram) : Prep :=
  cccds.foldl Prep.add ⟨arr, 0, false⟩

namespace State

/-- `ble_store_config_persist_cccds`. The first loop clears as many entries as there are descriptors, of an array of
`maxBonds`. -/
def persistCccds (e : Env) (s : State) : Option (State × Int) :=
  let s := if maxBonds < s.cccds.length then e.overrun s else s
  let p := prepare s.cccds (resetOffsets s.cccds.length s.nvramArray)
  match persist CccdNvram.addr (fun recs idx g => storeCccd recs idx g.addr g.offset g.value) deleteCccd
      ((List.range p.preferIndex).map p.arr) p.found s.params with
  | none => none
  | some (recs, rc) => some ({ s with nvramArray := p.arr, params := recs }, rc)

end State

/-! ## The calls -/

def enoent : Int := 5

def estoreCap : Int := 27

/-- The search of `ble_store_config_find_sec` and `ble_store_config_find_cccd` from the entry `i` on: the first `idx`
matches are skipped. -/
def findFrom {α : Type} (matching : α → Bool) (idx : Nat) : List α → Nat → Nat → Option Nat
  | [], _, _ => none
  | cur :: rest, i, skipped =>
    if matching cur then
      if skipped < idx then findFrom matching idx rest (i + 1) (skipped + 1) else some i
    else findFrom matching idx rest (i + 1) skipped

/-- `ble_store_config_find_sec`. -/
def findSec (key : KeySec) (secs : List Sec) : Option Nat :=
  findFrom (fun cur => (key.peerAddr = Addr.any ∨ cur.peerAddr = key.peerAddr) ∧
    (key.edivRandPresent → cur.ediv = key.ediv ∧ cur.randNum = key.randNum)) key.idx secs 0 0

/-- `ble_store_config_find_cccd`. -/
def findCccd (key : KeyCccd) (cccds : List Cccd) : Option Nat :=
  findFrom (fun cur => (key.peerAddr = Addr.any ∨ cur.peerAddr = key.peerAddr) ∧
    (key.chrValHandle ≠ 0 → cur.value.chrValHandle = key.chrValHandle)) key.idx cccds 0 0

/-- The RAM side of the three `ble_store_config_write_*`: the entry found is replaced, else the value is appended unless
the table has `cap` entries. -/
def put {α : Type} (cap : Nat) (found : Option Nat) (v : α) (xs : List α) : Option (List α) :=
  match found with
  | some idx => some (xs.set idx v)
  | none => if cap ≤ xs.length then none else some (xs ++ [v])

inductive Value where
  | ourSec (v : Sec)
  | peerSec (v : Sec)
  | cccd (v : Cccd)

inductive Key where
  | ourSec (k : KeySec)
  | peerSec (k : KeySec)
  | cccd (k : KeyCccd)

namespace State

/-- `ble_store_config_write`. -/
def write (e : Env) (s : State) : Value → Option (State × Int)
  | .ourSec v =>
    match put maxBonds (findSec v.key s.ourSecs) v s.ourSecs with
    | none => some (s, estoreCap)
    | some secs => persistOurSecs { s with ourSecs := secs }
  | .peerSec v =>
    match put maxBonds (findSec v.key s.peerSecs) v s.peerSecs with
    | none => some (s, estoreCap)
    | some secs => persistPeerSecs { s with peerSecs := secs }
  | .cccd v =>
    match put (maxCccds * maxBonds) (findCccd v.key s.cccds) v s.cccds with
    | none => some (s, estoreCap)
    | some cccds => persistCccds e { s with cccds := cccds }

/-- `ble_store_config_delete`, which does not write the records. -/
def delete (s : State) : Key → State × Int
  | .ourSec k =>
    match findSec k s.ourSecs with
    | none => (s, enoent)
    | some idx => ({ s with ourSecs := s.ourSecs.eraseIdx idx }, 0)
  | .peerSec k =>
    match findSec k s.peerSecs with
    | none => (s, enoent)
    | some idx => ({ s with peerSecs := s.peerSecs.eraseIdx idx }, 0)
  | .cccd k =>
    match findCccd k s.cccds with
    | none => (s, enoent)
    | some idx => ({ s with cccds := s.cccds.eraseIdx idx }, 0)

/-- `btif_config_delete_all`. -/
def deleteAll (e : Env) (s : State) : State :=
  { s with params := fun i =>
      if i < maxBonds then { e.stack with validTag := tagInvalid, validBit := 0 } else s.params i }

def andThen (r : Option (State × Int)) (next : State → Option (State × Int)) : Option (State × Int) :=
  match r with
  | none => none
  | some (s, rc) => if rc = 0 then next s else some (s, rc)

/-- `ble_store_config_flush`. -/
def flush (e : Env) (s : State) : Option (State × Int) :=
  andThen (persistPeerSecs (s.deleteAll e)) fun s => andThen (persistOurSecs s) fun s => persistCccds e s

/-- One record of `ble_nvs_restore_sec_keys`; `none` when the assertion on the count fails. -/
def restore (s : State) (device : Device) : Option State :=
  if device.validTag = tagValid then
    let bits := device.validBit
    let s := if bits &&& 0x01 ≠ 0 then { s with ourSecs := s.ourSecs ++ [device.ourSec] } else s
    let s := if bits &&& 0x02 ≠ 0 then { s with peerSecs := s.peerSecs ++ [device.peerSec] } else s
    if bits &&& 0xFFFFFFFC ≠ 0 then
      if bits >>> 2 ≤ 6 then
        some { s with cccds := s.cccds ++ (List.range (bits >>> 2)).map fun j => ⟨device.addr, device.cccdInfo j⟩ }
      else none
    else some s
  else some s

/-- `ble_nvs_restore_sec_keys` over the records below `n`. -/
def restoreTo : Nat → State → Option State
  | 0, s => some s
  | n + 1, s =>
    match restoreTo n s with
    | none => none
    | some s' => s'.restore (s.params n)

/-- `ble_store_config_conf_init`. -/
def confInit (s : State) : Option State :=
  restoreTo maxBonds { s with nvramArray := fun _ => ⟨Addr.any, 0, fun _ => ⟨0, 0, false⟩⟩ }

/-- A restart: the tables in RAM are gone and `ble_store_config_conf_init` runs. -/
def restart (s : State) : Option State :=
  confInit { s with ourSecs := [], peerSecs := [], cccds := [] }

end State

end Bond
end Air101

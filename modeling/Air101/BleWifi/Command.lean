import Air101.BleWifi.Response

/-!
# BleWifi.Command

The commands of the Wi-Fi provisioning (`src/app/bleapp/wm_ble_server_wifi_app.c`). `wm_ble_wifi_cfg_write_cb` gets the
frames, puts the fragments of a command together in `cmd_buffer` and hands the command to `app_cmd_process`.

The state has a log of the reads, allocations, copies and assertions on the way, each with what it is about, and of the
calls of `app_cmd_process`, each with the fragments it was made of. A read outside a buffer gives 0 here.
-/

namespace Air101
namespace BleWifi
namespace Command

open Storage

/-- Something that has to be in order. -/
inductive Access where
  /-- `len` bytes from `start` on are read of something that has `bound` bytes. -/
  | read (bound start len : Int)
  | alloc (n : Int)
  | copy (n : Int)
  | check (cond : Bool)

/-- A read of no bytes is in order anywhere. -/
def Access.ok : Access → Prop
  | .read bound start len => len = 0 ∨ 0 ≤ start ∧ 0 ≤ len ∧ start + len ≤ bound
  | .alloc n => 0 ≤ n
  | .copy n => 0 ≤ n
  | .check cond => cond = true

instance : DecidablePred Access.ok
  | .read bound start len => inferInstanceAs (Decidable (len = 0 ∨ 0 ≤ start ∧ 0 ≤ len ∧ start + len ≤ bound))
  | .alloc n => inferInstanceAs (Decidable (0 ≤ n))
  | .copy n => inferInstanceAs (Decidable (0 ≤ n))
  | .check cond => inferInstanceAs (Decidable (cond = true))

/-- The places where memory is allocated. -/
inductive Site where
  | cmdBuffer
  | decrypt
  | ssid
  | password
  | bssid
  | rsp

/-- What a call finds: memory, the result of `tls_wifi_connect` and its kind, the random key, and what `bt_rsa_encrypt`
makes of it, if it succeeds. -/
structure Env where
  heap : Site → Bool
  connect : Int
  key : List Byte
  rsa : Option (List Byte)

/-- Nothing fails. -/
def goodEnv : Env := { heap := fun _ => true, connect := 0, key := [], rsa := none }

/-- The header of a fragment. -/
structure Frag where
  opcode : Byte
  flag : Byte
  seqno : Byte
  deriving DecidableEq

/-- A call of `app_cmd_process`, with the fragments in `cmd_buffer`. -/
structure Call where
  cmd : List Byte
  frags : List Frag
  deriving DecidableEq

structure State where
  recvSequence : Byte
  buffer : Option (List Byte)
  totalLen : Nat
  pending : Bool
  frags : List Frag
  sender : Sender
  privKey : List Byte
  acks : Nat
  log : List Access
  calls : List Call

/-- The state after `wm_ble_wifi_cfg_connected_cb`. -/
def State.init : State :=
  { recvSequence := 0, buffer := none, totalLen := 0, pending := false, frags := []
    sender := { rspList := [], sendSequence := 0, sendingPending := false, triggers := 0, sent := [] }
    privKey := [], acks := 0, log := [], calls := [] }

inductive Rc where
  | ok
  | einval
  | eapp
  | ebusy
  | eauthen
  deriving DecidableEq

def ackFromApp : Byte := 0x10

def ackToApp : Byte := 0x90

def configStaCmd : Byte := 0x0A

def configKeyExchangeCmd : Byte := 0x0F

def State.note (s : State) (as : List Access) : State := { s with log := s.log ++ as }

/-- The conversion to `uint16_t`. -/
def u16 (x : Int) : Nat := (x % 65536).toNat

def State.buildCmdRsp (aes : Aes) (s : State) (env : Env) (opcode : Byte) (ptr : List Byte) : State :=
  { s with sender := s.sender.buildCmdRsp aes s.privKey opcode 0 ptr (env.heap .rsp) }

/-! ## Commands -/

/-- The fields that `wlan_config_process` finds, with the log. -/
structure Fields where
  ssid : List Byte
  password : List Byte
  bssid : List Byte
  log : List Access

/-- One field is copied. -/
def copyField (payload : List Byte) (offset cmdLength : Nat) (heap : Bool) : List Byte × List Access :=
  ((payload.drop offset).take cmdLength,
    [.alloc (cmdLength + 1), .check heap, .copy cmdLength, .read payload.length offset cmdLength])

/-- A field inside the payload is copied in order, if there is memory. -/
theorem copyField_log {payload : List Byte} {offset cmdLength : Nat} (hle : offset + cmdLength ≤ payload.length)
    (heap : Bool) : ∀ a ∈ (copyField payload offset cmdLength heap).2, a = .check heap ∨ a.ok := by
  intro a ha
  simp only [copyField, List.mem_cons, List.not_mem_nil, or_false] at ha
  rcases ha with rfl | rfl | rfl | rfl
  · right
    show (0 : Int) ≤ cmdLength + 1
    omega
  · exact .inl rfl
  · right
    show (0 : Int) ≤ cmdLength
    omega
  · right
    show (cmdLength : Int) = 0 ∨ _
    omega

def Fields.add (fields : Fields) (payload : List Byte) (offset : Nat) (cmdType : Byte) (cmdLength : Nat)
    (heap : Site → Bool) : Fields :=
  match cmdType with
  | 0x01#8 =>
    let (ssid, log) := copyField payload offset cmdLength (heap .ssid)
    { fields with ssid, log := fields.log ++ log }
  | 0x02#8 =>
    let (password, log) := copyField payload offset cmdLength (heap .password)
    { fields with password, log := fields.log ++ log }
  | 0x03#8 =>
    let (bssid, log) := copyField payload offset cmdLength (heap .bssid)
    { fields with bssid, log := fields.log ++ log }
  | _ => fields

/-- The loop of `wlan_config_process`. Every round but the last moves `offset` by at least 2. -/
def fieldLoop (payload : List Byte) (heap : Site → Bool) : (fuel offset : Nat) → (cmdType cmdLength : Byte) → Fields → Fields
  | 0, _, _, _, fields => fields
  | fuel + 1, offset, cmdType, cmdLength, fields =>
    if offset < payload.length then
      let fields := fields.add payload offset cmdType cmdLength.toNat heap
      let offset := offset + cmdLength.toNat
      if offset ≥ payload.length then fields
      else
        fieldLoop payload heap fuel (offset + 2) (payload.getD offset 0) (payload.getD (offset + 1) 0)
          { fields with log := fields.log ++ [.read payload.length offset 2] }
    else fields

/-- The payload's length is enough fuel. -/
theorem fieldLoop_fuel {payload : List Byte} {heap : Site → Bool} {fuel offset : Nat} {cmdType cmdLength : Byte}
    {fields : Fields} (h : payload.length ≤ fuel + offset) :
    fieldLoop payload heap (fuel + 1) offset cmdType cmdLength fields =
      fieldLoop payload heap fuel offset cmdType cmdLength fields := by
  induction fuel generalizing offset cmdType cmdLength fields with
  | zero =>
    simp only [fieldLoop]
    rw [if_neg (by omega)]
  | succ fuel ih =>
    rw [fieldLoop, fieldLoop]
    split
    · dsimp only
      split
      · rfl
      · exact ih (by omega)
    · rfl

/-- The `status` of `wlan_config_process`: there is a connection to make if there is an SSID or a BSSID. -/
def Fields.status (fields : Fields) (connect : Int) : Int := if fields.ssid = [] ∧ fields.bssid = [] then -1 else connect

/-- `wlan_config_process`; `length` is -1 for a command without an opcode. -/
def State.wlanConfigProcess (aes : Aes) (s : State) (env : Env) (payload : List Byte) (length : Int) : State :=
  let fields := fieldLoop payload env.heap payload.length 2 (payload.getD 0 0) (payload.getD 1 0)
    { ssid := [], password := [], bssid := [], log := [.read length 0 2] }
  let s := s.note fields.log
  if fields.status env.connect ≠ 0 then s.buildCmdRsp aes env (configStaCmd + 0x80) [0x81, 0x01, 0x01] else s

/-- `key_exchange_process`. -/
def State.keyExchangeProcess (aes : Aes) (s : State) (env : Env) (payload : List Byte) (length : Int) : State :=
  let s := s.note [.read length 0 1]
  if payload.getD 0 0 ≠ 0x09 then s
  else
    let s := { s with privKey := env.key }.note [.read length 1 1, .read length 2 (payload.getD 1 0).toNat]
    match env.rsa with
    | none => s.buildCmdRsp aes env (configKeyExchangeCmd + 0x80) [0x81, 0x01, 0x01]
    | some out => s.buildCmdRsp aes env (configKeyExchangeCmd + 0x80) ([0x81, 0x01, 0x00, 0x87, 128] ++ out)

/-- `app_cmd_process`. -/
def State.appCmdProcess (aes : Aes) (s : State) (env : Env) (cmd : List Byte) : State :=
  let s := State.note { s with calls := s.calls ++ [⟨cmd, s.frags⟩] } [.read cmd.length 0 1]
  let opcode := cmd.getD 0 0
  if opcode = configStaCmd then s.wlanConfigProcess aes env (cmd.drop 1) (cmd.length - 1)
  else if opcode = configKeyExchangeCmd then s.keyExchangeProcess aes env (cmd.drop 1) (cmd.length - 1)
  else s

/-! ## Fragments -/

/-- The payload of a frame. -/
def framePayload (ptr : List Byte) : List Byte := (ptr.drop 4).take (ptr.length - 5)

/-- The branch of `wm_ble_wifi_cfg_write_cb` for fragment number 0. -/
def State.firstFragment (s : State) (ptr : List Byte) (opcode flag : Byte) (env : Env) : State :=
  State.note { s with
    buffer := some (opcode :: framePayload ptr), totalLen := u16 (ptr.length - 5 + 1)
    pending := flag &&& mreFlag ≠ 0, frags := [⟨opcode, flag, 0⟩] }
    [.alloc (ptr.length - 5 + 1), .check (env.heap .cmdBuffer), .copy (ptr.length - 5), .read ptr.length 4 (ptr.length - 5)]

/-- The branch for the other fragments. -/
def State.nextFragment (s : State) (ptr : List Byte) (opcode flag seqno : Byte) (env : Env) : State :=
  State.note { s with
    buffer := some ((s.buffer.getD []).take s.totalLen ++ framePayload ptr), totalLen := u16 (s.totalLen + (ptr.length - 5))
    pending := if flag &&& mreFlag ≠ 0 then s.pending else false, frags := s.frags ++ [⟨opcode, flag, seqno⟩] }
    [.alloc (s.totalLen + ptr.length - 5), .check (env.heap .cmdBuffer), .copy s.totalLen,
      .read (if s.buffer.isSome then s.totalLen else 0) 0 s.totalLen, .copy (ptr.length - 5),
      .read ptr.length 4 (ptr.length - 5)]

/-- A buffer with `n` bytes from 1 on decrypted in place. -/
def decryptIn (aes : Aes) (key : List Byte) (buf : List Byte) (n : Nat) : List Byte :=
  buf.take 1 ++ aes.decrypt key ((buf.drop 1).take n) ++ buf.drop (1 + n)

/-- `bt_aes_decrypt` of `cmd_buffer.buffer + 1` in place. -/
def State.btAesDecrypt (aes : Aes) (s : State) (env : Env) (length : Int) : State × Int :=
  if length % 16 ≠ 0 then (s, -1)
  else
    let s := s.note [.alloc length]
    if env.heap .decrypt then
      let buf := decryptIn aes s.privKey (s.buffer.getD []) length.toNat
      let s := { s with buffer := some buf }.note
        [.copy length, .read s.totalLen 1 length, .copy length, .read s.totalLen length 1]
      -- the byte before the end of the text is `buffer[length]`, also for a text of length 0
      (s, dePKCS7Padding (buf.getD length.toNat 0) length)
    else (s, -1)

/-- The command in `cmd_buffer` is processed, and the buffer freed. -/
def State.process (aes : Aes) (s : State) (env : Env) : State × Rc :=
  let s := s.appCmdProcess aes env ((s.buffer.getD []).take s.totalLen)
  ({ s with totalLen := 0, buffer := none, frags := [] }, .ok)

/-- The end of `wm_ble_wifi_cfg_write_cb`, for a command whose last fragment has come. -/
def State.dispatch (aes : Aes) (s : State) (flag : Byte) (env : Env) : State × Rc :=
  if s.pending then (s, .ok)
  else if flag &&& encFlag ≠ 0 then
    let (s, length) := s.btAesDecrypt aes env (s.totalLen - 1)
    if length < 0 then (s, .einval) else { s with totalLen := u16 (length + 1) }.process aes env
  else s.process aes env

/-- `send_ack`. -/
def State.sendAck (aes : Aes) (s : State) (env : Env) (payload : Byte) : State :=
  { s with sender := { s.sender with sendSequence := s.sender.sendSequence + 1 } }.buildCmdRsp aes env ackToApp [payload]

/-- The part of `wm_ble_wifi_cfg_write_cb` between the check of the sequence number and that of the CRC. -/
def State.accept (aes : Aes) (s : State) (ptr : List Byte) (sequence flag : Byte) (env : Env) : State :=
  let s := { s with recvSequence := s.recvSequence + 1 }
  let s := if flag &&& ackFlag ≠ 0 then s.sendAck aes env sequence else s
  s.note [.read ptr.length (ptr.length - 1) 1, .read ptr.length 0 (ptr.length - 1)]

/-- `wm_ble_wifi_cfg_write_cb`. -/
def State.writeCb (aes : Aes) (s : State) (offset : Int) (ptr : List Byte) (bPrep : Bool) (env : Env) : State × Rc :=
  let opcode := ptr.getD 0 0
  let sequence := ptr.getD 1 0
  let flag := ptr.getD 2 0
  let seqno := ptr.getD 3 0
  let s := s.note [.read ptr.length 0 1, .read ptr.length 1 1, .read ptr.length 2 1, .read ptr.length 3 1]
  if offset ≠ 0 ∨ bPrep ≠ false then (s, .einval)
  else if sequence ≠ s.recvSequence then (s, .eapp)
  else
    let s := s.accept aes ptr sequence flag env
    if ptr.getD (ptr.length - 1) 0 ≠ getCrc8 (ptr.take (ptr.length - 1)) then
      (s.buildCmdRsp aes env (opcode + 0x80) [0x81, 0x01, 0x01], .eauthen)
    else if opcode = ackFromApp then ({ s with acks := s.acks + 1 }, .ok)
    else if seqno = 0 then
      if s.pending then (s, .ebusy) else (s.firstFragment ptr opcode flag env).dispatch aes flag env
    else (s.nextFragment ptr opcode flag seqno env).dispatch aes flag env

/-! ## What the steps leave alone -/

/-- What of the assembler a response or a note does not touch. -/
structure SameCmd (s s' : State) : Prop where
  buffer : s'.buffer = s.buffer
  totalLen : s'.totalLen = s.totalLen
  pending : s'.pending = s.pending
  frags : s'.frags = s.frags
  calls : s'.calls = s.calls
  recvSequence : s'.recvSequence = s.recvSequence

section Same

variable {s s' : State} {aes : Aes} {env : Env} {as : List Access}

@[simp] theorem note_recvSequence : (s.note as).recvSequence = s.recvSequence := rfl

@[simp] theorem note_buffer : (s.note as).buffer = s.buffer := rfl

@[simp] theorem note_totalLen : (s.note as).totalLen = s.totalLen := rfl

@[simp] theorem note_pending : (s.note as).pending = s.pending := rfl

@[simp] theorem note_privKey : (s.note as).privKey = s.privKey := rfl

theorem SameCmd.trans {s'' : State} (h : SameCmd s s') (h' : SameCmd s' s'') : SameCmd s s'' :=
  ⟨h'.buffer.trans h.buffer, h'.totalLen.trans h.totalLen, h'.pending.trans h.pending, h'.frags.trans h.frags,
    h'.calls.trans h.calls, h'.recvSequence.trans h.recvSequence⟩

theorem wlanConfigProcess_same (s : State) (payload : List Byte) (length : Int) :
    SameCmd s (s.wlanConfigProcess aes env payload length) := by
  simp only [State.wlanConfigProcess]
  split
  · exact ⟨rfl, rfl, rfl, rfl, rfl, rfl⟩
  · exact ⟨rfl, rfl, rfl, rfl, rfl, rfl⟩

theorem keyExchangeProcess_same (s : State) (payload : List Byte) (length : Int) :
    SameCmd s (s.keyExchangeProcess aes env payload length) := by
  simp only [State.keyExchangeProcess]
  split
  · exact ⟨rfl, rfl, rfl, rfl, rfl, rfl⟩
  · cases env.rsa with
    | none => exact ⟨rfl, rfl, rfl, rfl, rfl, rfl⟩
    | some out => exact ⟨rfl, rfl, rfl, rfl, rfl, rfl⟩

theorem appCmdProcess_same (aes : Aes) (env : Env) (s : State) (cmd : List Byte) :
    SameCmd { s with calls := s.calls ++ [⟨cmd, s.frags⟩] } (s.appCmdProcess aes env cmd) := by
  simp only [State.appCmdProcess]
  split
  · refine SameCmd.trans ?_ (wlanConfigProcess_same _ _ _)
    exact ⟨rfl, rfl, rfl, rfl, rfl, rfl⟩
  · split
    · refine SameCmd.trans ?_ (keyExchangeProcess_same _ _ _)
      exact ⟨rfl, rfl, rfl, rfl, rfl, rfl⟩
    · exact ⟨rfl, rfl, rfl, rfl, rfl, rfl⟩

theorem accept_same (aes : Aes) (env : Env) (s : State) (ptr : List Byte) (sequence flag : Byte) :
    SameCmd { s with recvSequence := s.recvSequence + 1 } (s.accept aes ptr sequence flag env) ∧
    (s.accept aes ptr sequence flag env).privKey = s.privKey := by
  simp only [State.accept]
  split
  · exact ⟨⟨rfl, rfl, rfl, rfl, rfl, rfl⟩, rfl⟩
  · exact ⟨⟨rfl, rfl, rfl, rfl, rfl, rfl⟩, rfl⟩

end Same

end Command
end BleWifi
end Air101

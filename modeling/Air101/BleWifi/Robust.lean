import Air101.BleWifi.Command

/-!
# BleWifi.Robust

What writes of any bytes and any length do to the provisioning, with responses, deferred acks and callbacks in between.
The code does not check the length of a frame, that a fragment belongs to the command in the buffer, the lengths inside a
command, nor that an ack is expected.

* `robust`: what holds of every run whose steps meet `ok`.
* `robust_fails`: an empty write, a lone fragment and an unexpected ack.
-/

namespace Air101
namespace BleWifi
namespace Command

open Storage

inductive Event where
  | write (ptr : List Byte) (env : Env)
  | trigger
  /-- The deferred `wm_ble_async_process_ack`. -/
  | asyncAck
  | sentCb

def event (aes : Aes) (fragmentLength : Nat) (s : State) : Event → State
  | .write ptr env => (s.writeCb aes 0 ptr false env).1
  | .trigger =>
    if s.sender.triggers = 0 then s
    else { s with
      sender := ({ s.sender with triggers := s.sender.triggers - 1 }.checkSendingListAndSend fragmentLength).1 }
  | .asyncAck =>
    if s.acks = 0 then s
    else
      match s.sender.processReceivedAckOrSendCb fragmentLength true with
      | none => { s with acks := s.acks - 1 }.note [.check false]
      | some (sender, _) => { s with acks := s.acks - 1, sender }
  | .sentCb =>
    match s.sender.processReceivedAckOrSendCb fragmentLength false with
    | none => s.note [.check false]
    | some (sender, _) => { s with sender }

/-! ## The conditions -/

/-- A field of type `cmdType` and length `cmdLength` can be copied from `rest`. -/
def fieldOk (heap : Site → Bool) (cmdType : Byte) (cmdLength : Nat) (rest : List Byte) : Prop :=
  match cmdType with
  | 0x01#8 => heap .ssid = true ∧ cmdLength ≤ rest.length
  | 0x02#8 => heap .password = true ∧ cmdLength ≤ rest.length
  | 0x03#8 => heap .bssid = true ∧ cmdLength ≤ rest.length
  | _ => True

/-- A list of fields: a type, a length and a value each. The value of the last may be missing, and one of another type than
the three may be cut short. -/
inductive FieldList (heap : Site → Bool) : List Byte → Prop where
  | none (cmdType cmdLength : Byte) : FieldList heap [cmdType, cmdLength]
  | last {cmdType cmdLength : Byte} {rest : List Byte} (h : fieldOk heap cmdType cmdLength.toNat rest)
      (hle : rest.length ≤ cmdLength.toNat) : FieldList heap (cmdType :: cmdLength :: rest)
  | cons {cmdType cmdLength : Byte} {rest : List Byte} (h : fieldOk heap cmdType cmdLength.toNat rest)
      (hlt : cmdLength.toNat < rest.length) (hrest : FieldList heap (rest.drop cmdLength.toNat)) :
      FieldList heap (cmdType :: cmdLength :: rest)

/-- The key of a key exchange is as long as it says. -/
def keyOk : List Byte → Prop
  | [] => False
  | cmdType :: rest => cmdType = 0x09 → ∃ len key, rest = len :: key ∧ len.toNat ≤ key.length

/-- The lengths inside a command are right. -/
def commandOk (heap : Site → Bool) : List Byte → Prop
  | [] => False
  | opcode :: payload =>
    (opcode = configStaCmd → FieldList heap payload) ∧ (opcode = configKeyExchangeCmd → keyOk payload)

/-- What is in `cmd_buffer` with the payload of a frame. -/
def assembled (s : State) (ptr : List Byte) : List Byte :=
  if ptr.getD 3 0 = 0 then ptr.getD 0 0 :: framePayload ptr else (s.buffer.getD []).take s.totalLen ++ framePayload ptr

/-- The command in a buffer, of which 16 bits of the length count; `none` if it cannot be decrypted. -/
def commandOf (aes : Aes) (privKey : List Byte) (flag : Byte) (heap : Bool) (raw : List Byte) : Option (List Byte) :=
  let total := raw.length % 65536
  if flag &&& encFlag = 0 then some (raw.take total)
  else if ((total : Int) - 1) % 16 ≠ 0 ∨ heap = false then none
  else
    let buf := decryptIn aes privKey raw (total - 1)
    let length := dePKCS7Padding (buf.getD (total - 1) 0) (total - 1)
    if length < 0 then none else some (buf.take (length + 1).toNat)

/-- A frame has the expected sequence number and the right CRC, is no ack and no first fragment while others are missing. -/
def reaches (s : State) (ptr : List Byte) : Bool :=
  ptr.getD 1 0 == s.recvSequence && ptr.getD (ptr.length - 1) 0 == getCrc8 (ptr.take (ptr.length - 1)) &&
    ptr.getD 0 0 != ackFromApp && !(ptr.getD 3 0 == 0 && s.pending)

/-- A frame has its four bytes of header. One that reaches the assembler also has its CRC behind them, finds memory, and,
if it is not the first, belongs to the command in the buffer. If it is the last, the lengths inside the command are right.
An ack is processed when there is no response, or one that wants it. -/
def ok (aes : Aes) (s : State) : Event → Prop
  | .write ptr env => 4 ≤ ptr.length ∧ (reaches s ptr = true → 5 ≤ ptr.length ∧ env.heap .cmdBuffer = true ∧
      (ptr.getD 3 0 ≠ 0 → s.pending = true ∧ s.frags.head?.map Frag.opcode = some (ptr.getD 0 0)) ∧
      (ptr.getD 2 0 &&& mreFlag = 0 → ∀ cmd,
        commandOf aes s.privKey (ptr.getD 2 0) (env.heap .decrypt) (assembled s ptr) = some cmd → commandOk env.heap cmd))
  | .asyncAck => s.acks = 0 ∨ ∀ rsp ∈ s.sender.rspList.head?, rsp.flag &&& ackFlag ≠ 0
  | _ => True

/-! ## What holds -/

/-- Fragments of one command: number 0 and others of the same opcode, each announcing the next. -/
structure OneCommand (frags : List Frag) : Prop where
  first : ∃ opcode flag rest, frags = ⟨opcode, flag, 0⟩ :: rest ∧ ∀ f ∈ rest, f.opcode = opcode ∧ f.seqno ≠ 0
  more : ∀ f ∈ frags.dropLast, f.flag &&& mreFlag ≠ 0

structure Safe (s : State) : Prop where
  log : ∀ a ∈ s.log, a.ok
  calls : ∀ c ∈ s.calls, OneCommand c.frags

/-- A command of which fragments are missing is in the buffer. -/
structure Open (s : State) : Prop where
  buffer : ∃ buf, s.buffer = some buf ∧ s.totalLen ≤ buf.length
  frags : OneCommand s.frags
  more : ∀ f ∈ s.frags, f.flag &&& mreFlag ≠ 0

structure Inv (s : State) : Prop where
  safe : Safe s
  isOpen : s.pending = true → Open s

section Process

variable {s : State} {aes : Aes} {env : Env}

theorem note_safe (h : Safe s) {as : List Access} (has : ∀ a ∈ as, a.ok) : Safe (s.note as) := by
  refine ⟨fun a ha => ?_, h.calls⟩
  rcases List.mem_append.mp ha with ha | ha
  · exact h.log a ha
  · exact has a ha

theorem buildCmdRsp_safe (h : Safe s) (opcode : Byte) (ptr : List Byte) : Safe (s.buildCmdRsp aes env opcode ptr) :=
  ⟨h.log, h.calls⟩

theorem copyField_ok {payload : List Byte} {offset cmdLength : Nat} {heap : Bool} (hheap : heap = true)
    (hle : offset + cmdLength ≤ payload.length) : ∀ a ∈ (copyField payload offset cmdLength heap).2, a.ok := by
  intro a ha
  rcases copyField_log hle heap a ha with rfl | h
  · exact hheap
  · exact h

theorem add_ok {fields : Fields} {payload : List Byte} {offset cmdLength : Nat} {cmdType : Byte} {heap : Site → Bool}
    (h : ∀ a ∈ fields.log, a.ok) (hoff : offset ≤ payload.length)
    (hfield : fieldOk heap cmdType cmdLength (payload.drop offset)) :
    ∀ a ∈ (fields.add payload offset cmdType cmdLength heap).log, a.ok := by
  have happend (site : Site) (hs : heap site = true ∧ cmdLength ≤ (payload.drop offset).length) :
      ∀ a ∈ fields.log ++ (copyField payload offset cmdLength (heap site)).2, a.ok := by
    intro a ha
    rw [List.length_drop] at hs
    rcases List.mem_append.mp ha with ha | ha
    · exact h a ha
    · exact copyField_ok hs.1 (by omega) a ha
  simp only [Fields.add]
  split
  · exact happend .ssid hfield
  · exact happend .password hfield
  · exact happend .bssid hfield
  · exact h

theorem FieldList.shape {heap : Site → Bool} {bs : List Byte} (h : FieldList heap bs) :
    ∃ cmdType cmdLength rest, bs = cmdType :: cmdLength :: rest := by
  cases h with
  | none cmdType cmdLength => exact ⟨_, _, _, rfl⟩
  | last h hle => exact ⟨_, _, _, rfl⟩
  | cons h hlt hrest => exact ⟨_, _, _, rfl⟩

theorem FieldList.field {heap : Site → Bool} {bs : List Byte} (h : FieldList heap bs) {cmdType cmdLength : Byte}
    {rest : List Byte} (hbs : bs = cmdType :: cmdLength :: rest) (hne : rest ≠ []) :
    fieldOk heap cmdType cmdLength.toNat rest ∧
      (cmdLength.toNat < rest.length → FieldList heap (rest.drop cmdLength.toNat)) := by
  cases h with
  | none t l =>
    cases hbs
    contradiction
  | last h hle =>
    cases hbs
    exact ⟨h, fun hlt => absurd hlt (Nat.not_lt.mpr hle)⟩
  | cons h hlt hrest =>
    cases hbs
    exact ⟨h, fun _ => hrest⟩

theorem fieldLoop_ok {payload : List Byte} {heap : Site → Bool} (fuel offset : Nat) {cmdType cmdLength : Byte}
    {fields : Fields} (hlist : FieldList heap (cmdType :: cmdLength :: payload.drop offset)) (h : ∀ a ∈ fields.log, a.ok) :
    ∀ a ∈ (fieldLoop payload heap fuel offset cmdType cmdLength fields).log, a.ok := by
  induction fuel generalizing offset cmdType cmdLength fields with
  | zero => exact h
  | succ fuel ih =>
    simp only [fieldLoop]
    split
    · rename_i hlt
      have hlen : (payload.drop offset).length = payload.length - offset := List.length_drop
      have hne : payload.drop offset ≠ [] := List.ne_nil_of_length_pos (by omega)
      obtain ⟨hfield, hrest⟩ := hlist.field rfl hne
      have hadd := add_ok h (Nat.le_of_lt hlt) hfield
      split
      · exact hadd
      · rename_i hmore
        have hnext := hrest (by omega)
        rw [List.drop_drop] at hnext
        obtain ⟨t, l, rest, hshape⟩ := hnext.shape
        -- the next two bytes are a type and a length, so there are two
        have htwo : offset + cmdLength.toNat + 2 ≤ payload.length := by
          have hcount := congrArg List.length hshape
          rw [List.length_drop, List.length_cons, List.length_cons] at hcount
          omega
        have hget (k : Nat) : payload.getD (offset + cmdLength.toNat + k) 0 = (t :: l :: rest).getD k 0 := by
          rw [← hshape, List.getD_eq_getElem?_getD, List.getD_eq_getElem?_getD, List.getElem?_drop]
        have htail : payload.drop (offset + cmdLength.toNat + 2) = rest := by
          rw [← List.drop_drop, hshape]
          rfl
        refine ih _ ?_ ?_
        · rw [htail, show payload.getD (offset + cmdLength.toNat) 0 = t from hget 0,
            show payload.getD (offset + cmdLength.toNat + 1) 0 = l from hget 1, ← hshape]
          exact hnext
        · intro a ha
          rcases List.mem_append.mp ha with ha | ha
          · exact hadd a ha
          · rw [List.mem_singleton.mp ha]
            right
            omega
    · exact h

theorem wlanConfigProcess_safe (h : Safe s) {payload : List Byte} (hlist : FieldList env.heap payload) :
    Safe (s.wlanConfigProcess aes env payload payload.length) := by
  obtain ⟨t, l, rest, rfl⟩ := hlist.shape
  have hlog : ∀ a ∈ (fieldLoop (t :: l :: rest) env.heap (t :: l :: rest).length 2 t l
      { ssid := [], password := [], bssid := [], log := [.read (t :: l :: rest).length 0 2] }).log, a.ok := by
    apply fieldLoop_ok
    · exact hlist
    · intro a ha
      rw [List.mem_singleton.mp ha]
      right
      rw [List.length_cons, List.length_cons]
      omega
  have hnote := note_safe h hlog
  simp only [State.wlanConfigProcess]
  split
  · exact buildCmdRsp_safe hnote _ _
  · exact hnote

theorem keyExchangeProcess_safe (h : Safe s) {payload : List Byte} (hkey : keyOk payload) :
    Safe (s.keyExchangeProcess aes env payload payload.length) := by
  cases payload with
  | nil => exact absurd hkey id
  | cons t rest =>
    have hfirst : Safe (s.note [.read (t :: rest).length 0 1]) := by
      refine note_safe h fun a ha => ?_
      rw [List.mem_singleton.mp ha]
      right
      rw [List.length_cons]
      omega
    simp only [State.keyExchangeProcess]
    split
    · exact hfirst
    · rename_i ht
      obtain ⟨len, key, rfl, hle⟩ := hkey (not_not.mp ht)
      have hnewKey : Safe { s.note [.read (t :: len :: key).length 0 1] with privKey := env.key } :=
        ⟨hfirst.log, hfirst.calls⟩
      have hnote : Safe (State.note { s.note [.read (t :: len :: key).length 0 1] with privKey := env.key }
          [.read (t :: len :: key).length 1 1, .read (t :: len :: key).length 2 len.toNat]) := by
        refine note_safe hnewKey fun a ha => ?_
        rcases List.mem_cons.mp ha with rfl | ha
        · right
          rw [List.length_cons, List.length_cons]
          omega
        · rw [List.mem_singleton.mp ha]
          right
          rw [List.length_cons, List.length_cons]
          omega
      cases env.rsa with
      | none => exact buildCmdRsp_safe hnote _ _
      | some out => exact buildCmdRsp_safe hnote _ _

theorem appCmdProcess_safe (aes : Aes) (h : Safe s) (hfrags : OneCommand s.frags) {cmd : List Byte} (hcmd : commandOk env.heap cmd) :
    Safe (s.appCmdProcess aes env cmd) := by
  cases cmd with
  | nil => exact absurd hcmd id
  | cons opcode payload =>
    have hcalls : Safe { s with calls := s.calls ++ [⟨opcode :: payload, s.frags⟩] } := by
      refine ⟨h.log, fun c hc => ?_⟩
      rcases List.mem_append.mp hc with hc | hc
      · exact h.calls c hc
      · rw [List.mem_singleton.mp hc]
        exact hfrags
    have hcall : Safe (State.note { s with calls := s.calls ++ [⟨opcode :: payload, s.frags⟩] }
        [.read (opcode :: payload).length 0 1]) := by
      refine note_safe hcalls fun a ha => ?_
      rw [List.mem_singleton.mp ha]
      right
      rw [List.length_cons]
      omega
    have hlen : ((opcode :: payload).length : Int) - 1 = payload.length := by
      rw [List.length_cons]
      omega
    simp only [State.appCmdProcess, hlen]
    split
    · rename_i hop
      exact wlanConfigProcess_safe hcall (hcmd.1 hop)
    · split
      · rename_i hop
        exact keyExchangeProcess_safe hcall (hcmd.2 hop)
      · exact hcall

end Process

/-! ## The assembler -/

section Assembler

variable {s : State} {aes : Aes} {env : Env} {flag : Byte}

theorem process_inv (h : Safe s) (hpending : s.pending = false) (hfrags : OneCommand s.frags)
    (hcmd : commandOk env.heap ((s.buffer.getD []).take s.totalLen)) : Inv (s.process aes env).1 := by
  have hsafe := appCmdProcess_safe aes h hfrags hcmd
  have hsame := appCmdProcess_same aes env s ((s.buffer.getD []).take s.totalLen)
  refine ⟨⟨hsafe.log, hsafe.calls⟩, fun hp => ?_⟩
  have hp : (s.appCmdProcess aes env ((s.buffer.getD []).take s.totalLen)).pending = true := hp
  rw [hsame.pending.trans hpending] at hp
  cases hp

theorem btAesDecrypt_safe (aes : Aes) (env : Env) (h : Safe s) : Safe (s.btAesDecrypt aes env (s.totalLen - 1)).1 := by
  simp only [State.btAesDecrypt]
  split
  · exact h
  rename_i hmod
  have hpos : (0 : Int) ≤ s.totalLen - 1 := by omega
  have halloc : Safe (s.note [.alloc (s.totalLen - 1)]) := by
    refine note_safe h fun a ha => ?_
    rw [List.mem_singleton.mp ha]
    exact hpos
  split
  · have hbuf (buf : List Byte) : Safe { s.note [.alloc (s.totalLen - 1)] with buffer := some buf } :=
      ⟨halloc.log, halloc.calls⟩
    refine note_safe (hbuf _) fun a ha => ?_
    simp only [List.mem_cons, List.not_mem_nil, or_false] at ha
    rcases ha with rfl | rfl | rfl | rfl
    · exact hpos
    · right
      show (0 : Int) ≤ 1 ∧ 0 ≤ (s.totalLen : Int) - 1 ∧ 1 + ((s.totalLen : Int) - 1) ≤ s.totalLen
      omega
    · exact hpos
    · right
      show (0 : Int) ≤ (s.totalLen : Int) - 1 ∧ (0 : Int) ≤ 1 ∧ (s.totalLen : Int) - 1 + 1 ≤ s.totalLen
      omega
  · exact halloc

theorem btAesDecrypt_same (aes : Aes) (env : Env) (s : State) (length : Int) :
    (s.btAesDecrypt aes env length).1.pending = s.pending ∧ (s.btAesDecrypt aes env length).1.frags = s.frags := by
  simp only [State.btAesDecrypt]
  split
  · exact ⟨rfl, rfl⟩
  · split
    · exact ⟨rfl, rfl⟩
    · exact ⟨rfl, rfl⟩

theorem btAesDecrypt_command {raw : List Byte} (hbuf : s.buffer = some raw) (htotal : s.totalLen = raw.length % 65536)
    (hflag : flag &&& encFlag ≠ 0) (hnonneg : 0 ≤ (s.btAesDecrypt aes env (s.totalLen - 1)).2) :
    commandOf aes s.privKey flag (env.heap .decrypt) raw =
      some (((s.btAesDecrypt aes env (s.totalLen - 1)).1.buffer.getD []).take
        (u16 ((s.btAesDecrypt aes env (s.totalLen - 1)).2 + 1))) := by
  have hlt : s.totalLen < 65536 := by
    rw [htotal]
    exact Nat.mod_lt _ (by omega)
  have hnat : ((s.totalLen : Int) - 1).toNat = s.totalLen - 1 := by omega
  rw [commandOf, ← htotal, if_neg hflag]
  simp only [State.btAesDecrypt] at hnonneg ⊢
  by_cases hmod : ((s.totalLen : Int) - 1) % 16 = 0
  · rw [if_neg (not_not_intro hmod)] at hnonneg ⊢
    cases hheap : env.heap .decrypt with
    | false =>
      rw [hheap, if_neg Bool.false_ne_true] at hnonneg
      have hneg : (0 : Int) ≤ -1 := hnonneg
      omega
    | true =>
      rw [hheap, if_pos rfl] at hnonneg
      rw [if_neg (by simp [hmod]), if_pos rfl]
      simp only [note_buffer, note_privKey, hbuf, Option.getD_some, hnat] at hnonneg ⊢
      rw [if_neg (Int.not_lt.mpr hnonneg)]
      congr 2
      rw [u16, dePKCS7Padding]
      rw [dePKCS7Padding] at hnonneg
      omega
  · rw [if_pos hmod] at hnonneg
    have hneg : (0 : Int) ≤ -1 := hnonneg
    omega

/-- What the assembler holds behind a fragment goes on in the buffer or to `app_cmd_process`. -/
theorem dispatch_inv {raw : List Byte} (h : Safe s) (hopen : s.pending = true → Open s) (hbuf : s.buffer = some raw)
    (htotal : s.totalLen = raw.length % 65536) (hfrags : OneCommand s.frags)
    (hcmd : s.pending = false → ∀ cmd, commandOf aes s.privKey flag (env.heap .decrypt) raw = some cmd →
      commandOk env.heap cmd) : Inv (s.dispatch aes flag env).1 := by
  simp only [State.dispatch]
  split
  · exact ⟨h, hopen⟩
  rename_i hp
  have hp : s.pending = false := by simpa using hp
  split
  · rename_i hflag
    obtain ⟨hpending, hfr⟩ := btAesDecrypt_same aes env s (s.totalLen - 1)
    have hsafe := btAesDecrypt_safe aes env h
    split
    · refine ⟨hsafe, fun hp' => ?_⟩
      rw [hpending, hp] at hp'
      cases hp'
    · rename_i hneg
      have hcommand := btAesDecrypt_command hbuf htotal hflag (Int.not_lt.mp hneg)
      exact process_inv ⟨hsafe.log, hsafe.calls⟩ (hpending.trans hp) (by rw [hfr]; exact hfrags) (hcmd hp _ hcommand)
  · rename_i hflag
    refine process_inv h hp hfrags (hcmd hp _ ?_)
    rw [commandOf, if_pos (not_not.mp hflag), hbuf, htotal]
    rfl

end Assembler

/-! ## Writes -/

section Writes

variable {s : State} {aes : Aes} {env : Env} {ptr : List Byte} {opcode flag seqno : Byte}

theorem Inv.of_same {s' : State} (h : Inv s) (hsafe : Safe s') (hbuf : s'.buffer = s.buffer)
    (htotal : s'.totalLen = s.totalLen) (hpending : s'.pending = s.pending) (hfrags : s'.frags = s.frags) : Inv s' := by
  refine ⟨hsafe, fun hp => ?_⟩
  have hopen := h.isOpen (hpending.symm.trans hp)
  exact ⟨by rw [hbuf, htotal]; exact hopen.buffer, by rw [hfrags]; exact hopen.frags, by rw [hfrags]; exact hopen.more⟩

theorem length_framePayload (h : 5 ≤ ptr.length) : (framePayload ptr).length = ptr.length - 5 := by
  rw [framePayload, List.length_take, List.length_drop]
  omega

theorem read_payload (h : 5 ≤ ptr.length) : Access.ok (.copy (ptr.length - 5)) ∧
    Access.ok (.read ptr.length 4 (ptr.length - 5)) := by
  constructor
  · show (0 : Int) ≤ ptr.length - 5
    omega
  · right
    omega

theorem firstFragment_inv (h : Safe s) (hlen : 5 ≤ ptr.length) (hheap : env.heap .cmdBuffer = true)
    (hcmd : flag &&& mreFlag = 0 → ∀ cmd,
      commandOf aes s.privKey flag (env.heap .decrypt) (opcode :: framePayload ptr) = some cmd → commandOk env.heap cmd) :
    Inv ((s.firstFragment ptr opcode flag env).dispatch aes flag env).1 := by
  have hcount := length_framePayload hlen
  have htotal : u16 ((ptr.length : Int) - 5 + 1) = (opcode :: framePayload ptr).length % 65536 := by
    rw [List.length_cons, hcount, u16]
    omega
  have hone : OneCommand [⟨opcode, flag, 0⟩] :=
    ⟨⟨opcode, flag, [], rfl, by simp⟩, by simp⟩
  have hsafe : Safe (s.firstFragment ptr opcode flag env) := by
    obtain ⟨hcopy, hread⟩ := read_payload hlen
    have hbase : Safe { s with
        buffer := some (opcode :: framePayload ptr), totalLen := u16 (ptr.length - 5 + 1)
        pending := flag &&& mreFlag ≠ 0, frags := [⟨opcode, flag, 0⟩] } := ⟨h.log, h.calls⟩
    refine note_safe hbase fun a ha => ?_
    simp only [List.mem_cons, List.not_mem_nil, or_false] at ha
    rcases ha with rfl | rfl | rfl | rfl
    · show (0 : Int) ≤ ptr.length - 5 + 1
      omega
    · exact hheap
    · exact hcopy
    · exact hread
  refine dispatch_inv hsafe (fun hp => ?_) rfl htotal hone (fun hp => ?_)
  · have hp : decide (flag &&& mreFlag ≠ 0) = true := hp
    refine ⟨⟨_, rfl, ?_⟩, hone, fun f hf => ?_⟩
    · show u16 (ptr.length - 5 + 1) ≤ _
      rw [htotal]
      exact Nat.mod_le _ _
    · rw [List.mem_singleton.mp hf]
      exact of_decide_eq_true hp
  · have hp : decide (flag &&& mreFlag ≠ 0) = false := hp
    exact hcmd (not_not.mp (of_decide_eq_false hp))

theorem nextFragment_inv (h : Inv s) (hlen : 5 ≤ ptr.length) (hheap : env.heap .cmdBuffer = true) (hseq : seqno ≠ 0)
    (hpending : s.pending = true) (hop : s.frags.head?.map Frag.opcode = some opcode)
    (hcmd : flag &&& mreFlag = 0 → ∀ cmd, commandOf aes s.privKey flag (env.heap .decrypt)
      ((s.buffer.getD []).take s.totalLen ++ framePayload ptr) = some cmd → commandOk env.heap cmd) :
    Inv ((s.nextFragment ptr opcode flag seqno env).dispatch aes flag env).1 := by
  have hopen := h.isOpen hpending
  obtain ⟨buf, hbuf, hle⟩ := hopen.buffer
  have hcount := length_framePayload hlen
  have hraw : ((s.buffer.getD []).take s.totalLen ++ framePayload ptr).length = s.totalLen + (ptr.length - 5) := by
    rw [hbuf, Option.getD_some, List.length_append, List.length_take, hcount]
    omega
  have htotal : u16 (s.totalLen + ((ptr.length : Int) - 5)) =
      ((s.buffer.getD []).take s.totalLen ++ framePayload ptr).length % 65536 := by
    rw [hraw, u16]
    omega
  have hone : OneCommand (s.frags ++ [⟨opcode, flag, seqno⟩]) := by
    obtain ⟨op, fl, rest, hfrags, hrest⟩ := hopen.frags.first
    rw [hfrags] at hop
    have hop : op = opcode := by simpa using hop
    refine ⟨⟨op, fl, rest ++ [⟨opcode, flag, seqno⟩], by rw [hfrags]; rfl, fun f hf => ?_⟩, ?_⟩
    · rcases List.mem_append.mp hf with hf | hf
      · exact hrest f hf
      · rw [List.mem_singleton.mp hf]
        exact ⟨hop.symm, hseq⟩
    · rw [List.dropLast_concat]
      exact hopen.more
  have hsafe : Safe (s.nextFragment ptr opcode flag seqno env) := by
    obtain ⟨hcopy, hread⟩ := read_payload hlen
    have hbase : Safe { s with
        buffer := some ((s.buffer.getD []).take s.totalLen ++ framePayload ptr)
        totalLen := u16 (s.totalLen + (ptr.length - 5)), pending := if flag &&& mreFlag ≠ 0 then s.pending else false
        frags := s.frags ++ [⟨opcode, flag, seqno⟩] } := ⟨h.safe.log, h.safe.calls⟩
    refine note_safe hbase fun a ha => ?_
    simp only [List.mem_cons, List.not_mem_nil, or_false] at ha
    rcases ha with rfl | rfl | rfl | rfl | rfl | rfl
    · show (0 : Int) ≤ s.totalLen + ptr.length - 5
      omega
    · exact hheap
    · exact Int.natCast_nonneg _
    · right
      rw [hbuf, Option.isSome_some, if_pos rfl]
      omega
    · exact hcopy
    · exact hread
  refine dispatch_inv hsafe (fun hp => ?_) rfl htotal hone (fun hp => ?_)
  · refine ⟨⟨_, rfl, ?_⟩, hone, fun f hf => ?_⟩
    · show u16 (s.totalLen + (ptr.length - 5)) ≤ _
      rw [htotal]
      exact Nat.mod_le _ _
    · rcases List.mem_append.mp hf with hf | hf
      · exact hopen.more f hf
      · rw [List.mem_singleton.mp hf]
        intro hm
        have hp : (if flag &&& mreFlag ≠ 0 then s.pending else false) = true := hp
        rw [if_neg (not_not_intro hm)] at hp
        cases hp
  · refine hcmd ?_
    by_contra hm
    have hp : (if flag &&& mreFlag ≠ 0 then s.pending else false) = false := hp
    rw [if_pos hm, hpending] at hp
    cases hp

theorem accept_inv (aes : Aes) (env : Env) (h : Inv s) (hlen : 4 ≤ ptr.length) (sequence flag : Byte) :
    Inv (s.accept aes ptr sequence flag env) := by
  have hbase : Safe (if flag &&& ackFlag ≠ 0 then State.sendAck aes { s with recvSequence := s.recvSequence + 1 } env sequence
      else { s with recvSequence := s.recvSequence + 1 }) := by
    split
    · exact ⟨h.safe.log, h.safe.calls⟩
    · exact ⟨h.safe.log, h.safe.calls⟩
  have hsame := (accept_same aes env s ptr sequence flag).1
  refine h.of_same (note_safe hbase fun a ha => ?_) hsame.buffer hsame.totalLen hsame.pending hsame.frags
  simp only [List.mem_cons, List.not_mem_nil, or_false] at ha
  rcases ha with rfl | rfl
  · right
    omega
  · right
    omega

theorem writeCb_inv (h : Inv s) (hok : ok aes s (.write ptr env)) : Inv (s.writeCb aes 0 ptr false env).1 := by
  obtain ⟨hlen, hreach⟩ := hok
  have hhead : Inv (s.note [.read ptr.length 0 1, .read ptr.length 1 1, .read ptr.length 2 1, .read ptr.length 3 1]) := by
    refine h.of_same (note_safe h.safe fun a ha => ?_) rfl rfl rfl rfl
    simp only [List.mem_cons, List.not_mem_nil, or_false] at ha
    rcases ha with rfl | rfl | rfl | rfl <;>
    · right
      omega
  simp only [State.writeCb, ne_eq, not_true_eq_false, or_self, if_false]
  split
  · exact hhead
  rename_i hseq
  have hinv := accept_inv aes env hhead hlen (ptr.getD 1 0) (ptr.getD 2 0)
  obtain ⟨hsame, hkey⟩ := accept_same aes env
    (s.note [.read ptr.length 0 1, .read ptr.length 1 1, .read ptr.length 2 1, .read ptr.length 3 1]) ptr (ptr.getD 1 0)
    (ptr.getD 2 0)
  generalize State.accept aes _ ptr (ptr.getD 1 0) (ptr.getD 2 0) env = s' at hinv hsame hkey ⊢
  have hpending : s'.pending = s.pending := hsame.pending
  split
  · exact hinv.of_same ⟨hinv.safe.log, hinv.safe.calls⟩ rfl rfl rfl rfl
  rename_i hcrc
  split
  · exact hinv.of_same ⟨hinv.safe.log, hinv.safe.calls⟩ rfl rfl rfl rfl
  rename_i hack
  have hr (hfirst : ptr.getD 3 0 = 0 → s.pending = false) : reaches s ptr = true := by
    simp only [reaches, not_not.mp hseq, not_not.mp hcrc, note_recvSequence, BEq.rfl, Bool.true_and, Bool.and_eq_true,
      bne_iff_ne, ne_eq, hack, not_false_eq_true, true_and, Bool.not_eq_true', Bool.and_eq_false_imp, beq_iff_eq]
    exact hfirst
  split
  · rename_i hno
    split
    · exact hinv
    · rename_i hp
      have hp : s.pending = false := by
        rw [← hpending]
        simpa using hp
      obtain ⟨hlen, hheap, -, hcmd⟩ := hreach (hr fun _ => hp)
      rw [assembled, if_pos hno] at hcmd
      refine firstFragment_inv hinv.safe hlen hheap ?_
      rw [hkey]
      exact hcmd
  · rename_i hno
    obtain ⟨hlen, hheap, hnext, hcmd⟩ := hreach (hr fun h0 => absurd h0 hno)
    obtain ⟨hp, hop⟩ := hnext hno
    rw [assembled, if_neg hno] at hcmd
    refine nextFragment_inv hinv hlen hheap hno (hpending.trans hp) ?_ ?_
    · rw [hsame.frags]
      exact hop
    · rw [hkey, hsame.buffer, hsame.totalLen]
      exact hcmd

end Writes

theorem event_inv {aes : Aes} {fragmentLength : Nat} {s : State} {e : Event} (h : Inv s) (hok : ok aes s e) :
    Inv (event aes fragmentLength s e) := by
  have hsender (sender : Sender) (acks : Nat) : Inv { s with sender, acks } :=
    h.of_same ⟨h.safe.log, h.safe.calls⟩ rfl rfl rfl rfl
  cases e with
  | write ptr env => exact writeCb_inv h hok
  | trigger =>
    simp only [event]
    split
    · exact h
    · exact hsender _ _
  | asyncAck =>
    simp only [event]
    split
    · exact h
    · rename_i hacks
      have hhead : ∀ rsp ∈ s.sender.rspList.head?, rsp.flag &&& ackFlag ≠ 0 := hok.resolve_left hacks
      cases hlist : s.sender.rspList with
      | nil =>
        simp only [Sender.processReceivedAckOrSendCb, hlist]
        exact hsender _ _
      | cons rsp rest =>
        have hflag : rsp.flag &&& ackFlag ≠ 0 := hhead rsp (by rw [hlist]; rfl)
        simp only [Sender.processReceivedAckOrSendCb, hlist, hflag, ne_eq, not_false_eq_true, if_true]
        exact hsender _ _
  | sentCb =>
    simp only [event, Sender.processReceivedAckOrSendCb]
    cases s.sender.rspList with
    | nil => exact hsender _ _
    | cons rsp rest =>
      by_cases hflag : rsp.flag &&& ackFlag = 0
      · simp only [hflag, ne_eq, not_true_eq_false, if_false, Bool.false_eq_true]
        exact hsender _ _
      · simp only [hflag, ne_eq, not_false_eq_true, if_true, Bool.false_eq_true, if_false]
        exact hsender _ _

theorem init_inv : Inv State.init :=
  ⟨⟨by simp [State.init], by simp [State.init]⟩, fun h => by cases h⟩

/-- In every run whose steps meet `ok`, only bytes of the frames and of commands are read, no length is negative, no
assertion fails, and `app_cmd_process` gets commands that are put together from fragment 0 and further fragments of them. -/
theorem robust (aes : Aes) (fragmentLength : Nat) (es : List Event)
    (hok : ∀ p ∈ trace (event aes fragmentLength) State.init es, ok aes p.1 p.2) :
    (∀ a ∈ (runs (event aes fragmentLength) State.init es).log, a.ok) ∧
    ∀ c ∈ (runs (event aes fragmentLength) State.init es).calls, OneCommand c.frags := by
  have hinv := runs_inv Inv (ok aes) (fun _ _ hc h => event_inv h hc) hok init_inv
  exact ⟨hinv.safe.log, hinv.safe.calls⟩

/-- The SSID `A` in one fragment. -/
def ssidWrite : List Event := [.write (frame 0x0A 0 0 0 [0x01, 1, 0x41]) goodEnv]

theorem robust_ssidWrite :
    (∀ a ∈ (runs (event plainAes 15) State.init ssidWrite).log, a.ok) ∧
    (runs (event plainAes 15) State.init ssidWrite).calls = [⟨[0x0A, 0x01, 1, 0x41], [⟨0x0A, 0, 0⟩]⟩] := by
  refine ⟨(robust plainAes 15 ssidWrite fun p hp => ?_).1, by decide⟩
  have hp : p = (State.init, .write (frame 0x0A 0 0 0 [0x01, 1, 0x41]) goodEnv) := List.mem_singleton.mp hp
  subst hp
  refine ⟨by decide, fun _ => ⟨by decide, rfl, fun h => absurd rfl h, fun _ cmd hcmd => ?_⟩⟩
  have hcmd : some [0x0A, 0x01, 1, 0x41] = some cmd := hcmd
  cases hcmd
  exact ⟨fun _ => .last ⟨rfl, by decide⟩ (by decide), fun h => absurd h (by decide)⟩

/-- The header of an empty frame is read. A lone fragment is processed as a command. An ack for a response that wants none
fails an assertion. -/
theorem robust_fails :
    (¬ ∀ a ∈ (runs (event plainAes 15) State.init [.write [] goodEnv]).log, a.ok) ∧
    (∃ c ∈ (runs (event plainAes 15) State.init [.write (frame 0x0A 0 0 1 [0x0B]) goodEnv]).calls, ¬ OneCommand c.frags) ∧
    ¬ ∀ a ∈ (runs (event plainAes 15) State.init
      [.write (frame 0x0B 0 ackFlag 0 []) goodEnv, .write (frame ackFromApp 1 0 0 []) goodEnv, .asyncAck]).log, a.ok := by
  refine ⟨by decide, ⟨⟨[0x0B], [⟨0x0A, 0, 1⟩]⟩, by decide, ?_⟩, by decide⟩
  rintro ⟨⟨opcode, flag, rest, hfrags, -⟩, -⟩
  cases hfrags

end Command
end BleWifi
end Air101

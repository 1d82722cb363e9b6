import Air101.BleWifi.Frame
import Air101.Storage.Runs

/-!
# BleWifi.Response

The responses of the Wi-Fi provisioning (`src/app/bleapp/wm_ble_server_wifi_app.c`). `build_cmd_rsp` puts a response
into `rsp_list` and, unless `g_sending_pending` is set, schedules `triger_to_send`. That sends the first fragment of the
first response; each callback that a frame was sent sends the next fragment, or takes a response that is through off the
list and sends the first fragment of the next. The rest of a response is an `int` in the one place and a `uint8_t` in
the other, and a `triger_to_send` does not ask whether a response is being sent.

* `Rsp.fragments`: the fragments of a response.
* `response_stream`: while the two ways to send do not get into each other's way and no rest is cut to 8 bits, the frames
  sent are the fragments of the responses in order.
* `response_empty_frame`: two responses in a row make an empty frame.
-/

namespace Air101
namespace BleWifi

open Storage

/-- `PAYLOAD_FRAGMENT_LENGTH` after `wm_ble_wifi_cfg_mtu_changed_cb`. -/
def payloadFragmentLength (mtu : Nat) : Nat := min mtu 247 - 3 - 5

/-- A response in `rsp_list` (`msg_buffer_t`). -/
structure Msg where
  buffer : List Byte
  totalLen : Nat
  offset : Nat
  flag : Byte
  opcode : Byte

/-- What sending works on, with the number of scheduled `triger_to_send` and the frames that were handed to
`tls_ble_wifi_prof_send_msg`. -/
structure Sender where
  rspList : List Msg
  sendSequence : Byte
  sendingPending : Bool
  triggers : Nat
  sent : List (List Byte)

/-- `send_app_msg`. -/
def Sender.sendAppMsg (s : Sender) (opcode flag seqno : Byte) (payload : List Byte) : Sender :=
  { s with
    sendSequence := s.sendSequence + 1, sent := s.sent ++ [frame opcode s.sendSequence flag seqno payload] }

/-- The fragment number at an offset. -/
def seqnoAt (fragmentLength offset : Nat) : Byte := BitVec.ofNat 8 ((offset + (fragmentLength - 1)) / fragmentLength)

/-- The `left` bytes of the first response are sent with the given flags. -/
def Sender.sendFirst (fragmentLength : Nat) (s : Sender) (rsp : Msg) (rest : List Msg) (left : Nat) (flag : Byte) : Sender :=
  { s.sendAppMsg rsp.opcode flag (seqnoAt fragmentLength rsp.offset) ((rsp.buffer.drop rsp.offset).take left) with
    rspList := { rsp with flag, offset := rsp.offset + left } :: rest }

/-- `check_sending_list_and_send`. -/
def Sender.checkSendingListAndSend (fragmentLength : Nat) (s : Sender) : Sender × Bool :=
  match s.rspList with
  | [] => ({ s with sendingPending := false }, false)
  | rsp :: rest =>
    let left := rsp.totalLen - rsp.offset
    let s := if left > fragmentLength then s.sendFirst fragmentLength rsp rest fragmentLength (rsp.flag ||| mreFlag)
      else s.sendFirst fragmentLength rsp rest left rsp.flag
    ({ s with sendingPending := true }, true)

/-- The branch of `process_received_ack_or_send_cb` that goes on with the first response. -/
def Sender.processFirst (fragmentLength : Nat) (s : Sender) (rsp : Msg) (rest : List Msg) : Sender × Bool :=
  if rsp.offset ≥ rsp.totalLen then { s with rspList := rest }.checkSendingListAndSend fragmentLength
  else
    let left := (rsp.totalLen - rsp.offset) % 256
    if left > fragmentLength then (s.sendFirst fragmentLength rsp rest fragmentLength rsp.flag, true)
    else (s.sendFirst fragmentLength rsp rest left (rsp.flag &&& ~~~ mreFlag), true)

/-- `process_received_ack_or_send_cb`; `none` is `assert(0)`. -/
def Sender.processReceivedAckOrSendCb (fragmentLength : Nat) (s : Sender) (fromAck : Bool) : Option (Sender × Bool) :=
  match s.rspList with
  | [] => some (s, false)
  | rsp :: rest =>
    if rsp.flag &&& ackFlag ≠ 0 then
      if fromAck then some (s.processFirst fragmentLength rsp rest) else some (s, false)
    else if fromAck then none
    else some (s.processFirst fragmentLength rsp rest)

/-- The payload of a response in `build_cmd_rsp`. -/
def rspPayload (aes : Aes) (privKey : List Byte) (flag : Byte) (ptr : List Byte) : List Byte :=
  if flag &&& encFlag ≠ 0 then aes.encrypt privKey (pkcs7Padding ptr) else ptr

/-- `build_cmd_rsp`; `heap` says whether its allocations succeed. -/
def Sender.buildCmdRsp (s : Sender) (aes : Aes) (privKey : List Byte) (opcode flag : Byte) (ptr : List Byte) (heap : Bool) :
    Sender :=
  if heap then
    let payload := rspPayload aes privKey flag ptr
    { s with
      rspList := s.rspList ++ [{ buffer := payload, totalLen := payload.length % 65536, offset := 0, flag, opcode }]
      triggers := if s.sendingPending then s.triggers else s.triggers + 1 }
  else s

/-! ## Fragments -/

/-- What a frame says, but for its sequence number. -/
structure Fragment where
  opcode : Byte
  flag : Byte
  seqno : Byte
  payload : List Byte
  deriving DecidableEq

def parse (msg : List Byte) : Fragment :=
  { opcode := msg.getD 0 0, flag := msg.getD 2 0, seqno := msg.getD 3 0, payload := (msg.drop 4).dropLast }

/-- A response as `build_cmd_rsp` is called for it. -/
structure Rsp where
  opcode : Byte
  flag : Byte
  payload : List Byte
  deriving DecidableEq

/-- The number of fragments of a response. -/
def Rsp.count (fragmentLength : Nat) (r : Rsp) : Nat := (r.payload.length + (fragmentLength - 1)) / fragmentLength

/-- Fragment `i` of a response. -/
def Rsp.fragment (fragmentLength : Nat) (r : Rsp) (i : Nat) : Fragment where
  opcode := r.opcode
  flag := if i + 1 = r.count fragmentLength then r.flag &&& ~~~ mreFlag else r.flag ||| mreFlag
  seqno := BitVec.ofNat 8 i
  payload := (r.payload.drop (i * fragmentLength)).take fragmentLength

def Rsp.fragments (fragmentLength : Nat) (r : Rsp) : List Fragment :=
  (List.range (r.count fragmentLength)).map (r.fragment fragmentLength)

theorem parse_frame (opcode sequence flag seqno : Byte) (payload : List Byte) :
    parse (frame opcode sequence flag seqno payload) = { opcode, flag, seqno, payload } := by
  simp [parse, frame]

/-! ## Runs -/

/-- The sender, the responses built so far and the number of callbacks that a frame was sent. -/
structure Sys where
  sender : Sender
  built : List Rsp
  completions : Nat

inductive Step where
  | build (privKey : List Byte) (opcode flag : Byte) (ptr : List Byte) (heap : Bool)
  | trigger
  | sentCb

def step (aes : Aes) (fragmentLength : Nat) (s : Sys) : Step → Sys
  | .build privKey opcode flag ptr heap =>
    { s with
      sender := s.sender.buildCmdRsp aes privKey opcode flag ptr heap
      built := s.built ++ [{ opcode, flag, payload := rspPayload aes privKey flag ptr }] }
  | .trigger =>
    if s.sender.triggers = 0 then s
    else { s with
      sender := ({ s.sender with triggers := s.sender.triggers - 1 }.checkSendingListAndSend fragmentLength).1 }
  | .sentCb =>
    if s.sender.sent.length ≤ s.completions then s
    else
      match s.sender.processReceivedAckOrSendCb fragmentLength false with
      | none => s
      | some (sender, _) => { s with sender, completions := s.completions + 1 }

/-- The state after `wm_ble_wifi_cfg_connected_cb`. -/
def Sys.init : Sys :=
  { sender := { rspList := [], sendSequence := 0, sendingPending := false, triggers := 0, sent := [] }, built := []
    completions := 0 }

/-- The calls: a payload of 1 to 65535 bytes, without the ACK flag. -/
def Step.Valid (aes : Aes) : Step → Prop
  | .build privKey _ flag ptr _ =>
    1 ≤ (rspPayload aes privKey flag ptr).length ∧ (rspPayload aes privKey flag ptr).length ≤ 65535 ∧ flag &&& ackFlag = 0
  | _ => True

/-- What is left of a response. -/
def Msg.left (rsp : Msg) : Nat := rsp.totalLen - rsp.offset

/-- A response is built on the heap, and with the MRE flag only if it is longer than a fragment. A trigger finds no response
begun or one with more than a fragment left. A callback finds a response with a rest that fits 8 bits, or whose low 8 bits
are more than a fragment, and, if it is not begun, one that fits a fragment or has the MRE flag. -/
def ok (aes : Aes) (fragmentLength : Nat) (s : Sys) : Step → Bool
  | .build privKey _ flag ptr heap =>
    heap && (flag &&& mreFlag == 0 || decide (fragmentLength < (rspPayload aes privKey flag ptr).length))
  | .trigger => s.sender.triggers == 0 ||
    s.sender.rspList.head?.all fun rsp => rsp.offset == 0 || decide (fragmentLength < rsp.left)
  | .sentCb => decide (s.sender.sent.length ≤ s.completions) ||
    s.sender.rspList.head?.all fun rsp => (decide (rsp.left ≤ 255) || decide (fragmentLength < rsp.left % 256)) &&
      (rsp.offset != 0 || decide (rsp.left ≤ fragmentLength) || rsp.flag &&& mreFlag != 0)

/-! ## One fragment -/

section Fragments

variable {n : Nat} {r : Rsp}

theorem lt_count (hn : 0 < n) {i : Nat} : i < r.count n ↔ i * n < r.payload.length := by
  rw [Rsp.count, Nat.lt_iff_add_one_le, Nat.le_div_iff_mul_le hn, Nat.add_mul]
  omega

theorem seqnoAt_mul (hn : 0 < n) (i : Nat) : seqnoAt n (i * n) = BitVec.ofNat 8 i := by
  rw [seqnoAt, Nat.add_comm, Nat.add_mul_div_right _ _ hn, Nat.div_eq_of_lt (by omega), Nat.zero_add]

/-- The flags of a response of which `i` fragments are sent. -/
def Rsp.flagAt (n : Nat) (r : Rsp) (i : Nat) : Byte :=
  if i = 0 then r.flag else if i = r.count n then r.flag &&& ~~~ mreFlag else r.flag ||| mreFlag

/-- A response of which `i` fragments are sent. -/
def Rsp.msgAt (n : Nat) (r : Rsp) (i : Nat) : Msg :=
  { buffer := r.payload, totalLen := r.payload.length, offset := min (i * n) r.payload.length, flag := r.flagAt n i
    opcode := r.opcode }

/-- What `build_cmd_rsp` is called for. -/
structure Rsp.Valid (n : Nat) (r : Rsp) : Prop where
  pos : 1 ≤ r.payload.length
  le : r.payload.length ≤ 65535
  ack : r.flag &&& ackFlag = 0
  mre : r.flag &&& mreFlag = 0 ∨ n < r.payload.length

theorem clear_mre {flag : Byte} (h : flag &&& mreFlag = 0) : flag &&& ~~~ mreFlag = flag := by
  have hsplit : ∀ f : Byte, f &&& mreFlag = 0 → f &&& ~~~ mreFlag = f := by decide
  exact hsplit flag h

theorem set_mre_of_ne {flag : Byte} (h : flag &&& mreFlag ≠ 0) : flag ||| mreFlag = flag := by
  have hsplit : ∀ f : Byte, f &&& mreFlag ≠ 0 → f ||| mreFlag = f := by decide
  exact hsplit flag h

theorem set_mre_set (flag : Byte) : (flag ||| mreFlag) ||| mreFlag = flag ||| mreFlag := by
  rw [BitVec.or_assoc, BitVec.or_self]

theorem clear_mre_set (flag : Byte) : (flag ||| mreFlag) &&& ~~~ mreFlag = flag &&& ~~~ mreFlag := by
  have hsplit : ∀ f : Byte, (f ||| mreFlag) &&& ~~~ mreFlag = f &&& ~~~ mreFlag := by decide
  exact hsplit flag

theorem msgAt_ack (h : r.flag &&& ackFlag = 0) (i : Nat) : (r.msgAt n i).flag &&& ackFlag = 0 := by
  have hsplit : ∀ f : Byte, f &&& ackFlag = 0 →
      (f &&& ~~~ mreFlag) &&& ackFlag = 0 ∧ (f ||| mreFlag) &&& ackFlag = 0 := by decide
  obtain ⟨hclear, hset⟩ := hsplit r.flag h
  simp only [Rsp.msgAt, Rsp.flagAt]
  split
  · exact h
  · split
    · exact hclear
    · exact hset

theorem left_msgAt (hn : 0 < n) {i : Nat} (hi : i < r.count n) :
    (r.msgAt n i).offset = i * n ∧ (r.msgAt n i).left = r.payload.length - i * n := by
  have hlt := (lt_count hn).mp hi
  have hmin : min (i * n) r.payload.length = i * n := by omega
  simp only [Msg.left, Rsp.msgAt, hmin]
  exact ⟨trivial, trivial⟩

theorem lt_left (hn : 0 < n) {i : Nat} (hi : i < r.count n) : n < (r.msgAt n i).left ↔ i + 1 < r.count n := by
  rw [(left_msgAt hn hi).2, lt_count hn, Nat.add_mul]
  omega

theorem sendFirst_msgAt (hn : 0 < n) {i : Nat} {flag : Byte} (hi : i < r.count n) (s : Sender) (rest : List Msg)
    (left : Nat) (hleft : left = min n (r.payload.length - i * n)) (hflag : flag = (r.fragment n i).flag) :
    (s.sendFirst n (r.msgAt n i) rest left flag).rspList = r.msgAt n (i + 1) :: rest ∧
    (s.sendFirst n (r.msgAt n i) rest left flag).sent.map parse = s.sent.map parse ++ [r.fragment n i] := by
  have hlt := (lt_count hn).mp hi
  have hoff := (left_msgAt hn hi).1
  constructor
  · have hnext : min ((i + 1) * n) r.payload.length = i * n + left := by
      rw [Nat.add_mul]
      omega
    have hflag' : flag = r.flagAt n (i + 1) := by
      rw [hflag, Rsp.flagAt, if_neg (Nat.succ_ne_zero i)]
      rfl
    simp only [Sender.sendFirst, hoff, hflag']
    simp only [Rsp.msgAt, hnext]
  · have htake : (r.payload.drop (i * n)).take left = (r.payload.drop (i * n)).take n := by
      by_cases hge : n ≤ r.payload.length - i * n
      · rw [hleft, Nat.min_eq_left hge]
      · rw [List.take_of_length_le (by simp; omega), List.take_of_length_le (by simp; omega)]
    simp only [Sender.sendFirst, Sender.sendAppMsg, List.map_append, List.map_cons, List.map_nil, parse_frame, hoff,
      seqnoAt_mul hn, hflag]
    simp only [Rsp.msgAt, Rsp.fragment, htake]

theorem take_fragments {i : Nat} (hi : i < r.count n) :
    (r.fragments n).take i ++ [r.fragment n i] = (r.fragments n).take (i + 1) := by
  rw [List.take_add_one, Rsp.fragments, List.getElem?_map, List.getElem?_range hi]
  rfl

theorem take_count (r : Rsp) : (r.fragments n).take (r.count n) = r.fragments n :=
  List.take_of_length_le (by simp [Rsp.fragments])

/-- Fragment `i` of `r`, the first response, is sent. -/
structure SentNext (n : Nat) (r : Rsp) (i : Nat) (rest : List Msg) (s s' : Sender) : Prop where
  rspList : s'.rspList = r.msgAt n (i + 1) :: rest
  sent : s'.sent.map parse = s.sent.map parse ++ [r.fragment n i]

/-- `check_sending_list_and_send` sends the next fragment if it is not the last of a response that is begun. -/
theorem check_sentNext (hn : 0 < n) (hr : r.Valid n) {s : Sender} {rest : List Msg} {i : Nat}
    (hlist : s.rspList = r.msgAt n i :: rest) (hi : i < r.count n) (hok : i = 0 ∨ i + 1 < r.count n) :
    SentNext n r i rest s (s.checkSendingListAndSend n).1 := by
  have hleft := (left_msgAt hn hi).2
  have hlt := lt_left hn hi
  simp only [Sender.checkSendingListAndSend, hlist]
  rw [show (r.msgAt n i).totalLen - (r.msgAt n i).offset = (r.msgAt n i).left from rfl]
  split
  · rename_i hmore
    have hflag : (r.msgAt n i).flag ||| mreFlag = (r.fragment n i).flag := by
      have hmore := hlt.mp hmore
      have hf : (r.fragment n i).flag = r.flag ||| mreFlag := if_neg (by omega)
      rw [hf]
      show r.flagAt n i ||| mreFlag = _
      rw [Rsp.flagAt]
      split
      · rfl
      · rw [if_neg (by omega), set_mre_set]
    obtain ⟨h1, h2⟩ := sendFirst_msgAt hn hi s rest n (by omega) hflag
    exact ⟨h1, h2⟩
  · rename_i hmore
    have hlast : ¬ i + 1 < r.count n := fun h => hmore (hlt.mpr h)
    have h0 : i = 0 := by omega
    subst h0
    have hone : r.flag &&& mreFlag = 0 := by
      rcases hr.mre with h | h
      · exact h
      · have hcount : 1 < r.count n := (lt_count hn).mpr (by omega)
        omega
    have hflag : (r.msgAt n 0).flag = (r.fragment n 0).flag := by
      show r.flag = if 0 + 1 = r.count n then _ else _
      rw [if_pos (by omega), clear_mre hone]
    obtain ⟨h1, h2⟩ := sendFirst_msgAt hn hi s rest (r.msgAt n 0).left (by omega) hflag
    exact ⟨h1, h2⟩

/-- `process_received_ack_or_send_cb` sends the next fragment if the rest of the response survives the 8 bits and its first
fragment is the last or has the MRE flag. -/
theorem processFirst_sentNext (hn : 0 < n) (hle : n ≤ 255) {s : Sender} {rest : List Msg} {i : Nat} (hi : i < r.count n)
    (hleft : (r.msgAt n i).left ≤ 255 ∨ n < (r.msgAt n i).left % 256)
    (hmre : i ≠ 0 ∨ (r.msgAt n i).left ≤ n ∨ r.flag &&& mreFlag ≠ 0) :
    SentNext n r i rest s (s.processFirst n (r.msgAt n i) rest).1 := by
  have heq := (left_msgAt hn hi).2
  have hlt := lt_left hn hi
  have hbegun : ¬ (r.msgAt n i).offset ≥ (r.msgAt n i).totalLen := by
    rw [(left_msgAt hn hi).1]
    exact Nat.not_le.mpr ((lt_count hn).mp hi)
  simp only [Sender.processFirst, hbegun, if_false]
  rw [show (r.msgAt n i).totalLen - (r.msgAt n i).offset = (r.msgAt n i).left from rfl]
  split
  · rename_i hmore
    have hmod := Nat.mod_le (r.msgAt n i).left 256
    have hnext : i + 1 < r.count n := hlt.mp (by omega)
    have hflag : (r.msgAt n i).flag = (r.fragment n i).flag := by
      have hf : (r.fragment n i).flag = r.flag ||| mreFlag := if_neg (by omega)
      rw [hf]
      show r.flagAt n i = _
      rw [Rsp.flagAt]
      split
      · rename_i h0
        rcases hmre with h | h | h
        · contradiction
        · omega
        · exact (set_mre_of_ne h).symm
      · rw [if_neg (by omega)]
    obtain ⟨h1, h2⟩ := sendFirst_msgAt hn hi s rest n (by omega) hflag
    exact ⟨h1, h2⟩
  · rename_i hmore
    have hmod : (r.msgAt n i).left % 256 = (r.msgAt n i).left := Nat.mod_eq_of_lt (by omega)
    have hlast : ¬ i + 1 < r.count n := fun h => hmore (by have := hlt.mpr h; omega)
    have hflag : (r.msgAt n i).flag &&& ~~~ mreFlag = (r.fragment n i).flag := by
      have hf : (r.fragment n i).flag = r.flag &&& ~~~ mreFlag := if_pos (by omega)
      rw [hf]
      show r.flagAt n i &&& _ = _
      rw [Rsp.flagAt]
      split
      · rfl
      · rw [if_neg (by omega), clear_mre_set]
    obtain ⟨h1, h2⟩ := sendFirst_msgAt hn hi s rest ((r.msgAt n i).left % 256) (by omega) hflag
    exact ⟨h1, h2⟩

end Fragments

/-! ## The stream -/

/-- No response is left, and all fragments are sent. -/
structure Through (n : Nat) (s : Sys) : Prop where
  rspList : s.sender.rspList = []
  sent : s.sender.sent.map parse = s.built.flatMap (·.fragments n)
  pending : s.sender.sendingPending = false

/-- The responses `done` are sent and `i` fragments of `r`. A trigger is scheduled or a frame is under way. -/
structure Sending (n : Nat) (s : Sys) (done : List Rsp) (r : Rsp) (i : Nat) (rest : List Rsp) : Prop where
  built : s.built = done ++ r :: rest
  rspList : s.sender.rspList = r.msgAt n i :: rest.map (·.msgAt n 0)
  sent : s.sender.sent.map parse = done.flatMap (·.fragments n) ++ (r.fragments n).take i
  le : i ≤ r.count n
  trigger : i = 0 → s.sender.triggers ≠ 0
  outstanding : i ≠ 0 → s.completions < s.sender.sent.length

structure Inv (n : Nat) (s : Sys) : Prop where
  valid : ∀ r ∈ s.built, r.Valid n
  le : s.completions ≤ s.sender.sent.length
  phase : Through n s ∨ ∃ done r i rest, Sending n s done r i rest

section Stream

variable {n : Nat} {s : Sys} {aes : Aes}

theorem msgAt_zero {r : Rsp} : r.msgAt n 0 =
    { buffer := r.payload, totalLen := r.payload.length, offset := 0, flag := r.flag, opcode := r.opcode } := by
  simp [Rsp.msgAt, Rsp.flagAt]

theorem count_pos (hn : 0 < n) {r : Rsp} (hr : r.Valid n) : 0 < r.count n := by
  have hpos := hr.pos
  rw [lt_count hn]
  omega

theorem build_inv (h : Inv n s) {privKey : List Byte} {opcode flag : Byte} {ptr : List Byte} {heap : Bool}
    (hv : Step.Valid aes (.build privKey opcode flag ptr heap)) (hok : ok aes n s (.build privKey opcode flag ptr heap) = true) :
    Inv n (step aes n s (.build privKey opcode flag ptr heap)) := by
  obtain ⟨hpos, hle, hack⟩ := hv
  simp only [ok, Bool.and_eq_true, Bool.or_eq_true, beq_iff_eq, decide_eq_true_eq] at hok
  obtain ⟨rfl, hmre⟩ := hok
  simp only [step, Sender.buildCmdRsp, if_true]
  have hmod : (rspPayload aes privKey flag ptr).length % 65536 = (rspPayload aes privKey flag ptr).length :=
    Nat.mod_eq_of_lt (by omega)
  rw [hmod]
  generalize rspPayload aes privKey flag ptr = payload at hpos hle hmre
  have hr : Rsp.Valid n { opcode, flag, payload } := ⟨hpos, hle, hack, hmre⟩
  refine ⟨?_, h.le, .inr ?_⟩
  · intro r hmem
    rcases List.mem_append.mp hmem with hmem | hmem
    · exact h.valid r hmem
    · rw [List.mem_singleton.mp hmem]
      exact hr
  rcases h.phase with hthrough | ⟨done, r, i, rest, hs⟩
  · refine ⟨s.built, { opcode, flag, payload }, 0, [], rfl, ?_, ?_, Nat.zero_le _, ?_, fun h0 => absurd rfl h0⟩
    · simp [hthrough.rspList, msgAt_zero]
    · simp [hthrough.sent]
    · simp [hthrough.pending]
  · refine ⟨done, r, i, rest ++ [⟨opcode, flag, payload⟩], ?_, ?_, hs.sent, hs.le, ?_, hs.outstanding⟩
    · simp [hs.built]
    · simp [hs.rspList, msgAt_zero]
    · intro h0
      have htrig := hs.trigger h0
      show (if s.sender.sendingPending = true then s.sender.triggers else s.sender.triggers + 1) ≠ 0
      split <;> omega

theorem Sending.next {done rest : List Rsp} {r : Rsp} {i : Nat} (hs : Sending n s done r i rest) (hi : i < r.count n)
    {s' : Sys} (hbuilt : s'.built = s.built) (hnext : SentNext n r i (rest.map (·.msgAt n 0)) s.sender s'.sender)
    (hc : s'.completions ≤ s.sender.sent.length) : Sending n s' done r (i + 1) rest := by
  have hlen := congrArg List.length hnext.sent
  simp only [List.length_map, List.length_append, List.length_singleton] at hlen
  refine ⟨hbuilt.trans hs.built, hnext.rspList, ?_, hi, fun h0 => absurd h0 (Nat.succ_ne_zero i), fun _ => by omega⟩
  rw [hnext.sent, hs.sent, List.append_assoc, take_fragments hi]

theorem msgAt_count (hn : 0 < n) (r : Rsp) :
    (r.msgAt n (r.count n)).offset = r.payload.length ∧ (r.msgAt n (r.count n)).left = 0 := by
  have hge : ¬ r.count n * n < r.payload.length := by
    rw [← lt_count hn]
    exact Nat.lt_irrefl _
  have hmin : min (r.count n * n) r.payload.length = r.payload.length := by omega
  simp only [Msg.left, Rsp.msgAt, hmin, Nat.sub_self]
  exact ⟨trivial, trivial⟩

theorem trigger_inv (hn : 0 < n) (h : Inv n s) (hok : ok aes n s .trigger = true) : Inv n (step aes n s .trigger) := by
  simp only [step]
  split
  · exact h
  rename_i htrig
  simp only [ok, Bool.or_eq_true, beq_iff_eq, htrig, false_or] at hok
  rcases h.phase with hthrough | ⟨done, r, i, rest, hs⟩
  · simp only [Sender.checkSendingListAndSend, hthrough.rspList]
    exact ⟨h.valid, h.le, .inl ⟨rfl, hthrough.sent, rfl⟩⟩
  · have hr := h.valid r (by simp [hs.built])
    have hcond : i < r.count n ∧ (i = 0 ∨ i + 1 < r.count n) := by
      simp only [hs.rspList, List.head?_cons, Option.all_some, Bool.or_eq_true, beq_iff_eq, decide_eq_true_eq] at hok
      have hpos := hr.pos
      by_cases hi : i < r.count n
      · rw [lt_left hn hi, (left_msgAt hn hi).1, Nat.mul_eq_zero] at hok
        exact ⟨hi, by omega⟩
      · have heq : i = r.count n := Nat.le_antisymm hs.le (Nat.not_lt.mp hi)
        rw [heq, (msgAt_count hn r).1, (msgAt_count hn r).2] at hok
        omega
    have hnext := check_sentNext (s := { s.sender with triggers := s.sender.triggers - 1 }) hn hr hs.rspList hcond.1 hcond.2
    have hsend := @Sending.next n s done rest r i hs hcond.1 { s with
      sender := ({ s.sender with triggers := s.sender.triggers - 1 }.checkSendingListAndSend n).1 } rfl
      ⟨hnext.rspList, hnext.sent⟩ h.le
    exact ⟨h.valid, Nat.le_of_lt (hsend.outstanding (Nat.succ_ne_zero i)), .inr ⟨done, r, i + 1, rest, hsend⟩⟩

theorem sentCb_last (hn : 0 < n) (h : Inv n s) {done rest : List Rsp} {r : Rsp} (hs : Sending n s done r (r.count n) rest)
    (hlt : s.completions < s.sender.sent.length) :
    Inv n { s with
      sender := (s.sender.processFirst n (r.msgAt n (r.count n)) (rest.map (·.msgAt n 0))).1
      completions := s.completions + 1 } := by
  have hthrough : (r.msgAt n (r.count n)).offset ≥ (r.msgAt n (r.count n)).totalLen := by
    rw [(msgAt_count hn r).1]
    exact Nat.le_refl _
  have hsent := hs.sent
  rw [take_count] at hsent
  simp only [Sender.processFirst, hthrough, if_true]
  cases rest with
  | nil =>
    refine ⟨h.valid, hlt, .inl ⟨rfl, ?_, rfl⟩⟩
    show s.sender.sent.map parse = s.built.flatMap _
    rw [hsent, hs.built]
    simp
  | cons r' rest =>
    have hr' := h.valid r' (by simp [hs.built])
    have hpos := count_pos hn hr'
    have hnext := check_sentNext (s := { s.sender with rspList := (r' :: rest).map (·.msgAt n 0) }) (i := 0) hn hr' rfl hpos
      (.inl rfl)
    have hlen := congrArg List.length hnext.sent
    simp only [List.length_map, List.length_append, List.length_singleton] at hlen
    have hmore := Nat.lt_of_lt_of_eq (Nat.succ_lt_succ hlt) hlen.symm
    refine ⟨h.valid, Nat.le_of_lt hmore, .inr ⟨done ++ [r], r', 1, rest, ?_⟩⟩
    refine ⟨by simp [hs.built], hnext.rspList, ?_, hpos, fun h0 => absurd h0 Nat.one_ne_zero, fun _ => hmore⟩
    rw [hnext.sent, ← take_fragments hpos]
    simp [hsent]

theorem sentCb_inv (hn : 0 < n) (hle : n ≤ 255) (h : Inv n s) (hok : ok aes n s .sentCb = true) :
    Inv n (step aes n s .sentCb) := by
  simp only [step]
  split
  · exact h
  rename_i hcount
  have hlt : s.completions < s.sender.sent.length := Nat.not_le.mp hcount
  simp only [ok, Bool.or_eq_true, decide_eq_true_eq, hcount, false_or] at hok
  rcases h.phase with hthrough | ⟨done, r, i, rest, hs⟩
  · simp only [Sender.processReceivedAckOrSendCb, hthrough.rspList]
    exact ⟨h.valid, hlt, .inl ⟨hthrough.rspList, hthrough.sent, hthrough.pending⟩⟩
  · have hr := h.valid r (by simp [hs.built])
    simp only [Sender.processReceivedAckOrSendCb, hs.rspList, msgAt_ack hr.ack, ne_eq, not_true_eq_false, if_false,
      Bool.false_eq_true]
    by_cases hi : i < r.count n
    · simp only [hs.rspList, List.head?_cons, Option.all_some, Bool.and_eq_true, Bool.or_eq_true, decide_eq_true_eq,
        bne_iff_ne, ne_eq] at hok
      have hmre : i ≠ 0 ∨ (r.msgAt n i).left ≤ n ∨ r.flag &&& mreFlag ≠ 0 := by
        by_cases h0 : i = 0
        · subst h0
          rw [msgAt_zero] at hok ⊢
          simp only [not_true_eq_false, false_or] at hok
          exact .inr hok.2
        · exact .inl h0
      have hnext : SentNext n r i (rest.map (·.msgAt n 0)) s.sender (s.sender.processFirst n (r.msgAt n i) _).1 :=
        processFirst_sentNext hn hle hi hok.1 hmre
      have hsend := @Sending.next n s done rest r i hs hi { s with
        sender := (s.sender.processFirst n (r.msgAt n i) (rest.map (·.msgAt n 0))).1
        completions := s.completions + 1 } rfl hnext hlt
      exact ⟨h.valid, Nat.le_of_lt (hsend.outstanding (Nat.succ_ne_zero i)), .inr ⟨done, r, i + 1, rest, hsend⟩⟩
    · have heq : i = r.count n := Nat.le_antisymm hs.le (Nat.not_lt.mp hi)
      subst heq
      exact sentCb_last hn h hs hlt

theorem step_inv (hn : 0 < n) (hle : n ≤ 255) (h : Inv n s) {c : Step} (hv : c.Valid aes) (hok : ok aes n s c = true) :
    Inv n (step aes n s c) := by
  cases c with
  | build privKey opcode flag ptr heap => exact build_inv h hv hok
  | trigger => exact trigger_inv hn h hok
  | sentCb => exact sentCb_inv hn hle h hok

end Stream

theorem init_inv (n : Nat) : Inv n Sys.init :=
  ⟨by simp [Sys.init], Nat.le_refl _, .inl ⟨rfl, rfl, rfl⟩⟩

/-- In every run whose steps meet `ok`, the frames sent are always the first fragments of the responses in the order in
which they were built, and all of them once no trigger is scheduled and no frame is under way. -/
theorem response_stream (aes : Aes) (mtu : Nat) (hmtu : 23 ≤ mtu) (cs : List Step) (hv : ∀ c ∈ cs, c.Valid aes)
    (hok : ∀ p ∈ trace (step aes (payloadFragmentLength mtu)) Sys.init cs,
      ok aes (payloadFragmentLength mtu) p.1 p.2 = true) :
    let s := runs (step aes (payloadFragmentLength mtu)) Sys.init cs
    s.sender.sent.map parse <+: s.built.flatMap (·.fragments (payloadFragmentLength mtu)) ∧
    (s.sender.triggers = 0 → s.completions = s.sender.sent.length →
      s.sender.sent.map parse = s.built.flatMap (·.fragments (payloadFragmentLength mtu))) := by
  intro s
  have hlen : 0 < payloadFragmentLength mtu ∧ payloadFragmentLength mtu ≤ 255 := by
    rw [payloadFragmentLength]
    omega
  have hinv : Inv (payloadFragmentLength mtu) s :=
    runs_inv (Inv (payloadFragmentLength mtu)) (fun s c => c.Valid aes ∧ ok aes (payloadFragmentLength mtu) s c = true)
      (fun _ _ hc h => step_inv hlen.1 hlen.2 h hc.1 hc.2)
      (fun p hp => ⟨hv p.2 (mem_of_mem_trace hp), hok p hp⟩) (init_inv _)
  rcases hinv.phase with hthrough | ⟨done, r, i, rest, hs⟩
  · rw [hthrough.sent]
    exact ⟨List.prefix_rfl, fun _ _ => rfl⟩
  · constructor
    · rw [hs.sent, hs.built, List.flatMap_append, List.flatMap_cons]
      exact List.prefix_append_right_inj _ |>.mpr ((List.take_prefix _ _).trans (List.prefix_append _ _))
    · intro htrig hcount
      by_cases h0 : i = 0
      · exact absurd htrig (hs.trigger h0)
      · have hlt := hs.outstanding h0
        omega

/-- An engine for the examples, which takes encrypted texts as they are. -/
def plainAes : Aes where
  encrypt := fun _ bs => bs
  decrypt := fun _ bs => bs
  length_encrypt := fun _ _ => rfl
  length_decrypt := fun _ _ => rfl
  decrypt_encrypt := fun _ _ _ => rfl

/-- A response of two fragments. -/
def twoFragments : List Step :=
  [.build [] 0x8F 0 (List.replicate 20 7) true, .trigger, .sentCb, .sentCb]

theorem response_stream_twoFragments :
    let s := runs (step plainAes 15) Sys.init twoFragments
    s.sender.sent.map parse = s.built.flatMap (·.fragments 15) ∧ s.sender.sent.length = 2 := by
  have hok : ∀ p ∈ trace (step plainAes 15) Sys.init twoFragments, ok plainAes 15 p.1 p.2 = true := by decide
  have hv : ∀ c ∈ twoFragments, c.Valid plainAes := by
    simp [twoFragments, Step.Valid, rspPayload, encFlag, ackFlag]
  exact ⟨(response_stream plainAes 23 (by decide) twoFragments hv hok).2 (by decide) (by decide), by decide⟩

/-- Two responses that are built before the first trigger runs. -/
def twoResponses : List Step :=
  [.build [] 0x8A 0 [0x81] true, .build [] 0x8A 0 [0x82] true, .trigger, .trigger]

/-- The second trigger sends the first response again, from its end on. -/
theorem response_empty_frame :
    (∀ c ∈ twoResponses, c.Valid plainAes) ∧
    let s := runs (step plainAes (payloadFragmentLength 23)) Sys.init twoResponses
    ¬ s.sender.sent.map parse <+: s.built.flatMap (·.fragments (payloadFragmentLength 23)) ∧
    (s.sender.sent.map parse)[1]? = some { opcode := 0x8A, flag := 0, seqno := 1, payload := [] } := by
  refine ⟨?_, by decide⟩
  simp [twoResponses, Step.Valid, rspPayload, encFlag, ackFlag]

end BleWifi
end Air101

import Air101.BleWifi.Command
import Air101.Utils.Crc8
import Mathlib.Data.List.Chain

/-!
# BleWifi.Resend

Frames that are sent again (`src/app/bleapp/wm_ble_server_wifi_app.c`). `send_app_msg` keeps a frame with the ACK flag in
the `cached_buffer` of its response, and `send_app_msg_wait_ack_timeout_cb` has it sent again by `resend_app_msg`, with a
sequence number of its own. `send_ack` takes a sequence number for a frame that it then does not send: it puts a response
into the list, and that gets another number when it is sent.

* `getCrc8_set`: the CRC tells any two values of one byte apart.
* `callers_step`: what the callers of `send_app_msg` do are steps of the model.
* `step_valid`: which step leaves the frames valid.
* `framesValid_iff`: the runs whose frames are all valid.
-/

namespace Air101
namespace BleWifi
namespace Resend

open Storage

/-- A payload that fits `msg` in `send_app_msg`. -/
abbrev Payload := { bs : List Byte // bs.length ≤ 250 }

/-- A frame that was handed to `tls_ble_wifi_prof_send_msg`: by `send_app_msg`, or by `resend_app_msg` for `ptr`. -/
inductive Sent where
  | first (msg : List Byte)
  | again (ptr msg : List Byte)

def Sent.msg : Sent → List Byte
  | .first msg => msg
  | .again _ msg => msg

/-- The sender with the `cached_buffer`, if it was written, and the `retry_count` of the first response. Of what happened
it has the frames sent and the number of calls of `send_ack` since the last of them. -/
structure Resender where
  sender : Sender
  cachedBuffer : Option (List Byte)
  retryCount : Nat
  log : List Sent
  acks : Nat

/-- No frame is sent yet; the sequence number is any. -/
def Resender.init (sendSequence : Byte) : Resender :=
  { sender := { rspList := [], sendSequence, sendingPending := false, triggers := 0, sent := [] }
    cachedBuffer := none, retryCount := 0, log := [], acks := 0 }

/-- The flags with the MRE flag set or cleared. -/
def setMre (mre : Bool) (flag : Byte) : Byte := if mre then flag ||| mreFlag else flag &&& ~~~ mreFlag

namespace Resender

/-- `send_app_msg` for the first response, and what its callers do before and after it: they set or clear the MRE flag, move
`offset` and begin to count the retries. -/
def send (r : Resender) (mre : Bool) (seqno : Byte) (payload : Payload) : Resender :=
  match r.sender.rspList with
  | [] => r
  | rsp :: rest =>
    let flag := setMre mre rsp.flag
    let msg := frame rsp.opcode r.sender.sendSequence flag seqno payload
    { sender := { r.sender.sendAppMsg rsp.opcode flag seqno payload with
        rspList := { rsp with flag, offset := rsp.offset + payload.1.length } :: rest }
      cachedBuffer := if flag &&& ackFlag ≠ 0 then some msg else r.cachedBuffer
      retryCount := 1, log := r.log ++ [.first msg], acks := 0 }

/-- `resend_app_msg`. The CRC is taken over `ptr`, not over the copy with the new sequence number. -/
def resendAppMsg (r : Resender) (ptr : List Byte) : Resender :=
  let msg := ptr.set 1 r.sender.sendSequence
  let crc8 := getCrc8 (ptr.take (ptr.length - 1))
  let msg := msg.set (ptr.length - 1) crc8
  { r with
    sender := { r.sender with sendSequence := r.sender.sendSequence + 1, sent := r.sender.sent ++ [msg] }
    log := r.log ++ [.again ptr msg], acks := 0 }

/-- `send_app_msg_wait_ack_timeout_cb`; `fd` is `g_fd`. The timer is started when a frame is cached and stopped before its
response is freed, so there is a frame to send; without one nothing happens here. -/
def timeoutCb (r : Resender) (fd : Byte) : Resender :=
  if fd ≠ 0 ∧ r.sender.rspList ≠ [] then
    if r.retryCount ≤ 3 then
      match r.cachedBuffer with
      | none => r
      | some ptr => { r with retryCount := r.retryCount + 1 }.resendAppMsg ptr
    else { r with sender := { r.sender with rspList := [] }, cachedBuffer := none, retryCount := 0 }
  else r

/-- `send_ack`. -/
def sendAck (aes : Aes) (r : Resender) (privKey : List Byte) (payload : Byte) (heap : Bool) : Resender :=
  { r with
    sender := { r.sender with sendSequence := r.sender.sendSequence + 1 }.buildCmdRsp aes privKey Command.ackToApp 0
      [payload] heap
    acks := r.acks + 1 }

/-- The first response is through: it is taken off the list and freed. -/
def next (r : Resender) : Resender :=
  { r with sender := { r.sender with rspList := r.sender.rspList.tail }, cachedBuffer := none, retryCount := 0 }

end Resender

inductive Step where
  | build (privKey : List Byte) (opcode flag : Byte) (ptr : List Byte) (heap : Bool)
  | send (mre : Bool) (seqno : Byte) (payload : Payload)
  | next
  | ack (privKey : List Byte) (payload : Byte) (heap : Bool)
  | timeout (fd : Byte)

def step (aes : Aes) (r : Resender) : Step → Resender
  | .build privKey opcode flag ptr heap =>
    { r with sender := r.sender.buildCmdRsp aes privKey opcode flag ptr heap }
  | .send mre seqno payload => r.send mre seqno payload
  | .next => r.next
  | .ack privKey payload heap => r.sendAck aes privKey payload heap
  | .timeout fd => r.timeoutCb fd

/-! ## The callers of `send_app_msg` -/

section Callers

variable {r : Resender} {n : Nat} {rsp : Msg} {rest : List Msg}

theorem setMre_same (flag : Byte) : ∃ mre, setMre mre flag = flag := by
  by_cases h : flag &&& mreFlag = 0
  · exact ⟨false, clear_mre h⟩
  · exact ⟨true, set_mre_of_ne h⟩

theorem sendFirst_send (hlist : r.sender.rspList = rsp :: rest) {left : Nat} (hleft : left ≤ rsp.totalLen - rsp.offset)
    (hbuffer : rsp.totalLen ≤ rsp.buffer.length) (hle : left ≤ 250) (mre : Bool) :
    ∃ payload, r.sender.sendFirst n rsp rest left (setMre mre rsp.flag)
      = (r.send mre (seqnoAt n rsp.offset) payload).sender := by
  have hlen : ((rsp.buffer.drop rsp.offset).take left).length = left := by simp; omega
  refine ⟨⟨_, Nat.le_trans (Nat.le_of_eq hlen) hle⟩, ?_⟩
  simp only [Resender.send, hlist, Sender.sendFirst, hlen]

theorem checkSendingListAndSend_send (hn : n ≤ 250) (hlist : r.sender.rspList = rsp :: rest)
    (hbuffer : rsp.totalLen ≤ rsp.buffer.length) : ∃ mre payload, (r.sender.checkSendingListAndSend n).1
      = { (r.send mre (seqnoAt n rsp.offset) payload).sender with sendingPending := true } := by
  simp only [Sender.checkSendingListAndSend, hlist]
  split
  · rename_i hmore
    obtain ⟨payload, hsend⟩ := sendFirst_send hlist (Nat.le_of_lt hmore) hbuffer hn true
    exact ⟨true, payload, congrArg (fun s : Sender => { s with sendingPending := true }) hsend⟩
  · rename_i hmore
    obtain ⟨mre, hmre⟩ := setMre_same rsp.flag
    obtain ⟨payload, hsend⟩ := sendFirst_send hlist (Nat.le_refl _) hbuffer (by omega) mre
    rw [hmre] at hsend
    exact ⟨mre, payload, congrArg (fun s : Sender => { s with sendingPending := true }) hsend⟩

theorem processFirst_send (hn : n ≤ 250) (hlist : r.sender.rspList = rsp :: rest)
    (hbuffer : rsp.totalLen ≤ rsp.buffer.length) (hoffset : rsp.offset < rsp.totalLen) : ∃ mre payload,
    (r.sender.processFirst n rsp rest).1 = (r.send mre (seqnoAt n rsp.offset) payload).sender := by
  have hmod : (rsp.totalLen - rsp.offset) % 256 ≤ rsp.totalLen - rsp.offset := Nat.mod_le _ _
  simp only [Sender.processFirst, if_neg (Nat.not_le.mpr hoffset)]
  split
  · rename_i hmore
    obtain ⟨mre, hmre⟩ := setMre_same rsp.flag
    obtain ⟨payload, hsend⟩ := sendFirst_send (n := n) hlist (by omega) hbuffer hn mre
    rw [hmre] at hsend
    exact ⟨mre, payload, hsend⟩
  · obtain ⟨payload, hsend⟩ := sendFirst_send hlist hmod hbuffer (by omega) false
    exact ⟨false, payload, hsend⟩

/-- A response that is through is taken off before the next one is sent. -/
theorem processFirst_next (hlist : r.sender.rspList = rsp :: rest) (hoffset : rsp.totalLen ≤ rsp.offset) :
    r.sender.processFirst n rsp rest = r.next.sender.checkSendingListAndSend n := by
  simp only [Sender.processFirst, if_pos hoffset, Resender.next, hlist, List.tail_cons]

/-- The callers make the steps `send` and `next`, with the sequence byte and the part of the first response that is due. -/
theorem callers_step (aes : Aes) (hn : n ≤ 250) (hlist : r.sender.rspList = rsp :: rest)
    (hbuffer : rsp.totalLen ≤ rsp.buffer.length) :
    (∃ mre payload, (r.sender.checkSendingListAndSend n).1
      = { (step aes r (.send mre (seqnoAt n rsp.offset) payload)).sender with sendingPending := true }) ∧
    (rsp.offset < rsp.totalLen → ∃ mre payload, (r.sender.processFirst n rsp rest).1
      = (step aes r (.send mre (seqnoAt n rsp.offset) payload)).sender) ∧
    (rsp.totalLen ≤ rsp.offset → r.sender.processFirst n rsp rest
      = (step aes r .next).sender.checkSendingListAndSend n) :=
  ⟨checkSendingListAndSend_send hn hlist hbuffer, processFirst_send hn hlist hbuffer, processFirst_next hlist⟩

end Callers

/-! ## Valid frames -/

/-- The last byte is the CRC of all the others. -/
def EndsWithCrc (msg : List Byte) : Prop := ∃ bs, msg = bs ++ [getCrc8 bs]

/-- The sequence byte. -/
def sequenceOf (msg : List Byte) : Byte := msg.getD 1 0

/-- Two frames that differ at most in the sequence byte and the last byte. -/
def SameBut (msg msg' : List Byte) : Prop :=
  msg'.length = msg.length ∧ ∀ i, i ≠ 1 → i + 1 ≠ msg.length → msg'[i]? = msg[i]?

/-- What the receiver asks of the frames: the CRC, the sequence, and that a frame sent again is one that was sent. -/
structure FramesValid (log : List Sent) : Prop where
  crc : ∀ x ∈ log, EndsWithCrc x.msg
  sequence : log.IsChain fun x y => sequenceOf y.msg = sequenceOf x.msg + 1
  again : ∀ pre ptr msg post, log = pre ++ .again ptr msg :: post → .first ptr ∈ pre ∧ SameBut ptr msg

/-- A step that sends a frame is made with no `send_ack` since the frame before, or a multiple of 256 of them; and a frame
is sent again only if its number has come round. -/
def Ok (r : Resender) : Step → Prop
  | .send _ _ _ => r.sender.rspList ≠ [] → r.log ≠ [] → r.acks % 256 = 0
  | .timeout fd => fd ≠ 0 → r.sender.rspList ≠ [] → r.retryCount ≤ 3 → ∀ ptr, r.cachedBuffer = some ptr →
      r.acks % 256 = 0 ∧ sequenceOf ptr = r.sender.sendSequence
  | _ => True

/-! ## The CRC of one byte changed -/

/-- The shift register behind the table. -/
def crc8Shift (x : Byte) : Byte := if x &&& 1 = 0 then x >>> 1 else (x >>> 1) ^^^ 0xE0

theorem crc8Shift_eq (x : Byte) : crc8Shift x = CrcBits.shift 0xE0#8 x := by
  have hlow : x &&& 1#8 = (BitVec.ofBool (x.getLsbD 0)).setWidth 8 := BitVec.and_one_eq_setWidth_ofBool_getLsbD
  unfold crc8Shift CrcBits.shift
  cases h : x.getLsbD 0 with
  | false =>
    rw [h] at hlow
    have hzero : x &&& 1 = 0 := hlow
    rw [if_pos hzero, if_neg (by simp)]
  | true =>
    rw [h] at hlow
    have hone : ¬ x &&& 1 = 0 := fun h0 => absurd (hlow.symm.trans h0) (by decide)
    rw [if_neg hone, if_pos rfl]
    rfl

theorem crc8Shift_injective : Function.Injective crc8Shift := by
  rw [show crc8Shift = CrcBits.shift 0xE0#8 from funext crc8Shift_eq]
  exact CrcBits.shift_injective (by decide)

theorem crc8Tbl_get (a : Byte) : crc8Tbl.getD a.toNat 0 = crc8Shift^[8] a := by
  rw [show crc8Shift = CrcBits.shift 0xE0#8 from funext crc8Shift_eq]
  exact Utils.crc8Tbl_shifts a

theorem crc8Tbl_inj {a b : Byte} (h : crc8Tbl.getD a.toNat 0 = crc8Tbl.getD b.toNat 0) : a = b := by
  rw [crc8Tbl_get, crc8Tbl_get] at h
  exact crc8Shift_injective.iterate 8 h

/-- The CRC after some more bytes, from a value of the register. -/
theorem foldl_crc8_inj {bs : List Byte} {a b : Byte}
    (h : bs.foldl (fun crc8 data => crc8Tbl.getD (crc8 ^^^ data).toNat 0) a
      = bs.foldl (fun crc8 data => crc8Tbl.getD (crc8 ^^^ data).toNat 0) b) : a = b := by
  induction bs generalizing a b with
  | nil => exact h
  | cons d bs ih => exact (BitVec.xor_left_inj d).mp (crc8Tbl_inj (ih h))

theorem getCrc8_set (pre : List Byte) {post : List Byte} {a b : Byte} :
    getCrc8 (pre ++ a :: post) = getCrc8 (pre ++ b :: post) ↔ a = b := by
  constructor
  · intro h
    simp only [getCrc8, List.foldl_append, List.foldl_cons] at h
    exact (BitVec.xor_right_inj _).mp (crc8Tbl_inj (foldl_crc8_inj h))
  · rintro rfl
    rfl

/-! ## One frame more -/

theorem endsWithCrc_snoc {bs : List Byte} {crc8 : Byte} : EndsWithCrc (bs ++ [crc8]) ↔ crc8 = getCrc8 bs := by
  constructor
  · rintro ⟨cs, h⟩
    obtain ⟨rfl, hcrc⟩ := List.append_inj' h rfl
    exact List.singleton_inj.mp hcrc
  · rintro rfl
    exact ⟨bs, rfl⟩

theorem framesValid_snoc {log : List Sent} {x : Sent} : FramesValid (log ++ [x]) ↔
    FramesValid log ∧ EndsWithCrc x.msg ∧ (∀ y, log.getLast? = some y → sequenceOf x.msg = sequenceOf y.msg + 1) ∧
      ∀ ptr msg, x = .again ptr msg → .first ptr ∈ log ∧ SameBut ptr msg := by
  constructor
  · intro h
    obtain ⟨hlog, -, hlast⟩ := List.isChain_append.mp h.sequence
    refine ⟨⟨fun y hy => h.crc y (by simp [hy]), hlog, fun pre ptr msg post hm => ?_⟩, h.crc x (by simp),
      fun y hy => hlast y hy x rfl, fun ptr msg hx => ?_⟩
    · exact h.again pre ptr msg (post ++ [x]) (by simp [hm])
    · exact h.again log ptr msg [] (by rw [hx])
  · rintro ⟨h, hcrc, hlast, hagain⟩
    refine ⟨?_, List.isChain_append.mpr ⟨h.sequence, List.isChain_singleton x, fun y hy z hz => ?_⟩, ?_⟩
    · exact List.forall_mem_append.mpr ⟨h.crc, List.forall_mem_singleton.mpr hcrc⟩
    · obtain rfl := Option.some.inj hz
      exact hlast y hy
    · intro pre ptr msg post hm
      induction post using List.reverseRecOn with
      | nil =>
        obtain ⟨rfl, hx⟩ := List.append_inj' hm rfl
        exact hagain ptr msg (List.singleton_inj.mp hx)
      | append_singleton post y =>
        rw [← List.cons_append, ← List.append_assoc] at hm
        exact h.again pre ptr msg post (List.append_inj' hm rfl).1

/-- A frame as the receiver takes it apart: two bytes and more before the CRC. -/
def framed (opcode sequence : Byte) (rest : List Byte) : List Byte :=
  opcode :: sequence :: rest ++ [getCrc8 (opcode :: sequence :: rest)]

/-- The frame that `resend_app_msg` makes of one with the sequence number `sequence`. -/
theorem resend_msg (opcode sequence sequence' : Byte) (rest : List Byte) :
    ((framed opcode sequence rest).set 1 sequence').set ((framed opcode sequence rest).length - 1)
        (getCrc8 ((framed opcode sequence rest).take ((framed opcode sequence rest).length - 1)))
      = opcode :: sequence' :: rest ++ [getCrc8 (opcode :: sequence :: rest)] := by
  have hlen : (framed opcode sequence rest).length - 1 = (opcode :: sequence :: rest).length := by simp [framed]
  have htake : (framed opcode sequence rest).take (opcode :: sequence :: rest).length = opcode :: sequence :: rest :=
    List.take_left
  rw [hlen, htake]
  simp [framed]

theorem sameBut_framed (opcode sequence sequence' crc8 : Byte) (rest : List Byte) :
    SameBut (framed opcode sequence rest) (opcode :: sequence' :: rest ++ [crc8]) := by
  refine ⟨by simp [framed], fun i hi hlast => ?_⟩
  simp only [framed, List.length_append, List.length_cons, List.length_nil] at hlast
  rcases i with - | - | i
  · rfl
  · exact absurd rfl hi
  · simp only [framed, List.cons_append, List.getElem?_cons_succ]
    by_cases hlt : i < rest.length
    · rw [List.getElem?_append_left hlt, List.getElem?_append_left hlt]
    · rw [List.getElem?_eq_none (by simp; omega), List.getElem?_eq_none (by simp; omega)]

/-- A counter `n` behind the next number is at it when `n` is a multiple of 256. -/
theorem add_ofNat_eq (q : Byte) (n : Nat) : q + 1 + BitVec.ofNat 8 n = q + 1 ↔ n % 256 = 0 := by
  constructor
  · intro h
    have h0 : BitVec.ofNat 8 n = 0 := by simpa using h
    simpa using congrArg BitVec.toNat h0
  · intro h
    have h0 : BitVec.ofNat 8 n = 0 := BitVec.eq_of_toNat_eq (by simpa using h)
    simp [h0]

/-! ## Runs -/

/-- A frame is in the cached buffer only of a response with the ACK flag, and was sent; and the counter is behind the last
frame by one and the calls of `send_ack`. -/
structure Inv (r : Resender) : Prop where
  acked : ∀ ptr, r.cachedBuffer = some ptr → ∃ rsp, r.sender.rspList.head? = some rsp ∧ rsp.flag &&& ackFlag ≠ 0
  cached : ∀ ptr, r.cachedBuffer = some ptr → .first ptr ∈ r.log ∧ ∃ opcode sequence rest, ptr = framed opcode sequence rest
  sequence : ∀ x, r.log.getLast? = some x → r.sender.sendSequence = sequenceOf x.msg + 1 + BitVec.ofNat 8 r.acks
  sent : r.sender.sent = r.log.map Sent.msg

theorem init_inv (sendSequence : Byte) : Inv (Resender.init sendSequence) :=
  ⟨by simp [Resender.init], by simp [Resender.init], by simp [Resender.init], rfl⟩

theorem head?_buildCmdRsp {s : Sender} {aes : Aes} {privKey ptr : List Byte} {opcode flag : Byte} {heap : Bool} {rsp : Msg}
    (h : s.rspList.head? = some rsp) : (s.buildCmdRsp aes privKey opcode flag ptr heap).rspList.head? = some rsp := by
  obtain ⟨rest, hrest⟩ := List.head?_eq_some_iff.mp h
  cases heap <;> simp [Sender.buildCmdRsp, hrest]

theorem buildCmdRsp_sent (s : Sender) (aes : Aes) (privKey ptr : List Byte) (opcode flag : Byte) (heap : Bool) :
    (s.buildCmdRsp aes privKey opcode flag ptr heap).sent = s.sent ∧
    (s.buildCmdRsp aes privKey opcode flag ptr heap).sendSequence = s.sendSequence := by
  cases heap <;> exact ⟨rfl, rfl⟩

section Step

variable {aes : Aes} {r : Resender}

/-- A frame with the sequence number of the counter follows the last one if no `send_ack` came between. -/
theorem Inv.follows (h : Inv r) : (∀ y, r.log.getLast? = some y → r.sender.sendSequence = sequenceOf y.msg + 1) ↔
    (r.log ≠ [] → r.acks % 256 = 0) := by
  constructor
  · intro hall hne
    have hy := List.getLast?_eq_some_getLast hne
    exact (add_ofNat_eq _ _).mp ((h.sequence _ hy).symm.trans (hall _ hy))
  · intro hall y hy
    have hne : r.log ≠ [] := by
      rintro hnil
      simp [hnil] at hy
    exact (h.sequence y hy).trans ((add_ofNat_eq _ _).mpr (hall hne))

theorem build_inv (h : Inv r) (privKey ptr : List Byte) (opcode flag : Byte) (heap : Bool) :
    Inv (step aes r (.build privKey opcode flag ptr heap)) := by
  obtain ⟨hsent, hseq⟩ := buildCmdRsp_sent r.sender aes privKey ptr opcode flag heap
  refine ⟨fun ptr hptr => ?_, h.cached, fun x hx => hseq.trans (h.sequence x hx), hsent.trans h.sent⟩
  obtain ⟨rsp, hrsp, hack⟩ := h.acked ptr hptr
  exact ⟨rsp, head?_buildCmdRsp hrsp, hack⟩

theorem next_inv (h : Inv r) : Inv r.next :=
  ⟨by simp [Resender.next], by simp [Resender.next], h.sequence, h.sent⟩

theorem sendAck_inv (h : Inv r) (privKey : List Byte) (payload : Byte) (heap : Bool) :
    Inv (r.sendAck aes privKey payload heap) := by
  obtain ⟨hsent, hseq⟩ := buildCmdRsp_sent { r.sender with sendSequence := r.sender.sendSequence + 1 } aes privKey [payload]
    Command.ackToApp 0 heap
  refine ⟨fun ptr hptr => ?_, h.cached, fun x hx => hseq.trans ?_, hsent.trans h.sent⟩
  · obtain ⟨rsp, hrsp, hack⟩ := h.acked ptr hptr
    exact ⟨rsp, head?_buildCmdRsp hrsp, hack⟩
  · show r.sender.sendSequence + 1 = sequenceOf x.msg + 1 + BitVec.ofNat 8 (r.acks + 1)
    rw [h.sequence x hx, BitVec.ofNat_add, ← BitVec.add_assoc]
    rfl

theorem setMre_ack (mre : Bool) (flag : Byte) : setMre mre flag &&& ackFlag = flag &&& ackFlag := by
  have hset : ∀ f : Byte, (f ||| mreFlag) &&& ackFlag = f &&& ackFlag := by decide
  have hclear : ∀ f : Byte, (f &&& ~~~ mreFlag) &&& ackFlag = f &&& ackFlag := by decide
  cases mre with
  | false => exact hclear flag
  | true => exact hset flag

theorem send_inv (h : Inv r) (mre : Bool) (seqno : Byte) (payload : Payload) : Inv (r.send mre seqno payload) := by
  cases hlist : r.sender.rspList with
  | nil =>
    simp only [Resender.send, hlist]
    exact h
  | cons rsp rest =>
    simp only [Resender.send, hlist]
    refine ⟨fun ptr hptr => ⟨_, rfl, ?_⟩, fun ptr hptr => ?_, fun x hx => ?_, ?_⟩
    · show setMre mre rsp.flag &&& ackFlag ≠ 0
      by_cases hack : setMre mre rsp.flag &&& ackFlag ≠ 0
      · exact hack
      · rw [if_neg hack] at hptr
        obtain ⟨rsp', hrsp', hack'⟩ := h.acked ptr hptr
        simp only [hlist, List.head?_cons, Option.some.injEq] at hrsp'
        rw [setMre_ack, hrsp']
        exact hack'
    · split at hptr
      · obtain rfl := Option.some.inj hptr
        exact ⟨by simp, rsp.opcode, _, _, rfl⟩
      · obtain ⟨hfirst, hframed⟩ := h.cached ptr hptr
        exact ⟨by simp [hfirst], hframed⟩
    · rw [List.getLast?_concat, Option.some.injEq] at hx
      subst hx
      show r.sender.sendSequence + 1 = r.sender.sendSequence + 1 + BitVec.ofNat 8 0
      simp
    · simp [Sender.sendAppMsg, h.sent, Sent.msg]

theorem send_valid (h : Inv r) (mre : Bool) (seqno : Byte) (payload : Payload) :
    FramesValid (r.send mre seqno payload).log ↔ FramesValid r.log ∧ Ok r (.send mre seqno payload) := by
  cases hlist : r.sender.rspList with
  | nil =>
    simp only [Resender.send, Ok, hlist]
    simp
  | cons rsp rest =>
    simp only [Resender.send, Ok, hlist]
    rw [framesValid_snoc]
    refine and_congr_right fun _ => ?_
    have hcrc : EndsWithCrc (frame rsp.opcode r.sender.sendSequence (setMre mre rsp.flag) seqno payload) := ⟨_, rfl⟩
    have hne : rsp :: rest ≠ [] := List.cons_ne_nil rsp rest
    constructor
    · rintro ⟨-, hlast, -⟩ -
      exact h.follows.mp hlast
    · intro hok
      refine ⟨hcrc, h.follows.mpr (hok hne), fun ptr msg hx => ?_⟩
      cases hx

theorem resendAppMsg_inv (h : Inv r) {ptr : List Byte} (hptr : r.cachedBuffer = some ptr) : Inv (r.resendAppMsg ptr) := by
  obtain ⟨hfirst, opcode, sequence, rest, rfl⟩ := h.cached ptr hptr
  simp only [Resender.resendAppMsg, resend_msg]
  refine ⟨h.acked, fun p hp => ?_, fun x hx => ?_, by simp [h.sent, Sent.msg]⟩
  · obtain ⟨hfirst, hframed⟩ := h.cached p hp
    exact ⟨by simp [hfirst], hframed⟩
  · rw [List.getLast?_concat, Option.some.injEq] at hx
    subst hx
    show r.sender.sendSequence + 1 = r.sender.sendSequence + 1 + BitVec.ofNat 8 0
    simp

theorem resendAppMsg_valid (h : Inv r) {ptr : List Byte} (hptr : r.cachedBuffer = some ptr) :
    FramesValid (r.resendAppMsg ptr).log ↔
      FramesValid r.log ∧ r.acks % 256 = 0 ∧ sequenceOf ptr = r.sender.sendSequence := by
  obtain ⟨hfirst, opcode, sequence, rest, rfl⟩ := h.cached ptr hptr
  have hne : r.log ≠ [] := List.ne_nil_of_mem hfirst
  simp only [Resender.resendAppMsg, resend_msg]
  rw [framesValid_snoc]
  refine and_congr_right fun _ => ?_
  have hcrc : EndsWithCrc (opcode :: r.sender.sendSequence :: rest ++ [getCrc8 (opcode :: sequence :: rest)]) ↔
      sequence = r.sender.sendSequence := by
    rw [endsWithCrc_snoc]
    exact getCrc8_set [opcode]
  constructor
  · rintro ⟨hend, hlast, -⟩
    exact ⟨h.follows.mp hlast hne, hcrc.mp hend⟩
  · rintro ⟨hacks, hseq⟩
    refine ⟨hcrc.mpr hseq, h.follows.mpr fun _ => hacks, fun p msg hx => ?_⟩
    cases hx
    exact ⟨hfirst, sameBut_framed ..⟩

theorem Inv.retried (h : Inv r) (n : Nat) : Inv { r with retryCount := n } := ⟨h.acked, h.cached, h.sequence, h.sent⟩

theorem timeoutCb_inv (h : Inv r) (fd : Byte) : Inv (r.timeoutCb fd) := by
  unfold Resender.timeoutCb
  split
  · split
    · split
      · exact h
      · rename_i ptr hptr
        exact resendAppMsg_inv (h.retried (r.retryCount + 1)) hptr
    · exact ⟨by simp, by simp, h.sequence, h.sent⟩
  · exact h

theorem timeoutCb_valid (h : Inv r) (fd : Byte) :
    FramesValid (r.timeoutCb fd).log ↔ FramesValid r.log ∧ Ok r (.timeout fd) := by
  unfold Resender.timeoutCb
  split
  · rename_i hlist
    split
    · rename_i hretry
      split
      · rename_i hnone
        simp [Ok, hnone]
      · rename_i ptr hptr
        refine (resendAppMsg_valid (h.retried (r.retryCount + 1)) hptr).trans (and_congr_right fun _ => ?_)
        constructor
        · rintro hok - - - p hp
          obtain rfl := Option.some.inj (hptr.symm.trans hp)
          exact hok
        · intro hok
          exact hok hlist.1 hlist.2 hretry ptr hptr
    · rename_i hretry
      exact (and_iff_left fun _ _ hle => absurd hle hretry).symm
  · rename_i hlist
    exact (and_iff_left fun hfd hne => absurd ⟨hfd, hne⟩ hlist).symm

theorem step_inv (h : Inv r) (c : Step) : Inv (step aes r c) := by
  cases c with
  | build privKey opcode flag ptr heap => exact build_inv h privKey ptr opcode flag heap
  | send mre seqno payload => exact send_inv h mre seqno payload
  | next => exact next_inv h
  | ack privKey payload heap => exact sendAck_inv h privKey payload heap
  | timeout fd => exact timeoutCb_inv h fd

theorem step_valid (h : Inv r) (c : Step) : FramesValid (step aes r c).log ↔ FramesValid r.log ∧ Ok r c := by
  cases c with
  | build privKey opcode flag ptr heap => exact (and_iff_left trivial).symm
  | send mre seqno payload => exact send_valid h mre seqno payload
  | next => exact (and_iff_left trivial).symm
  | ack privKey payload heap => exact (and_iff_left trivial).symm
  | timeout fd => exact timeoutCb_valid h fd

end Step

theorem runs_valid {aes : Aes} {r : Resender} (h : Inv r) (cs : List Step) :
    FramesValid (runs (step aes) r cs).log ↔ FramesValid r.log ∧ ∀ p ∈ trace (step aes) r cs, Ok p.1 p.2 := by
  induction cs generalizing r with
  | nil => simp [trace]
  | cons c cs ih => rw [runs_cons, ih (step_inv h c), step_valid h c, trace, List.forall_mem_cons, and_assoc]

theorem runs_init_inv (aes : Aes) (sendSequence : Byte) (cs : List Step) :
    Inv (runs (step aes) (Resender.init sendSequence) cs) :=
  runs_inv Inv (fun _ _ => True) (fun _ c _ h => step_inv h c) (fun _ _ => trivial) (init_inv sendSequence)

/-- The frames that a run sends are all valid just when no `send_ack` is made between two of them, up to multiples of 256,
and none is sent again before its number has come round. -/
theorem framesValid_iff (aes : Aes) (sendSequence : Byte) (cs : List Step) :
    let r := runs (step aes) (Resender.init sendSequence) cs
    r.sender.sent = r.log.map Sent.msg ∧
    (FramesValid r.log ↔ ∀ p ∈ trace (step aes) (Resender.init sendSequence) cs, Ok p.1 p.2) := by
  intro r
  have hinv : Inv r := runs_init_inv aes sendSequence cs
  have hnil : FramesValid (Resender.init sendSequence).log := ⟨by simp [Resender.init], .nil, by simp [Resender.init]⟩
  exact ⟨hinv.sent, (runs_valid (init_inv sendSequence) cs).trans (and_iff_right hnil)⟩

/-- A payload of one byte. -/
def oneByte (b : Byte) : Payload := ⟨[b], Nat.succ_le_succ (Nat.zero_le 249)⟩

/-- A frame with the ACK flag is sent. -/
def oneFrame : List Step := [.build [] 0x8A ackFlag [0x81] true, .send false 0 (oneByte 0x81)]

/-- An acknowledgement is sent, and a second frame is acknowledged. -/
def twoAcks : List Step := [.ack [] 0 true, .send false 0 (oneByte 0x00), .ack [] 1 true, .next]

/-- The frame sent again has the CRC of its old number, and the second acknowledgement leaves a number out. -/
theorem frames_invalid :
    ¬ FramesValid (step plainAes (runs (step plainAes) (Resender.init 0) oneFrame) (.timeout 1)).log ∧
    ¬ FramesValid
      (step plainAes (runs (step plainAes) (Resender.init 0) twoAcks) (.send false 0 (oneByte 0x01))).log := by
  have hinv := runs_init_inv plainAes 0
  constructor
  · intro h
    have hok := ((step_valid (hinv oneFrame) _).mp h).2 (by decide) (List.cons_ne_nil _ _) (by decide) _ rfl
    exact absurd hok.2 (by decide)
  · intro h
    have hok := ((step_valid (hinv twoAcks) _).mp h).2 (List.cons_ne_nil _ _) (List.cons_ne_nil _ _)
    exact absurd hok (by decide)

end Resend
end BleWifi
end Air101

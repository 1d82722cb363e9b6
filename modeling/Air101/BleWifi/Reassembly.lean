import Air101.BleWifi.Command

/-!
# BleWifi.Reassembly

Commands that arrive in fragments. The buffer is allocated anew for every fragment. Its first byte is the opcode, and
`total_len` counts it.

* `Holds`: what the assembler holds after some fragments of a command.
* `write_first`, `write_next`: what a fragment adds.
* `reassembly`: the fragments of a command make one call of `app_cmd_process`, with the command.
-/

namespace Air101
namespace BleWifi
namespace Command

open Storage

/-- A fragment as it is sent, and what its write finds. -/
structure Part where
  flag : Byte
  payload : List Byte
  env : Env

/-- The frames of consecutive fragments, from a sequence number and a fragment number on. -/
def frames (opcode : Byte) : (sequence : Byte) → (seqno : Nat) → List Part → List (List Byte × Env)
  | _, _, [] => []
  | sequence, seqno, p :: ps =>
    (frame opcode sequence p.flag (BitVec.ofNat 8 seqno) p.payload, p.env) :: frames opcode (sequence + 1) (seqno + 1) ps

/-- Writes one after the other, with their results. -/
def State.writeAll (aes : Aes) (s : State) : List (List Byte × Env) → State × List Rc
  | [] => (s, [])
  | (ptr, env) :: ws =>
    let (s, rc) := s.writeCb aes 0 ptr false env
    let (s, rcs) := State.writeAll aes s ws
    (s, rc :: rcs)

theorem writeAll_append (aes : Aes) (s : State) (ws vs : List (List Byte × Env)) :
    s.writeAll aes (ws ++ vs) =
      (((s.writeAll aes ws).1.writeAll aes vs).1, (s.writeAll aes ws).2 ++ ((s.writeAll aes ws).1.writeAll aes vs).2) := by
  induction ws generalizing s with
  | nil => rfl
  | cons w ws ih => simp only [List.cons_append, State.writeAll, ih]

theorem writeAll_singleton (aes : Aes) (s : State) (ptr : List Byte) (env : Env) :
    s.writeAll aes [(ptr, env)] = ((s.writeCb aes 0 ptr false env).1, [(s.writeCb aes 0 ptr false env).2]) := rfl

theorem frames_singleton (opcode sequence : Byte) (seqno : Nat) (p : Part) :
    frames opcode sequence seqno [p] = [(frame opcode sequence p.flag (BitVec.ofNat 8 seqno) p.payload, p.env)] := rfl

theorem frames_append (opcode sequence : Byte) (seqno : Nat) (ps qs : List Part) :
    frames opcode sequence seqno (ps ++ qs) =
      frames opcode sequence seqno ps ++ frames opcode (sequence + BitVec.ofNat 8 ps.length) (seqno + ps.length) qs := by
  induction ps generalizing sequence seqno with
  | nil => simp [frames]
  | cons p ps ih =>
    have hseq : sequence + 1 + BitVec.ofNat 8 ps.length = sequence + BitVec.ofNat 8 (ps.length + 1) := by
      rw [BitVec.ofNat_add, BitVec.add_assoc, BitVec.add_comm 1]
      rfl
    rw [List.cons_append, frames, ih, frames, List.cons_append, List.length_cons, hseq, Nat.add_assoc,
      Nat.add_comm 1]

section Reassembly

variable {aes : Aes} {s base : State} {opcode flag : Byte} {payload got : List Byte} {env : Env} {k : Nat}

theorem length_frame (opcode sequence flag seqno : Byte) (payload : List Byte) :
    (frame opcode sequence flag seqno payload).length = payload.length + 5 := by
  simp [frame]

theorem framePayload_frame (opcode sequence flag seqno : Byte) (payload : List Byte) :
    framePayload (frame opcode sequence flag seqno payload) = payload := by
  simp [framePayload, length_frame]
  simp [frame]

theorem writeCb_frame (aes : Aes) (s : State) (env : Env) (hop : opcode ≠ ackFromApp) (flag seqno : Byte)
    (payload : List Byte) :
    ∃ s' : State, SameCmd { s with recvSequence := s.recvSequence + 1 } s' ∧ s'.privKey = s.privKey ∧
      s.writeCb aes 0 (frame opcode s.recvSequence flag seqno payload) false env =
        if seqno = 0 then
          if s'.pending then (s', .ebusy)
          else (s'.firstFragment (frame opcode s.recvSequence flag seqno payload) opcode flag env).dispatch aes flag env
        else (s'.nextFragment (frame opcode s.recvSequence flag seqno payload) opcode flag seqno env).dispatch aes flag env := by
  have hcrc : (frame opcode s.recvSequence flag seqno payload).getD
      ((frame opcode s.recvSequence flag seqno payload).length - 1) 0 =
      getCrc8 ((frame opcode s.recvSequence flag seqno payload).take
        ((frame opcode s.recvSequence flag seqno payload).length - 1)) := by
    rw [length_frame]
    simp [frame]
  have hhead : (frame opcode s.recvSequence flag seqno payload).getD 0 0 = opcode ∧
      (frame opcode s.recvSequence flag seqno payload).getD 1 0 = s.recvSequence ∧
      (frame opcode s.recvSequence flag seqno payload).getD 2 0 = flag ∧
      (frame opcode s.recvSequence flag seqno payload).getD 3 0 = seqno := ⟨rfl, rfl, rfl, rfl⟩
  obtain ⟨h0, h1, h2, h3⟩ := hhead
  obtain ⟨hsame, hkey⟩ := accept_same aes env (s.note [
    .read (frame opcode s.recvSequence flag seqno payload).length 0 1,
    .read (frame opcode s.recvSequence flag seqno payload).length 1 1,
    .read (frame opcode s.recvSequence flag seqno payload).length 2 1,
    .read (frame opcode s.recvSequence flag seqno payload).length 3 1])
    (frame opcode s.recvSequence flag seqno payload) s.recvSequence flag
  refine ⟨_, ⟨hsame.buffer, hsame.totalLen, hsame.pending, hsame.frags, hsame.calls, hsame.recvSequence⟩, hkey, ?_⟩
  simp only [State.writeCb, h0, h1, h2, h3, hcrc, hop, note_recvSequence, ne_eq, not_true_eq_false, or_self, if_false]

/-! ## The assembler -/

/-- After `k` fragments of a command, `got` is there, and `more` says whether more is expected. -/
structure Holds (base s : State) (k : Nat) (more : Bool) (opcode : Byte) (got : List Byte) : Prop where
  pending : s.pending = more
  buffer : s.buffer = some (opcode :: got)
  totalLen : s.totalLen = got.length + 1
  calls : s.calls = base.calls
  privKey : s.privKey = base.privKey
  recvSequence : s.recvSequence = base.recvSequence + BitVec.ofNat 8 k

theorem write_first (aes : Aes) (env : Env) (flag : Byte) (hop : opcode ≠ ackFromApp) (hp : s.pending = false)
    (hlen : payload.length < 65535) :
    ∃ s1, Holds s s1 1 (flag &&& mreFlag ≠ 0) opcode payload ∧
      s.writeCb aes 0 (frame opcode s.recvSequence flag 0 payload) false env = s1.dispatch aes flag env := by
  obtain ⟨s', hsame, hkey, hw⟩ := writeCb_frame aes s env hop flag 0 payload
  have hp' : s'.pending = false := hsame.pending.trans hp
  rw [if_pos rfl, hp', if_neg Bool.false_ne_true] at hw
  refine ⟨_, ?_, hw⟩
  have htotal : u16 ((frame opcode s.recvSequence flag 0 payload).length - 5 + 1) = payload.length + 1 := by
    rw [length_frame, u16]
    omega
  refine ⟨rfl, ?_, htotal, hsame.calls, hkey, hsame.recvSequence⟩
  show some (opcode :: framePayload _) = _
  rw [framePayload_frame]

theorem write_next (aes : Aes) (env : Env) (flag : Byte) (hop : opcode ≠ ackFromApp) (h : Holds base s k true opcode got)
    {seqno : Byte} (hseq : seqno ≠ 0) (hlen : got.length + payload.length < 65535) :
    ∃ s1, Holds base s1 (k + 1) (flag &&& mreFlag ≠ 0) opcode (got ++ payload) ∧
      s.writeCb aes 0 (frame opcode s.recvSequence flag seqno payload) false env = s1.dispatch aes flag env := by
  obtain ⟨s', hsame, hkey, hw⟩ := writeCb_frame aes s env hop flag seqno payload
  have htotal : s'.totalLen = got.length + 1 := hsame.totalLen.trans h.totalLen
  have hbuf : s'.buffer = some (opcode :: got) := hsame.buffer.trans h.buffer
  refine ⟨_, ?_, hw.trans (if_neg hseq)⟩
  refine ⟨?_, ?_, ?_, hsame.calls.trans h.calls, hkey.trans h.privKey, ?_⟩
  · show (if flag &&& mreFlag ≠ 0 then s'.pending else false) = _
    rw [hsame.pending, h.pending]
    by_cases hm : flag &&& mreFlag = 0
    · simp [hm]
    · simp
  · show some ((s'.buffer.getD []).take s'.totalLen ++ framePayload _) = _
    rw [hbuf, htotal, framePayload_frame]
    simp
  · show u16 (s'.totalLen + ((frame opcode s.recvSequence flag seqno payload).length - 5)) = (got ++ payload).length + 1
    rw [htotal, length_frame, List.length_append, u16]
    omega
  · have hadd : s.recvSequence + 1 = base.recvSequence + BitVec.ofNat 8 (k + 1) := by
      rw [h.recvSequence, BitVec.ofNat_add, BitVec.add_assoc]
      rfl
    exact hsame.recvSequence.trans hadd

/-! ## The command -/

/-- The assembler is idle, and one more command was processed. -/
structure Processed (base s : State) (k : Nat) (cmd : List Byte) : Prop where
  pending : s.pending = false
  buffer : s.buffer = none
  totalLen : s.totalLen = 0
  calls : s.calls.map Call.cmd = base.calls.map Call.cmd ++ [cmd]
  recvSequence : s.recvSequence = base.recvSequence + BitVec.ofNat 8 k

/-- What the fragments with the flags of the last are to say: the message itself, or encrypted. -/
def Says (aes : Aes) (privKey : List Byte) (flag : Byte) (payload msg : List Byte) : Prop :=
  if flag &&& encFlag = 0 then payload = msg else payload = aes.encrypt privKey (pkcs7Padding msg)

theorem process_processed (aes : Aes) (env : Env) {cmd : List Byte} (hcmd : (s.buffer.getD []).take s.totalLen = cmd)
    (hpending : s.pending = false) (hcalls : s.calls = base.calls)
    (hseq : s.recvSequence = base.recvSequence + BitVec.ofNat 8 k) :
    Processed base (s.process aes env).1 k cmd ∧ (s.process aes env).2 = .ok := by
  have hsame := appCmdProcess_same aes env s cmd
  simp only [State.process, hcmd]
  refine ⟨⟨hsame.pending.trans hpending, rfl, rfl, ?_, hsame.recvSequence.trans hseq⟩, trivial⟩
  show List.map Call.cmd (s.appCmdProcess aes env cmd).calls = _
  rw [hsame.calls, hcalls]
  simp

theorem btAesDecrypt_eq (h : Holds base s k false opcode (aes.encrypt base.privKey (pkcs7Padding payload)))
    (hheap : env.heap .decrypt = true) :
    ∃ s' : State, s.btAesDecrypt aes env (s.totalLen - 1) = (s', (payload.length : Int)) ∧
      s'.buffer = some (opcode :: pkcs7Padding payload) ∧ s'.pending = false ∧ s'.calls = base.calls ∧
      s'.recvSequence = base.recvSequence + BitVec.ofNat 8 k := by
  have hmod := length_pkcs7Padding_mod payload
  have htotal : ((s.totalLen : Int) - 1) = (pkcs7Padding payload).length := by
    rw [h.totalLen, aes.length_encrypt]
    omega
  have hplain : aes.decrypt base.privKey
      ((aes.encrypt base.privKey (pkcs7Padding payload)).take (pkcs7Padding payload).length) = pkcs7Padding payload := by
    rw [List.take_of_length_le (by rw [aes.length_encrypt]), aes.decrypt_encrypt _ _ hmod]
  have hdrop : (opcode :: aes.encrypt base.privKey (pkcs7Padding payload)).drop (1 + (pkcs7Padding payload).length) = [] :=
    List.drop_eq_nil_of_le (by rw [List.length_cons, aes.length_encrypt]; omega)
  have hpos : (pkcs7Padding payload).length = (pkcs7Padding payload).length - 1 + 1 := by
    rw [length_pkcs7Padding]
    omega
  have hlast : (opcode :: pkcs7Padding payload).getD (pkcs7Padding payload).length 0 =
      (pkcs7Padding payload).getD ((pkcs7Padding payload).length - 1) 0 := by
    conv_lhs => rw [hpos]
    rfl
  have hin : decryptIn aes base.privKey (opcode :: aes.encrypt base.privKey (pkcs7Padding payload))
      (pkcs7Padding payload).length = opcode :: pkcs7Padding payload := by
    rw [decryptIn, hdrop, List.append_nil, List.drop_succ_cons, List.drop_zero, hplain]
    rfl
  rw [htotal]
  simp only [State.btAesDecrypt, Int.toNat_natCast, hheap, if_true, note_buffer, note_privKey, h.buffer, h.privKey,
    Option.getD_some, hin, hlast, dePKCS7Padding_pkcs7Padding]
  rw [if_neg (by omega)]
  exact ⟨_, rfl, rfl, h.pending, h.calls, h.recvSequence⟩

theorem dispatch_last {msg : List Byte} (h : Holds base s k false opcode got) (hlen : got.length < 65535)
    (htells : Says aes base.privKey flag got msg) (hheap : env.heap .decrypt = true) :
    Processed base (s.dispatch aes flag env).1 k (opcode :: msg) ∧ (s.dispatch aes flag env).2 = .ok := by
  simp only [State.dispatch, h.pending, Bool.false_eq_true, if_false]
  by_cases hflag : flag &&& encFlag = 0
  · rw [Says, if_pos hflag] at htells
    subst htells
    rw [if_neg (not_not_intro hflag)]
    exact process_processed aes env (by rw [h.buffer, h.totalLen]; simp) h.pending h.calls h.recvSequence
  · rw [Says, if_neg hflag] at htells
    subst htells
    rw [aes.length_encrypt, length_pkcs7Padding] at hlen
    obtain ⟨s', hdec, hbuf, hpending, hcalls, hseq⟩ := btAesDecrypt_eq h hheap
    have htotal : u16 ((msg.length : Int) + 1) = msg.length + 1 := by
      rw [u16]
      omega
    simp only [hdec]
    rw [if_pos hflag, if_neg (by omega), htotal]
    refine process_processed aes env ?_ hpending hcalls hseq
    show (s'.buffer.getD []).take (msg.length + 1) = opcode :: msg
    rw [hbuf, Option.getD_some, List.take_succ_cons, take_pkcs7Padding]

theorem Holds.recvSequence_succ {s1 : State} {more more' : Bool} {got' : List Byte} (h : Holds base s k more opcode got)
    (h1 : Holds base s1 (k + 1) more' opcode got') : s.recvSequence + 1 = s1.recvSequence := by
  rw [h.recvSequence, h1.recvSequence, BitVec.ofNat_add, BitVec.add_assoc]
  rfl

theorem dispatch_more (h : Holds base s k true opcode got) : s.dispatch aes flag env = (s, .ok) := by
  rw [State.dispatch, if_pos h.pending]

theorem seqno_ne_zero {j : Nat} (h0 : 0 < j) (h : j < 256) : BitVec.ofNat 8 j ≠ 0 := by
  intro he
  have hnat := congrArg BitVec.toNat he
  rw [BitVec.toNat_ofNat, Nat.mod_eq_of_lt h] at hnat
  exact Nat.ne_of_gt h0 hnat

theorem writeAll_next (aes : Aes) (hop : opcode ≠ ackFromApp) {ps : List Part} {j : Nat} (h : Holds base s k true opcode got)
    (hj : 0 < j) (hj' : j + ps.length ≤ 256) (hlen : (got ++ ps.flatMap Part.payload).length < 65535)
    (hmre : ∀ p ∈ ps, p.flag &&& mreFlag ≠ 0) :
    Holds base (s.writeAll aes (frames opcode s.recvSequence j ps)).1 (k + ps.length) true opcode
      (got ++ ps.flatMap Part.payload) ∧
    (s.writeAll aes (frames opcode s.recvSequence j ps)).2 = List.replicate ps.length .ok := by
  induction ps generalizing s k got j with
  | nil =>
    simp only [List.flatMap_nil, List.append_nil, List.length_nil, Nat.add_zero]
    exact ⟨h, rfl⟩
  | cons p ps ih =>
    rw [List.length_cons] at hj'
    rw [List.flatMap_cons, ← List.append_assoc] at hlen
    have hshort : got.length + p.payload.length < 65535 := by
      rw [List.length_append, List.length_append] at hlen
      omega
    obtain ⟨s1, h1, hw⟩ := write_next aes p.env p.flag hop h (seqno_ne_zero hj (by omega)) hshort
    rw [decide_eq_true (hmre p List.mem_cons_self)] at h1
    rw [dispatch_more h1] at hw
    have hrest := ih h1 (Nat.succ_pos j) (by omega) hlen (fun q hq => hmre q (List.mem_cons_of_mem p hq))
    rw [← h.recvSequence_succ h1] at hrest
    simp only [frames, State.writeAll, hw]
    rw [List.flatMap_cons, ← List.append_assoc, List.length_cons, hrest.2, Nat.add_comm ps.length, ← Nat.add_assoc]
    refine ⟨hrest.1, ?_⟩
    rw [Nat.add_comm 1, List.replicate_succ]

theorem writeAll_init (aes : Aes) (hop : opcode ≠ ackFromApp) (hidle : s.pending = false) {p : Part} {ps : List Part}
    (hcount : (p :: ps).length ≤ 255) (hlen : ((p :: ps).flatMap Part.payload).length < 65535)
    (hmre : ∀ q ∈ p :: ps, q.flag &&& mreFlag ≠ 0) :
    Holds s (s.writeAll aes (frames opcode s.recvSequence 0 (p :: ps))).1 (p :: ps).length true opcode
      ((p :: ps).flatMap Part.payload) ∧
    (s.writeAll aes (frames opcode s.recvSequence 0 (p :: ps))).2 = List.replicate (p :: ps).length .ok := by
  rw [List.length_cons] at hcount
  rw [List.flatMap_cons] at hlen
  have hshort : p.payload.length < 65535 := by
    rw [List.length_append] at hlen
    omega
  obtain ⟨s1, h1, hw⟩ := write_first aes p.env p.flag hop hidle hshort
  rw [decide_eq_true (hmre p List.mem_cons_self)] at h1
  rw [dispatch_more h1] at hw
  have hrest := writeAll_next aes hop h1 Nat.one_pos (by omega) hlen (fun q hq => hmre q (List.mem_cons_of_mem p hq))
  have hseq : s1.recvSequence = s.recvSequence + 1 := h1.recvSequence
  rw [hseq] at hrest
  simp only [frames, State.writeAll]
  rw [show BitVec.ofNat 8 0 = 0 from rfl, hw, List.flatMap_cons, List.length_cons, Nat.add_comm ps.length, Nat.zero_add,
    hrest.2]
  refine ⟨hrest.1, ?_⟩
  rw [Nat.add_comm 1, List.replicate_succ]

/-- The fragments of a command, each with the number and the sequence number that follow those of the one before, are all
accepted. `app_cmd_process` is called once, after the last, with the command, and the assembler is idle again. -/
theorem reassembly (aes : Aes) (s : State) (opcode : Byte) (init : List Part) (last : Part) (msg : List Byte)
    (hidle : s.pending = false) (hop : opcode ≠ ackFromApp) (hcount : init.length ≤ 255)
    (hlen : ((init ++ [last]).flatMap Part.payload).length < 65535) (hmre : ∀ p ∈ init, p.flag &&& mreFlag ≠ 0)
    (hlast : last.flag &&& mreFlag = 0)
    (htells : Says aes s.privKey last.flag ((init ++ [last]).flatMap Part.payload) msg)
    (hheap : ∀ p ∈ init ++ [last], ∀ site, p.env.heap site = true) :
    (s.writeAll aes (frames opcode s.recvSequence 0 (init ++ [last]))).2 = List.replicate (init.length + 1) .ok ∧
    (s.writeAll aes (frames opcode s.recvSequence 0 init)).1.calls = s.calls ∧
    Processed s (s.writeAll aes (frames opcode s.recvSequence 0 (init ++ [last]))).1 (init.length + 1) (opcode :: msg) := by
  have hdec : last.env.heap .decrypt = true := hheap last (by simp) .decrypt
  rw [List.flatMap_append, List.flatMap_singleton] at hlen htells
  rw [frames_append, writeAll_append, Nat.zero_add, frames_singleton, writeAll_singleton]
  cases init with
  | nil =>
    rw [List.flatMap_nil, List.nil_append] at hlen htells
    obtain ⟨s1, h1, hw⟩ := write_first aes last.env last.flag hop hidle hlen
    rw [decide_eq_false (not_not_intro hlast)] at h1
    obtain ⟨hproc, hrc⟩ := dispatch_last h1 hlen htells hdec
    rw [← hw] at hproc hrc
    have hseq : s.recvSequence + BitVec.ofNat 8 ([] : List Part).length = s.recvSequence := BitVec.add_zero _
    simp only [hseq]
    exact ⟨congrArg (fun rc => [rc]) hrc, rfl, hproc⟩
  | cons p ps =>
    obtain ⟨hinit, hrcs⟩ := writeAll_init aes hop hidle hcount (by rw [List.length_append] at hlen; omega) hmre
    obtain ⟨s1, h1, hw⟩ := write_next aes last.env last.flag hop hinit (seqno_ne_zero (Nat.succ_pos ps.length) (by
      rw [List.length_cons] at hcount
      omega)) (by rwa [List.length_append] at hlen)
    rw [decide_eq_false (not_not_intro hlast)] at h1
    obtain ⟨hproc, hrc⟩ := dispatch_last h1 hlen htells hdec
    rw [← hw, hinit.recvSequence] at hproc hrc
    refine ⟨?_, hinit.calls, hproc⟩
    rw [hrcs, List.replicate_succ']
    exact congrArg (fun rc => List.replicate (p :: ps).length Rc.ok ++ [rc]) hrc

end Reassembly

/-- The SSID `AB` in three fragments. -/
def ssidInit : List Part := [⟨0x20, [0x01, 2], goodEnv⟩, ⟨0x60, [0x41], goodEnv⟩]

def ssidLast : Part := ⟨0x00, [0x42], goodEnv⟩

theorem reassembly_ssid :
    (State.init.writeAll plainAes (frames 0x0A 0 0 (ssidInit ++ [ssidLast]))).1.calls.map Call.cmd =
      [[0x0A, 0x01, 2, 0x41, 0x42]] := by
  have htells : Says plainAes State.init.privKey ssidLast.flag ((ssidInit ++ [ssidLast]).flatMap Part.payload)
      [0x01, 2, 0x41, 0x42] := by
    rw [Says, if_pos (by decide)]
    rfl
  have hheap : ∀ p ∈ ssidInit ++ [ssidLast], ∀ site, p.env.heap site = true := by
    simp [ssidInit, ssidLast, goodEnv]
  exact (reassembly plainAes State.init 0x0A ssidInit ssidLast [0x01, 2, 0x41, 0x42] rfl (by decide) (by decide) (by decide)
    (by decide) (by decide) htells hheap).2.2.calls

end Command
end BleWifi
end Air101

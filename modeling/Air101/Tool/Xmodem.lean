import Air101.Storage.CrcPoly
import Mathlib.Data.List.Chain

/-!
# Tool.Xmodem

The XMODEM sender of the host tool (`wm_tool_xmodem_download` of `tools/xt804/wm_tool.c`): 1024 byte blocks of
the image, each sent until it is answered with `ACK`, and an end of transmission until this is.

A step is one pass of the loop, which is one frame written and one reply read, or one pass of the inner loop of
the end of transmission. The log has every frame written with the reply that was read for it.

* `wmToolGetCrc16_eq`: the checksum of a frame is CRC-16/XMODEM, the remainder by `0x1021`.
* `Inv`: what the frames answered with `ACK` are at each place of the loop, and how many `NAK`s may end the log.
* `step_inv`, `download_inv`: one pass keeps it, and so does every run.
* `xmodem_download`: the frames of a successful download, and which replies make it fail.
-/

namespace Air101
namespace Tool
namespace Xmodem

open Storage

def xmodemHead : Byte := 0x02#8
def xmodemEot : Byte := 0x04#8
def xmodemAck : Byte := 0x06#8
def xmodemNak : Byte := 0x15#8

def xmodemDataSize : Nat := 1024

/-- `i` passes of the inner loop of `wm_tool_get_crc16`. -/
def crc16Bits : Nat → BitVec 16 → BitVec 16
  | 0, crc => crc
  | i + 1, crc =>
    crc16Bits i (if crc &&& 0x8000#16 ≠ 0#16 then (crc <<< 1) ^^^ 0x1021#16 else crc <<< 1)

/-- `wm_tool_get_crc16`. -/
def wmToolGetCrc16 (bs : List Byte) : BitVec 16 :=
  bs.foldl (fun crc b => crc16Bits 8 (crc ^^^ (BitVec.setWidth 16 b).shiftLeft 8)) 0#16

/-- The frame `frame_data` for the data of block `packCounter`. -/
def frameData (packCounter : Nat) (packetData : List Byte) : List Byte :=
  [xmodemHead, BitVec.ofNat 8 packCounter, 255#8 - BitVec.ofNat 8 packCounter] ++ packetData ++
    [(wmToolGetCrc16 packetData >>> 8).setWidth 8, (wmToolGetCrc16 packetData).setWidth 8]

/-- What `fread` got, filled up to a whole block. -/
def fill (packetData : List Byte) : List Byte :=
  packetData ++ List.replicate (xmodemDataSize - packetData.length) 0#8

/-- Where `wm_tool_xmodem_download` is. -/
inductive Pc where
  | switch (ackId : Byte)
  | eot
  | ret (r : Int)
  deriving DecidableEq

/-- The variables of `wm_tool_xmodem_download`, the rest of the file, the replies to come and the log. -/
structure Download where
  pc : Pc
  imgfp : List Byte
  packCounter : Nat
  retryNum : Nat
  frame : List Byte
  replies : Nat → Byte
  log : List (List Byte × Byte)

/-- Write `out`, and read until there is a reply. -/
def Download.exchange (s : Download) (out : List Byte) : Download :=
  { s with
    replies := fun n => s.replies (n + 1)
    log := s.log ++ [(out, s.replies 0)] }

def step (s : Download) : Download :=
  match s.pc with
  | .switch ackId =>
    if ackId = xmodemAck then
      let packetData := s.imgfp.take xmodemDataSize
      if packetData.length > 0 then
        let frame := frameData (s.packCounter + 1) (fill packetData)
        { s.exchange frame with
          pc := .switch (s.replies 0), imgfp := s.imgfp.drop xmodemDataSize
          packCounter := s.packCounter + 1, retryNum := 0, frame }
      else { s with pc := .eot, packCounter := s.packCounter + 1, retryNum := 0 }
    else if ackId = xmodemNak then
      if s.retryNum > 100 then { s with pc := .ret (-111), retryNum := s.retryNum + 1 }
      else { s.exchange s.frame with pc := .switch (s.replies 0), retryNum := s.retryNum + 1 }
    else { s with pc := .ret (-111) }
  | .eot => { s.exchange [xmodemEot] with pc := if s.replies 0 = xmodemAck then .ret 0 else .eot }
  | .ret _ => s

/-- The variables in front of the loop; an empty image is refused. -/
def start (image : List Byte) (replies : Nat → Byte) : Download :=
  { pc := if image.length = 0 then .ret (-1) else .switch xmodemAck
    imgfp := image, packCounter := 0, retryNum := 0, frame := [], replies, log := [] }

/-- `wm_tool_xmodem_download` after `n` passes. -/
def wmToolXmodemDownload (image : List Byte) (replies : Nat → Byte) : Nat → Download
  | 0 => start image replies
  | n + 1 => step (wmToolXmodemDownload image replies n)

/-! ## The protocol -/

/-- The `k`-th slice of the image, zero padded. -/
def slice (image : List Byte) (k : Nat) : List Byte := fill ((image.drop (1024 * k)).take 1024)

/-- The frame of block `k + 1`. -/
def blockFrame (image : List Byte) (k : Nat) : List Byte := frameData (k + 1) (slice image k)

def blocks (image : List Byte) : Nat := (image.length + 1023) / 1024

/-- The frames that were answered with `ACK`. -/
def acked (log : List (List Byte × Byte)) : List (List Byte) :=
  (log.filter fun e => e.2 = xmodemAck).map fun e => e.1

/-- A data frame answered with `NAK`. -/
def Refused (e : List Byte × Byte) : Prop := e.1 ≠ [xmodemEot] ∧ e.2 = xmodemNak

/-- More than 101 data frames in a row were answered with `NAK`. -/
def TooManyNaks (log : List (List Byte × Byte)) : Prop :=
  ∃ l₁ l₂ l₃, log = l₁ ++ l₂ ++ l₃ ∧ 101 < l₂.length ∧ ∀ e ∈ l₂, Refused e

/-- A data frame was answered with neither `ACK` nor `NAK`. -/
def BadReply (log : List (List Byte × Byte)) : Prop :=
  ∃ e ∈ log, e.1 ≠ [xmodemEot] ∧ e.2 ≠ xmodemAck ∧ e.2 ≠ xmodemNak

section Crc

theorem and_top (crc : BitVec 16) : crc &&& 0x8000#16 ≠ 0#16 ↔ crc.getLsbD 15 = true := by
  have htop : crc &&& 0x8000#16 = if crc.getLsbD 15 then 0x8000#16 else 0#16 := by
    apply BitVec.eq_of_getLsbD_eq
    intro i hi
    have hmask : ∀ i : Fin 16, (0x8000#16).getLsbD i = decide (i.val = 15) := by decide
    rw [BitVec.getLsbD_and, hmask ⟨i, hi⟩]
    by_cases h15 : i = 15
    · subst h15
      cases crc.getLsbD 15 <;> simp
    · cases crc.getLsbD 15 <;> simp [h15, hmask ⟨i, hi⟩]
  rw [htop]
  cases crc.getLsbD 15 <;> simp

theorem crc16Bits_eq (i : Nat) (crc : BitVec 16) : crc16Bits i crc = CrcPoly.shifts 0x1021#16 i crc := by
  induction i generalizing crc with
  | zero => rfl
  | succ i ih =>
    rw [crc16Bits, CrcPoly.shifts, ih, CrcPoly.shift]
    simp only [and_top]

/-- The checksum of a frame is CRC-16/XMODEM. -/
theorem wmToolGetCrc16_eq (bs : List Byte) :
    CrcPoly.ofBits (wmToolGetCrc16 bs) = CrcPoly.remainder 0x1021#16 bs := by
  rw [← CrcPoly.update_spec (w := 8), wmToolGetCrc16, CrcPoly.update]
  congr 2
  funext crc b
  rw [crc16Bits_eq]
  rfl

end Crc

/-- The frames of the first `k` blocks. -/
def frames (image : List Byte) (k : Nat) : List (List Byte) := (List.range k).map (blockFrame image)

/-- The replies to the last frames are consistent with the place in the loop: at most `k` data frames at the end
of the log were answered with `NAK`. -/
def NaksAtMost (k : Nat) (log : List (List Byte × Byte)) : Prop :=
  ∀ l₁ l₂, log = l₁ ++ l₂ → (∀ e ∈ l₂, Refused e) → l₂.length ≤ k

/-- A frame that follows a `NAK` is the frame before it. -/
def Resent (a b : List Byte × Byte) : Prop := a.2 = xmodemNak → b.1 = a.1

/-- In front of the `switch`, with the reply `ackId`. -/
structure AtSwitch (image : List Byte) (s : Download) (ackId : Byte) : Prop where
  imgfp : s.imgfp = image.drop (1024 * s.packCounter)
  le : s.packCounter ≤ blocks image
  last : ∀ e, s.log.getLast? = some e → e = (s.frame, ackId)
  first : s.log = [] → ackId = xmodemAck
  isAck : ackId = xmodemAck → acked s.log = frames image s.packCounter
  isNot : ackId ≠ xmodemAck → ∃ k, s.packCounter = k + 1 ∧ s.frame = blockFrame image k ∧ acked s.log = frames image k
  naks : NaksAtMost (if ackId = xmodemNak then s.retryNum + 1 else 0) s.log
  bad : BadReply s.log → ackId ≠ xmodemAck ∧ ackId ≠ xmodemNak
  many : TooManyNaks s.log → ackId = xmodemNak ∧ 100 < s.retryNum

/-- In the loop of the end of transmission. -/
structure AtEot (image : List Byte) (s : Download) : Prop where
  acks : acked s.log = frames image (blocks image)
  last : ∀ e, s.log.getLast? = some e → e.2 = xmodemNak → e.1 = [xmodemEot]
  bad : ¬ BadReply s.log
  many : ¬ TooManyNaks s.log

/-- What holds at each place of the program. -/
structure Inv (image : List Byte) (s : Download) : Prop where
  resent : s.log.IsChain Resent
  switch : ∀ ackId, s.pc = .switch ackId → AtSwitch image s ackId
  eot : s.pc = .eot → AtEot image s
  done : s.pc = .ret 0 → acked s.log = frames image (blocks image) ++ [[xmodemEot]] ∧
    ¬ BadReply s.log ∧ ¬ TooManyNaks s.log

section Log

variable {log : List (List Byte × Byte)} {e : List Byte × Byte}

@[simp] theorem acked_append (log log' : List (List Byte × Byte)) : acked (log ++ log') = acked log ++ acked log' := by
  simp [acked]

theorem acked_ack (out : List Byte) : acked [(out, xmodemAck)] = [out] := by
  simp [acked]

theorem acked_other {out : List Byte} {r : Byte} (h : r ≠ xmodemAck) : acked [(out, r)] = [] := by
  simp [acked, h]

@[simp] theorem frames_succ (image : List Byte) (k : Nat) :
    frames image (k + 1) = frames image k ++ [blockFrame image k] := by
  simp [frames, List.range_succ]

theorem isChain_append_one (h : log.IsChain Resent) (hlast : ∀ a, log.getLast? = some a → Resent a e) :
    (log ++ [e]).IsChain Resent := by
  rw [List.isChain_append]
  refine ⟨h, List.isChain_singleton e, fun a ha b hb => ?_⟩
  obtain rfl : e = b := by simpa using hb
  exact hlast a ha

theorem badReply_append (h : BadReply (log ++ [e])) :
    BadReply log ∨ e.1 ≠ [xmodemEot] ∧ e.2 ≠ xmodemAck ∧ e.2 ≠ xmodemNak := by
  obtain ⟨a, ha, hbad⟩ := h
  rcases List.mem_append.mp ha with ha | ha
  · exact .inl ⟨a, ha, hbad⟩
  · rw [List.mem_singleton.mp ha] at hbad
    exact .inr hbad

theorem suffix_append_one {l₁ l₂ : List (List Byte × Byte)} (h : log ++ [e] = l₁ ++ l₂) :
    l₂ = [] ∨ ∃ l, l₂ = l ++ [e] ∧ log = l₁ ++ l := by
  rcases List.eq_nil_or_concat l₂ with rfl | ⟨l, b, rfl⟩
  · exact .inl rfl
  · rw [List.concat_eq_append, ← List.append_assoc] at h
    obtain ⟨hlog, hb⟩ := List.append_inj' h rfl
    exact .inr ⟨l, by rw [List.concat_eq_append, hb], hlog⟩

theorem naksAtMost_zero (h : ¬ Refused e) : NaksAtMost 0 (log ++ [e]) := by
  intro l₁ l₂ hl hall
  rcases suffix_append_one hl with rfl | ⟨l, rfl, -⟩
  · exact Nat.le_refl 0
  · exact absurd (hall e (by simp)) h

theorem naksAtMost_append {k : Nat} (h : NaksAtMost k log) : NaksAtMost (k + 1) (log ++ [e]) := by
  intro l₁ l₂ hl hall
  rcases suffix_append_one hl with rfl | ⟨l, rfl, hlog⟩
  · exact Nat.zero_le _
  · have hle := h l₁ l hlog fun a ha => hall a (List.mem_append_left _ ha)
    rw [List.length_append, List.length_singleton]
    omega

theorem tooManyNaks_append (h : TooManyNaks (log ++ [e])) :
    TooManyNaks log ∨ Refused e ∧ ∀ k, NaksAtMost k log → 101 ≤ k := by
  obtain ⟨l₁, l₂, l₃, hl, hlen, hall⟩ := h
  rcases suffix_append_one hl with rfl | ⟨l, -, hlog⟩
  · rw [List.append_nil] at hl
    rcases suffix_append_one hl with rfl | ⟨l, rfl, hlog⟩
    · simp at hlen
    · refine .inr ⟨hall e (by simp), fun k hk => ?_⟩
      have hle := hk l₁ l hlog fun a ha => hall a (List.mem_append_left _ ha)
      rw [List.length_append, List.length_singleton] at hlen
      omega
  · exact .inl ⟨l₁, l₂, l, hlog, hlen, hall⟩

end Log

theorem ack_ne_nak : xmodemAck ≠ xmodemNak := by decide

section Step

variable {image : List Byte} {s : Download}

theorem start_inv (image : List Byte) (replies : Nat → Byte) : Inv image (start image replies) where
  resent := List.isChain_nil
  switch := by
    intro ackId h
    simp only [start] at h
    split at h
    · cases h
    · cases h
      exact {
        imgfp := rfl
        le := Nat.zero_le _
        last := fun e he => by cases he
        first := fun _ => rfl
        isAck := fun _ => rfl
        isNot := fun h => absurd rfl h
        naks := fun l₁ l₂ hl _ => by
          have hnil := congrArg List.length hl
          rw [List.length_append] at hnil
          exact Nat.le_of_add_left_le (Nat.le_of_eq hnil.symm)
        bad := by
          rintro ⟨e, he, -⟩
          exact absurd he List.not_mem_nil
        many := by
          rintro ⟨l₁, l₂, l₃, hl, hlen, -⟩
          have hnil := congrArg List.length hl
          simp only [start, List.length_append, List.length_nil] at hnil
          omega }
  eot := by
    intro h
    simp only [start] at h
    split at h
    · cases h
    · cases h
  done := by
    intro h
    simp only [start] at h
    split at h
    · cases h
    · cases h

theorem naks_next {log : List (List Byte × Byte)} {out : List Byte} {r : Byte} {k : Nat}
    (h : NaksAtMost k log) : NaksAtMost (if r = xmodemNak then k + 1 else 0) (log ++ [(out, r)]) := by
  split
  · exact naksAtMost_append h
  · rename_i hr
    exact naksAtMost_zero fun href => hr href.2

theorem send_block (h : Inv image s) (hs : AtSwitch image s xmodemAck)
    (hread : (s.imgfp.take xmodemDataSize).length > 0) :
    Inv image { s.exchange (frameData (s.packCounter + 1) (fill (s.imgfp.take xmodemDataSize))) with
      pc := .switch (s.replies 0), imgfp := s.imgfp.drop xmodemDataSize, packCounter := s.packCounter + 1
      retryNum := 0, frame := frameData (s.packCounter + 1) (fill (s.imgfp.take xmodemDataSize)) } := by
  have hframe : frameData (s.packCounter + 1) (fill (s.imgfp.take xmodemDataSize)) =
      blockFrame image s.packCounter := by
    rw [hs.imgfp]
    rfl
  have hnaks : NaksAtMost 0 s.log := by
    have := hs.naks
    rwa [if_neg ack_ne_nak] at this
  rw [hframe]
  refine ⟨isChain_append_one h.resent fun a ha hnak => ?_, fun ackId hpc => ?_, (by simp), (by simp)⟩
  · rw [hs.last a ha] at hnak
    exact absurd hnak ack_ne_nak
  · cases hpc
    refine ⟨?_, ?_, ?_, (by simp [Download.exchange]), fun hr => ?_, fun hr => ⟨s.packCounter, rfl, rfl, ?_⟩, naks_next hnaks,
      fun hbad => ?_, fun hmany => ?_⟩
    · rw [hs.imgfp, List.drop_drop]
      rfl
    · rw [hs.imgfp, List.length_take, List.length_drop] at hread
      simp only [xmodemDataSize] at hread
      show s.packCounter + 1 ≤ blocks image
      rw [blocks]
      omega
    · intro e he
      simpa [Download.exchange] using he.symm
    · rw [Download.exchange, hr, acked_append, hs.isAck rfl, acked_ack, frames_succ]
    · rw [Download.exchange, acked_append, hs.isAck rfl, acked_other hr, List.append_nil]
    · rcases badReply_append hbad with hbad | hbad
      · exact absurd rfl (hs.bad hbad).1
      · exact hbad.2
    · rcases tooManyNaks_append hmany with hmany | ⟨-, hmany⟩
      · exact absurd (hs.many hmany).1 ack_ne_nak
      · exact absurd (hmany 0 hnaks) (by omega)

theorem send_again (h : Inv image s) (hs : AtSwitch image s xmodemNak) (hretry : ¬ s.retryNum > 100) :
    Inv image { s.exchange s.frame with pc := .switch (s.replies 0), retryNum := s.retryNum + 1 } := by
  obtain ⟨k, hk, hframe, hacks⟩ := hs.isNot (Ne.symm ack_ne_nak)
  have hnaks : NaksAtMost (s.retryNum + 1) s.log := by
    have := hs.naks
    rwa [if_pos rfl] at this
  refine ⟨isChain_append_one h.resent fun a ha _ => ?_, fun ackId hpc => ?_, (by simp), (by simp)⟩
  · rw [hs.last a ha]
  · cases hpc
    refine ⟨hs.imgfp, hs.le, ?_, (by simp [Download.exchange]), fun hr => ?_, fun hr => ⟨k, hk, hframe, ?_⟩, naks_next hnaks,
      fun hbad => ?_, fun hmany => ?_⟩
    · intro e he
      simpa [Download.exchange] using he.symm
    · show acked (s.log ++ [(s.frame, s.replies 0)]) = frames image s.packCounter
      rw [hr, acked_append, hacks, acked_ack, hk, frames_succ, hframe]
    · rw [Download.exchange, acked_append, hacks, acked_other hr, List.append_nil]
    · rcases badReply_append hbad with hbad | hbad
      · exact absurd rfl (hs.bad hbad).2
      · exact hbad.2
    · rcases tooManyNaks_append hmany with hmany | ⟨href, hmany⟩
      · exact absurd (hs.many hmany).2 hretry
      · have hle := hmany _ hnaks
        refine ⟨href.2, ?_⟩
        show 100 < s.retryNum + 1
        omega

theorem send_end (h : Inv image s) (hs : AtSwitch image s xmodemAck)
    (hread : ¬ (s.imgfp.take xmodemDataSize).length > 0) :
    Inv image { s with pc := .eot, packCounter := s.packCounter + 1, retryNum := 0 } := by
  refine ⟨h.resent, (by simp), fun _ => ⟨?_, fun e he hnak => ?_, fun hbad => ?_, fun hmany => ?_⟩, (by simp)⟩
  · have hall : s.packCounter = blocks image := by
      have hle := hs.le
      rw [hs.imgfp, List.length_take, List.length_drop] at hread
      simp only [xmodemDataSize] at hread
      rw [blocks] at hle ⊢
      omega
    rw [← hall]
    exact hs.isAck rfl
  · rw [hs.last e he] at hnak
    exact absurd hnak ack_ne_nak
  · exact absurd rfl (hs.bad hbad).1
  · exact absurd (hs.many hmany).1 ack_ne_nak

theorem eot_reply (h : Inv image s) (hs : AtEot image s) :
    Inv image { s.exchange [xmodemEot] with pc := if s.replies 0 = xmodemAck then .ret 0 else .eot } := by
  have hbad : ¬ BadReply (s.log ++ [([xmodemEot], s.replies 0)]) := by
    intro hbad
    rcases badReply_append hbad with hbad | hbad
    · exact hs.bad hbad
    · exact hbad.1 rfl
  have hmany : ¬ TooManyNaks (s.log ++ [([xmodemEot], s.replies 0)]) := by
    intro hmany
    rcases tooManyNaks_append hmany with hmany | ⟨href, -⟩
    · exact hs.many hmany
    · exact href.1 rfl
  refine ⟨isChain_append_one h.resent fun a ha hnak => (hs.last a ha hnak).symm, fun ackId hpc => ?_, fun hpc => ?_,
    fun hpc => ⟨?_, hbad, hmany⟩⟩
  · dsimp only at hpc
    split at hpc <;> cases hpc
  · dsimp only at hpc
    split at hpc
    · cases hpc
    · rename_i hr
      refine ⟨?_, fun e he _ => ?_, hbad, hmany⟩
      · rw [Download.exchange, acked_append, hs.acks, acked_other hr, List.append_nil]
      · obtain rfl : ([xmodemEot], s.replies 0) = e := by simpa [Download.exchange] using he
        rfl
  · dsimp only at hpc
    split at hpc
    · rename_i hr
      rw [Download.exchange, hr, acked_append, hs.acks, acked_ack]
    · cases hpc

theorem give_up (h : Inv image s) (k : Nat) : Inv image { s with pc := .ret (-111), retryNum := k } :=
  ⟨h.resent, by simp, by simp, by simp⟩

theorem step_inv (h : Inv image s) : Inv image (step s) := by
  rw [step]
  split
  · rename_i ackId hpc
    have hs := h.switch ackId hpc
    split
    · rename_i hack
      subst hack
      simp only
      split
      · rename_i hread
        exact send_block h hs hread
      · rename_i hread
        exact send_end h hs hread
    · split
      · rename_i hnak
        subst hnak
        split
        · exact give_up h _
        · rename_i hretry
          exact send_again h hs hretry
      · exact give_up h _
  · rename_i hpc
    exact eot_reply h (h.eot hpc)
  · exact h

theorem download_inv (image : List Byte) (replies : Nat → Byte) (n : Nat) :
    Inv image (wmToolXmodemDownload image replies n) := by
  induction n with
  | zero => exact start_inv image replies
  | succ n ih => exact step_inv ih

end Step

/-- `wm_tool_xmodem_download` returns `r`. -/
def Returns (image : List Byte) (replies : Nat → Byte) (r : Int) : Prop :=
  ∃ n, (wmToolXmodemDownload image replies n).pc = .ret r

theorem ret_stable {image : List Byte} {replies : Nat → Byte} {n : Nat} {r : Int}
    (h : (wmToolXmodemDownload image replies n).pc = .ret r) (k : Nat) :
    (wmToolXmodemDownload image replies (n + k)).pc = .ret r := by
  induction k with
  | zero => exact h
  | succ k ih =>
    rw [← Nat.add_assoc, wmToolXmodemDownload, step]
    split
    · rename_i hpc
      rw [ih] at hpc
      cases hpc
    · rename_i hpc
      rw [ih] at hpc
      cases hpc
    · exact ih

theorem Returns.unique {image : List Byte} {replies : Nat → Byte} {r r' : Int} (h : Returns image replies r)
    (h' : Returns image replies r') : r' = r := by
  obtain ⟨n, hn⟩ := h
  obtain ⟨m, hm⟩ := h'
  have hn := ret_stable hn m
  rw [Nat.add_comm, ret_stable hm n] at hn
  exact Pc.ret.inj hn

/-- The download returns, and not 0. -/
def Fails (image : List Byte) (replies : Nat → Byte) : Prop :=
  ∃ r, r ≠ 0 ∧ Returns image replies r ∧ ∀ r', Returns image replies r' → r' = r

theorem fails_of_ret {image : List Byte} {replies : Nat → Byte} {n : Nat} {r : Int} (hr : r ≠ 0)
    (h : (wmToolXmodemDownload image replies n).pc = .ret r) : Fails image replies :=
  ⟨r, hr, ⟨n, h⟩, fun _ h' => Returns.unique ⟨n, h⟩ h'⟩

theorem fails_of_badReply {image : List Byte} {replies : Nat → Byte} {n : Nat}
    (hbad : BadReply (wmToolXmodemDownload image replies n).log) : Fails image replies := by
  have h := download_inv image replies n
  cases hpc : (wmToolXmodemDownload image replies n).pc with
  | switch ackId =>
    obtain ⟨hack, hnak⟩ := (h.switch ackId hpc).bad hbad
    refine fails_of_ret (n := n + 1) (r := -111) (by omega) ?_
    simp only [wmToolXmodemDownload, step, hpc, if_neg hack, if_neg hnak]
  | eot => exact absurd hbad (h.eot hpc).bad
  | ret r =>
    refine fails_of_ret (fun hr => ?_) hpc
    rw [hr] at hpc
    exact (h.done hpc).2.1 hbad

theorem fails_of_tooManyNaks {image : List Byte} {replies : Nat → Byte} {n : Nat}
    (hmany : TooManyNaks (wmToolXmodemDownload image replies n).log) : Fails image replies := by
  have h := download_inv image replies n
  cases hpc : (wmToolXmodemDownload image replies n).pc with
  | switch ackId =>
    obtain ⟨rfl, hretry⟩ := (h.switch ackId hpc).many hmany
    refine fails_of_ret (n := n + 1) (r := -111) (by omega) ?_
    simp only [wmToolXmodemDownload, step, hpc, if_neg (Ne.symm ack_ne_nak), if_true, if_pos hretry]
  | eot => exact absurd hmany (h.eot hpc).many
  | ret r =>
    refine fails_of_ret (fun hr => ?_) hpc
    rw [hr] at hpc
    exact (h.done hpc).2.2 hmany

/-- For every image and every sequence of replies: a download that returns 0 got its blocks acknowledged one after
the other, and then the end of transmission; a frame that follows a `NAK` is the frame before it; and before the end
of transmission any reply but `ACK` and `NAK`, and more than 101 `NAK`s in a row, make the download fail. -/
theorem xmodem_download (image : List Byte) (replies : Nat → Byte) :
    (∀ n, (wmToolXmodemDownload image replies n).pc = .ret 0 →
      acked (wmToolXmodemDownload image replies n).log =
        (List.range (blocks image)).map (blockFrame image) ++ [[xmodemEot]]) ∧
    (∀ k, CrcPoly.ofBits (wmToolGetCrc16 (slice image k)) = CrcPoly.remainder 0x1021#16 (slice image k)) ∧
    (∀ n, (wmToolXmodemDownload image replies n).log.IsChain Resent) ∧
    (∀ n, BadReply (wmToolXmodemDownload image replies n).log → Fails image replies) ∧
    (∀ n, TooManyNaks (wmToolXmodemDownload image replies n).log → Fails image replies) :=
  ⟨fun n h => ((download_inv image replies n).done h).1, fun k => wmToolGetCrc16_eq (slice image k),
    fun n => (download_inv image replies n).resent, fun _ => fails_of_badReply, fun _ => fails_of_tooManyNaks⟩

/-- `ACK` for the only block, 102 times `NAK` for the end of transmission, then `ACK`. -/
def lateNaks (k : Nat) : Byte := if 1 ≤ k ∧ k ≤ 102 then xmodemNak else xmodemAck

/-- At the end of transmission `NAK`s are not counted: the download succeeds after 102 of them. -/
theorem xmodem_late_naks :
    (wmToolXmodemDownload [0x55#8] lateNaks 105).pc = .ret 0 ∧
    (wmToolXmodemDownload [0x55#8] lateNaks 105).log.map (fun e => e.2) =
      [xmodemAck] ++ List.replicate 102 xmodemNak ++ [xmodemAck] := by
  decide +kernel

end Xmodem
end Tool
end Air101

import Air101.Spi.DmaRead

/-!
# Spi.DmaReport

What `luat_spi_send`, `luat_spi_recv` and `luat_spi_transfer` of `app/port/luat_spi_air101.c` report in DMA mode. The results
of `SpiDmaBlockWrite` and `SpiDmaBlockRead` are dropped by their callers in `platform/drivers/spi/wm_hostspi.c`, and
`luat_spi_transfer` drops those of `tls_spi_write` and `tls_spi_read`.

* `sendTrue`, `recvTrue`, `transferTrue`: a positive count is reported only for a request that is done.
* `sendTrue_iff`, `recvTrue_iff`, `transferTrue_iff`: when that holds.
* `likeBoth_iff`: when `luat_spi_transfer` does what the two other calls do.
* `reports_iff`: the four together.
-/

namespace Air101
namespace Spi

open Storage

/-- `luat_spi_transfer`: its result, the memory at `recv_buf` and the bus. -/
def luatSpiTransfer (b : Bus) (sendBuf : Nat → Byte) (sendLength : Nat) (recvBuf : Nat → Byte) (recvLength : Nat) :
    Int × (Nat → Byte) × Bus :=
  let b := if sendLength > 0 then (tlsSpiWrite b sendBuf sendLength).2 else b
  if recvLength > 0 then
    let (_, bytes, b) := tlsSpiRead b recvLength
    (recvLength, overlay recvBuf 0 bytes, b)
  else (recvLength, recvBuf, b)

/-- The bytes at `data` are shifted out. -/
def Sends (b b' : Bus) (data : Nat → Byte) (n : Nat) : Prop := b'.mosi = b.mosi ++ slice data 0 n

/-- The `n` bytes that the slave presents behind `skip` others leave the receive FIFO, and are those at `data`. -/
structure Stores (b b' : Bus) (skip n : Nat) (data : List Byte) : Prop where
  stored : b'.stored = b.stored + n
  data : data = slice b.miso (b.clocked + skip) n

/-- `luat_spi_send` returns a positive count only if every byte of the request was transferred. -/
def sendTrue (b : Bus) (sendBuf : Nat → Byte) (length : Nat) : Prop :=
  let r := luatSpiSend b sendBuf length
  0 < r.1 → Sends b r.2 sendBuf length

/-- The same of `luat_spi_recv`. -/
def recvTrue (b : Bus) (recvBuf : Nat → Byte) (length : Nat) : Prop :=
  let r := luatSpiRecv b recvBuf length
  0 < r.1 → Stores b r.2.2 0 length (slice r.2.1 0 length)

/-- The same of `luat_spi_transfer`. -/
def transferTrue (b : Bus) (sendBuf : Nat → Byte) (ns : Nat) (recvBuf : Nat → Byte) (nr : Nat) : Prop :=
  let r := luatSpiTransfer b sendBuf ns recvBuf nr
  0 < r.1 → Sends b r.2.2 sendBuf ns ∧ Stores b r.2.2 ns nr (slice r.2.1 0 nr)

/-- `luat_spi_transfer` produces the starts and the received data of `luat_spi_send` followed by `luat_spi_recv`. -/
def likeBoth (b : Bus) (sendBuf : Nat → Byte) (ns : Nat) (recvBuf : Nat → Byte) (nr : Nat) : Prop :=
  let r := luatSpiTransfer b sendBuf ns recvBuf nr
  let s := luatSpiRecv (luatSpiSend b sendBuf ns).2 recvBuf nr
  r.2.2.starts = s.2.2.starts ∧ r.2.1 = s.2.1

section Reports

variable {b b' : Bus}

theorem Sent.sends_iff {data : Nat → Byte} {n k : Nat} (h : Sent b b' (slice data 0 n) k) :
    Sends b b' data n ↔ b.clear k := by
  constructor
  · intro hsends
    by_contra hno
    have hlt := h.short hno
    rw [hsends, List.length_append] at hlt
    omega
  · intro hclear
    exact (h.sent hclear).1

theorem Taken.stores_iff {n k : Nat} {good : Prop} {bytes : List Byte} (h : Taken b b' 0 n k good bytes) :
    Stores b b' 0 n bytes ↔ good ∧ b.clear k := by
  constructor
  · intro hstores
    by_contra hno
    have hlt := h.short hno
    rw [hstores.stored] at hlt
    omega
  · rintro ⟨hgood, hclear⟩
    obtain ⟨hbytes, hstored, -⟩ := h.taken hgood hclear
    exact ⟨hstored, hbytes⟩

theorem sendTrue_iff (sendBuf : Nat → Byte) (length : Nat) (hidle : ∀ n, b.idleFails n = false) :
    sendTrue b sendBuf length ↔ b.clear (sendBlocks length) := by
  rcases Nat.eq_zero_or_pos length with rfl | hpos
  · have hret : (luatSpiSend b sendBuf 0).1 = -1 := rfl
    refine iff_of_true ?_ (clear_zero b)
    rw [sendTrue, hret]
    exact fun h => absurd h (by decide)
  · obtain ⟨hret, hsent, -⟩ := luatSpiSend_sent (b := b) sendBuf hidle hpos
    rw [← hsent.sends_iff, sendTrue, hret]
    exact ⟨fun h => h (by omega), fun h _ => h⟩

theorem recvTrue_iff (recvBuf : Nat → Byte) (length : Nat) (hidle : ∀ n, b.idleFails n = false) :
    recvTrue b recvBuf length ↔ wholeTail length ∧ b.clear (sendBlocks length) := by
  rcases Nat.eq_zero_or_pos length with rfl | hpos
  · have hret : (luatSpiRecv b recvBuf 0).1 = -1 := rfl
    refine iff_of_true ?_ ⟨by rw [wholeTail]; decide, clear_zero b⟩
    rw [recvTrue, hret]
    exact fun h => absurd h (by decide)
  · obtain ⟨hret, htaken⟩ := luatSpiRecv_taken (b := b) recvBuf hidle hpos
    rw [← htaken.stores_iff, recvTrue, hret]
    exact ⟨fun h => h (by omega), fun h _ => h⟩

/-! ## The combined call -/

/-- The bus after the send part of `luat_spi_transfer`. -/
def sendPart (b : Bus) (sendBuf : Nat → Byte) (ns : Nat) : Bus :=
  if ns > 0 then (tlsSpiWrite b sendBuf ns).2 else b

theorem luatSpiTransfer_eq (b : Bus) (sendBuf : Nat → Byte) (ns : Nat) (recvBuf : Nat → Byte) {nr : Nat} (hnr : 0 < nr) :
    luatSpiTransfer b sendBuf ns recvBuf nr =
      ((nr : Int), overlay recvBuf 0 (tlsSpiRead (sendPart b sendBuf ns) nr).2.1,
        (tlsSpiRead (sendPart b sendBuf ns) nr).2.2) := by
  rw [luatSpiTransfer, if_pos hnr]
  rfl

theorem sendPart_sent (sendBuf : Nat → Byte) {ns : Nat} (hidle : ∀ n, b.idleFails n = false) (hns : ns ≤ 8160) :
    Sent b (sendPart b sendBuf ns) (slice sendBuf 0 ns) (pieceBlocks ns) := by
  rw [sendPart]
  by_cases hpos : ns > 0
  · rw [if_pos hpos]
    exact (tlsSpiWrite_sent sendBuf hidle hpos hns).2.1
  · obtain rfl : ns = 0 := by omega
    exact Sent.refl b

/-- More than 8160 bytes are refused, and the refusal is dropped. -/
theorem sendPart_refused (sendBuf : Nat → Byte) {ns : Nat} (hns : 8160 < ns) : sendPart b sendBuf ns = b := by
  rw [sendPart, if_pos (by omega), tlsSpiWrite, if_neg (by omega), if_neg (by omega), if_pos hns]

theorem tlsSpiRead_refused {nr : Nat} (hnr : 8160 < nr) : tlsSpiRead b nr = (-1, [], b) := by
  rw [tlsSpiRead, if_neg (by omega), if_neg (by omega), if_pos hnr]

theorem tlsSpiRead_mosi {nr : Nat} (hidle : ∀ n, b.idleFails n = false) (hpos : 0 < nr) :
    (tlsSpiRead b nr).2.2.mosi = b.mosi := by
  by_cases hnr : nr ≤ 8160
  · exact (tlsSpiRead_taken hidle hpos hnr).2.mosi rfl
  · rw [tlsSpiRead_refused (by omega)]

/-- A send and a receive behind it. -/
theorem sends_stores_iff {b'' : Bus} {sendBuf : Nat → Byte} {ns nr k l : Nat} {good : Prop} {bytes : List Byte}
    (hsent : Sent b b' (slice sendBuf 0 ns) k) (htaken : Taken b' b'' 0 nr l good bytes) :
    (Sends b b'' sendBuf ns ∧ Stores b b'' ns nr bytes) ↔ good ∧ b.clear (k + l) := by
  have hsends : Sends b b'' sendBuf ns ↔ b.clear k := by
    rw [← hsent.sends_iff, Sends, htaken.mosi rfl]
    rfl
  have hstores : b.clear k → (Stores b b'' ns nr bytes ↔ Stores b' b'' 0 nr bytes) := by
    intro hk
    have hclocked : b'.clocked + 0 = b.clocked + ns := by
      rw [(hsent.sent hk).2.2.1, slice_length, Nat.add_zero]
    constructor
    · intro h
      exact ⟨by rw [h.stored, hsent.stored], by rw [h.data, hsent.frame.miso, hclocked]⟩
    · intro h
      exact ⟨by rw [h.stored, hsent.stored], by rw [h.data, hsent.frame.miso, hclocked]⟩
  have hclear : b.clear k → (b.clear (k + l) ↔ b'.clear l) := by
    intro hk
    rw [clear_add hsent.frame.dmaFails (hsent.sent hk).2.2.2]
    exact and_iff_right hk
  constructor
  · rintro ⟨h, h'⟩
    have hk := hsends.mp h
    rw [hclear hk, ← htaken.stores_iff]
    exact (hstores hk).mp h'
  · rintro ⟨hgood, hkl⟩
    have hk : b.clear k := fun j hj => hkl j (by omega)
    exact ⟨hsends.mpr hk, (hstores hk).mpr (htaken.stores_iff.mpr ⟨hgood, (hclear hk).mp hkl⟩)⟩

theorem sendPart_idle (sendBuf : Nat → Byte) (ns : Nat) (hidle : ∀ n, b.idleFails n = false) :
    ∀ n, (sendPart b sendBuf ns).idleFails n = false := by
  by_cases hns : ns ≤ 8160
  · rw [(sendPart_sent sendBuf hidle hns).frame.idleFails]
    exact hidle
  · rw [sendPart_refused sendBuf (by omega)]
    exact hidle

theorem sendPart_stored (sendBuf : Nat → Byte) (ns : Nat) (hidle : ∀ n, b.idleFails n = false) :
    (sendPart b sendBuf ns).stored = b.stored := by
  by_cases hns : ns ≤ 8160
  · exact (sendPart_sent sendBuf hidle hns).stored
  · rw [sendPart_refused sendBuf (by omega)]

theorem transferTrue_iff (sendBuf : Nat → Byte) (ns : Nat) (recvBuf : Nat → Byte) (nr : Nat)
    (hidle : ∀ n, b.idleFails n = false) :
    transferTrue b sendBuf ns recvBuf nr ↔
      nr = 0 ∨ ns ≤ 8160 ∧ nr ≤ 8160 ∧ wholeTail nr ∧ b.clear (sendBlocks ns + sendBlocks nr) := by
  rcases Nat.eq_zero_or_pos nr with rfl | hpos
  · have hret : (luatSpiTransfer b sendBuf ns recvBuf 0).1 = 0 := rfl
    refine iff_of_true ?_ (.inl rfl)
    rw [transferTrue, hret]
    exact fun h => absurd h (lt_irrefl 0)
  · have hidle' := sendPart_idle (b := b) sendBuf ns hidle
    have hdone : transferTrue b sendBuf ns recvBuf nr ↔
        Sends b (tlsSpiRead (sendPart b sendBuf ns) nr).2.2 sendBuf ns ∧
          Stores b (tlsSpiRead (sendPart b sendBuf ns) nr).2.2 ns nr
            (slice (overlay recvBuf 0 (tlsSpiRead (sendPart b sendBuf ns) nr).2.1) 0 nr) := by
      rw [transferTrue, luatSpiTransfer_eq b sendBuf ns recvBuf hpos]
      exact ⟨fun h => h (by omega), fun h _ => h⟩
    rw [hdone]
    by_cases hns : ns ≤ 8160
    · by_cases hnr : nr ≤ 8160
      · obtain ⟨-, htaken⟩ := tlsSpiRead_taken hidle' hpos hnr
        have hbytes := slice_overlay recvBuf 0 (tlsSpiRead (sendPart b sendBuf ns) nr).2.1
        rw [tlsSpiRead_length hpos hnr] at hbytes
        rw [hbytes, sends_stores_iff (sendPart_sent sendBuf hidle hns) htaken, wholeTail_of_le hnr, sendBlocks_of_le hns,
          sendBlocks_of_le hnr]
        exact ⟨fun h => .inr ⟨hns, hnr, h⟩, fun h => (h.resolve_left (by omega)).2.2⟩
      · refine iff_of_false (fun h => ?_) (by omega)
        have hstored := h.2.stored
        rw [tlsSpiRead_refused (by omega), sendPart_stored sendBuf ns hidle] at hstored
        omega
    · refine iff_of_false (fun h => ?_) (by omega)
      have hlen := congrArg List.length h.1
      rw [tlsSpiRead_mosi hidle' hpos, sendPart_refused sendBuf (by omega), List.length_append, slice_length] at hlen
      omega

/-- A read adds starts with the receive channel, or none if it is refused. -/
theorem tlsSpiRead_starts {nr : Nat} (hidle : ∀ n, b.idleFails n = false) (hpos : 0 < nr) :
    ∃ new : List Start, (tlsSpiRead b nr).2.2.starts = b.starts ++ new ∧ ∀ start ∈ new, start.rxChannelOn = true := by
  by_cases hnr : nr ≤ 8160
  · obtain ⟨new, -, hstarts, hrx⟩ := (tlsSpiRead_taken hidle hpos hnr).2.starts
    exact ⟨new, hstarts, hrx⟩
  · rw [tlsSpiRead_refused (by omega)]
    exact ⟨[], by simp, by simp⟩

/-- The combined call does what the two others do if and only if each part fits in one piece. -/
theorem likeBoth_iff (sendBuf : Nat → Byte) {ns : Nat} (recvBuf : Nat → Byte) {nr : Nat} (hns : 1 ≤ ns) (hnr : 1 ≤ nr)
    (hidle : ∀ n, b.idleFails n = false) :
    likeBoth b sendBuf ns recvBuf nr ↔ ns ≤ 8160 ∧ nr ≤ 8160 := by
  obtain ⟨-, hsent, hstart⟩ := luatSpiSend_sent (b := b) sendBuf hidle hns
  have hidle' : ∀ n, (luatSpiSend b sendBuf ns).2.idleFails n = false := by
    rw [hsent.frame.idleFails]
    exact hidle
  obtain ⟨-, htaken⟩ := luatSpiRecv_taken (b := (luatSpiSend b sendBuf ns).2) recvBuf hidle' hnr
  obtain ⟨new, hnew, hstarts, -⟩ := htaken.starts
  have hsend : ns ≤ 8160 → (luatSpiSend b sendBuf ns).2 = sendPart b sendBuf ns := by
    intro hle
    rw [luatSpiSend, if_pos hle, sendPart, if_pos (by omega)]
  rw [likeBoth, luatSpiTransfer_eq b sendBuf ns recvBuf hnr]
  constructor
  · intro h
    by_contra hno
    have hsame := h.1
    dsimp only at hsame
    rw [hstarts] at hsame
    by_cases hns' : ns ≤ 8160
    · -- the read is refused, and the receive makes a start
      rw [tlsSpiRead_refused (by omega), hsend hns', List.self_eq_append_right] at hsame
      exact hnew hsame
    · -- the write is refused, and the send makes a start without the receive channel
      obtain ⟨start, htx, rest, hrest⟩ := hstart (by omega)
      obtain ⟨new', hstarts', hrx'⟩ := tlsSpiRead_starts hidle hnr
      rw [sendPart_refused sendBuf (by omega), hstarts', ← hrest, List.append_assoc, List.append_assoc,
        List.append_cancel_left_eq] at hsame
      have hmem : start ∈ new' := by
        rw [hsame]
        exact List.mem_cons_self
      rw [hrx' start hmem] at htx
      cases htx
  · rintro ⟨hns', hnr'⟩
    rw [hsend hns', luatSpiRecv, if_pos hnr']
    exact ⟨rfl, rfl⟩

end Reports

/-- With the master itself in time, whatever DMA blocks fail: `luat_spi_send` reports the truth if and only if its blocks
all complete, `luat_spi_recv` if in addition its last piece is not one of 4093 to 4095 bytes, and `luat_spi_transfer` if
in addition each part fits in one piece, which is also when it does what the two others do. -/
theorem reports_iff (b : Bus) (sendBuf : Nat → Byte) (ns : Nat) (recvBuf : Nat → Byte) (nr : Nat)
    (hidle : ∀ n, b.idleFails n = false) :
    (sendTrue b sendBuf ns ↔ b.clear (sendBlocks ns)) ∧
    (recvTrue b recvBuf nr ↔ ¬ (4093 ≤ nr % 8160 ∧ nr % 8160 ≤ 4095) ∧ b.clear (sendBlocks nr)) ∧
    (transferTrue b sendBuf ns recvBuf nr ↔
      nr = 0 ∨ ns ≤ 8160 ∧ nr ≤ 8160 ∧ ¬ (4093 ≤ nr ∧ nr ≤ 4095) ∧ b.clear (sendBlocks ns + sendBlocks nr)) ∧
    (1 ≤ ns → 1 ≤ nr → (likeBoth b sendBuf ns recvBuf nr ↔ ns ≤ 8160 ∧ nr ≤ 8160)) := by
  refine ⟨sendTrue_iff sendBuf ns hidle, recvTrue_iff recvBuf nr hidle, ?_,
    fun hns hnr => likeBoth_iff sendBuf recvBuf hns hnr hidle⟩
  rw [transferTrue_iff sendBuf ns recvBuf nr hidle]
  refine or_congr_right (and_congr_right fun _ => and_congr_right fun hnr => ?_)
  rw [wholeTail_of_le hnr]

/-- A master whose DMA blocks all hang before their first word. -/
def Bus.stuck : Bus := { Bus.rest with dmaFails := fun _ => some 0 }

theorem reports_iff_stuck :
    (sendTrue Bus.stuck (BitVec.ofNat 8) 8 ↔ Bus.stuck.clear (sendBlocks 8)) ∧
    (recvTrue Bus.stuck (fun _ => 0#8) 8 ↔ ¬ (4093 ≤ 8 % 8160 ∧ 8 % 8160 ≤ 4095) ∧ Bus.stuck.clear (sendBlocks 8)) ∧
    (transferTrue Bus.stuck (BitVec.ofNat 8) 8 (fun _ => 0#8) 8 ↔
      8 = 0 ∨ 8 ≤ 8160 ∧ 8 ≤ 8160 ∧ ¬ (4093 ≤ 8 ∧ 8 ≤ 4095) ∧ Bus.stuck.clear (sendBlocks 8 + sendBlocks 8)) ∧
    (1 ≤ 8 → 1 ≤ 8 → (likeBoth Bus.stuck (BitVec.ofNat 8) 8 (fun _ => 0#8) 8 ↔ 8 ≤ 8160 ∧ 8 ≤ 8160)) :=
  reports_iff Bus.stuck (BitVec.ofNat 8) 8 (fun _ => 0#8) 8 (fun _ => rfl)

/-- Eight bytes of which none goes out are reported as sent, eight that do not come in as received, and a transfer of
8161 bytes does not send what `luat_spi_send` does. -/
theorem failure_unreported :
    ¬ sendTrue Bus.stuck (BitVec.ofNat 8) 8 ∧ ¬ recvTrue Bus.stuck (fun _ => 0#8) 8 ∧
      ¬ likeBoth Bus.rest (BitVec.ofNat 8) 8161 (fun _ => 0#8) 1 := by
  have hstuck : ¬ Bus.stuck.clear (sendBlocks 8) := fun h => by
    have hzero := h 0 (by decide)
    cases hzero
  refine ⟨fun h => ?_, fun h => ?_, fun h => ?_⟩
  · exact hstuck ((sendTrue_iff _ _ fun _ => rfl).mp h)
  · exact hstuck ((recvTrue_iff _ _ fun _ => rfl).mp h).2
  · have hle := (likeBoth_iff _ _ (by decide) (by decide) fun _ => rfl).mp h
    exact absurd hle.1 (by decide)

end Spi
end Air101

import Air101.Storage.Runs
import Mathlib.Algebra.Ring.Nat
import Mathlib.Logic.Function.Basic

/-!
# Uart.Transmit

The transmit side of `platform/drivers/uart/wm_uart.c` under `luat_uart_write` of
`app/port/luat_uart_air101.c`: a write queues one message, and the writer and the transmit interrupt move at
most 32 of its bytes at a time into the transmit FIFO.

* `txChars`: `tls_uart_tx_chars` and `tls_uart_tx_chars_start`, which are the same text in the source.
* `stream`: the bytes written to `UR_TXW` and the rests of the queued messages.
* `txChars_stream`, `luatUartWrite_stream`: what a drain and a write do to the stream.
* `transmit_stream`: the stream is what the writers were told as long as each length fits in 16 bits, or is
  refused for being a multiple of 65536.

Memory allocation succeeds and no buffer is `NULL`. A message that is done is freed at once by the `tx_callback`
of the port (`tls_uart_free_tx_sent_data`), so it is dropped here. `uart_cb_len` is never read.
-/

namespace Air101
namespace Uart
namespace Tx

open Storage

/-- `tls_uart_tx_msg`. -/
structure TxMsg where
  buf : List UInt8
  buflen : UInt16
  offset : UInt16
  length_buf : buf.length = buflen.toNat
  offset_le : offset ≤ buflen

/-- The part of a port that transmission uses; `txw` are the bytes written to `UR_TXW`. -/
structure Port where
  pending : List TxMsg
  txFifofull : UInt32
  icountTx : UInt32
  txw : List UInt8

/-- A buffer whose length is a `size_t`. -/
structure Data where
  bytes : List UInt8
  fits : bytes.length < 2 ^ 32

theorem succ_le {offset buflen : UInt16} (h : offset < buflen) : offset + 1 ≤ buflen := by
  have hlt : offset.toNat < buflen.toNat := h
  have hb := buflen.toNat_lt
  rw [UInt16.le_iff_toNat_le, UInt16.toNat_add, UInt16.toNat_one]
  omega

def TxMsg.next (m : TxMsg) (h : m.offset < m.buflen) : TxMsg :=
  { m with offset := m.offset + 1, offset_le := succ_le h }

/-- The loop of `tls_uart_tx_chars`: `fifos` are the values that `UR_FIFOS` reads in each round. -/
def txLoop (txFifofull : UInt32) : Nat → (Nat → UInt32) → TxMsg → List UInt8 × TxMsg
  | 0, _, m => ([], m)
  | txCount + 1, fifos, m =>
    if h : m.offset < m.buflen then
      if fifos 0 &&& 0x3F = txFifofull then ([], m)
      else
        let r := txLoop txFifofull txCount (fun k => fifos (k + 1)) (m.next h)
        (m.buf.getD m.offset.toNat 0 :: r.1, r.2)
    else ([], m)

/-- `tls_uart_tx_chars` and `tls_uart_tx_chars_start`. -/
def txChars (port : Port) (fifos : Nat → UInt32) : Port :=
  match port.pending with
  | [] => port
  | m :: rest =>
    let r := txLoop port.txFifofull 32 fifos m
    { port with
      pending := if r.2.offset ≥ r.2.buflen then rest else r.2 :: rest
      icountTx := port.icountTx + UInt32.ofNat r.1.length
      txw := port.txw ++ r.1 }

theorem length_take_toNat {buf : List UInt8} {count : UInt16} (h : count.toNat ≤ buf.length) :
    (buf.take count.toNat).length = count.toNat := List.length_take_of_le h

/-- `tls_uart_fill_buf`. -/
def tlsUartFillBuf (port : Port) (buf : List UInt8) (count : UInt16) (h : count.toNat ≤ buf.length) : Port :=
  { port with
    pending := port.pending ++
      [{ buf := buf.take count.toNat, buflen := count, offset := 0
         length_buf := length_take_toNat h, offset_le := UInt16.zero_le }] }

/-- `tls_uart_write`, which is `tls_uart_write_async`. -/
def tlsUartWrite (port : Port) (buf : List UInt8) (writesize : UInt16) (h : writesize.toNat ≤ buf.length)
    (fifos : Nat → UInt32) : Int × Port :=
  if writesize < 1 then (-1, port)
  else (0, txChars (tlsUartFillBuf port buf writesize h) fifos)

def maxDeviceCount : Int := 6

def luatUartExist (uartid : Int) : Bool := !(decide (uartid < 0) || decide (uartid ≥ maxDeviceCount))

theorem toNat_ofNat_le (bytes : List UInt8) : (UInt16.ofNat bytes.length).toNat ≤ bytes.length := by
  rw [UInt16.toNat_ofNat']
  exact Nat.mod_le _ _

/-- `luat_uart_write`: the length is narrowed to the `u16` of `tls_uart_write`, and returned as an `int`. -/
def luatUartWrite (uartPort : Nat → Port) (uartid : Int) (data : Data) (fifos : Nat → UInt32) :
    Int × (Nat → Port) :=
  if luatUartExist uartid then
    let r := tlsUartWrite (uartPort uartid.toNat) data.bytes (UInt16.ofNat data.bytes.length)
      (toNat_ofNat_le data.bytes) fifos
    (if r.1 = 0 then (Int32.ofNat data.bytes.length).toInt else 0, Function.update uartPort uartid.toNat r.2)
  else (0, uartPort)

inductive Event where
  | write (uartid : Int) (data : Data) (fifos : Nat → UInt32)
  | irq (uartNo : Nat) (fifos : Nat → UInt32)

def step (uartPort : Nat → Port) : Event → Nat → Port
  | .write uartid data fifos => (luatUartWrite uartPort uartid data fifos).2
  | .irq uartNo fifos => Function.update uartPort uartNo (txChars (uartPort uartNo) fifos)

/-- The ports after `tls_uart_port_init`. -/
def uartPort : Nat → Port := fun _ => { pending := [], txFifofull := 16, icountTx := 0, txw := [] }

/-- What the writer of port `i` is told to be accepted: the first `r` bytes, for a write that returns `r`. -/
def accepted (i : Nat) : (Nat → Port) × Event → List UInt8
  | (s, .write uartid data fifos) =>
    if uartid.toNat = i then data.bytes.take (luatUartWrite s uartid data fifos).1.toNat else []
  | (_, .irq _ _) => []

def TxMsg.unsent (m : TxMsg) : List UInt8 := m.buf.drop m.offset.toNat

/-- The bytes handed to the hardware and those still queued. -/
def stream (port : Port) : List UInt8 := port.txw ++ port.pending.flatMap TxMsg.unsent

theorem unsent_next (m : TxMsg) (h : m.offset < m.buflen) :
    m.unsent = m.buf.getD m.offset.toNat 0 :: (m.next h).unsent := by
  have hlt : m.offset.toNat < m.buf.length := by
    rw [m.length_buf]
    exact h
  have hnext : (m.offset + 1).toNat = m.offset.toNat + 1 := by
    have hb := m.buflen.toNat_lt
    have hl := m.length_buf
    rw [UInt16.toNat_add, UInt16.toNat_one]
    omega
  rw [TxMsg.unsent, TxMsg.unsent, TxMsg.next, hnext, List.drop_eq_getElem_cons hlt,
    List.getD_eq_getElem?_getD, List.getElem?_eq_getElem hlt, Option.getD_some]

theorem unsent_done {m : TxMsg} (h : m.offset ≥ m.buflen) : m.unsent = [] := by
  refine List.drop_eq_nil_of_le ?_
  rw [m.length_buf]
  exact h

/-- The loop moves bytes from the front of the message to the FIFO, whatever the fill levels are. -/
theorem txLoop_unsent (full : UInt32) (txCount : Nat) (fifos : Nat → UInt32) (m : TxMsg) :
    (txLoop full txCount fifos m).1 ++ (txLoop full txCount fifos m).2.unsent = m.unsent := by
  induction txCount generalizing fifos m with
  | zero => rfl
  | succ n ih =>
    simp only [txLoop]
    split
    · rename_i h
      split
      · rfl
      · rw [List.cons_append, ih, ← unsent_next]
    · rfl

theorem txChars_stream (port : Port) (fifos : Nat → UInt32) : stream (txChars port fifos) = stream port := by
  rw [txChars]
  split
  · rfl
  · rename_i m rest hp
    have hloop := txLoop_unsent port.txFifofull 32 fifos m
    simp only [stream, hp, List.flatMap_cons, ← hloop]
    split
    · rename_i hdone
      simp [unsent_done hdone]
    · simp

theorem tlsUartFillBuf_stream (port : Port) (buf : List UInt8) (count : UInt16) (h : count.toNat ≤ buf.length) :
    stream (tlsUartFillBuf port buf count h) = stream port ++ buf.take count.toNat := by
  simp [stream, tlsUartFillBuf, TxMsg.unsent]

theorem tlsUartWrite_stream (port : Port) (buf : List UInt8) (writesize : UInt16)
    (h : writesize.toNat ≤ buf.length) (fifos : Nat → UInt32) :
    stream (tlsUartWrite port buf writesize h fifos).2 = stream port ++ buf.take writesize.toNat := by
  rw [tlsUartWrite]
  split
  · rename_i hz
    have hz : writesize.toNat = 0 := by
      have hz : writesize.toNat < 1 := hz
      omega
    rw [hz, List.take_zero, List.append_nil]
  · rw [txChars_stream, tlsUartFillBuf_stream]

/-- The bytes of a write that are really queued. -/
def Data.queued (data : Data) : List UInt8 := data.bytes.take (data.bytes.length % 65536)

/-- The bytes of a write that its writer is told to be accepted, if the port exists. -/
def Data.promised (data : Data) : List UInt8 :=
  if data.bytes.length % 65536 = 0 then []
  else data.bytes.take (Int32.ofNat data.bytes.length).toInt.toNat

/-- What event `e` appends to the stream of port `i`. -/
def queued (i : Nat) : Event → List UInt8
  | .write uartid data _ => if luatUartExist uartid ∧ uartid.toNat = i then data.queued else []
  | .irq _ _ => []

theorem step_stream (i : Nat) (s : Nat → Port) (e : Event) :
    stream (step s e i) = stream (s i) ++ queued i e := by
  cases e with
  | write uartid data fifos =>
    simp only [step, luatUartWrite, queued]
    cases hex : luatUartExist uartid with
    | false => simp
    | true =>
      by_cases hi : uartid.toNat = i
      · subst hi
        simp only [if_true, Function.update_self, and_self, tlsUartWrite_stream, Data.queued, UInt16.toNat_ofNat']
      · simp [hi, Function.update_of_ne (Ne.symm hi)]
  | irq uartNo fifos =>
    simp only [step, queued, List.append_nil]
    by_cases hi : uartNo = i
    · subst hi
      rw [Function.update_self, txChars_stream]
    · rw [Function.update_of_ne (Ne.symm hi)]

theorem accepted_eq (i : Nat) (s : Nat → Port) (uartid : Int) (data : Data) (fifos : Nat → UInt32) :
    accepted i (s, .write uartid data fifos) =
      if luatUartExist uartid ∧ uartid.toNat = i then data.promised else [] := by
  simp only [accepted, luatUartWrite]
  cases hex : luatUartExist uartid with
  | false => simp
  | true =>
    have hsmall : (UInt16.ofNat data.bytes.length < 1) ↔ data.bytes.length % 65536 = 0 := by
      rw [UInt16.lt_iff_toNat_lt, UInt16.toNat_ofNat', UInt16.toNat_one]
      omega
    by_cases hz : data.bytes.length % 65536 = 0
    · simp [tlsUartWrite, hsmall, hz, Data.promised]
    · simp [tlsUartWrite, hsmall, hz, Data.promised]

/-- A write that is queued as a whole, or refused as a whole. -/
def Data.narrow (data : Data) : Prop := data.bytes.length < 65536 ∨ 65536 ∣ data.bytes.length

theorem toNat_toInt_ofNat {n : Nat} (h : n < 2 ^ 32) :
    (Int32.ofNat n).toInt.toNat = if n < 2147483648 then n else 0 := by
  rw [Int32.toInt_ofNat', Int.bmod_def, Int32.size]
  split <;> split <;> omega

/-- A write is promised what is queued exactly if the narrowed length is the length, or 0. -/
theorem promised_eq_queued (data : Data) : data.promised = data.queued ↔ data.narrow := by
  have hfits := data.fits
  rw [Data.promised, Data.queued, Data.narrow, toNat_toInt_ofNat hfits]
  by_cases hz : data.bytes.length % 65536 = 0
  · simp [hz, Nat.dvd_of_mod_eq_zero]
  · rw [if_neg hz]
    constructor
    · intro h
      have hlen := congrArg List.length h
      rw [List.length_take, List.length_take] at hlen
      left
      split at hlen <;> omega
    · rintro (h | h)
      · rw [if_pos (by omega), Nat.mod_eq_of_lt h]
      · omega

/-- A write to an existing port has a length that fits in 16 bits, or is a multiple of 65536. -/
def Fits : Event → Prop
  | .write uartid data _ => luatUartExist uartid = true → data.narrow
  | .irq _ _ => True

theorem accepted_eq_queued (s : Nat → Port) (e : Event) :
    (∀ i, accepted i (s, e) = queued i e) ↔ Fits e := by
  cases e with
  | write uartid data fifos =>
    simp only [accepted_eq, queued, Fits]
    cases luatUartExist uartid with
    | false => simp
    | true =>
      simp only [true_and, forall_const, ← promised_eq_queued]
      constructor
      · intro h
        simpa using h uartid.toNat
      · intro h i
        rw [h]
  | irq uartNo fifos => simp [accepted, queued, Fits]

theorem runs_stream {s : Nat → Port} {es : List Event} (h : ∀ e ∈ es, Fits e) (i : Nat) :
    stream (runs step s es i) = stream (s i) ++ (trace step s es).flatMap (accepted i) := by
  induction es generalizing s with
  | nil => simp [trace]
  | cons e es ih =>
    rw [List.forall_mem_cons] at h
    have hacc := (accepted_eq_queued s e).mpr h.1 i
    rw [runs_cons, ih h.2, step_stream, trace, List.flatMap_cons, hacc, List.append_assoc]

/-- The transmit path of every port, in every state a run reaches: the bytes written to `UR_TXW` and the rests of
the queued messages are the bytes the writers were told to be accepted, exactly if each write fits. -/
theorem transmit_stream (es : List Event) :
    (∀ es', es' <+: es → ∀ i, stream (runs step uartPort es' i) =
      (trace step uartPort es').flatMap (accepted i)) ↔ ∀ e ∈ es, Fits e := by
  constructor
  · intro h e he
    obtain ⟨es₁, es₂, rfl⟩ := List.append_of_mem he
    rw [← accepted_eq_queued (runs step uartPort es₁)]
    intro i
    -- the state before the write and the one after it both keep the promise
    have hbefore := h es₁ ⟨e :: es₂, rfl⟩ i
    have hafter := h (es₁ ++ [e]) ⟨es₂, by simp⟩ i
    rw [runs_append, trace_append, runs_cons, runs_nil, step_stream, hbefore, List.flatMap_append,
      List.append_cancel_left_eq] at hafter
    simpa [trace] using hafter.symm
  · intro h es' hpre i
    have hfits : ∀ e ∈ es', Fits e := fun e he => h e (hpre.subset he)
    rw [runs_stream hfits i]
    rfl

theorem write_diverges {data : Data} (h : ¬ data.narrow) (fifos : Nat → UInt32) :
    stream (runs step uartPort [.write 1 data fifos] 1) ≠
      (trace step uartPort [.write 1 data fifos]).flatMap (accepted 1) := by
  intro heq
  have hport : luatUartExist 1 = true ∧ (1 : Int).toNat = 1 := ⟨rfl, rfl⟩
  rw [runs_cons, runs_nil, step_stream, trace, trace, List.flatMap_cons, accepted_eq, queued, if_pos hport,
    if_pos hport] at heq
  exact h ((promised_eq_queued data).mp (by simpa [stream, uartPort] using heq.symm))

theorem tooLong_fits : (List.replicate 65537 (0x55 : UInt8)).length < 2 ^ 32 := by
  rw [List.length_replicate]
  decide

/-- 65537 bytes: all of them are promised, one is queued. -/
def tooLong : Data := { bytes := List.replicate 65537 0x55, fits := tooLong_fits }

theorem transmit_too_long :
    stream (runs step uartPort [.write 1 tooLong fun _ => 0] 1) ≠
      (trace step uartPort [.write 1 tooLong fun _ => 0]).flatMap (accepted 1) := by
  refine write_diverges (fun hnarrow => ?_) _
  rw [Data.narrow, tooLong, List.length_replicate] at hnarrow
  omega

end Tx
end Uart
end Air101

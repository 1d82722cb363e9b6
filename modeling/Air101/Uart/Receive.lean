import Air101.Storage.Ring
import Air101.Storage.Runs

/-!
# Uart.Receive

The receive side of `platform/drivers/uart/wm_uart.c` for UART1 and UART2 to UART5: `UART1_IRQHandler` and
`UART2_4_IRQHandler` move the bytes of the receive FIFO into the ring of the port, and `tls_uart_read`
takes them out. A handler that finds the ring nearly full first moves `tail` itself.

* `rxInterrupt`: the receive part of both handlers, which is the same text in the source.
* `unread`: the bytes of a ring from `tail` to `head`.
* `unread_put`, `unread_dropOldest`, `tlsUartRead_eq`: what each operation does to them.
* `receive_stream`: over every run, the bytes received are the bytes read, the blocks dropped on an overflow
  and the bytes still in the ring, in this order.

The `rx_callback` of a port is told that there is something to read and does not touch the ring, so it is
left out, and so is the transmit part of the handlers.
-/

namespace Air101
namespace Uart

open Storage

def rxBufSize : UInt32 := 4096

def rxCacheLimit : UInt32 := 128

def uisRxFifo : UInt32 := (1 : UInt32) <<< 2
def uisRxFifoTimeout : UInt32 := (1 : UInt32) <<< 3
def uisBreak : UInt32 := (1 : UInt32) <<< 5
def uisFrmErr : UInt32 := (1 : UInt32) <<< 6
def uisParityErr : UInt32 := (1 : UInt32) <<< 7
def uisOverrun : UInt32 := (1 : UInt32) <<< 8

def uartRxIntFlag : UInt32 :=
  uisRxFifo ||| uisRxFifoTimeout ||| uisBreak ||| uisOverrun ||| uisFrmErr ||| uisParityErr

def uartRxErrIntFlag : UInt32 := uisBreak ||| uisFrmErr ||| uisParityErr

def circCnt (head tail size : UInt32) : UInt32 := (head - tail) &&& (size - 1)

def circSpace (head tail size : UInt32) : UInt32 := circCnt tail (head + 1) size

theorem and_size_lt (x : UInt32) : x &&& (rxBufSize - 1) < rxBufSize :=
  Nat.lt_of_le_of_lt Nat.and_le_right (by decide)

/-- `tls_uart_circ_buf`. The cells of `buf` behind the ring are the memory around it. -/
structure CircBuf where
  buf : Nat → UInt8
  head : UInt32
  tail : UInt32
  head_lt : head < rxBufSize
  tail_lt : tail < rxBufSize

/-- Store a character and advance `head`. -/
def CircBuf.put (recv : CircBuf) (ch : UInt8) : CircBuf :=
  { recv with
    buf := Function.update recv.buf recv.head.toNat ch
    head := (recv.head + 1) &&& (rxBufSize - 1)
    head_lt := and_size_lt _ }

/-- Give up the oldest `RX_CACHE_LIMIT` characters. -/
def CircBuf.dropOldest (recv : CircBuf) : CircBuf :=
  { recv with
    tail := (recv.tail + rxCacheLimit) &&& (rxBufSize - 1)
    tail_lt := and_size_lt _ }

/-- The ring has no more than `RX_CACHE_LIMIT` cells free. -/
def CircBuf.overflows (recv : CircBuf) : Bool :=
  decide (circSpace recv.head recv.tail rxBufSize ≤ rxCacheLimit)

/-- The part of a port the receive path uses. -/
structure Port where
  recv : CircBuf
  plusCharCnt : UInt8

/-- What a handler reads from the registers of its port: `UR_INTS`, `UR_INTM`, `UR_FIFOS`, and the values of
`UR_RXW` one read after another. -/
structure Regs where
  ints : UInt32
  intm : UInt32
  fifos : UInt32
  rxw : Nat → UInt8

def Regs.rxFifocnt (regs : Regs) : Nat := ((regs.fifos >>> 6) &&& 0x3F).toNat

/-- The handler enters its receive part. -/
def Regs.receives (regs : Regs) : Bool :=
  regs.ints &&& uartRxIntFlag != 0 && regs.intm &&& uisRxFifo == 0

def Regs.error (regs : Regs) : Bool := regs.ints &&& uartRxErrIntFlag != 0

/-- The characters that the receive loop takes out of the FIFO. -/
def Regs.chars (regs : Regs) : List UInt8 := (List.range regs.rxFifocnt).map regs.rxw

/-- The two characters in front of the last one are `'+'`. With `head` back at 0 the source reads in front of
the ring. -/
def CircBuf.plusSeen (recv : CircBuf) : Bool :=
  match (recv.head - 1).toNat with
  | 0 => recv.buf 4095 == 43 && recv.buf 4094 == 43
  | 1 => recv.buf 0 == 43 && recv.buf 4095 == 43
  | _ => recv.buf (recv.head - 2).toNat == 43 && recv.buf (recv.head - 3).toNat == 43

/-- The ring after the check for an overflow. -/
def CircBuf.makeRoom (recv : CircBuf) : CircBuf :=
  if recv.overflows then recv.dropOldest else recv

/-- The receive part of `UART1_IRQHandler` and of `UART2_4_IRQHandler`. -/
def rxInterrupt (port : Port) (regs : Regs) : Port :=
  if regs.receives then
    let recv := regs.chars.foldl (fun recv ch => if regs.error then recv else recv.put ch)
      port.recv.makeRoom
    { recv
      plusCharCnt :=
        if regs.rxFifocnt = 3 ∧ regs.rxw 2 = 43 ∧ recv.plusSeen = true then 3 else 0 }
  else port

/-- `findOutIntUart`: the first of UART2 to UART5 with a pending interrupt, 6 if there is none. -/
def findOutIntUart (src : Nat → UInt32) : Nat :=
  ((List.range' 2 4).find? fun i => src i &&& 0x1FF != 0).getD 6

/-- `tls_uart_read`: the result, what is written to the caller's buffer, and the ring. -/
def tlsUartRead (recv : CircBuf) (null : Bool) (readsize : UInt16) : Int × List UInt8 × CircBuf :=
  if null ∨ readsize < 1 then (-1, [], recv)
  else
    let dataCnt := (circCnt recv.head recv.tail rxBufSize).toNat
    let buflen := if dataCnt ≥ readsize.toNat then readsize.toNat else dataCnt
    let out :=
      if recv.tail.toNat + buflen > rxBufSize.toNat then
        let bufcopylen := rxBufSize.toNat - recv.tail.toNat
        copy recv.buf recv.tail.toNat bufcopylen ++ copy recv.buf 0 (buflen - bufcopylen)
      else copy recv.buf recv.tail.toNat buflen
    (buflen, out,
      { recv with
        tail := (recv.tail + UInt32.ofNat buflen) &&& (rxBufSize - 1)
        tail_lt := and_size_lt _ })

/-- The characters from `tail` to `head`. -/
def unread (recv : CircBuf) : List UInt8 :=
  span rxBufSize.toNat recv.buf recv.tail.toNat (circCnt recv.head recv.tail rxBufSize).toNat

section Ring

variable {recv : CircBuf}

theorem rxBufSize_toNat : rxBufSize.toNat = 4096 := rfl

theorem toNat_and_size (x : UInt32) : (x &&& (rxBufSize - 1)).toNat = x.toNat % 4096 := by
  rw [UInt32.toNat_and]
  exact Nat.and_two_pow_sub_one_eq_mod x.toNat 12

theorem circCnt_toNat (head tail : UInt32) (h : tail < rxBufSize) :
    (circCnt head tail rxBufSize).toNat = (head.toNat + 4096 - tail.toNat) % 4096 := by
  have ht : tail.toNat < 4096 := h
  have hh := head.toNat_lt
  rw [circCnt, toNat_and_size, UInt32.toNat_sub]
  omega

theorem circSpace_toNat (recv : CircBuf) :
    (circSpace recv.head recv.tail rxBufSize).toNat = 4095 - (unread recv).length := by
  have hh : recv.head.toNat < 4096 := recv.head_lt
  have ht : recv.tail.toNat < 4096 := recv.tail_lt
  rw [unread, length_span, circCnt_toNat _ _ recv.tail_lt, circSpace, circCnt, toNat_and_size, UInt32.toNat_sub,
    UInt32.toNat_add]
  simp only [UInt32.toNat_one]
  omega

theorem length_unread_lt : (unread recv).length < 4096 := by
  rw [unread, length_span, circCnt_toNat _ _ recv.tail_lt]
  omega

theorem unread_of_empty (h : recv.head = recv.tail) : unread recv = [] := by
  have hcnt : (circCnt recv.head recv.tail rxBufSize).toNat = 0 := by
    rw [h, circCnt, UInt32.sub_self]
    rfl
  rw [unread, hcnt, span_zero]

theorem overflows_iff : recv.overflows = true ↔ 3967 ≤ (unread recv).length := by
  have hlen : (unread recv).length < 4096 := length_unread_lt
  have hspace := circSpace_toNat recv
  simp only [CircBuf.overflows, decide_eq_true_eq, UInt32.le_iff_toNat_le, hspace]
  show 4095 - (unread recv).length ≤ 128 ↔ _
  omega

/-- A store at `head` appends, as long as one cell stays free. -/
theorem unread_put (ch : UInt8) (h : (unread recv).length < 4095) :
    unread (recv.put ch) = unread recv ++ [ch] := by
  have hh : recv.head.toNat < 4096 := recv.head_lt
  have ht : recv.tail.toNat < 4096 := recv.tail_lt
  have hlen : (unread recv).length = (recv.head.toNat + 4096 - recv.tail.toNat) % 4096 := by
    rw [unread, length_span, circCnt_toNat _ _ recv.tail_lt]
  have hhead : recv.head.toNat = (recv.tail.toNat + (unread recv).length) % 4096 := by
    rw [hlen]
    omega
  have hcnt : (circCnt (recv.put ch).head (recv.put ch).tail rxBufSize).toNat = (unread recv).length + 1 := by
    rw [circCnt_toNat _ _ (recv.put ch).tail_lt]
    simp only [CircBuf.put, toNat_and_size, UInt32.toNat_add, UInt32.toNat_one]
    omega
  rw [unread, hcnt]
  simp only [CircBuf.put, rxBufSize_toNat]
  rw [hhead, span_push ch (by omega)]
  simp only [unread, length_span, rxBufSize_toNat]

theorem unread_foldl_put (bs : List UInt8) (h : (unread recv).length + bs.length ≤ 4095) :
    unread (bs.foldl CircBuf.put recv) = unread recv ++ bs := by
  induction bs generalizing recv with
  | nil => simp
  | cons b bs ih =>
    rw [List.length_cons] at h
    have hput : unread (recv.put b) = unread recv ++ [b] := unread_put b (by omega)
    rw [List.foldl_cons, ih (by rw [hput, List.length_append, List.length_singleton]; omega), hput,
      List.append_assoc, List.singleton_append]

theorem unread_advance {recv' : CircBuf} {k : Nat} (hk : k ≤ (unread recv).length) (hbuf : recv'.buf = recv.buf)
    (hhead : recv'.head = recv.head) (htail : recv'.tail.toNat = (recv.tail.toNat + k) % 4096) :
    unread recv' = (unread recv).drop k := by
  have hh : recv.head.toNat < 4096 := recv.head_lt
  have ht : recv.tail.toNat < 4096 := recv.tail_lt
  have hlen : (unread recv).length = (recv.head.toNat + 4096 - recv.tail.toNat) % 4096 := by
    rw [unread, length_span, circCnt_toNat _ _ recv.tail_lt]
  have hcnt : (circCnt recv'.head recv'.tail rxBufSize).toNat = (unread recv).length - k := by
    rw [circCnt_toNat _ _ recv'.tail_lt, hhead, htail]
    omega
  have hdrop : (span 4096 recv.buf recv.tail.toNat (unread recv).length).drop k = _ := drop_span hk
  rw [unread, hcnt, hbuf, htail, rxBufSize_toNat, ← hdrop]
  simp only [unread, length_span, rxBufSize_toNat]

theorem unread_dropOldest (h : 128 ≤ (unread recv).length) :
    unread recv.dropOldest = (unread recv).drop 128 := by
  refine unread_advance h rfl rfl ?_
  have ht : recv.tail.toNat < 4096 := recv.tail_lt
  rw [CircBuf.dropOldest, toNat_and_size, UInt32.toNat_add]
  show (recv.tail.toNat + 128) % _ % _ = _
  omega

theorem unread_makeRoom (recv : CircBuf) :
    unread recv.makeRoom = if recv.overflows then (unread recv).drop 128 else unread recv := by
  rw [CircBuf.makeRoom]
  split
  · rename_i h
    exact unread_dropOldest (by have := overflows_iff.mp h; omega)
  · rfl

theorem length_makeRoom (recv : CircBuf) : (unread recv.makeRoom).length ≤ 3967 := by
  have hlt : (unread recv).length < 4096 := length_unread_lt
  rw [unread_makeRoom]
  split
  · rw [List.length_drop]
    omega
  · rename_i h
    rw [overflows_iff] at h
    omega

theorem tlsUartRead_failed (recv : CircBuf) {null : Bool} {readsize : UInt16} (h : null = true ∨ readsize < 1) :
    tlsUartRead recv null readsize = (-1, [], recv) := if_pos h

theorem tlsUartRead_eq (recv : CircBuf) (null : Bool) (readsize : UInt16) (h : ¬ (null = true ∨ readsize < 1)) :
    (tlsUartRead recv null readsize).1 = ((unread recv).take readsize.toNat).length ∧
    (tlsUartRead recv null readsize).2.1 = (unread recv).take readsize.toNat ∧
    unread (tlsUartRead recv null readsize).2.2 = (unread recv).drop readsize.toNat := by
  have ht : recv.tail.toNat < 4096 := recv.tail_lt
  have hlt : (unread recv).length < 4096 := length_unread_lt
  have hcnt : (circCnt recv.head recv.tail rxBufSize).toNat = (unread recv).length := by
    rw [unread, length_span]
  -- `buflen` is the smaller of the two lengths, and reading it is reading `readsize`
  obtain ⟨n, hn⟩ : ∃ n, (if (unread recv).length ≥ readsize.toNat then readsize.toNat
      else (unread recv).length) = n := ⟨_, rfl⟩
  have hle : n ≤ (unread recv).length := by
    split at hn <;> omega
  have htake : (unread recv).take readsize.toNat = (unread recv).take n := by
    split at hn
    · rw [hn]
    · rw [List.take_of_length_le (by omega), List.take_of_length_le (by omega)]
  have hdrop : (unread recv).drop readsize.toNat = (unread recv).drop n := by
    split at hn
    · rw [hn]
    · rw [List.drop_eq_nil_of_le (by omega), List.drop_eq_nil_of_le (by omega)]
  have hspan : (unread recv).take n = span 4096 recv.buf recv.tail.toNat n := by
    rw [← hcnt] at hle
    exact take_span hle
  rw [htake, hdrop]
  simp only [tlsUartRead, if_neg h, hcnt, hn]
  refine ⟨?_, ?_, ?_⟩
  · rw [List.length_take_of_le hle]
  · rw [hspan]
    split
    · rename_i hwrap
      exact copy_copy (by rw [rxBufSize_toNat]; omega) (by omega) (by rw [rxBufSize_toNat]; omega)
    · rename_i hwrap
      exact copy_eq_span (by rw [rxBufSize_toNat] at hwrap; omega)
  · refine unread_advance hle rfl rfl ?_
    rw [toNat_and_size, UInt32.toNat_add, UInt32.toNat_ofNat']
    omega

end Ring

/-- The characters an interrupt brings: none if the handler skips its receive part, or flags an error. -/
def Regs.received (regs : Regs) : List UInt8 :=
  if regs.receives && !regs.error then regs.chars else []

/-- An interrupt or a call, as one port sees it. -/
inductive Call where
  | irq (regs : Regs)
  | read (null : Bool) (readsize : UInt16)

def Port.call (port : Port) : Call → Port
  | .irq regs => rxInterrupt port regs
  | .read null readsize => { port with recv := (tlsUartRead port.recv null readsize).2.2 }

/-- What can happen to `uart_port`. -/
inductive Event where
  | uart1 (regs : Regs)
  | uart24 (src : Nat → UInt32) (regs : Regs)
  | read (uartNo : Nat) (null : Bool) (readsize : UInt16)

/-- The index of the port an event works on. -/
def Event.target : Event → Nat
  | .uart1 _ => 1
  | .uart24 src _ => findOutIntUart src
  | .read uartNo _ _ => uartNo

def Event.call : Event → Call
  | .uart1 regs => .irq regs
  | .uart24 _ regs => .irq regs
  | .read _ null readsize => .read null readsize

def step (uartPort : Nat → Port) (e : Event) : Nat → Port :=
  Function.update uartPort e.target ((uartPort e.target).call e.call)

/-- The ports after `tls_uart_port_init`. -/
def uartPort : Nat → Port := fun _ =>
  { recv := { buf := fun _ => 0, head := 0, tail := 0, head_lt := by decide, tail_lt := by decide }
    plusCharCnt := 0 }

/-- A block of characters that leaves a ring. -/
inductive Block where
  | read (bs : List UInt8)
  | lost (bs : List UInt8)

def Block.bytes : Block → List UInt8
  | .read bs => bs
  | .lost bs => bs

/-- What of a block the reader gets. -/
def Block.delivered : Block → List UInt8
  | .read bs => bs
  | .lost _ => []

/-- The characters that come in by a call. -/
def Call.received : Call → List UInt8
  | .irq regs => regs.received
  | .read _ _ => []

/-- The characters that `tls_uart_read` hands out. -/
def Port.returned (port : Port) : Call → List UInt8
  | .irq _ => []
  | .read null readsize => (tlsUartRead port.recv null readsize).2.1

/-- The blocks that leave the ring of a port: what is read, and the oldest unread characters at an overflow. -/
def Port.consumed (port : Port) : Call → List Block
  | .irq regs =>
    if regs.receives && port.recv.overflows then [.lost ((unread port.recv).take rxCacheLimit.toNat)] else []
  | .read null readsize => [.read (tlsUartRead port.recv null readsize).2.1]

/-- What an observer of port `i` writes down at an event, `f` telling it what to write at a call. -/
def observe {β : Type} (i : Nat) (f : Port → Call → List β) (p : (Nat → Port) × Event) : List β :=
  if p.2.target = i then f (p.1 i) p.2.call else []

section Stream

variable {port : Port} {c : Call}

theorem chars_le (regs : Regs) : regs.chars.length ≤ 63 := by
  rw [Regs.chars, List.length_map, List.length_range, Regs.rxFifocnt, UInt32.toNat_and]
  exact Nat.and_le_right

theorem unread_rxInterrupt (port : Port) (regs : Regs) :
    unread (rxInterrupt port regs).recv =
      (if regs.receives then unread port.recv.makeRoom else unread port.recv) ++ regs.received := by
  have hcnt := chars_le regs
  have hroom := length_makeRoom port.recv
  rw [rxInterrupt, Regs.received]
  cases regs.receives with
  | false => simp
  | true =>
    cases regs.error with
    | false => simpa using unread_foldl_put regs.chars (by omega)
    | true => simp

theorem call_stream (port : Port) (c : Call) :
    unread port.recv ++ c.received = (port.consumed c).flatMap Block.bytes ++ unread (port.call c).recv := by
  cases c with
  | irq regs =>
    simp only [Call.received, Port.consumed, Port.call, unread_rxInterrupt, unread_makeRoom]
    cases regs.receives with
    | false => simp
    | true =>
      cases port.recv.overflows with
      | false => simp
      | true =>
        simp only [Bool.and_self, if_true, List.flatMap_singleton, Block.bytes]
        rw [← List.append_assoc, show rxCacheLimit.toNat = 128 from rfl, List.take_append_drop]
  | read null readsize =>
    simp only [Call.received, Port.consumed, Port.call, List.append_nil, List.flatMap_singleton, Block.bytes]
    by_cases h : null = true ∨ readsize < 1
    · rw [tlsUartRead_failed port.recv h, List.nil_append]
    · obtain ⟨-, hout, hrest⟩ := tlsUartRead_eq port.recv null readsize h
      rw [hout, hrest, List.take_append_drop]

theorem consumed_delivered (port : Port) (c : Call) :
    (port.consumed c).flatMap Block.delivered = port.returned c := by
  cases c with
  | irq regs =>
    simp only [Port.consumed, Port.returned]
    split
    · rfl
    · rfl
  | read null readsize => simp [Port.consumed, Port.returned, Block.delivered]

theorem lost_oldest {bs : List UInt8} (h : Block.lost bs ∈ port.consumed c) :
    ∃ regs, c = .irq regs ∧ regs.receives = true ∧ port.recv.overflows = true ∧
      bs = (unread port.recv).take 128 := by
  cases c with
  | irq regs =>
    simp only [Port.consumed] at h
    split at h
    · rename_i hov
      rw [Bool.and_eq_true] at hov
      rw [List.mem_singleton] at h
      exact ⟨regs, rfl, hov.1, hov.2, Block.lost.inj h⟩
    · cases h
  | read null readsize =>
    rw [Port.consumed, List.mem_singleton] at h
    cases h

/-- Each store of a receive interrupt finds more than one cell free, so `head` does not reach `tail`. -/
theorem rxInterrupt_room (recv : CircBuf) (regs : Regs) {j : Nat} (hj : j < regs.chars.length) :
    1 < (circSpace ((regs.chars.take j).foldl CircBuf.put recv.makeRoom).head
      ((regs.chars.take j).foldl CircBuf.put recv.makeRoom).tail rxBufSize).toNat := by
  have hcnt := chars_le regs
  have hroom := length_makeRoom recv
  have htake : (regs.chars.take j).length = j := List.length_take_of_le (by omega)
  rw [circSpace_toNat, unread_foldl_put _ (by omega), List.length_append]
  omega

theorem step_stream (i : Nat) (s : Nat → Port) (e : Event) :
    unread (s i).recv ++ observe i (fun _ c => c.received) (s, e) =
      (observe i Port.consumed (s, e)).flatMap Block.bytes ++ unread (step s e i).recv := by
  simp only [observe, step]
  split
  · rename_i h
    subst h
    rw [Function.update_self]
    exact call_stream _ _
  · rename_i h
    rw [Function.update_of_ne (Ne.symm h)]
    simp

theorem runs_stream (i : Nat) (s : Nat → Port) (es : List Event) :
    unread (s i).recv ++ (trace step s es).flatMap (observe i fun _ c => c.received) =
      ((trace step s es).flatMap (observe i Port.consumed)).flatMap Block.bytes ++
        unread (runs step s es i).recv := by
  induction es generalizing s with
  | nil => simp [trace]
  | cons e es ih =>
    simp only [trace, List.flatMap_cons, List.flatMap_append, runs_cons]
    rw [← List.append_assoc, step_stream i s e, List.append_assoc, ih (step s e), List.append_assoc]

theorem observe_delivered (i : Nat) (p : (Nat → Port) × Event) :
    (observe i Port.consumed p).flatMap Block.delivered = observe i Port.returned p := by
  rw [observe, observe]
  split
  · exact consumed_delivered _ _
  · rfl

theorem trace_delivered (i : Nat) (t : List ((Nat → Port) × Event)) :
    (t.flatMap (observe i Port.consumed)).flatMap Block.delivered = t.flatMap (observe i Port.returned) := by
  induction t with
  | nil => rfl
  | cons p t ih => simp only [List.flatMap_cons, List.flatMap_append, observe_delivered, ih]

end Stream

/-- The receive ring of every port, over every run: the characters received are the blocks that left the ring
and what is still in it; the blocks that were read are what `tls_uart_read` returned; the others were each the
oldest unread characters at an overflow. No store fills the ring, and a ring that looks empty is empty. -/
theorem receive_stream (i : Nat) (es : List Event) :
    (trace step uartPort es).flatMap (observe i fun _ c => c.received) =
      ((trace step uartPort es).flatMap (observe i Port.consumed)).flatMap Block.bytes ++
        unread (runs step uartPort es i).recv ∧
    (trace step uartPort es).flatMap (observe i Port.returned) =
      ((trace step uartPort es).flatMap (observe i Port.consumed)).flatMap Block.delivered ∧
    (∀ bs, Block.lost bs ∈ (trace step uartPort es).flatMap (observe i Port.consumed) →
      ∃ p ∈ trace step uartPort es, p.2.target = i ∧ (∃ regs, p.2.call = .irq regs ∧ regs.receives = true) ∧
        (p.1 i).recv.overflows = true ∧ bs = (unread (p.1 i).recv).take 128) ∧
    (∀ p ∈ trace step uartPort es, ∀ regs, p.2.call = .irq regs → ∀ j, j < regs.chars.length →
      1 < (circSpace ((regs.chars.take j).foldl CircBuf.put (p.1 i).recv.makeRoom).head
        ((regs.chars.take j).foldl CircBuf.put (p.1 i).recv.makeRoom).tail rxBufSize).toNat) ∧
    ((runs step uartPort es i).recv.head = (runs step uartPort es i).recv.tail →
      (trace step uartPort es).flatMap (observe i fun _ c => c.received) =
        ((trace step uartPort es).flatMap (observe i Port.consumed)).flatMap Block.bytes) := by
  have hstream := runs_stream i uartPort es
  rw [show unread (uartPort i).recv = [] from unread_of_empty rfl, List.nil_append] at hstream
  refine ⟨hstream, (trace_delivered i _).symm, fun bs hbs => ?_, fun p _ regs _ j hj => ?_, fun h => ?_⟩
  · obtain ⟨p, hp, hbs⟩ := List.mem_flatMap.mp hbs
    rw [observe] at hbs
    split at hbs
    · rename_i htarget
      obtain ⟨regs, hc, hr, hov, rfl⟩ := lost_oldest hbs
      exact ⟨p, hp, htarget, ⟨regs, hc, hr⟩, hov, rfl⟩
    · cases hbs
  · exact rxInterrupt_room _ _ hj
  · rw [hstream, unread_of_empty h, List.append_nil]

end Uart
end Air101

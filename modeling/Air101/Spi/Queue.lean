import Air101.Spi.Fifo
import Air101.Storage.Runs

/-!
# Spi.Queue

The message queue of the SPI master (`platform/drivers/spi/wm_hostspi.c`). `tls_spi_async` appends a message to
`wait_queue` under the lock and, if the queue was empty, posts START to the scheduler afterwards; any number of callers
may be between the two. `spi_scheduler` takes one message of its own queue at a time. A started transfer ends with its
bytes in the receive FIFO and a TRANSFER_COMPLETE in that queue, which never overflows.

Messages are numbered in the order in which they are appended.

* `Executed ts fs wire`: the transfers `ts`, one after the other, put `wire` on the wire and ended as `fs`.
* `Executed.mosi`: what goes out then is the concatenation of their transmit buffers.
* `step_inv`: what every step keeps.
* `spi_messages`: messages are executed in order and completed once, and the scheduler never sleeps on a non-empty queue.
-/

namespace Air101
namespace Spi

open Storage

inductive SchedMsg where
  | startEngine
  | transferComplete
  deriving DecidableEq

inductive Status where
  | idle
  | inprogress
  | done
  deriving DecidableEq

/-- `spi_port`, its controller, the callers that are about to post, and what was appended, clocked, taken off a
message and completed so far. -/
structure Port where
  waitQueue : List Nat
  transfers : Nat → List Transfer
  status : Nat → Status
  currentMessage : Option Nat
  currentTransfer : Option Transfer
  currentRemainingBytes : Nat
  msgQueue : List SchedMsg
  posting : Nat
  txFifo : List (BitVec 32)
  sclk : Option Nat
  rxFifo : List Byte
  appended : List (List Transfer)
  wire : List (Byte × Byte)
  finished : List Transfer
  completed : List Nat

/-- The port after `tls_spi_init`. -/
def Port.init : Port :=
  { waitQueue := [], transfers := fun _ => [], status := fun _ => .idle, currentMessage := none, currentTransfer := none
    currentRemainingBytes := 0, msgQueue := [], posting := 0, txFifo := [], sclk := none, rxFifo := [], appended := []
    wire := [], finished := [], completed := [] }

/-- `spi_next_message`, with its result as the current message. -/
def Port.nextMessage (s : Port) : Port :=
  match s.waitQueue.head? with
  | none => { s with currentMessage := none }
  | some m =>
    { s with
      currentMessage := some m, currentTransfer := (s.transfers m).head?
      status := Function.update s.status m .inprogress }

/-- `spi_fill_txfifo` for the current transfer; the free space is `32 - SPI_GET_TX_FIFO_CNT`. -/
def Port.fill (s : Port) : Port × Nat :=
  match s.currentTransfer with
  | none => (s, 0)
  | some t =>
    if s.currentRemainingBytes = 0 then (s, 0)
    else
      let (words, n) := fillTxfifo t s.currentRemainingBytes (32 - 4 * s.txFifo.length)
      ({ s with txFifo := s.txFifo ++ words }, n)

def Port.startTransfer (s : Port) (transferBytes : Nat) : Port := { s with sclk := some transferBytes }

/-- The case SPI_SCHED_MSG_START_ENGINE of `spi_scheduler`. -/
def Port.startEngine (s : Port) : Port :=
  if s.currentMessage ≠ none then s
  else
    let s := s.nextMessage
    match s.currentTransfer with
    | none => s
    | some t =>
      let s := { s with currentRemainingBytes := t.len }
      s.fill.1.startTransfer s.fill.2

/-- The part of `spi_continue_transfer` behind the end of transfer `t` of message `m`, which is the first of `m`. -/
def Port.endTransfer (s : Port) (m : Nat) (t : Transfer) : Port :=
  let rest := (s.transfers m).tail
  let s := { s with
    transfers := Function.update s.transfers m rest, currentTransfer := rest.head?, finished := s.finished ++ [t] }
  let s := match s.currentTransfer with
    | some _ => s
    | none =>
      Port.nextMessage { s with status := Function.update s.status m .done, waitQueue := s.waitQueue.erase m }
  match s.currentTransfer with
  | some t => { s with currentRemainingBytes := t.len }
  | none => s

/-- The part of `spi_continue_transfer` that goes on with the current transfer. -/
def Port.fillAndStart (s : Port) : Port := if s.fill.2 ≠ 0 then s.fill.1.startTransfer s.fill.2 else s.fill.1

/-- The end of `spi_continue_transfer` for message `m`. -/
def Port.complete (s : Port) (m : Nat) : Port :=
  if s.status m = .done then { s with completed := s.completed ++ [m] } else s

/-- `spi_continue_transfer`. -/
def Port.continueTransfer (s : Port) : Port :=
  match s.currentMessage, s.currentTransfer with
  | some m, some t =>
    let (t, n) := if s.currentRemainingBytes = 0 then (t, 0) else getRxfifo t s.currentRemainingBytes s.rxFifo
    let s := { s with
      currentTransfer := some t, currentRemainingBytes := s.currentRemainingBytes - n, rxFifo := [] }
    let s := if s.currentRemainingBytes = 0 then s.endTransfer m t else s
    s.fillAndStart.complete m
  | _, _ => s

inductive Step where
  /-- `tls_spi_async` up to the release of the lock. -/
  | append (ts : List Transfer)
  /-- A caller that saw an empty queue posts START. -/
  | post
  /-- The bytes of the started transfer are clocked, with those of `miso` coming in. -/
  | clock (miso : Nat → Byte)
  /-- `spi_scheduler` takes a message. -/
  | sched

def step (s : Port) : Step → Port
  | .append ts =>
    if ts = [] ∨ ∃ t ∈ ts, t.len = 0 then s
    else
      { s with
        waitQueue := s.waitQueue ++ [s.appended.length]
        transfers := Function.update s.transfers s.appended.length ts
        status := Function.update s.status s.appended.length .idle
        posting := if s.waitQueue = [] then s.posting + 1 else s.posting
        appended := s.appended ++ [ts] }
  | .post =>
    if s.posting = 0 then s
    else { s with posting := s.posting - 1, msgQueue := s.msgQueue ++ [.startEngine] }
  | .clock miso => match s.sclk with
    | none => s
    | some k =>
      { s with
        sclk := none, txFifo := [], rxFifo := copy miso 0 k, msgQueue := s.msgQueue ++ [.transferComplete]
        wire := s.wire ++ (wireBytes s.txFifo k).zip (copy miso 0 k) }
  | .sched => match s.msgQueue with
    | [] => s
    | .startEngine :: q => { s with msgQueue := q }.startEngine
    | .transferComplete :: q => { s with msgQueue := q }.continueTransfer

/-! ## What is to be executed -/

/-- Transfer `t` is `f` after the bytes `seg` of it, which has what came in at the start of its receive buffer and
nothing else changed. -/
structure Exchanged (t f : Transfer) (seg : List (Byte × Byte)) : Prop where
  mosi : seg.map Prod.fst = copy t.txByte 0 seg.length
  miso : f = { t with rxBuf := t.rxBuf.map fun buf => poke buf 0 (seg.map Prod.snd) }

/-- The transfers `ts`, executed one after the other, put `wire` on the wire and ended as `fs`. -/
inductive Executed : List Transfer → List Transfer → List (Byte × Byte) → Prop where
  | nil : Executed [] [] []
  | snoc {ts fs : List Transfer} {wire seg : List (Byte × Byte)} {t f : Transfer} (h : Executed ts fs wire)
      (hx : Exchanged t f seg) (hlen : seg.length = t.len) : Executed (ts ++ [t]) (fs ++ [f]) (wire ++ seg)

/-- The completed messages and the transfers `part` were executed, and then `tail` was clocked. -/
def Port.InOrder (s : Port) (part : List Transfer) (tail : List (Byte × Byte)) : Prop :=
  ∃ wire, Executed ((s.appended.take s.completed.length).flatten ++ part) s.finished wire ∧ s.wire = wire ++ tail

theorem Executed.mosi {ts fs : List Transfer} {wire : List (Byte × Byte)} (h : Executed ts fs wire) :
    wire.map Prod.fst = ts.flatMap Transfer.txBytes := by
  induction h with
  | nil => rfl
  | snoc _ hx hlen ih => simp [ih, hx.mosi, hlen, Transfer.txBytes]

theorem Executed.length {ts fs : List Transfer} {wire : List (Byte × Byte)} (h : Executed ts fs wire) :
    wire.length = (ts.map Transfer.len).sum := by
  induction h with
  | nil => rfl
  | snoc _ _ hlen ih => simp [ih, hlen]

/-! ## The invariant -/

/-- The completed messages are the first ones, and the others are in `wait_queue`. -/
structure Port.Queued (s : Port) : Prop where
  completed : s.completed = List.range s.completed.length
  le : s.completed.length ≤ s.appended.length
  waitQueue : s.waitQueue = List.range' s.completed.length (s.appended.length - s.completed.length)
  waiting : ∀ i ts, s.appended[i]? = some ts → s.completed.length < i → s.transfers i = ts
  nonempty : ∀ ts ∈ s.appended, ts ≠ [] ∧ ∀ t ∈ ts, t.len ≠ 0

/-- No message is current. If there is one, a START is pending or about to be posted. -/
structure Port.Idle (s : Port) : Prop where
  message : s.currentMessage = none
  transfer : s.currentTransfer = none
  sclk : s.sclk = none
  txFifo : s.txFifo = []
  first : ∀ ts, s.appended[s.completed.length]? = some ts → s.transfers s.completed.length = ts
  inOrder : s.InOrder [] []
  start : s.waitQueue = [] ∧ s.posting = 0 ∧ s.msgQueue = [] ∨
    s.waitQueue ≠ [] ∧ (s.posting = 1 ∧ s.msgQueue = [] ∨ s.posting = 0 ∧ s.msgQueue = [.startEngine])

/-- The first message that is not completed is current: its transfers `part` are done, `t0` is `t` after the bytes
`seg` of it, and `rest` is to follow. -/
structure Port.Current (s : Port) (part : List Transfer) (t0 : Transfer) (rest : List Transfer) (t : Transfer)
    (seg : List (Byte × Byte)) : Prop where
  message : s.currentMessage = some s.completed.length
  transfer : s.currentTransfer = some t
  appended : s.appended[s.completed.length]? = some (part ++ t0 :: rest)
  transfers : s.transfers s.completed.length = t0 :: rest
  status : s.status s.completed.length = .inprogress
  posting : s.posting = 0
  remaining : 0 < s.currentRemainingBytes
  length : seg.length + s.currentRemainingBytes = t0.len
  exchanged : Exchanged t0 t seg

/-- A transfer is started, or its TRANSFER_COMPLETE is pending. -/
inductive Port.Busy (s : Port) : Prop where
  | running {part t0 rest t seg} (k : Nat) (h : s.Current part t0 rest t seg) (hsclk : s.sclk = some k) (h0 : 0 < k)
      (hle : k ≤ s.currentRemainingBytes) (hwire : wireBytes s.txFifo k = copy t0.txByte seg.length k)
      (hmsg : s.msgQueue = []) (hord : s.InOrder part seg)
  | clocked {part t0 rest t seg} (chunk : List (Byte × Byte)) (h : s.Current part t0 rest t seg) (hsclk : s.sclk = none)
      (htx : s.txFifo = []) (hrx : s.rxFifo = chunk.map Prod.snd) (h0 : 0 < chunk.length)
      (hle : chunk.length ≤ s.currentRemainingBytes)
      (hwire : chunk.map Prod.fst = copy t0.txByte seg.length chunk.length)
      (hmsg : s.msgQueue = [.transferComplete]) (hord : s.InOrder part (seg ++ chunk))

structure Port.Inv (s : Port) : Prop where
  queued : s.Queued
  phase : s.Idle ∨ s.Busy

theorem Exchanged.refl (t : Transfer) : Exchanged t t [] := by
  refine ⟨rfl, ?_⟩
  have hpoke : (fun buf => poke buf 0 (List.map Prod.snd ([] : List (Byte × Byte)))) = id :=
    funext fun buf => poke_nil buf 0
  rw [hpoke, Option.map_id, id]

theorem Exchanged.append {t f : Transfer} {seg chunk : List (Byte × Byte)} (h : Exchanged t f seg) {remaining : Nat}
    (hlen : seg.length + remaining = t.len) (hmosi : chunk.map Prod.fst = copy t.txByte seg.length chunk.length) :
    Exchanged t (getRxfifo f remaining (chunk.map Prod.snd)).1 (seg ++ chunk) := by
  constructor
  · rw [List.map_append, h.mosi, hmosi, List.length_append, copy_add, Nat.zero_add]
  · have hoff : t.len - remaining = seg.length := by omega
    have hstore (buf : Nat → Byte) : rxStore (poke buf 0 (seg.map Prod.snd)) seg.length (chunk.map Prod.snd) =
        poke buf 0 ((seg ++ chunk).map Prod.snd) := by
      have happend := poke_append buf 0 (seg.map Prod.snd) (chunk.map Prod.snd)
      rw [List.length_map, Nat.zero_add] at happend
      rw [rxStore_eq, happend, List.map_append]
    rw [h.miso]
    simp [getRxfifo, hoff, Function.comp_def, hstore]

/-! ## Steps -/

section Steps

variable {s : Port} {part rest : List Transfer} {t0 t : Transfer} {seg : List (Byte × Byte)}

theorem fill_eq (ht : s.currentTransfer = some t) (h0 : 0 < s.currentRemainingBytes) (htx : s.txFifo = []) :
    s.fill = ({ s with txFifo := (fillTxfifo t s.currentRemainingBytes 32).1 }, min 32 s.currentRemainingBytes) := by
  simp [Port.fill, ht, htx, Nat.ne_of_gt h0, ← fillTxfifo_snd t]

theorem fill_busy (h : s.Current part t0 rest t seg) (htx : s.txFifo = []) (hmsg : s.msgQueue = [])
    (hord : s.InOrder part seg) : s.fill.2 ≠ 0 ∧ (s.fill.1.startTransfer s.fill.2).Busy := by
  have h0 := h.remaining
  have hfill := fill_eq h.transfer h0 htx
  have hlen : t.len - s.currentRemainingBytes = seg.length := by
    have hsum := h.length
    rw [h.exchanged.miso]
    show t0.len - _ = _
    omega
  have hbyte : t.txByte = t0.txByte := by
    rw [h.exchanged.miso]
    rfl
  have hwire := fillTxfifo_wire t s.currentRemainingBytes 32
  rw [hlen, hbyte, fillTxfifo_snd] at hwire
  have hcur : Port.Current { s with
      txFifo := (fillTxfifo t s.currentRemainingBytes 32).1, sclk := some (min 32 s.currentRemainingBytes) }
      part t0 rest t seg :=
    ⟨h.message, h.transfer, h.appended, h.transfers, h.status, h.posting, h.remaining, h.length, h.exchanged⟩
  rw [hfill]
  exact ⟨by show min 32 _ ≠ 0; omega, .running _ hcur rfl (by omega) (Nat.min_le_right _ _) hwire hmsg hord⟩

theorem current_lt (h : s.Current part t0 rest t seg) : s.completed.length < s.appended.length := by
  have happ := h.appended
  rw [List.getElem?_eq_some_iff] at happ
  exact happ.1

theorem Port.Queued.head (hq : s.Queued) (hlt : s.completed.length < s.appended.length) :
    s.waitQueue = s.completed.length ::
      List.range' (s.completed.length + 1) (s.appended.length - (s.completed.length + 1)) := by
  rw [hq.waitQueue, show s.appended.length - s.completed.length =
    s.appended.length - (s.completed.length + 1) + 1 by omega, List.range'_succ]

theorem Port.Queued.lt (hq : s.Queued) (hne : s.waitQueue ≠ []) : s.completed.length < s.appended.length := by
  by_contra hge
  apply hne
  rw [hq.waitQueue, show s.appended.length - s.completed.length = 0 by omega]
  rfl

/-! ### Callers -/

theorem lookup_append {ts : List Transfer} {P : Nat → Prop}
    (h : ∀ i us, s.appended[i]? = some us → P i → s.transfers i = us) (i : Nat) (us : List Transfer)
    (hi : (s.appended ++ [ts])[i]? = some us) (hP : P i) :
    Function.update s.transfers s.appended.length ts i = us := by
  by_cases hlt : i < s.appended.length
  · rw [List.getElem?_append_left hlt] at hi
    rw [Function.update_of_ne (by omega), h i us hi hP]
  · have heq : i = s.appended.length := by
      obtain ⟨hbound, -⟩ := List.getElem?_eq_some_iff.mp hi
      simp at hbound
      omega
    subst heq
    simpa using hi

theorem append_inv (h : s.Inv) (ts : List Transfer) : (step s (.append ts)).Inv := by
  obtain ⟨hq, hphase⟩ := h
  simp only [step]
  split
  · exact ⟨hq, hphase⟩
  rename_i hts
  obtain ⟨hne, hnz⟩ := not_or.mp hts
  have hle := hq.le
  have htake : (s.appended ++ [ts]).take s.completed.length = s.appended.take s.completed.length :=
    List.take_append_of_le_length hle
  refine ⟨⟨hq.completed, ?_, ?_, ?_, ?_⟩, ?_⟩
  · show s.completed.length ≤ (s.appended ++ [ts]).length
    rw [List.length_append]
    omega
  · show s.waitQueue ++ [s.appended.length] = List.range' _ ((s.appended ++ [ts]).length - _)
    rw [hq.waitQueue, List.length_append, List.length_singleton, Nat.sub_add_comm hle, List.range'_1_concat,
      Nat.add_sub_cancel' hle]
  · exact lookup_append hq.waiting
  · intro us hus
    rcases List.mem_append.mp hus with hus | hus
    · exact hq.nonempty us hus
    · rw [List.mem_singleton.mp hus]
      exact ⟨hne, fun t ht h0 => hnz ⟨t, ht, h0⟩⟩
  rcases hphase with hidle | hbusy
  · left
    refine ⟨hidle.message, hidle.transfer, hidle.sclk, hidle.txFifo, ?_, ?_, .inr ⟨by simp, ?_⟩⟩
    · intro us hus
      exact lookup_append (P := (· = s.completed.length)) (fun i us hi he => by subst he; exact hidle.first us hi) _ us hus rfl
    · show ∃ wire, _
      rw [htake]
      exact hidle.inOrder
    · rcases hidle.start with ⟨hempty, hpost, hmsg⟩ | ⟨hwait, hpend⟩
      · exact .inl ⟨by simp [hempty, hpost], hmsg⟩
      · simpa [hwait] using hpend
  · right
    have hcur {part t0 rest t seg} (h : s.Current part t0 rest t seg) : Port.Current { s with
        waitQueue := s.waitQueue ++ [s.appended.length]
        transfers := Function.update s.transfers s.appended.length ts
        status := Function.update s.status s.appended.length .idle
        posting := if s.waitQueue = [] then s.posting + 1 else s.posting
        appended := s.appended ++ [ts] } part t0 rest t seg := by
      have hlt := current_lt h
      refine ⟨h.message, h.transfer, ?_, ?_, ?_, ?_, h.remaining, h.length, h.exchanged⟩
      · show (s.appended ++ [ts])[s.completed.length]? = _
        rw [List.getElem?_append_left hlt, h.appended]
      · show Function.update _ _ _ s.completed.length = _
        rw [Function.update_of_ne (by omega), h.transfers]
      · show Function.update _ _ _ s.completed.length = _
        rw [Function.update_of_ne (by omega), h.status]
      · simp [hq.head hlt, h.posting]
    cases hbusy with
    | running k h hsclk h0 hle hwire hmsg hord =>
      refine .running k (hcur h) hsclk h0 hle hwire hmsg ?_
      show ∃ wire, _
      rw [htake]
      exact hord
    | clocked chunk h hsclk htx hrx h0 hle hwire hmsg hord =>
      refine .clocked chunk (hcur h) hsclk htx hrx h0 hle hwire hmsg ?_
      show ∃ wire, _
      rw [htake]
      exact hord

theorem Port.Busy.posting (h : s.Busy) : s.posting = 0 := by
  cases h with
  | running k h => exact h.posting
  | clocked chunk h => exact h.posting

theorem post_inv (h : s.Inv) : (step s .post).Inv := by
  obtain ⟨hq, hphase⟩ := h
  simp only [step]
  split
  · exact ⟨hq, hphase⟩
  rename_i hpost
  rcases hphase with hidle | hbusy
  · refine ⟨⟨hq.completed, hq.le, hq.waitQueue, hq.waiting, hq.nonempty⟩, .inl ⟨hidle.message, hidle.transfer, hidle.sclk,
      hidle.txFifo, hidle.first, hidle.inOrder, ?_⟩⟩
    rcases hidle.start with ⟨-, h0, -⟩ | ⟨hwait, ⟨h1, hmsg⟩ | ⟨h0, -⟩⟩
    · contradiction
    · exact .inr ⟨hwait, .inr ⟨by simp [h1], by simp [hmsg]⟩⟩
    · contradiction
  · exact absurd hbusy.posting hpost

/-! ### The controller -/

theorem clock_inv (h : s.Inv) (miso : Nat → Byte) : (step s (.clock miso)).Inv := by
  obtain ⟨hq, hidle | hbusy⟩ := h
  · simp only [step, hidle.sclk]
    exact ⟨hq, .inl hidle⟩
  cases hbusy with
  | clocked chunk h hsclk htx hrx h0 hle hwire hmsg hord =>
    simp only [step, hsclk]
    exact ⟨hq, .inr (.clocked chunk h hsclk htx hrx h0 hle hwire hmsg hord)⟩
  | @running part t0 rest t seg k h hsclk h0 hle hwire hmsg hord =>
    simp only [step, hsclk]
    rw [hwire]
    refine ⟨⟨hq.completed, hq.le, hq.waitQueue, hq.waiting, hq.nonempty⟩, .inr ?_⟩
    refine .clocked ((copy t0.txByte seg.length k).zip (copy miso 0 k)) (Port.Current.mk h.message h.transfer h.appended h.transfers h.status
      h.posting h.remaining h.length h.exchanged) rfl rfl ?_ (by simp [h0]) (by simp [hle]) ?_ (by simp [hmsg]) ?_
    · exact (List.map_snd_zip (by simp)).symm
    · rw [List.map_fst_zip (by simp)]
      simp
    · obtain ⟨wire, hex, hw⟩ := hord
      exact ⟨wire, hex, by show s.wire ++ _ = _; rw [hw, List.append_assoc]⟩

/-! ### The scheduler -/

theorem startEngine_eq {m : Nat} {q : List Nat} (hcur : s.currentMessage = none) (hqueue : s.waitQueue = m :: q)
    (hts : s.transfers m = t :: rest) :
    s.startEngine =
      let s := { s with
        currentMessage := some m, currentTransfer := some t, status := Function.update s.status m .inprogress
        currentRemainingBytes := t.len }
      s.fill.1.startTransfer s.fill.2 := by
  simp [Port.startEngine, hcur, Port.nextMessage, hqueue, hts]

theorem fill_fst (s : Port) : ∃ fifo, s.fill.1 = { s with txFifo := fifo } := by
  simp only [Port.fill]
  split
  · exact ⟨s.txFifo, rfl⟩
  · split
    · exact ⟨s.txFifo, rfl⟩
    · exact ⟨_, rfl⟩

theorem start_queued (hq : s.Queued) (n : Nat) : (s.fill.1.startTransfer n).Queued := by
  obtain ⟨fifo, hfill⟩ := fill_fst s
  rw [hfill]
  exact ⟨hq.completed, hq.le, hq.waitQueue, hq.waiting, hq.nonempty⟩

theorem start_inv (hq : s.Queued) (h : s.Current part t0 rest t seg) (htx : s.txFifo = []) (hmsg : s.msgQueue = [])
    (hord : s.InOrder part seg) : (s.fill.1.startTransfer s.fill.2).Inv :=
  ⟨start_queued hq _, .inr (fill_busy h htx hmsg hord).2⟩

theorem resume_inv (hq : s.Queued) (h : s.Current part t0 rest t seg) (htx : s.txFifo = []) (hmsg : s.msgQueue = [])
    (hord : s.InOrder part seg) : s.fillAndStart.Inv := by
  rw [Port.fillAndStart, if_pos (fill_busy h htx hmsg hord).1]
  exact start_inv hq h htx hmsg hord

theorem Port.Queued.cons (hq : s.Queued) {i : Nat} (hlt : i < s.appended.length) :
    ∃ t rest, s.appended[i]? = some (t :: rest) ∧ 0 < t.len := by
  obtain ⟨hne, hnz⟩ := hq.nonempty s.appended[i] (List.getElem_mem hlt)
  obtain ⟨t, rest, heq⟩ := List.exists_cons_of_ne_nil hne
  refine ⟨t, rest, ?_, Nat.pos_of_ne_zero (hnz t (by simp [heq]))⟩
  rw [List.getElem?_eq_getElem hlt, heq]

theorem startEngine_inv (hq : s.Queued) (hidle : s.Idle) (hwait : s.waitQueue ≠ []) (hpost : s.posting = 0) :
    Port.Inv { s with msgQueue := [] }.startEngine := by
  have hlt := hq.lt hwait
  obtain ⟨t, rest, happ, hlen⟩ := hq.cons hlt
  have hts := hidle.first _ happ
  rw [startEngine_eq (s := { s with msgQueue := [] }) hidle.message (hq.head hlt) hts]
  refine @start_inv _ [] rest t t [] ⟨hq.completed, hq.le, hq.waitQueue, hq.waiting, hq.nonempty⟩ ?_ hidle.txFifo rfl
    hidle.inOrder
  exact ⟨rfl, rfl, happ, hts, Function.update_self _ _ _, hpost, hlen, Nat.zero_add _, Exchanged.refl t⟩

theorem endTransfer_next {m : Nat} {t1 : Transfer} (f : Transfer) (hts : s.transfers m = t0 :: t1 :: rest) :
    s.endTransfer m f = { s with
      transfers := Function.update s.transfers m (t1 :: rest), currentTransfer := some t1
      finished := s.finished ++ [f], currentRemainingBytes := t1.len } := by
  simp [Port.endTransfer, hts]

theorem endTransfer_last {m : Nat} (f : Transfer) (hts : s.transfers m = [t0]) (hqueue : s.waitQueue = [m]) :
    s.endTransfer m f = { s with
      transfers := Function.update s.transfers m [], currentTransfer := none, finished := s.finished ++ [f]
      status := Function.update s.status m .done, waitQueue := [], currentMessage := none } := by
  simp [Port.endTransfer, hts, hqueue, Port.nextMessage]

theorem endTransfer_message {m m' : Nat} {q : List Nat} {t1 : Transfer} (f : Transfer) (hts : s.transfers m = [t0])
    (hqueue : s.waitQueue = m :: m' :: q) (hne : m' ≠ m) (hts' : s.transfers m' = t1 :: rest) :
    s.endTransfer m f = { s with
      transfers := Function.update s.transfers m [], currentTransfer := some t1, finished := s.finished ++ [f]
      status := Function.update (Function.update s.status m .done) m' .inprogress, waitQueue := m' :: q
      currentMessage := some m', currentRemainingBytes := t1.len } := by
  simp [Port.endTransfer, hts, hqueue, Port.nextMessage, hts', hne]

theorem fillAndStart_status (s : Port) : s.fillAndStart.status = s.status := by
  obtain ⟨fifo, hfill⟩ := fill_fst s
  simp only [Port.fillAndStart]
  split
  · rw [hfill]
    rfl
  · rw [hfill]

theorem fillAndStart_completed (s : Port) (c : List Nat) :
    { s.fillAndStart with completed := c } = { s with completed := c }.fillAndStart := by
  cases ht : s.currentTransfer with
  | none => simp [Port.fillAndStart, Port.fill, ht]
  | some t =>
    by_cases h0 : s.currentRemainingBytes = 0
    · simp [Port.fillAndStart, Port.fill, ht, h0]
    · simp only [Port.fillAndStart, Port.fill, ht, h0, if_false]
      split <;> rfl

theorem fillAndStart_completed_eq (s : Port) : s.fillAndStart.completed = s.completed := by
  obtain ⟨fifo, hfill⟩ := fill_fst s
  simp only [Port.fillAndStart]
  split
  · rw [hfill]
    rfl
  · rw [hfill]

theorem complete_done {m : Nat} (h : s.status m = .done) :
    s.fillAndStart.complete m = { s with completed := s.completed ++ [m] }.fillAndStart := by
  have hstatus : s.fillAndStart.status m = .done := by rw [fillAndStart_status, h]
  rw [Port.complete, if_pos hstatus, fillAndStart_completed_eq]
  exact fillAndStart_completed s _

theorem complete_not_done {m : Nat} (h : s.status m ≠ .done) : s.fillAndStart.complete m = s.fillAndStart := by
  rw [Port.complete, fillAndStart_status, if_neg h]

theorem continueTransfer_eq {m : Nat} (hm : s.currentMessage = some m) (ht : s.currentTransfer = some t)
    (h0 : 0 < s.currentRemainingBytes) :
    s.continueTransfer =
      let f := (getRxfifo t s.currentRemainingBytes s.rxFifo).1
      let s := { s with
        currentTransfer := some f, currentRemainingBytes := s.currentRemainingBytes - s.rxFifo.length, rxFifo := [] }
      (if s.currentRemainingBytes = 0 then s.endTransfer m f else s).fillAndStart.complete m := by
  simp only [Port.continueTransfer, hm, ht, Nat.ne_of_gt h0, if_false, getRxfifo]

theorem inOrder_snoc {f : Transfer} (hord : s.InOrder part seg) (hx : Exchanged t0 f seg) (hlen : seg.length = t0.len) :
    Port.InOrder { s with finished := s.finished ++ [f] } (part ++ [t0]) [] := by
  obtain ⟨wire, hex, hw⟩ := hord
  refine ⟨wire ++ seg, ?_, by rw [List.append_nil]; exact hw⟩
  rw [← List.append_assoc]
  exact hex.snoc hx hlen

theorem inOrder_message {ts : List Transfer} (hord : s.InOrder ts []) (happ : s.appended[s.completed.length]? = some ts) :
    Port.InOrder { s with completed := s.completed ++ [s.completed.length] } [] [] := by
  obtain ⟨wire, hex, hw⟩ := hord
  refine ⟨wire, ?_, hw⟩
  have htake : (s.appended.take (s.completed ++ [s.completed.length]).length).flatten ++ [] =
      (s.appended.take s.completed.length).flatten ++ ts := by
    rw [List.length_append, List.length_singleton, List.take_add_one, happ]
    simp
  show Executed ((s.appended.take (s.completed ++ [s.completed.length]).length).flatten ++ []) s.finished wire
  rw [htake]
  exact hex

theorem erase_queued (ts : List Transfer) (hq : s.Queued) (hlt : s.completed.length < s.appended.length) :
    Port.Queued { s with
      transfers := Function.update s.transfers s.completed.length ts
      waitQueue := List.range' (s.completed.length + 1) (s.appended.length - (s.completed.length + 1))
      completed := s.completed ++ [s.completed.length] } := by
  have hlen : (s.completed ++ [s.completed.length]).length = s.completed.length + 1 := by simp
  refine ⟨?_, ?_, ?_, ?_, hq.nonempty⟩
  · show s.completed ++ [s.completed.length] = List.range (s.completed ++ [s.completed.length]).length
    rw [hlen, List.range_succ, ← hq.completed]
  · show (s.completed ++ [s.completed.length]).length ≤ s.appended.length
    omega
  · show List.range' _ _ = List.range' (s.completed ++ [s.completed.length]).length (_ - (s.completed ++ [s.completed.length]).length)
    rw [hlen]
  · intro i us hus hi
    have hi : (s.completed ++ [s.completed.length]).length < i := hi
    have hne : i ≠ s.completed.length := by omega
    show Function.update s.transfers s.completed.length ts i = us
    rw [Function.update_of_ne hne]
    exact hq.waiting i us hus (by omega)

/-- The end of a transfer: the next transfer of the message, the next message or none is started. -/
theorem endTransfer_inv {f : Transfer} (hq : s.Queued) (hmessage : s.currentMessage = some s.completed.length)
    (happ : s.appended[s.completed.length]? = some (part ++ t0 :: rest))
    (hts : s.transfers s.completed.length = t0 :: rest) (hstatus : s.status s.completed.length = .inprogress)
    (hpost : s.posting = 0) (hmsg : s.msgQueue = []) (hsclk : s.sclk = none) (htx : s.txFifo = [])
    (hdone : Port.InOrder { s with finished := s.finished ++ [f] } (part ++ [t0]) []) :
    ((s.endTransfer s.completed.length f).fillAndStart.complete s.completed.length).Inv := by
  have hlt : s.completed.length < s.appended.length := (List.getElem?_eq_some_iff.mp happ).1
  have hnz := hq.nonempty _ (List.mem_of_getElem? happ)
  cases rest with
  | cons t1 rest =>
    have hlen : 0 < t1.len := Nat.pos_of_ne_zero (hnz.2 t1 (by simp))
    rw [endTransfer_next f hts, complete_not_done (by simp [hstatus])]
    refine @resume_inv _ (part ++ [t0]) rest t1 t1 [] ⟨hq.completed, hq.le, hq.waitQueue, ?_, hq.nonempty⟩ ?_ htx hmsg hdone
    · intro i us hus hi
      have hne : i ≠ s.completed.length := Nat.ne_of_gt hi
      show Function.update s.transfers s.completed.length (t1 :: rest) i = us
      rw [Function.update_of_ne hne]
      exact hq.waiting i us hus hi
    · refine ⟨hmessage, rfl, ?_, Function.update_self _ _ _, hstatus, hpost, hlen, Nat.zero_add _, Exchanged.refl t1⟩
      rw [happ, List.append_assoc]
      rfl
  | nil =>
    have hqueue := hq.head hlt
    have herase := erase_queued [] hq hlt
    have hmess := inOrder_message hdone happ
    have hcount : s.completed.length + 1 = (s.completed ++ [s.completed.length]).length := by simp
    by_cases hlast : s.completed.length + 1 < s.appended.length
    · obtain ⟨t1, rest1, happ1, hlen1⟩ := hq.cons hlast
      have hts1 := hq.waiting _ _ happ1 (Nat.lt_succ_self _)
      have htail : List.range' (s.completed.length + 1) (s.appended.length - (s.completed.length + 1)) =
          (s.completed.length + 1) :: List.range' (s.completed.length + 2) (s.appended.length - (s.completed.length + 2)) := by
        rw [show s.appended.length - (s.completed.length + 1) = s.appended.length - (s.completed.length + 2) + 1 by omega,
          List.range'_succ]
      rw [htail] at hqueue herase
      rw [endTransfer_message f hts hqueue (by omega) hts1, complete_done (by simp)]
      refine @resume_inv _ [] rest1 t1 t1 [] ⟨herase.completed, herase.le, herase.waitQueue, herase.waiting, hq.nonempty⟩
        ⟨congrArg some hcount, rfl, ?_, ?_, ?_, hpost, hlen1, Nat.zero_add _, Exchanged.refl t1⟩ htx hmsg hmess
      · show s.appended[(s.completed ++ [s.completed.length]).length]? = _
        rw [← hcount, happ1]
        rfl
      · show Function.update s.transfers s.completed.length [] (s.completed ++ [s.completed.length]).length = _
        rw [← hcount, Function.update_of_ne (by omega), hts1]
      · show Function.update (Function.update s.status s.completed.length .done) (s.completed.length + 1) .inprogress
          (s.completed ++ [s.completed.length]).length = _
        rw [← hcount, Function.update_self]
    · have htail : List.range' (s.completed.length + 1) (s.appended.length - (s.completed.length + 1)) = [] := by
        rw [show s.appended.length - (s.completed.length + 1) = 0 by omega]
        rfl
      rw [htail] at hqueue herase
      rw [endTransfer_last f hts hqueue, complete_done (by simp)]
      simp only [Port.fillAndStart, Port.fill, ne_eq, not_true_eq_false, if_false]
      refine ⟨⟨herase.completed, herase.le, herase.waitQueue, herase.waiting, hq.nonempty⟩, .inl ⟨rfl, rfl, hsclk, htx, ?_, hmess,
        .inl ⟨rfl, hpost, hmsg⟩⟩⟩
      intro ts hnone
      have hbound := (List.getElem?_eq_some_iff.mp hnone).1
      have hbound : (s.completed ++ [s.completed.length]).length < s.appended.length := hbound
      omega

theorem continueTransfer_inv {chunk : List (Byte × Byte)} (hq : s.Queued) (h : s.Current part t0 rest t seg)
    (hsclk : s.sclk = none) (htx : s.txFifo = []) (hrx : s.rxFifo = chunk.map Prod.snd)
    (hle : chunk.length ≤ s.currentRemainingBytes) (hwire : chunk.map Prod.fst = copy t0.txByte seg.length chunk.length)
    (hord : s.InOrder part (seg ++ chunk)) : Port.Inv { s with msgQueue := [] }.continueTransfer := by
  have hsum := h.length
  have hcount : s.rxFifo.length = chunk.length := by rw [hrx, List.length_map]
  have hseg : (seg ++ chunk).length = seg.length + chunk.length := List.length_append
  have hx := h.exchanged.append hsum hwire
  rw [← hrx] at hx
  rw [continueTransfer_eq (s := { s with msgQueue := [] }) h.message h.transfer h.remaining]
  simp only [hcount]
  generalize (getRxfifo t s.currentRemainingBytes s.rxFifo).1 = f at hx ⊢
  split
  · rename_i h0
    have hlen : (seg ++ chunk).length = t0.len := by omega
    exact endTransfer_inv (s := { s with
      currentTransfer := some f, currentRemainingBytes := s.currentRemainingBytes - chunk.length, rxFifo := []
      msgQueue := [] }) ⟨hq.completed, hq.le, hq.waitQueue, hq.waiting, hq.nonempty⟩ h.message h.appended h.transfers h.status
      h.posting rfl hsclk htx (inOrder_snoc hord hx hlen)
  · rename_i h0
    rw [complete_not_done (by simp [h.status])]
    refine @resume_inv _ part rest t0 f (seg ++ chunk) ⟨hq.completed, hq.le, hq.waitQueue, hq.waiting, hq.nonempty⟩ ?_ htx rfl
      hord
    exact ⟨h.message, rfl, h.appended, h.transfers, h.status, h.posting, Nat.pos_of_ne_zero h0,
      by show _ + (s.currentRemainingBytes - chunk.length) = _; omega, hx⟩

theorem sched_inv (h : s.Inv) : (step s .sched).Inv := by
  obtain ⟨hq, hidle | hbusy⟩ := h
  · rcases hidle.start with ⟨-, -, hmsg⟩ | ⟨hwait, ⟨-, hmsg⟩ | ⟨hpost, hmsg⟩⟩
    · simp only [step, hmsg]
      exact ⟨hq, .inl hidle⟩
    · simp only [step, hmsg]
      exact ⟨hq, .inl hidle⟩
    · simp only [step, hmsg]
      exact startEngine_inv hq hidle hwait hpost
  cases hbusy with
  | running k h hsclk h0 hle hwire hmsg hord =>
    simp only [step, hmsg]
    exact ⟨hq, .inr (.running k h hsclk h0 hle hwire hmsg hord)⟩
  | clocked chunk h hsclk htx hrx h0 hle hwire hmsg hord =>
    simp only [step, hmsg]
    exact continueTransfer_inv hq h hsclk htx hrx hle hwire hord

theorem step_inv (h : s.Inv) (c : Step) : (step s c).Inv := by
  cases c with
  | append ts => exact append_inv h ts
  | post => exact post_inv h
  | clock miso => exact clock_inv h miso
  | sched => exact sched_inv h

end Steps

theorem init_inv : Port.init.Inv :=
  ⟨⟨rfl, Nat.le_refl _, rfl, by simp [Port.init], by simp [Port.init]⟩, .inl ⟨rfl, rfl, rfl, rfl, by simp [Port.init], ⟨[], .nil, rfl⟩,
    .inl ⟨rfl, rfl, rfl⟩⟩⟩

theorem run_inv (cs : List Step) : (runs step Port.init cs).Inv :=
  runs_inv Port.Inv (fun _ _ => True) (fun _ c _ h => step_inv h c) (fun _ _ => trivial) init_inv

/-! ## Completion -/

/-- What a handler of the scheduler leaves to the callers and the controller. -/
structure Port.Frame (s s' : Port) : Prop where
  wire : s'.wire = s.wire
  appended : s'.appended = s.appended
  posting : s'.posting = s.posting
  msgQueue : s'.msgQueue = s.msgQueue

section Frame

variable {s s' : Port}

theorem Port.Frame.trans {s'' : Port} (h : s.Frame s') (h' : s'.Frame s'') : s.Frame s'' :=
  ⟨h'.wire.trans h.wire, h'.appended.trans h.appended, h'.posting.trans h.posting, h'.msgQueue.trans h.msgQueue⟩

theorem nextMessage_frame (s : Port) : s.Frame s.nextMessage := by
  simp only [Port.nextMessage]
  split
  · exact ⟨rfl, rfl, rfl, rfl⟩
  · exact ⟨rfl, rfl, rfl, rfl⟩

theorem fill_frame (s : Port) (n : Nat) : s.Frame s.fill.1 ∧ s.Frame (s.fill.1.startTransfer n) := by
  obtain ⟨fifo, hfill⟩ := fill_fst s
  rw [hfill]
  exact ⟨⟨rfl, rfl, rfl, rfl⟩, ⟨rfl, rfl, rfl, rfl⟩⟩

theorem fillAndStart_frame (s : Port) : s.Frame s.fillAndStart := by
  simp only [Port.fillAndStart]
  split
  · exact (fill_frame s _).2
  · exact (fill_frame s 0).1

theorem startEngine_frame (s : Port) : s.Frame s.startEngine := by
  simp only [Port.startEngine]
  split
  · exact ⟨rfl, rfl, rfl, rfl⟩
  · split
    · exact nextMessage_frame s
    · have h := nextMessage_frame s
      refine Port.Frame.trans ?_ (fill_frame _ _).2
      exact ⟨h.wire, h.appended, h.posting, h.msgQueue⟩

theorem endTransfer_frame (s : Port) (m : Nat) (t : Transfer) : s.Frame (s.endTransfer m t) := by
  have hnext (r : Port) (h : s.Frame r) : s.Frame (match r.currentTransfer with
      | some t => { r with currentRemainingBytes := t.len }
      | none => r) := by
    split
    · exact ⟨h.wire, h.appended, h.posting, h.msgQueue⟩
    · exact h
  apply hnext
  cases (s.transfers m).tail.head? with
  | some _ => exact ⟨rfl, rfl, rfl, rfl⟩
  | none =>
    show s.Frame (Port.nextMessage _)
    refine Port.Frame.trans ?_ (nextMessage_frame _)
    exact ⟨rfl, rfl, rfl, rfl⟩

theorem complete_frame (s : Port) (m : Nat) : s.Frame (s.complete m) := by
  simp only [Port.complete]
  split
  · exact ⟨rfl, rfl, rfl, rfl⟩
  · exact ⟨rfl, rfl, rfl, rfl⟩

theorem continueTransfer_frame (s : Port) : s.Frame s.continueTransfer := by
  simp only [Port.continueTransfer]
  split
  · refine Port.Frame.trans ?_ ((fillAndStart_frame _).trans (complete_frame _ _))
    generalize (if s.currentRemainingBytes = 0 then (_, 0) else getRxfifo _ s.currentRemainingBytes s.rxFifo) = p
    split
    · refine Port.Frame.trans ?_ (endTransfer_frame _ _ _)
      exact ⟨rfl, rfl, rfl, rfl⟩
    · exact ⟨rfl, rfl, rfl, rfl⟩
  · exact ⟨rfl, rfl, rfl, rfl⟩

theorem sched_frame (s : Port) : Port.Frame { s with msgQueue := s.msgQueue.tail } (step s .sched) := by
  cases hmsg : s.msgQueue with
  | nil =>
    simp only [step, hmsg]
    exact ⟨rfl, rfl, rfl, hmsg⟩
  | cons msg q =>
    cases msg with
    | startEngine =>
      simp only [step, hmsg]
      exact startEngine_frame _
    | transferComplete =>
      simp only [step, hmsg]
      exact continueTransfer_frame _

end Frame

def Step.message : Step → Option (List Transfer)
  | .append ts => if ts = [] ∨ ∃ t ∈ ts, t.len = 0 then none else some ts
  | _ => none

theorem step_appended (s : Port) (c : Step) : (step s c).appended = s.appended ++ c.message.toList := by
  cases c with
  | append ts =>
    simp only [step, Step.message]
    split <;> simp
  | post =>
    simp only [step]
    split <;> simp [Step.message]
  | clock miso =>
    simp only [step]
    split <;> simp [Step.message]
  | sched => simp [(sched_frame s).appended, Step.message]

theorem run_appended (s : Port) (cs : List Step) : (runs step s cs).appended = s.appended ++ cs.filterMap Step.message := by
  induction cs generalizing s with
  | nil => simp
  | cons c cs ih =>
    rw [runs_cons, ih, step_appended]
    cases hc : c.message <;> simp [hc]

/-- The bytes of the accepted messages that are not clocked yet. -/
def Port.left (s : Port) : Nat := (s.appended.flatten.map Transfer.len).sum - s.wire.length

/-- Decreases with every step but those of new callers. -/
def Port.rank (s : Port) : Nat :=
  4 * s.left + 3 * s.posting + 2 * s.msgQueue.length + (if s.sclk = none then 0 else 1)

theorem inOrder_length {s : Port} {part : List Transfer} {tail : List (Byte × Byte)} (us : List Transfer)
    (hord : s.InOrder part tail) (hle : tail.length ≤ (us.map Transfer.len).sum)
    (hpart : part ++ us = s.appended[s.completed.length]?.getD []) :
    s.wire.length ≤ (s.appended.flatten.map Transfer.len).sum := by
  obtain ⟨wire, hex, hw⟩ := hord
  have hsplit : s.appended.flatten = (s.appended.take s.completed.length).flatten ++
      (part ++ us ++ (s.appended.drop (s.completed.length + 1)).flatten) := by
    conv_lhs => rw [← List.take_append_drop s.completed.length s.appended, List.flatten_append]
    congr 1
    rw [hpart]
    by_cases hlt : s.completed.length < s.appended.length
    · rw [List.drop_eq_getElem_cons hlt, List.getElem?_eq_getElem hlt, List.flatten_cons, Option.getD_some]
    · rw [List.drop_eq_nil_of_le (by omega), List.drop_eq_nil_of_le (by omega), List.getElem?_eq_none (by omega)]
      simp
  have hlen := hex.length
  rw [hw, hsplit]
  simp only [List.length_append, List.map_append, List.sum_append] at hlen ⊢
  omega

theorem Port.Inv.wire_le {s : Port} (h : s.Inv) : s.wire.length ≤ (s.appended.flatten.map Transfer.len).sum := by
  obtain ⟨hq, hidle | hbusy⟩ := h
  · exact inOrder_length (s.appended[s.completed.length]?.getD []) hidle.inOrder (Nat.zero_le _) rfl
  cases hbusy with
  | @running part t0 rest t seg k h hsclk h0 hle hwire hmsg hord =>
    have hsum := h.length
    refine inOrder_length (t0 :: rest) hord ?_ (by rw [h.appended]; rfl)
    rw [List.map_cons, List.sum_cons]
    omega
  | @clocked part t0 rest t seg chunk h hsclk htx hrx h0 hle hwire hmsg hord =>
    have hsum := h.length
    refine inOrder_length (t0 :: rest) hord ?_ (by rw [h.appended]; rfl)
    rw [List.map_cons, List.sum_cons, List.length_append]
    omega

section Completion

variable {s : Port}

theorem post_rank (hpost : s.posting ≠ 0) : (step s .post).rank < s.rank := by
  simp only [step, hpost, if_false, Port.rank, Port.left, List.length_append, List.length_singleton]
  omega

theorem clock_rank (h : s.Inv) {k : Nat} (hsclk : s.sclk = some k) (miso : Nat → Byte) :
    (step s (.clock miso)).rank < s.rank := by
  have hafter := (clock_inv h miso).wire_le
  obtain ⟨hq, hidle | hbusy⟩ := h
  · rw [hidle.sclk] at hsclk
    cases hsclk
  cases hbusy with
  | clocked chunk h hnone =>
    rw [hnone] at hsclk
    cases hsclk
  | running k' h hk h0 hle hwire hmsg hord =>
    rw [hk] at hsclk
    cases hsclk
    simp only [step, hk, hwire] at hafter ⊢
    simp only [Port.rank, Port.left, hk, List.length_append, List.length_singleton, List.length_zip, length_copy] at hafter ⊢
    simp only [if_true, reduceCtorEq, if_false]
    omega

theorem sched_rank (h : s.Inv) (hmsg : s.msgQueue ≠ []) : (step s .sched).rank < s.rank := by
  have hsclk : s.sclk = none := by
    obtain ⟨hq, hidle | hbusy⟩ := h
    · exact hidle.sclk
    · cases hbusy with
      | running k h hk h0 hle hwire hempty => exact absurd hempty hmsg
      | clocked chunk h hnone => exact hnone
  have hframe := sched_frame s
  have hlen : 0 < s.msgQueue.length := List.length_pos_iff.mpr hmsg
  have hone : (if (step s .sched).sclk = none then 0 else 1) ≤ 1 := by
    split <;> omega
  simp only [Port.rank, Port.left, hframe.wire, hframe.appended, hframe.posting, hframe.msgQueue, hsclk, if_true,
    List.length_tail]
  omega

theorem Port.Inv.quiescent (h : s.Inv) (hpost : s.posting = 0) (hmsg : s.msgQueue = []) (hsclk : s.sclk = none) :
    s.completed = List.range s.appended.length := by
  obtain ⟨hq, hidle | hbusy⟩ := h
  · have hempty : s.waitQueue = [] := by
      rcases hidle.start with ⟨hempty, -, -⟩ | ⟨-, ⟨h1, -⟩ | ⟨-, h1⟩⟩
      · exact hempty
      · omega
      · rw [hmsg] at h1
        cases h1
    rw [hq.waitQueue] at hempty
    have hzero : s.appended.length - s.completed.length = 0 := by simpa using congrArg List.length hempty
    have hle := hq.le
    rw [hq.completed, show s.completed.length = s.appended.length by omega]
  · cases hbusy with
    | running k h hk => simp [hk] at hsclk
    | clocked chunk h hnone htx hrx h0 hle hwire hpend => simp [hpend] at hmsg

def Step.internal : Step → Bool
  | .append _ => false
  | _ => true

/-- The callers that are in `tls_spi_async`, the controller and the scheduler complete every message. -/
theorem Port.Inv.completes (h : s.Inv) : ∃ more : List Step, (∀ c ∈ more, c.internal = true) ∧
    (runs step s more).completed = List.range s.appended.length := by
  induction hr : s.rank using Nat.strong_induction_on generalizing s with
  | _ n ih =>
    subst hr
    have hnext (c : Step) (hint : c.internal = true) (hlt : (step s c).rank < s.rank) :
        ∃ more : List Step, (∀ c ∈ more, c.internal = true) ∧
          (runs step s more).completed = List.range s.appended.length := by
      obtain ⟨more, hall, hdone⟩ := ih _ hlt (step_inv h c) rfl
      refine ⟨c :: more, by simpa [hint] using hall, ?_⟩
      rw [runs_cons, hdone, step_appended]
      cases c with
      | append ts => cases hint
      | post => simp [Step.message]
      | clock miso => simp [Step.message]
      | sched => simp [Step.message]
    by_cases hpost : s.posting = 0
    · by_cases hmsg : s.msgQueue = []
      · cases hsclk : s.sclk with
        | none => exact ⟨[], by simp, h.quiescent hpost hmsg hsclk⟩
        | some k => exact hnext (.clock fun _ => 0#8) rfl (clock_rank h hsclk _)
      · exact hnext .sched rfl (sched_rank h hmsg)
    · exact hnext .post rfl (post_rank hpost)

end Completion

/-- Over every run, the messages that `tls_spi_async` accepts are executed one at a time in the order in which they are
appended, each with its transfers in order: every transfer puts its bytes on the wire and has the bytes that came in
meanwhile in its receive buffer. They are completed in that order, each once and after its last transfer, and the
scheduler never rests on a non-empty queue. -/
theorem spi_messages (cs : List Step) :
    let s := runs step Port.init cs
    s.appended = cs.filterMap Step.message ∧
    s.completed = List.range s.completed.length ∧ s.completed.length ≤ s.appended.length ∧
    (∃ part tail, s.InOrder part tail ∧ (part = [] ∧ tail = [] ∨
      ∃ t rest, s.appended[s.completed.length]? = some (part ++ t :: rest) ∧ tail.length ≤ t.len ∧
        tail.map Prod.fst = copy t.txByte 0 tail.length)) ∧
    ¬ (s.currentMessage = none ∧ .startEngine ∉ s.msgQueue ∧ s.posting = 0 ∧ s.waitQueue ≠ []) ∧
    ∃ more : List Step, (∀ c ∈ more, c.internal = true) ∧
      (runs step s more).completed = List.range s.appended.length := by
  intro s
  have h : s.Inv := run_inv cs
  refine ⟨run_appended _ cs, h.queued.completed, h.queued.le, ?_, ?_, h.completes⟩
  · rcases h.phase with hidle | hbusy
    · exact ⟨[], [], hidle.inOrder, .inl ⟨rfl, rfl⟩⟩
    · cases hbusy with
      | @running part t0 rest t seg k h hsclk h0 hle hwire hmsg hord =>
        have hsum := h.length
        exact ⟨part, seg, hord, .inr ⟨t0, rest, h.appended, by omega, h.exchanged.mosi⟩⟩
      | @clocked part t0 rest t seg chunk h hsclk htx hrx h0 hle hwire hmsg hord =>
        have hsum := h.length
        refine ⟨part, seg ++ chunk, hord, .inr ⟨t0, rest, h.appended, by rw [List.length_append]; omega, ?_⟩⟩
        rw [List.map_append, h.exchanged.mosi, hwire, List.length_append, copy_add, Nat.zero_add]
  · rintro ⟨hnone, hstart, hpost, hwait⟩
    rcases h.phase with hidle | hbusy
    · rcases hidle.start with ⟨hempty, -, -⟩ | ⟨-, ⟨h1, -⟩ | ⟨-, hmsg⟩⟩
      · exact hwait hempty
      · omega
      · simp [hmsg] at hstart
    · cases hbusy with
      | running k h => simp [h.message] at hnone
      | clocked chunk h => simp [h.message] at hnone

end Spi
end Air101

import Air101.Spi.Bus

/-!
# Spi.DmaWrite

Sending in DMA mode: `luat_spi_send` of `app/port/luat_spi_air101.c` cuts its data into pieces of 8160 bytes for
`tls_spi_write`, which copies them to the DMA buffer, and `SpiDmaBlockWrite` sends them in blocks of 4092 bytes with the
last one to three bytes in a data word (`platform/drivers/spi/wm_hostspi.c`). The two DMA buffers are allocated, and
`luat_spi_send` is not on the SDIO port (`spi_id` 5).

* `Sent`: what a part of the driver sends and which DMA blocks it takes; `Sent.trans` puts two parts together.
* `writeLoop_sent`: the loop over the blocks.
* `spiDmaBlockWrite_sent`, `tlsSpiWrite_sent`, `sendLoop_sent`: the three layers.
* `luatSpiSend_exact`: with no failing wait every byte goes out once, in order.
-/

namespace Air101
namespace Spi

open Storage

/-! ## The driver -/

/-- The loop of `SpiDmaBlockWrite` over the blocks: its status, `txcmdover` and the bus. -/
def writeLoop (ifusecmd : Bool) : Nat → Nat → Nat → Bool → Bus → Int × Bool × Bus
  | 0, _, _, txcmdover, b => (0, txcmdover, b)
  | turns + 1, i, txlen, txcmdover, b =>
    let blocksize := if txlen > 4092 then 4092 else txlen
    if blocksize = 0 then (0, txcmdover, b)
    else
      let b := b.dmaTx (i * 4092) blocksize
      let (txcmdover, b) :=
        if ifusecmd ∧ i = 0 then (true, b.start ((blocksize + 4) * 8) 0 false (0, 0))
        else (txcmdover, b.start (blocksize * 8) 0 false (0, 0))
      let (busy, b) := b.spiWaitIdle
      if busy then (-3, txcmdover, b)
      else if b.dmaWaitComplt then (-3, txcmdover, b)
      else writeLoop ifusecmd turns (i + 1) (txlen - blocksize) txcmdover b

/-- `SpiDmaBlockWrite` of the first `len` bytes of the DMA buffer, with `cmd` in front of them if there is one. -/
def spiDmaBlockWrite (b : Bus) (len : Nat) (cmd : Option (BitVec 32)) : Int × Bus :=
  let (busy, b) := b.spiWaitIdle
  if busy then (-3, b)
  else
    let b := b.clearFifos
    let b := match cmd with
      | some cmd => b.txData cmd
      | none => b
    let txlenbk := len - len % 4
    let (ret, txcmdover, b) :=
      if txlenbk > 0 then writeLoop cmd.isSome (txlenbk / 4092 + 1) 0 txlenbk false b.dmaRequest else (0, false, b)
    if len > txlenbk then
      let b := b.txData (leWord (fun i => b.buf (txlenbk + i)) (len - txlenbk))
      let temp := if cmd.isSome ∧ txcmdover = false then 4 else 0
      let (busy, b) := (b.start ((temp + len - txlenbk) * 8) 0 false (0, 0)).spiWaitIdle
      (if busy then -3 else ret, b)
    else (ret, b)

/-- `tls_spi_write`. -/
def tlsSpiWrite (b : Bus) (buf : Nat → Byte) (len : Nat) : Int × Bus :=
  if len = 0 then (-1, b)
  else if len ≤ 4 then
    let b := b.clearFifos.txData (leWord buf len)
    (0, (b.start (8 * len) 0 true (0, 0)).spiWaitIdle.2)
  else if len > 8160 then (-1, b)
  else (0, (spiDmaBlockWrite (b.copyIn buf len) len none).2)

/-- The loop of `luat_spi_send`. -/
def sendLoop (sendBuf : Nat → Byte) (length i : Nat) (ret : Int) (b : Bus) : Int × Bus :=
  if i < length then
    let (ret, b) :=
      tlsSpiWrite b (fun k => sendBuf (i + k)) (if length - i > 8160 then 8160 else length - i)
    if ret ≠ 0 then (ret, b) else sendLoop sendBuf length (i + 8160) ret b
  else (ret, b)
termination_by length - i
decreasing_by omega

/-- `luat_spi_send`. -/
def luatSpiSend (b : Bus) (sendBuf : Nat → Byte) (length : Nat) : Int × Bus :=
  let (ret, b) := if length ≤ 8160 then tlsSpiWrite b sendBuf length else sendLoop sendBuf length 0 0 b
  (if ret = 0 then length else -1, b)

/-- The DMA blocks of a piece of `len` bytes, and of a request of `length` bytes. -/
def pieceBlocks (len : Nat) : Nat := if len ≤ 4 then 0 else (len - len % 4 + 4091) / 4092

def sendBlocks (length : Nat) : Nat := length / 8160 * 2 + pieceBlocks (length % 8160)

/-! ## What is sent -/

/-- The list `ys` is `xs` with sizes up to `bound` behind it. -/
def Grows (bound : Nat) (xs ys : List Nat) : Prop := ∃ new, ys = xs ++ new ∧ ∀ n ∈ new, n ≤ bound

/-- What a part of the driver leaves as it finds it, and the sizes of the DMA blocks and copies that it makes. -/
structure Frame (b b' : Bus) : Prop where
  miso : b'.miso = b.miso
  idleFails : b'.idleFails = b.idleFails
  dmaFails : b'.dmaFails = b.dmaFails
  dmaBlocks : Grows 4092 b.dmaBlocks b'.dmaBlocks
  copies : Grows 8160 b.copies b'.copies

/-- `data` is sent, with no clock more than for its bytes, in `k` DMA blocks if they complete, and less than that if
not. -/
structure Sent (b b' : Bus) (data : List Byte) (k : Nat) : Prop where
  frame : Frame b b'
  starts : b.starts <+: b'.starts
  stored : b'.stored = b.stored
  le : b'.mosi.length ≤ b.mosi.length + data.length
  sent : b.clear k → b'.mosi = b.mosi ++ data ∧ b'.clks = b.clks + 8 * data.length ∧
    b'.clocked = b.clocked + data.length ∧ b'.dmaBlocks.length = b.dmaBlocks.length + k
  short : ¬ b.clear k → b'.mosi.length < b.mosi.length + data.length

/-- The next start is one without the receive channel. -/
def TxStart (b b' : Bus) : Prop := ∃ start : Start, start.rxChannelOn = false ∧ b.starts ++ [start] <+: b'.starts

section Sent

variable {b b' b'' : Bus} {data rest : List Byte} {k l : Nat}

theorem Grows.refl (bound : Nat) (xs : List Nat) : Grows bound xs xs := ⟨[], by simp, by simp⟩

theorem Grows.snoc {bound n : Nat} (h : n ≤ bound) (xs : List Nat) : Grows bound xs (xs ++ [n]) :=
  ⟨[n], rfl, by simpa using h⟩

theorem Grows.trans {bound : Nat} {xs ys zs : List Nat} (h : Grows bound xs ys) (h' : Grows bound ys zs) :
    Grows bound xs zs := by
  obtain ⟨new, rfl, hnew⟩ := h
  obtain ⟨new', rfl, hnew'⟩ := h'
  refine ⟨new ++ new', List.append_assoc _ _ _, fun n hn => ?_⟩
  exact (List.mem_append.mp hn).elim (hnew n) (hnew' n)

theorem Frame.refl (b : Bus) : Frame b b := ⟨rfl, rfl, rfl, Grows.refl _ _, Grows.refl _ _⟩

theorem Frame.trans (h : Frame b b') (h' : Frame b' b'') : Frame b b'' :=
  ⟨h'.miso.trans h.miso, h'.idleFails.trans h.idleFails, h'.dmaFails.trans h.dmaFails,
    h.dmaBlocks.trans h'.dmaBlocks, h.copies.trans h'.copies⟩

theorem Sent.refl (b : Bus) : Sent b b [] 0 :=
  ⟨Frame.refl b, List.prefix_rfl, rfl, by simp, fun _ => by simp, fun h => absurd (clear_zero b) h⟩

theorem Sent.trans (h : Sent b b' data k) (h' : Sent b' b'' rest l) : Sent b b'' (data ++ rest) (k + l) := by
  have hle := h.le
  have hle' := h'.le
  have hlen : (data ++ rest).length = data.length + rest.length := List.length_append
  refine ⟨h.frame.trans h'.frame, h.starts.trans h'.starts, h'.stored.trans h.stored, by omega, fun hclear => ?_,
    fun hclear => ?_⟩
  · have hk : b.clear k := fun j hj => hclear j (by omega)
    obtain ⟨hmosi, hclks, hclocked, hblocks⟩ := h.sent hk
    obtain ⟨hmosi', hclks', hclocked', hblocks'⟩ := h'.sent ((clear_add h.frame.dmaFails hblocks).mp hclear).2
    exact ⟨by rw [hmosi', hmosi, List.append_assoc], by omega, by omega, by omega⟩
  · by_cases hk : b.clear k
    · have hblocks := (h.sent hk).2.2.2
      have hshort := h'.short fun hl => hclear ((clear_add h.frame.dmaFails hblocks).mpr ⟨hk, hl⟩)
      omega
    · have hshort := h.short hk
      omega

theorem TxStart.trans (h : TxStart b b') (h' : Sent b' b'' rest l) : TxStart b b'' := by
  obtain ⟨start, hrx, hstarts⟩ := h
  exact ⟨start, hrx, hstarts.trans h'.starts⟩

theorem TxStart.of_eq (h : TxStart b' b'') (hstarts : b'.starts = b.starts) : TxStart b b'' := by
  obtain ⟨start, hrx, hprefix⟩ := h
  exact ⟨start, hrx, hstarts ▸ hprefix⟩

/-- The driver gives up after a block that fails. -/
theorem Sent.stop (h : Sent b b' data k) (hk : ¬ b.clear k) (rest : List Byte) (l : Nat) :
    Sent b b' (data ++ rest) (k + l) := by
  have hshort := h.short hk
  have hlen : (data ++ rest).length = data.length + rest.length := List.length_append
  have hno : ¬ b.clear (k + l) := fun hclear => hk fun j hj => hclear j (by omega)
  exact ⟨h.frame, h.starts, h.stored, by omega, fun hclear => absurd hclear hno, fun _ => by omega⟩

theorem spiWaitIdle_eq (hidle : ∀ n, b.idleFails n = false) :
    b.spiWaitIdle = (false, { b with idleWaits := b.idleWaits + 1 }) := by
  rw [Bus.spiWaitIdle, hidle]

theorem silent_sent (h : Frame b b') (hstarts : b'.starts = b.starts) (hstored : b'.stored = b.stored)
    (hclocked : b'.clocked = b.clocked) (hblocks : b'.dmaBlocks = b.dmaBlocks) : Sent b b' [] 0 := by
  have hmosi : b'.mosi = b.mosi := by rw [Bus.mosi, hstarts, Bus.mosi]
  have hclks : b'.clks = b.clks := by rw [Bus.clks, hstarts, Bus.clks]
  refine ⟨h, hstarts ▸ List.prefix_rfl, hstored, by rw [hmosi]; exact Nat.le_refl _, fun _ => ?_,
    fun hno => absurd (clear_zero b) hno⟩
  rw [hmosi, hclks, hclocked, hblocks, List.append_nil]
  exact ⟨rfl, rfl, rfl, rfl⟩

theorem idle_sent (b : Bus) : Sent b { b with idleWaits := b.idleWaits + 1 } [] 0 :=
  silent_sent ⟨rfl, rfl, rfl, Grows.refl _ _, Grows.refl _ _⟩ rfl rfl rfl rfl

theorem clearFifos_sent (b : Bus) : Sent b b.clearFifos [] 0 :=
  silent_sent ⟨rfl, rfl, rfl, Grows.refl _ _, Grows.refl _ _⟩ rfl rfl rfl rfl

theorem dmaRequest_sent (b : Bus) : Sent b b.dmaRequest [] 0 :=
  silent_sent ⟨rfl, rfl, rfl, Grows.refl _ _, Grows.refl _ _⟩ rfl rfl rfl rfl

theorem copyIn_sent (b : Bus) (data : Nat → Byte) {len : Nat} (hlen : len ≤ 8160) : Sent b (b.copyIn data len) [] 0 :=
  silent_sent ⟨rfl, rfl, rfl, Grows.refl _ _, Grows.snoc hlen _⟩ rfl rfl rfl rfl

/-! ## Data words -/

theorem take_leWord (data : Nat → Byte) {n : Nat} (hn : n ≤ 4) :
    let w := leWord data n
    [byteAt w 0, byteAt w 1, byteAt w 2, byteAt w 3].take n = slice data 0 n := by
  apply List.ext_getElem?
  intro i
  rw [slice_getElem?, List.getElem?_take]
  by_cases hi : i < n
  · have hbyte := byteAt_leWord data hn hi
    rw [if_pos hi, if_pos hi, Nat.zero_add, ← hbyte]
    rcases (by omega : i = 0 ∨ i = 1 ∨ i = 2 ∨ i = 3) with rfl | rfl | rfl | rfl <;> rfl
  · rw [if_neg hi, if_neg hi]

theorem word_sent (data : Nat → Byte) {n : Nat} (hn : n ≤ 4) (rx : Bool) (htx : b.txFifo = []) :
    Sent b ((b.txData (leWord data n)).start (n * 8) 0 rx (0, 0)) (slice data 0 n) 0 := by
  have hmosi : ((b.txData (leWord data n)).start (n * 8) 0 rx (0, 0)).mosi = b.mosi ++ slice data 0 n := by
    rw [start_mosi, Nat.mul_div_cancel n (by omega : 0 < 8), ← take_leWord data hn]
    simp [Bus.txData, htx, Bus.mosi]
  have hclks : ((b.txData (leWord data n)).start (n * 8) 0 rx (0, 0)).clks = b.clks + 8 * (slice data 0 n).length := by
    rw [start_clks, slice_length, Nat.mul_comm]
    rfl
  refine ⟨⟨rfl, rfl, rfl, Grows.refl _ _, Grows.refl _ _⟩, List.prefix_append _ _, start_stored _ _ _ _, ?_,
    fun _ => ⟨hmosi, hclks, ?_, rfl⟩, fun h => absurd (clear_zero b) h⟩
  · rw [hmosi, List.length_append]
  · show b.clocked + n * 8 / 8 = b.clocked + (slice data 0 n).length
    rw [slice_length, Nat.mul_div_cancel n (by omega : 0 < 8)]

/-! ## Blocks -/

theorem block_sent (off : Nat) {bytes : Nat} (hword : bytes % 4 = 0) (hpos : 0 < bytes) (hle : bytes ≤ 4092)
    (htx : b.txFifo = []) :
    Sent b ((b.dmaTx off bytes).start (bytes * 8) 0 false (0, 0)) (slice b.buf off bytes) 1 := by
  have hmoved : b.moved bytes ≤ bytes := by
    by_cases h : b.clear 1
    · rw [moved_of_clear h]
    · have hlt := moved_lt h (by omega : 4 ≤ bytes)
      omega
  have hmosi : ((b.dmaTx off bytes).start (bytes * 8) 0 false (0, 0)).mosi = b.mosi ++ slice b.buf off (b.moved bytes) := by
    rw [start_mosi, Nat.mul_div_cancel bytes (by omega : 0 < 8)]
    simp [Bus.dmaTx, htx, Bus.mosi, List.take_of_length_le, hmoved]
  refine ⟨⟨rfl, rfl, rfl, Grows.snoc hle _, Grows.refl _ _⟩, List.prefix_append _ _, start_stored _ _ _ _, ?_,
    fun h => ⟨?_, ?_, ?_, ?_⟩, fun h => ?_⟩
  · rw [hmosi, List.length_append, slice_length, slice_length]
    omega
  · rw [hmosi, moved_of_clear h]
  · rw [start_clks, slice_length, Nat.mul_comm]
    rfl
  · show b.clocked + bytes * 8 / 8 = b.clocked + (slice b.buf off bytes).length
    rw [slice_length, Nat.mul_div_cancel bytes (by omega : 0 < 8)]
  · exact List.length_append
  · have hlt := moved_lt h (by omega : 4 ≤ bytes)
    rw [hmosi, List.length_append, slice_length, slice_length]
    omega

/-- What a block leaves: an empty FIFO, the DMA buffer as it was, and a channel that hangs if the block failed. -/
theorem block_rest (off : Nat) {bytes : Nat} (htx : b.txFifo = []) :
    let b' := (b.dmaTx off bytes).start (bytes * 8) 0 false (0, 0)
    b.moved bytes ≤ bytes → b'.txFifo = [] ∧ b'.buf = b.buf ∧ (b'.hung = false ↔ b.clear 1) := by
  intro b' hmoved
  refine ⟨?_, start_buf _ _ _ _, ?_⟩
  · simp [b', Bus.start, Bus.dmaTx, htx, hmoved]
  · simp [b', Bus.start, Bus.dmaTx, clear_one]

theorem moved_le (b : Bus) {bytes : Nat} (hfour : 4 ≤ bytes) : b.moved bytes ≤ bytes := by
  by_cases h : b.clear 1
  · rw [moved_of_clear h]
  · have hlt := moved_lt h hfour
    omega

/-- What a turn of the loop leaves. -/
structure TxTurn (b b' : Bus) (off k : Nat) : Prop where
  sent : Sent b b' (slice b.buf off k) 1
  fifo : b'.txFifo = []
  buf : b'.buf = b.buf
  hung : b'.hung = false ↔ b.clear 1
  start : TxStart b b'

/-- A turn of the loop with a block: it goes on if the block completes. -/
theorem writeLoop_turn (turns i txlen k : Nat) (hidle : ∀ n, b.idleFails n = false)
    (hk : k = if txlen > 4092 then 4092 else txlen) (hword : k % 4 = 0) (hpos : 0 < k) (htx : b.txFifo = []) :
    ∃ b', TxTurn b b' (i * 4092) k ∧
      writeLoop false (turns + 1) i txlen false b =
        if b'.hung then (-3, false, b') else writeLoop false turns (i + 1) (txlen - k) false b' := by
  have hle : k ≤ 4092 := by
    split at hk <;> omega
  have hone := block_sent (i * 4092) hword hpos hle htx
  obtain ⟨hfifo, hbuf, hhung⟩ := block_rest (i * 4092) htx (moved_le b (by omega : 4 ≤ k))
  have hstart : TxStart b ((b.dmaTx (i * 4092) k).start (k * 8) 0 false (0, 0)) := ⟨_, rfl, List.prefix_rfl⟩
  rw [writeLoop, ← hk, if_neg (by omega)]
  generalize hb1 : (b.dmaTx (i * 4092) k).start (k * 8) 0 false (0, 0) = b1 at hone hfifo hbuf hhung hstart
  have hidle1 : ∀ n, b1.idleFails n = false := by
    rw [hone.frame.idleFails]
    exact hidle
  have hwaited := hone.trans (idle_sent b1)
  rw [List.append_nil] at hwaited
  refine ⟨{ b1 with idleWaits := b1.idleWaits + 1 }, ⟨hwaited, hfifo, hbuf, hhung, hstart⟩, ?_⟩
  simp only [Bool.false_eq_true, false_and, if_false, hb1, spiWaitIdle_eq hidle1, Bus.dmaWaitComplt]

theorem writeLoop_sent (turns i txlen : Nat) (hidle : ∀ n, b.idleFails n = false) (hword : txlen % 4 = 0)
    (hturns : txlen ≤ 4092 * turns) (htx : b.txFifo = []) :
    let r := writeLoop false turns i txlen false b
    Sent b r.2.2 (slice b.buf (i * 4092) txlen) ((txlen + 4091) / 4092) ∧ r.2.2.txFifo = [] ∧ r.2.2.buf = b.buf ∧
      (0 < txlen → TxStart b r.2.2) := by
  induction turns generalizing i txlen b with
  | zero =>
    obtain rfl : txlen = 0 := by omega
    exact ⟨Sent.refl b, htx, rfl, fun h => absurd h (Nat.lt_irrefl 0)⟩
  | succ turns ih =>
    by_cases hzero : txlen = 0
    · subst hzero
      exact ⟨Sent.refl b, htx, rfl, fun h => absurd h (Nat.lt_irrefl 0)⟩
    · obtain ⟨blocksize, hsize⟩ : ∃ k, k = if txlen > 4092 then 4092 else txlen := ⟨_, rfl⟩
      have hle : blocksize ≤ txlen ∧ blocksize % 4 = 0 ∧ 0 < blocksize := by
        split at hsize <;> omega
      have hcount : (txlen + 4091) / 4092 = 1 + (txlen - blocksize + 4091) / 4092 := by
        split at hsize <;> omega
      have hdata : slice b.buf (i * 4092) txlen =
          slice b.buf (i * 4092) blocksize ++ slice b.buf (i * 4092 + blocksize) (txlen - blocksize) := by
        rw [← slice_append, Nat.add_sub_cancel' hle.1]
      obtain ⟨b1, hturn, hloop⟩ := writeLoop_turn turns i txlen blocksize hidle hsize hle.2.1 hle.2.2 htx
      rw [hloop, hcount, hdata]
      by_cases hclear : b.clear 1
      · rw [if_neg (by simp [hturn.hung.mpr hclear])]
        have hidle1 : ∀ n, b1.idleFails n = false := by
          rw [hturn.sent.frame.idleFails]
          exact hidle
        obtain ⟨hrest, hfifo, hbuf, -⟩ :=
          ih (i + 1) (txlen - blocksize) hidle1 (by omega) (by split at hsize <;> omega) hturn.fifo
        have hnext : slice b1.buf ((i + 1) * 4092) (txlen - blocksize) =
            slice b.buf (i * 4092 + blocksize) (txlen - blocksize) := by
          rw [hturn.buf]
          split at hsize
          · rw [hsize, Nat.succ_mul]
          · rw [hsize, Nat.sub_self, slice_zero, slice_zero]
        rw [hnext] at hrest
        exact ⟨hturn.sent.trans hrest, hfifo, hbuf.trans hturn.buf, fun _ => hturn.start.trans hrest⟩
      · rw [if_pos (by simpa using fun h => hclear (hturn.hung.mp h))]
        exact ⟨hturn.sent.stop hclear _ _, hturn.fifo, hturn.buf, fun _ => hturn.start⟩

/-- The blocks of `SpiDmaBlockWrite`, if there are any. -/
theorem writeBlocks_sent (txlen : Nat) (hidle : ∀ n, b.idleFails n = false) (hword : txlen % 4 = 0)
    (htx : b.txFifo = []) :
    let r := if txlen > 0 then writeLoop false (txlen / 4092 + 1) 0 txlen false b.dmaRequest else (0, false, b)
    Sent b r.2.2 (slice b.buf 0 txlen) ((txlen + 4091) / 4092) ∧ r.2.2.txFifo = [] ∧ r.2.2.buf = b.buf ∧
      (0 < txlen → TxStart b r.2.2) := by
  by_cases hpos : txlen > 0
  · rw [if_pos hpos]
    obtain ⟨hsent, hfifo, hbuf, hstart⟩ :=
      writeLoop_sent (b := b.dmaRequest) (txlen / 4092 + 1) 0 txlen hidle hword (by omega) htx
    have hall := (dmaRequest_sent b).trans hsent
    rw [List.nil_append, Nat.zero_mul, Nat.zero_add] at hall
    exact ⟨hall, hfifo, hbuf, hstart⟩
  · obtain rfl : txlen = 0 := by omega
    exact ⟨Sent.refl b, htx, rfl, fun h => absurd h hpos⟩

theorem spiDmaBlockWrite_sent (len : Nat) (hidle : ∀ n, b.idleFails n = false) :
    Sent b (spiDmaBlockWrite b len none).2 (slice b.buf 0 len) ((len - len % 4 + 4091) / 4092) ∧
      (4 ≤ len → TxStart b (spiDmaBlockWrite b len none).2) := by
  have hmod := Nat.mod_le len 4
  have hbytes : len - (len - len % 4) = len % 4 := by omega
  have hsplit : slice b.buf 0 len = slice b.buf 0 (len - len % 4) ++ slice b.buf (len - len % 4) (len % 4) := by
    have happend := slice_append b.buf 0 (len - len % 4) (len % 4)
    rwa [Nat.sub_add_cancel hmod, Nat.zero_add] at happend
  rw [spiDmaBlockWrite, spiWaitIdle_eq hidle]
  simp only [Bool.false_eq_true, if_false, Option.isSome_none]
  obtain ⟨b0, hb0⟩ : ∃ b0, b0 = Bus.clearFifos { b with idleWaits := b.idleWaits + 1 } := ⟨_, rfl⟩
  have hclear : Sent b b0 [] 0 := hb0 ▸ (idle_sent b).trans (clearFifos_sent _)
  have hbuf0 : b0.buf = b.buf := hb0 ▸ rfl
  have hidle0 : ∀ n, b0.idleFails n = false := hb0 ▸ hidle
  have hstarts0 : b0.starts = b.starts := hb0 ▸ rfl
  obtain ⟨hblocks, hfifo, hbuf, hstart⟩ :=
    writeBlocks_sent (b := b0) (len - len % 4) hidle0 (by omega) (by rw [hb0]; rfl)
  rw [← hb0]
  generalize (if len - len % 4 > 0 then
    writeLoop false ((len - len % 4) / 4092 + 1) 0 (len - len % 4) false b0.dmaRequest
    else (0, false, b0)) = r at hblocks hfifo hbuf hstart
  obtain ⟨ret, txcmdover, b1⟩ := r
  dsimp only at hblocks hfifo hbuf hstart ⊢
  have hfirst := hclear.trans hblocks
  rw [List.nil_append, Nat.zero_add, hbuf0] at hfirst
  by_cases htail : len > len - len % 4
  · have hword := word_sent (fun i => b1.buf (len - len % 4 + i)) (n := len % 4) (by omega) false hfifo
    have hdata : slice (fun i => b1.buf (len - len % 4 + i)) 0 (len % 4) = slice b.buf (len - len % 4) (len % 4) := by
      simp [slice, hbuf, hbuf0]
    rw [hdata] at hword
    simp only [if_pos htail, Nat.zero_add, false_and, if_false, hbytes]
    have hrest := hword.trans (idle_sent _)
    have hall := hfirst.trans hrest
    rw [← List.append_assoc, ← hsplit, List.append_nil] at hall
    exact ⟨hall, fun hfour => ((hstart (by omega)).trans hrest).of_eq hstarts0⟩
  · have hmodZero : len % 4 = 0 := by omega
    rw [if_neg htail]
    refine ⟨?_, fun hfour => (hstart (by omega)).of_eq hstarts0⟩
    rwa [hmodZero, Nat.sub_zero] at hfirst ⊢

/-! ## The layers above -/

theorem sendBlocks_of_le {length : Nat} (hle : length ≤ 8160) : sendBlocks length = pieceBlocks length := by
  rcases Nat.eq_or_lt_of_le hle with rfl | hlt
  · rfl
  · rw [sendBlocks, Nat.div_eq_of_lt hlt, Nat.mod_eq_of_lt hlt, Nat.zero_mul, Nat.zero_add]

theorem sendBlocks_piece {length : Nat} (h : 8160 < length) :
    sendBlocks length = pieceBlocks 8160 + sendBlocks (length - 8160) := by
  have hpiece : pieceBlocks 8160 = 2 := rfl
  rw [sendBlocks, sendBlocks, hpiece, ← Nat.mod_eq_sub_mod (by omega : length ≥ 8160)]
  omega

theorem tlsSpiWrite_sent (buf : Nat → Byte) {len : Nat} (hidle : ∀ n, b.idleFails n = false) (hpos : 0 < len)
    (hle : len ≤ 8160) :
    (tlsSpiWrite b buf len).1 = 0 ∧ Sent b (tlsSpiWrite b buf len).2 (slice buf 0 len) (pieceBlocks len) ∧
      (4 < len → TxStart b (tlsSpiWrite b buf len).2) := by
  rw [tlsSpiWrite, pieceBlocks, if_neg (by omega)]
  by_cases hfour : len ≤ 4
  · rw [if_pos hfour, if_pos hfour]
    have hword := word_sent buf hfour true (b := b.clearFifos) rfl
    rw [Nat.mul_comm] at hword
    have hall := ((clearFifos_sent b).trans hword).trans (idle_sent _)
    rw [List.append_nil, List.nil_append] at hall
    exact ⟨rfl, hall, fun h => absurd hfour (Nat.not_le.mpr h)⟩
  · rw [if_neg hfour, if_neg hfour, if_neg (by omega)]
    obtain ⟨hblock, hstart⟩ := spiDmaBlockWrite_sent (b := b.copyIn buf len) len hidle
    have hbuf : slice (b.copyIn buf len).buf 0 len = slice buf 0 len := by
      have hslice := slice_overlay b.buf 0 (slice buf 0 len)
      rwa [slice_length] at hslice
    rw [hbuf] at hblock
    have hall := (copyIn_sent b buf hle).trans hblock
    rw [List.nil_append, Nat.zero_add] at hall
    exact ⟨rfl, hall, fun h => (hstart (Nat.le_of_lt h)).of_eq rfl⟩

theorem sendLoop_sent (sendBuf : Nat → Byte) (length i : Nat) (hidle : ∀ n, b.idleFails n = false) :
    (sendLoop sendBuf length i 0 b).1 = 0 ∧
      Sent b (sendLoop sendBuf length i 0 b).2 (slice sendBuf i (length - i)) (sendBlocks (length - i)) ∧
      (4 < length - i → TxStart b (sendLoop sendBuf length i 0 b).2) := by
  induction hleft : length - i using Nat.strong_induction_on generalizing i b with
  | _ n ih =>
    rw [sendLoop]
    by_cases hlt : i < length
    · rw [if_pos hlt]
      obtain ⟨piece, hpiece⟩ : ∃ k, k = if length - i > 8160 then 8160 else length - i := ⟨_, rfl⟩
      have hle : 0 < piece ∧ piece ≤ 8160 ∧ piece ≤ n := by
        split at hpiece <;> omega
      have hfour : 4 < n → 4 < piece := by
        intro h
        split at hpiece <;> omega
      obtain ⟨hret, hsent, hstart⟩ := tlsSpiWrite_sent (fun k => sendBuf (i + k)) hidle hle.1 hle.2.1
      have hidle' : ∀ n, (tlsSpiWrite b (fun k => sendBuf (i + k)) piece).2.idleFails n = false := by
        rw [hsent.frame.idleFails]
        exact hidle
      obtain ⟨hret', hsent', -⟩ := ih (length - (i + 8160)) (by omega) (i + 8160) hidle' rfl
      rw [← hpiece]
      simp only [hret, ne_eq, not_true_eq_false, if_false]
      refine ⟨hret', ?_, fun h => (hstart (hfour h)).trans hsent'⟩
      have hdata : slice (fun k => sendBuf (i + k)) 0 piece = slice sendBuf i piece := by simp [slice]
      have hall := hsent.trans hsent'
      rw [hdata] at hall
      split at hpiece
      · rw [hpiece, ← slice_append, ← Nat.sub_sub, hleft, Nat.add_sub_cancel' (by omega), ← sendBlocks_piece (by omega)]
          at hall
        rwa [hpiece]
      · have hlast : length - (i + 8160) = 0 := by omega
        rw [hlast, slice_zero, List.append_nil, hpiece, hleft] at hall
        rwa [hpiece, hleft, sendBlocks_of_le (by omega)]
    · rw [if_neg hlt]
      obtain rfl : n = 0 := by omega
      exact ⟨rfl, Sent.refl b, fun h => absurd h (Nat.not_lt_zero 4)⟩

theorem luatSpiSend_sent (sendBuf : Nat → Byte) {length : Nat} (hidle : ∀ n, b.idleFails n = false)
    (hpos : 0 < length) :
    (luatSpiSend b sendBuf length).1 = length ∧
      Sent b (luatSpiSend b sendBuf length).2 (slice sendBuf 0 length) (sendBlocks length) ∧
      (4 < length → TxStart b (luatSpiSend b sendBuf length).2) := by
  rw [luatSpiSend]
  by_cases hle : length ≤ 8160
  · obtain ⟨hret, hsent, hstart⟩ := tlsSpiWrite_sent sendBuf hidle hpos hle
    rw [if_pos hle, sendBlocks_of_le hle]
    simp only [hret, if_true]
    exact ⟨trivial, hsent, hstart⟩
  · obtain ⟨hret, hsent, hstart⟩ := sendLoop_sent sendBuf length 0 hidle
    rw [if_neg hle]
    simp only [hret, if_true]
    exact ⟨trivial, hsent, hstart⟩

end Sent

/-- With no failing wait, `luat_spi_send` of a buffer of any length shifts out its bytes and nothing else, in order, each
once, in DMA blocks of at most 4092 bytes and with copies of at most 8160 bytes, and returns the length. -/
theorem luatSpiSend_exact (b : Bus) (sendBuf : Nat → Byte) {length : Nat} (hpos : 1 ≤ length)
    (hidle : ∀ n, b.idleFails n = false) (hdma : ∀ n, b.dmaFails n = none) :
    let r := luatSpiSend b sendBuf length
    r.1 = length ∧ r.2.mosi = b.mosi ++ slice sendBuf 0 length ∧ r.2.clks = b.clks + 8 * length ∧
      Grows 4092 b.dmaBlocks r.2.dmaBlocks ∧ Grows 8160 b.copies r.2.copies := by
  obtain ⟨hret, hsent, -⟩ := luatSpiSend_sent sendBuf hidle hpos
  obtain ⟨hmosi, hclks, -⟩ := hsent.sent fun j _ => hdma _
  rw [slice_length] at hclks
  exact ⟨hret, hmosi, hclks, hsent.frame.dmaBlocks, hsent.frame.copies⟩

/-- A master at rest, whose waits all succeed. -/
def Bus.rest : Bus where
  miso j := BitVec.ofNat 8 j
  idleFails _ := false
  dmaFails _ := none
  buf _ := 0#8
  txFifo := []
  rxFifo := []
  hung := false
  idleWaits := 0
  clocked := 0
  stored := 0
  starts := []
  dmaBlocks := []
  copies := []

theorem luatSpiSend_exact_rest :
    let r := luatSpiSend Bus.rest (BitVec.ofNat 8) 8200
    r.1 = 8200 ∧ r.2.mosi = Bus.rest.mosi ++ slice (BitVec.ofNat 8) 0 8200 ∧
      r.2.clks = Bus.rest.clks + 8 * 8200 ∧ Grows 4092 Bus.rest.dmaBlocks r.2.dmaBlocks ∧ Grows 8160 Bus.rest.copies r.2.copies :=
  luatSpiSend_exact Bus.rest (BitVec.ofNat 8) (by decide) (fun _ => rfl) (fun _ => rfl)

end Spi
end Air101

import Air101.Spi.DmaWrite

/-!
# Spi.DmaRead

Receiving in DMA mode: `luat_spi_recv` of `app/port/luat_spi_air101.c` cuts its request into pieces of 8160 bytes for
`tls_spi_read`, and `SpiDmaBlockRead` receives them in blocks of 4092 bytes, the last one to three bytes being clocked with
the last block and read from the data register (`platform/drivers/spi/wm_hostspi.c`). `tls_spi_read_with_cmd` sends a
command before the first block.

* `Taken`: what a part of the driver receives and which DMA blocks it takes; `Taken.trans` puts two parts together.
* `Turn`, `readLoop_turn`: a turn of the loop over the blocks.
* `readLoop_looped`: the loop, which leaves out the last bytes if there is no word left for their turn.
* `spiDmaBlockRead_taken`, `tlsSpiRead_taken`, `recvLoop_taken`: the three layers.
* `luatSpiRecv_exact_iff`: a request is received in full exactly if its last piece is not one of 4093 to 4095 bytes.
-/

namespace Air101
namespace Spi

open Storage

/-! ## The driver -/

/-- A byte of the command in `SpiDmaBlockRead`: `word32` goes into the transmit FIFO once it is full. -/
def putByte (txdata : Nat → Byte) (r : BitVec 32 × Bus) (i : Nat) : BitVec 32 × Bus :=
  let (word32, b) := if i > 0 ∧ i % 4 = 0 then (0#32, r.2.txData r.1) else r
  (orByte word32 (txdata i) (i % 4), b)

/-- The words of the command that `SpiDmaBlockRead` puts into the transmit FIFO. -/
def putCmd (b : Bus) (txdata : Nat → Byte) (txlen : Nat) : Bus :=
  let (word32, b) := (List.range txlen).foldl (putByte txdata) (0#32, b)
  b.txData word32

/-- `SPI_VALID_CLKS_NUM` and `SPI_RX_INVALID_BITS` of a turn of the loop. -/
def readClks (len rxlenbk blocknum txlen i blocksize : Nat) : Nat × Nat :=
  if blocknum = 0 then ((len + txlen) * 8, txlen * 8)
  else if i = 0 then ((blocksize + txlen) * 8, txlen * 8)
  else if i = blocknum then ((blocksize + len - rxlenbk) * 8, 0)
  else (blocksize * 8, 0)

/-- The loop of `SpiDmaBlockRead` over the blocks. -/
def readLoop (len rxlenbk blocknum txlen : Nat) : Nat → Nat → Nat → Bus → Int × Bus
  | 0, _, _, b => (0, b)
  | turns + 1, i, rxlen, b =>
    let blocksize := if rxlenbk > 0 then (if rxlen > 4092 then 4092 else rxlen) else 0
    if rxlenbk > 0 ∧ blocksize = 0 then (0, b)
    else
      let (rxDma, b) := if rxlenbk > 0 then b.dmaRx (i * 4092) blocksize else ((0, 0), b)
      let (clks, invalid) := readClks len rxlenbk blocknum txlen i blocksize
      let (busy, b) := (b.start clks invalid true rxDma).spiWaitIdle
      if busy then (-3, b)
      else if b.dmaWaitComplt then (-3, b)
      else readLoop len rxlenbk blocknum txlen turns (i + 1) (rxlen - blocksize) b

/-- The last bytes of a request, which `SpiDmaBlockRead` takes from the data register. -/
def readTail (b : Bus) (rxlenbk : Nat) : Bus :=
  let (word32, b) := b.rxData
  { b with buf := overlay b.buf rxlenbk [byteAt word32 0, byteAt word32 1, byteAt word32 2, byteAt word32 3] }

/-- `SpiDmaBlockRead` of `len` bytes into the DMA buffer, behind the `txlen` bytes of a command. -/
def spiDmaBlockRead (b : Bus) (len : Nat) (txdata : Nat → Byte) (txlen : Nat) : Int × Bus :=
  let (busy, b) := b.spiWaitIdle
  if busy then (-3, b)
  else
    let b := b.clearFifos
    let rxlenbk := len - len % 4
    let blocknum := rxlenbk / 4092 % 256
    let b := if txlen > 0 ∧ txlen ≤ 32 then putCmd b txdata txlen else b
    let (ret, b) := readLoop len rxlenbk blocknum txlen (blocknum + 1) 0 rxlenbk b.dmaRequest
    (ret, if len > rxlenbk then readTail b rxlenbk else b)

/-- `tls_spi_read`: its status, the bytes it stores and the bus. -/
def tlsSpiRead (b : Bus) (len : Nat) : Int × List Byte × Bus :=
  if len = 0 then (-1, [], b)
  else if len ≤ 4 then
    let (_, b) := (b.clearFifos.start (8 * len) 0 true (0, 0)).spiWaitIdle
    let (data32, b) := b.rxData
    (0, slice (byteAt data32) 0 len, b)
  else if len > 8160 then (-1, [], b)
  else
    let (_, b) := spiDmaBlockRead b len (fun _ => 0#8) 0
    (0, slice b.buf 0 len, b)

/-- The loop of `luat_spi_recv`. -/
def recvLoop (length i : Nat) (ret : Int) (recvBuf : Nat → Byte) (b : Bus) : Int × (Nat → Byte) × Bus :=
  if i < length then
    let (ret, bytes, b) := tlsSpiRead b (if length - i > 8160 then 8160 else length - i)
    let recvBuf := overlay recvBuf i bytes
    if ret ≠ 0 then (ret, recvBuf, b) else recvLoop length (i + 8160) ret recvBuf b
  else (ret, recvBuf, b)
termination_by length - i
decreasing_by omega

/-- `luat_spi_recv`: its result, the memory at `recv_buf` and the bus. -/
def luatSpiRecv (b : Bus) (recvBuf : Nat → Byte) (length : Nat) : Int × (Nat → Byte) × Bus :=
  let (ret, recvBuf, b) :=
    if length ≤ 8160 then
      let (ret, bytes, b) := tlsSpiRead b length
      (ret, overlay recvBuf 0 bytes, b)
    else recvLoop length 0 0 recvBuf b
  (if ret = 0 then length else -1, recvBuf, b)

/-- `tls_spi_read_with_cmd`: its status, the bytes it stores and the bus. -/
def tlsSpiReadWithCmd (b : Bus) (txbuf : Nat → Byte) (nTx nRx : Nat) : Int × List Byte × Bus :=
  if nTx = 0 ∨ nRx = 0 then (-1, [], b)
  else if nRx > 8160 ∨ nTx > 32 then (-1, [], b)
  else
    let (_, b) := spiDmaBlockRead b nRx txbuf nTx
    (0, slice b.buf 0 nRx, b)

/-- The last piece has a word for the turn of the loop that clocks its last bytes. -/
def wholeTail (len : Nat) : Prop := ¬ (4093 ≤ len % 8160 ∧ len % 8160 ≤ 4095)

/-! ## What is received -/

/-- There are further starts, all with the receive channel. -/
def RxStarts (b b' : Bus) : Prop :=
  ∃ new : List Start, new ≠ [] ∧ b'.starts = b.starts ++ new ∧ ∀ start ∈ new, start.rxChannelOn = true

/-- `n` bytes are received behind `skip` others, which takes `k` DMA blocks, if these complete and `good` holds; with
blocks that complete and without `good` there are clocks missing, and with a block that fails there are bytes missing. -/
structure Taken (b b' : Bus) (skip n k : Nat) (good : Prop) (bytes : List Byte) : Prop where
  frame : Frame b b'
  starts : RxStarts b b'
  mosi : skip = 0 → b'.mosi = b.mosi
  le : b'.stored ≤ b.stored + n
  taken : good → b.clear k → bytes = slice b.miso (b.clocked + skip) n ∧ b'.stored = b.stored + n ∧
    b'.clocked = b.clocked + (skip + n) ∧ b'.clks = b.clks + 8 * (skip + n) ∧
    b'.dmaBlocks.length = b.dmaBlocks.length + k
  clks : ¬ good → b.clear k → b'.clks < b.clks + 8 * (skip + n)
  short : ¬ (good ∧ b.clear k) → b'.stored < b.stored + n

section Taken

variable {b b' b'' : Bus}

theorem RxStarts.trans (h : RxStarts b b') (h' : RxStarts b' b'') : RxStarts b b'' := by
  obtain ⟨new, hne, hstarts, hrx⟩ := h
  obtain ⟨new', -, hstarts', hrx'⟩ := h'
  refine ⟨new ++ new', by simp [hne], by rw [hstarts', hstarts, List.append_assoc], fun start hstart => ?_⟩
  exact (List.mem_append.mp hstart).elim (hrx start) (hrx' start)

theorem RxStarts.one {clks : Nat} {mosi : List Byte} (h : b'.starts = b.starts ++ [⟨clks, true, mosi⟩]) :
    RxStarts b b' :=
  ⟨_, List.cons_ne_nil _ _, h, by simp⟩

theorem Taken.trans {skip n n' k k' : Nat} {good : Prop} {bytes bytes' : List Byte}
    (h : Taken b b' skip n k True bytes) (h' : Taken b' b'' 0 n' k' good bytes') :
    Taken b b'' skip (n + n') (k + k') good (bytes ++ bytes') := by
  have hle := h.le
  have hle' := h'.le
  refine ⟨h.frame.trans h'.frame, h.starts.trans h'.starts, fun hskip => (h'.mosi rfl).trans (h.mosi hskip), by omega,
    fun hgood hclear => ?_, fun hgood hclear => ?_, fun hno => ?_⟩
  · obtain ⟨hbytes, hstored, hclocked, hclks, hblocks⟩ := h.taken trivial fun j hj => hclear j (by omega)
    obtain ⟨hbytes', hstored', hclocked', hclks', hblocks'⟩ :=
      h'.taken hgood ((clear_add h.frame.dmaFails hblocks).mp hclear).2
    rw [hbytes, hbytes', h.frame.miso, hclocked]
    refine ⟨?_, by omega, by omega, by omega, by omega⟩
    rw [Nat.add_zero, ← Nat.add_assoc, ← slice_append]
  · obtain ⟨-, -, -, hclks, hblocks⟩ := h.taken trivial fun j hj => hclear j (by omega)
    have hlt := h'.clks hgood ((clear_add h.frame.dmaFails hblocks).mp hclear).2
    omega
  · by_cases hk : b.clear k
    · obtain ⟨-, -, -, -, hblocks⟩ := h.taken trivial hk
      have hlt := h'.short fun ⟨hgood, hk'⟩ => hno ⟨hgood, (clear_add h.frame.dmaFails hblocks).mpr ⟨hk, hk'⟩⟩
      omega
    · have hlt := h.short fun hall => hk hall.2
      omega

/-! ## Turns of the loop -/

/-- A block of `k` bytes with its start, which clocks `skip` bytes before them and `t` bytes behind. -/
structure Turn (b b' : Bus) (skip off k t : Nat) : Prop where
  frame : Frame b b'
  starts : RxStarts b b'
  tx : b.txFifo = [] → b'.mosi = b.mosi ∧ b'.txFifo = []
  clocked : b'.clocked = b.clocked + (skip + k + t)
  clks : b'.clks = b.clks + 8 * (skip + k + t)
  dmaBlocks : b'.dmaBlocks.length = b.dmaBlocks.length + 1
  hung : b'.hung = false ↔ b.clear 1
  taken : b.clear 1 → b'.stored = b.stored + k ∧ b'.buf = overlay b.buf off (slice b.miso (b.clocked + skip) k) ∧
    b'.rxFifo = slice b.miso (b.clocked + skip + k) t
  short : ¬ b.clear 1 → b'.stored + 4 ≤ b.stored + k

/-- A block is received as far as the DMA moves it. -/
theorem turn_start (skip off : Nat) {k t clks invalid : Nat} (hrx : b.rxFifo = []) (hword : k % 4 = 0) (hpos : 0 < k)
    (hle : k ≤ 4092) (ht : t < 4) (hclks : clks = (skip + k + t) * 8) (hinvalid : invalid = skip * 8) :
    Turn b ((b.dmaRx off k).2.start clks invalid true (off, b.moved k)) skip off k t := by
  subst hclks hinvalid
  have hclkBytes : (skip + k + t) * 8 / 8 = skip + k + t := Nat.mul_div_cancel _ (by omega)
  have hskipBytes : skip * 8 / 8 = skip := Nat.mul_div_cancel _ (by omega)
  have hfifo : (b.dmaRx off k).2.rxFifo ++ slice (b.dmaRx off k).2.miso ((b.dmaRx off k).2.clocked + skip * 8 / 8)
      ((skip + k + t) * 8 / 8 - skip * 8 / 8) = slice b.miso (b.clocked + skip) (k + t) := by
    rw [hclkBytes, hskipBytes, Nat.add_assoc, Nat.add_sub_cancel_left]
    simp [Bus.dmaRx, hrx]
  have hmin : min (b.moved k) ((slice b.miso (b.clocked + skip) (k + t)).length / 4 * 4) = b.moved k := by
    have hmoved := moved_le b (by omega : 4 ≤ k)
    rw [slice_length]
    omega
  refine ⟨⟨rfl, rfl, rfl, Grows.snoc hle _, Grows.refl _ _⟩, RxStarts.one rfl, fun htx => start_tx _ _ _ _ _ htx, ?_, ?_,
    List.length_append, ?_, fun h => ?_, fun h => ?_⟩
  · simp only [Bus.start, hclkBytes]
    rfl
  · rw [start_clks, Nat.mul_comm]
    rfl
  · simp [Bus.start, Bus.dmaRx, clear_one]
  · rw [moved_of_clear h] at hmin
    simp only [Bus.start, if_true, hfifo, hmin, moved_of_clear h]
    rw [slice_take _ _ _ _ (by omega), slice_drop _ _ _ _ (by omega), Nat.add_sub_cancel_left]
    exact ⟨rfl, rfl, rfl⟩
  · have hlt := moved_lt h (by omega : 4 ≤ k)
    simp only [Bus.start, if_true, hfifo, hmin]
    show b.stored + b.moved k + 4 ≤ b.stored + k
    omega

theorem Turn.idle {skip off k t : Nat} (h : Turn b b' skip off k t) :
    Turn b { b' with idleWaits := b'.idleWaits + 1 } skip off k t :=
  ⟨⟨h.frame.miso, h.frame.idleFails, h.frame.dmaFails, h.frame.dmaBlocks, h.frame.copies⟩, h.starts, h.tx, h.clocked,
    h.clks, h.dmaBlocks, h.hung, h.taken, h.short⟩

/-- A turn of the loop with a block: it goes on if the block completes. -/
theorem readLoop_turn (len rxlenbk blocknum txlen turns i rxlen k skip t : Nat)
    (hidle : ∀ n, b.idleFails n = false) (hrx : b.rxFifo = []) (hbk : 0 < rxlenbk)
    (hk : k = if rxlen > 4092 then 4092 else rxlen) (hword : k % 4 = 0) (hpos : 0 < k) (ht : t < 4)
    (hclks : readClks len rxlenbk blocknum txlen i k = ((skip + k + t) * 8, skip * 8)) :
    ∃ b', Turn b b' skip (i * 4092) k t ∧
      readLoop len rxlenbk blocknum txlen (turns + 1) i rxlen b =
        if b'.hung then (-3, b') else readLoop len rxlenbk blocknum txlen turns (i + 1) (rxlen - k) b' := by
  have hle : k ≤ 4092 := by
    split at hk <;> omega
  have hturn := turn_start (b := b) skip (i * 4092) hrx hword hpos hle ht rfl rfl
  refine ⟨_, hturn.idle, ?_⟩
  have hdma : b.dmaRx (i * 4092) k = ((i * 4092, b.moved k), (b.dmaRx (i * 4092) k).2) := rfl
  have hidle' : ∀ n, ((b.dmaRx (i * 4092) k).2.start ((skip + k + t) * 8) (skip * 8) true
      (i * 4092, b.moved k)).idleFails n = false := hidle
  rw [readLoop, if_pos hbk, ← hk, if_neg (by omega), if_pos hbk, hdma, hclks]
  dsimp only
  generalize (b.dmaRx (i * 4092) k).2.start ((skip + k + t) * 8) (skip * 8) true (i * 4092, b.moved k) = b1 at hidle' ⊢
  simp only [spiWaitIdle_eq hidle', Bus.dmaWaitComplt, Bool.false_eq_true, if_false]

/-! ## The loop -/

/-- What the loop leaves: the words of the request in the DMA buffer, and its last bytes in the FIFO if `good` holds. -/
structure Looped (b b' : Bus) (skip n : Nat) (good : Prop) : Prop where
  frame : Frame b b'
  starts : RxStarts b b'
  tx : b.txFifo = [] → b'.mosi = b.mosi ∧ b'.txFifo = []
  words : b.clear ((n - n % 4 + 4091) / 4092) → slice b'.buf 0 (n - n % 4) = slice b.miso (b.clocked + skip) (n - n % 4) ∧
    b'.stored = b.stored + (n - n % 4) ∧ b'.dmaBlocks.length = b.dmaBlocks.length + (n - n % 4 + 4091) / 4092
  tail : good → b.clear ((n - n % 4 + 4091) / 4092) →
    b'.rxFifo = slice b.miso (b.clocked + skip + (n - n % 4)) (n % 4) ∧ b'.clocked = b.clocked + (skip + n) ∧
      b'.clks = b.clks + 8 * (skip + n)
  missing : ¬ good → b.clear ((n - n % 4 + 4091) / 4092) → b'.rxFifo = [] ∧ b'.clks < b.clks + 8 * (skip + n)
  short : ¬ b.clear ((n - n % 4 + 4091) / 4092) → b'.stored + 4 ≤ b.stored + (n - n % 4)

/-- A request of less than a word, which is clocked without a block. -/
theorem readLoop_tail {n txlen : Nat} (hidle : ∀ n, b.idleFails n = false) (hrx : b.rxFifo = []) (hn : n < 4) :
    Looped b (readLoop n (n - n % 4) 0 txlen 1 0 (n - n % 4) b).2 txlen n True := by
  have hzero : n - n % 4 = 0 := by omega
  have hmod : n % 4 = n := by omega
  have hskip : txlen * 8 / 8 = txlen := Nat.mul_div_cancel _ (by omega)
  have hclks : (n + txlen) * 8 / 8 = n + txlen := Nat.mul_div_cancel _ (by omega)
  have hidle' : ∀ m, (b.start ((n + txlen) * 8) (txlen * 8) true (0, 0)).idleFails m = false := hidle
  have hturn : (readLoop n 0 0 txlen 1 0 0 b).2 =
      { b.start ((n + txlen) * 8) (txlen * 8) true (0, 0) with
        idleWaits := (b.start ((n + txlen) * 8) (txlen * 8) true (0, 0)).idleWaits + 1 } := by
    rw [readLoop]
    simp only [gt_iff_lt, lt_irrefl, if_false, false_and, readClks, if_true, spiWaitIdle_eq hidle', Bool.false_eq_true,
      readLoop]
    split <;> rfl
  rw [hzero, hturn]
  refine ⟨⟨rfl, rfl, rfl, Grows.refl _ _, Grows.refl _ _⟩, RxStarts.one rfl,
    fun htx => start_tx b ((n + txlen) * 8) (txlen * 8) true (0, 0) htx, fun _ => ?_, fun _ _ => ⟨?_, ?_, ?_⟩,
    fun h => absurd trivial h, fun h => ?_⟩
  · rw [hzero]
    simp [Bus.start]
  · rw [hzero, hmod]
    simp [Bus.start, hrx, hskip, hclks]
  · simp [Bus.start, hclks, Nat.add_comm]
  · show (b.start ((n + txlen) * 8) (txlen * 8) true (0, 0)).clks = b.clks + 8 * (txlen + n)
    rw [start_clks]
    omega
  · rw [hzero] at h
    exact absurd (clear_zero b) h

theorem Turn.looped {skip n : Nat} (h : Turn b b' skip 0 (n - n % 4) (n % 4)) (hfour : 4 ≤ n) (hn : n < 4096) :
    Looped b b' skip n True := by
  have hblocks : (n - n % 4 + 4091) / 4092 = 1 := by omega
  have hsum : skip + (n - n % 4) + n % 4 = skip + n := by omega
  refine ⟨h.frame, h.starts, h.tx, fun hclear => ?_, fun _ hclear => ?_, fun hno => absurd trivial hno, fun hclear => ?_⟩
  · rw [hblocks] at hclear ⊢
    obtain ⟨hstored, hbuf, -⟩ := h.taken hclear
    have hslice := slice_overlay b.buf 0 (slice b.miso (b.clocked + skip) (n - n % 4))
    rw [slice_length] at hslice
    exact ⟨by rw [hbuf, hslice], hstored, h.dmaBlocks⟩
  · rw [hblocks] at hclear
    exact ⟨(h.taken hclear).2.2, by rw [h.clocked, hsum], by rw [h.clks, hsum]⟩
  · rw [hblocks] at hclear
    exact h.short hclear

/-- A full block, which completes, and a second one with the bytes left over. -/
theorem Turn.looped_two {skip n : Nat} (h : Turn b b' skip 0 4092 0) (hone : b.clear 1)
    (h' : Turn b' b'' 0 4092 (n - n % 4 - 4092) (n % 4)) (hn : 4096 ≤ n) (hle : n ≤ 8160) :
    Looped b b'' skip n True := by
  obtain ⟨hstored, hbuf, -⟩ := h.taken hone
  have hblocks : (n - n % 4 + 4091) / 4092 = 1 + 1 := by omega
  have hclear := clear_add (n := 1) h.frame.dmaFails h.dmaBlocks
  have hblock := h.dmaBlocks
  have hblock' := h'.dmaBlocks
  have hclocked := h.clocked
  have hclocked' := h'.clocked
  have hclks := h.clks
  have hclks' := h'.clks
  have hat : b'.clocked + 0 = b.clocked + skip + 4092 := by
    rw [Nat.add_zero, hclocked, Nat.add_zero, Nat.add_assoc]
  have htx : b.txFifo = [] → b''.mosi = b.mosi ∧ b''.txFifo = [] := by
    intro hempty
    obtain ⟨hmosi, hfifo⟩ := h.tx hempty
    obtain ⟨hmosi', hfifo'⟩ := h'.tx hfifo
    exact ⟨hmosi'.trans hmosi, hfifo'⟩
  refine ⟨h.frame.trans h'.frame, h.starts.trans h'.starts, htx, fun hall => ?_, fun _ hall => ?_,
    fun hno => absurd trivial hno, fun hno => ?_⟩
  · rw [hblocks] at hall ⊢
    obtain ⟨hstored', hbuf', -⟩ := h'.taken (hclear.mp hall).2
    refine ⟨?_, by omega, by omega⟩
    have hfirst : slice b'.buf 0 4092 = slice b.miso (b.clocked + skip) 4092 := by
      have hslice := slice_overlay b.buf 0 (slice b.miso (b.clocked + skip) 4092)
      rw [slice_length] at hslice
      rw [hbuf, hslice]
    have hboth := slice_overlay_behind b'.buf 0 4092 (slice b'.miso (b'.clocked + 0) (n - n % 4 - 4092))
    rw [slice_length, hfirst, h.frame.miso, hat, ← slice_append, Nat.add_sub_cancel' (by omega)] at hboth
    rw [hbuf', h.frame.miso, hat]
    rwa [Nat.zero_add] at hboth
  · rw [hblocks] at hall
    have hat' : b'.clocked + 0 + (n - n % 4 - 4092) = b.clocked + skip + (n - n % 4) := by omega
    refine ⟨?_, by omega, by omega⟩
    rw [(h'.taken (hclear.mp hall).2).2.2, h.frame.miso, hat']
  · rw [hblocks] at hno
    have hshort := h'.short fun hone' => hno (hclear.mpr ⟨hone, hone'⟩)
    omega

/-- A request that fits in one block. -/
theorem readLoop_one {n txlen : Nat} (hidle : ∀ n, b.idleFails n = false) (hrx : b.rxFifo = []) (hfour : 4 ≤ n)
    (hn : n < 4092) : Looped b (readLoop n (n - n % 4) 0 txlen 1 0 (n - n % 4) b).2 txlen n True := by
  have hsplit : n - n % 4 + n % 4 = n := Nat.sub_add_cancel (Nat.mod_le n 4)
  obtain ⟨b', hturn, hloop⟩ := readLoop_turn (b := b) n (n - n % 4) 0 txlen 0 0 (n - n % 4) (n - n % 4) txlen (n % 4)
    hidle hrx (by omega) (by rw [if_neg (by omega)]) (by omega) (by omega) (by omega)
    (by rw [readClks, if_pos rfl, Nat.add_assoc, hsplit, Nat.add_comm])
  have hend : (readLoop n (n - n % 4) 0 txlen 1 0 (n - n % 4) b).2 = b' := by
    rw [hloop, readLoop]
    split <;> rfl
  rw [Nat.zero_mul] at hturn
  rw [hend]
  exact hturn.looped hfour (by omega)

/-- A request of one full block and no other word, after which the bytes left over are not clocked. -/
theorem readLoop_full {n txlen : Nat} (hidle : ∀ n, b.idleFails n = false) (hrx : b.rxFifo = []) (hn : n - n % 4 = 4092) :
    Looped b (readLoop n (n - n % 4) 1 txlen 2 0 (n - n % 4) b).2 txlen n (¬ (4093 ≤ n ∧ n ≤ 4095)) := by
  obtain ⟨b', hturn, hloop⟩ := readLoop_turn (b := b) n (n - n % 4) 1 txlen 1 0 (n - n % 4) 4092 txlen 0 hidle hrx
    (by omega) (by rw [if_neg (by omega), hn]) (by omega) (by omega) (by omega)
    (by rw [readClks, if_neg (by omega), if_pos rfl, Nat.add_zero, Nat.add_comm])
  have hend : (readLoop n (n - n % 4) 1 txlen 2 0 (n - n % 4) b).2 = b' := by
    have hstop : readLoop n 4092 1 txlen 1 1 0 b' = (0, b') := by
      rw [readLoop]
      rfl
    rw [hloop, hn, Nat.sub_self, Nat.zero_add, hstop]
    split <;> rfl
  rw [hend]
  have hblocks : (n - n % 4 + 4091) / 4092 = 1 := by omega
  refine ⟨hturn.frame, hturn.starts, hturn.tx, fun h => ?_, fun hgood h => ?_, fun hbad h => ?_, fun h => ?_⟩ <;>
    rw [hblocks] at h
  · obtain ⟨hstored, hbuf, -⟩ := hturn.taken h
    have hslice := slice_overlay b.buf 0 (slice b.miso (b.clocked + txlen) 4092)
    rw [slice_length] at hslice
    rw [hblocks, hn]
    exact ⟨by rw [hbuf, Nat.zero_mul, hslice], hstored, hturn.dmaBlocks⟩
  · obtain rfl : n = 4092 := by omega
    exact ⟨(hturn.taken h).2.2, hturn.clocked, hturn.clks⟩
  · have hclks := hturn.clks
    exact ⟨(hturn.taken h).2.2, by omega⟩
  · rw [hn]
    exact hturn.short h

/-- A request of two turns, the second of which clocks the bytes left over. -/
theorem readLoop_two {n txlen : Nat} (hidle : ∀ n, b.idleFails n = false) (hrx : b.rxFifo = []) (hn : 4096 ≤ n)
    (hle : n ≤ 8160) :
    Looped b (readLoop n (n - n % 4) 1 txlen 2 0 (n - n % 4) b).2 txlen n True := by
  obtain ⟨b', hturn, hloop⟩ := readLoop_turn (b := b) n (n - n % 4) 1 txlen 1 0 (n - n % 4) 4092 txlen 0 hidle hrx
    (by omega) (by rw [if_pos (by omega)]) (by omega) (by omega) (by omega)
    (by rw [readClks, if_neg (by omega), if_pos rfl, Nat.add_zero, Nat.add_comm])
  rw [Nat.zero_mul] at hturn
  by_cases hone : b.clear 1
  · have hfifo := (hturn.taken hone).2.2
    have hidle' : ∀ n, b'.idleFails n = false := by
      rw [hturn.frame.idleFails]
      exact hidle
    obtain ⟨b'', hturn', hloop'⟩ := readLoop_turn (b := b') n (n - n % 4) 1 txlen 0 1 (n - n % 4 - 4092)
      (n - n % 4 - 4092) 0 (n % 4) hidle' (hfifo.trans (slice_zero _ _)) (by omega) (by rw [if_neg (by omega)])
      (by omega) (by omega) (by omega) (by
        rw [readClks, if_neg (by omega), if_neg (by omega), if_pos rfl]
        congr 2
        omega)
    have hend : (readLoop n (n - n % 4) 1 txlen 2 0 (n - n % 4) b).2 = b'' := by
      rw [hloop, if_neg (by simp [hturn.hung.mpr hone]), Nat.zero_add, hloop', readLoop]
      split <;> rfl
    rw [Nat.one_mul] at hturn'
    rw [hend]
    exact hturn.looped_two hone hturn' hn hle
  · have hend : (readLoop n (n - n % 4) 1 txlen 2 0 (n - n % 4) b).2 = b' := by
      rw [hloop, if_pos (by simpa using fun h => hone (hturn.hung.mp h))]
    have hshort := hturn.short hone
    have hno : ¬ b.clear ((n - n % 4 + 4091) / 4092) := fun h => hone fun j hj => h j (by omega)
    rw [hend]
    exact ⟨hturn.frame, hturn.starts, hturn.tx, fun h => absurd h hno, fun _ h => absurd h hno,
      fun _ h => absurd h hno, fun _ => by omega⟩

theorem Looped.of_true {skip n : Nat} {good : Prop} (h : Looped b b' skip n True) (hgood : good) :
    Looped b b' skip n good :=
  ⟨h.frame, h.starts, h.tx, h.words, fun _ => h.tail trivial, fun hno => absurd hgood hno, h.short⟩

theorem readLoop_looped (txlen : Nat) {n : Nat} (hidle : ∀ n, b.idleFails n = false) (hrx : b.rxFifo = [])
    (hle : n ≤ 8160) :
    let blocknum := (n - n % 4) / 4092 % 256
    Looped b (readLoop n (n - n % 4) blocknum txlen (blocknum + 1) 0 (n - n % 4) b).2 txlen n
      (¬ (4093 ≤ n ∧ n ≤ 4095)) := by
  intro blocknum
  by_cases hone : n < 4092
  · have hnum : blocknum = 0 := by omega
    rw [hnum]
    by_cases hfour : n < 4
    · exact (readLoop_tail hidle hrx hfour).of_true (by omega)
    · exact (readLoop_one hidle hrx (by omega) hone).of_true (by omega)
  · have hnum : blocknum = 1 := by omega
    rw [hnum]
    by_cases hfull : n < 4096
    · exact readLoop_full hidle hrx (by omega)
    · exact (readLoop_two hidle hrx (by omega) hle).of_true (by omega)

/-! ## The layers above -/

/-- The command goes into the transmit FIFO alone. -/
theorem putCmd_eq (b : Bus) (txdata : Nat → Byte) (txlen : Nat) :
    ∃ fifo, putCmd b txdata txlen = { b with txFifo := fifo } := by
  have hfold : ∀ (is : List Nat) (r : BitVec 32 × Bus), ∃ fifo,
      (is.foldl (putByte txdata) r).2 = { r.2 with txFifo := fifo } := by
    intro is
    induction is with
    | nil => exact fun r => ⟨r.2.txFifo, rfl⟩
    | cons i is ih =>
      intro r
      obtain ⟨fifo, hfifo⟩ := ih (putByte txdata r i)
      refine ⟨fifo, ?_⟩
      rw [List.foldl_cons, hfifo, putByte]
      by_cases hi : i > 0 ∧ i % 4 = 0
      · rw [if_pos hi]
        rfl
      · rw [if_neg hi]
  obtain ⟨fifo, hfifo⟩ := hfold (List.range txlen) (0#32, b)
  rw [putCmd]
  generalize (List.range txlen).foldl (putByte txdata) (0#32, b) = r at hfifo ⊢
  obtain ⟨word32, b1⟩ := r
  obtain rfl : b1 = { b with txFifo := fifo } := hfifo
  exact ⟨_, rfl⟩

/-- What the driver does in `SpiDmaBlockRead` before its loop. -/
theorem prepare_eq (b : Bus) (txdata : Nat → Byte) (txlen : Nat) :
    ∃ fifo, (txlen = 0 → fifo = []) ∧
      (if txlen > 0 ∧ txlen ≤ 32 then putCmd { b with idleWaits := b.idleWaits + 1 }.clearFifos txdata txlen
        else { b with idleWaits := b.idleWaits + 1 }.clearFifos).dmaRequest =
        { b with
          txFifo := fifo
          rxFifo := []
          hung := false
          idleWaits := b.idleWaits + 1 } := by
  split
  · obtain ⟨fifo, hfifo⟩ := putCmd_eq { b with idleWaits := b.idleWaits + 1 }.clearFifos txdata txlen
    exact ⟨fifo, by omega, by rw [hfifo]; rfl⟩
  · exact ⟨[], fun _ => rfl, rfl⟩

theorem readTail_bytes (b : Bus) (rxlenbk : Nat) {n : Nat} {bytes : List Byte} (hrx : b.rxFifo = bytes)
    (hlen : bytes.length = n) (hn : n ≤ 4) :
    slice (readTail b rxlenbk).buf 0 (rxlenbk + n) = slice b.buf 0 rxlenbk ++ bytes := by
  have hword := take_leWord (fun i => b.rxFifo.getD i 0#8) (Nat.le_refl 4)
  have hfour : [0, 1, 2, 3].map (fun i => byteAt (leWord (fun i => b.rxFifo.getD i 0#8) 4) i) =
      slice (fun i => b.rxFifo.getD i 0#8) 0 4 := hword
  have hbytes : (slice (fun i => b.rxFifo.getD i 0#8) 0 4).take n = bytes := by
    rw [slice_take _ _ _ _ hn]
    apply List.ext_getElem?
    intro i
    rw [slice_getElem?]
    by_cases hi : i < n
    · rw [if_pos hi, hrx, Nat.zero_add, List.getD_eq_getElem?_getD, List.getElem?_eq_getElem (by omega)]
      rfl
    · rw [if_neg hi, List.getElem?_eq_none (by omega)]
  have hbuf : (readTail b rxlenbk).buf = overlay b.buf rxlenbk (slice (fun i => b.rxFifo.getD i 0#8) 0 4) := by
    rw [← hfour]
    rfl
  have hfit : 0 + n ≤ (slice (fun i => b.rxFifo.getD i 0#8) 0 4).length := by
    rw [slice_length]
    omega
  have hin := slice_overlay_in (m := b.buf) (a := rxlenbk) hfit
  rw [Nat.add_zero, List.drop_zero, hbytes] at hin
  rw [hbuf, slice_append, slice_overlay_out (.inl (by omega)), Nat.zero_add, hin]

theorem Looped.taken_tail {skip n : Nat} {good : Prop} (h : Looped b b' skip n good) (hpos : 0 < n % 4)
    (htx : skip = 0 → b.txFifo = []) :
    Taken b (readTail b' (n - n % 4)) skip n ((n - n % 4 + 4091) / 4092) good
      (slice (readTail b' (n - n % 4)).buf 0 n) := by
  have hsplit : n - n % 4 + n % 4 = n := Nat.sub_add_cancel (Nat.mod_le n 4)
  have hadd : (readTail b' (n - n % 4)).stored = b'.stored + min 4 b'.rxFifo.length := rfl
  have hshort : ¬ (good ∧ b.clear ((n - n % 4 + 4091) / 4092)) → (readTail b' (n - n % 4)).stored < b.stored + n := by
    intro hno
    by_cases hclear : b.clear ((n - n % 4 + 4091) / 4092)
    · have hstored := (h.words hclear).2.1
      have hfifo := (h.missing (fun hg => hno ⟨hg, hclear⟩) hclear).1
      rw [hfifo, List.length_nil] at hadd
      omega
    · have hstored := h.short hclear
      omega
  have htaken : good → b.clear ((n - n % 4 + 4091) / 4092) →
      slice (readTail b' (n - n % 4)).buf 0 n = slice b.miso (b.clocked + skip) n ∧
        (readTail b' (n - n % 4)).stored = b.stored + n := by
    intro hg hclear
    obtain ⟨hwords, hstored, -⟩ := h.words hclear
    have hfifo := (h.tail hg hclear).1
    have hbytes := readTail_bytes b' (n - n % 4) hfifo (slice_length _ _ _) (by omega)
    rw [hfifo, slice_length] at hadd
    rw [hsplit, hwords, ← slice_append, hsplit] at hbytes
    exact ⟨hbytes, by omega⟩
  refine ⟨⟨h.frame.miso, h.frame.idleFails, h.frame.dmaFails, h.frame.dmaBlocks, h.frame.copies⟩, h.starts,
    fun hskip => (h.tx (htx hskip)).1, ?_, fun hg hclear => ?_, fun hg hclear => (h.missing hg hclear).2, hshort⟩
  · by_cases hall : good ∧ b.clear ((n - n % 4 + 4091) / 4092)
    · exact Nat.le_of_eq (htaken hall.1 hall.2).2
    · exact Nat.le_of_lt (hshort hall)
  · obtain ⟨hbytes, hstored⟩ := htaken hg hclear
    obtain ⟨-, hclocked, hclks⟩ := h.tail hg hclear
    exact ⟨hbytes, hstored, hclocked, hclks, (h.words hclear).2.2⟩

theorem Looped.taken_words {skip n : Nat} {good : Prop} (h : Looped b b' skip n good) (hmod : n - n % 4 = n)
    (hg : good) (htx : skip = 0 → b.txFifo = []) :
    Taken b b' skip n ((n + 4091) / 4092) good (slice b'.buf 0 n) := by
  have hwords := h.words
  have hshort := h.short
  rw [hmod] at hwords hshort
  refine ⟨h.frame, h.starts, fun hskip => (h.tx (htx hskip)).1, ?_, fun _ hclear => ?_, fun hno => absurd hg hno,
    fun hno => ?_⟩
  · by_cases hclear : b.clear ((n + 4091) / 4092)
    · exact Nat.le_of_eq (hwords hclear).2.1
    · have hlt := hshort hclear
      omega
  · obtain ⟨hbytes, hstored, hblocks⟩ := hwords hclear
    obtain ⟨-, hclocked, hclks⟩ := h.tail hg (by rwa [hmod])
    exact ⟨hbytes, hstored, hclocked, hclks, hblocks⟩
  · have hlt := hshort fun hclear => hno ⟨hg, hclear⟩
    omega

theorem Looped.taken {skip n : Nat} {good : Prop} (h : Looped b b' skip n good) (hgood : ¬ good → 0 < n % 4)
    (htx : skip = 0 → b.txFifo = []) :
    let b'' := if n > n - n % 4 then readTail b' (n - n % 4) else b'
    Taken b b'' skip n ((n - n % 4 + 4091) / 4092) good (slice b''.buf 0 n) := by
  intro b''
  by_cases htail : n > n - n % 4
  · have hb'' : b'' = readTail b' (n - n % 4) := if_pos htail
    rw [hb'']
    exact h.taken_tail (by omega) htx
  · have hb'' : b'' = b' := if_neg htail
    have hmod : n - n % 4 = n := by omega
    have hg : good := by_contra fun hno => by
      have hpos := hgood hno
      omega
    rw [hb'', hmod]
    exact h.taken_words hmod hg htx

theorem spiDmaBlockRead_taken {n txlen : Nat} (txdata : Nat → Byte) (hidle : ∀ n, b.idleFails n = false)
    (hle : n ≤ 8160) :
    let b' := (spiDmaBlockRead b n txdata txlen).2
    Taken b b' txlen n ((n - n % 4 + 4091) / 4092) (¬ (4093 ≤ n ∧ n ≤ 4095)) (slice b'.buf 0 n) := by
  obtain ⟨fifo, hfifo, hprepare⟩ := prepare_eq b txdata txlen
  obtain ⟨b0, hb0⟩ : ∃ b0 : Bus, b0 =
    { b with
      txFifo := fifo
      rxFifo := []
      hung := false
      idleWaits := b.idleWaits + 1 } := ⟨_, rfl⟩
  have hloop := readLoop_looped (b := b0) txlen (hb0 ▸ hidle) (by rw [hb0]) hle
  have htaken := hloop.taken (by omega) (by rw [hb0]; exact hfifo)
  rw [spiDmaBlockRead, spiWaitIdle_eq hidle]
  simp only [Bool.false_eq_true, if_false]
  rw [hprepare, ← hb0]
  generalize (if n > n - n % 4 then readTail _ (n - n % 4) else _) = b' at htaken ⊢
  subst hb0
  exact ⟨⟨htaken.frame.miso, htaken.frame.idleFails, htaken.frame.dmaFails, htaken.frame.dmaBlocks,
    htaken.frame.copies⟩, htaken.starts, htaken.mosi, htaken.le, htaken.taken, htaken.clks, htaken.short⟩

theorem word_taken {n : Nat} (hle : n ≤ 4) :
    let b1 := b.clearFifos.start (8 * n) 0 true (0, 0)
    let b' := { b1 with idleWaits := b1.idleWaits + 1 }.rxData
    Taken b b'.2 0 n 0 True (slice (byteAt b'.1) 0 n) := by
  intro b1 b'
  have hclks : 8 * n / 8 = n := Nat.mul_div_cancel_left n (by omega)
  have hfifo : b1.rxFifo = slice b.miso b.clocked n := by
    simp [b1, Bus.start, Bus.clearFifos, hclks]
  have hstored : b'.2.stored = b.stored + n := by
    show b1.stored + min 4 b1.rxFifo.length = b.stored + n
    rw [hfifo, slice_length, Nat.min_eq_right hle]
    simp [b1, Bus.start, Bus.clearFifos]
  have hbytes : slice (byteAt b'.1) 0 n = slice b.miso b.clocked n := by
    apply List.ext_getElem?
    intro i
    rw [slice_getElem?, slice_getElem?]
    by_cases hi : i < n
    · have hword : b'.1 = leWord (fun i => b1.rxFifo.getD i 0#8) 4 := rfl
      rw [if_pos hi, if_pos hi, Nat.zero_add, hword, byteAt_leWord _ (Nat.le_refl 4) (by omega), hfifo,
        List.getD_eq_getElem?_getD, slice_getElem?, if_pos hi, Option.getD_some]
    · rw [if_neg hi, if_neg hi]
  refine ⟨⟨rfl, rfl, rfl, Grows.refl _ _, Grows.refl _ _⟩, RxStarts.one rfl,
    fun _ => (start_tx b.clearFifos (8 * n) 0 true (0, 0) rfl).1, Nat.le_of_eq hstored,
    fun _ _ => ⟨hbytes, hstored, ?_, ?_, rfl⟩, fun h => absurd trivial h, fun h => absurd ⟨trivial, clear_zero b⟩ h⟩
  · show b.clocked + 8 * n / 8 = b.clocked + (0 + n)
    rw [hclks, Nat.zero_add]
  · show b1.clks = b.clks + 8 * (0 + n)
    rw [start_clks, Nat.zero_add]
    rfl

theorem tlsSpiRead_taken {n : Nat} (hidle : ∀ n, b.idleFails n = false) (hpos : 0 < n) (hle : n ≤ 8160) :
    (tlsSpiRead b n).1 = 0 ∧ Taken b (tlsSpiRead b n).2.2 0 n (pieceBlocks n) (¬ (4093 ≤ n ∧ n ≤ 4095))
      (tlsSpiRead b n).2.1 := by
  rw [tlsSpiRead, pieceBlocks, if_neg (by omega)]
  by_cases hfour : n ≤ 4
  · have hgood : (¬ (4093 ≤ n ∧ n ≤ 4095)) = True := eq_true (by omega)
    rw [if_pos hfour, if_pos hfour, hgood]
    exact ⟨rfl, word_taken hfour⟩
  · rw [if_neg hfour, if_neg hfour, if_neg (by omega)]
    exact ⟨rfl, spiDmaBlockRead_taken _ hidle hle⟩

theorem tlsSpiRead_length {n : Nat} (hpos : 0 < n) (hle : n ≤ 8160) : (tlsSpiRead b n).2.1.length = n := by
  rw [tlsSpiRead, if_neg (by omega)]
  by_cases hfour : n ≤ 4
  · rw [if_pos hfour]
    exact slice_length _ _ _
  · rw [if_neg hfour, if_neg (by omega)]
    exact slice_length _ _ _

theorem wholeTail_of_le {n : Nat} (hle : n ≤ 8160) : wholeTail n = ¬ (4093 ≤ n ∧ n ≤ 4095) := by
  rw [wholeTail]
  rcases Nat.eq_or_lt_of_le hle with rfl | hlt
  · decide
  · rw [Nat.mod_eq_of_lt hlt]

theorem recvLoop_taken (length i : Nat) (recvBuf : Nat → Byte) (hidle : ∀ n, b.idleFails n = false)
    (hlt : i < length) :
    let r := recvLoop length i 0 recvBuf b
    r.1 = 0 ∧ (∀ x, x < i → r.2.1 x = recvBuf x) ∧
      Taken b r.2.2 0 (length - i) (sendBlocks (length - i)) (wholeTail (length - i)) (slice r.2.1 i (length - i)) := by
  induction hleft : length - i using Nat.strong_induction_on generalizing i b recvBuf with
  | _ n ih =>
    rw [recvLoop, if_pos hlt, hleft]
    obtain ⟨piece, hpiece⟩ : ∃ k, k = if n > 8160 then 8160 else n := ⟨_, rfl⟩
    have hle : 0 < piece ∧ piece ≤ 8160 ∧ piece ≤ n := by
      split at hpiece <;> omega
    obtain ⟨hret, htaken⟩ := tlsSpiRead_taken hidle hle.1 hle.2.1
    have hlength := tlsSpiRead_length (b := b) hle.1 hle.2.1
    rw [← hpiece]
    generalize tlsSpiRead b piece = read at hret htaken hlength ⊢
    obtain ⟨ret, bytes, b1⟩ := read
    change ret = 0 at hret
    change bytes.length = piece at hlength
    change Taken b b1 0 piece (pieceBlocks piece) (¬ (4093 ≤ piece ∧ piece ≤ 4095)) bytes at htaken
    simp only [hret, ne_eq, not_true_eq_false, if_false]
    have hbytes := slice_overlay recvBuf i bytes
    rw [hlength] at hbytes
    by_cases hlast : n ≤ 8160
    · obtain rfl : piece = n := by
        rw [if_neg (by omega)] at hpiece
        exact hpiece
      rw [recvLoop, if_neg (by omega), sendBlocks_of_le hlast, wholeTail_of_le hlast]
      refine ⟨rfl, fun x hx => overlay_out (.inl hx), ?_⟩
      rw [hbytes]
      exact htaken
    · rw [if_pos (by omega)] at hpiece
      have hidle' : ∀ n, b1.idleFails n = false := by
        rw [htaken.frame.idleFails]
        exact hidle
      obtain ⟨hret', hbelow, htaken'⟩ := ih (length - (i + 8160)) (by omega) (i + 8160) (overlay recvBuf i bytes) hidle'
        (by omega) rfl
      generalize recvLoop length (i + 8160) 0 (overlay recvBuf i bytes) b1 = r at hret' hbelow htaken' ⊢
      have hleft' : length - (i + 8160) = n - piece := by omega
      have hfirst : slice r.2.1 i piece = bytes := by
        rw [← hbytes]
        exact slice_congr fun j hj => hbelow (i + j) (by omega)
      refine ⟨hret', fun x hx => ?_, ?_⟩
      · rw [hbelow x (by omega), overlay_out (.inl hx)]
      · have hgood : (¬ (4093 ≤ piece ∧ piece ≤ 4095)) = True := eq_true (by omega)
        have hmod : (n - piece) % 8160 = n % 8160 := by omega
        have htail : wholeTail (n - piece) = wholeTail n := by simp only [wholeTail, hmod]
        have hblocks : pieceBlocks piece + sendBlocks (n - piece) = sendBlocks n := by
          rw [hpiece, ← sendBlocks_piece (by omega)]
        rw [hgood] at htaken
        rw [hleft', ← hpiece] at htaken'
        have hall := htaken.trans htaken'
        rwa [Nat.add_sub_cancel' hle.2.2, htail, hblocks, ← hfirst, ← slice_append, Nat.add_sub_cancel' hle.2.2] at hall

theorem luatSpiRecv_taken (recvBuf : Nat → Byte) {n : Nat} (hidle : ∀ n, b.idleFails n = false)
    (hpos : 0 < n) :
    let r := luatSpiRecv b recvBuf n
    r.1 = n ∧ Taken b r.2.2 0 n (sendBlocks n) (wholeTail n) (slice r.2.1 0 n) := by
  rw [luatSpiRecv]
  by_cases hle : n ≤ 8160
  · obtain ⟨hret, htaken⟩ := tlsSpiRead_taken (b := b) hidle hpos hle
    have hbytes := slice_overlay recvBuf 0 (tlsSpiRead b n).2.1
    rw [tlsSpiRead_length hpos hle] at hbytes
    rw [if_pos hle, sendBlocks_of_le hle, wholeTail_of_le hle]
    simp only [hret, if_true, hbytes]
    exact ⟨trivial, htaken⟩
  · obtain ⟨hret, -, htaken⟩ := recvLoop_taken n 0 recvBuf hidle (by omega)
    rw [if_neg hle]
    simp only [hret, if_true]
    exact ⟨trivial, htaken⟩

end Taken

/-- The request is received in full: the clock counts are those of `skip` bytes and the `n` bytes of the request, which are
those that the slave presents behind the others. -/
structure Receives (b b' : Bus) (skip n : Nat) (bytes : List Byte) : Prop where
  clks : b'.clks = b.clks + 8 * (skip + n)
  bytes : bytes = slice b.miso (b.clocked + skip) n

theorem Taken.receives_iff {b b' : Bus} {skip n k : Nat} {good : Prop} {bytes : List Byte}
    (h : Taken b b' skip n k good bytes) (hclear : b.clear k) : Receives b b' skip n bytes ↔ good := by
  constructor
  · intro hall
    by_contra hno
    have hlt := h.clks hno hclear
    have hclks := hall.clks
    omega
  · intro hgood
    obtain ⟨hbytes, -, -, hclks, -⟩ := h.taken hgood hclear
    exact ⟨hclks, hbytes⟩

/-- With no failing wait, `luat_spi_recv` receives a request of any length in full if and only if its last piece is not
one of 4093 to 4095 bytes, and `tls_spi_read_with_cmd` behind a command of up to 32 bytes if and only if the request is
not. -/
theorem luatSpiRecv_exact_iff (b : Bus) (hidle : ∀ n, b.idleFails n = false) (hdma : ∀ n, b.dmaFails n = none) :
    (∀ (recvBuf : Nat → Byte) (length : Nat), 1 ≤ length →
      let r := luatSpiRecv b recvBuf length
      Receives b r.2.2 0 length (slice r.2.1 0 length) ↔ ¬ (4093 ≤ length % 8160 ∧ length % 8160 ≤ 4095)) ∧
    ∀ (txbuf : Nat → Byte) (nTx nRx : Nat), 1 ≤ nTx → nTx ≤ 32 → 1 ≤ nRx → nRx ≤ 8160 →
      let r := tlsSpiReadWithCmd b txbuf nTx nRx
      Receives b r.2.2 nTx nRx r.2.1 ↔ ¬ (4093 ≤ nRx ∧ nRx ≤ 4095) := by
  constructor
  · intro recvBuf length hpos
    exact (luatSpiRecv_taken recvBuf hidle hpos).2.receives_iff fun j _ => hdma _
  · intro txbuf nTx nRx hTx hTxMax hRx hRxMax
    rw [tlsSpiReadWithCmd, if_neg (by omega), if_neg (by omega)]
    exact (spiDmaBlockRead_taken txbuf hidle hRxMax).receives_iff fun j _ => hdma _

theorem luatSpiRecv_exact_iff_rest :
    (∀ (recvBuf : Nat → Byte) (length : Nat), 1 ≤ length →
      let r := luatSpiRecv Bus.rest recvBuf length
      Receives Bus.rest r.2.2 0 length (slice r.2.1 0 length) ↔
        ¬ (4093 ≤ length % 8160 ∧ length % 8160 ≤ 4095)) ∧
    ∀ (txbuf : Nat → Byte) (nTx nRx : Nat), 1 ≤ nTx → nTx ≤ 32 → 1 ≤ nRx → nRx ≤ 8160 →
      let r := tlsSpiReadWithCmd Bus.rest txbuf nTx nRx
      Receives Bus.rest r.2.2 nTx nRx r.2.1 ↔ ¬ (4093 ≤ nRx ∧ nRx ≤ 4095) :=
  luatSpiRecv_exact_iff Bus.rest (fun _ => rfl) (fun _ => rfl)

/-- A request of 4093 bytes clocks 4092 of them. -/
theorem last_byte_missing :
    let r := luatSpiRecv Bus.rest (fun _ => 0#8) 4093
    r.1 = 4093 ∧ r.2.2.clks < 8 * 4093 ∧ ¬ Receives Bus.rest r.2.2 0 4093 (slice r.2.1 0 4093) := by
  obtain ⟨hret, htaken⟩ := luatSpiRecv_taken (b := Bus.rest) (fun _ => 0#8) (n := 4093) (fun _ => rfl) (by decide)
  have hclear : Bus.rest.clear (sendBlocks 4093) := fun _ _ => rfl
  have hbad : ¬ wholeTail 4093 := by
    rw [wholeTail]
    decide
  refine ⟨hret, ?_, fun h => hbad ((htaken.receives_iff hclear).mp h)⟩
  have hlt := htaken.clks hbad hclear
  have hzero : Bus.rest.clks = 0 := rfl
  omega

end Spi
end Air101

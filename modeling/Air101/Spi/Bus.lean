import Air101.Spi.Fifo
import Air101.Storage.Mem

/-!
# Spi.Bus

The SPI master (`platform/drivers/spi/wm_hostspi.c`) in DMA mode: its FIFOs, a DMA channel and the slave at the other end.

A start shifts out the bytes at the head of the transmit FIFO, and brings in those that the slave presents, but for the
first `RX_INVALID_BITS`. The transmit FIFO takes the bytes of a DMA block in memory order and those of a data word from
the low byte on. A receive DMA moves whole words out of the receive FIFO and a read of the data register the next word,
whose bytes behind those received are 0. A DMA block that fails moves only a part of its words.

`starts`, `dmaBlocks`, `copies` and `stored` are what an observer writes down: the starts with the bytes they shift out,
the sizes of the DMA blocks, the lengths copied into the DMA buffer, and the number of received bytes that left the
FIFO. Chip select, the timeout register and the trigger levels are left out.

* `Bus.clear`: the next DMA blocks all complete.
* `start_mosi`, `start_clks`: what a start shifts out and how many clocks it takes.
* `moved_of_clear`, `moved_lt`: what a block moves.
-/

namespace Air101
namespace Spi

open Storage

/-- `word32 |= data[i] << (i * 8)` for the first `n` bytes. -/
def leWord (data : Nat → Byte) (n : Nat) : BitVec 32 := (List.range n).foldl (fun w i => orByte w (data i) i) 0#32

/-- A write of `SPIM_CHCFG_REG` with `SPI_START`: the clocks, whether the receive channel is on, and the bytes that are
shifted out. -/
structure Start where
  validClks : Nat
  rxChannelOn : Bool
  mosi : List Byte

/-- The master, its DMA buffer `buf`, and what is outside. The slave presents `miso j` with the `j`-th byte clocked.
`spiWaitIdle` times out where `idleFails` says so, and `dmaFails n` is the number of words that the `n`-th DMA block
moves before it hangs, if it does. -/
structure Bus where
  miso : Nat → Byte
  idleFails : Nat → Bool
  dmaFails : Nat → Option Nat
  buf : Nat → Byte
  txFifo : List Byte
  rxFifo : List Byte
  hung : Bool
  idleWaits : Nat
  clocked : Nat
  stored : Nat
  starts : List Start
  dmaBlocks : List Nat
  copies : List Nat

/-- The bytes of a block that the DMA moves: whole words, and not all of them if it fails. -/
def Bus.moved (b : Bus) (bytes : Nat) : Nat :=
  match b.dmaFails b.dmaBlocks.length with
  | none => bytes
  | some words => 4 * (words % (bytes / 4))

/-- `spiWaitIdle`, which is true if it times out. -/
def Bus.spiWaitIdle (b : Bus) : Bool × Bus := (b.idleFails b.idleWaits, { b with idleWaits := b.idleWaits + 1 })

/-- `SPIM_CHCFG_REG = SPI_CLEAR_FIFOS`. -/
def Bus.clearFifos (b : Bus) : Bus :=
  { b with
    txFifo := []
    rxFifo := [] }

/-- `tls_dma_request`. -/
def Bus.dmaRequest (b : Bus) : Bus := { b with hung := false }

/-- `tls_dma_wait_complt`, which is true if the block hangs. -/
def Bus.dmaWaitComplt (b : Bus) : Bool := b.hung

/-- `tls_dma_start` of a block from `off` in the DMA buffer to the transmit FIFO. -/
def Bus.dmaTx (b : Bus) (off bytes : Nat) : Bus :=
  { b with
    txFifo := b.txFifo ++ slice b.buf off (b.moved bytes)
    hung := (b.dmaFails b.dmaBlocks.length).isSome
    dmaBlocks := b.dmaBlocks ++ [bytes] }

/-- `tls_dma_start` of a block from the receive FIFO to `off` in the DMA buffer, with what the channel is to move once the
bytes come in. -/
def Bus.dmaRx (b : Bus) (off bytes : Nat) : (Nat × Nat) × Bus :=
  ((off, b.moved bytes),
    { b with
      hung := (b.dmaFails b.dmaBlocks.length).isSome
      dmaBlocks := b.dmaBlocks ++ [bytes] })

/-- `SPIM_TXDATA_REG = word`. -/
def Bus.txData (b : Bus) (word : BitVec 32) : Bus :=
  { b with txFifo := b.txFifo ++ [byteAt word 0, byteAt word 1, byteAt word 2, byteAt word 3] }

/-- A start of `clks` clocks, of which the bits received with the first `invalid` are not stored; `rxDma` is what a
receive DMA is to move. -/
def Bus.start (b : Bus) (clks invalid : Nat) (rx : Bool) (rxDma : Nat × Nat) : Bus :=
  let fifo :=
    if rx then b.rxFifo ++ slice b.miso (b.clocked + invalid / 8) (clks / 8 - invalid / 8) else b.rxFifo
  let n := min rxDma.2 (fifo.length / 4 * 4)
  { b with
    clocked := b.clocked + clks / 8
    starts := b.starts ++ [⟨clks, rx, b.txFifo.take (clks / 8)⟩]
    txFifo := b.txFifo.drop (clks / 8)
    rxFifo := fifo.drop n
    buf := overlay b.buf rxDma.1 (fifo.take n)
    stored := b.stored + n }

/-- A read of `SPIM_RXDATA_REG`. -/
def Bus.rxData (b : Bus) : BitVec 32 × Bus :=
  (leWord (fun i => b.rxFifo.getD i 0#8) 4,
    { b with
      rxFifo := b.rxFifo.drop 4
      stored := b.stored + min 4 b.rxFifo.length })

/-- `MEMCPY` of `len` bytes into the DMA buffer. -/
def Bus.copyIn (b : Bus) (data : Nat → Byte) (len : Nat) : Bus :=
  { b with
    buf := overlay b.buf 0 (slice data 0 len)
    copies := b.copies ++ [len] }

/-- The bytes shifted out. -/
def Bus.mosi (b : Bus) : List Byte := b.starts.flatMap Start.mosi

/-- The sum of the clock counts. -/
def Bus.clks (b : Bus) : Nat := (b.starts.map Start.validClks).sum

/-- The next `n` DMA blocks complete. -/
def Bus.clear (b : Bus) (n : Nat) : Prop := ∀ j, j < n → b.dmaFails (b.dmaBlocks.length + j) = none

/-! ## Words and starts -/

theorem byteAt_leWord (data : Nat → Byte) {n i : Nat} (hn : n ≤ 4) (hi : i < n) : byteAt (leWord data n) i = data i := by
  rcases (by omega : n = 1 ∨ n = 2 ∨ n = 3 ∨ n = 4) with rfl | rfl | rfl | rfl <;>
    rcases (by omega : i = 0 ∨ i = 1 ∨ i = 2 ∨ i = 3) with rfl | rfl | rfl | rfl <;>
      first
        | omega
        | simp [leWord, List.range_succ, byteAt_orByte, byteAt_zero]

section Start

variable (b : Bus) (clks invalid : Nat) (rx : Bool) (rxDma : Nat × Nat)

theorem start_mosi : (b.start clks invalid rx rxDma).mosi = b.mosi ++ b.txFifo.take (clks / 8) := by
  simp [Bus.start, Bus.mosi]

theorem start_clks : (b.start clks invalid rx rxDma).clks = b.clks + clks := by
  simp [Bus.start, Bus.clks]

theorem start_tx (h : b.txFifo = []) : (b.start clks invalid rx rxDma).mosi = b.mosi ∧
    (b.start clks invalid rx rxDma).txFifo = [] := by
  refine ⟨?_, ?_⟩
  · rw [start_mosi, h, List.take_nil, List.append_nil]
  · simp [Bus.start, h]

theorem start_buf : (b.start clks invalid rx (0, 0)).buf = b.buf := by
  simp [Bus.start]

theorem start_stored : (b.start clks invalid rx (0, 0)).stored = b.stored := by
  simp [Bus.start]

end Start

/-! ## DMA blocks that fail -/

section Blocks

variable {b b' : Bus} {m n : Nat}

theorem clear_zero (b : Bus) : b.clear 0 := fun _ hj => absurd hj (Nat.not_lt_zero _)

theorem clear_add (hfails : b'.dmaFails = b.dmaFails) (hblocks : b'.dmaBlocks.length = b.dmaBlocks.length + m) :
    b.clear (m + n) ↔ b.clear m ∧ b'.clear n := by
  constructor
  · intro h
    refine ⟨fun j hj => h j (by omega), fun j hj => ?_⟩
    rw [hfails, hblocks, Nat.add_assoc]
    exact h (m + j) (by omega)
  · rintro ⟨hm, hn⟩ j hj
    by_cases hlt : j < m
    · exact hm j hlt
    · have hrest := hn (j - m) (by omega)
      rwa [hfails, hblocks, show b.dmaBlocks.length + m + (j - m) = b.dmaBlocks.length + j by omega] at hrest

theorem clear_one : b.clear 1 ↔ b.dmaFails b.dmaBlocks.length = none := by
  constructor
  · intro h
    exact h 0 Nat.one_pos
  · intro h j hj
    rw [show j = 0 by omega]
    exact h

theorem moved_of_clear (h : b.clear 1) (bytes : Nat) : b.moved bytes = bytes := by
  rw [Bus.moved, clear_one.mp h]

theorem moved_lt (h : ¬ b.clear 1) {bytes : Nat} (hfour : 4 ≤ bytes) : b.moved bytes + 4 ≤ bytes := by
  rw [clear_one] at h
  obtain ⟨words, hwords⟩ := Option.ne_none_iff_exists'.mp h
  have hlt : words % (bytes / 4) < bytes / 4 := Nat.mod_lt _ (by omega)
  rw [Bus.moved, hwords]
  dsimp only
  omega

end Blocks

end Spi
end Air101

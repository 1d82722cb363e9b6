import Air101.Storage.Runs
import Mathlib.Algebra.Ring.Nat
import Mathlib.Data.List.Infix
import Mathlib.Data.List.Range

/-!
# I2s.Transmit

Transmission by interrupts in `platform/drivers/i2s/wm_i2s.c`. `wm_i2s_tx_int` fills the FIFO of eight words and
enables the module; `i2s_I2S_IRQHandler` refills it whenever it has drained to its threshold, and sets `txdata_done`
with the last word.

`words` and `reads` are what an observer writes down: the words written to `HR_I2S_TX`, and the indices of `txbuf`
that are read. The memory behind the buffer goes on in `txbuf`. The waiting loops at the end of `wm_i2s_tx_int` and the
other sources of the interrupt are left out.

* `Sent`: a transmission of which `k` words are written.
* `refill_sent`, `interrupt_sent`: what a refill does to it.
* `interrupts_sent`: what a schedule of interrupts does.
* `stuck`: a buffer that fits in the FIFO is never done.
* `transmits_iff`: the buffer is transmitted exactly if it is longer than the room in the FIFO.
-/

namespace Air101
namespace I2s

open Storage

/-- `wm_i2s_buf`, with `txthMasked` for bit 6 of `HR_I2S_INT_MASK`. -/
structure Buf where
  txbuf : Nat → UInt32
  txlen : Nat
  txtail : Nat
  txdataDone : Bool
  txthMasked : Bool
  words : List UInt32
  reads : List Nat

/-- `tls_reg_write32(HR_I2S_TX, wm_i2s_buf->txbuf[wm_i2s_buf->txtail++])`. -/
def Buf.put (s : Buf) : Buf :=
  { s with
    txtail := s.txtail + 1
    words := s.words ++ [s.txbuf s.txtail]
    reads := s.reads ++ [s.txtail] }

/-- The loop of `wm_i2s_tx_int` that fills the FIFO. -/
def fill : Nat → Buf → Buf
  | 0, s => s
  | n + 1, s => fill n s.put

/-- `wm_i2s_tx_int` up to its waiting loops; `fifoLevel` is what it finds in the FIFO. An empty buffer is refused, and
nothing is written. -/
def txInt (data : Nat → UInt32) (len : UInt16) (fifoLevel : Nat) : Buf :=
  let s : Buf :=
    { txbuf := data
      txlen := len.toNat
      txtail := 0
      txdataDone := false
      txthMasked := false
      words := []
      reads := [] }
  if len = 0 then s else fill (8 - fifoLevel) s

/-- The loop of `i2s_I2S_IRQHandler`. -/
def refill : Nat → Buf → Buf
  | 0, s => s
  | n + 1, s =>
    let s := s.put
    if s.txtail ≥ s.txlen then { s with txtail := 0, txdataDone := true, txthMasked := true } else refill n s

/-- The part of `i2s_I2S_IRQHandler` for the transmit threshold. -/
def irqHandler (s : Buf) (fifoLevel : Nat) : Buf :=
  if s.txtail < s.txlen then refill (8 - fifoLevel) s else s

/-- A threshold interrupt, which comes while it is not masked. -/
def interrupt (s : Buf) (fifoLevel : Nat) : Buf :=
  if s.txthMasked then s else irqHandler s fifoLevel

/-- The words of the buffer. -/
def wordsOf (data : Nat → UInt32) (len : UInt16) : List UInt32 := (List.range len.toNat).map data

/-- Under every schedule of interrupts, given by the levels they find in the FIFO, the words written are the first of
the buffer and all of them when the transmission is done, no index behind the buffer is read, and the transmission is
done after some number of interrupts that find a word free. -/
structure Transmits (data : Nat → UInt32) (len : UInt16) (fifoLevel : Nat) : Prop where
  inOrder : ∀ levels, (∀ l ∈ levels, l ≤ 8) →
    (runs interrupt (txInt data len fifoLevel) levels).words <+: wordsOf data len
  all : ∀ levels, (∀ l ∈ levels, l ≤ 8) →
    (runs interrupt (txInt data len fifoLevel) levels).txdataDone = true →
      (runs interrupt (txInt data len fifoLevel) levels).words = wordsOf data len
  inside : ∀ levels, (∀ l ∈ levels, l ≤ 8) →
    ∀ i ∈ (runs interrupt (txInt data len fifoLevel) levels).reads, i < len.toNat
  ends : ∃ n, ∀ levels, (∀ l ∈ levels, l ≤ 8) → n ≤ levels.countP (· < 8) →
    (runs interrupt (txInt data len fifoLevel) levels).txdataDone = true

/-- The first `k` words of the buffer are written, the last one with the end of the transmission. -/
structure Sent (data : Nat → UInt32) (len k : Nat) (s : Buf) : Prop where
  txbuf : s.txbuf = data
  txlen : s.txlen = len
  le : k ≤ len
  words : s.words = (List.range k).map data
  reads : s.reads = List.range k
  tail : s.txtail = if k < len then k else 0
  done : s.txdataDone = decide (k = len)
  masked : s.txthMasked = decide (k = len)

section Transmission

variable {data : Nat → UInt32} {len k : Nat} {s : Buf}

theorem fill_eq (n : Nat) (s : Buf) :
    fill n s =
      { s with
        txtail := s.txtail + n
        words := s.words ++ (List.range n).map fun i => s.txbuf (s.txtail + i)
        reads := s.reads ++ (List.range n).map fun i => s.txtail + i } := by
  induction n generalizing s with
  | zero => simp [fill]
  | succ n ih =>
    rw [fill, ih]
    simp [Buf.put, List.range_succ_eq_map, Nat.add_assoc, Nat.add_comm 1, Function.comp_def]

theorem refill_sent (n : Nat) (hk : k < len) (h : Sent data len k s) :
    Sent data len (min (k + n) len) (refill n s) := by
  induction n generalizing s k with
  | zero =>
    rw [Nat.add_zero, Nat.min_eq_left h.le]
    exact h
  | succ n ih =>
    have htail : s.txtail = k := by rw [h.tail, if_pos hk]
    have hwords : s.put.words = (List.range (k + 1)).map data := by
      simp [Buf.put, h.words, h.txbuf, htail, List.range_succ]
    have hreads : s.put.reads = List.range (k + 1) := by
      simp [Buf.put, h.reads, htail, List.range_succ]
    have hput : s.put.txtail = k + 1 := by simp [Buf.put, htail]
    have hlen : s.put.txlen = len := h.txlen
    rw [refill]
    by_cases hlast : k + 1 = len
    · rw [if_pos (by rw [hput, hlen]; omega), show min (k + (n + 1)) len = len by omega]
      rw [hlast] at hwords hreads
      exact ⟨h.txbuf, h.txlen, Nat.le_refl _, hwords, hreads, by simp, by simp, by simp⟩
    · have hnext : Sent data len (k + 1) s.put := by
        refine ⟨h.txbuf, h.txlen, by omega, hwords, hreads, ?_, ?_, ?_⟩
        · rw [hput, if_pos (by omega)]
        · show s.txdataDone = _
          rw [h.done, decide_eq_false (by omega), decide_eq_false hlast]
        · show s.txthMasked = _
          rw [h.masked, decide_eq_false (by omega), decide_eq_false hlast]
      rw [if_neg (by rw [hput, hlen]; omega), show min (k + (n + 1)) len = min (k + 1 + n) len by omega]
      exact ih (by omega) hnext

theorem interrupt_sent (fifoLevel : Nat) (h : Sent data len k s) :
    Sent data len (min (k + (8 - fifoLevel)) len) (interrupt s fifoLevel) := by
  rw [interrupt, h.masked]
  by_cases hk : k = len
  · rw [if_pos (decide_eq_true hk), show min (k + (8 - fifoLevel)) len = k by omega]
    exact h
  · have hlt : k < len := Nat.lt_of_le_of_ne h.le hk
    rw [if_neg (by simpa using hk), irqHandler, h.tail, h.txlen, if_pos hlt, if_pos hlt]
    exact refill_sent _ hlt h

/-- A schedule of interrupts sends on, and each that finds a word free sends one more while there is one. -/
theorem interrupts_sent (levels : List Nat) (h : Sent data len k s) :
    ∃ k', Sent data len k' (runs interrupt s levels) ∧ min (k + levels.countP (· < 8)) len ≤ k' := by
  induction levels generalizing s k with
  | nil => exact ⟨k, h, Nat.min_le_left _ _⟩
  | cons l levels ih =>
    obtain ⟨k', hk', hle⟩ := ih (interrupt_sent l h)
    refine ⟨k', hk', Nat.le_trans ?_ hle⟩
    rw [List.countP_cons]
    split
    · rename_i hl
      have hl : l < 8 := of_decide_eq_true hl
      omega
    · omega

theorem txInt_sent (data : Nat → UInt32) {len : UInt16} {fifoLevel : Nat} (h : 8 - fifoLevel < len.toNat) :
    Sent data len.toNat (8 - fifoLevel) (txInt data len fifoLevel) := by
  have hlen : len ≠ 0 := fun he => by
    rw [he] at h
    exact absurd h (Nat.not_lt_zero _)
  rw [txInt, if_neg hlen, fill_eq]
  refine ⟨rfl, rfl, Nat.le_of_lt h, by simp, by simp, ?_, ?_, ?_⟩
  · rw [if_pos h]
    exact Nat.zero_add _
  · exact (decide_eq_false (Nat.ne_of_lt h)).symm
  · exact (decide_eq_false (Nat.ne_of_lt h)).symm

/-- Once `txtail` is behind the buffer no interrupt does anything. -/
theorem stuck (levels : List Nat) (h : s.txlen ≤ s.txtail) : runs interrupt s levels = s := by
  induction levels with
  | nil => rfl
  | cons l levels ih =>
    have hstep : interrupt s l = s := by
      rw [interrupt, irqHandler, if_neg (Nat.not_lt.mpr h), ite_self]
    rw [runs_cons, hstep, ih]

theorem not_done {len : UInt16} {fifoLevel : Nat} (h : len.toNat ≤ 8 - fifoLevel) (levels : List Nat) :
    (runs interrupt (txInt data len fifoLevel) levels).txdataDone = false := by
  by_cases hlen : len = 0
  · rw [txInt, if_pos hlen, hlen, stuck levels (Nat.le_refl _)]
  · rw [txInt, if_neg hlen, fill_eq, stuck levels (by
      show len.toNat ≤ 0 + (8 - fifoLevel)
      omega)]

end Transmission

/-- Whatever the buffer holds, it is transmitted under every schedule of interrupts if and only if it is longer than
the free part of the FIFO at the start. -/
theorem transmits_iff (data : Nat → UInt32) (len : UInt16) {fifoLevel : Nat} (hlevel : fifoLevel ≤ 8) :
    Transmits data len fifoLevel ↔ 8 < len.toNat + fifoLevel := by
  rw [show 8 < len.toNat + fifoLevel ↔ 8 - fifoLevel < len.toNat by omega]
  constructor
  · intro h
    obtain ⟨n, hn⟩ := h.ends
    refine Nat.lt_of_not_le fun hle => ?_
    have hdone := hn (List.replicate n 0) (by simp) (by simp [List.countP_replicate])
    rw [not_done hle] at hdone
    cases hdone
  · intro h
    refine ⟨fun levels _ => ?_, fun levels _ hdone => ?_, fun levels _ i hi => ?_, len.toNat, fun levels _ hn => ?_⟩
    · obtain ⟨k, hk, -⟩ := interrupts_sent levels (txInt_sent data h)
      rw [hk.words, wordsOf, List.prefix_iff_eq_take, List.length_map, List.length_range, ← List.map_take,
        List.take_range, Nat.min_eq_left hk.le]
    · obtain ⟨k, hk, -⟩ := interrupts_sent levels (txInt_sent data h)
      rw [hk.done, decide_eq_true_eq] at hdone
      rw [hk.words, hdone, wordsOf]
    · obtain ⟨k, hk, -⟩ := interrupts_sent levels (txInt_sent data h)
      rw [hk.reads, List.mem_range] at hi
      exact Nat.lt_of_lt_of_le hi hk.le
    · obtain ⟨k, hk, hle⟩ := interrupts_sent levels (txInt_sent data h)
      have hkle := hk.le
      rw [hk.done, decide_eq_true_eq]
      omega

theorem transmits_nine : Transmits (fun _ => 0) 9 0 :=
  (transmits_iff (fun _ => 0) 9 (Nat.zero_le 8)).mpr (by decide)

/-- Three words with an empty FIFO: eight are written, and the transmission never ends. -/
theorem short_buffer : ¬ Transmits (fun i => UInt32.ofNat i) 3 0 ∧
    (txInt (fun i => UInt32.ofNat i) 3 0).words = [0, 1, 2, 3, 4, 5, 6, 7] := by
  refine ⟨fun h => ?_, by decide⟩
  obtain ⟨n, hn⟩ := h.ends
  have hdone := hn (List.replicate n 0) (by simp) (by simp [List.countP_replicate])
  rw [not_done (by decide)] at hdone
  cases hdone

end I2s
end Air101

import Air101.Uart.Receive

/-!
# Uart.Escape

The escape sequence `+++` in the receive interrupts of `platform/drivers/uart/wm_uart.c`. A handler that took three
characters out of the FIFO looks the first two up behind `head` in the ring and sets `plus_char_cnt`.

* `rxAccesses`: the indices of the receive buffer that an interrupt reads or writes.
* `plusIndex_eq`: behind any `head` but 0 the two indices are those of the two characters.
* `put_three`: what three stores leave in the ring.
* `escape_iff`: the sequence is detected, within the buffer, except where three characters that end in `'+'` arrive
  with `head` at 4093.
-/

namespace Air101
namespace Uart

open Storage

/-- The indices of the two characters that are looked up behind `head`. -/
def CircBuf.plusIndex (recv : CircBuf) : Nat × Nat :=
  match (recv.head - 1).toNat with
  | 0 => (4095, 4094)
  | 1 => (0, 4095)
  | _ => ((recv.head - 2).toNat, (recv.head - 3).toNat)

/-- The indices that the lookup reads: the second one only behind a `'+'` at the first. -/
def CircBuf.plusReads (recv : CircBuf) : List Nat :=
  if recv.buf recv.plusIndex.1 == 43 then [recv.plusIndex.1, recv.plusIndex.2] else [recv.plusIndex.1]

/-- The indices that characters are stored to. -/
def CircBuf.stores : CircBuf → List UInt8 → List Nat
  | _, [] => []
  | recv, ch :: chs => recv.head.toNat :: (recv.put ch).stores chs

/-- The indices of the receive buffer that the receive part of a handler accesses. -/
def rxAccesses (port : Port) (regs : Regs) : List Nat :=
  if regs.receives then
    let stores := if regs.error then [] else port.recv.makeRoom.stores regs.chars
    let recv := regs.chars.foldl (fun recv ch => if regs.error then recv else recv.put ch)
      port.recv.makeRoom
    stores ++ if regs.rxFifocnt = 3 ∧ regs.rxw 2 = 43 then recv.plusReads else []
  else []

/-- After the interrupt `plus_char_cnt` is 3 if and only if three characters arrived in it and all are `'+'`, and
no index outside of the receive buffer was accessed. -/
structure DetectsEscape (s : Nat → Port) (e : Event) (regs : Regs) : Prop where
  detects : (step s e e.target).plusCharCnt = 3 ↔ regs.chars = [43, 43, 43]
  inside : ∀ j ∈ rxAccesses (s e.target) regs, j < 4096

/-- Three characters that end in `'+'` arrive and take `head` round to 0. -/
def endsAtZero (port : Port) (regs : Regs) : Prop :=
  regs.rxFifocnt = 3 ∧ regs.rxw 2 = 43 ∧ port.recv.head = 4093

/-! ## The lookup -/

section Lookup

variable {recv : CircBuf}

theorem plusSeen_eq (recv : CircBuf) :
    recv.plusSeen = (recv.buf recv.plusIndex.1 == 43 && recv.buf recv.plusIndex.2 == 43) := by
  rw [CircBuf.plusSeen, CircBuf.plusIndex]
  generalize (recv.head - 1).toNat = k
  match k with
  | 0 | 1 | _ + 2 => rfl

theorem plusIndex_eq (h : recv.head.toNat ≠ 0) :
    recv.plusIndex = ((recv.head.toNat + 4094) % 4096, (recv.head.toNat + 4093) % 4096) := by
  have hlt : recv.head.toNat < 4096 := recv.head_lt
  have hsub : ∀ k : UInt32, (recv.head - k).toNat = (2 ^ 32 - k.toNat + recv.head.toNat) % 2 ^ 32 :=
    fun k => UInt32.toNat_sub recv.head k
  have h1 : (1 : UInt32).toNat = 1 := rfl
  have h2 : (2 : UInt32).toNat = 2 := rfl
  have h3 : (3 : UInt32).toNat = 3 := rfl
  rw [CircBuf.plusIndex]
  split
  · rename_i hm
    rw [hsub, h1] at hm
    rw [show recv.head.toNat = 1 by omega]
  · rename_i hm
    rw [hsub, h1] at hm
    rw [show recv.head.toNat = 2 by omega]
  · rename_i hne0 hne1
    rw [hsub, h1] at hne0 hne1
    have hge : 3 ≤ recv.head.toNat := by
      refine Nat.le_of_not_lt fun hlt => ?_
      rcases (by omega : recv.head.toNat = 1 ∨ recv.head.toNat = 2) with h | h
      · exact hne0 (by omega)
      · exact hne1 (by omega)
    rw [hsub, hsub, h2, h3, Prod.mk.injEq]
    constructor <;> omega

theorem plusReads_inside (h : recv.head.toNat ≠ 0) : ∀ j ∈ recv.plusReads, j < 4096 := by
  intro j hj
  rw [CircBuf.plusReads, plusIndex_eq h] at hj
  split at hj
  · rcases List.mem_cons.mp hj with hj | hj
    · omega
    · have hj := List.mem_singleton.mp hj
      omega
  · have hj := List.mem_singleton.mp hj
    omega

/-- With `head` at 0 the lookup reads in front of the buffer. -/
theorem plusReads_outside (h : recv.head = 0) : 0xFFFFFFFE ∈ recv.plusReads := by
  have hindex : recv.plusIndex.1 = 0xFFFFFFFE := by
    rw [CircBuf.plusIndex, h]
    rfl
  rw [CircBuf.plusReads, hindex]
  split <;> exact List.mem_cons_self

theorem stores_inside (recv : CircBuf) (chs : List UInt8) : ∀ j ∈ recv.stores chs, j < 4096 := by
  induction chs generalizing recv with
  | nil => simp [CircBuf.stores]
  | cons ch chs ih =>
    intro j hj
    rcases List.mem_cons.mp hj with rfl | hj
    · exact recv.head_lt
    · exact ih _ j hj

@[simp] theorem makeRoom_head (recv : CircBuf) : recv.makeRoom.head = recv.head := by
  rw [CircBuf.makeRoom]
  split <;> rfl

theorem head_put (recv : CircBuf) (ch : UInt8) : (recv.put ch).head.toNat = (recv.head.toNat + 1) % 4096 := by
  have hlt : recv.head.toNat < 4096 := recv.head_lt
  rw [CircBuf.put, toNat_and_size, UInt32.toNat_add]
  show (recv.head.toNat + 1) % 2 ^ 32 % 4096 = _
  omega

theorem head_foldl_put (recv : CircBuf) (chs : List UInt8) :
    (chs.foldl CircBuf.put recv).head.toNat = (recv.head.toNat + chs.length) % 4096 := by
  induction chs generalizing recv with
  | nil => exact (Nat.mod_eq_of_lt recv.head_lt).symm
  | cons ch chs ih =>
    rw [List.foldl_cons, ih, head_put, List.length_cons]
    omega

/-- The first two of three characters stay where they were stored, two and three cells behind `head`. -/
theorem put_three (recv : CircBuf) (a b c : UInt8) :
    let recv' := ((recv.put a).put b).put c
    recv'.buf ((recv'.head.toNat + 4094) % 4096) = b ∧ recv'.buf ((recv'.head.toNat + 4093) % 4096) = a := by
  have hlt : recv.head.toNat < 4096 := recv.head_lt
  have h1 := head_put recv a
  have h2 := head_put (recv.put a) b
  have h3 := head_put ((recv.put a).put b) c
  have hb : (((((recv.put a).put b).put c).head.toNat + 4094) % 4096) = (recv.put a).head.toNat := by omega
  have ha : (((((recv.put a).put b).put c).head.toNat + 4093) % 4096) = recv.head.toNat := by omega
  refine ⟨?_, ?_⟩
  · rw [hb]
    show Function.update ((recv.put a).put b).buf ((recv.put a).put b).head.toNat c (recv.put a).head.toNat = b
    rw [Function.update_of_ne (by omega)]
    exact Function.update_self _ _ _
  · rw [ha]
    show Function.update ((recv.put a).put b).buf ((recv.put a).put b).head.toNat c recv.head.toNat = a
    rw [Function.update_of_ne (by omega)]
    show Function.update (recv.put a).buf (recv.put a).head.toNat b recv.head.toNat = a
    rw [Function.update_of_ne (by omega)]
    exact Function.update_self _ _ _

end Lookup

/-! ## The interrupt -/

section Interrupt

variable {port : Port} {regs : Regs}

theorem chars_three (h : regs.rxFifocnt = 3) : regs.chars = [regs.rxw 0, regs.rxw 1, regs.rxw 2] := by
  rw [Regs.chars, h]
  rfl

theorem length_chars (regs : Regs) : regs.chars.length = regs.rxFifocnt := by
  rw [Regs.chars, List.length_map, List.length_range]

theorem rxInterrupt_eq (hr : regs.receives = true) (he : regs.error = false) :
    rxInterrupt port regs =
      { recv := regs.chars.foldl CircBuf.put port.recv.makeRoom
        plusCharCnt :=
          if regs.rxFifocnt = 3 ∧ regs.rxw 2 = 43 ∧
            (regs.chars.foldl CircBuf.put port.recv.makeRoom).plusSeen = true then 3 else 0 } := by
  simp [rxInterrupt, hr, he]

theorem rxAccesses_eq (hr : regs.receives = true) (he : regs.error = false) :
    rxAccesses port regs = port.recv.makeRoom.stores regs.chars ++
      if regs.rxFifocnt = 3 ∧ regs.rxw 2 = 43 then
        (regs.chars.foldl CircBuf.put port.recv.makeRoom).plusReads
      else [] := by
  simp [rxAccesses, hr, he]

theorem head_rxInterrupt (hr : regs.receives = true) (he : regs.error = false) :
    (rxInterrupt port regs).recv.head.toNat = (port.recv.head.toNat + regs.rxFifocnt) % 4096 := by
  rw [rxInterrupt_eq hr he]
  show (regs.chars.foldl CircBuf.put port.recv.makeRoom).head.toNat = _
  rw [head_foldl_put, makeRoom_head, length_chars]

/-- With three characters that end in `'+'`, and `head` not at 0 behind them, the lookup sees the other two. -/
theorem plusSeen_three (hcnt : regs.rxFifocnt = 3) (hlast : regs.rxw 2 = 43)
    (hhead : (regs.chars.foldl CircBuf.put port.recv.makeRoom).head.toNat ≠ 0) :
    (regs.chars.foldl CircBuf.put port.recv.makeRoom).plusSeen = true ↔ regs.chars = [43, 43, 43] := by
  rw [plusSeen_eq, plusIndex_eq hhead, chars_three hcnt]
  obtain ⟨hb, ha⟩ := put_three port.recv.makeRoom (regs.rxw 0) (regs.rxw 1) (regs.rxw 2)
  simp only [List.foldl_cons, List.foldl_nil, hb, ha]
  simp [hlast, and_comm]

theorem detects_iff (hr : regs.receives = true) (he : regs.error = false) :
    (((rxInterrupt port regs).plusCharCnt = 3 ↔ regs.chars = [43, 43, 43]) ∧
      ∀ j ∈ rxAccesses port regs, j < 4096) ↔ ¬ endsAtZero port regs := by
  have hstores := stores_inside port.recv.makeRoom regs.chars
  rw [rxInterrupt_eq hr he, rxAccesses_eq hr he]
  show ((if _ then (3 : UInt8) else 0) = 3 ↔ _) ∧ _ ↔ _
  by_cases hplus : regs.rxFifocnt = 3 ∧ regs.rxw 2 = 43
  · obtain ⟨hcnt, hlast⟩ := hplus
    have hhead : (regs.chars.foldl CircBuf.put port.recv.makeRoom).head.toNat =
        (port.recv.head.toNat + 3) % 4096 := by
      rw [head_foldl_put, makeRoom_head, length_chars, hcnt]
    have hlt : port.recv.head.toNat < 4096 := port.recv.head_lt
    rw [if_pos (show regs.rxFifocnt = 3 ∧ regs.rxw 2 = 43 from ⟨hcnt, hlast⟩)]
    by_cases hzero : port.recv.head = 4093
    · -- `head` comes round to 0, and the first index is outside
      have hz : (regs.chars.foldl CircBuf.put port.recv.makeRoom).head = 0 := by
        apply UInt32.toNat_inj.mp
        rw [hhead, hzero]
        rfl
      refine ⟨fun h => ?_, fun h => absurd ⟨hcnt, hlast, hzero⟩ h⟩
      have hout := h.2 _ (List.mem_append_right _ (plusReads_outside hz))
      omega
    · have hne : port.recv.head.toNat ≠ 4093 := fun h => hzero (UInt32.toNat_inj.mp h)
      have hnz : (regs.chars.foldl CircBuf.put port.recv.makeRoom).head.toNat ≠ 0 := by
        rw [hhead]
        omega
      refine ⟨fun _ h => hzero h.2.2, fun _ => ⟨?_, fun j hj => ?_⟩⟩
      · rw [← plusSeen_three hcnt hlast hnz]
        simp [hcnt, hlast]
      · rcases List.mem_append.mp hj with hj | hj
        · exact hstores j hj
        · exact plusReads_inside hnz j hj
  · rw [if_neg hplus, if_neg fun h => hplus ⟨h.1, h.2.1⟩, List.append_nil]
    refine ⟨fun _ h => hplus ⟨h.1, h.2.1⟩, fun _ => ⟨⟨fun h => absurd h (by decide), fun h => ?_⟩, hstores⟩⟩
    have hcnt : regs.rxFifocnt = 3 := by
      rw [← length_chars, h]
      rfl
    rw [chars_three hcnt] at h
    simp only [List.cons.injEq] at h
    exact absurd ⟨hcnt, h.2.2.1⟩ hplus

theorem step_irq (s : Nat → Port) (e : Event) (hirq : e.call = .irq regs) :
    step s e e.target = rxInterrupt (s e.target) regs := by
  rw [step, Function.update_self, hirq]
  rfl

/-- `k` interrupts of UART1 take its `head` on by as many characters. -/
theorem head_interrupts (regs : Regs) (s : Nat → Port) (k : Nat) (hr : regs.receives = true) (he : regs.error = false) :
    (runs step s (List.replicate k (.uart1 regs)) 1).recv.head.toNat =
      ((s 1).recv.head.toNat + k * regs.rxFifocnt) % 4096 := by
  induction k generalizing s with
  | zero =>
    have hlt : (s 1).recv.head.toNat < 4096 := (s 1).recv.head_lt
    simp [Nat.mod_eq_of_lt hlt]
  | succ k ih =>
    have hstep : step s (.uart1 regs) 1 = rxInterrupt (s 1) regs := step_irq s (.uart1 regs) rfl
    rw [List.replicate_succ, runs_cons, ih, hstep, head_rxInterrupt hr he, Nat.succ_mul]
    omega

theorem detectsEscape_iff (s : Nat → Port) (e : Event) (hirq : e.call = .irq regs) (hr : regs.receives = true)
    (he : regs.error = false) : DetectsEscape s e regs ↔ ¬ endsAtZero (s e.target) regs := by
  rw [← detects_iff hr he, ← step_irq s e hirq]
  exact ⟨fun h => ⟨h.detects, h.inside⟩, fun h => ⟨h.1, h.2⟩⟩

end Interrupt

/-- In every state that the ports can get into, an interrupt without a receive error detects the escape sequence,
within the buffer, if and only if it does not bring three characters that end in `'+'` with `head` at 4093. -/
theorem escape_iff (es : List Event) (e : Event) (regs : Regs) (hirq : e.call = .irq regs)
    (hr : regs.receives = true) (he : regs.error = false) :
    DetectsEscape (runs step uartPort es) e regs ↔ ¬ endsAtZero (runs step uartPort es e.target) regs :=
  detectsEscape_iff _ e hirq hr he

/-- An interrupt of the receive FIFO with `n` characters. -/
def fifoIrq (n : UInt32) (rxw : Nat → UInt8) : Regs := { ints := uisRxFifo, intm := 0, fifos := n <<< 6, rxw }

theorem escape_iff_first :
    (Event.uart1 (fifoIrq 3 fun _ => 43)).call = .irq (fifoIrq 3 fun _ => 43) ∧
    DetectsEscape (runs step uartPort []) (.uart1 (fifoIrq 3 fun _ => 43)) (fifoIrq 3 fun _ => 43) :=
  ⟨rfl, (escape_iff [] _ _ rfl (by decide) (by decide)).mpr fun h => absurd h.2.2 (by decide)⟩

/-- 64 interrupts with 63 characters and one with 61 take `head` to 4093; then `+++` arrives. -/
theorem escape_outside :
    (fifoIrq 3 fun _ => 43).receives = true ∧ (fifoIrq 3 fun _ => 43).error = false ∧
    ¬ DetectsEscape
        (runs step uartPort
          (List.replicate 64 (.uart1 (fifoIrq 63 fun _ => 97)) ++ [.uart1 (fifoIrq 61 fun _ => 97)]))
        (.uart1 (fifoIrq 3 fun _ => 43)) (fifoIrq 3 fun _ => 43) := by
  refine ⟨by decide, by decide, ?_⟩
  rw [detectsEscape_iff _ _ rfl (by decide) (by decide), not_not, runs_append]
  have hfirst := head_interrupts (fifoIrq 63 fun _ => 97) uartPort 64 (by decide) (by decide)
  have hlast := head_interrupts (fifoIrq 61 fun _ => 97)
    (runs step uartPort (List.replicate 64 (.uart1 (fifoIrq 63 fun _ => 97)))) 1 (by decide) (by decide)
  rw [hfirst] at hlast
  have hcnt63 : (fifoIrq 63 fun _ => 97).rxFifocnt = 63 := by decide
  have hcnt61 : (fifoIrq 61 fun _ => 97).rxFifocnt = 61 := by decide
  have hstart : (uartPort 1).recv.head.toNat = 0 := rfl
  rw [hcnt63, hcnt61, hstart] at hlast
  exact ⟨by decide, rfl, UInt32.toNat_inj.mp hlast⟩

end Uart
end Air101

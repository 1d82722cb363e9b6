import Mathlib.Algebra.Ring.Nat
import Mathlib.Tactic.Common

/-!
# Uart.Baud

The divisor of the baud rate: `tls_uart_set_baud_rate_inside` of `platform/drivers/uart/wm_uart.c` under
`luat_uart_setup` of `app/port/luat_uart_air101.c`, with the clock from `tls_sys_clk_get` of
`platform/drivers/cpu/wm_cpu.c`. All of it is 32-bit arithmetic, and nothing on the way looks at the rate.

* `sixteenths`: the integer part and the fraction that the formula is about.
* `baud_divisor_iff`: the register has them exactly for the rates of `BaudFits`.
* `baudFits_clock`: what is left of the condition for the clocks of the chip.
-/

namespace Air101
namespace Uart
namespace Baud

/-- The members of `luat_uart_t` that select the port and its rate. -/
structure LuatUart where
  id : Int
  baudRate : BitVec 32

/-- `luat_uart_exist`. -/
def luatUartExist (uartid : Int) : Bool := decide (¬ (uartid < 0 ∨ 6 ≤ uartid))

/-- The rate that `luat_uart_setup` passes to the driver in `opt.baudrate`. -/
def luatUartSetup (uart : LuatUart) : Option (BitVec 32) :=
  if luatUartExist uart.id then some uart.baudRate else none

/-- `tls_sys_clk_get`: `apbclk` in MHz for the word in `HR_CLK_DIV_CTL`, `none` for a zero divider. -/
def tlsSysClkGet (clkDiv : BitVec 32) : Option (BitVec 32) :=
  let cpu := clkDiv.toNat % 256
  let bus2 := clkDiv.toNat / 65536 % 256
  if cpu = 0 ∨ bus2 = 0 then none else some (BitVec.ofNat 32 (480 / cpu / bus2))

/-- `tls_uart_set_baud_rate_inside`: the word for `UR_BD`, `none` for a division by zero. -/
def tlsUartSetBaudRateInside (mhz baudrate : BitVec 32) : Option (BitVec 32) :=
  let apbclk := mhz * 1000000#32
  if 16#32 * baudrate = 0#32 then none
  else
    some ((apbclk / (16#32 * baudrate) - 1#32) |||
      ((apbclk % (baudrate * 16#32)) * 16#32 / (baudrate * 16#32)) <<< 16)

/-- Every step of the formula is exact, the integer part has its place in the low half of the word, and
the word stands for the rate. -/
structure BaudOk (mhz baud : BitVec 32) : Prop where
  divisor : 16#32 * baud ≠ 0#32
  clock : (mhz * 1000000#32).toNat = mhz.toNat * 1000000
  rate : (16#32 * baud).toNat = 16 * baud.toNat
  rest : ((mhz * 1000000#32) % (baud * 16#32) * 16#32).toNat =
    ((mhz * 1000000#32) % (baud * 16#32)).toNat * 16
  less : ((mhz * 1000000#32) / (16#32 * baud) - 1#32).toNat + 1 =
    ((mhz * 1000000#32) / (16#32 * baud)).toNat
  low : ((mhz * 1000000#32) / (16#32 * baud) - 1#32).toNat < 2 ^ 16
  word : ∃ value i f, tlsUartSetBaudRateInside mhz baud = some value ∧
    value.toNat % 2 ^ 16 + 1 = i ∧ value.toNat / 2 ^ 16 = f ∧ f ≤ 15 ∧
      baud.toNat * (16 * i + f) ≤ mhz.toNat * 1000000 ∧
      mhz.toNat * 1000000 < baud.toNat * (16 * i + f + 1)

/-- The clock in Hz is a 32-bit number and at least sixteen times the rate, but not more than 65536 times
that, and the remainder of the division is below `2 ^ 28`. -/
structure BaudFits (mhz baud : Nat) : Prop where
  pos : 0 < baud
  clock : mhz * 1000000 < 2 ^ 32
  rate : 16 * baud ≤ mhz * 1000000
  quotient : mhz * 1000000 / (16 * baud) ≤ 65536
  remainder : mhz * 1000000 % (16 * baud) < 2 ^ 28

/-! ## The formula -/

theorem sixteenths {a b : Nat} (hb : 0 < b) :
    a % (16 * b) * 16 / (16 * b) ≤ 15 ∧
      b * (16 * (a / (16 * b)) + a % (16 * b) * 16 / (16 * b)) ≤ a ∧
      a < b * (16 * (a / (16 * b)) + a % (16 * b) * 16 / (16 * b) + 1) := by
  have hlt : a % (16 * b) < 16 * b := Nat.mod_lt _ (by omega)
  have hsplit := Nat.div_add_mod a (16 * b)
  generalize a % (16 * b) = r at hlt hsplit ⊢
  generalize a / (16 * b) = q at hsplit ⊢
  have hf : r * 16 / (16 * b) = r / b := by
    rw [Nat.mul_comm r 16, Nat.mul_div_mul_left _ _ (by omega)]
  have hr := Nat.div_add_mod r b
  have hmod := Nat.mod_lt r hb
  rw [hf]
  generalize r / b = f at hr ⊢
  have hexp : b * (16 * q + f) = 16 * b * q + b * f := by
    rw [Nat.mul_add, ← Nat.mul_assoc, Nat.mul_comm b 16]
  refine ⟨?_, ?_, ?_⟩
  · have : b * f < b * 16 := by omega
    exact Nat.le_of_lt_succ (Nat.lt_of_mul_lt_mul_left this)
  · omega
  · rw [Nat.mul_add, hexp]
    omega

/-! ## The condition -/

section Words

variable {mhz baud : BitVec 32}

theorem divisor_comm (baud : BitVec 32) : baud * 16#32 = 16#32 * baud := BitVec.mul_comm _ _

/-- The two fields of the word do not overlap. -/
theorem fields_toNat {low high : BitVec 32} (hlow : low.toNat < 2 ^ 16) (hhigh : high.toNat ≤ 15) :
    (low ||| high <<< 16).toNat = high.toNat * 2 ^ 16 + low.toNat := by
  have hshift : high.toNat * 2 ^ 16 < 2 ^ 32 := by omega
  rw [BitVec.toNat_or, BitVec.toNat_shiftLeft, Nat.shiftLeft_eq, Nat.mod_eq_of_lt hshift, Nat.or_comm,
    ← Nat.shiftLeft_eq, Nat.shiftLeft_add_eq_or_of_lt hlow]

theorem BaudOk.fits (h : BaudOk mhz baud) : BaudFits mhz.toNat baud.toNat := by
  have hclock := h.clock
  have hlt := (mhz * 1000000#32).isLt
  have hquot : ((mhz * 1000000#32) / (16#32 * baud)).toNat =
      mhz.toNat * 1000000 / (16 * baud.toNat) := by
    rw [BitVec.toNat_udiv, hclock, h.rate]
  have hrem : ((mhz * 1000000#32) % (baud * 16#32)).toNat =
      mhz.toNat * 1000000 % (16 * baud.toNat) := by
    rw [divisor_comm, BitVec.toNat_umod, hclock, h.rate]
  have hless := h.less
  have hlow := h.low
  have hrest := h.rest
  have hlt' := ((mhz * 1000000#32) % (baud * 16#32) * 16#32).isLt
  rw [hquot] at hless
  rw [hrem] at hrest
  refine ⟨?_, by omega, ?_, by omega, by omega⟩
  · apply Nat.pos_of_ne_zero
    intro h0
    apply h.divisor
    rw [show baud = 0#32 from BitVec.eq_of_toNat_eq h0, BitVec.mul_zero]
  · have hone : 1 ≤ mhz.toNat * 1000000 / (16 * baud.toNat) := by omega
    rcases Nat.lt_or_ge (mhz.toNat * 1000000) (16 * baud.toNat) with hsmall | hlarge
    · rw [Nat.div_eq_of_lt hsmall] at hone
      omega
    · exact hlarge

theorem BaudFits.ok (h : BaudFits mhz.toNat baud.toNat) : BaudOk mhz baud := by
  obtain ⟨hpos, hclock, hrate, hquot, hrem⟩ := h
  have happ : (mhz * 1000000#32).toNat = mhz.toNat * 1000000 := by
    rw [BitVec.toNat_mul, BitVec.toNat_ofNat]
    exact Nat.mod_eq_of_lt hclock
  have hdiv : (16#32 * baud).toNat = 16 * baud.toNat := by
    rw [BitVec.toNat_mul, BitVec.toNat_ofNat]
    exact Nat.mod_eq_of_lt (by omega)
  have hq : ((mhz * 1000000#32) / (16#32 * baud)).toNat =
      mhz.toNat * 1000000 / (16 * baud.toNat) := by
    rw [BitVec.toNat_udiv, happ, hdiv]
  have hr : ((mhz * 1000000#32) % (16#32 * baud)).toNat =
      mhz.toNat * 1000000 % (16 * baud.toNat) := by
    rw [BitVec.toNat_umod, happ, hdiv]
  have hr16 : ((mhz * 1000000#32) % (16#32 * baud) * 16#32).toNat =
      mhz.toNat * 1000000 % (16 * baud.toNat) * 16 := by
    rw [BitVec.toNat_mul, hr, BitVec.toNat_ofNat]
    exact Nat.mod_eq_of_lt (by omega)
  have hone : 1 ≤ mhz.toNat * 1000000 / (16 * baud.toNat) := Nat.div_pos hrate (by omega)
  have hless : ((mhz * 1000000#32) / (16#32 * baud) - 1#32).toNat =
      mhz.toNat * 1000000 / (16 * baud.toNat) - 1 := by
    have hle : 1#32 ≤ (mhz * 1000000#32) / (16#32 * baud) := by
      rw [BitVec.le_def, hq]
      exact hone
    rw [BitVec.toNat_sub_of_le hle, hq]
    rfl
  have hne : 16#32 * baud ≠ 0#32 := by
    intro h0
    rw [h0] at hdiv
    simp at hdiv
    omega
  obtain ⟨hf, hbelow, habove⟩ := sixteenths (a := mhz.toNat * 1000000) hpos
  have hfrac : ((mhz * 1000000#32) % (16#32 * baud) * 16#32 / (16#32 * baud)).toNat =
      mhz.toNat * 1000000 % (16 * baud.toNat) * 16 / (16 * baud.toNat) := by
    rw [BitVec.toNat_udiv, hr16, hdiv]
  have hlow : ((mhz * 1000000#32) / (16#32 * baud) - 1#32).toNat < 2 ^ 16 := by
    rw [hless]
    omega
  have hword := fields_toNat hlow (hfrac ▸ hf)
  rw [hless, hfrac] at hword
  refine ⟨hne, happ, hdiv, ?_, ?_, ?_, ?_⟩
  · rw [divisor_comm baud, hr16, hr]
  · rw [hless, hq]
    omega
  · rw [hless]
    omega
  · have hset : tlsUartSetBaudRateInside mhz baud =
        some (((mhz * 1000000#32) / (16#32 * baud) - 1#32) |||
          ((mhz * 1000000#32) % (16#32 * baud) * 16#32 / (16#32 * baud)) <<< 16) := by
      rw [tlsUartSetBaudRateInside, if_neg hne, divisor_comm baud]
    refine ⟨_, _, _, hset, ?_, ?_, hf, hbelow, habove⟩
    · rw [hword]
      omega
    · rw [hword]
      omega

end Words

/-- For every clock and every rate that `luat_uart_setup` passes on, the divisor is right exactly when
the clock and the rate fit. -/
theorem baud_divisor_iff (mhz : BitVec 32) (uart : LuatUart) :
    (∀ baud, luatUartSetup uart = some baud → BaudOk mhz baud) ↔
      (luatUartExist uart.id = true → BaudFits mhz.toNat uart.baudRate.toNat) := by
  constructor
  · intro h hexist
    exact (h _ (if_pos hexist)).fits
  · intro h baud hset
    unfold luatUartSetup at hset
    split at hset
    · rename_i hexist
      cases hset
      exact (h hexist).ok
    · cases hset

/-- A rate above a sixteenth of the clock: the integer part is zero and the subtraction wraps. -/
theorem baud_too_fast :
    ¬ ∀ baud, luatUartSetup { id := 1, baudRate := 3000000#32 } = some baud → BaudOk 40#32 baud := by
  intro h
  have hfits := (h 3000000#32 (by decide)).fits
  have hrate := hfits.rate
  simp at hrate

/-- For the clocks of the chip: the rate is not zero and not above a sixteenth of the clock, and the
quotient is not above 65536. -/
theorem baudFits_clock {clkDiv mhz : BitVec 32} (h : tlsSysClkGet clkDiv = some mhz) (baud : Nat) :
    BaudFits mhz.toNat baud ↔
      0 < baud ∧ 16 * baud ≤ mhz.toNat * 1000000 ∧ mhz.toNat * 1000000 / (16 * baud) ≤ 65536 := by
  have hclock : mhz.toNat ≤ 480 := by
    unfold tlsSysClkGet at h
    simp only [] at h
    split at h
    · cases h
    · cases h
      rw [BitVec.toNat_ofNat]
      exact Nat.le_trans (Nat.mod_le _ _) (Nat.le_trans (Nat.div_le_self _ _) (Nat.div_le_self _ _))
  constructor
  · intro hfits
    exact ⟨hfits.pos, hfits.rate, hfits.quotient⟩
  · rintro ⟨hpos, hrate, hquot⟩
    have hdecomp := Nat.mod_add_div (mhz.toNat * 1000000) (16 * baud)
    have hone : 1 ≤ mhz.toNat * 1000000 / (16 * baud) := Nat.div_pos hrate (by omega)
    have hmul : 16 * baud * 1 ≤ 16 * baud * (mhz.toNat * 1000000 / (16 * baud)) :=
      Nat.mul_le_mul_left _ hone
    have hlt : mhz.toNat * 1000000 % (16 * baud) < 16 * baud := Nat.mod_lt _ (by omega)
    exact ⟨hpos, by omega, hrate, hquot, by omega⟩

end Baud
end Uart
end Air101

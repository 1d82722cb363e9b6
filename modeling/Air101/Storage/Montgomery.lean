import Mathlib.Algebra.Ring.Nat
import Mathlib.Data.Nat.ModEq
import Mathlib.Tactic.Ring

/-!
# Storage.Montgomery

Arithmetic modulo `n` with numbers multiplied by a radix `R`: `InForm n R v x` says that `x` stands
for `v`. A Montgomery product of two representatives represents the product (`InForm.mul`), and one
with `1` takes the radix off again (`InForm.out`).

`redc` is the product's reduction, one digit of base `b` at a time; `mc` is the negative inverse of
`n` modulo `b`.

`pow_div_two_pow`: the exponent's bits from the top, as the square-and-multiply loop sees them.
-/

namespace Storage

/-- `x` represents `v` modulo `n` with the radix `R`. -/
structure InForm (n R v x : Nat) : Prop where
  lt : x < n
  modEq : x ≡ v * R [MOD n]

namespace InForm

variable {n R v w x y z : Nat}

theorem one (hn : 0 < n) : InForm n R 1 (R % n) :=
  ⟨Nat.mod_lt _ hn, by rw [Nat.one_mul]; exact Nat.mod_modEq _ _⟩

theorem of (hn : 0 < n) (a : Nat) : InForm n R a (a * (R % n) % n) :=
  ⟨Nat.mod_lt _ hn, (Nat.mod_modEq _ _).trans ((Nat.mod_modEq R n).mul_left a)⟩

theorem mul (hR : Nat.gcd n R = 1) (hx : InForm n R v x) (hy : InForm n R w y) (hz : z < n)
    (hprod : z * R ≡ x * y [MOD n]) : InForm n R (v * w) z := by
  refine ⟨hz, Nat.ModEq.cancel_right_of_coprime hR ?_⟩
  calc z * R ≡ x * y [MOD n] := hprod
    _ ≡ v * R * (w * R) [MOD n] := hx.modEq.mul hy.modEq
    _ = v * w * R * R := by ring

theorem out (hR : Nat.gcd n R = 1) (hx : InForm n R v x) (hz : z < n)
    (hprod : z * R ≡ x * 1 [MOD n]) : z = v % n := by
  have hmod : z ≡ v [MOD n] := by
    refine Nat.ModEq.cancel_right_of_coprime hR ?_
    rw [Nat.mul_one] at hprod
    exact hprod.trans hx.modEq
  rw [← Nat.mod_eq_of_lt hz]
  exact hmod

end InForm

/-! ## Reduction -/

/-- One digit: a multiple of `m` makes it zero, and the number moves down. -/
def redcStep (b mc m t : Nat) : Nat := (t + t * mc % b * m) / b

def redc (b mc m : Nat) : Nat → Nat → Nat
  | 0, t => t
  | k + 1, t => redc b mc m k (redcStep b mc m t)

variable {b mc m : Nat}

theorem redcStep_mul (h : (mc * m + 1) % b = 0) (t : Nat) :
    redcStep b mc m t * b = t + t * mc % b * m := by
  apply Nat.div_mul_cancel
  apply Nat.dvd_of_mod_eq_zero
  have hsum : t + t * mc % b * m ≡ t * (mc * m + 1) [MOD b] := by
    calc t + t * mc % b * m ≡ t + t * mc * m [MOD b] :=
          Nat.ModEq.add_left t ((Nat.mod_modEq _ _).mul_right m)
      _ = t * (mc * m + 1) := by ring
  have hzero : t * (mc * m + 1) ≡ t * 0 [MOD b] := Nat.ModEq.mul_left t h
  exact hsum.trans hzero

theorem redc_modEq (h : (mc * m + 1) % b = 0) (k t : Nat) :
    redc b mc m k t * b ^ k ≡ t [MOD m] := by
  induction k generalizing t with
  | zero => simp [redc, Nat.ModEq.refl]
  | succ k ih =>
    have hstep : redcStep b mc m t * b ≡ t [MOD m] := by
      rw [redcStep_mul h]
      exact Nat.ModEq.trans (Nat.ModEq.add_left t (Nat.modEq_zero_iff_dvd.mpr ⟨_, Nat.mul_comm _ _⟩)) rfl
    calc redc b mc m (k + 1) t * b ^ (k + 1)
        = redc b mc m k (redcStep b mc m t) * b ^ k * b := by rw [redc, Nat.pow_succ, Nat.mul_assoc]
      _ ≡ redcStep b mc m t * b [MOD m] := (ih _).mul_right b
      _ ≡ t [MOD m] := hstep

/-- A digit less: the bound goes down with it. -/
theorem redc_lt (hb : 0 < b) (h : (mc * m + 1) % b = 0) (k t : Nat) (ht : t < m * (b ^ k + 1)) :
    redc b mc m k t < 2 * m := by
  induction k generalizing t with
  | zero =>
    rw [Nat.pow_zero] at ht
    rw [redc]
    omega
  | succ k ih =>
    refine ih _ ?_
    have hq : t * mc % b + 1 ≤ b := Nat.mod_lt _ hb
    refine Nat.lt_of_mul_lt_mul_right (a := b) ?_
    calc redcStep b mc m t * b = t + t * mc % b * m := redcStep_mul h t
      _ < m * (b ^ (k + 1) + 1) + t * mc % b * m := Nat.add_lt_add_right ht _
      _ = m * b ^ (k + 1) + (t * mc % b + 1) * m := by ring
      _ ≤ m * b ^ (k + 1) + b * m := Nat.add_le_add_left (Nat.mul_le_mul_right m hq) _
      _ = m * (b ^ k + 1) * b := by ring

/-! ## Exponents -/

/-- The bits of an exponent down to the `i`-th: one more bit doubles what is in front of it. -/
theorem pow_div_two_pow (a e i : Nat) :
    a ^ (e / 2 ^ i) =
      a ^ (e / 2 ^ (i + 1)) * a ^ (e / 2 ^ (i + 1)) * if e.testBit i then a else 1 := by
  have hhalf : e / 2 ^ (i + 1) = e / 2 ^ i / 2 := by
    rw [Nat.pow_succ, Nat.div_div_eq_div_mul]
  rw [hhalf, Nat.testBit_eq_decide_div_mod_eq, ← Nat.pow_add]
  generalize e / 2 ^ i = q
  by_cases hq : q % 2 = 1
  · rw [if_pos (decide_eq_true hq), ← Nat.pow_succ]
    congr 1
    omega
  · rw [if_neg (by simpa using hq), Nat.mul_one]
    congr 1
    omega

end Storage

import Air101.Storage.Nor
import Mathlib.Algebra.CharP.Two
import Mathlib.Algebra.Polynomial.Div
import Mathlib.Algebra.Field.ZMod
import Mathlib.Tactic.Ring

/-!
# Storage.CrcPoly

Cyclic redundancy checks as polynomials over the field of two elements, most significant bit first.

* `ofBits c`: the polynomial with the bits of the register `c` as coefficients.
* `generator p`: `X ^ w` and the lower terms `p`.
* `remainder p bs`: what is left of `message bs * X ^ w` by the generator. This is the check that a
  catalogue of CRCs means by a polynomial `p` with initial value 0, no reflection and no final mask.
* `shift p c`: a shift of the register multiplies by `X` modulo the generator (`shift_spec`).
* `update_spec`: a register fed a byte at a time holds the remainder.
-/

namespace Storage
namespace CrcPoly

open Polynomial

variable {w : Nat}

/-- The polynomial with the bits of `c` as coefficients. -/
noncomputable def ofBits (c : BitVec w) : (ZMod 2)[X] :=
  ∑ i ∈ Finset.range w, if c.getLsbD i then X ^ i else 0

noncomputable def generator (p : BitVec w) : (ZMod 2)[X] := X ^ w + ofBits p

/-- The polynomial of a message. -/
noncomputable def message (bs : List Byte) : (ZMod 2)[X] :=
  bs.foldl (fun m b => m * X ^ 8 + ofBits b) 0

/-- The remainder that a CRC is defined by. -/
noncomputable def remainder (p : BitVec w) (bs : List Byte) : (ZMod 2)[X] :=
  (message bs * X ^ w) %ₘ generator p

/-- One shift of the register. -/
def shift (p c : BitVec w) : BitVec w := if c.getLsbD (w - 1) then (c <<< 1) ^^^ p else c <<< 1

def shifts (p : BitVec w) : Nat → BitVec w → BitVec w
  | 0, c => c
  | n + 1, c => shifts p n (shift p c)

/-- One byte: it goes into the top of the register, and eight shifts follow. -/
def step (p c : BitVec w) (b : Byte) : BitVec w := shifts p 8 (c ^^^ (b.setWidth w <<< (w - 8)))

def update (p c : BitVec w) (bs : List Byte) : BitVec w := bs.foldl (step p) c

theorem ofBits_xor (a b : BitVec w) : ofBits (a ^^^ b) = ofBits a + ofBits b := by
  rw [ofBits, ofBits, ofBits, ← Finset.sum_add_distrib]
  refine Finset.sum_congr rfl fun i _ => ?_
  rw [BitVec.getLsbD_xor]
  cases a.getLsbD i <;> cases b.getLsbD i <;> simp [CharTwo.add_self_eq_zero]

theorem ofBits_shiftLeft_one (c : BitVec (w + 1)) :
    X * ofBits c = ofBits (c <<< 1) + if c.getLsbD w then X ^ (w + 1) else 0 := by
  have hlow : ofBits (c <<< 1) = ∑ i ∈ Finset.range w, if c.getLsbD i then X ^ (i + 1) else 0 := by
    rw [ofBits, Finset.sum_range_succ']
    simp only [BitVec.getLsbD_shiftLeft]
    simp only [Nat.zero_lt_one, decide_true, Bool.not_true, Bool.and_false, Bool.false_and, Bool.false_eq_true,
      if_false, add_zero, Nat.add_sub_cancel]
    refine Finset.sum_congr rfl fun i hi => ?_
    have hi : i < w := Finset.mem_range.mp hi
    simp [hi]
  rw [hlow, ofBits, Finset.mul_sum, Finset.sum_range_succ]
  congr 1
  · refine Finset.sum_congr rfl fun i _ => ?_
    rw [mul_ite, mul_zero, pow_succ']
  · rw [mul_ite, mul_zero, pow_succ']

theorem shift_spec (p c : BitVec (w + 1)) : generator p ∣ X * ofBits c - ofBits (shift p c) := by
  rw [ofBits_shiftLeft_one, shift, Nat.add_sub_cancel]
  cases c.getLsbD w with
  | false => simp
  | true =>
    have hdiff : ofBits (c <<< 1) + X ^ (w + 1) - (ofBits (c <<< 1) + ofBits p) = generator p := by
      rw [generator, add_sub_add_left_eq_sub, CharTwo.sub_eq_add]
    simp only [if_true, ofBits_xor, hdiff, dvd_refl]

theorem shifts_spec (p c : BitVec (w + 1)) (n : Nat) :
    generator p ∣ X ^ n * ofBits c - ofBits (shifts p n c) := by
  induction n generalizing c with
  | zero => simp [shifts]
  | succ n ih =>
    have hsplit : X ^ (n + 1) * ofBits c - ofBits (shifts p (n + 1) c) =
        X ^ n * (X * ofBits c - ofBits (shift p c)) +
          (X ^ n * ofBits (shift p c) - ofBits (shifts p n (shift p c))) := by
      rw [shifts]
      ring
    rw [hsplit]
    exact dvd_add (Dvd.dvd.mul_left (shift_spec p c) _) (ih (shift p c))

theorem ofBits_top (b : Byte) : ofBits (b.setWidth (w + 8) <<< w) = ofBits b * X ^ w := by
  have hlow : ∑ i ∈ Finset.range w, (if (b.setWidth (w + 8) <<< w).getLsbD i then X ^ i else 0 : (ZMod 2)[X]) = 0 := by
    refine Finset.sum_eq_zero fun i hi => ?_
    have hi : i < w := Finset.mem_range.mp hi
    simp [BitVec.getLsbD_shiftLeft, hi]
  rw [ofBits, Finset.sum_range_add, hlow, zero_add, ofBits, Finset.sum_mul]
  refine Finset.sum_congr rfl fun i hi => ?_
  have hi : i < 8 := Finset.mem_range.mp hi
  rw [ite_mul, zero_mul, ← pow_add, Nat.add_comm i w]
  simp [hi]

theorem step_spec (p c : BitVec (w + 8)) (b : Byte) {m : (ZMod 2)[X]}
    (h : generator p ∣ m * X ^ (w + 8) - ofBits c) :
    generator p ∣ (m * X ^ 8 + ofBits b) * X ^ (w + 8) - ofBits (step p c b) := by
  have hshift := shifts_spec (w := w + 7) p (c ^^^ (b.setWidth (w + 8) <<< w)) 8
  rw [ofBits_xor, ofBits_top] at hshift
  have hsplit : (m * X ^ 8 + ofBits b) * X ^ (w + 8) - ofBits (step p c b) =
      X ^ 8 * (m * X ^ (w + 8) - ofBits c) +
        (X ^ 8 * (ofBits c + ofBits b * X ^ w) - ofBits (step p c b)) := by
    ring
  rw [hsplit]
  exact dvd_add (Dvd.dvd.mul_left h _) hshift

theorem update_dvd (p c : BitVec (w + 8)) (bs : List Byte) {m : (ZMod 2)[X]}
    (h : generator p ∣ m * X ^ (w + 8) - ofBits c) :
    generator p ∣ bs.foldl (fun m b => m * X ^ 8 + ofBits b) m * X ^ (w + 8) - ofBits (update p c bs) := by
  induction bs generalizing m c with
  | nil => exact h
  | cons b bs ih => exact ih (step p c b) (step_spec p c b h)

theorem degree_ofBits_lt (c : BitVec w) : (ofBits c).degree < w := by
  refine Polynomial.degree_lt_iff_coeff_zero _ _ |>.mpr fun k hk => ?_
  rw [ofBits, finsetSum_coeff]
  refine Finset.sum_eq_zero fun i hi => ?_
  have hi : i < w := Finset.mem_range.mp hi
  split
  · rw [coeff_X_pow, if_neg (by omega)]
  · exact coeff_zero k

theorem ofBits_zero : ofBits (0#w) = 0 := by
  simp [ofBits]

/-- The register fed a byte at a time, from 0, holds the remainder. -/
theorem update_spec (p : BitVec (w + 8)) (bs : List Byte) : ofBits (update p 0#_ bs) = remainder p bs := by
  have hmonic : (generator p).Monic := monic_X_pow_add (degree_ofBits_lt p)
  have hdegree : (generator p).degree = (w + 8 : Nat) := by
    rw [generator, degree_add_eq_left_of_degree_lt, degree_X_pow]
    rw [degree_X_pow]
    exact degree_ofBits_lt p
  have hdvd : generator p ∣ message bs * X ^ (w + 8) - ofBits (update p 0#_ bs) :=
    update_dvd p 0#_ bs (by simp [ofBits_zero])
  rw [remainder, modByMonic_eq_of_dvd_sub hmonic hdvd,
    (modByMonic_eq_self_iff hmonic).mpr (hdegree ▸ degree_ofBits_lt _)]

end CrcPoly
end Storage

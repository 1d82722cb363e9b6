import Air101.Storage.Montgomery
import Mathlib.Data.Nat.Size

/-!
# Crypto.Exptmod

Modular powers on the RSA accelerator (`platform/common/crypto/wm_crypto_hard.c`): `rsaCalMc` and
`tls_crypto_exptmod`. The bignums are the numbers they stand for, in digits of 28 bits where the code
looks at digits; the accelerator is a function from its operands to the product (`MonMul`).

`Montgomery mon` is what the driver relies on: with the right `mc` the product is a Montgomery
product, and below the modulus.

* `rsaCalMc_spec`: `rsaCalMc` finds the negative inverse modulo `2 ^ 32`.
* `expLoop_holds`: the loop of squares and products, whichever buffer holds the power.
* `exptmod_iff`: the result is the power, for the exponents whose bits a 16-bit index can count.
-/

namespace Air101
namespace Crypto

open Storage

/-! ## The inverse -/

/-- A pass of the loop of `rsaCalMc`, on `left` and `y`. -/
def calMcStep (inn : BitVec 32) (s : BitVec 32 × BitVec 32) : BitVec 32 × BitVec 32 :=
  let left := s.1 <<< 1
  let right := (inn * s.2) &&& left
  (left, if right ≠ 0#32 then s.2 + left else s.2)

/-- `rsaCalMc`. -/
def rsaCalMc (inn : BitVec 32) : BitVec 32 :=
  let s := (List.range 31).foldl (fun s _ => calMcStep inn s) (1#32, 1#32)
  ~~~ s.2 + 1#32

/-- A bit of the product more: if it is set, adding the shifted odd number clears it. -/
theorem bit_clear {p q l : Nat} (hl : 0 < l) (hp : p % l = 1) :
    (if p / l % 2 = 1 then p + (2 * q + 1) * l else p) % (l * 2) = 1 := by
  have hsplit := Nat.mod_mul (x := p) (a := l) (b := 2)
  rw [hp] at hsplit
  split
  · rename_i hbit
    rw [hbit, Nat.mul_one] at hsplit
    have hlarge : 1 < l * 2 := by omega
    have hdecomp := Nat.mod_add_div p (l * 2)
    rw [hsplit] at hdecomp
    have hsum : p + (2 * q + 1) * l = 1 + l * 2 * (p / (l * 2) + 1 + q) := by
      calc p + (2 * q + 1) * l = 1 + l + l * 2 * (p / (l * 2)) + (2 * q + 1) * l := by rw [hdecomp]
        _ = 1 + l * 2 * (p / (l * 2) + 1 + q) := by ring
    rw [hsum, Nat.add_mul_mod_self_left, Nat.mod_eq_of_lt hlarge]
  · rename_i hbit
    rw [hsplit, show p / l % 2 = 0 by omega]
    rfl

/-- The test of one bit with a mask. -/
theorem and_bit_ne_zero (x : BitVec 32) {mask : BitVec 32} {k : Nat} (hpow : 2 ^ k < 2 ^ 32)
    (hmask : mask.toNat = 2 ^ k) : (x &&& mask) ≠ 0#32 ↔ x.toNat / 2 ^ k % 2 = 1 := by
  have htwo : mask = BitVec.twoPow 32 k := by
    apply BitVec.eq_of_toNat_eq
    rw [hmask, BitVec.toNat_twoPow, Nat.mod_eq_of_lt hpow]
  have hne : BitVec.twoPow 32 k ≠ 0#32 := by
    intro h0
    rw [← htwo, ← BitVec.toNat_inj, hmask] at h0
    exact absurd h0 (Nat.ne_of_gt (Nat.two_pow_pos _))
  rw [htwo, BitVec.and_twoPow, BitVec.getLsbD, Nat.testBit_eq_decide_div_mod_eq]
  simp only [decide_eq_true_eq]
  split
  · rename_i h
    exact ⟨fun _ => h, fun _ => hne⟩
  · rename_i h
    exact ⟨fun h0 => absurd rfl h0, fun h1 => absurd h1 h⟩

/-- After `k` passes the product has the bits `0` to `k` of the number one. -/
theorem calMcStep_fold {inn : BitVec 32} (hodd : inn.toNat % 2 = 1) : ∀ k, k ≤ 31 →
    ((List.range k).foldl (fun s _ => calMcStep inn s) (1#32, 1#32)).1.toNat = 2 ^ k ∧
      (inn * ((List.range k).foldl (fun s _ => calMcStep inn s) (1#32, 1#32)).2).toNat %
        2 ^ (k + 1) = 1 := by
  intro k
  induction k with
  | zero =>
    intro _
    refine ⟨rfl, ?_⟩
    simpa using hodd
  | succ k ih =>
    intro hk
    obtain ⟨hleft, hprod⟩ := ih (by omega)
    rw [List.range_succ, List.foldl_append, List.foldl_cons, List.foldl_nil]
    generalize (List.range k).foldl (fun s _ => calMcStep inn s) (1#32, 1#32) = s at hleft hprod ⊢
    obtain ⟨left, y⟩ := s
    simp only at hleft hprod
    have hpow : 2 ^ (k + 1) < 2 ^ 32 := Nat.pow_lt_pow_right (by omega) (by omega)
    have hnew : (left <<< 1).toNat = 2 ^ (k + 1) := by
      rw [BitVec.toNat_shiftLeft, hleft, Nat.shiftLeft_eq, ← Nat.pow_succ, Nat.mod_eq_of_lt hpow]
    have hbit := and_bit_ne_zero (inn * y) hpow hnew
    refine ⟨hnew, ?_⟩
    have hq : inn.toNat = 2 * (inn.toNat / 2) + 1 := by omega
    have hclear := bit_clear (q := inn.toNat / 2) (Nat.two_pow_pos _) hprod
    rw [← hq, ← Nat.pow_succ] at hclear
    simp only [calMcStep, hbit]
    split
    · rename_i hset
      rw [if_pos hset] at hclear
      rw [BitVec.mul_add, BitVec.toNat_add, BitVec.toNat_mul (x := inn) (y := left <<< 1), hnew,
        Nat.add_mod_mod, Nat.mod_mod_of_dvd _ (Nat.pow_dvd_pow 2 (by omega))]
      exact hclear
    · rename_i hset
      rw [if_neg hset] at hclear
      exact hclear

theorem rsaCalMc_spec {inn : BitVec 32} (hodd : inn.toNat % 2 = 1) :
    rsaCalMc inn * inn = -1#32 := by
  have hprod := (calMcStep_fold hodd 31 (Nat.le_refl _)).2
  have hone : inn * ((List.range 31).foldl (fun s _ => calMcStep inn s) (1#32, 1#32)).2 = 1#32 := by
    apply BitVec.eq_of_toNat_eq
    rw [Nat.mod_eq_of_lt (BitVec.isLt _)] at hprod
    exact hprod
  rw [rsaCalMc, ← BitVec.neg_eq_not_add, BitVec.neg_mul, BitVec.mul_comm, hone]

/-! ## The functions -/

/-- `pstm_count_bits`. -/
def countBits (x : Nat) : Nat := x.size

/-- The member `used` of a bignum. -/
def used (x : Nat) : Nat := (countBits x + 27) / 28

/-- The digit `dp[i]`. -/
def dp (x i : Nat) : Nat := x / 2 ^ (28 * i) % 2 ^ 28

/-- The conversion of an `int` to an `int16`. -/
def int16 (i : Int) : Int := i.bmod 65536

/-- `pstm_get_bit`; `none` is an access outside the digits. -/
def pstmGetBit (a : Nat) (idx : Int) : Option Bool :=
  let n := idx.tdiv 28
  let m := idx.tmod 28
  if used a = 0 then some false
  else if n < 0 ∨ m < 0 ∨ used a ≤ n then none
  else some ((dp a n.toNat).testBit m.toNat)

/-- The buffers and registers of the accelerator. -/
structure Rsa where
  xbuf : Nat -- A
  ybuf : Nat -- B
  mbuf : Nat -- M
  dbuf : Nat -- D
  rsan : Nat
  rsamc : BitVec 32

/-- The accelerator's product: words, `mc`, modulus and the two operands. -/
abbrev MonMul := Nat → BitVec 32 → Nat → Nat → Nat → Nat

/-- The low `rsan` words of a number. -/
def Rsa.words (s : Rsa) (x : Nat) : Nat := x % 2 ^ (32 * s.rsan)

/-- The buffers that `rsaMulModWrite` knows. -/
inductive Buf where
  | a
  | b
  | m
  deriving DecidableEq

/-- `rsaMonMulWriteA`, `rsaMonMulWriteB`, `rsaMonMulWriteM`. -/
def Rsa.load (s : Rsa) (x : Nat) : Buf → Rsa
  | .a => { s with xbuf := s.words x }
  | .b => { s with ybuf := s.words x }
  | .m => { s with mbuf := s.words x }

/-- `rsaMulModWrite`; a number of more than 64 words does not fit its buffer. -/
def rsaMulModWrite (w : Buf) (x : Nat) (s : Rsa) : Option Rsa :=
  if 2 ^ 2048 ≤ x then none else some (s.load x w)

section Functions

variable (mon : MonMul)

/-- `rsaMonMulAA`. -/
def rsaMonMulAA (s : Rsa) : Rsa := { s with dbuf := mon s.rsan s.rsamc s.mbuf s.xbuf s.xbuf }

/-- `rsaMonMulDD`. -/
def rsaMonMulDD (s : Rsa) : Rsa := { s with xbuf := mon s.rsan s.rsamc s.mbuf s.dbuf s.dbuf }

/-- `rsaMonMulAB`. -/
def rsaMonMulAB (s : Rsa) : Rsa := { s with dbuf := mon s.rsan s.rsamc s.mbuf s.xbuf s.ybuf }

/-- `rsaMonMulBD`. -/
def rsaMonMulBD (s : Rsa) : Rsa := { s with xbuf := mon s.rsan s.rsamc s.mbuf s.ybuf s.dbuf }

/-- A square; `monmulFlag` says that the power is in D and not in A. -/
def expSquare : Rsa × Bool → Rsa × Bool
  | (s, false) => (rsaMonMulAA mon s, true)
  | (s, true) => (rsaMonMulDD mon s, false)

/-- A product with the base in B. -/
def expMul : Rsa × Bool → Rsa × Bool
  | (s, false) => (rsaMonMulAB mon s, true)
  | (s, true) => (rsaMonMulBD mon s, false)

/-- The loop over the bits of the exponent, from bit `i - 1` down. -/
def expLoop (e : Nat) : Nat → Rsa × Bool → Option (Rsa × Bool)
  | 0, p => some p
  | i + 1, p =>
    let p := expSquare mon p
    match pstmGetBit e (int16 i) with
    | none => none
    | some bit => expLoop e i (if bit then expMul mon p else p)

/-- The buffer that holds the power. -/
def powerBuf : Rsa × Bool → Nat
  | (s, false) => s.xbuf
  | (s, true) => s.dbuf

/-- The low word of the modulus, from its first two digits. -/
def lowWord (n : Nat) : BitVec 32 :=
  if 1 < used n then BitVec.ofNat 32 (dp n 0) ||| BitVec.ofNat 32 (dp n 1) <<< 28
  else BitVec.ofNat 32 (dp n 0)

/-- `tls_crypto_exptmod` up to its loop: `a * R` into B and `R`, the power's start, into A. -/
def expSetup (a n : Nat) (s : Rsa) : Option Rsa := do
  let k := countBits n
  let k := (k / 32 + if 0 < k % 32 then 1 else 0) * 32
  let r := 2 ^ (int16 k).toNat % n
  let x := a * r % n
  let y := r
  let mc := rsaCalMc (lowWord n)
  let k := countBits n
  let s := { s with rsan := k / 32 + if k % 32 = 0 then 0 else 1, rsamc := mc }
  let s ← rsaMulModWrite .m n s
  let s ← rsaMulModWrite .b x s
  rsaMulModWrite .a y s

/-- `tls_crypto_exptmod` behind its loop: a product with 1, and the read of D or A. -/
def expFinish (p : Rsa × Bool) : Option Nat := do
  let s ← rsaMulModWrite .b 1 p.1
  let p := expMul mon (s, p.2)
  some (p.1.words (powerBuf p))

/-- `tls_crypto_exptmod`: the number it puts into `res`, `none` if it leaves a buffer. `s` is what the
accelerator holds before. -/
def tlsCryptoExptmod (a e n : Nat) (s : Rsa) : Option Nat := do
  let s ← expSetup a n s
  let p ← expLoop mon e (countBits e) (s, false)
  expFinish mon p

end Functions

/-- What the accelerator computes: for a modulus of `len` words with its `mc`, and operands below it,
the Montgomery product below the modulus. -/
structure Montgomery (mon : MonMul) : Prop where
  lt {len : Nat} {mc : BitVec 32} {m x y : Nat} (hmc : mc * BitVec.ofNat 32 m = -1#32)
    (hm : m < 2 ^ (32 * len)) (hx : x < m) (hy : y < m) : mon len mc m x y < m
  modEq {len : Nat} {mc : BitVec 32} {m x y : Nat} (hmc : mc * BitVec.ofNat 32 m = -1#32)
    (hm : m < 2 ^ (32 * len)) (hx : x < m) (hy : y < m) :
    mon len mc m x y * 2 ^ (32 * len) ≡ x * y [MOD m]

/-! ## Digits and bits -/

theorem countBits_le {x k : Nat} : countBits x ≤ k ↔ x < 2 ^ k := Nat.size_le

theorem lowWord_eq (n : Nat) : lowWord n = BitVec.ofNat 32 n := by
  unfold lowWord
  split
  · apply BitVec.eq_of_getLsbD_eq
    intro i hi
    simp only [BitVec.getLsbD_or, BitVec.getLsbD_shiftLeft, BitVec.getLsbD_ofNat, dp, Nat.mul_zero,
      Nat.pow_zero, Nat.div_one, Nat.mul_one, Nat.testBit_mod_two_pow, Nat.testBit_div_two_pow, hi,
      decide_true, Bool.true_and]
    by_cases hlow : i < 28
    · simp [hlow]
    · simp [hlow, show i - 28 < 32 by omega, show i - 28 < 28 by omega,
        show i - 28 + 28 = i by omega]
  · rename_i hused
    have hlt : n < 2 ^ 28 := countBits_le.mp (by unfold used at hused; omega)
    rw [dp, Nat.mul_zero, Nat.pow_zero, Nat.div_one, Nat.mod_eq_of_lt hlt]

theorem int16_small {i : Nat} (hi : i < 32768) : int16 i = i := by
  exact Int.bmod_eq_of_le (by omega) (by omega)

/-- A bit of the exponent that the index can name. -/
theorem getBit_small {e i : Nat} (hi : i < 32768) (hbit : i < countBits e) :
    pstmGetBit e (int16 i) = some (e.testBit i) := by
  have hn : (i : Int).tdiv 28 = ((i / 28 : Nat) : Int) := (Int.ofNat_tdiv i 28).symm
  have hm : (i : Int).tmod 28 = ((i % 28 : Nat) : Int) := (Int.ofNat_tmod i 28).symm
  have hused : i / 28 < used e := by
    unfold used
    omega
  unfold pstmGetBit
  rw [int16_small hi, hn, hm]
  simp only []
  rw [if_neg (by omega), if_neg (by omega), Int.toNat_natCast, Int.toNat_natCast, dp,
    Nat.testBit_mod_two_pow, Nat.testBit_div_two_pow]
  simp only [show i % 28 < 28 by omega, decide_true, Bool.true_and,
    show i % 28 + 28 * (i / 28) = i by omega]

/-- The first index that is negative as a 16-bit number. -/
theorem getBit_32768 {e : Nat} (he : countBits e ≠ 0) : pstmGetBit e (int16 32768) = none := by
  have hindex : int16 32768 = -32768 := by decide
  have hused : used e ≠ 0 := by
    unfold used
    omega
  unfold pstmGetBit
  rw [hindex, if_neg hused, if_pos (.inl (by decide))]

/-! ## The loop -/

section Loop

variable {mon : MonMul} {n len a v : Nat} {mc : BitVec 32}

/-- The accelerator is set up for the modulus `n`, B stands for the base `a`, and the buffer with the
power stands for `v`. -/
structure Holds (n len : Nat) (mc : BitVec 32) (a v : Nat) (p : Rsa × Bool) : Prop where
  rsan : p.1.rsan = len
  rsamc : p.1.rsamc = mc
  mbuf : p.1.mbuf = n
  base : InForm n (2 ^ (32 * len)) a p.1.ybuf
  power : InForm n (2 ^ (32 * len)) v (powerBuf p)

/-- The modulus is odd and fits its words, and `mc` belongs to it. -/
structure Modulus (n len : Nat) (mc : BitVec 32) : Prop where
  mc_eq : mc * BitVec.ofNat 32 n = -1#32
  fits : n < 2 ^ (32 * len)
  odd : Nat.gcd n (2 ^ (32 * len)) = 1

theorem product_inForm (hmon : Montgomery mon) (hmod : Modulus n len mc) {w x y : Nat}
    (hx : InForm n (2 ^ (32 * len)) v x) (hy : InForm n (2 ^ (32 * len)) w y) :
    InForm n (2 ^ (32 * len)) (v * w) (mon len mc n x y) :=
  hx.mul hmod.odd hy (hmon.lt hmod.mc_eq hmod.fits hx.lt hy.lt)
    (hmon.modEq hmod.mc_eq hmod.fits hx.lt hy.lt)

theorem expSquare_holds (hmon : Montgomery mon) (hmod : Modulus n len mc) {p : Rsa × Bool}
    (h : Holds n len mc a v p) : Holds n len mc a (v * v) (expSquare mon p) := by
  obtain ⟨s, flag⟩ := p
  have hprod := product_inForm hmon hmod h.power h.power
  obtain ⟨hlen, hmc, hm, hb, _⟩ := h
  simp only at hlen hmc hm
  cases flag with
  | false =>
    refine ⟨hlen, hmc, hm, hb, ?_⟩
    simp only [expSquare, rsaMonMulAA, powerBuf, hlen, hmc, hm] at hprod ⊢
    exact hprod
  | true =>
    refine ⟨hlen, hmc, hm, hb, ?_⟩
    simp only [expSquare, rsaMonMulDD, powerBuf, hlen, hmc, hm] at hprod ⊢
    exact hprod

/-- The operands stand the other way round when the power is in D. -/
theorem expMul_holds (hmon : Montgomery mon) (hmod : Modulus n len mc) {p : Rsa × Bool}
    (h : Holds n len mc a v p) : Holds n len mc a (v * a) (expMul mon p) := by
  obtain ⟨s, flag⟩ := p
  have hprod := product_inForm hmon hmod h.power h.base
  have hprod' := product_inForm hmon hmod h.base h.power
  obtain ⟨hlen, hmc, hm, hb, _⟩ := h
  simp only at hlen hmc hm
  cases flag with
  | false =>
    refine ⟨hlen, hmc, hm, hb, ?_⟩
    simp only [expMul, rsaMonMulAB, powerBuf, hlen, hmc, hm] at hprod ⊢
    exact hprod
  | true =>
    refine ⟨hlen, hmc, hm, hb, ?_⟩
    rw [Nat.mul_comm a v] at hprod'
    simp only [expMul, rsaMonMulBD, powerBuf, hlen, hmc, hm] at hprod' ⊢
    exact hprod'

/-- A pass moves the power one bit further into the exponent. -/
theorem expLoop_holds (hmon : Montgomery mon) (hmod : Modulus n len mc) {e : Nat} :
    ∀ i, i ≤ countBits e → i ≤ 32768 → ∀ p, Holds n len mc a (a ^ (e / 2 ^ i)) p →
      ∃ p', expLoop mon e i p = some p' ∧ Holds n len mc a (a ^ e) p' := by
  intro i
  induction i with
  | zero =>
    intro _ _ p h
    rw [Nat.pow_zero, Nat.div_one] at h
    exact ⟨p, rfl, h⟩
  | succ i ih =>
    intro hbits hi p h
    have hsquare := expSquare_holds hmon hmod h
    have hpow := pow_div_two_pow a e i
    rw [expLoop, getBit_small (by omega) (by omega)]
    simp only []
    apply ih (by omega) (by omega)
    cases hbit : e.testBit i
    · rw [hbit, if_neg (by decide), Nat.mul_one] at hpow
      rw [hpow]
      exact hsquare
    · rw [hbit, if_pos rfl] at hpow
      rw [hpow]
      exact expMul_holds hmon hmod hsquare

/-- A longer exponent brings the loop to an index outside the digits. -/
theorem expLoop_long {e : Nat} : ∀ i, 32768 < i → i ≤ countBits e → ∀ p,
    expLoop mon e i p = none := by
  intro i
  induction i with
  | zero => intro hi; omega
  | succ i ih =>
    intro hi hbits p
    rw [expLoop]
    by_cases hfirst : i = 32768
    · have hnone : pstmGetBit e (int16 (i : Nat)) = none := by
        rw [hfirst]
        exact getBit_32768 (by omega)
      rw [hnone]
    · cases pstmGetBit e (int16 i) with
      | none => rfl
      | some bit => exact ih (by omega) (by omega) _

/-! ## Before and behind the loop -/

theorem write_ok {x : Nat} (hx : x < 2 ^ 2048) (w : Buf) (s : Rsa) :
    rsaMulModWrite w x s = some (s.load x w) := if_neg (Nat.not_le.mpr hx)

/-- The number of words of a modulus. -/
def wordsOf (n : Nat) : Nat := countBits n / 32 + if countBits n % 32 = 0 then 0 else 1

theorem modulus_of {n : Nat} (hodd : n % 2 = 1) : Modulus n (wordsOf n) (rsaCalMc (lowWord n)) := by
  have hlow : (lowWord n).toNat % 2 = 1 := by
    rw [lowWord_eq, BitVec.toNat_ofNat]
    omega
  refine ⟨?_, ?_, ?_⟩
  · have hmc := rsaCalMc_spec hlow
    rw [lowWord_eq] at hmc ⊢
    exact hmc
  · apply countBits_le.mp
    unfold wordsOf
    split <;> omega
  · apply Nat.Coprime.pow_right
    rw [Nat.Coprime, Nat.gcd_comm, Nat.gcd_rec, hodd, Nat.gcd_one_left]

theorem setup_holds {n a : Nat} (hn : 0 < n) (hsize : n < 2 ^ 2048) (hodd : n % 2 = 1) (s : Rsa) :
    ∃ s', expSetup a n s = some s' ∧
      Holds n (wordsOf n) (rsaCalMc (lowWord n)) a 1 (s', false) := by
  have hmod := modulus_of hodd
  have hbits : countBits n ≤ 2048 := countBits_le.mpr hsize
  have hk : (countBits n / 32 + if 0 < countBits n % 32 then 1 else 0) * 32 = 32 * wordsOf n := by
    unfold wordsOf
    split <;> split <;> omega
  have hwords : wordsOf n ≤ 64 := by
    unfold wordsOf
    split <;> omega
  have hr : (int16 ((32 * wordsOf n : Nat) : Int)).toNat = 32 * wordsOf n := by
    rw [int16_small (by omega), Int.toNat_natCast]
  have hlt : ∀ x, x % n < 2 ^ 2048 := fun x => Nat.lt_trans (Nat.mod_lt _ hn) hsize
  have hfit : ∀ x, x % n % 2 ^ (32 * wordsOf n) = x % n := fun x =>
    Nat.mod_eq_of_lt (Nat.lt_trans (Nat.mod_lt _ hn) hmod.fits)
  unfold expSetup
  simp only [hk, hr]
  simp only [write_ok hsize, write_ok (hlt _), Option.bind_eq_bind, Option.bind_some]
  refine ⟨_, rfl, rfl, rfl, ?_, ?_, ?_⟩
  · exact Nat.mod_eq_of_lt hmod.fits
  · have hbase := InForm.of (R := 2 ^ (32 * wordsOf n)) hn a
    rw [← hfit] at hbase
    exact hbase
  · have hone := InForm.one (R := 2 ^ (32 * wordsOf n)) hn
    rw [← hfit] at hone
    exact hone

theorem finish_eq (hmon : Montgomery mon) (hmod : Modulus n len mc) (hn : 1 < n)
    (hsize : n < 2 ^ 2048) {p : Rsa × Bool} (h : Holds n len mc a v p) :
    expFinish mon p = some (v % n) := by
  obtain ⟨s, flag⟩ := p
  obtain ⟨hlen, hmc, hm, _, hpow⟩ := h
  simp only at hlen hmc hm
  have hone : 1 % 2 ^ (32 * len) = 1 := Nat.mod_eq_of_lt (Nat.lt_trans hn hmod.fits)
  have hread : ∀ z, z < n → z * 2 ^ (32 * len) ≡ powerBuf (s, flag) * 1 [MOD n] →
      z % 2 ^ (32 * len) = v % n := by
    intro z hz hprod
    rw [Nat.mod_eq_of_lt (Nat.lt_trans hz hmod.fits)]
    exact hpow.out hmod.odd hz hprod
  unfold expFinish
  rw [write_ok (Nat.lt_trans hn hsize), Option.bind_eq_bind, Option.bind_some]
  cases flag with
  | false =>
    have hz := hread _ (hmon.lt hmod.mc_eq hmod.fits hpow.lt hn)
      (hmon.modEq hmod.mc_eq hmod.fits hpow.lt hn)
    simp only [powerBuf] at hz
    simp only [expMul, rsaMonMulAB, powerBuf, Rsa.load, Rsa.words, hlen, hmc, hm, hone, hz]
  | true =>
    have hprod := hmon.modEq hmod.mc_eq hmod.fits hn hpow.lt
    rw [Nat.mul_comm 1] at hprod
    have hz := hread _ (hmon.lt hmod.mc_eq hmod.fits hn hpow.lt) hprod
    simp only [powerBuf] at hz
    simp only [expMul, rsaMonMulBD, powerBuf, Rsa.load, Rsa.words, hlen, hmc, hm, hone, hz]

end Loop

/-! ## The whole function -/

section Whole

variable {mon : MonMul} {a e n : Nat}

theorem exptmod_short (hmon : Montgomery mon) (hn : 1 < n) (hsize : n < 2 ^ 2048)
    (hodd : n % 2 = 1) (he : countBits e ≤ 32768) (s : Rsa) :
    tlsCryptoExptmod mon a e n s = some (a ^ e % n) := by
  obtain ⟨s', hsetup, hstart⟩ := setup_holds (a := a) (by omega) hsize hodd s
  have hzero : e / 2 ^ countBits e = 0 := Nat.div_eq_of_lt (countBits_le.mp (Nat.le_refl _))
  have hpow : a ^ (e / 2 ^ countBits e) = 1 := by rw [hzero, Nat.pow_zero]
  rw [← hpow] at hstart
  obtain ⟨p', hloop, hend⟩ :=
    expLoop_holds hmon (modulus_of hodd) (countBits e) (Nat.le_refl _) he _ hstart
  unfold tlsCryptoExptmod
  rw [hsetup, Option.bind_eq_bind, Option.bind_some, hloop, Option.bind_eq_bind, Option.bind_some]
  exact finish_eq hmon (modulus_of hodd) hn hsize hend

theorem exptmod_long (he : 32768 < countBits e) (s : Rsa) : tlsCryptoExptmod mon a e n s = none := by
  unfold tlsCryptoExptmod
  cases expSetup a n s with
  | none => rfl
  | some s' =>
    rw [Option.bind_eq_bind, Option.bind_some, expLoop_long _ he (Nat.le_refl _)]
    rfl

/-- `tls_crypto_exptmod` computes the power exactly for the exponents of at most 32768 bits, whose bits
the 16-bit index of `pstm_get_bit` reaches. -/
theorem exptmod_iff (hmon : Montgomery mon) (hn : 1 < n) (hsize : n < 2 ^ 2048) (hodd : n % 2 = 1)
    (a e : Nat) (s : Rsa) :
    (tlsCryptoExptmod mon a e n s = some (a ^ e % n) ↔ e < 2 ^ 32768) ∧
      ∀ n0 : BitVec 32, n0.toNat % 2 = 1 → rsaCalMc n0 * n0 = -1#32 := by
  refine ⟨?_, fun n0 h => rsaCalMc_spec h⟩
  constructor
  · intro h
    rcases Nat.lt_or_ge 32768 (countBits e) with hlong | hshort
    · rw [exptmod_long hlong] at h
      cases h
    · exact countBits_le.mp hshort
  · intro he
    exact exptmod_short hmon hn hsize hodd (countBits_le.mpr he) s

end Whole

/-! ## An accelerator -/

/-- The word-serial Montgomery product. -/
def softMonMul : MonMul := fun len mc m x y =>
  let t := redc (2 ^ 32) mc.toNat m len (x * y)
  if m ≤ t then t - m else t

theorem softMonMul_montgomery : Montgomery softMonMul := by
  have hinv : ∀ {mc : BitVec 32} {m : Nat}, mc * BitVec.ofNat 32 m = -1#32 →
      (mc.toNat * m + 1) % 2 ^ 32 = 0 := by
    intro mc m h
    have hnat := congrArg BitVec.toNat h
    rw [BitVec.toNat_mul, BitVec.toNat_ofNat, Nat.mul_mod_mod] at hnat
    have hneg : (-1#32).toNat = 2 ^ 32 - 1 := by decide
    rw [hneg] at hnat
    omega
  have hlt : ∀ {len : Nat} {mc : BitVec 32} {m x y : Nat}, mc * BitVec.ofNat 32 m = -1#32 →
      m < 2 ^ (32 * len) → x < m → y < m → redc (2 ^ 32) mc.toNat m len (x * y) < 2 * m := by
    intro len mc m x y hmc hm hx hy
    apply redc_lt (by omega) (hinv hmc)
    rw [← Nat.pow_mul]
    calc x * y < m * m := Nat.mul_lt_mul'' hx hy
      _ ≤ m * (2 ^ (32 * len) + 1) := Nat.mul_le_mul_left m (by omega)
  constructor
  · intro len mc m x y hmc hm hx hy
    have := hlt hmc hm hx hy
    unfold softMonMul
    simp only []
    split <;> omega
  · intro len mc m x y hmc hm hx hy
    have hmod := redc_modEq (hinv hmc) len (x * y)
    rw [← Nat.pow_mul] at hmod
    unfold softMonMul
    simp only []
    split
    · rename_i hge
      have hsub : redc (2 ^ 32) mc.toNat m len (x * y) - m ≡
          redc (2 ^ 32) mc.toNat m len (x * y) [MOD m] := by
        rw [Nat.ModEq, ← Nat.mod_eq_sub_mod hge]
      exact (hsub.mul_right _).trans hmod
    · exact hmod

/-- An accelerator after a reset. -/
def rsaReset : Rsa := { xbuf := 0, ybuf := 0, mbuf := 0, dbuf := 0, rsan := 0, rsamc := 0#32 }

theorem seven_lt {k : Nat} (hk : 3 ≤ k) : 7 < 2 ^ k :=
  Nat.lt_of_lt_of_le (show 7 < 2 ^ 3 by omega) (Nat.pow_le_pow_right (by omega) hk)

theorem exptmod_iff_small :
    (tlsCryptoExptmod softMonMul 3 5 7 rsaReset = some (3 ^ 5 % 7) ↔ 5 < 2 ^ 32768) ∧
      ∀ n0 : BitVec 32, n0.toNat % 2 = 1 → rsaCalMc n0 * n0 = -1#32 :=
  exptmod_iff softMonMul_montgomery (by omega) (seven_lt (by omega)) rfl 3 5 rsaReset

/-- The exponent `2 ^ 32768` has one bit too many. -/
theorem exptmod_long_exponent :
    ¬ ∀ e, tlsCryptoExptmod softMonMul 2 e 3 rsaReset = some (2 ^ e % 3) := by
  intro h
  have hlong : 32768 < countBits (2 ^ 32768) := by
    rw [← Nat.not_le, countBits_le]
    exact Nat.lt_irrefl _
  have hnone : tlsCryptoExptmod softMonMul 2 (2 ^ 32768) 3 rsaReset = none := exptmod_long hlong _
  rw [h] at hnone
  cases hnone

end Crypto
end Air101

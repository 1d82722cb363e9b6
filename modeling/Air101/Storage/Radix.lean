import Air101.Storage.Bytes
import Mathlib.Data.Nat.Digits.Lemmas

/-!
# Storage.Radix

Numbers as characters in a base up to 36, most significant digit first.

* `digit upper d`: the character of a digit. `digitval c`: the digit of a character, if it is one.
* `radix upper b n`: the characters of a number. `number b cs`: the number of the characters.
* `number_radix`: what is written reads back.
* `radix_length_le`: how many characters a number below a power of the base takes.
-/

namespace Storage

/-- The character of a digit; letters stand for the digits from ten on. -/
def digit (upper : Bool) (d : Nat) : Byte :=
  if d < 10 then BitVec.ofNat 8 (0x30 + d)
  else BitVec.ofNat 8 ((if upper then 0x41 else 0x61) + d - 10)

/-- The digit of a character: a decimal digit, or a letter of either case. -/
def digitval (c : Byte) : Option Nat :=
  if 0x30 ≤ c.toNat ∧ c.toNat ≤ 0x39 then some (c.toNat - 0x30)
  else if 0x41 ≤ c.toNat ∧ c.toNat ≤ 0x5A then some (c.toNat - 0x41 + 10)
  else if 0x61 ≤ c.toNat ∧ c.toNat ≤ 0x7A then some (c.toNat - 0x61 + 10)
  else none

theorem digit_toNat (upper : Bool) {d : Nat} (h : d < 36) :
    (digit upper d).toNat = if d < 10 then 0x30 + d else (if upper then 0x41 else 0x61) + d - 10 := by
  rw [digit]
  split
  · rw [BitVec.toNat_ofNat]
    omega
  · cases upper with
    | false =>
      rw [BitVec.toNat_ofNat]
      simp only [Bool.false_eq_true, if_false]
      omega
    | true =>
      rw [BitVec.toNat_ofNat]
      simp only [if_true]
      omega

@[simp] theorem digitval_digit (upper : Bool) {d : Nat} (h : d < 36) :
    digitval (digit upper d) = some d := by
  rw [digitval, digit_toNat upper h]
  by_cases h10 : d < 10
  · rw [if_pos h10, if_pos (by omega)]
    congr 1
    omega
  · rw [if_neg h10]
    cases upper with
    | false =>
      simp only [Bool.false_eq_true, if_false]
      rw [if_neg (by omega), if_neg (by omega), if_pos (by omega)]
      congr 1
      omega
    | true =>
      simp only [if_true]
      rw [if_neg (by omega), if_pos (by omega)]
      congr 1
      omega

/-- The characters of a number, without leading zeros. -/
def radix (upper : Bool) (b n : Nat) : List Byte :=
  if n = 0 then [digit upper 0] else ((Nat.digits b n).map (digit upper)).reverse

/-- The number of the characters; each of them is a digit of the base. -/
def number (b : Nat) (cs : List Byte) : Nat :=
  cs.foldl (fun n c => n * b + (digitval c).getD 0) 0

/-- All characters are digits of the base. -/
def Numeral (b : Nat) (cs : List Byte) : Prop := ∀ c ∈ cs, ∃ d, digitval c = some d ∧ d < b

theorem number_append (b : Nat) (cs : List Byte) (c : Byte) :
    number b (cs ++ [c]) = number b cs * b + (digitval c).getD 0 := by
  simp [number]

theorem number_cons (b : Nat) (c : Byte) (cs : List Byte) :
    number b (c :: cs) = (digitval c).getD 0 * b ^ cs.length + number b cs := by
  induction cs using List.reverseRecOn with
  | nil => simp [number]
  | append_singleton cs d ih =>
    rw [← List.cons_append, number_append, number_append, ih, List.length_append,
      List.length_singleton, Nat.pow_succ, Nat.add_mul, Nat.mul_assoc, Nat.add_assoc]

theorem number_zeros (b k : Nat) (cs : List Byte) :
    number b (List.replicate k 0x30#8 ++ cs) = number b cs := by
  induction k with
  | zero => rfl
  | succ k ih =>
    have hzero : digitval 0x30#8 = some 0 := by decide
    rw [List.replicate_succ, List.cons_append]
    rw [number, number] at *
    rw [List.foldl_cons, hzero]
    simpa using ih

theorem Numeral.append {b : Nat} {cs ds : List Byte} (h1 : Numeral b cs) (h2 : Numeral b ds) :
    Numeral b (cs ++ ds) := by
  intro c hc
  rcases List.mem_append.mp hc with hc | hc
  · exact h1 c hc
  · exact h2 c hc

theorem numeral_zeros {b : Nat} (hb : 0 < b) (k : Nat) : Numeral b (List.replicate k 0x30#8) := by
  intro c hc
  rw [List.eq_of_mem_replicate hc]
  exact ⟨0, by decide, hb⟩

section Radix

variable {b : Nat}

theorem radix_zero (upper : Bool) (b : Nat) : radix upper b 0 = [digit upper 0] := rfl

theorem radix_pos (upper : Bool) (hb : 2 ≤ b) {n : Nat} (hn : 0 < n) :
    radix upper b n =
      (if n / b = 0 then [] else radix upper b (n / b)) ++ [digit upper (n % b)] := by
  rw [radix, if_neg (by omega), Nat.digits_of_two_le_of_pos hb hn, List.map_cons, List.reverse_cons]
  split
  case isTrue h => rw [h, Nat.digits_zero, List.map_nil, List.reverse_nil]
  case isFalse h => rw [radix, if_neg h]

theorem radix_ne_nil (upper : Bool) (b n : Nat) : radix upper b n ≠ [] := by
  rw [radix]
  split
  · simp
  case isFalse h => simpa using Nat.digits_ne_nil_iff_ne_zero.mpr h

theorem radix_numeral (upper : Bool) (hb : 2 ≤ b) (hb36 : b ≤ 36) (n : Nat) :
    Numeral b (radix upper b n) := by
  intro c hc
  rw [radix] at hc
  split at hc
  · rw [List.mem_singleton.mp hc]
    exact ⟨0, digitval_digit upper (by omega), by omega⟩
  · obtain ⟨d, hd, rfl⟩ := List.mem_map.mp (List.mem_reverse.mp hc)
    have hlt := Nat.digits_lt_base hb hd
    exact ⟨d, digitval_digit upper (by omega), hlt⟩

/-- What is written reads back. -/
theorem number_radix (upper : Bool) (hb : 2 ≤ b) (hb36 : b ≤ 36) (n : Nat) :
    number b (radix upper b n) = n := by
  induction n using Nat.strong_induction_on with
  | _ n ih =>
    rcases Nat.eq_zero_or_pos n with rfl | hn
    · rw [radix_zero, number, List.foldl_cons, List.foldl_nil, digitval_digit upper (by omega)]
      simp
    · have hlt : n / b < n := Nat.div_lt_self hn (by omega)
      have hmod : n % b < b := Nat.mod_lt n (by omega)
      have hdiv := Nat.div_add_mod n b
      rw [radix_pos upper hb hn, number_append, digitval_digit upper (by omega), Option.getD_some]
      split
      case isTrue hz =>
        rw [hz] at hdiv
        rw [number, List.foldl_nil]
        omega
      case isFalse =>
        rw [ih _ hlt, Nat.mul_comm]
        exact hdiv

theorem radix_length_le (upper : Bool) (hb : 2 ≤ b) {n k : Nat} (hk : 0 < k) (hn : n < b ^ k) :
    (radix upper b n).length ≤ k := by
  rw [radix]
  split
  · exact hk
  · rw [List.length_reverse, List.length_map]
    exact (Nat.digits_length_le_iff hb n).mpr hn

end Radix

end Storage

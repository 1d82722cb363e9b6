import Air101.Storage.Nor

/-!
# Storage.Bytes

Little-endian numbers in byte lists, and fields of packed records.

* `leNat`, `leBytes`: a number from its bytes and back (`leNat_leBytes`, `leBytes_leNat`).
* `field bs k n`: the number in the `n` bytes of the record `bs` at offset `k`.
* `cstr bs`: the C string at the start of `bs`.
-/

namespace Storage

/-- The number with the given bytes, least significant first. -/
def leNat : List Byte → Nat
  | [] => 0
  | b :: bs => b.toNat + 256 * leNat bs

/-- The `n` bytes of a number, least significant first; what does not fit is dropped. -/
def leBytes : Nat → Nat → List Byte
  | 0, _ => []
  | n + 1, v => BitVec.ofNat 8 v :: leBytes n (v / 256)

/-- The number in the `n` bytes of the record `bs` at offset `k`. -/
def field (bs : List Byte) (k n : Nat) : Nat := leNat ((bs.drop k).take n)

/-- A C string: the bytes in front of the first NUL. -/
def cstr (bs : List Byte) : List Byte := bs.takeWhile (· ≠ 0#8)

/-- A C string ends at its NUL, whatever follows. -/
theorem cstr_append (bs rest : List Byte) : cstr (cstr bs ++ 0#8 :: rest) = cstr bs := by
  induction bs with
  | nil => rfl
  | cons b bs ih =>
    by_cases h : b = 0#8
    · subst h
      rfl
    · have hcons : cstr (b :: bs) = b :: cstr bs := List.takeWhile_cons_of_pos (by simpa using h)
      rw [hcons, List.cons_append]
      unfold cstr at ih ⊢
      rw [List.takeWhile_cons_of_pos (by simpa using h), ih]

@[simp] theorem leBytes_length (n v : Nat) : (leBytes n v).length = n := by
  induction n generalizing v with
  | zero => rfl
  | succ n ih => rw [leBytes, List.length_cons, ih]

theorem leNat_leBytes {n v : Nat} (h : v < 256 ^ n) : leNat (leBytes n v) = v := by
  induction n generalizing v with
  | zero =>
    simp at h
    simp [leBytes, leNat, h]
  | succ n ih =>
    rw [Nat.pow_succ] at h
    rw [leBytes, leNat, ih (by omega), BitVec.toNat_ofNat]
    omega

theorem leNat_lt (bs : List Byte) : leNat bs < 256 ^ bs.length := by
  induction bs with
  | nil => simp [leNat]
  | cons b bs ih =>
    have hb : b.toNat < 256 := b.isLt
    rw [leNat, List.length_cons, Nat.pow_succ]
    omega

theorem leBytes_leNat (bs : List Byte) : leBytes bs.length (leNat bs) = bs := by
  induction bs with
  | nil => rfl
  | cons b bs ih =>
    have hb : b.toNat < 256 := b.isLt
    rw [List.length_cons, leNat, leBytes]
    have hlow : BitVec.ofNat 8 (b.toNat + 256 * leNat bs) = b := by
      apply BitVec.eq_of_toNat_eq
      rw [BitVec.toNat_ofNat]
      omega
    rw [hlow, show (b.toNat + 256 * leNat bs) / 256 = leNat bs by omega, ih]

theorem leBytes_add (m n v : Nat) : leBytes (m + n) v = leBytes m v ++ leBytes n (v / 256 ^ m) := by
  induction m generalizing v with
  | zero => simp [leBytes]
  | succ m ih =>
    rw [Nat.succ_add, leBytes, leBytes, ih, Nat.div_div_eq_div_mul, Nat.pow_succ', List.cons_append]

theorem leBytes_mod (n v : Nat) : leBytes n (v % 256 ^ n) = leBytes n v := by
  induction n generalizing v with
  | zero => rfl
  | succ n ih =>
    have hdvd : 256 ∣ 256 ^ (n + 1) := ⟨256 ^ n, Nat.pow_succ'⟩
    have hlow : BitVec.ofNat 8 (v % 256 ^ (n + 1)) = BitVec.ofNat 8 v := by
      apply BitVec.eq_of_toNat_eq
      rw [BitVec.toNat_ofNat, BitVec.toNat_ofNat]
      exact Nat.mod_mod_of_dvd v hdvd
    have hhigh : v % 256 ^ (n + 1) / 256 = v / 256 % 256 ^ n := by
      rw [Nat.pow_succ', Nat.mod_mul_right_div_self]
    rw [leBytes, leBytes, hlow, hhigh, ih]

/-! ## Fields -/

theorem field_lt (bs : List Byte) (k n : Nat) : field bs k n < 256 ^ n := by
  apply Nat.lt_of_lt_of_le (leNat_lt _)
  apply Nat.pow_le_pow_right (by omega)
  rw [List.length_take]
  omega

end Storage

import Air101.Storage.Bytes

/-!
# Storage.Blocks

A list cut into blocks of `k` elements: `blocks k xs` are the whole blocks and `rest k xs` is what
lies behind them. A reader that keeps `rest` in a buffer and hands over the whole blocks sees every
list as it would see the parts one after the other (`blocks_append`, `rest_append`).

`pad` is the padding of the block hashes: a bit one, zeros up to eight bytes in front of a block's
end, and eight bytes for the length.
-/

namespace Storage

section Cut

variable {α : Type}

/-- The first `n` blocks. -/
def blocksN (k : Nat) : Nat → List α → List (List α)
  | 0, _ => []
  | n + 1, xs => xs.take k :: blocksN k n (xs.drop k)

/-- The whole blocks of a list. -/
def blocks (k : Nat) (xs : List α) : List (List α) := blocksN k (xs.length / k) xs

/-- What lies behind the whole blocks. -/
def rest (k : Nat) (xs : List α) : List α := xs.drop (xs.length / k * k)

variable {k : Nat}

theorem rest_length (xs : List α) : (rest k xs).length = xs.length % k := by
  have := Nat.div_add_mod' xs.length k
  rw [rest, List.length_drop]
  omega

theorem blocks_short {xs : List α} (h : xs.length < k) : blocks k xs = [] := by
  rw [blocks, Nat.div_eq_of_lt h, blocksN]

theorem rest_short {xs : List α} (h : xs.length < k) : rest k xs = xs := by
  rw [rest, Nat.div_eq_of_lt h, Nat.zero_mul, List.drop_zero]

theorem div_succ (hk : 0 < k) {xs : List α} (h : k ≤ xs.length) :
    xs.length / k = (xs.drop k).length / k + 1 := by
  rw [List.length_drop, Nat.div_eq_sub_div hk h]

theorem le_of_div_succ {xs : List α} {n : Nat} (h : xs.length / k = n + 1) : k ≤ xs.length := by
  rcases Nat.lt_or_ge xs.length k with hlt | hle
  · rw [Nat.div_eq_of_lt hlt] at h
    omega
  · exact hle

theorem blocks_long (hk : 0 < k) {xs : List α} (h : k ≤ xs.length) :
    blocks k xs = xs.take k :: blocks k (xs.drop k) := by
  rw [blocks, div_succ hk h, blocksN, blocks]

theorem rest_long (hk : 0 < k) {xs : List α} (h : k ≤ xs.length) :
    rest k xs = rest k (xs.drop k) := by
  rw [rest, rest, div_succ hk h, List.drop_drop, Nat.add_mul, Nat.one_mul, Nat.add_comm]

theorem blocks_full (hk : 0 < k) {xs : List α} (h : xs.length = k) : blocks k xs = [xs] := by
  have hnone : (xs.drop k).length < k := by
    rw [List.length_drop]
    omega
  rw [blocks_long hk (Nat.le_of_eq h.symm), blocks_short hnone, List.take_of_length_le (Nat.le_of_eq h)]

theorem rest_full (hk : 0 < k) {xs : List α} (h : xs.length = k) : rest k xs = [] := by
  rw [rest, h, Nat.div_self hk, Nat.one_mul, List.drop_of_length_le (Nat.le_of_eq h)]

/-- The blocks of two parts are those of the first and those of its rest with the second. -/
theorem blocks_append (hk : 0 < k) (xs ys : List α) :
    blocks k (xs ++ ys) = blocks k xs ++ blocks k (rest k xs ++ ys) := by
  induction hn : xs.length / k generalizing xs with
  | zero =>
    have hlt : xs.length < k := (Nat.div_eq_zero_iff_lt hk).mp hn
    rw [blocks_short hlt, rest_short hlt, List.nil_append]
  | succ n ih =>
    have hle := le_of_div_succ hn
    have htail := ih (xs.drop k) (by rw [div_succ hk hle] at hn; omega)
    have hle' : k ≤ (xs ++ ys).length := by
      rw [List.length_append]
      omega
    rw [blocks_long hk hle', List.take_append_of_le_length hle, List.drop_append_of_le_length hle,
      htail, blocks_long hk hle, rest_long hk hle, List.cons_append]

theorem rest_append (hk : 0 < k) (xs ys : List α) : rest k (xs ++ ys) = rest k (rest k xs ++ ys) := by
  induction hn : xs.length / k generalizing xs with
  | zero =>
    have hlt : xs.length < k := (Nat.div_eq_zero_iff_lt hk).mp hn
    rw [rest_short hlt]
  | succ n ih =>
    have hle := le_of_div_succ hn
    have htail := ih (xs.drop k) (by rw [div_succ hk hle] at hn; omega)
    have hle' : k ≤ (xs ++ ys).length := by
      rw [List.length_append]
      omega
    rw [rest_long hk hle', List.drop_append_of_le_length hle, htail, rest_long hk hle]

/-- The blocks and the rest are the list. -/
theorem blocks_flatten (hk : 0 < k) (xs : List α) : (blocks k xs).flatten ++ rest k xs = xs := by
  induction hn : xs.length / k generalizing xs with
  | zero =>
    have hlt : xs.length < k := (Nat.div_eq_zero_iff_lt hk).mp hn
    rw [blocks_short hlt, rest_short hlt, List.flatten_nil, List.nil_append]
  | succ n ih =>
    have hle := le_of_div_succ hn
    have htail := ih (xs.drop k) (by rw [div_succ hk hle] at hn; omega)
    rw [blocks_long hk hle, rest_long hk hle, List.flatten_cons, List.append_assoc, htail,
      List.take_append_drop]

theorem block_length (hk : 0 < k) (xs : List α) : ∀ b ∈ blocks k xs, b.length = k := by
  induction hn : xs.length / k generalizing xs with
  | zero =>
    rw [blocks_short ((Nat.div_eq_zero_iff_lt hk).mp hn)]
    intro b hb
    exact absurd hb List.not_mem_nil
  | succ n ih =>
    have hle := le_of_div_succ hn
    have htail := ih (xs.drop k) (by rw [div_succ hk hle] at hn; omega)
    rw [blocks_long hk hle]
    intro b hb
    cases List.mem_cons.mp hb with
    | inl he => rw [he, List.length_take, Nat.min_eq_left hle]
    | inr hin => exact htail b hin

theorem blocks_one (hk : 0 < k) {xs ys : List α} (hx : xs.length = k) (hy : ys.length < k) :
    blocks k (xs ++ ys) = [xs] := by
  rw [blocks_append hk, rest_full hk hx, List.nil_append, blocks_short hy, List.append_nil,
    blocks_full hk hx]

theorem rest_one (hk : 0 < k) {xs ys : List α} (hx : xs.length = k) (hy : ys.length < k) :
    rest k (xs ++ ys) = ys := by
  rw [rest_append hk, rest_full hk hx, List.nil_append, rest_short hy]

end Cut

/-! ## Padding -/

/-- The bytes of a number, most significant first. -/
def beBytes (n v : Nat) : List Byte := (leBytes n v).reverse

/-- The zeros between the bit one and the length, for blocks of 64 bytes: the fewest with which the
message, the byte `0x80`, they and the length are whole blocks. -/
def paddingZeros (len : Nat) : Nat := (119 - len % 64) % 64

/-- The padded message, with the eight bytes `lengthBytes` of the number of its bits. -/
def pad (lengthBytes : Nat → List Byte) (msg : List Byte) : List Byte :=
  msg ++ 0x80#8 :: List.replicate (paddingZeros msg.length) 0#8 ++ lengthBytes (8 * msg.length)

theorem paddingZeros_whole (len : Nat) : (len + 1 + paddingZeros len + 8) % 64 = 0 := by
  unfold paddingZeros
  omega

/-- The padded message is whole blocks. -/
theorem pad_flatten {lengthBytes : Nat → List Byte} (h : ∀ v, (lengthBytes v).length = 8)
    (msg : List Byte) : (blocks 64 (pad lengthBytes msg)).flatten = pad lengthBytes msg := by
  have hall := blocks_flatten (k := 64) (by omega) (pad lengthBytes msg)
  have hwhole := paddingZeros_whole msg.length
  have hnone : (rest 64 (pad lengthBytes msg)).length = 0 := by
    rw [rest_length, pad]
    simp only [List.length_append, List.length_cons, List.length_replicate, h]
    omega
  rwa [List.eq_nil_of_length_eq_zero hnone, List.append_nil] at hall

end Storage

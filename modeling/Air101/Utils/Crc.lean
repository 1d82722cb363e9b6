import Air101.Storage.Crc32
import Mathlib.Data.List.Perm.Basic

/-!
# Utils.Crc

The CRC-32 in software (`platform/common/utils/utils.c`): `_cal_crc32` and `get_crc32`. The
register is kept the other way round, and a byte goes through it in one step: every bit of the new
register is an exclusive or of bits of the byte and of the old register.

* `calCrc32_eq`: a step is the step of the reflected register, seen in reverse.
* `getCrc32_eq`: `get_crc32` is the complement of the reflected CRC-32.
-/

namespace Air101
namespace Utils

open Storage

/-- The right-hand sides of `crc_out[0]` to `crc_out[31]`: indices into `in_data_buf` and
`crc_buf`. -/
def crcOut : List (List Nat × List Nat) :=
  [([1, 7], [30, 24]),
    ([0, 1, 6, 7], [31, 30, 25, 24]),
    ([0, 1, 5, 6, 7], [31, 30, 26, 25, 24]),
    ([0, 4, 5, 6], [31, 27, 26, 25]),
    ([1, 3, 4, 5, 7], [30, 28, 27, 26, 24]),
    ([0, 1, 2, 3, 4, 6, 7], [31, 30, 29, 28, 27, 25, 24]),
    ([0, 1, 2, 3, 5, 6], [31, 30, 29, 28, 26, 25]),
    ([0, 2, 4, 5, 7], [31, 29, 27, 26, 24]),
    ([3, 4, 6, 7], [28, 27, 25, 24, 0]),
    ([2, 3, 5, 6], [29, 28, 26, 25, 1]),
    ([2, 4, 5, 7], [29, 27, 26, 24, 2]),
    ([3, 4, 6, 7], [28, 27, 25, 24, 3]),
    ([1, 2, 3, 5, 6, 7], [30, 29, 28, 26, 25, 24, 4]),
    ([0, 1, 2, 4, 5, 6], [31, 30, 29, 27, 26, 25, 5]),
    ([0, 1, 3, 4, 5], [31, 30, 28, 27, 26, 6]),
    ([0, 2, 3, 4], [31, 29, 28, 27, 7]),
    ([2, 3, 7], [29, 28, 24, 8]),
    ([1, 2, 6], [30, 29, 25, 9]),
    ([0, 1, 5], [31, 30, 26, 10]),
    ([0, 4], [31, 27, 11]),
    ([3], [28, 12]),
    ([2], [29, 13]),
    ([7], [24, 14]),
    ([1, 6, 7], [30, 25, 24, 15]),
    ([0, 5, 6], [31, 26, 25, 16]),
    ([4, 5], [27, 26, 17]),
    ([1, 3, 4, 7], [30, 28, 27, 24, 18]),
    ([0, 2, 3, 6], [31, 29, 28, 25, 19]),
    ([1, 2, 5], [30, 29, 26, 20]),
    ([0, 1, 4], [31, 30, 27, 21]),
    ([0, 3], [31, 28, 22]),
    ([2], [23, 29])]

/-- The exclusive or of a list of bits. -/
def xorAll (bits : List Bool) : Bool := bits.foldr xor false

/-- `crc_out[i]` for the bits of the byte and of the register. -/
def crcOutBit (inDataBuf crcBuf : Nat → Bool) (i : Nat) : Bool :=
  match crcOut[i]? with
  | some (ds, cs) => xorAll (ds.map inDataBuf ++ cs.map crcBuf)
  | none => false

/-- A loop that sets bit `pos i` of a word for every `i` below `n` with `bit i`. -/
def setBits (bit : Nat → Bool) (pos : Nat → Nat) (n : Nat) : BitVec 32 :=
  (List.range n).foldl (fun v i => if bit i then v ||| 1#32 <<< pos i else v) 0#32

/-- `_cal_crc32`. -/
def calCrc32 (crcResult : BitVec 32) (data8 : Byte) : BitVec 32 :=
  setBits (crcOutBit data8.getLsbD crcResult.getLsbD) (fun i => i) 32

/-- `get_crc32`. -/
def getCrc32 (data : List Byte) : BitVec 32 :=
  let crcResult := data.foldl calCrc32 0xFFFFFFFF#32
  ~~~ setBits crcResult.getLsbD (fun i => 31 - i) 32

/-! ## Setting bits -/

theorem setBits_getLsbD (bit : Nat → Bool) (pos : Nat → Nat) (n j : Nat) (hj : j < 32) :
    (setBits bit pos n).getLsbD j = decide (∃ i, i < n ∧ bit i = true ∧ pos i = j) := by
  induction n with
  | zero => simp [setBits]
  | succ n ih =>
    have hstep : setBits bit pos (n + 1) =
        if bit n then setBits bit pos n ||| 1#32 <<< pos n else setBits bit pos n := by
      simp only [setBits, List.range_succ, List.foldl_append, List.foldl_cons, List.foldl_nil]
    have hnew : (1#32 <<< pos n).getLsbD j = decide (pos n = j) := by
      rw [BitVec.getLsbD_shiftLeft, BitVec.getLsbD_one]
      simp only [hj, decide_true, Bool.true_and]
      by_cases hlt : j < pos n
      · simp [hlt]
        omega
      · simp [hlt]
        omega
    rw [hstep]
    cases hb : bit n
    · rw [if_neg (by decide), ih]
      apply decide_eq_decide.mpr
      constructor
      · rintro ⟨i, hi, h⟩
        exact ⟨i, by omega, h⟩
      · rintro ⟨i, hi, h⟩
        refine ⟨i, ?_, h⟩
        have : i ≠ n := fun h0 => by rw [h0, hb] at h; simp at h
        omega
    · rw [if_pos rfl, BitVec.getLsbD_or, ih, hnew, ← Bool.decide_or]
      apply decide_eq_decide.mpr
      constructor
      · rintro (⟨i, hi, h⟩ | h)
        · exact ⟨i, by omega, h⟩
        · exact ⟨n, by omega, hb, h⟩
      · rintro ⟨i, hi, h⟩
        by_cases hin : i = n
        · exact .inr (hin ▸ h.2)
        · exact .inl ⟨i, by omega, h⟩

theorem setBits_id (bit : Nat → Bool) {j : Nat} (hj : j < 32) :
    (setBits bit (fun i => i) 32).getLsbD j = bit j := by
  rw [setBits_getLsbD _ _ _ _ hj]
  cases hb : bit j <;> simp [hb, hj]

theorem setBits_reverse (c : BitVec 32) : setBits c.getLsbD (fun i => 31 - i) 32 = c.reverse := by
  apply BitVec.eq_of_getLsbD_eq
  intro j hj
  have hrev : c.reverse.getLsbD j = c.getLsbD (31 - j) := by
    rw [BitVec.getLsbD_reverse, BitVec.getMsbD]
    simp [hj]
  rw [setBits_getLsbD _ _ _ _ hj, hrev]
  cases hb : c.getLsbD (31 - j)
  · rw [decide_eq_false_iff_not]
    rintro ⟨i, hi, hbit, hpos⟩
    rw [show 31 - j = i by omega, hbit] at hb
    exact absurd hb (by decide)
  · rw [decide_eq_true_iff]
    exact ⟨31 - j, by omega, hb, by omega⟩

/-! ## One step -/

theorem xorAll_append (xs ys : List Bool) : xorAll (xs ++ ys) = xor (xorAll xs) (xorAll ys) := by
  induction xs with
  | nil => simp [xorAll]
  | cons x xs ih =>
    simp only [xorAll, List.cons_append, List.foldr_cons] at ih ⊢
    rw [ih, Bool.xor_assoc]

theorem xorAll_perm {xs ys : List Bool} (h : xs.Perm ys) : xorAll xs = xorAll ys := by
  have : LeftCommutative xor := ⟨Bool.xor_left_comm⟩
  exact h.foldr_eq false

theorem xorAll_map_xor (f g : Nat → Bool) (is : List Nat) :
    xor (xorAll (is.map f)) (xorAll (is.map g)) = xorAll (is.map fun i => xor (f i) (g i)) := by
  induction is with
  | nil => rfl
  | cons i is ih =>
    simp only [xorAll, List.map_cons, List.foldr_cons] at ih ⊢
    rw [← ih, Bool.xor_assoc, Bool.xor_assoc, Bool.xor_left_comm (g i)]

/-- The register bits of an equation: those opposite to its bits of the byte, and from the eighth
equation on the bit eight places lower. -/
theorem crcOut_perm : ∀ i : Fin 32, ∀ t ∈ crcOut[i.val]?,
    t.2.Perm (t.1.map (31 - ·) ++ if 8 ≤ i.val then [i.val - 8] else []) := by
  decide

theorem byte_eq_bits : ∀ x : Byte,
    x = (List.range 8).foldr (fun k y => (if x.getLsbD k then 1#8 <<< k else 0#8) ^^^ y) 0#8 := by
  decide +kernel

theorem byte_xor_induction {P : Byte → Prop} (hzero : P 0#8) (hbit : ∀ k, k < 8 → P (1#8 <<< k))
    (hxor : ∀ x y, P x → P y → P (x ^^^ y)) (x : Byte) : P x := by
  rw [byte_eq_bits x]
  have hfold : ∀ ks : List Nat, (∀ k ∈ ks, k < 8) →
      P (ks.foldr (fun k y => (if x.getLsbD k then 1#8 <<< k else 0#8) ^^^ y) 0#8) := by
    intro ks
    induction ks with
    | nil => intro _; exact hzero
    | cons k ks ih =>
      intro hks
      rw [List.forall_mem_cons] at hks
      rw [List.foldr_cons]
      apply hxor _ _ _ (ih hks.2)
      split
      · exact hbit k hks.1
      · exact hzero
  exact hfold _ fun k hk => List.mem_range.mp hk

theorem table_xor (x y : Byte) : Crc32.table (x ^^^ y) = Crc32.table x ^^^ Crc32.table y := by
  rw [Crc32.table, Crc32.table, Crc32.table, BitVec.setWidth_xor, Crc32.shifts_xor]

theorem crcOut_table (x : Byte) : ∀ (j : Nat) (t : List Nat × List Nat), crcOut[j]? = some t →
    xorAll (t.1.map x.getLsbD) = (Crc32.table x).getLsbD (31 - j) := by
  induction x using byte_xor_induction with
  | hzero =>
    intro j t _
    have hzeros : ∀ is : List Nat, xorAll (is.map (0#8).getLsbD) = false := by
      intro is
      induction is with
      | nil => rfl
      | cons i is ih => simpa [xorAll] using ih
    rw [hzeros, show Crc32.table 0#8 = 0#32 by decide, BitVec.getLsbD_zero]
  | hbit k hk =>
    intro j t ht
    have hall : ∀ k : Fin 8, ∀ p ∈ crcOut.zipIdx,
        xorAll (p.1.1.map (1#8 <<< k.val).getLsbD) =
          (Crc32.table (1#8 <<< k.val)).getLsbD (31 - p.2) := by
      decide +kernel
    exact hall ⟨k, hk⟩ (t, j) (List.mk_mem_zipIdx_iff_getElem?.mpr ht)
  | hxor x y hx hy =>
    intro j t ht
    have hbits : (x ^^^ y).getLsbD = fun i => xor (x.getLsbD i) (y.getLsbD i) := by
      funext i
      exact BitVec.getLsbD_xor
    rw [table_xor, BitVec.getLsbD_xor, ← hx j t ht, ← hy j t ht, xorAll_map_xor, hbits]

theorem crcOut_lt : ∀ t ∈ crcOut, ∀ i ∈ t.1, i < 8 := by decide

/-- A bit of the new register: the equation's bits of the byte that indexes the table, and from the
eighth bit on the register moved up eight places. -/
theorem crcOutBit_eq (d c : Nat → Bool) {j : Nat} (hj : j < 32) {t : List Nat × List Nat}
    (ht : crcOut[j]? = some t) :
    crcOutBit d c j = xor (xorAll (t.1.map fun i => xor (d i) (c (31 - i))))
      (if 8 ≤ j then c (j - 8) else false) := by
  have hperm := (crcOut_perm ⟨j, hj⟩ t (by rw [Option.mem_def]; exact ht)).map c
  have hextra : xorAll ((if 8 ≤ j then [j - 8] else []).map c) =
      if 8 ≤ j then c (j - 8) else false := by
    split <;> simp [xorAll]
  simp only [crcOutBit, ht]
  rw [xorAll_append, xorAll_perm hperm, List.map_append, xorAll_append, hextra, ← Bool.xor_assoc,
    List.map_map, ← xorAll_map_xor]
  rfl

/-- A step of the register is the reflected step in reverse. -/
theorem calCrc32_eq (c : BitVec 32) (b : Byte) :
    calCrc32 c b = (Crc32.step c.reverse b).reverse := by
  have hrev : ∀ (r : BitVec 32) k, k < 32 → r.reverse.getLsbD k = r.getLsbD (31 - k) := by
    intro r k hk
    rw [BitVec.getLsbD_reverse, BitVec.getMsbD]
    simp [hk]
  apply BitVec.eq_of_getLsbD_eq
  intro j hj
  have ht : crcOut[j]? = some crcOut[j] := List.getElem?_eq_getElem hj
  generalize crcOut[j] = t at ht
  rw [calCrc32, setBits_id _ hj, crcOutBit_eq _ _ hj ht, hrev _ j hj, Crc32.step_table,
    BitVec.getLsbD_xor]
  have hindex : t.1.map (fun i => xor (b.getLsbD i) (c.getLsbD (31 - i))) =
      t.1.map ((c.reverse ^^^ b.setWidth 32).setWidth 8).getLsbD := by
    apply List.map_congr_left
    intro i hi
    have hi8 := crcOut_lt t (List.mem_of_getElem? ht) i hi
    simp only [BitVec.getLsbD_setWidth, BitVec.getLsbD_xor, hrev c i (by omega), hi8,
      show i < 32 by omega, decide_true, Bool.true_and]
    exact Bool.xor_comm _ _
  rw [hindex, crcOut_table _ j t ht, BitVec.getLsbD_ushiftRight]
  congr 1
  split
  · rw [hrev c _ (by omega)]
    congr 1
    omega
  · exact (BitVec.getLsbD_of_ge _ _ (by omega)).symm

theorem foldl_calCrc32 (data : List Byte) (c : BitVec 32) :
    data.foldl calCrc32 c.reverse = (Crc32.update c data).reverse := by
  induction data generalizing c with
  | nil => rfl
  | cons b bs ih =>
    rw [List.foldl_cons, calCrc32_eq, BitVec.reverse_reverse_eq, ih, Crc32.update_cons]

/-- `get_crc32` is the CRC-32 with its final complement. -/
theorem getCrc32_eq (data : List Byte) : getCrc32 data = ~~~ Crc32.update 0xFFFFFFFF#32 data := by
  have hones : (0xFFFFFFFF#32).reverse = 0xFFFFFFFF#32 := by decide +kernel
  have hfold := foldl_calCrc32 data 0xFFFFFFFF#32
  rw [hones] at hfold
  simp only [getCrc32, hfold, setBits_reverse, BitVec.reverse_reverse_eq]

end Utils
end Air101

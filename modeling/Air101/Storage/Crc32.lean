import Air101.Storage.Nor

/-!
# Storage.Crc32

The reflected CRC-32 register (polynomial constant `0xEDB88320`): one shift per message bit, least
significant bit first. A shift is linear in exclusive or (`shift_xor`), so eight shifts of `c ^ b`
are a table word for the low byte and `c` moved down eight places (`step_table`): the form every
byte-wise implementation has.

`update` is a fold over the bytes, so feeding a message in parts is feeding it whole
(`update_append`).
-/

namespace Storage
namespace Crc32

def poly : BitVec 32 := 0xEDB88320#32

/-- One message bit. -/
def shift (c : BitVec 32) : BitVec 32 := if c.getLsbD 0 then (c >>> 1) ^^^ poly else c >>> 1

def shifts : Nat → BitVec 32 → BitVec 32
  | 0, c => c
  | n + 1, c => shift (shifts n c)

/-- One message byte. -/
def step (c : BitVec 32) (b : Byte) : BitVec 32 := shifts 8 (c ^^^ b.setWidth 32)

def update (c : BitVec 32) (bs : List Byte) : BitVec 32 := bs.foldl step c

/-- The CRC-32 of a message: the register starts with ones and is complemented at the end. -/
def checksum (bs : List Byte) : BitVec 32 := ~~~ update 0xFFFFFFFF#32 bs

@[simp] theorem update_nil (c : BitVec 32) : update c [] = c := rfl

@[simp] theorem update_cons (c : BitVec 32) (b : Byte) (bs : List Byte) :
    update c (b :: bs) = update (step c b) bs := rfl

theorem update_append (c : BitVec 32) (bs cs : List Byte) :
    update c (bs ++ cs) = update (update c bs) cs := List.foldl_append

theorem shift_xor (a b : BitVec 32) : shift (a ^^^ b) = shift a ^^^ shift b := by
  unfold shift
  simp only [BitVec.getLsbD_xor, BitVec.ushiftRight_xor_distrib]
  cases a.getLsbD 0 <;> cases b.getLsbD 0 <;>
    simp only [Bool.false_xor, Bool.true_xor, Bool.not_true, Bool.not_false, Bool.false_eq_true,
      if_true, if_false]
  · ac_rfl
  · ac_rfl
  · rw [BitVec.xor_assoc, ← BitVec.xor_assoc poly, BitVec.xor_comm poly (b >>> 1),
      BitVec.xor_assoc (b >>> 1), BitVec.xor_self, BitVec.xor_zero]

theorem shifts_xor (n : Nat) (a b : BitVec 32) :
    shifts n (a ^^^ b) = shifts n a ^^^ shifts n b := by
  induction n with
  | zero => rfl
  | succ n ih => simp only [shifts, ih, shift_xor]

theorem shifts_high (y : BitVec 32) (hy : ∀ i, i < 8 → y.getLsbD i = false) :
    ∀ k, k ≤ 8 → shifts k y = y >>> k := by
  intro k
  induction k with
  | zero => intro _; simp [shifts]
  | succ k ih =>
    intro hk
    have hlow : (y >>> k).getLsbD 0 = false := by
      rw [BitVec.getLsbD_ushiftRight]
      exact hy k (by omega)
    rw [shifts, ih (by omega), shift, hlow, BitVec.shiftRight_add]
    rfl

/-- The table word of a byte. -/
def table (i : Byte) : BitVec 32 := shifts 8 (i.setWidth 32)

theorem highMask : ∀ i : Fin 32, (0xFFFFFF00#32).getLsbD i = decide (8 ≤ i.val) := by decide

theorem split_low (x : BitVec 32) :
    x = (x.setWidth 8).setWidth 32 ^^^ (x &&& 0xFFFFFF00#32) := by
  apply BitVec.eq_of_getLsbD_eq
  intro i hi
  simp only [BitVec.getLsbD_xor, BitVec.getLsbD_setWidth, BitVec.getLsbD_and, hi, decide_true,
    Bool.true_and, highMask ⟨i, hi⟩]
  by_cases h8 : i < 8
  · simp [h8, show ¬ 8 ≤ i by omega]
  · simp [h8, show 8 ≤ i by omega]

/-- The byte-wise form: the table word of the low byte, and the register moved down. -/
theorem step_table (c : BitVec 32) (b : Byte) :
    step c b = table ((c ^^^ b.setWidth 32).setWidth 8) ^^^ (c >>> 8) := by
  have hhigh : shifts 8 ((c ^^^ b.setWidth 32) &&& 0xFFFFFF00#32) = c >>> 8 := by
    rw [shifts_high _ _ 8 (by omega)]
    · apply BitVec.eq_of_getLsbD_eq
      intro i hi
      simp only [BitVec.getLsbD_ushiftRight, BitVec.getLsbD_and, BitVec.getLsbD_xor,
        BitVec.getLsbD_setWidth, BitVec.getLsbD_of_ge b (8 + i) (by omega)]
      by_cases h : 8 + i < 32
      · rw [highMask ⟨8 + i, h⟩]
        simp
      · rw [BitVec.getLsbD_of_ge c (8 + i) (by omega)]
        simp
    · intro i hi
      rw [BitVec.getLsbD_and, highMask ⟨i, by omega⟩]
      simp [show ¬ 8 ≤ i by omega]
  unfold step table
  rw [← hhigh, ← shifts_xor, ← split_low]

end Crc32
end Storage

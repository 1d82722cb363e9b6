import Air101.Storage.Crc32

/-!
# Crypto.Crc

The CRC engine's driver (`platform/common/crypto/wm_crypto_hard.c`): `Reflect` and
`tls_crypto_crc_init`, `tls_crypto_crc_update`, `tls_crypto_crc_final`.

The engine itself is hardware. It is a function `hw` of the CRC type, the reflection mode, the key
register and the bytes its 16-bit length field covers. `Reflected hw` is what the sources rely on
for type 32 with both reflections: the engine continues the reflected CRC-32 from the key register,
which it takes unreflected.

* `reflect_32`: the loop of `Reflect` reverses a word.
* `reflect_reflect`: two reflections cancel on a value of the width.
* `tlsCryptoCrcUpdate_reflected`: with such an engine one update is `Crc32.update`.
-/

namespace Air101
namespace Crypto

open Storage

/-- `CRYPTO_CRC_TYPE`. -/
inductive CrcType where
  | crc8
  | crc16Modbus
  | crc16Ccitt
  | crc32
  deriving DecidableEq, Repr

/-- `psCrcContext_t`. -/
structure PsCrcContext where
  state : BitVec 32
  type : CrcType
  mode : Nat

/-- The engine: type, mode, `HR_CRYPTO_CRC_KEY` and the bytes covered by the length field. -/
abbrev Engine := CrcType → Nat → BitVec 32 → List Byte → BitVec 32

/-- One pass of the loop in `Reflect`, on `(value, ref)`. -/
def reflectStep (ch : Nat) (s : BitVec 32 × BitVec 32) (i : Nat) : BitVec 32 × BitVec 32 :=
  (if s.2.getLsbD 0 then s.1 ||| 1#32 <<< (ch - i) else s.1, s.2 >>> 1)

/-- `Reflect`: the low `ch` bits of `ref` in reverse order. -/
def reflect (ref : BitVec 32) (ch : Nat) : BitVec 32 :=
  ((List.range' 1 ch).foldl (reflectStep ch) (0#32, ref)).1

/-- The width `ch_crc` of a CRC type. -/
def chCrc : CrcType → Nat
  | .crc8 => 8
  | .crc16Modbus => 16
  | .crc16Ccitt => 16
  | .crc32 => 32

/-- `tls_crypto_crc_init`. -/
def tlsCryptoCrcInit (key : BitVec 32) (type : CrcType) (mode : Nat) : PsCrcContext :=
  { state := key, type := type, mode := mode }

/-- `tls_crypto_crc_update`: the key register is reflected when the output is (`OUTPUT_REFLECT`,
bit 0 of the mode), and the length goes through `len & 0xFFFF`. -/
def tlsCryptoCrcUpdate (hw : Engine) (ctx : PsCrcContext) (bs : List Byte) : PsCrcContext :=
  let key := if ctx.mode % 2 = 1 then reflect ctx.state (chCrc ctx.type) else ctx.state
  { ctx with state := hw ctx.type ctx.mode key (bs.take (bs.length % 2 ^ 16)) }

/-- `tls_crypto_crc_final`. -/
def tlsCryptoCrcFinal (ctx : PsCrcContext) : BitVec 32 := ctx.state

/-- The engine continues the reflected CRC-32 from its key register. -/
def Reflected (hw : Engine) : Prop :=
  ∀ key bs, hw .crc32 3 key bs = Crc32.update key.reverse bs

/-- An engine with that behaviour. -/
def softEngine : Engine := fun _ _ key bs => Crc32.update key.reverse bs

theorem softEngine_reflected : Reflected softEngine := fun _ _ => rfl

/-! ## Reflection -/

/-- After `k` passes `ref` has moved down `k` places and its bits stand at the top of the `ch` bits of
`value`. -/
theorem reflectStep_fold (r : BitVec 32) {ch : Nat} (hch : ch ≤ 32) : ∀ k, k ≤ ch →
    ((List.range' 1 k).foldl (reflectStep ch) (0#32, r)).2 = r >>> k ∧
      ∀ j, ((List.range' 1 k).foldl (reflectStep ch) (0#32, r)).1.getLsbD j =
        (decide (ch - k ≤ j ∧ j < ch) && r.getLsbD (ch - 1 - j)) := by
  intro k
  induction k with
  | zero =>
    intro _
    refine ⟨by simp, ?_⟩
    intro j
    simp [show ¬ (ch ≤ j ∧ j < ch) by omega]
  | succ k ih =>
    intro hk
    obtain ⟨ih2, ih1⟩ := ih (by omega)
    rw [List.range'_1_concat, List.foldl_append, List.foldl_cons, List.foldl_nil]
    refine ⟨?_, ?_⟩
    · simp only [reflectStep, ih2, BitVec.shiftRight_add]
    · intro j
      have hbit : (r >>> k).getLsbD 0 = r.getLsbD k := by simp
      simp only [reflectStep, ih2, hbit]
      by_cases he : j = ch - 1 - k
      · -- the place this pass fills
        subst he
        have hpos : ch - 1 - (ch - 1 - k) = k := by omega
        cases hr : r.getLsbD k
        · simp [ih1, hpos, hr]
        · simp [hpos, hr, show ch - (1 + k) = ch - 1 - k by omega, show ch - 1 - k < 32 by omega,
            show ch - (k + 1) ≤ ch - 1 - k by omega, show ch - 1 - k < ch by omega]
      · -- every other place is unchanged
        have hset : ((1#32 <<< (ch - (1 + k))).getLsbD j) = false := by
          rw [BitVec.getLsbD_shiftLeft]
          by_cases hlt : j < ch - (1 + k)
          · simp [hlt]
          · rw [BitVec.getLsbD_one]
            simp
            omega
        have hdec : decide (ch - (k + 1) ≤ j ∧ j < ch) = decide (ch - k ≤ j ∧ j < ch) := by
          apply decide_eq_decide.mpr
          omega
        rw [hdec, ← ih1 j]
        cases hr : r.getLsbD k
        · simp
        · simp [hset]

theorem reflect_getLsbD (r : BitVec 32) {ch : Nat} (hch : ch ≤ 32) (j : Nat) :
    (reflect r ch).getLsbD j = (decide (j < ch) && r.getLsbD (ch - 1 - j)) := by
  rw [reflect, (reflectStep_fold r hch ch (Nat.le_refl _)).2 j]
  simp

theorem reflect_32 (r : BitVec 32) : reflect r 32 = r.reverse := by
  apply BitVec.eq_of_getLsbD_eq
  intro j hj
  rw [reflect_getLsbD r (Nat.le_refl _), BitVec.getLsbD_reverse, BitVec.getMsbD]

/-- A value of `ch` bits comes back from two reflections. -/
theorem reflect_reflect {r : BitVec 32} {ch : Nat} (hch : ch ≤ 32) (hr : r.toNat < 2 ^ ch) :
    reflect (reflect r ch) ch = r := by
  apply BitVec.eq_of_getLsbD_eq
  intro j hj
  rw [reflect_getLsbD _ hch, reflect_getLsbD _ hch]
  by_cases hlt : j < ch
  · simp [hlt, show ch - 1 - j < ch by omega, show ch - 1 - (ch - 1 - j) = j by omega]
  · have hhigh : r.getLsbD j = false := by
      rw [BitVec.getLsbD, Nat.testBit_lt_two_pow]
      exact Nat.lt_of_lt_of_le hr (Nat.pow_le_pow_right (by omega) (by omega))
    simp [hlt, hhigh]

/-! ## Updates -/

/-- The context `img_checksum` and `tls_param_init` work with. -/
def crcContext (c : BitVec 32) : PsCrcContext := tlsCryptoCrcInit c .crc32 3

/-- An update shorter than 64 KB continues the reflected CRC-32 over all its bytes. -/
theorem tlsCryptoCrcUpdate_reflected {hw : Engine} (h : Reflected hw) (c : BitVec 32)
    {bs : List Byte} (hb : bs.length < 2 ^ 16) :
    tlsCryptoCrcUpdate hw (crcContext c) bs = crcContext (Crc32.update c bs) := by
  unfold tlsCryptoCrcUpdate crcContext tlsCryptoCrcInit
  simp only [chCrc, Nat.mod_eq_of_lt hb, List.take_length, reflect_32, h _ _]
  simp

end Crypto
end Air101

import Air101.Storage.Nor
import Mathlib.Logic.Function.Iterate

/-!
# Storage.CrcBits

The reflected CRC of any width, one message bit at a time: the register moves down, and the
polynomial constant comes in when the bit that leaves differs from the message bit.

* `crc_eq_shifts`: up to a register's width of message bits go in at once (`ofBits`).
* `shift_injective`: a shift loses nothing when the constant has its top bit.
* `crc_burst`: two messages that differ only within a register's width of consecutive bits have
  different registers.
-/

namespace Storage
namespace CrcBits

variable {w : Nat}

/-- The register without a message bit. -/
def shift (p c : BitVec w) : BitVec w := if c.getLsbD 0 then (c >>> 1) ^^^ p else c >>> 1

/-- One message bit. -/
def feed (p c : BitVec w) (b : Bool) : BitVec w :=
  if (c.getLsbD 0 ^^ b) then (c >>> 1) ^^^ p else c >>> 1

def crc (p c : BitVec w) (bits : List Bool) : BitVec w := bits.foldl (feed p) c

/-- Message bits as a register, the first one lowest. -/
def ofBits (w : Nat) : List Bool → BitVec w
  | [] => 0#w
  | b :: bits => (ofBits w bits <<< 1) ^^^ (BitVec.ofBool b).setWidth w

/-- The bits of a byte, least significant first. -/
def byteBits (b : Byte) : List Bool := (List.range 8).map b.getLsbD

/-- The bits of a message in the order the register takes them. -/
def bitsOf (bs : List Byte) : List Bool := bs.flatMap byteBits

/-- The two bit strings differ, and only within `n` consecutive bits. -/
def Burst (n : Nat) (m m' : List Bool) : Prop :=
  ∃ a e e' z, m = a ++ (e ++ z) ∧ m' = a ++ (e' ++ z) ∧ e.length = e'.length ∧ e.length ≤ n ∧
    e ≠ e'

theorem crc_append (p c : BitVec w) (m m' : List Bool) :
    crc p c (m ++ m') = crc p (crc p c m) m' := List.foldl_append

theorem shift_xor (p a b : BitVec w) : shift p (a ^^^ b) = shift p a ^^^ shift p b := by
  unfold shift
  simp only [BitVec.getLsbD_xor, BitVec.ushiftRight_xor_distrib]
  cases a.getLsbD 0 <;> cases b.getLsbD 0 <;>
    simp only [Bool.false_xor, Bool.true_xor, Bool.not_true, Bool.not_false, Bool.false_eq_true,
      if_true, if_false]
  · ac_rfl
  · ac_rfl
  · rw [BitVec.xor_assoc, ← BitVec.xor_assoc p, BitVec.xor_comm p (b >>> 1),
      BitVec.xor_assoc (b >>> 1), BitVec.xor_self, BitVec.xor_zero]

/-- The message bit goes into the register's lowest bit. -/
theorem feed_eq_shift (p c : BitVec w) (b : Bool) (hw : 0 < w) :
    feed p c b = shift p (c ^^^ (BitVec.ofBool b).setWidth w) := by
  have hlow : (c ^^^ (BitVec.ofBool b).setWidth w).getLsbD 0 = (c.getLsbD 0 ^^ b) := by
    simp [hw]
  have hhigh : (c ^^^ (BitVec.ofBool b).setWidth w) >>> 1 = c >>> 1 := by
    ext i hi
    simp [BitVec.getLsbD_xor, BitVec.getLsbD_setWidth]
  rw [feed, shift, hlow, hhigh]

theorem getLsbD_ofBits (bits : List Bool) (i : Nat) :
    (ofBits w bits).getLsbD i = (decide (i < w) && bits.getD i false) := by
  induction bits generalizing i with
  | nil => simp [ofBits]
  | cons b bits ih =>
    rw [ofBits, BitVec.getLsbD_xor, BitVec.getLsbD_shiftLeft, BitVec.getLsbD_setWidth]
    cases i with
    | zero => simp
    | succ i =>
      rw [Nat.add_sub_cancel, ih]
      by_cases hi : i + 1 < w
      · have : i < w := by omega
        simp [hi, this]
      · simp [hi]

/-- A register whose top bit is clear moves up and down again. -/
theorem shift_shiftLeft (p x : BitVec w) (htop : x.getLsbD (w - 1) = false) :
    shift p (x <<< 1) = x := by
  have hlow : (x <<< 1).getLsbD 0 = false := by simp
  rw [shift, hlow, if_neg (by simp)]
  apply BitVec.eq_of_getLsbD_eq
  intro i hi
  rw [BitVec.getLsbD_ushiftRight, BitVec.getLsbD_shiftLeft]
  by_cases hlast : i + 1 < w
  · simp [Nat.add_comm 1 i, hlast]
  · obtain rfl : i = w - 1 := by omega
    simp [htop]

theorem crc_eq_shifts (p c : BitVec w) (bits : List Bool) (h : bits.length ≤ w) :
    crc p c bits = (shift p)^[bits.length] (c ^^^ ofBits w bits) := by
  induction bits generalizing c with
  | nil => simp [crc, ofBits]
  | cons b bits ih =>
    rw [List.length_cons] at h
    have htop : (ofBits w bits).getLsbD (w - 1) = false := by
      rw [getLsbD_ofBits, List.getD_eq_getElem?_getD, List.getElem?_eq_none (by omega)]
      simp
    have hcons : shift p (c ^^^ ofBits w (b :: bits)) = feed p c b ^^^ ofBits w bits := by
      rw [ofBits, BitVec.xor_comm (ofBits w bits <<< 1), ← BitVec.xor_assoc, shift_xor,
        shift_shiftLeft p _ htop, ← feed_eq_shift p c b (by omega)]
    calc crc p c (b :: bits) = crc p (feed p c b) bits := rfl
      _ = (shift p)^[bits.length] (feed p c b ^^^ ofBits w bits) := ih _ (by omega)
      _ = (shift p)^[bits.length + 1] (c ^^^ ofBits w (b :: bits)) := by
        rw [Function.iterate_succ_apply, hcons]

/-- The bit that was shifted out is the top bit of the result. -/
theorem shift_injective {p : BitVec w} (hp : p.getLsbD (w - 1) = true) :
    Function.Injective (shift p) := by
  have hw : 0 < w := by
    have := BitVec.lt_of_getLsbD hp
    omega
  have htop : ∀ c : BitVec w, (shift p c).getLsbD (w - 1) = c.getLsbD 0 := by
    intro c
    have hout : (c >>> 1).getLsbD (w - 1) = false := by
      rw [BitVec.getLsbD_ushiftRight]
      exact BitVec.getLsbD_of_ge c _ (by omega)
    unfold shift
    split
    · rename_i hc
      rw [BitVec.getLsbD_xor, hout, hp, hc]
      rfl
    · rename_i hc
      rw [hout]
      exact (Bool.eq_false_iff.mpr hc).symm
  intro c c' h
  have hlow : c.getLsbD 0 = c'.getLsbD 0 := by rw [← htop c, h, htop c']
  have hhigh : c >>> 1 = c' >>> 1 := by
    simp only [shift, hlow] at h
    split at h
    · exact (BitVec.xor_left_inj p).mp h
    · exact h
  apply BitVec.eq_of_getLsbD_eq
  intro i hi
  cases i with
  | zero => exact hlow
  | succ i =>
    have hbit := congrArg (·.getLsbD i) hhigh
    simpa [BitVec.getLsbD_ushiftRight, Nat.add_comm 1 i] using hbit

theorem feed_injective {p : BitVec w} (hp : p.getLsbD (w - 1) = true) (b : Bool) :
    Function.Injective (feed p · b) := by
  have hw : 0 < w := by
    have := BitVec.lt_of_getLsbD hp
    omega
  intro c c' h
  simp only [feed_eq_shift p _ b hw] at h
  exact (BitVec.xor_left_inj _).mp (shift_injective hp h)

theorem crc_injective {p : BitVec w} (hp : p.getLsbD (w - 1) = true) (m : List Bool) :
    Function.Injective (crc p · m) := by
  induction m with
  | nil => exact fun _ _ h => h
  | cons b m ih => exact fun _ _ h => feed_injective hp b (ih h)

theorem ofBits_inj {e e' : List Bool} (hlen : e.length = e'.length) (hw : e.length ≤ w)
    (h : ofBits w e = ofBits w e') : e = e' := by
  apply List.ext_getElem hlen
  intro i hi hi'
  have hbit := congrArg (·.getLsbD i) h
  simp only [getLsbD_ofBits, show i < w by omega, decide_true, Bool.true_and] at hbit
  simpa [hi, hi'] using hbit

theorem crc_burst {p : BitVec w} (hp : p.getLsbD (w - 1) = true) (c : BitVec w) {m m' : List Bool}
    (h : Burst w m m') : crc p c m ≠ crc p c m' := by
  obtain ⟨a, e, e', z, rfl, rfl, hlen, hw, hne⟩ := h
  intro heq
  rw [crc_append, crc_append, crc_append, crc_append] at heq
  have hwindow := crc_injective hp z heq
  rw [crc_eq_shifts p _ e hw, crc_eq_shifts p _ e' (by omega), hlen] at hwindow
  have hregs := (shift_injective hp).iterate e'.length hwindow
  exact hne (ofBits_inj hlen hw ((BitVec.xor_right_inj _).mp hregs))

theorem ofBits_byteBits (b : Byte) : ofBits 8 (byteBits b) = b := by
  apply BitVec.eq_of_getLsbD_eq
  intro i hi
  rw [getLsbD_ofBits, byteBits, List.getD_eq_getElem?_getD, List.getElem?_map,
    List.getElem?_range hi]
  simp [hi]

/-- A register of eight bits takes a byte in eight shifts. -/
theorem crc_byteBits (p c b : Byte) : crc p c (byteBits b) = (shift p)^[8] (c ^^^ b) := by
  have hlen : (byteBits b).length = 8 := by simp [byteBits]
  rw [crc_eq_shifts p c _ (by omega), hlen, ofBits_byteBits]

theorem crc_bitsOf_cons (p c b : Byte) (bs : List Byte) :
    crc p c (bitsOf (b :: bs)) = crc p ((shift p)^[8] (c ^^^ b)) (bitsOf bs) := by
  rw [bitsOf, List.flatMap_cons, crc_append, crc_byteBits]
  rfl

end CrcBits
end Storage

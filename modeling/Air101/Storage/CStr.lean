import Air101.Storage.Bytes
import Mathlib.Data.List.Forall2
import Mathlib.Tactic.IntervalCases

/-!
# Storage.CStr

NUL-terminated strings of ASCII characters.

* `CStr`: the characters of a string; `CStr.mem s rest` is the memory from its first character on.
* `CaseEq`, `upper`: characters that agree up to the case of a letter (`upper_eq_iff`).
* `EqFold`, `ProperPrefixFold`: the same for strings.
* `decimal`, `digits`: a number from its decimal digits and back (`digits_read`).
-/

namespace Storage

/-- A NUL-terminated string: none of its characters is the NUL. -/
structure CStr where
  chars : List Byte
  noNul : ∀ c ∈ chars, c ≠ 0#8

namespace CStr

/-- The memory from the first character of the string on. -/
def mem (s : CStr) (rest : List Byte) : List Byte := s.chars ++ 0#8 :: rest

end CStr

/-! ## Case -/

/-- The same character, or the two cases of one letter. -/
def CaseEq (a b : Byte) : Prop :=
  a = b ∨ (0x41#8 ≤ a ∧ a ≤ 0x5A#8 ∧ b = a + 0x20#8) ∨ (0x41#8 ≤ b ∧ b ≤ 0x5A#8 ∧ a = b + 0x20#8)

/-- A small letter as a capital one. -/
def upper (c : Byte) : Byte := if 0x61#8 ≤ c ∧ c ≤ 0x7A#8 then c - 0x20#8 else c

theorem upper_eq_iff (a b : Byte) : upper a = upper b ↔ CaseEq a b := by
  have ha := a.isLt
  have hb := b.isLt
  unfold upper CaseEq
  split <;> split <;> bv_omega

theorem CaseEq.symm {a b : Byte} (h : CaseEq a b) : CaseEq b a := by
  obtain h | h | h := h
  · exact .inl h.symm
  · exact .inr (.inr h)
  · exact .inr (.inl h)

/-- The same length, and character by character the same up to case. -/
def EqFold (s t : List Byte) : Prop := List.Forall₂ CaseEq s t

/-- The longer string begins, up to case, with the shorter one. -/
def ProperPrefixFold (s t : List Byte) : Prop :=
  s.length < t.length ∧ EqFold s (t.take s.length)

theorem EqFold.symm {s t : List Byte} (h : EqFold s t) : EqFold t s := by
  induction h with
  | nil => exact .nil
  | cons hc _ ih => exact .cons hc.symm ih

theorem EqFold.length_eq {s t : List Byte} (h : EqFold s t) : s.length = t.length :=
  List.Forall₂.length_eq h

/-- The strings agree as far as both go: they are equal, or one begins with the other. -/
theorem eqFold_take_iff (s t : List Byte) :
    EqFold (s.take t.length) (t.take s.length) ↔
      EqFold s t ∨ ProperPrefixFold s t ∨ ProperPrefixFold t s := by
  obtain hlt | heq | hgt := lt_trichotomy s.length t.length
  · have hne : ¬ EqFold s t := fun h => by have := h.length_eq; omega
    have hnp : ¬ ProperPrefixFold t s := fun h => by have := h.1; omega
    rw [List.take_of_length_le (Nat.le_of_lt hlt)]
    constructor
    · intro h
      exact .inr (.inl ⟨hlt, h⟩)
    · rintro (h | h | h)
      · exact absurd h hne
      · exact h.2
      · exact absurd h hnp
  · have hnp : ∀ a b : List Byte, a.length = b.length → ¬ ProperPrefixFold a b :=
      fun a b hab h => by have := h.1; omega
    rw [heq, ← heq, List.take_length, heq, List.take_length]
    simp [hnp s t heq, hnp t s heq.symm]
  · have hne : ¬ EqFold s t := fun h => by have := h.length_eq; omega
    have hnp : ¬ ProperPrefixFold s t := fun h => by have := h.1; omega
    rw [List.take_of_length_le (Nat.le_of_lt hgt)]
    constructor
    · intro h
      exact .inr (.inr ⟨hgt, h.symm⟩)
    · rintro (h | h | h)
      · exact absurd h hne
      · exact absurd h hnp
      · exact h.2.symm

/-! ## The first separator -/

/-- A list is cut at the first occurrence of a separator in one way only. -/
theorem cut_unique {α : Type} {a : α} {f f' r r' : List α} (hf : a ∉ f) (hf' : a ∉ f')
    (h : f ++ a :: r = f' ++ a :: r') : f = f' ∧ r = r' := by
  induction f generalizing f' with
  | nil =>
    cases f' with
    | nil => simpa using h
    | cons c f' =>
      cases h
      exact absurd List.mem_cons_self hf'
  | cons c f ih =>
    cases f' with
    | nil =>
      cases h
      exact absurd List.mem_cons_self hf
    | cons c' f' =>
      injection h with hc hrest
      obtain ⟨rfl, rfl⟩ := ih (fun h => hf (List.mem_cons_of_mem c h))
        (fun h => hf' (List.mem_cons_of_mem c' h)) hrest
      exact ⟨congrArg (· :: f) hc, rfl⟩

/-! ## Decimal digits -/

def isDigit (c : Byte) : Bool := 0x30#8 ≤ c && c ≤ 0x39#8

/-- The number that decimal digits denote, most significant first. -/
def decimal (ds : List Byte) : Nat := ds.foldl (fun n c => 10 * n + (c.toNat - 0x30)) 0

/-- The decimal digits of a number, without leading zeros. -/
def digits (n : Nat) : List Byte := (Nat.toDigits 10 n).map fun c => BitVec.ofNat 8 c.toNat

theorem decimal_append (ds : List Byte) (c : Byte) :
    decimal (ds ++ [c]) = 10 * decimal ds + (c.toNat - 0x30) := by
  simp [decimal]

theorem digits_of_lt {n : Nat} (h : n < 10) : digits n = [BitVec.ofNat 8 (0x30 + n)] := by
  rw [digits, Nat.toDigits_of_lt_base h]
  interval_cases n <;> rfl

theorem digits_of_le {n : Nat} (h : 10 ≤ n) :
    digits n = digits (n / 10) ++ [BitVec.ofNat 8 (0x30 + n % 10)] := by
  have hlast := digits_of_lt (Nat.mod_lt n (by omega : 0 < 10))
  rw [digits, Nat.toDigits_of_lt_base (Nat.mod_lt n (by omega)), List.map_singleton] at hlast
  rw [digits, Nat.toDigits_of_base_le (by omega) h, List.map_append, List.map_singleton, hlast]
  rfl

theorem isDigit_ofNat {n : Nat} (h : n < 10) : isDigit (BitVec.ofNat 8 (0x30 + n)) = true := by
  interval_cases n <;> rfl

theorem digits_ne_nil (n : Nat) : digits n ≠ [] := by
  simp [digits, Nat.toDigits_ne_nil]

/-- What is printed is made of digits, and reads back as the number. -/
theorem digits_read (n : Nat) : (digits n).all isDigit = true ∧ decimal (digits n) = n := by
  induction n using Nat.strong_induction_on with
  | _ n ih =>
    obtain hlt | hle := Nat.lt_or_ge n 10
    · rw [digits_of_lt hlt]
      refine ⟨by simp [isDigit_ofNat hlt], ?_⟩
      simp [decimal]
      omega
    · have hmod : n % 10 < 10 := Nat.mod_lt n (by omega)
      obtain ⟨hall, hval⟩ := ih (n / 10) (by omega)
      rw [digits_of_le hle]
      refine ⟨by simp [hall, isDigit_ofNat hmod], ?_⟩
      rw [decimal_append, hval, BitVec.toNat_ofNat]
      omega

end Storage

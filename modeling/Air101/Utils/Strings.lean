import Air101.Storage.CStr

/-!
# Utils.Strings

`strcasecmp` (`platform/common/utils/utils.c`). A pointer is the memory from its character on;
`none` is a read behind the memory.

The loop ends as soon as one of the strings does, and the result is then 0 whatever is left of the
other one (`strcasecmp_mem`).
-/

namespace Air101
namespace Utils

open Storage

/-- The body's two letter tests: `c -= 'a' - 'A'`. -/
def toUpper (c : Byte) : Byte :=
  if c ≥ 0x61#8 ∧ c ≤ 0x7A#8 then c - (0x61#8 - 0x41#8) else c

def strcasecmp : List Byte → List Byte → Option Int
  | [], _ => none
  | a :: s1, s2 =>
    if a = 0#8 then some 0
    else
      match s2 with
      | [] => none
      | b :: s2 =>
        if b = 0#8 then some 0
        else if a = b then strcasecmp s1 s2
        else if toUpper a ≠ toUpper b then some 1
        else strcasecmp s1 s2

theorem toUpper_eq (c : Byte) : toUpper c = upper c := rfl

theorem strcasecmp_nul (m m' : List Byte) : strcasecmp (0#8 :: m) m' = some 0 := by
  simp [strcasecmp]

theorem strcasecmp_cons_nul (a : Byte) (m m' : List Byte) :
    strcasecmp (a :: m) (0#8 :: m') = some 0 := by
  simp [strcasecmp]

/-- One pass of the loop over two characters. -/
theorem strcasecmp_cons {a b : Byte} (ha : a ≠ 0#8) (hb : b ≠ 0#8) (m m' : List Byte) :
    strcasecmp (a :: m) (b :: m') = if upper a = upper b then strcasecmp m m' else some 1 := by
  rw [strcasecmp, if_neg ha]
  simp only [if_neg hb]
  by_cases hab : a = b
  · rw [if_pos hab, hab, if_pos rfl]
  · by_cases hup : upper a = upper b
    · simp [hab, hup, toUpper_eq]
    · simp [hab, hup, toUpper_eq]

/-- The result on strings: 0 when they agree as far as both go, and 1 otherwise. -/
theorem strcasecmp_chars (s t rest rest' : List Byte) (hs : ∀ c ∈ s, c ≠ 0#8)
    (ht : ∀ c ∈ t, c ≠ 0#8) :
    (EqFold (s.take t.length) (t.take s.length) ∧
        strcasecmp (s ++ 0#8 :: rest) (t ++ 0#8 :: rest') = some 0) ∨
      (¬ EqFold (s.take t.length) (t.take s.length) ∧
        strcasecmp (s ++ 0#8 :: rest) (t ++ 0#8 :: rest') = some 1) := by
  induction s generalizing t with
  | nil => exact .inl ⟨by simp [EqFold], strcasecmp_nul _ _⟩
  | cons a s ih =>
    cases t with
    | nil => exact .inl ⟨by simp [EqFold], strcasecmp_cons_nul _ _ _⟩
    | cons b t =>
      have ha : a ≠ 0#8 := hs a List.mem_cons_self
      have hb : b ≠ 0#8 := ht b List.mem_cons_self
      have hrest := ih t (fun c hc => hs c (List.mem_cons_of_mem a hc))
        (fun c hc => ht c (List.mem_cons_of_mem b hc))
      rw [List.cons_append, List.cons_append, strcasecmp_cons ha hb]
      by_cases hab : upper a = upper b
      · have hce : CaseEq a b := (upper_eq_iff a b).mp hab
        rw [if_pos hab]
        simpa [EqFold, hce] using hrest
      · have hce : ¬ CaseEq a b := fun h => hab ((upper_eq_iff a b).mpr h)
        rw [if_neg hab]
        exact .inr ⟨by simp [EqFold, hce], rfl⟩

/-- The function returns 0 for equal strings, and also when one begins with the other. -/
theorem strcasecmp_mem (s t : CStr) (rest rest' : List Byte) :
    strcasecmp (s.mem rest) (t.mem rest') = some 0 ↔
      EqFold s.chars t.chars ∨ ProperPrefixFold s.chars t.chars ∨
        ProperPrefixFold t.chars s.chars := by
  rw [← eqFold_take_iff]
  obtain ⟨heq, h0⟩ | ⟨hne, h1⟩ := strcasecmp_chars s.chars t.chars rest rest' s.noNul t.noNul
  · exact ⟨fun _ => heq, fun _ => h0⟩
  · constructor
    · intro h
      cases h1.symm.trans h
    · intro h
      exact absurd h hne

/-- On strings the function never reads behind a NUL, and returns 0 or 1. -/
theorem strcasecmp_returns (s t : CStr) (rest rest' : List Byte) :
    strcasecmp (s.mem rest) (t.mem rest') = some 0 ∨
      strcasecmp (s.mem rest) (t.mem rest') = some 1 :=
  (strcasecmp_chars s.chars t.chars rest rest' s.noNul t.noNul).imp And.right And.right

theorem not_properPrefixFold_of_eqFold {s t : List Byte} (h : EqFold s t) :
    ¬ ProperPrefixFold s t ∧ ¬ ProperPrefixFold t s := by
  have hlen := h.length_eq
  constructor
  · intro hp
    have := hp.1
    omega
  · intro hp
    have := hp.1
    omega

/-- `strcasecmp` decides equality up to case exactly on the pairs of strings neither of which
begins with the other. -/
theorem strcasecmp_decides_iff (s t : CStr) (rest rest' : List Byte) :
    (strcasecmp (s.mem rest) (t.mem rest') = some 0 ↔ EqFold s.chars t.chars) ↔
      ¬ ProperPrefixFold s.chars t.chars ∧ ¬ ProperPrefixFold t.chars s.chars := by
  rw [strcasecmp_mem]
  constructor
  · intro h
    refine ⟨fun hp => ?_, fun hp => ?_⟩
    · exact (not_properPrefixFold_of_eqFold (h.mp (.inr (.inl hp)))).1 hp
    · exact (not_properPrefixFold_of_eqFold (h.mp (.inr (.inr hp)))).2 hp
  · rintro ⟨hst, hts⟩
    simp [hst, hts]

/-- `"ab"` against `"abc"`. -/
theorem strcasecmp_ab_abc :
    ¬ ∀ s t : CStr, strcasecmp (s.mem []) (t.mem []) = some 0 ↔ EqFold s.chars t.chars := by
  intro h
  have hab := h ⟨[0x61#8, 0x62#8], by decide⟩ ⟨[0x61#8, 0x62#8, 0x63#8], by decide⟩
  have hlen := (hab.mp (by decide)).length_eq
  simp at hlen

end Utils
end Air101

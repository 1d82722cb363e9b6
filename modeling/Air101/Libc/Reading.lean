import Air101.Libc.Integers

/-!
# Libc.Reading

What `strntoumax` reads from the characters of an integer conversion.

* `strntoumax_text`: blanks, a sign and digits.
* `integer_reads_back`: it reads the value that was printed, unless the minus sign had no room behind
  the zeros.
* `integer_width`: the width is honoured, unless more than 32 zeros were to fill it.
-/

namespace Air101
namespace Libc

open Storage

/-! ## Characters -/

theorem isspace_toNat {c : Byte} (h : isspace c = true) :
    c.toNat = 0x20 ∨ (0x09 ≤ c.toNat ∧ c.toNat ≤ 0x0D) := by
  rw [isspace, Bool.or_eq_true, Bool.and_eq_true, decide_eq_true_eq, decide_eq_true_eq,
    decide_eq_true_eq] at h
  rcases h with rfl | ⟨h1, h2⟩
  · exact .inl rfl
  · exact .inr ⟨h1, h2⟩

theorem digitval_none {c : Byte} (h : c.toNat < 0x30) : digitval c = none := by
  rw [digitval, if_neg (by omega), if_neg (by omega), if_neg (by omega)]

/-- A digit is no blank and no sign. -/
theorem digit_plain {c : Byte} {d : Nat} (h : digitval c = some d) :
    isspace c = false ∧ c ≠ chr '-' ∧ c ≠ chr '+' := by
  have hge : 0x30 ≤ c.toNat := by
    by_contra hlt
    rw [digitval_none (by omega)] at h
    cases h
  refine ⟨?_, ?_, ?_⟩
  · rw [← Bool.not_eq_true]
    intro hs
    rcases isspace_toNat hs with h1 | h1
    · omega
    · omega
  · rintro rfl
    exact absurd hge (by decide)
  · rintro rfl
    exact absurd hge (by decide)

/-- A number in base `b` ends at the character: it is no digit of the base and not the `x` of a
prefix. -/
def Stops (b : Nat) (c : Byte) : Prop :=
  (∀ d, digitval c = some d → b ≤ d) ∧ (b = 16 → c ≠ chr 'x' ∧ c ≠ chr 'X')

theorem stops_of_none {c : Byte} (b : Nat) (h : digitval c = none) : Stops b c := by
  refine ⟨fun d hd => ?_, fun _ => ⟨?_, ?_⟩⟩
  · rw [h] at hd
    cases hd
  · rintro rfl
    cases h
  · rintro rfl
    cases h

/-! ## The parts of `strntoumax` -/

theorem skipBlanks_blanks {i n : Nat} {c : Byte} {cs : List Byte} (hi : i ≤ n)
    (hc : isspace c = false) :
    skipBlanks (List.replicate i (chr ' ') ++ c :: cs) n = some (c :: cs, n - i) := by
  have hblank : isspace (chr ' ') = true := rfl
  induction i generalizing n with
  | zero => simp [skipBlanks, hc]
  | succ i ih =>
    have hn : n ≠ 0 := by omega
    rw [List.replicate_succ, List.cons_append, skipBlanks, hblank]
    simp only [ne_eq, hn, not_false_eq_true, decide_true, Bool.and_self, if_true]
    rw [ih (by omega)]
    congr 2
    omega

/-- The digits are read up to a character that is none. -/
theorem readDigits_numeral {b n v : Nat} {ds cs : List Byte} {c : Byte} (hds : Numeral b ds)
    (hn : ds.length ≤ n) (hc : Stops b c) (hv : v < 2 ^ 64) :
    readDigits b (ds ++ c :: cs) n v =
      some ((v * b ^ ds.length + number b ds) % 2 ^ 64, c :: cs) := by
  induction ds generalizing n v with
  | nil =>
    have hstop : readDigits b (c :: cs) n v = some (v, c :: cs) := by
      rw [readDigits]
      cases hd : digitval c with
      | none => simp only [ite_self]
      | some d => simp only [if_neg (Nat.not_lt.mpr (hc.1 d hd)), ite_self]
    rw [List.nil_append, hstop]
    simp only [List.length_nil, Nat.pow_zero, Nat.mul_one, number, List.foldl_nil, Nat.add_zero,
      Nat.mod_eq_of_lt hv]
  | cons d ds ih =>
    obtain ⟨k, hk, hlt⟩ := hds d (by simp)
    have hrest : Numeral b ds := fun e he => hds e (List.mem_cons_of_mem _ he)
    rw [List.length_cons] at hn
    rw [List.cons_append, readDigits, if_neg (by omega), hk]
    simp only [if_pos hlt]
    rw [ih hrest (by omega) (Nat.mod_lt _ (by decide)), number_cons, hk, Option.getD_some,
      List.length_cons]
    congr 2
    have hpow : b ^ (ds.length + 1) = b * b ^ ds.length := Nat.pow_succ'
    rw [Nat.add_mod, Nat.mod_mul_mod, ← Nat.add_mod, hpow, Nat.add_mul, Nat.mul_assoc, Nat.add_assoc]

/-- Digits of base 16 do not begin with the prefix. -/
theorem hexPrefix_digits {ds cs : List Byte} {c : Byte} (hne : ds ≠ []) (hds : Numeral 16 ds)
    (hc : Stops 16 c) : hexPrefix (ds ++ c :: cs) = some false := by
  have hx : digitval (chr 'x') = some 33 ∧ digitval (chr 'X') = some 33 := by decide
  have hnox : ∀ e : Byte, (∃ d, digitval e = some d ∧ d < 16) → e ≠ chr 'x' ∧ e ≠ chr 'X' := by
    rintro e ⟨d, hd, hlt⟩
    constructor
    · rintro rfl
      rw [hx.1] at hd
      injection hd
      omega
    · rintro rfl
      rw [hx.2] at hd
      injection hd
      omega
  have htwo : ∀ d e rest, e ≠ chr 'x' ∧ e ≠ chr 'X' → hexPrefix (d :: e :: rest) = some false := by
    intro d e rest he
    simp only [hexPrefix, he.1, he.2, decide_false, Bool.or_self, ite_self]
  match ds, hne with
  | [d], _ => exact htwo d c cs (hc.2 rfl)
  | d :: e :: ds, _ => exact htwo d e _ (hnox e (hds e (by simp)))

theorem readBase_digits {b n : Nat} {ds cs : List Byte} {c : Byte} (hb : b = 8 ∨ b = 10 ∨ b = 16)
    (hne : ds ≠ []) (hds : Numeral b ds) (hc : Stops b c) :
    readBase (ds ++ c :: cs) b n = some (b, ds ++ c :: cs, n) := by
  rcases hb with rfl | rfl | rfl
  · rfl
  · rfl
  · unfold readBase
    rw [if_neg (by decide), if_pos rfl, hexPrefix_digits hne hds hc, ite_self]
    rfl

/-- Blanks, a sign and digits: the value up to the sign, and the rest. -/
theorem strntoumax_text {b n i : Nat} {sign ds : List Byte} {c : Byte} (cs : List Byte)
    (hb : b = 8 ∨ b = 10 ∨ b = 16) (hsign : sign = [] ∨ sign = [chr '-'] ∨ sign = [chr '+'] ∨
      sign = [chr ' ']) (hne : ds ≠ []) (hds : Numeral b ds) (hc : Stops b c)
    (hn : i + sign.length + ds.length ≤ n) :
    strntoumax (List.replicate i (chr ' ') ++ (sign ++ (ds ++ c :: cs))) b n =
      some (if sign = [chr '-'] then (2 ^ 64 - number b ds % 2 ^ 64) % 2 ^ 64
        else number b ds % 2 ^ 64, c :: cs) := by
  obtain ⟨d, ds', hds'⟩ : ∃ d ds', ds = d :: ds' := List.exists_cons_of_ne_nil hne
  obtain ⟨k, hk, -⟩ := hds d (by simp [hds'])
  obtain ⟨hspace, hminus, hplus⟩ := digit_plain hk
  have hlen : 0 < ds.length := List.length_pos_iff.mpr hne
  have hdigits : ∀ m, ds.length ≤ m →
      readDigits b (ds ++ c :: cs) m 0 = some (number b ds % 2 ^ 64, c :: cs) := by
    intro m hm
    rw [readDigits_numeral hds hm hc (by decide), Nat.zero_mul, Nat.zero_add]
  have hbase : ∀ m, readBase (ds ++ c :: cs) b m = some (b, ds ++ c :: cs, m) :=
    fun m => readBase_digits hb hne hds hc
  have hnosign : ∀ m, readSign (ds ++ c :: cs) m = some (false, ds ++ c :: cs, m) := by
    intro m
    rw [hds', List.cons_append, readSign]
    simp [hminus, hplus]
  have hskip : ∀ m, i ≤ m →
      skipBlanks (List.replicate i (chr ' ') ++ (ds ++ c :: cs)) m = some (ds ++ c :: cs, m - i) := by
    intro m hm
    rw [hds', List.cons_append]
    exact skipBlanks_blanks hm hspace
  rw [strntoumax]
  rcases hsign with rfl | rfl | rfl | rfl
  · rw [List.length_nil] at hn
    rw [List.nil_append, hskip n (by omega)]
    simp only [Option.bind_eq_bind, Option.bind_some, hnosign, hbase, hdigits (n - i) (by omega)]
    rfl
  · rw [List.length_singleton] at hn
    have hpos : n - i ≠ 0 := by omega
    rw [List.singleton_append, skipBlanks_blanks (by omega) rfl]
    simp only [Option.bind_eq_bind, Option.bind_some, readSign, ne_eq, hpos, not_false_eq_true,
      decide_true, Bool.and_self, if_true, hbase, hdigits (n - i - 1) (by omega)]
    rfl
  · rw [List.length_singleton] at hn
    have hpos : n - i ≠ 0 := by omega
    have hne' : chr '+' ≠ chr '-' := by decide
    rw [List.singleton_append, skipBlanks_blanks (by omega) rfl]
    simp only [Option.bind_eq_bind, Option.bind_some, readSign, ne_eq, hpos, not_false_eq_true,
      decide_true, hne', decide_false, Bool.and_false, Bool.false_eq_true, if_false, Bool.and_self,
      if_true, hbase, hdigits (n - i) (by omega)]
    rfl
  · rw [List.length_singleton] at hn
    have hjoin : List.replicate i (chr ' ') ++ ([chr ' '] ++ (ds ++ c :: cs)) =
        List.replicate (i + 1) (chr ' ') ++ (ds ++ c :: cs) := by
      rw [List.replicate_succ', List.append_assoc]
    have hskip' : skipBlanks (List.replicate (i + 1) (chr ' ') ++ (ds ++ c :: cs)) n =
        some (ds ++ c :: cs, n - (i + 1)) := by
      rw [hds', List.cons_append]
      exact skipBlanks_blanks (by omega) hspace
    rw [hjoin, hskip']
    simp only [Option.bind_eq_bind, Option.bind_some, hnosign, hbase, hdigits (n - (i + 1)) (by omega)]
    rfl

/-- Without digits the value is 0. -/
theorem strntoumax_blank {b n i j : Nat} {sign : List Byte} (rest : List Byte)
    (hb : b = 8 ∨ b = 10 ∨ b = 16) (hsign : sign = [] ∨ sign = [chr '-'] ∨ sign = [chr '+'] ∨
      sign = [chr ' ']) (hn : i + sign.length + j ≤ n) :
    ∃ q, strntoumax (List.replicate i (chr ' ') ++ (sign ++ (List.replicate j (chr ' ') ++ 0#8 :: rest)))
      b n = some (0, q) := by
  have hdigits : ∀ {c : Byte} cs m, digitval c = none → readDigits b (c :: cs) m 0 = some (0, c :: cs) := by
    intro c cs m hc
    rw [readDigits, hc]
    simp only [ite_self]
  have hbase : ∀ {c : Byte} cs m, c ≠ chr '0' → readBase (c :: cs) b m = some (b, c :: cs, m) := by
    intro c cs m hc
    rcases hb with rfl | rfl | rfl
    · rfl
    · rfl
    · simp [readBase, hexPrefix, hc]
  -- behind a sign comes a blank or the terminator
  obtain ⟨c, cs, hcs, hc, hc0⟩ : ∃ c cs, List.replicate j (chr ' ') ++ 0#8 :: rest = c :: cs ∧
      digitval c = none ∧ c ≠ chr '0' := by
    cases j with
    | zero => exact ⟨0#8, rest, rfl, rfl, by decide⟩
    | succ j => exact ⟨chr ' ', _, rfl, rfl, by decide⟩
  have hskip : ∀ k, k ≤ n → skipBlanks (List.replicate k (chr ' ') ++ 0#8 :: rest) n =
      some (0#8 :: rest, n - k) := fun k hk => skipBlanks_blanks hk rfl
  have hnosign : ∀ m, readSign (0#8 :: rest) m = some (false, 0#8 :: rest, m) := by
    intro m
    have hne : (0#8 : Byte) ≠ chr '-' ∧ (0#8 : Byte) ≠ chr '+' := by decide
    simp [readSign, hne]
  have hnil : ∀ k, k ≤ n →
      ∃ q, strntoumax (List.replicate k (chr ' ') ++ 0#8 :: rest) b n = some (0, q) := by
    intro k hk
    refine ⟨0#8 :: rest, ?_⟩
    rw [strntoumax, hskip k hk]
    simp only [Option.bind_eq_bind, Option.bind_some, hnosign, hbase rest _ (show 0#8 ≠ chr '0' by decide),
      hdigits rest _ (show digitval 0#8 = none from rfl)]
    rfl
  rcases hsign with rfl | rfl | rfl | rfl
  · rw [List.length_nil] at hn
    rw [List.nil_append, ← List.append_assoc, List.replicate_append_replicate]
    exact hnil _ (by omega)
  · rw [List.length_singleton] at hn
    have hpos : n - i ≠ 0 := by omega
    refine ⟨c :: cs, ?_⟩
    rw [strntoumax, List.singleton_append, skipBlanks_blanks (by omega) rfl, hcs]
    simp only [Option.bind_eq_bind, Option.bind_some, readSign, ne_eq, hpos, not_false_eq_true,
      decide_true, Bool.and_self, if_true, hbase cs _ hc0, hdigits cs _ hc]
    rfl
  · rw [List.length_singleton] at hn
    have hpos : n - i ≠ 0 := by omega
    have hne' : chr '+' ≠ chr '-' := by decide
    refine ⟨c :: cs, ?_⟩
    rw [strntoumax, List.singleton_append, skipBlanks_blanks (by omega) rfl, hcs]
    simp only [Option.bind_eq_bind, Option.bind_some, readSign, ne_eq, hpos, not_false_eq_true,
      decide_true, hne', decide_false, Bool.and_false, Bool.false_eq_true, if_false, Bool.and_self,
      if_true, hbase cs _ hc0, hdigits cs _ hc]
    rfl
  · rw [List.length_singleton] at hn
    have hjoin : List.replicate i (chr ' ') ++ ([chr ' '] ++ (List.replicate j (chr ' ') ++ 0#8 :: rest)) =
        List.replicate (i + (1 + j)) (chr ' ') ++ 0#8 :: rest := by
      rw [← List.replicate_append_replicate, ← List.replicate_append_replicate, List.append_assoc,
        List.append_assoc]
      rfl
    rw [hjoin]
    exact hnil _ (by omega)

/-- Blanks, a sign, digits if there are any, and blanks up to the terminator. -/
theorem strntoumax_printed {b n i j : Nat} {sign ds : List Byte} (rest : List Byte)
    (hb : b = 8 ∨ b = 10 ∨ b = 16) (hsign : sign = [] ∨ sign = [chr '-'] ∨ sign = [chr '+'] ∨
      sign = [chr ' ']) (hds : Numeral b ds) (hn : i + sign.length + ds.length + j ≤ n) :
    ∃ q, strntoumax (List.replicate i (chr ' ') ++ (sign ++ (ds ++ (List.replicate j (chr ' ') ++
      0#8 :: rest)))) b n = some (if sign = [chr '-'] then (2 ^ 64 - number b ds % 2 ^ 64) % 2 ^ 64
        else number b ds % 2 ^ 64, q) := by
  by_cases hne : ds = []
  · subst hne
    rw [List.length_nil] at hn
    have hzero : (if sign = [chr '-'] then (2 ^ 64 - number b [] % 2 ^ 64) % 2 ^ 64
        else number b [] % 2 ^ 64) = 0 := by simp [number]
    rw [hzero]
    exact strntoumax_blank rest hb hsign (by omega)
  · -- behind the digits comes a blank or the terminator
    obtain ⟨c, cs, hcs, hc⟩ : ∃ c cs, List.replicate j (chr ' ') ++ 0#8 :: rest = c :: cs ∧
        digitval c = none := by
      cases j with
      | zero => exact ⟨0#8, rest, rfl, rfl⟩
      | succ j => exact ⟨chr ' ', _, rfl, rfl⟩
    rw [hcs]
    exact ⟨_, strntoumax_text cs hb hsign hne hds (stops_of_none b hc) (by omega)⟩

/-! ## Integer conversions -/

theorem toInt_range {w : Nat} (v : BitVec w) (hw : w ≤ 64) : -2 ^ 63 ≤ v.toInt ∧ v.toInt < 2 ^ 63 := by
  have hle := BitVec.le_toInt v
  have hlt := BitVec.toInt_lt (x := v)
  have hpow : (2 : Int) ^ (w - 1) ≤ 2 ^ 63 := pow_le_pow_right₀ (by decide) (by omega)
  omega

/-- The magnitude fits into `unsigned long long`, and a negative one into `long long`. -/
theorem integerValue_lt {flags : Flags} {c : Byte} {va va' : List Arg} {m : Nat} {neg : Bool}
    (h : integerValue flags c va = some (m, neg, va')) :
    m < 2 ^ 64 ∧ (neg = true → 0 < m ∧ m ≤ 2 ^ 63) := by
  have hsigned : ∀ (v : Int) (va : List Arg), -2 ^ 63 ≤ v ∧ v < 2 ^ 63 →
      some (v.natAbs, decide (v < 0), va) = some (m, neg, va') →
        m < 2 ^ 64 ∧ (neg = true → 0 < m ∧ m ≤ 2 ^ 63) := by
    intro v va hv heq
    simp only [Option.some.injEq, Prod.mk.injEq] at heq
    obtain ⟨rfl, rfl, -⟩ := heq
    rw [decide_eq_true_eq]
    omega
  have hunsigned : ∀ (v : Nat) (va : List Arg), v < 2 ^ 64 → some (v, false, va) = some (m, neg, va') →
      m < 2 ^ 64 ∧ (neg = true → 0 < m ∧ m ≤ 2 ^ 63) := by
    intro v va hv heq
    simp only [Option.some.injEq, Prod.mk.injEq] at heq
    obtain ⟨rfl, rfl, -⟩ := heq
    exact ⟨hv, fun hn => by cases hn⟩
  unfold integerValue at h
  split at h
  · split at h
    · obtain ⟨⟨v, va⟩, -, hv⟩ := Option.bind_eq_some_iff.mp h
      exact hsigned _ _ (toInt_range v (by decide)) hv
    split at h
    · obtain ⟨⟨v, va⟩, -, hv⟩ := Option.bind_eq_some_iff.mp h
      exact hsigned _ _ (toInt_range v (by decide)) hv
    · obtain ⟨⟨v, va⟩, -, hv⟩ := Option.bind_eq_some_iff.mp h
      refine hsigned _ _ ?_ hv
      split
      · omega
      split
      · exact toInt_range (v.setWidth 16) (by decide)
      · exact toInt_range v (by decide)
  · split at h
    · obtain ⟨⟨v, va⟩, -, hv⟩ := Option.bind_eq_some_iff.mp h
      exact hunsigned _ _ v.isLt hv
    split at h
    · obtain ⟨⟨v, va⟩, -, hv⟩ := Option.bind_eq_some_iff.mp h
      exact hunsigned _ _ (Nat.lt_trans v.isLt (by decide)) hv
    · obtain ⟨⟨v, va⟩, -, hv⟩ := Option.bind_eq_some_iff.mp h
      refine hunsigned _ _ ?_ hv
      have hlt : v.toNat < 2 ^ 32 := v.isLt
      split
      · omega
      split
      · omega
      · omega

theorem baseOf_cases {c : Byte} (hb : c ≠ chr 'b') :
    baseOf c = 8 ∨ baseOf c = 10 ∨ baseOf c = 16 := by
  rw [baseOf]
  split
  · exact .inr (.inr rfl)
  split
  · exact .inl rfl
  · exact .inr (.inl rfl)

section Convert

variable {s : Spec} {va va' : List Arg} {m : Nat} {neg : Bool}

theorem integerFlags_value (flags : Flags) (c : Byte) (va : List Arg) :
    integerValue (integerFlags flags c) c va = integerValue flags c va := by
  have hsize : (integerFlags flags c).longLong = flags.longLong ∧
      (integerFlags flags c).long = flags.long ∧ (integerFlags flags c).short = flags.short ∧
      (integerFlags flags c).char = flags.char := by
    unfold integerFlags
    simp only
    split <;> split <;> split <;> split <;> exact ⟨rfl, rfl, rfl, rfl⟩
  rw [integerValue, integerValue, hsize.1, hsize.2.1, hsize.2.2.1, hsize.2.2.2]

theorem convert_integer {σ : Type} (out : Byte → σ → Nat → Nat → σ) (maxlen : Nat) (fp : Floats)
    (o : Out σ) (hint : isInteger s.specifier = true)
    (hval : integerValue s.flags s.specifier va = some (m, neg, va')) :
    convert out maxlen fp o s va = some (ntoaLong out maxlen o m neg (baseOf s.specifier) s.precision
      s.width (integerFlags s.flags s.specifier), va') := by
  rw [convert, if_pos hint, putInteger, integerFlags_value, hval]
  simp only [Option.bind_eq_bind, Option.bind_some, ntoaLongLong, ite_self]
  rfl

theorem integerFlags_hash {flags : Flags} (c : Byte) (h : flags.hash = false) :
    (integerFlags flags c).hash = false := by
  unfold integerFlags
  simp only
  split <;> split <;> split <;> split <;> first | exact h | rfl

theorem integerFlags_left (flags : Flags) (c : Byte) : (integerFlags flags c).left = flags.left := by
  unfold integerFlags
  simp only
  split <;> split <;> split <;> split <;> rfl

theorem integerFlags_precision (flags : Flags) (c : Byte) :
    (integerFlags flags c).precision = flags.precision := by
  unfold integerFlags
  simp only
  split <;> split <;> split <;> split <;> rfl

theorem integerFlags_zeropad (flags : Flags) (c : Byte) :
    (integerFlags flags c).zeropad = (flags.zeropad && !flags.precision) := by
  unfold integerFlags
  simp only
  split <;> split <;> split <;> split <;> simp_all

theorem digitsOf_numeral {b : Nat} (hb : b = 8 ∨ b = 10 ∨ b = 16) (flags : Flags) (n : Nat) :
    Numeral b (digitsOf n b flags) ∧ number b (digitsOf n b flags) = n := by
  rw [digitsOf]
  split
  case isTrue => exact ⟨radix_numeral _ (by omega) (by omega) n, number_radix _ (by omega) (by omega) n⟩
  case isFalse h =>
    have hn : n = 0 := by
      by_contra hn
      exact h (by simp [hn])
    rw [hn]
    exact ⟨fun d hd => absurd hd List.not_mem_nil, rfl⟩

theorem numeral_zeros_digits {b k : Nat} (hb : b = 8 ∨ b = 10 ∨ b = 16) (flags : Flags) (n : Nat) :
    Numeral b (List.replicate k (chr '0') ++ digitsOf n b flags) ∧
      number b (List.replicate k (chr '0') ++ digitsOf n b flags) = n := by
  obtain ⟨hnumeral, hnumber⟩ := digitsOf_numeral hb flags n
  exact ⟨(numeral_zeros (by omega) k).append hnumeral, (number_zeros b k _).trans hnumber⟩

theorem digitsOf_short {b : Nat} (hb : 2 ≤ b) (flags : Flags) {n : Nat} (hn : n < b ^ 22) :
    (digitsOf n b flags).length ≤ 22 := by
  rw [digitsOf]
  split
  · exact radix_length_le _ hb (by decide) hn
  · exact Nat.zero_le 22

theorem shownMark_cases (len : Nat) (negative : Bool) (prec width : Nat) (flags : Flags) :
    shownMark len negative prec width flags = [] ∨ shownMark len negative prec width flags = [chr '-'] ∨
      shownMark len negative prec width flags = [chr '+'] ∨
        shownMark len negative prec width flags = [chr ' '] := by
  rw [shownMark, mark]
  split
  · split
    · exact .inr (.inl rfl)
    split
    · exact .inr (.inr (.inl rfl))
    split
    · exact .inr (.inr (.inr rfl))
    · exact .inl rfl
  · exact .inl rfl

/-- The minus is put out exactly if the number is negative and the buffer has room for it. -/
theorem shownMark_minus (len : Nat) (negative : Bool) (prec width : Nat) (flags : Flags) :
    shownMark len negative prec width flags = [chr '-'] ↔
      negative = true ∧ len + zeros len negative prec width flags < 32 := by
  rw [shownMark, mark]
  split
  case isTrue h =>
    cases negative with
    | true => simp [h]
    | false =>
      simp only [Bool.false_eq_true, if_false, false_and, iff_false]
      split
      · decide
      split
      · decide
      · decide
  case isFalse h => simp [h]

/-- When zeros fill the buffer of a negative number. -/
theorem zeros_full {len prec width : Nat} {flags : Flags} (hlen : len < 32) :
    len + zeros len true prec width flags < 32 ↔
      ¬ (flags.left = false ∧ (32 ≤ prec ∨ (flags.zeropad = true ∧ 32 < width))) := by
  have hmark : mark true flags ≠ [] := by simp [mark]
  rw [zeros]
  cases hleft : flags.left with
  | true => simpa using hlen
  | false =>
    cases hz : flags.zeropad with
    | true =>
      simp only [Bool.false_eq_true, if_false, if_true, hmark, ne_eq, not_false_eq_true, and_true,
        true_and]
      split
      · omega
      · omega
    | false =>
      simp only [Bool.false_eq_true, if_false, false_and, or_false, true_and]
      omega

/-- Zeros and digits leave no room for a sign. -/
def NoRoom (prec width : Nat) (flags : Flags) : Prop :=
  flags.left = false ∧ (32 ≤ prec ∨ (flags.zeropad = true ∧ 32 < width))

theorem below_pow {b : Nat} (hb : b = 8 ∨ b = 10 ∨ b = 16) (hm : m < 2 ^ 64) :
    2 ≤ b ∧ m < b ^ 22 ∧ m < b ^ 32 := by
  rcases hb with rfl | rfl | rfl
  · omega
  · omega
  · omega

/-- What `strntoumax` reads from the characters of `_ntoa_long`. -/
theorem ntoaLong_reads {base width : Nat} {flags : Flags} (neg : Bool) (prec : Nat)
    (hb : base = 8 ∨ base = 10 ∨ base = 16) (hhash : flags.hash = false) (hm : m < 2 ^ 64)
    (hwidth : width < 2 ^ 32) (rest : List Byte) :
    ∃ v q, strntoumax ((ntoaLong outText 0 ⟨[], 0⟩ m neg base prec width flags).buffer ++ 0#8 :: rest)
        base (2 ^ 32 - 1) = some (v, q) ∧
      (neg = true ∧ ¬ NoRoom prec width flags → v = (2 ^ 64 - m) % 2 ^ 64) ∧
      (¬ (neg = true ∧ ¬ NoRoom prec width flags) → v = m) := by
  obtain ⟨hb2, hm22, hm32⟩ := below_pow hb hm
  have hlen := digitsOf_short hb2 flags hm22
  have hidx : flags.left = true → (0 : Nat) + 64 < 2 ^ 32 ∧ 0 + width < 2 ^ 32 :=
    fun _ => ⟨by decide, by omega⟩
  have htext := ntoaLong_text (t := ⟨[], 0⟩) neg prec hhash hb2 hm32 hidx
  obtain ⟨hnum, hvalue⟩ := numeral_zeros_digits
    (k := zeros (digitsOf m base flags).length neg prec width flags) hb flags m
  simp only [List.nil_append] at htext
  generalize digitsOf m base flags = ds at hlen htext hnum hvalue
  have hminus := shownMark_minus ds.length neg prec width flags
  have hcases := shownMark_cases ds.length neg prec width flags
  have hsignlen := shownMark_length ds.length neg prec width flags
  have hklen := zeros_le _ neg prec width flags (Nat.le_trans hlen (by decide))
  generalize hpad : blanks _ width flags = pad at htext
  generalize shownMark ds.length neg prec width flags = sign at htext hminus hcases hsignlen hpad
  have hfit : pad.1 + sign.length + (List.replicate (zeros ds.length neg prec width flags) (chr '0') ++
      ds).length + pad.2 ≤ 2 ^ 32 - 1 := by
    rw [List.length_append, List.length_replicate, ← hpad, blanks]
    cases flags.left with
    | true =>
      simp only [Bool.true_or, if_true]
      omega
    | false =>
      simp only [Bool.false_or, Bool.false_eq_true, if_false]
      split
      · omega
      · omega
  obtain ⟨q, hread⟩ := strntoumax_printed rest hb hcases hnum hfit
  rw [hvalue, Nat.mod_eq_of_lt hm] at hread
  have hroom : sign = [chr '-'] ↔ neg = true ∧ ¬ NoRoom prec width flags := by
    rw [hminus, and_congr_right_iff]
    rintro rfl
    exact zeros_full (by omega)
  refine ⟨if sign = [chr '-'] then (2 ^ 64 - m) % 2 ^ 64 else m, q, ?_,
    fun h => if_pos (hroom.mpr h), fun h => if_neg fun hs => h (hroom.mp hs)⟩
  rw [htext]
  simp only [List.append_assoc] at hread ⊢
  exact hread

/-- `strntoumax` reads back what an integer conversion without `#` puts out, whatever its flags, width
and precision, unless the minus sign was left out because 32 zeros and digits fill the buffer. -/
theorem integer_reads_back (fp : Floats) (hint : isInteger s.specifier = true)
    (hbin : s.specifier ≠ chr 'b') (hhash : s.flags.hash = false) (hwidth : s.width < 2 ^ 32)
    (hval : integerValue s.flags s.specifier va = some (m, neg, va')) (rest : List Byte) :
    ∃ o v q, convert outText 0 fp ⟨[], 0⟩ s va = some (o, va') ∧
      strntoumax (o.buffer ++ 0#8 :: rest) (baseOf s.specifier) (2 ^ 32 - 1) = some (v, q) ∧
      (v = (if neg then 2 ^ 64 - m else m) ↔
        (neg = true → s.flags.left = false →
          32 ≤ s.precision ∨ (s.flags.zeropad = true ∧ s.flags.precision = false ∧ 32 < s.width) →
            m = 2 ^ 63)) := by
  obtain ⟨hm, hneg⟩ := integerValue_lt hval
  have hnoroom : NoRoom s.precision s.width (integerFlags s.flags s.specifier) ↔
      s.flags.left = false ∧
        (32 ≤ s.precision ∨ (s.flags.zeropad = true ∧ s.flags.precision = false ∧ 32 < s.width)) := by
    rw [NoRoom, integerFlags_left, integerFlags_zeropad]
    simp [and_assoc]
  obtain ⟨v, q, hread, hminus, hplain⟩ := ntoaLong_reads neg s.precision (baseOf_cases hbin)
    (integerFlags_hash s.specifier hhash) hm hwidth rest
  refine ⟨_, v, q, convert_integer outText 0 fp ⟨[], 0⟩ hint hval, hread, ?_⟩
  cases neg with
  | false =>
    rw [hplain (by simp)]
    simp
  | true =>
    obtain ⟨hm0, hm63⟩ := hneg rfl
    by_cases hroom : NoRoom s.precision s.width (integerFlags s.flags s.specifier)
    · rw [hplain (by simp [hroom])]
      obtain ⟨hleft, hfull⟩ := hnoroom.mp hroom
      simp only [if_true, hleft, hfull, true_imp_iff]
      omega
    · rw [hminus ⟨rfl, hroom⟩, Nat.mod_eq_of_lt (by omega)]
      simp only [if_true, true_imp_iff]
      exact ⟨fun _ hleft hfull => absurd (hnoroom.mpr ⟨hleft, hfull⟩) hroom, fun _ => trivial⟩

/-- `%033d` of a negative number. -/
theorem integer_reads_back_long : ∃ o v q,
    convert outText 0 ⟨fun _ _ _ _ => [], fun _ _ _ _ => []⟩ ⟨[], 0⟩
      ⟨{ Flags.none with zeropad := true }, 33, 0, chr 'd'⟩ [.word (-5#32)] = some (o, []) ∧
    strntoumax (o.buffer ++ [0#8]) 10 (2 ^ 32 - 1) = some (v, q) ∧
    v ≠ 2 ^ 64 - 5 := by
  have hval : integerValue { Flags.none with zeropad := true } (chr 'd') [.word (-5#32)] =
      some (5, true, []) := rfl
  obtain ⟨o, v, q, hconvert, hread, hv⟩ := integer_reads_back
    (s := ⟨{ Flags.none with zeropad := true }, 33, 0, chr 'd'⟩)
    ⟨fun _ _ _ _ => [], fun _ _ _ _ => []⟩ rfl (by decide) rfl (by decide) hval []
  refine ⟨o, v, q, hconvert, hread, fun hback => ?_⟩
  exact absurd (hv.mp hback rfl rfl (.inr ⟨rfl, rfl, by decide⟩)) (by decide)

/-- An integer conversion without `#` puts out at least as many characters as its width says, unless
it was to fill more than 32 places with zeros. -/
theorem integer_width (fp : Floats) (hint : isInteger s.specifier = true) (hhash : s.flags.hash = false)
    (hwidth : s.width < 2 ^ 32) (hval : integerValue s.flags s.specifier va = some (m, neg, va')) :
    ∃ o, convert outText 0 fp ⟨[], 0⟩ s va = some (o, va') ∧
      (s.width ≤ o.buffer.length ↔
        ¬ (s.flags.zeropad = true ∧ s.flags.precision = false ∧ s.flags.left = false ∧
          32 < s.width)) := by
  refine ⟨_, convert_integer outText 0 fp ⟨[], 0⟩ hint hval, ?_⟩
  have hleft := integerFlags_left s.flags s.specifier
  have hzero := integerFlags_zeropad s.flags s.specifier
  have hhash' := integerFlags_hash s.specifier hhash
  generalize integerFlags s.flags s.specifier = flags at hleft hzero hhash' ⊢
  have hidx : flags.left = true → (0 : Nat) + 64 < 2 ^ 32 ∧ 0 + s.width < 2 ^ 32 :=
    fun _ => ⟨by decide, by omega⟩
  have hlen : (ntoaDigitsOf m (baseOf s.specifier) flags).1.reverse.length ≤ 32 := by
    rw [List.length_reverse]
    exact ntoaDigitsOf_length m (baseOf s.specifier) flags
  rw [ntoaLong_chars (t := ⟨[], 0⟩) neg s.precision hhash' (List.reverse_reverse _).symm hlen hidx]
  have hklen := zeros_le _ neg s.precision s.width flags hlen
  have hmark := mark_length neg flags
  have hnil : (mark neg flags).length = 0 ↔ mark neg flags = [] := List.length_eq_zero_iff
  simp only [List.nil_append, List.length_append, List.length_replicate, shownMark, blanks]
  generalize (ntoaDigitsOf m (baseOf s.specifier) flags).1.reverse.length = len at hlen hklen ⊢
  rw [← hleft]
  have hz : flags.zeropad = true ↔ s.flags.zeropad = true ∧ s.flags.precision = false := by
    rw [hzero]
    simp
  rw [← and_assoc, ← hz]
  cases hl : flags.left with
  | true =>
    simp only [hl, zeros, Bool.true_or, if_true, Bool.true_eq_false, false_and, and_false,
      not_false_eq_true, iff_true]
    omega
  | false =>
    cases hzp : flags.zeropad with
    | false =>
      simp only [Bool.or_self, Bool.false_eq_true, if_false, false_and, not_false_eq_true, iff_true]
      omega
    | true =>
      simp only [zeros, hl, hzp, Bool.or_true, if_true, Bool.false_eq_true, if_false, true_and,
        apply_ite List.length, List.length_nil, ne_eq, ← hnil] at hklen ⊢
      generalize (mark neg flags).length = l at hmark hklen ⊢
      split
      · split
        · omega
        · omega
      · split
        · omega
        · omega

/-- `%08x`. -/
theorem integer_width_eight : ∃ o,
    convert outText 0 ⟨fun _ _ _ _ => [], fun _ _ _ _ => []⟩ ⟨[], 0⟩
      ⟨{ Flags.none with zeropad := true }, 8, 0, chr 'x'⟩ [.word 0xBEEF#32] = some (o, []) ∧
    8 ≤ o.buffer.length := by
  have hval : integerValue { Flags.none with zeropad := true } (chr 'x') [.word 0xBEEF#32] =
      some (0xBEEF, false, []) := rfl
  obtain ⟨o, hconvert, hwidth⟩ := integer_width
    (s := ⟨{ Flags.none with zeropad := true }, 8, 0, chr 'x'⟩)
    ⟨fun _ _ _ _ => [], fun _ _ _ _ => []⟩ rfl rfl (by decide) hval
  exact ⟨o, hconvert, hwidth.mpr (by simp)⟩

end Convert

end Libc
end Air101

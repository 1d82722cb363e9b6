import Air101.Libc.Reading
import Air101.Storage.CStr

/-!
# Utils.Hex

Hex digits as text (`platform/common/utils/utils.c`): `atohex`, `hex_to_digit`, `digit_to_hex`,
`strtohexarray`, `mactostr`, `strtohex` and `hexstr_to_unit`. `char` has no sign.

* `strtohexarray_iff`: the strings it accepts, and what it stores.
* `mactostr_reads_back`: what `mactostr` prints is read back.
* `hex_numbers`: `strtohex` and `hexstr_to_unit` on one string.
-/

namespace Air101
namespace Utils

open Storage Libc

def atohex (ch : Byte) : Int :=
  if ch ≥ 0x30#8 ∧ ch ≤ 0x39#8 then ch.toNat - 0x30
  else if ch ≥ 0x61#8 ∧ ch ≤ 0x66#8 then ch.toNat - 0x61 + 0xa
  else if ch ≥ 0x41#8 ∧ ch ≤ 0x46#8 then ch.toNat - 0x41 + 0xa
  else -1

def hexToDigit (c : Int) : Int :=
  if 0x30 ≤ c ∧ c ≤ 0x39 then c - 0x30
  else if 0x41 ≤ c ∧ c ≤ 0x46 then c - (0x41 - 10)
  else if 0x61 ≤ c ∧ c ≤ 0x66 then c - (0x61 - 10)
  else -1

def digitToHex (c : Int) : Int :=
  if 0 ≤ c ∧ c ≤ 9 then c + 0x30
  else if 0xA ≤ c ∧ c ≤ 0xF then c - 0xA + 0x41
  else -1

/-- `tmp = (hex << 4) & 0xf0` and `tmp = tmp | (hex & 0x0f)` -/
def hexByte (high low : Int) : Byte :=
  ((BitVec.ofInt 8 high <<< 4) &&& 0xF0#8) ||| (BitVec.ofInt 8 low &&& 0x0F#8)

/-- `strtohexarray`: the result and the bytes stored at `array`. -/
def strtohexarray : Nat → List Byte → Option (Int × List Byte)
  | _, [] => none
  | 0, c :: _ => some (if c = 0#8 then 0 else -1, [])
  | _ + 1, [c] => if atohex c < 0 then some (-1, []) else none
  | cnt + 1, c :: d :: str =>
    if atohex c < 0 then some (-1, [])
    else if atohex d < 0 then some (-1, [])
    else (strtohexarray cnt str).map fun r => (r.1, hexByte (atohex c) (atohex d) :: r.2)

/-- `strtohex`: the result and what is stored at `hex`. -/
def strtohexLoop : List Byte → Int → Nat → BitVec 32 → Option (Int × Option (BitVec 32))
  | [], _, _, _ => none
  | c :: str, n, i, dd =>
    if c = 0#8 then some (if n < 0 then -1 else 0, some dd)
    else if atohex c < 0 then some (-1, none)
    else if i + 1 > 8 then some (-1, none)
    else strtohexLoop str (atohex c) (i + 1) ((dd <<< 4) + BitVec.ofInt 32 (atohex c))

def strtohex (str : List Byte) : Option (Int × Option (BitVec 32)) := strtohexLoop str (-1) 0 0#32

/-- The loop of `hexstr_to_unit` over the characters in front of the terminator. -/
def hexstrLoop : List Byte → BitVec 32 → Int × BitVec 32
  | [], d => (0, d)
  | b :: buf, d =>
    if hexToDigit b.toNat < 0 then (-1, d)
    else hexstrLoop buf (BitVec.ofInt 32 (hexToDigit b.toNat) ||| (d <<< 4))

/-- `hexstr_to_unit`: the result and `*d`. -/
def hexstrToUnit (buf : List Byte) : Option (Int × BitVec 32) :=
  if 0#8 ∈ buf then
    let chars := buf.takeWhile (· ≠ 0#8)
    some (if chars.length > 8 then (-1, 0#32) else hexstrLoop chars 0#32)
  else none

/-- `"%02x%02x%02x%02x%02x%02x"` -/
def macFormat : List Byte :=
  (List.replicate 6 [chr '%', chr '0', chr '2', chr 'x']).flatten ++ [0#8]

/-- `mactostr` prints with `sprintf`. -/
def mactostr (fp : Floats) (mac : List Byte) : Option (List Byte) :=
  (text fp macFormat (mac.map fun c => Arg.word (c.setWidth 32))).map (· ++ [0#8])

/-! ## Digits -/

/-- A character is a hex digit of some value, or `atohex` fails. -/
theorem atohex_cases (c : Byte) :
    (∃ d, digitval c = some d ∧ d < 16 ∧ atohex c = d) ∨
      ((∀ d, digitval c = some d → 16 ≤ d) ∧ atohex c = -1) := by
  simp only [atohex, digitval, ge_iff_le, BitVec.le_def, BitVec.toNat_ofNat, Nat.reducePow,
    Nat.reduceMod]
  generalize c.toNat = n
  by_cases h0 : 0x30 ≤ n ∧ n ≤ 0x39
  · rw [if_pos h0, if_pos h0]
    exact .inl ⟨_, rfl, by omega, by omega⟩
  rw [if_neg h0, if_neg h0]
  by_cases hu : 0x41 ≤ n ∧ n ≤ 0x5A
  · have hl : ¬ (0x61 ≤ n ∧ n ≤ 0x66) := by omega
    rw [if_pos hu, if_neg hl]
    by_cases hf : 0x41 ≤ n ∧ n ≤ 0x46
    · rw [if_pos hf]
      exact .inl ⟨_, rfl, by omega, by omega⟩
    · rw [if_neg hf]
      refine .inr ⟨fun d hd => ?_, rfl⟩
      injection hd
      omega
  have hf : ¬ (0x41 ≤ n ∧ n ≤ 0x46) := by omega
  rw [if_neg hu, if_neg hf]
  by_cases hl : 0x61 ≤ n ∧ n ≤ 0x7A
  · rw [if_pos hl]
    by_cases hg : 0x61 ≤ n ∧ n ≤ 0x66
    · rw [if_pos hg]
      exact .inl ⟨_, rfl, by omega, by omega⟩
    · rw [if_neg hg]
      refine .inr ⟨fun d hd => ?_, rfl⟩
      injection hd
      omega
  · have hg : ¬ (0x61 ≤ n ∧ n ≤ 0x66) := by omega
    rw [if_neg hl, if_neg hg]
    exact .inr ⟨fun d hd => absurd hd (by simp), rfl⟩

/-- The digits are read back, and what is none gives what is none. -/
theorem hexToDigit_digitToHex (c : Int) :
    hexToDigit (digitToHex c) = if 0 ≤ c ∧ c ≤ 15 then c else -1 := by
  rw [digitToHex]
  split
  case isTrue h =>
    rw [hexToDigit, if_pos (by omega), if_pos (by omega)]
    omega
  case isFalse h =>
    split
    case isTrue h' =>
      rw [hexToDigit, if_neg (by omega), if_pos (by omega), if_pos (by omega)]
      omega
    case isFalse h' =>
      rw [if_neg (by omega)]
      rfl

theorem hexToDigit_eq (c : Byte) : hexToDigit c.toNat = atohex c := by
  simp only [atohex, hexToDigit, ge_iff_le, BitVec.le_def, BitVec.toNat_ofNat, Nat.reducePow,
    Nat.reduceMod]
  generalize c.toNat = n
  split
  · rw [if_pos (by omega)]
  split
  · rw [if_neg (by omega), if_neg (by omega), if_pos (by omega)]
    omega
  split
  · rw [if_neg (by omega), if_pos (by omega)]
    omega
  · rw [if_neg (by omega), if_neg (by omega), if_neg (by omega)]

/-- The two small digits of a byte. -/
def hexText (c : Byte) : List Byte := [digit false (c.toNat / 16), digit false (c.toNat % 16)]

/-- A character is the digit of a value, up to the case of a letter. -/
theorem caseEq_digit {d : Nat} (h : d < 16) (c : Byte) :
    CaseEq (digit false d) c ↔ digitval c = some d := by
  have hd := digit_toNat false (d := d) (by omega)
  have hc := c.isLt
  simp only [Bool.false_eq_true, if_false] at hd
  generalize digit false d = e at hd ⊢
  simp only [CaseEq, digitval, BitVec.le_def, BitVec.toNat_ofNat, ← BitVec.toNat_inj, BitVec.toNat_add]
  by_cases h10 : d < 10
  · rw [if_pos h10] at hd
    split
    · rw [Option.some_inj]
      omega
    split
    · rw [Option.some_inj]
      omega
    split
    · rw [Option.some_inj]
      omega
    · simp
      omega
  · rw [if_neg h10] at hd
    split
    · rw [Option.some_inj]
      omega
    split
    · rw [Option.some_inj]
      omega
    split
    · rw [Option.some_inj]
      omega
    · simp
      omega

theorem hexByte_halves {d e : Nat} (hd : d < 16) (he : e < 16) :
    hexByte d e = BitVec.ofNat 8 (16 * d + e) := by
  rw [hexByte, BitVec.ofInt_natCast, BitVec.ofInt_natCast]
  interval_cases d <;> interval_cases e <;> rfl

/-! ## Arrays -/

theorem strtohexarray_pair {c d : Byte} (cnt : Nat) (str : List Byte) :
    strtohexarray (cnt + 1) (c :: d :: str) =
      if atohex c < 0 then some (-1, [])
      else if atohex d < 0 then some (-1, [])
      else (strtohexarray cnt str).map fun r => (r.1, hexByte (atohex c) (atohex d) :: r.2) := by
  rw [strtohexarray]

/-- A byte is that of two characters exactly if they are its digits. -/
theorem hexText_iff {c d : Byte} (b : Byte) :
    (CaseEq (digit false (b.toNat / 16)) c ∧ CaseEq (digit false (b.toNat % 16)) d) ↔
      0 ≤ atohex c ∧ 0 ≤ atohex d ∧ hexByte (atohex c) (atohex d) = b := by
  have hb := b.isLt
  rw [caseEq_digit (by omega), caseEq_digit (by omega)]
  rcases atohex_cases c with ⟨i, hi, hi16, hci⟩ | ⟨hno, hci⟩
  case inr =>
    rw [hci]
    exact ⟨fun h => absurd (hno _ h.1) (by omega), fun h => absurd h.1 (by decide)⟩
  rcases atohex_cases d with ⟨j, hj, hj16, hdj⟩ | ⟨hno, hdj⟩
  case inr =>
    rw [hdj]
    exact ⟨fun h => absurd (hno _ h.2) (by omega), fun h => absurd h.2.1 (by decide)⟩
  rw [hi, hj, hci, hdj, hexByte_halves hi16 hj16, Option.some_inj, Option.some_inj,
    ← BitVec.toNat_inj, BitVec.toNat_ofNat]
  omega

/-- `strtohexarray` returns on every string, and accepts exactly the texts of `cnt` bytes, in small
letters or capitals. -/
theorem strtohexarray_iff (s : CStr) (rest : List Byte) (cnt : Nat) :
    (∃ r array, strtohexarray cnt (s.mem rest) = some (r, array) ∧ (r = 0 ∨ r = -1) ∧
      array.length ≤ cnt) ∧
    ∀ bs, strtohexarray cnt (s.mem rest) = some (0, bs) ↔
      bs.length = cnt ∧ EqFold (bs.flatMap hexText) s.chars := by
  obtain ⟨chars, hnul⟩ := s
  simp only [CStr.mem]
  induction cnt generalizing chars with
  | zero =>
    cases chars with
    | nil =>
      refine ⟨⟨0, [], rfl, .inl rfl, Nat.le_refl 0⟩, fun bs => ⟨fun h => ?_, fun h => ?_⟩⟩
      · injection h with h
        injection h with _ h
        rw [← h]
        exact ⟨rfl, .nil⟩
      · rw [List.eq_nil_of_length_eq_zero h.1]
        rfl
    | cons c chars =>
      have hc : c ≠ 0#8 := hnul c (by simp)
      have hcall : ∀ str, strtohexarray 0 (c :: str) = some (-1, []) := by
        intro str
        rw [strtohexarray, if_neg hc]
      rw [List.cons_append, hcall]
      refine ⟨⟨-1, [], rfl, .inr rfl, Nat.le_refl 0⟩, fun bs => ⟨fun h => ?_, fun h => ?_⟩⟩
      · cases h
      · rw [List.eq_nil_of_length_eq_zero h.1] at h
        cases h.2
  | succ cnt ih =>
    -- fewer than two characters: the terminator is no digit
    have hshort : ∀ {str : List Byte}, strtohexarray (cnt + 1) str = some (-1, []) →
        (∃ r array, strtohexarray (cnt + 1) str = some (r, array) ∧ (r = 0 ∨ r = -1) ∧
          array.length ≤ cnt + 1) ∧ ∀ bs, strtohexarray (cnt + 1) str ≠ some (0, bs) := by
      intro str h
      rw [h]
      exact ⟨⟨-1, [], rfl, .inr rfl, Nat.zero_le _⟩, fun bs h => by cases h⟩
    match chars, hnul with
    | [], _ =>
      have hcall : strtohexarray (cnt + 1) (0#8 :: rest) = some (-1, []) := by
        cases rest with
        | nil => rfl
        | cons d rest => rfl
      obtain ⟨hret, hno⟩ := hshort hcall
      refine ⟨hret, fun bs => ⟨fun h => absurd h (hno bs), fun ⟨hlen, h⟩ => ?_⟩⟩
      obtain ⟨b, bs, rfl⟩ := List.exists_cons_of_length_eq_add_one hlen
      cases h
    | [c], _ =>
      have hcall : strtohexarray (cnt + 1) (c :: 0#8 :: rest) = some (-1, []) := by
        rw [strtohexarray_pair]
        split
        · rfl
        · rfl
      obtain ⟨hret, hno⟩ := hshort hcall
      refine ⟨hret, fun bs => ⟨fun h => absurd h (hno bs), fun ⟨hlen, h⟩ => ?_⟩⟩
      obtain ⟨b, bs, rfl⟩ := List.exists_cons_of_length_eq_add_one hlen
      cases h with
      | cons _ h => cases h
    | c :: d :: chars, hnul =>
      obtain ⟨⟨r, array, hcall, hr, hlen⟩, hiff⟩ :=
        ih chars fun e he => hnul e (List.mem_cons_of_mem _ (List.mem_cons_of_mem _ he))
      have hfold : ∀ b bs, EqFold ((b :: bs).flatMap hexText) (c :: d :: chars) ↔
          (0 ≤ atohex c ∧ 0 ≤ atohex d ∧ hexByte (atohex c) (atohex d) = b) ∧
            EqFold (bs.flatMap hexText) chars := by
        intro b bs
        rw [← hexText_iff b, List.flatMap_cons, hexText, EqFold, List.cons_append, List.cons_append,
          List.forall₂_cons, List.forall₂_cons, and_assoc]
        rfl
      rw [List.cons_append, List.cons_append, strtohexarray_pair, hcall]
      split
      case isTrue hc =>
        refine ⟨⟨-1, [], rfl, .inr rfl, Nat.zero_le _⟩, fun bs => ⟨fun h => ?_, fun h => ?_⟩⟩
        · cases h
        · obtain ⟨b, bs, rfl⟩ := List.exists_cons_of_length_eq_add_one h.1
          exact absurd ((hfold b bs).mp h.2).1.1 (by omega)
      split
      case isTrue hd =>
        refine ⟨⟨-1, [], rfl, .inr rfl, Nat.zero_le _⟩, fun bs => ⟨fun h => ?_, fun h => ?_⟩⟩
        · cases h
        · obtain ⟨b, bs, rfl⟩ := List.exists_cons_of_length_eq_add_one h.1
          exact absurd ((hfold b bs).mp h.2).1.2.1 (by omega)
      case isFalse hc hd =>
        refine ⟨⟨r, _, rfl, hr, Nat.succ_le_succ hlen⟩, fun bs => ⟨fun h => ?_, fun ⟨hl, h⟩ => ?_⟩⟩
        · simp only [Option.map_some, Option.some_inj, Prod.mk.injEq] at h
          obtain ⟨rfl, rfl⟩ := h
          obtain ⟨hl, htext⟩ := (hiff array).mp hcall
          exact ⟨congrArg (· + 1) hl, (hfold _ _).mpr ⟨⟨by omega, by omega, rfl⟩, htext⟩⟩
        · obtain ⟨b, bs, rfl⟩ := List.exists_cons_of_length_eq_add_one hl
          obtain ⟨⟨-, -, hb⟩, htext⟩ := (hfold b bs).mp h
          have hrest := (hiff bs).mpr ⟨Nat.succ.inj hl, htext⟩
          rw [hcall, Option.some_inj, Prod.mk.injEq] at hrest
          rw [Option.map_some, hrest.1, hrest.2, hb]

/-! ## Printing -/

theorem hexText_radix (b : Byte) :
    List.replicate (2 - (radix false 16 b.toNat).length) (chr '0') ++ radix false 16 b.toNat =
      hexText b := by
  have hb := b.isLt
  have hlow : ∀ {d : Nat}, d < 16 → radix false 16 d = [digit false d] := by
    intro d hd
    rcases Nat.eq_zero_or_pos d with rfl | hpos
    · rfl
    · rw [radix_pos false (by decide) hpos, if_pos (by omega), Nat.mod_eq_of_lt hd, List.nil_append]
  by_cases h : b.toNat < 16
  · rw [hlow h, hexText, Nat.div_eq_of_lt h, Nat.mod_eq_of_lt h]
    rfl
  · rw [radix_pos false (by decide) (by omega), if_neg (by omega), hlow (by omega)]
    rfl

/-- `%02x` -/
def hexSpec : Spec := ⟨{ Flags.none with zeropad := true }, 2, 0, chr 'x'⟩

theorem convert_hexSpec (fp : Floats) (b : Byte) (va : List Arg) (t : Out (List Byte)) :
    ∃ o, convert outText 0 fp t hexSpec (.word (b.setWidth 32) :: va) = some (o, va) ∧
      o.buffer = t.buffer ++ hexText b := by
  have hb := b.isLt
  have hword : (b.setWidth 32).toNat = b.toNat := by
    rw [BitVec.toNat_setWidth]
    omega
  have hval : integerValue hexSpec.flags hexSpec.specifier (.word (b.setWidth 32) :: va) =
      some (b.toNat, false, va) := by
    rw [← hword]
    rfl
  refine ⟨_, convert_integer outText 0 fp t rfl hval, ?_⟩
  have hds : digitsOf b.toNat (baseOf hexSpec.specifier) (integerFlags hexSpec.flags hexSpec.specifier) =
      radix false 16 b.toNat := rfl
  have hzeros : ∀ len, zeros len false hexSpec.precision hexSpec.width
      (integerFlags hexSpec.flags hexSpec.specifier) = 2 - len := fun len => Nat.zero_max _
  have hmark : ∀ len, shownMark len false hexSpec.precision hexSpec.width
      (integerFlags hexSpec.flags hexSpec.specifier) = [] := fun len => ite_self _
  have hleft : (integerFlags hexSpec.flags hexSpec.specifier).left = true →
      t.idx + 64 < 2 ^ 32 ∧ t.idx + hexSpec.width < 2 ^ 32 := fun h => absurd h (by decide)
  rw [ntoaLong_text false _ rfl (by decide) (lt_of_lt_of_le hb (by decide)) hleft, ← hexText_radix]
  have hblanks : ∀ len, blanks len hexSpec.width (integerFlags hexSpec.flags hexSpec.specifier) =
      (0, 0) := fun _ => rfl
  simp only [hds, hzeros, hmark, hblanks, List.nil_append, List.replicate_zero, List.append_nil]

theorem formatLoop_hexSpec (fp : Floats) (n : Nat) (format : List Byte) (va : List Arg)
    (t : Out (List Byte)) :
    formatLoop outText 0 fp (n + 1) (chr '%' :: chr '0' :: chr '2' :: chr 'x' :: format) va t =
      (convert outText 0 fp t hexSpec va).bind fun r => formatLoop outText 0 fp n format r.2 r.1 := by
  rfl

/-- The loop of `_vsnprintf` on a byte after the other. -/
theorem formatLoop_bytes (fp : Floats) (bs : List Byte) {n : Nat} (hn : bs.length < n)
    (t : Out (List Byte)) :
    ∃ o, formatLoop outText 0 fp n
        ((List.replicate bs.length [chr '%', chr '0', chr '2', chr 'x']).flatten ++ [0#8])
        (bs.map fun c => Arg.word (c.setWidth 32)) t = some o ∧
      o.buffer = t.buffer ++ bs.flatMap hexText := by
  induction bs generalizing n t with
  | nil =>
    obtain ⟨n, rfl⟩ : ∃ k, n = k + 1 := ⟨n - 1, by omega⟩
    exact ⟨t, rfl, (List.append_nil _).symm⟩
  | cons b bs ih =>
    obtain ⟨n, rfl⟩ : ∃ k, n = k + 1 := ⟨n - 1, by omega⟩
    rw [List.length_cons] at hn
    obtain ⟨o, ho, hbuf⟩ := convert_hexSpec fp b (bs.map fun c => Arg.word (c.setWidth 32)) t
    obtain ⟨o', ho', hbuf'⟩ := ih (n := n) (by omega) o
    refine ⟨o', ?_, by rw [hbuf', hbuf, List.flatMap_cons, List.append_assoc]⟩
    rw [List.length_cons, List.replicate_succ, List.flatten_cons, List.append_assoc]
    simp only [List.cons_append, List.nil_append, List.map_cons]
    rw [formatLoop_hexSpec, ho]
    exact ho'

/-- What `mactostr` prints of an address `strtohexarray` reads back. -/
theorem mactostr_reads_back (fp : Floats) {mac : List Byte} (h : mac.length = 6) (rest : List Byte) :
    ∃ str, mactostr fp mac = some str ∧ str.length = 13 ∧
      strtohexarray 6 (str ++ rest) = some (0, mac) := by
  have hformat : macFormat = (List.replicate mac.length [chr '%', chr '0', chr '2', chr 'x']).flatten ++
      [0#8] := by
    rw [h, macFormat]
  obtain ⟨o, ho, hbuf⟩ := formatLoop_bytes fp mac (n := macFormat.length + 1) (by rw [h]; decide) ⟨[], 0⟩
  rw [← hformat] at ho
  have hchars : ∀ c ∈ mac.flatMap hexText, c ≠ 0#8 := by
    rintro c hc rfl
    obtain ⟨b, -, hb⟩ := List.mem_flatMap.mp hc
    have hlt := b.isLt
    simp only [hexText, List.mem_cons, List.not_mem_nil, or_false] at hb
    have hdigit : ∀ {d : Nat}, d < 16 → (0#8) ≠ digit false d := by
      intro d hd h0
      have hval := digitval_digit false (d := d) (by omega)
      rw [← h0] at hval
      cases hval
    exact hb.elim (hdigit (by omega)) (hdigit (by omega))
  have hlen : ∀ bs : List Byte, (bs.flatMap hexText).length = 2 * bs.length := by
    intro bs
    simp [hexText, List.length_flatMap, Nat.mul_comm]
  have hfold : EqFold (mac.flatMap hexText) (mac.flatMap hexText) :=
    List.forall₂_same.mpr fun c _ => .inl rfl
  refine ⟨mac.flatMap hexText ++ [0#8], ?_, ?_, ?_⟩
  · rw [mactostr, text, ho, Option.map_some, Option.map_some, hbuf]
    rfl
  · rw [List.length_append, hlen, h, List.length_singleton]
  · have hread := ((strtohexarray_iff ⟨mac.flatMap hexText, hchars⟩ rest 6).2 mac).mpr ⟨h, hfold⟩
    rw [List.append_assoc]
    exact hread

theorem mactostr_reads_back_six : ∃ str, strtohexarray 6 (str ++ [chr 'x']) =
    some (0, [0x00#8, 0x25#8, 0x08#8, 0xAB#8, 0xCD#8, 0x0F#8]) := by
  obtain ⟨str, -, -, hread⟩ := @mactostr_reads_back ⟨fun _ _ _ _ => [], fun _ _ _ _ => []⟩
    [0x00#8, 0x25#8, 0x08#8, 0xAB#8, 0xCD#8, 0x0F#8] rfl [chr 'x']
  exact ⟨str, hread⟩

/-! ## Numbers -/

theorem shift_or {d : Nat} (x : BitVec 32) (hd : d < 16) :
    BitVec.ofInt 32 d ||| (x <<< 4) = (x <<< 4) + BitVec.ofInt 32 d := by
  apply BitVec.eq_of_toNat_eq
  have hx := x.isLt
  have hshift : (x <<< 4).toNat = 2 ^ 4 * (x.toNat % 2 ^ 28) := by
    rw [BitVec.toNat_shiftLeft, Nat.shiftLeft_eq]
    omega
  have hdigit : (BitVec.ofInt 32 (d : Int)).toNat = d := by
    rw [BitVec.ofInt_natCast, BitVec.toNat_ofNat]
    omega
  rw [BitVec.or_comm, BitVec.toNat_or, BitVec.toNat_add, hshift, hdigit,
    ← Nat.two_pow_add_eq_or_of_lt (by omega)]
  omega

theorem shift_add (d v : Nat) :
    (BitVec.ofNat 32 v <<< 4) + BitVec.ofInt 32 d = BitVec.ofNat 32 (v * 16 + d) := by
  apply BitVec.eq_of_toNat_eq
  rw [BitVec.ofInt_natCast, BitVec.toNat_add, BitVec.toNat_shiftLeft, Nat.shiftLeft_eq,
    BitVec.toNat_ofNat, BitVec.toNat_ofNat, BitVec.toNat_ofNat]
  omega

theorem numeral_nil (b : Nat) : Numeral b [] := fun _ hc => absurd hc List.not_mem_nil

theorem numeral_cons {b : Nat} {c : Byte} {cs : List Byte} :
    Numeral b (c :: cs) ↔ (∃ d, digitval c = some d ∧ d < b) ∧ Numeral b cs :=
  List.forall_mem_cons

/-- The loop of `strtohex` behind `i` digits of the number `v`. -/
theorem strtohexLoop_chars (rest : List Byte) {cs : List Byte} (hcs : ∀ c ∈ cs, c ≠ 0#8) (n : Int)
    {i : Nat} (hi : i ≤ 8) (v : Nat) :
    (Numeral 16 cs ∧ i + cs.length ≤ 8 ∧ strtohexLoop (cs ++ 0#8 :: rest) n i (BitVec.ofNat 32 v) =
        some (if cs = [] ∧ n < 0 then -1 else 0,
          some (BitVec.ofNat 32 (v * 16 ^ cs.length + number 16 cs)))) ∨
      (¬ (Numeral 16 cs ∧ i + cs.length ≤ 8) ∧
        strtohexLoop (cs ++ 0#8 :: rest) n i (BitVec.ofNat 32 v) = some (-1, none)) := by
  induction cs generalizing n i v with
  | nil =>
    refine .inl ⟨numeral_nil 16, hi, ?_⟩
    simp [strtohexLoop, number]
  | cons c cs ih =>
    have hc : c ≠ 0#8 := hcs c List.mem_cons_self
    rw [List.cons_append, strtohexLoop, if_neg hc, numeral_cons, List.length_cons]
    rcases atohex_cases c with ⟨d, hd, hd16, hval⟩ | ⟨hno, hval⟩
    case inr =>
      rw [hval, if_pos (by decide)]
      refine .inr ⟨fun h => ?_, rfl⟩
      obtain ⟨⟨⟨d, hd, hd16⟩, -⟩, -⟩ := h
      exact absurd (hno d hd) (by omega)
    rw [hval, if_neg (by omega)]
    by_cases hlong : i + 1 > 8
    · rw [if_pos hlong]
      exact .inr ⟨fun h => absurd h.2 (by omega), rfl⟩
    rw [if_neg hlong, shift_add d v]
    rcases ih (fun e he => hcs e (List.mem_cons_of_mem _ he)) d (i := i + 1) (by omega) (v * 16 + d) with
      ⟨hnum, hlen, hloop⟩ | ⟨hno, hloop⟩
    · refine .inl ⟨⟨⟨d, hd, hd16⟩, hnum⟩, by omega, ?_⟩
      rw [hloop, if_neg (by omega), if_neg (by simp), number_cons, hd, Option.getD_some, Nat.pow_succ]
      congr 4
      ring
    · exact .inr ⟨fun h => hno ⟨h.1.2, by omega⟩, hloop⟩

/-- The loop of `hexstr_to_unit`. -/
theorem hexstrLoop_chars (cs : List Byte) (v : Nat) :
    (Numeral 16 cs ∧ hexstrLoop cs (BitVec.ofNat 32 v) =
        (0, BitVec.ofNat 32 (v * 16 ^ cs.length + number 16 cs))) ∨
      (¬ Numeral 16 cs ∧ (hexstrLoop cs (BitVec.ofNat 32 v)).1 = -1) := by
  induction cs generalizing v with
  | nil =>
    refine .inl ⟨numeral_nil 16, ?_⟩
    simp [hexstrLoop, number]
  | cons c cs ih =>
    rw [hexstrLoop, hexToDigit_eq, numeral_cons]
    rcases atohex_cases c with ⟨d, hd, hd16, hval⟩ | ⟨hno, hval⟩
    case inr =>
      rw [hval, if_pos (by decide)]
      refine .inr ⟨fun h => ?_, rfl⟩
      obtain ⟨⟨d, hd, hd16⟩, -⟩ := h
      exact absurd (hno d hd) (by omega)
    rw [hval, if_neg (by omega), shift_or _ hd16, shift_add d v]
    rcases ih (v * 16 + d) with ⟨hnum, hloop⟩ | ⟨hno, hloop⟩
    · refine .inl ⟨⟨⟨d, hd, hd16⟩, hnum⟩, ?_⟩
      rw [hloop, number_cons, hd, Option.getD_some, List.length_cons, Nat.pow_succ]
      congr 2
      ring
    · exact .inr ⟨fun h => hno h.2, hloop⟩

/-- Both take up to eight hex digits and agree on the number; of the empty string only
`hexstr_to_unit` makes one. -/
theorem hex_numbers (s : CStr) (rest : List Byte) :
    ∃ r v r' d, strtohex (s.mem rest) = some (r, v) ∧ hexstrToUnit (s.mem rest) = some (r', d) ∧
      (r' = 0 ↔ s.chars.length ≤ 8 ∧ Numeral 16 s.chars) ∧ (r = 0 ↔ r' = 0 ∧ s.chars ≠ []) ∧
      (r' = 0 → d = BitVec.ofNat 32 (number 16 s.chars) ∧ v = some d) := by
  obtain ⟨cs, hcs⟩ := s
  have hunit : hexstrToUnit (cs ++ 0#8 :: rest) =
      some (if cs.length > 8 then (-1, 0#32) else hexstrLoop cs 0#32) := by
    have hchars : (cs ++ 0#8 :: rest).takeWhile (· ≠ 0#8) = cs := by
      rw [List.takeWhile_append_of_pos (by simpa using hcs)]
      simp
    rw [hexstrToUnit, if_pos (by simp), hchars]
  have hloop := strtohexLoop_chars rest hcs (-1) (i := 0) (by decide) 0
  have hloop' := hexstrLoop_chars cs 0
  simp only [CStr.mem]
  rw [hunit, strtohex]
  simp only [Nat.zero_mul, Nat.zero_add] at hloop hloop'
  by_cases hlong : cs.length > 8
  case pos =>
    rw [if_pos hlong]
    rcases hloop with ⟨-, hlen, -⟩ | ⟨-, hloop⟩
    · omega
    · refine ⟨_, _, _, _, hloop, rfl, ?_, ?_, fun h => absurd h (by decide)⟩
      · exact ⟨fun h => absurd h (by decide), fun h => absurd h.1 (by omega)⟩
      · exact ⟨fun h => absurd h (by decide), fun h => absurd h.1 (by decide)⟩
  case neg =>
    rw [if_neg hlong]
    rcases hloop' with ⟨hnum, hloop'⟩ | ⟨hno, hloop'⟩
    case inl =>
      rcases hloop with ⟨-, -, hloop⟩ | ⟨hno, -⟩
      · refine ⟨_, _, _, _, hloop, congrArg some hloop', ?_, ?_, fun _ => ⟨rfl, rfl⟩⟩
        · exact ⟨fun _ => ⟨by omega, hnum⟩, fun _ => rfl⟩
        · by_cases hnil : cs = []
          · simp [hnil]
          · simp [hnil]
      · exact absurd ⟨hnum, by omega⟩ hno
    case inr =>
      rcases hloop with ⟨hnum, -, -⟩ | ⟨-, hloop⟩
      · exact absurd hnum hno
      · refine ⟨_, _, _, _, hloop, congrArg some (Prod.ext hloop' rfl), ?_, ?_, fun h =>
          absurd h (by decide)⟩
        · exact ⟨fun h => absurd h (by decide), fun h => absurd h.2 hno⟩
        · exact ⟨fun h => absurd h (by decide), fun h => absurd h.1 (by decide)⟩

end Utils
end Air101

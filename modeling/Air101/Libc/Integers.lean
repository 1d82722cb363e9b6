import Air101.Libc.Scanf
import Air101.Libc.Sink

/-!
# Libc.Integers

The characters of an integer conversion, and what `strntoumax` reads from them.

* `ntoaDigits_eq`: the digits in the buffer of `_ntoa_long`.
* `ntoaBuffer_eq`, `outRev_text`: blanks, sign, zeros, digits, blanks.
* `strntoumax_text`: what is read from such characters.
-/

namespace Air101
namespace Libc

open Storage

/-! ## Digits -/

/-- As long as there is room the buffer gets all digits, the last one first. -/
theorem ntoaDigits_eq (upper : Bool) {b n v : Nat} (hb : 2 ≤ b) (hn : 0 < n) (h : v < b ^ n) :
    ntoaDigits upper b n v = (radix upper b v).reverse := by
  induction n generalizing v with
  | zero => omega
  | succ n ih =>
    rw [ntoaDigits]
    rcases Nat.eq_zero_or_pos v with rfl | hv
    · simp [radix_zero]
    · rw [radix_pos upper hb hv, List.reverse_append, List.reverse_singleton, List.singleton_append]
      by_cases hq : v / b = 0
      · rw [if_neg (by omega), if_pos hq, List.reverse_nil]
      · have hlt : v / b < b ^ n := by
          rw [Nat.pow_succ, Nat.mul_comm] at h
          exact Nat.div_lt_of_lt_mul h
        have hn0 : 0 < n := by
          rcases Nat.eq_zero_or_pos n with rfl | hn0
          · exact absurd (Nat.lt_one_iff.mp hlt) hq
          · exact hn0
        rw [if_pos hq, if_neg hq, ih hn0 hlt]

theorem ntoaDigits_length (upper : Bool) (b n v : Nat) : (ntoaDigits upper b n v).length ≤ n := by
  induction n generalizing v with
  | zero => exact Nat.le_refl 0
  | succ n ih =>
    rw [ntoaDigits, List.length_cons]
    have hrest := ih (v / b)
    split
    · omega
    · exact Nat.succ_le_succ (Nat.zero_le n)

theorem ntoaDigitsOf_length (value base : Nat) (flags : Flags) :
    (ntoaDigitsOf value base flags).1.length ≤ 32 := by
  have hdigits : ∀ (shown : Bool) (upper : Bool),
      (if shown then ntoaDigits upper base 32 value else []).length ≤ 32 := by
    intro shown upper
    split
    · exact ntoaDigits_length ..
    · exact Nat.zero_le 32
  exact hdigits _ _

/-! ## The buffer of `_ntoa_format` -/

/-- The sign character, if there is one. -/
def mark (negative : Bool) (flags : Flags) : List Byte :=
  if negative then [chr '-'] else if flags.plus then [chr '+'] else if flags.space then [chr ' '] else []

theorem signMark_eq (buf : List Byte) (negative : Bool) (flags : Flags) :
    signMark buf negative flags = buf ++ if buf.length < 32 then mark negative flags else [] := by
  have hpush : ∀ c, push buf c = buf ++ if buf.length < 32 then [c] else [] := by
    intro c
    rw [push, printfNtoaBufferSize]
    split
    · rfl
    · rw [List.append_nil]
  rw [signMark, mark]
  cases negative with
  | true => simp only [if_true, hpush]
  | false =>
    cases hp : flags.plus with
    | true => simp only [Bool.false_eq_true, if_false, if_true, hpush]
    | false =>
      cases hs : flags.space with
      | true => simp only [Bool.false_eq_true, if_false, if_true, hpush]
      | false => simp only [Bool.false_eq_true, if_false, ite_self, List.append_nil]

/-- The zeros in front of `len` digits. -/
def zeros (len : Nat) (negative : Bool) (prec width : Nat) (flags : Flags) : Nat :=
  if flags.left then 0
  else
    max (min prec 32)
      (if flags.zeropad then
        min (if width ≠ 0 ∧ mark negative flags ≠ [] then width - 1 else width) 32
      else 0) - len

theorem mark_ne_nil (negative : Bool) (flags : Flags) :
    mark negative flags ≠ [] ↔ (negative || flags.plus || flags.space) = true := by
  rw [mark]
  cases negative with
  | true => simp
  | false =>
    cases hp : flags.plus with
    | true => simp
    | false =>
      cases hs : flags.space with
      | true => simp
      | false => simp

theorem zerosTo_zerosTo (buf : List Byte) (m n : Nat) :
    zerosTo (zerosTo buf m) n = zerosTo buf (max m n) := by
  simp only [zerosTo, printfNtoaBufferSize, List.append_assoc, List.length_append,
    List.length_replicate, List.replicate_append_replicate]
  congr 2
  omega

theorem ntoaBuffer_eq (buf : List Byte) (negative : Bool) (base prec width : Nat) {flags : Flags}
    (hhash : flags.hash = false) :
    (ntoaBuffer buf negative base prec width flags).1 =
      buf ++ List.replicate (zeros buf.length negative prec width flags) (chr '0') ++
        if buf.length + zeros buf.length negative prec width flags < 32 then mark negative flags
        else [] := by
  have hsign : ∀ k, signMark (zerosTo buf k) negative flags =
      buf ++ List.replicate (min k 32 - buf.length) (chr '0') ++
        if buf.length + (min k 32 - buf.length) < 32 then mark negative flags else [] := by
    intro k
    rw [signMark_eq, zerosTo, printfNtoaBufferSize, List.length_append, List.length_replicate]
  simp only [ntoaBuffer, hhash, Bool.false_eq_true, if_false]
  by_cases hleft : flags.left = true
  · simp only [hleft, Bool.not_true, Bool.false_eq_true, if_false, zeros, if_true,
      List.replicate_zero, List.append_nil, Nat.add_zero]
    exact signMark_eq ..
  · rw [Bool.not_eq_true] at hleft
    have hw : (decide (width ≠ 0) && (negative || flags.plus || flags.space)) =
        decide (width ≠ 0 ∧ mark negative flags ≠ []) := by
      rw [Bool.decide_and, Bool.eq_iff_iff.mpr ((decide_eq_true_iff).trans (mark_ne_nil negative flags))]
    by_cases hz : flags.zeropad = true
    · simp only [hleft, hz, Bool.not_false, Bool.true_and, Bool.and_true, hw, decide_eq_true_eq,
        if_true, zerosTo_zerosTo, hsign, zeros, Bool.false_eq_true, if_false]
      rw [min_max_distrib_right]
    · rw [Bool.not_eq_true] at hz
      simp only [hleft, hz, Bool.not_false, if_true, Bool.false_eq_true, if_false, hsign, zeros,
        Nat.max_zero]

/-! ## `_out_rev` -/

theorem putAll_text (t : Out (List Byte)) (cs : List Byte) :
    (putAll outText 0 t cs).buffer = t.buffer ++ cs := by
  induction cs generalizing t with
  | nil => exact (List.append_nil _).symm
  | cons c cs ih =>
    have hput : (put outText 0 t c).buffer = t.buffer ++ [c] := rfl
    have hrest := ih (put outText 0 t c)
    rw [hput, List.append_assoc, List.singleton_append] at hrest
    exact hrest

theorem putAll_text_idx {t : Out (List Byte)} {cs : List Byte} (h : t.idx + cs.length < 2 ^ 32) :
    (putAll outText 0 t cs).idx = t.idx + cs.length := by
  induction cs generalizing t with
  | nil => rfl
  | cons c cs ih =>
    rw [List.length_cons] at h
    have hput : (put outText 0 t c).idx = t.idx + 1 := Nat.mod_eq_of_lt (by omega)
    have hrest := ih (t := put outText 0 t c) (by omega)
    rw [hput] at hrest
    rw [List.length_cons]
    exact hrest.trans (by omega)

theorem padBehind_text {width n start : Nat} {t : Out (List Byte)} (hs : start ≤ t.idx)
    (hlt : start + width < 2 ^ 32) (hidx : t.idx < 2 ^ 32) (hn : start + width ≤ t.idx + n) :
    (padBehind outText 0 start width n t).buffer =
      t.buffer ++ List.replicate (start + width - t.idx) (chr ' ') := by
  induction n generalizing t with
  | zero =>
    rw [padBehind, Nat.sub_eq_zero_of_le (by omega), List.replicate_zero, List.append_nil]
  | succ n ih =>
    rw [padBehind]
    have hsub : (t.idx + 2 ^ 32 - start) % 2 ^ 32 = t.idx - start := by omega
    rw [hsub]
    split
    case isTrue h =>
      have hput : (put outText 0 t (chr ' ')).idx = t.idx + 1 := Nat.mod_eq_of_lt (by omega)
      have hbuf : (put outText 0 t (chr ' ')).buffer = t.buffer ++ [chr ' '] := rfl
      obtain ⟨k, hk⟩ : ∃ k, start + width - t.idx = k + 1 := ⟨start + width - t.idx - 1, by omega⟩
      rw [ih (by omega) (by omega) (by omega), hput, hbuf, List.append_assoc, hk,
        List.replicate_succ, List.singleton_append]
      congr 3
      omega
    case isFalse h =>
      rw [Nat.sub_eq_zero_of_le (by omega), List.replicate_zero, List.append_nil]

/-- The blanks in front of `len` characters, and those behind them. -/
def blanks (len width : Nat) (flags : Flags) : Nat × Nat :=
  (if flags.left || flags.zeropad then 0 else width - len, if flags.left then width - len else 0)

theorem outRev_text {buf : List Byte} {width : Nat} {flags : Flags} {t : Out (List Byte)}
    (ht : flags.left = true → t.idx + buf.length < 2 ^ 32 ∧ t.idx + width < 2 ^ 32) :
    (outRev outText 0 t buf width flags).buffer =
      t.buffer ++ (List.replicate (blanks buf.length width flags).1 (chr ' ') ++ buf.reverse ++
        List.replicate (blanks buf.length width flags).2 (chr ' ')) := by
  rw [outRev, blanks]
  by_cases hleft : flags.left = true
  · obtain ⟨hbuf, hwidth⟩ := ht hleft
    have hlen : (putAll outText 0 t buf.reverse).idx = t.idx + buf.length := by
      rw [putAll_text_idx (by rw [List.length_reverse]; omega), List.length_reverse]
    simp only [hleft, Bool.not_true, Bool.false_and, Bool.false_eq_true, if_false, if_true,
      Bool.true_or]
    rw [padBehind_text (by omega) (by omega) (by omega) (by omega), putAll_text, hlen,
      List.replicate_zero, List.nil_append, List.append_assoc]
    congr 3
    omega
  · rw [Bool.not_eq_true] at hleft
    by_cases hz : flags.zeropad = true
    · simp only [hleft, hz, Bool.not_true, Bool.and_false, Bool.false_eq_true, if_false,
        Bool.or_true, if_true, putAll_text, List.replicate_zero, List.nil_append, List.append_nil]
    · rw [Bool.not_eq_true] at hz
      simp only [hleft, hz, Bool.not_false, Bool.and_true, if_true, Bool.or_false,
        Bool.false_eq_true, if_false, padTo, putAll_text, List.replicate_zero, List.append_nil,
        List.append_assoc]

/-! ## The characters of a conversion -/

theorem blanks_width (buf : List Byte) (negative : Bool) (base prec width : Nat) (flags : Flags)
    (len : Nat) : blanks len (ntoaBuffer buf negative base prec width flags).2 flags =
      blanks len width flags := by
  rw [ntoaBuffer]
  simp only [blanks]
  cases hleft : flags.left with
  | true => simp
  | false =>
    cases hz : flags.zeropad with
    | true => simp
    | false => simp

theorem mark_length (negative : Bool) (flags : Flags) : (mark negative flags).length ≤ 1 := by
  rw [mark]
  split
  · exact Nat.le_refl 1
  split
  · exact Nat.le_refl 1
  split
  · exact Nat.le_refl 1
  · exact Nat.zero_le 1

theorem reverse_short {l : List Byte} (h : l.length ≤ 1) : l.reverse = l := by
  match l, h with
  | [], _ => rfl
  | [c], _ => rfl

/-- The sign that is put out: there may be no room for it behind the zeros. -/
def shownMark (len : Nat) (negative : Bool) (prec width : Nat) (flags : Flags) : List Byte :=
  if len + zeros len negative prec width flags < 32 then mark negative flags else []

theorem shownMark_length (len : Nat) (negative : Bool) (prec width : Nat) (flags : Flags) :
    (shownMark len negative prec width flags).length ≤ 1 := by
  rw [shownMark]
  split
  · exact mark_length negative flags
  · exact Nat.zero_le 1

theorem zeros_le (len : Nat) (negative : Bool) (prec width : Nat) (flags : Flags) (h : len ≤ 32) :
    len + zeros len negative prec width flags ≤ 32 := by
  rw [zeros]
  split
  · exact h
  · split
    · omega
    · omega

/-- The digits of a number that `_ntoa_long` hands on. -/
def digitsOf (value base : Nat) (flags : Flags) : List Byte :=
  if !flags.precision || value ≠ 0 then radix flags.uppercase base value else []

theorem digitsOf_length {value base : Nat} (flags : Flags) (hb : 2 ≤ base) (hv : value < base ^ 32) :
    (digitsOf value base flags).length ≤ 32 := by
  rw [digitsOf]
  split
  · exact radix_length_le _ hb (by decide) hv
  · exact Nat.zero_le 32

section Text

variable {value base width : Nat} {flags : Flags} {t : Out (List Byte)}

theorem ntoaDigitsOf_flags (value base : Nat) (h : flags.hash = false) :
    (ntoaDigitsOf value base flags).2 = flags := by
  rw [ntoaDigitsOf]
  simp only
  split
  · rw [← h]
  · rfl

/-- The characters of an integer without the mark of its base: blanks, sign, zeros, digits, blanks. -/
theorem ntoaLong_chars {ds : List Byte} (negative : Bool) (prec : Nat) (hhash : flags.hash = false)
    (hds : (ntoaDigitsOf value base flags).1 = ds.reverse) (hlen : ds.length ≤ 32)
    (ht : flags.left = true → t.idx + 64 < 2 ^ 32 ∧ t.idx + width < 2 ^ 32) :
    (ntoaLong outText 0 t value negative base prec width flags).buffer =
      let k := zeros ds.length negative prec width flags
      let sign := shownMark ds.length negative prec width flags
      let pad := blanks (ds.length + k + sign.length) width flags
      t.buffer ++ (List.replicate pad.1 (chr ' ') ++ (sign ++ (List.replicate k (chr '0') ++ ds) ++
        List.replicate pad.2 (chr ' '))) := by
  have hbuf := ntoaBuffer_eq ds.reverse negative base prec width hhash
  rw [List.length_reverse] at hbuf
  have hzeros := zeros_le ds.length negative prec width flags hlen
  have hmark := shownMark_length ds.length negative prec width flags
  have hblanks := blanks_width ds.reverse negative base prec width flags
  have hnarrow : (ntoaBuffer ds.reverse negative base prec width flags).2 ≤ width := by
    rw [ntoaBuffer]
    simp only
    split
    · omega
    · exact Nat.le_refl _
  rw [← shownMark] at hbuf
  have hpair : ntoaDigitsOf value base flags = (ds.reverse, flags) :=
    Prod.ext hds (ntoaDigitsOf_flags value base hhash)
  simp only [ntoaLong, hpair, ntoaFormat]
  have hroom : flags.left = true →
      t.idx + (ntoaBuffer ds.reverse negative base prec width flags).1.length < 2 ^ 32 ∧
        t.idx + (ntoaBuffer ds.reverse negative base prec width flags).2 < 2 ^ 32 := by
    intro hleft
    obtain ⟨h1, h2⟩ := ht hleft
    refine ⟨?_, by omega⟩
    rw [hbuf, List.length_append, List.length_append, List.length_reverse, List.length_replicate]
    omega
  rw [outRev_text hroom, hblanks, hbuf]
  simp only [List.length_append, List.length_reverse, List.length_replicate, List.reverse_append,
    List.reverse_reverse, List.reverse_replicate, reverse_short hmark, List.append_assoc,
    Nat.add_assoc]

/-- All digits have room in the buffer. -/
theorem ntoaLong_text (negative : Bool) (prec : Nat) (hhash : flags.hash = false) (hb : 2 ≤ base)
    (hv : value < base ^ 32)
    (ht : flags.left = true → t.idx + 64 < 2 ^ 32 ∧ t.idx + width < 2 ^ 32) :
    (ntoaLong outText 0 t value negative base prec width flags).buffer =
      let ds := digitsOf value base flags
      let k := zeros ds.length negative prec width flags
      let sign := shownMark ds.length negative prec width flags
      let pad := blanks (ds.length + k + sign.length) width flags
      t.buffer ++ (List.replicate pad.1 (chr ' ') ++ (sign ++ (List.replicate k (chr '0') ++ ds) ++
        List.replicate pad.2 (chr ' '))) := by
  have hds : (ntoaDigitsOf value base flags).1 = (digitsOf value base flags).reverse := by
    have hflags := ntoaDigitsOf_flags value base hhash
    rw [ntoaDigitsOf] at hflags ⊢
    simp only at hflags ⊢
    rw [hflags, digitsOf, printfNtoaBufferSize]
    split
    · exact ntoaDigits_eq _ hb (by decide) hv
    · rfl
  exact ntoaLong_chars negative prec hhash hds (digitsOf_length flags hb hv) ht

end Text

end Libc
end Air101

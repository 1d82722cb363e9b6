import Air101.Libc.Pieces

/-!
# Libc.RoundTrip

What `_vsnprintf` puts out for a format `wm_vsscanf` reads back with the same format.

* `printed`: the characters of a format of pieces (`text_pieces`).
* `printed_spelled`: they spell the values.
* `scanf_printf`: the round trip.
-/

namespace Air101
namespace Libc

open Storage

/-- The number of conversions. -/
def conversions : List Piece → Nat
  | [] => 0
  | .lit _ :: ps => conversions ps
  | .conv _ :: ps => conversions ps + 1

/-- The characters of a conversion. -/
def plainText (c : Byte) (v : BitVec 32) : List Byte :=
  if c = chr 'd' then
    (if v.toInt < 0 then [chr '-'] else []) ++ radix false 10 v.toInt.natAbs
  else radix (c = chr 'X') (baseOf c) v.toNat

/-- The characters of a format. -/
def printed : List Piece → List (BitVec 32) → List Byte
  | .lit c :: ps, vs => c :: printed ps vs
  | .conv c :: ps, v :: vs => plainText c v ++ printed ps vs
  | _, _ => []

/-! ## Printing -/

theorem parseSpec_plain {c : Byte} (h : isPlain c = true) (format : List Byte) (va : List Arg) :
    parseSpec (c :: format) va = some (⟨Flags.none, 0, 0, c⟩, format, va) := by
  rcases isPlain_cases h with rfl | rfl | rfl | rfl | rfl
  · rfl
  · rfl
  · rfl
  · rfl
  · rfl

/-- The value of a conversion: its magnitude, whether it is negative, and its base. -/
theorem plain_value {c : Byte} (h : isPlain c = true) (v : BitVec 32) (va : List Arg) :
    isInteger c = true ∧ c ≠ chr 'b' ∧ ∃ m neg upper,
      integerValue Flags.none c (.word v :: va) = some (m, neg, va) ∧
      (integerFlags Flags.none c).uppercase = upper ∧
      plainText c v = (if neg then [chr '-'] else []) ++ radix upper (baseOf c) m ∧
      ((neg = true ∧ 0 < m ∧ m ≤ 2 ^ 31 ∧ v.toNat = 2 ^ 32 - m) ∨ (neg = false ∧ v.toNat = m)) := by
  have hv := v.isLt
  rcases isPlain_cases h with rfl | rfl | rfl | rfl | rfl
  · refine ⟨rfl, by decide, v.toInt.natAbs, decide (v.toInt < 0), false, rfl, rfl, ?_, ?_⟩
    · simp only [plainText, if_true, decide_eq_true_eq]
      rfl
    · rw [decide_eq_true_eq, decide_eq_false_iff_not, BitVec.toInt_eq_toNat_cond]
      split
      · omega
      · omega
  · exact ⟨rfl, by decide, v.toNat, false, false, rfl, rfl, rfl, .inr ⟨rfl, rfl⟩⟩
  · exact ⟨rfl, by decide, v.toNat, false, false, rfl, rfl, rfl, .inr ⟨rfl, rfl⟩⟩
  · exact ⟨rfl, by decide, v.toNat, false, true, rfl, rfl, rfl, .inr ⟨rfl, rfl⟩⟩
  · exact ⟨rfl, by decide, v.toNat, false, false, rfl, rfl, rfl, .inr ⟨rfl, rfl⟩⟩

theorem convert_plain {c : Byte} (h : isPlain c = true) (fp : Floats) (v : BitVec 32) (va : List Arg)
    (t : Out (List Byte)) :
    ∃ o, convert outText 0 fp t ⟨Flags.none, 0, 0, c⟩ (.word v :: va) = some (o, va) ∧
      o.buffer = t.buffer ++ plainText c v := by
  obtain ⟨hint, hbin, m, neg, upper, hval, hupper, htext, hm⟩ := plain_value h v va
  have hm64 : m < 2 ^ 64 := by
    have := v.isLt
    omega
  obtain ⟨hb2, hm22, hm32⟩ := below_pow (baseOf_cases hbin) hm64
  have hleft : (integerFlags Flags.none c).left = false := integerFlags_left ..
  have hzero : (integerFlags Flags.none c).zeropad = false := integerFlags_zeropad ..
  have hprec : (integerFlags Flags.none c).precision = false := integerFlags_precision ..
  have hmark : mark neg (integerFlags Flags.none c) = if neg then [chr '-'] else [] := by
    rcases isPlain_cases h with rfl | rfl | rfl | rfl | rfl
    · rfl
    · rfl
    · rfl
    · rfl
    · rfl
  have hlen : (radix upper (baseOf c) m).length ≤ 22 := radix_length_le _ hb2 (by decide) hm22
  have hds : digitsOf m (baseOf c) (integerFlags Flags.none c) = radix upper (baseOf c) m := by
    rw [digitsOf, hprec, hupper]
    rfl
  refine ⟨_, convert_integer outText 0 fp t hint hval, ?_⟩
  rw [ntoaLong_text neg 0 (integerFlags_hash c rfl) hb2 hm32 (by simp [hleft]), htext]
  simp only [hds, zeros, blanks, shownMark, hleft, hzero, hmark, Bool.false_eq_true, if_false,
    Bool.or_self, Nat.zero_min, Nat.max_self, Nat.zero_sub, Nat.add_zero, List.replicate_zero,
    List.nil_append, List.append_nil, if_pos (show (radix upper (baseOf c) m).length < 32 by omega)]

/-- The loop of `_vsnprintf` on a format of pieces. -/
theorem format_pieces (fp : Floats) {ps : List Piece} (h : Separated ps) {vs : List (BitVec 32)}
    (hv : vs.length = conversions ps) {n : Nat} (hn : ps.length < n) (t : Out (List Byte)) :
    ∃ o, formatLoop outText 0 fp n (formatOf ps) (vs.map Arg.word) t = some o ∧
      o.buffer = t.buffer ++ printed ps vs := by
  induction ps generalizing vs n t with
  | nil =>
    obtain ⟨n, rfl⟩ : ∃ k, n = k + 1 := ⟨n - 1, by omega⟩
    exact ⟨t, rfl, (List.append_nil _).symm⟩
  | cons p ps ih =>
    obtain ⟨n, rfl⟩ : ∃ k, n = k + 1 := ⟨n - 1, by omega⟩
    rw [List.length_cons] at hn
    cases p with
    | lit c =>
      obtain ⟨⟨h0, hp, -⟩, hps⟩ := h
      obtain ⟨o, ho, hbuf⟩ := ih hps hv (n := n) (by omega) (put outText 0 t c)
      refine ⟨o, ?_, ?_⟩
      · rw [formatOf, inFront_lit, formatLoop, if_neg h0, if_pos hp]
        exact ho
      · rw [hbuf, put, printed]
        simp [outText]
    | conv c =>
      obtain ⟨hc, hps, -⟩ := h
      cases vs with
      | nil => simp [conversions] at hv
      | cons v vs =>
        have hvs : vs.length = conversions ps := by
          simpa [conversions] using hv
        obtain ⟨o1, ho1, hbuf1⟩ := convert_plain hc fp v (vs.map Arg.word) t
        obtain ⟨o, ho, hbuf⟩ := ih hps hvs (n := n) (by omega) o1
        refine ⟨o, ?_, ?_⟩
        · rw [formatOf, inFront_conv, formatLoop, if_neg (by decide), if_neg (by decide),
            parseSpec_plain hc]
          simp only [Option.bind_eq_bind, Option.bind_some, List.map_cons, ho1]
          exact ho
        · rw [hbuf, hbuf1, printed, List.append_assoc]

theorem text_pieces (fp : Floats) {ps : List Piece} (h : Separated ps) {vs : List (BitVec 32)}
    (hv : vs.length = conversions ps) :
    text fp (formatOf ps) (vs.map Arg.word) = some (printed ps vs) := by
  have hlen : ps.length < (formatOf ps).length + 1 := by
    have := inFront_length ps [0#8]
    rw [formatOf]
    omega
  obtain ⟨o, ho, hbuf⟩ := format_pieces fp h hv hlen ⟨[], 0⟩
  rw [text, ho, Option.map_some, hbuf]
  rfl

/-! ## Scanning -/

/-- The characters of the values spell numbers with the same low 32 bits. -/
theorem printed_spelled {ps : List Piece} (h : Separated ps) {vs : List (BitVec 32)}
    (hv : vs.length = conversions ps) :
    ∃ ns, Spelled ps (printed ps vs) ns ∧ ns.length = conversions ps ∧
      ns.map (leBytes 4) = vs.map fun v => leBytes 4 v.toNat := by
  induction ps generalizing vs with
  | nil =>
    have hvs : vs = [] := List.eq_nil_of_length_eq_zero hv
    rw [hvs]
    exact ⟨[], .nil, rfl, rfl⟩
  | cons p ps ih =>
    cases p with
    | lit c =>
      obtain ⟨ns, hsp, hlen, hns⟩ := ih h.2 hv
      exact ⟨ns, .lit hsp, hlen, hns⟩
    | conv c =>
      obtain ⟨hc, hps, -⟩ := h
      cases vs with
      | nil => simp [conversions] at hv
      | cons v vs =>
        obtain ⟨ns, hsp, hlen, hns⟩ := ih hps (by simpa [conversions] using hv)
        obtain ⟨-, -, m, neg, upper, -, -, htext, hm⟩ := plain_value hc v []
        have hbase := isPlain_base hc
        have hvlt := v.isLt
        have hm64 : m < 2 ^ 64 := by omega
        obtain ⟨hb2, hm22, -⟩ := below_pow hbase hm64
        have hdigits : (radix upper (baseOf c) m).length ≤ 22 :=
          radix_length_le _ hb2 (by decide) hm22
        have hsign : (if neg = true then [chr '-'] else []) = [] ∨
            (if neg = true then [chr '-'] else []) = [chr '-'] := by
          split
          · exact .inr rfl
          · exact .inl rfl
        refine ⟨signed (baseOf c) (if neg = true then [chr '-'] else []) (radix upper (baseOf c) m) :: ns,
          ?_, by rw [List.length_cons, hlen, conversions], ?_⟩
        · rw [printed, htext, List.append_assoc]
          exact .conv hsign (radix_ne_nil _ _ _) (radix_numeral upper hb2 (by omega) m) (by omega) hsp
        rw [List.map_cons, List.map_cons, hns]
        congr 1
        rw [signed, number_radix upper hb2 (by omega) m, Nat.mod_eq_of_lt hm64, ← leBytes_mod,
          ← leBytes_mod 4 v.toNat]
        congr 1
        rcases hm with ⟨rfl, h0, h31, hval⟩ | ⟨rfl, hval⟩
        · rw [if_pos rfl, if_pos rfl, hval]
          omega
        · rw [if_neg (by simp), hval]

/-- The round trip: what `wm_printf` sends for a format `wm_vsscanf` reads back with the same format,
every value at the address given for it. -/
theorem scanf_printf (fp : Floats) (st : Strto) {ps : List Piece} (h : Separated ps)
    {vs : List (BitVec 32)} (hv : vs.length = conversions ps) {va : List Nat}
    (ha : va.length = conversions ps) (rest : List Byte) :
    ∃ u r, wmPrintf fp ⟨0#8, [], []⟩ (formatOf ps) (vs.map Arg.word) = some (u, r) ∧
      wmVsscanf st (u.tx0 ++ rest) (formatOf ps) va =
        some ((conversions ps : Int), List.zipWith Store.mk va (vs.map fun v => leBytes 4 v.toNat)) := by
  refine ⟨_, _, wmPrintf_text (text_pieces fp h hv), ?_⟩
  obtain ⟨ns, hsp, hlen, hns⟩ := printed_spelled h hv
  obtain ⟨s', hs', -, hb', -, -, hc', hst'⟩ := scan_pieces st h hsp (ha.trans hlen.symm) []
    (fun c _ => stops_of_none (baseOf c) rfl) rest
    (s := Scan.start (printed ps vs ++ 0#8 :: rest) va) rfl rfl rfl (List.append_nil _).symm
  rw [List.append_assoc, List.singleton_append, wmVsscanf, formatOf, hs', scanLoop, if_pos rfl]
  simp only [Option.bind_eq_bind, Option.bind_some, hb', hc', hst', hns, hlen]
  simp [Scan.start]

/-- `%d.%dx%x`. -/
theorem scanf_printf_three : ∃ u r,
    wmPrintf ⟨fun _ _ _ _ => [], fun _ _ _ _ => []⟩ ⟨0#8, [], []⟩
      (formatOf [.conv (chr 'd'), .lit (chr '.'), .conv (chr 'd'), .lit (chr 'x'), .conv (chr 'x')])
      ([-7#32, 42#32, 0xBEEF#32].map Arg.word) = some (u, r) ∧
    wmVsscanf ⟨fun q => ([], q), fun q => ([], q)⟩ (u.tx0 ++ [])
      (formatOf [.conv (chr 'd'), .lit (chr '.'), .conv (chr 'd'), .lit (chr 'x'), .conv (chr 'x')])
      [0x100, 0x104, 0x108] = some (3, [⟨0x100, leBytes 4 (-7#32).toNat⟩,
        ⟨0x104, leBytes 4 (42#32).toNat⟩, ⟨0x108, leBytes 4 (0xBEEF#32).toNat⟩]) := by
  have hdot : IsLit (chr '.') := ⟨by decide, by decide, rfl⟩
  have hx : IsLit (chr 'x') := ⟨by decide, by decide, rfl⟩
  have hstop : Stops 10 (chr 'x') := by
    refine ⟨fun d hd => ?_, fun h => absurd h (by decide)⟩
    cases hd
    decide
  have hsep : Separated [.conv (chr 'd'), .lit (chr '.'), .conv (chr 'd'), .lit (chr 'x'),
      .conv (chr 'x')] :=
    ⟨rfl, ⟨hdot, rfl, ⟨hx, rfl, trivial, trivial⟩, hstop⟩, stops_of_none 10 rfl⟩
  exact scanf_printf _ _ hsep rfl rfl []

end Libc
end Air101

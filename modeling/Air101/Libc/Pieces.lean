import Air101.Libc.Reading

/-!
# Libc.Pieces

Formats made of literals and integer conversions, and `wm_vsscanf` on them.

* `Piece`, `formatOf`: such a format. `Separated`: behind a conversion comes a literal at which its
  number ends, or the end.
* `Spelled ps cs ns`: the characters `cs` are the literals of the format and, for its conversions, signed
  numbers `ns`.
* `scanInt_text`: a conversion on a sign and digits.
* `scan_pieces`: the scanner on such characters, by induction on how they are spelled.
-/

namespace Air101
namespace Libc

open Storage

/-- A character that stands for itself, or a conversion without flags, width and precision. -/
inductive Piece where
  | lit (c : Byte)
  | conv (c : Byte)

def Piece.chars : Piece → List Byte
  | .lit c => [c]
  | .conv c => [chr '%', c]

/-- The format in front of the characters `format`. -/
def inFront (ps : List Piece) (format : List Byte) : List Byte := ps.flatMap Piece.chars ++ format

/-- The format string. -/
def formatOf (ps : List Piece) : List Byte := inFront ps [0#8]

/-- `d`, `u`, `x`, `X` and `o`. -/
def isPlain (c : Byte) : Bool :=
  c = chr 'd' || c = chr 'u' || c = chr 'x' || c = chr 'X' || c = chr 'o'

/-- A literal is not the terminator, no percent sign and no white space. -/
def IsLit (c : Byte) : Prop := c ≠ 0#8 ∧ c ≠ chr '%' ∧ isspace c = false

/-- A conversion ends at a character that it does not read. -/
def Separated : List Piece → Prop
  | [] => True
  | .lit c :: ps => IsLit c ∧ Separated ps
  | .conv c :: ps =>
    isPlain c = true ∧ Separated ps ∧
      match ps with
      | [] => True
      | .lit d :: _ => Stops (baseOf c) d
      | .conv _ :: _ => False

/-- What `strntoumax` makes of a sign and digits. -/
def signed (b : Nat) (sign digits : List Byte) : Nat :=
  if sign = [chr '-'] then (2 ^ 64 - number b digits % 2 ^ 64) % 2 ^ 64 else number b digits % 2 ^ 64

/-- The characters of a format with the numbers in place of its conversions. -/
inductive Spelled : List Piece → List Byte → List Nat → Prop where
  | nil : Spelled [] [] []
  | lit {c : Byte} {ps : List Piece} {cs : List Byte} {ns : List Nat} : Spelled ps cs ns →
      Spelled (.lit c :: ps) (c :: cs) ns
  | conv {c : Byte} {ps : List Piece} {cs : List Byte} {ns : List Nat} {sign digits : List Byte} :
      (sign = [] ∨ sign = [chr '-']) → digits ≠ [] → Numeral (baseOf c) digits →
      digits.length < 2 ^ 32 - 1 → Spelled ps cs ns →
      Spelled (.conv c :: ps) (sign ++ (digits ++ cs)) (signed (baseOf c) sign digits :: ns)

theorem isPlain_cases {c : Byte} (h : isPlain c = true) :
    c = chr 'd' ∨ c = chr 'u' ∨ c = chr 'x' ∨ c = chr 'X' ∨ c = chr 'o' := by
  simpa [isPlain, or_assoc] using h

theorem isPlain_base {c : Byte} (h : isPlain c = true) : baseOf c = 8 ∨ baseOf c = 10 ∨ baseOf c = 16 := by
  apply baseOf_cases
  rintro rfl
  exact absurd h (by decide)

theorem inFront_lit (c : Byte) (ps : List Piece) (format : List Byte) :
    inFront (.lit c :: ps) format = c :: inFront ps format := rfl

theorem inFront_conv (c : Byte) (ps : List Piece) (format : List Byte) :
    inFront (.conv c :: ps) format = chr '%' :: c :: inFront ps format := rfl

theorem inFront_length (ps : List Piece) (format : List Byte) :
    ps.length + format.length ≤ (inFront ps format).length := by
  induction ps with
  | nil => exact Nat.le_of_eq (Nat.zero_add _)
  | cons p ps ih =>
    cases p with
    | lit c =>
      rw [inFront_lit, List.length_cons, List.length_cons]
      omega
    | conv c =>
      rw [inFront_conv, List.length_cons, List.length_cons, List.length_cons]
      omega

/-! ## Scanning -/

/-- What follows a conversion is no digit of it. -/
theorem Spelled.stop {ps : List Piece} {cs : List Byte} {ns : List Nat} (h : Spelled ps cs ns) {c : Byte}
    (hc : Separated (.conv c :: ps)) {e : Byte} (he : Stops (baseOf c) e) (rest : List Byte) :
    ∃ d ds, cs ++ e :: rest = d :: ds ∧ Stops (baseOf c) d := by
  cases h with
  | nil => exact ⟨e, rest, rfl, he⟩
  | lit h => exact ⟨_, _, rfl, hc.2.2⟩
  | conv => exact absurd hc.2.2 id

/-- The fields of a conversion without flags and width. -/
def Scan.plain (s : Scan) : Scan :=
  { s with splat := false, flWidth := false, rank := 0, width := 2 ^ 32 - 1 }

/-- A conversion of the format begins `scan_int` in its base. -/
theorem scanLoop_conv (st : Strto) {c : Byte} (h : isPlain c = true) (format : List Byte) {s : Scan}
    (hs : s.state = .normal) (hb : s.bail = .none) :
    scanLoop st (chr '%' :: c :: format) s =
      match scanInt (baseOf c) s.plain with
      | none => none
      | some s => scanLoop st format s := by
  cases s
  simp only at hs hb
  subst hs hb
  rcases isPlain_cases h with rfl | rfl | rfl | rfl | rfl
  · rfl
  · rfl
  · rfl
  · rfl
  · rfl
theorem setInteger_store {val a : Nat} {va : List Nat} {s : Scan} (hs : s.splat = false)
    (hva : s.va = a :: va) : setInteger val s =
      some { s with
        va := va
        stores := s.stores ++ [Store.mk a (leBytes (rankBytes s.rank) val)] } := by
  cases s
  simp only at hs hva
  subst hs hva
  rfl

/-- `scan_int` on a sign and digits. -/
theorem scanInt_text {b : Nat} {sign digits : List Byte} {s : Scan} {d : Byte} {ds : List Byte} {a : Nat}
    {va : List Nat} (hb : b = 8 ∨ b = 10 ∨ b = 16) (hsign : sign = [] ∨ sign = [chr '-'])
    (hne : digits ≠ []) (hnum : Numeral b digits) (hlen : digits.length < 2 ^ 32 - 1)
    (hq : s.q = sign ++ (digits ++ d :: ds)) (hd : Stops b d) (hva : s.va = a :: va) :
    ∃ s', scanInt b s.plain = some s' ∧ s'.q = d :: ds ∧ s'.va = va ∧ s'.state = s.state ∧
      s'.bail = s.bail ∧ s'.converted = s.converted + 1 ∧
      s'.stores = s.stores ++ [Store.mk a (leBytes 4 (signed b sign digits))] := by
  have hcases : sign = [] ∨ sign = [chr '-'] ∨ sign = [chr '+'] ∨ sign = [chr ' '] := by
    rcases hsign with h | h
    · exact .inl h
    · exact .inr (.inl h)
  have hsignlen : sign.length ≤ 1 := by
    rcases hsign with rfl | rfl
    · exact Nat.zero_le 1
    · exact Nat.le_refl 1
  have hread := strntoumax_text (n := 2 ^ 32 - 1) (i := 0) ds hb hcases hne hnum hd (by omega)
  rw [List.replicate_zero, List.nil_append, ← hq] at hread
  rw [← signed] at hread
  generalize signed b sign digits = val at hread ⊢
  -- the first character is a digit or the sign
  obtain ⟨e, es, hes, he0, hespace⟩ : ∃ e es, s.q = e :: es ∧ e ≠ 0#8 ∧ isspace e = false := by
    rw [hq]
    obtain ⟨k, ks, rfl⟩ := List.exists_cons_of_ne_nil hne
    obtain ⟨i, hi, -⟩ := hnum k (by simp)
    rcases hsign with rfl | rfl
    · refine ⟨k, _, rfl, ?_, (digit_plain hi).1⟩
      rintro rfl
      cases hi
    · exact ⟨chr '-', _, rfl, by decide, rfl⟩
  have hskip : skipspace s.plain.q = some (e :: es) := by
    have hplain : s.plain.q = e :: es := hes
    rw [hplain, skipspace, hespace]
    rfl
  have hstay : s.plain.goto (e :: es) = s.plain := by
    have hplain : s.plain.q = e :: es := hes
    rw [Scan.goto, ← hplain, Nat.sub_self, Nat.add_zero]
  have hshort : (d :: ds).length ≠ (e :: es).length := by
    rw [← hes, hq, List.length_append, List.length_append]
    have := List.length_pos_iff.mpr hne
    omega
  rw [hes] at hread
  refine ⟨{ s.plain.goto (d :: ds) with
    va := va
    converted := s.converted + 1
    stores := s.stores ++ [Store.mk a (leBytes 4 val)] }, ?_, rfl, rfl, rfl, rfl, rfl, rfl⟩
  have hwidth : s.plain.width = 2 ^ 32 - 1 := rfl
  have harg : ({ s.plain.goto (d :: ds) with converted := s.plain.converted + 1 } : Scan).va =
      a :: va := hva
  rw [scanInt, hskip]
  simp only [Option.bind_eq_bind, Option.bind_some, hstay, if_neg he0, hwidth, hread, if_neg hshort]
  exact setInteger_store rfl harg

/-- The scanner comes to what the format says behind the pieces. -/
theorem scan_pieces (st : Strto) {ps : List Piece} (h : Separated ps) {cs : List Byte} {ns : List Nat}
    (hsp : Spelled ps cs ns) {va : List Nat} (ha : va.length = ns.length) (va' : List Nat)
    {e : Byte} (he : ∀ c, Piece.conv c ∈ ps → Stops (baseOf c) e) (rest : List Byte) {s : Scan}
    (hs : s.state = .normal)
    (hb : s.bail = .none) (hq : s.q = cs ++ e :: rest) (hva : s.va = va ++ va') :
    ∃ s', (∀ format, scanLoop st (inFront ps format) s = scanLoop st format s') ∧
      s'.state = .normal ∧ s'.bail = .none ∧ s'.q = e :: rest ∧ s'.va = va' ∧
      s'.converted = s.converted + ns.length ∧
      s'.stores = s.stores ++ List.zipWith Store.mk va (ns.map (leBytes 4)) := by
  induction hsp generalizing va s with
  | nil =>
    have hva0 : va = [] := List.eq_nil_of_length_eq_zero ha
    rw [hva0, List.nil_append] at hva
    exact ⟨s, fun _ => rfl, hs, hb, hq, hva, by simp, by simp [hva0]⟩
  | @lit c ps cs ns hsp ih =>
    obtain ⟨⟨h0, hp, hspace⟩, hps⟩ := h
    have hq' : s.q = c :: (cs ++ e :: rest) := hq
    have he' : ∀ c', Piece.conv c' ∈ ps → Stops (baseOf c') e :=
      fun c' hc' => he c' (List.mem_cons_of_mem _ hc')
    obtain ⟨s', hs', hrest⟩ := ih hps ha he' (s := s.goto (cs ++ e :: rest)) hs hb rfl hva
    refine ⟨s', fun format => ?_, hrest⟩
    have hstep : scanStep st c s = some (s.goto (cs ++ e :: rest)) := by
      rw [scanStep, hs]
      simp only [if_neg hp, hspace, Bool.false_eq_true, if_false, hq', if_true]
    rw [inFront_lit, scanLoop, if_neg h0, if_neg (by simpa using hb), hstep]
    exact hs' format
  | @conv c ps cs ns sign digits hsign hne hnum hlen hsp ih =>
    obtain ⟨hc, hps, hsep⟩ := h
    cases va with
    | nil => cases ha
    | cons a va =>
      have he' : ∀ c', Piece.conv c' ∈ ps → Stops (baseOf c') e :=
        fun c' hc' => he c' (List.mem_cons_of_mem _ hc')
      obtain ⟨d, ds, hd, hdigit⟩ := hsp.stop ⟨hc, hps, hsep⟩ (he c List.mem_cons_self) rest
      have hq' : s.q = sign ++ (digits ++ d :: ds) := by
        rw [hq, List.append_assoc, List.append_assoc, hd]
      obtain ⟨s1, hs1, hq1, hva1, hstate1, hb1, hc1, hst1⟩ := scanInt_text (isPlain_base hc) hsign hne
        hnum hlen hq' hdigit hva
      obtain ⟨s', hs', hstate', hb', hq2, hva', hc', hst'⟩ := ih hps (by simpa using ha) he'
        (hstate1.trans hs) (hb1.trans hb) (hq1.trans hd.symm) hva1
      refine ⟨s', fun format => ?_, hstate', hb', hq2, hva', ?_, ?_⟩
      · rw [inFront_conv, scanLoop_conv st hc _ hs hb, hs1]
        exact hs' format
      · rw [hc', hc1, List.length_cons, Int.natCast_add]
        omega
      · rw [hst', hst1, List.append_assoc]
        rfl

end Libc
end Air101

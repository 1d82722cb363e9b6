import Air101.Libc.ScanSet
import Air101.Libc.RoundTrip
import Air101.Utils.Ip

/-!
# Utils.Ipaddr

`string_to_ipaddr` (`platform/common/utils/utils.c`), which reads an address with `sscanf`, and
`iptostr`, which prints one with `sprintf`.

* `stringToIpaddr_fields`: what it makes of four fields of digits.
* `string_to_ipaddr_accepts`: the fields it accepts. The fields are compared as `int`, so those from
  `2 ^ 31` on pass.
* `iptostr_text`: the model of `iptostr` is what `sprintf` puts out.
* `string_to_ipaddr_iptostr`: every address that is printed is read back.
-/

namespace Air101
namespace Utils

open Storage Libc

/-- `"%u.%u.%u.%u%c"` -/
def ipaddrFormat : List Byte :=
  [chr '%', chr 'u', chr '.', chr '%', chr 'u', chr '.', chr '%', chr 'u', chr '.', chr '%', chr 'u',
    chr '%', chr 'c', 0#8]

/-- The variables `in` and `c` on the stack, as offsets. -/
def ipaddrLocals : List Nat := [0, 4, 8, 12, 16]

/-- The bytes of a local variable; none of them is stored twice. -/
def localAt (stores : List Store) (a : Nat) : Option (List Byte) :=
  (stores.find? fun s => s.address = a).map Store.bytes

/-- The loop over `in`: the result and the bytes stored at `addr`. -/
def ipaddrLoop : List (List Byte) → Int × List Byte
  | [] => (0, [])
  | b :: bs =>
    if (BitVec.ofNat 32 (leNat b)).toInt > 255 then (-1, [])
    else ((ipaddrLoop bs).1, BitVec.ofNat 8 (leNat b) :: (ipaddrLoop bs).2)

def stringToIpaddr (st : Strto) (buf : List Byte) : Option (Int × List Byte) := do
  let (rc, stores) ← wmVsscanf st buf ipaddrFormat ipaddrLocals
  if rc ≠ 4 ∧ (rc ≠ 5 ∨ localAt stores 16 ≠ some [chr '\n']) then return (-1, [])
  let ins ← [0, 4, 8, 12].mapM (localAt stores)
  return ipaddrLoop ins

/-- Four fields with dots between them. -/
def quad : List Piece :=
  [.conv (chr 'u'), .lit (chr '.'), .conv (chr 'u'), .lit (chr '.'), .conv (chr 'u'), .lit (chr '.'),
    .conv (chr 'u')]

theorem quad_separated : Separated quad := by
  have hdot : IsLit (chr '.') := ⟨by decide, by decide, rfl⟩
  have hstop : Stops 10 (chr '.') := stops_of_none 10 rfl
  exact ⟨rfl, ⟨hdot, rfl, ⟨hdot, rfl, ⟨hdot, rfl, trivial, trivial⟩, hstop⟩, hstop⟩, hstop⟩

/-- A field of digits. -/
def Field (ds : List Byte) : Prop := ds ≠ [] ∧ Numeral 10 ds ∧ ds.length < 2 ^ 32 - 1

/-- What the scanner stores for a field. -/
def ipField (ds : List Byte) : Nat := number 10 ds % 2 ^ 32

/-- A field passes the comparison with 255. -/
def Passes (n : Nat) : Prop := n < 256 ∨ 2 ^ 31 ≤ n

instance (n : Nat) : Decidable (Passes n) := inferInstanceAs (Decidable (_ ∨ _))

theorem leNat_field (n : Nat) : leNat (leBytes 4 (n % 2 ^ 64)) = n % 2 ^ 32 := by
  rw [← leBytes_mod, leNat_leBytes (Nat.mod_lt _ (by decide))]
  omega

theorem passes_iff {n : Nat} (h : n < 2 ^ 32) :
    ¬ (BitVec.ofNat 32 n).toInt > 255 ↔ Passes n := by
  rw [Passes, BitVec.toInt_eq_toNat_cond, BitVec.toNat_ofNat, Nat.mod_eq_of_lt (by omega)]
  split
  · omega
  · omega

/-- `%c` takes a character, and at the end of the string nothing. -/
theorem scanChar_plain {s : Scan} {a : Nat} {va : List Nat} {e : Byte} {rest : List Byte}
    (hq : s.q = e :: rest) (hva : s.va = a :: va) :
    ∃ s', scanChar s.plain = some s' ∧
      s'.converted = (if e = 0#8 then s.converted else s.converted + 1) ∧
      s'.stores = s.stores ++ [Store.mk a (if e = 0#8 then [] else [e])] := by
  cases s
  simp only at hq hva
  subst hq hva
  by_cases he : e = 0#8
  · subst he
    exact ⟨_, rfl, rfl, rfl⟩
  · simp [scanChar, takeChars, Scan.vaArg, Scan.plain, Scan.goto, he]

/-- The end of the format, `%c`. -/
theorem scanLoop_char (st : Strto) {s : Scan} {a : Nat} {e : Byte} {rest : List Byte}
    (hs : s.state = .normal) (hb : s.bail = .none) (hq : s.q = e :: rest) (hva : s.va = [a]) :
    ∃ s', scanLoop st [chr '%', chr 'c', 0#8] s = some s' ∧
      s'.converted = (if e = 0#8 then s.converted else s.converted + 1) ∧
      s'.stores = s.stores ++ [Store.mk a (if e = 0#8 then [] else [e])] := by
  obtain ⟨s', hs', hrest⟩ := scanChar_plain hq hva
  refine ⟨s', ?_, hrest⟩
  have hstep : scanLoop st [chr '%', chr 'c', 0#8] s =
      (scanChar s.plain).bind fun s => scanLoop st [0#8] s := by
    cases s
    simp only at hs hb
    subst hs hb
    rw [scanLoop_cons (by decide), if_neg (by simp), scanStep]
    simp only [if_true, Option.bind_some]
    rw [scanLoop_cons (by decide), if_neg (by simp)]
    rfl
  rw [hstep, hs']
  rfl

/-- Behind the fields comes the end of the string or a new line. -/
def IsEnd (e : Byte) : Prop := e = 0#8 ∨ e = chr '\n'

instance (e : Byte) : Decidable (IsEnd e) := inferInstanceAs (Decidable (_ ∨ _))

/-- A character that is no decimal digit ends a field. -/
theorem stops_decimal {e : Byte} (he : ¬ (chr '0' ≤ e ∧ e ≤ chr '9')) : Stops 10 e := by
  refine ⟨fun d hd => ?_, fun h => absurd h (by decide)⟩
  have hrange : ¬ (0x30 ≤ e.toNat ∧ e.toNat ≤ 0x39) := he
  rw [digitval, if_neg hrange] at hd
  split at hd
  · cases hd
    omega
  split at hd
  · cases hd
    omega
  · cases hd

/-- The call on four fields of digits. -/
theorem stringToIpaddr_fields (st : Strto) {d0 d1 d2 d3 : List Byte} (h0 : Field d0) (h1 : Field d1)
    (h2 : Field d2) (h3 : Field d3) {e : Byte} (he : Stops 10 e) (rest : List Byte) :
    stringToIpaddr st (d0 ++ dot :: (d1 ++ dot :: (d2 ++ dot :: (d3 ++ e :: rest)))) =
      if IsEnd e then some (ipaddrLoop ([d0, d1, d2, d3].map fun d => leBytes 4 (number 10 d % 2 ^ 64)))
      else some (-1, []) := by
  have hspell : Spelled quad (d0 ++ dot :: (d1 ++ dot :: (d2 ++ dot :: d3)))
      ([d0, d1, d2, d3].map fun d => number 10 d % 2 ^ 64) := by
    have hlast := Spelled.conv (c := chr 'u') (.inl rfl) h3.1 h3.2.1 h3.2.2 .nil
    have hthird := Spelled.conv (c := chr 'u') (.inl rfl) h2.1 h2.2.1 h2.2.2 (.lit (c := dot) hlast)
    have hsecond := Spelled.conv (c := chr 'u') (.inl rfl) h1.1 h1.2.1 h1.2.2 (.lit (c := dot) hthird)
    have hfirst := Spelled.conv (c := chr 'u') (.inl rfl) h0.1 h0.2.1 h0.2.2 (.lit (c := dot) hsecond)
    have hvalue : ∀ d, signed (baseOf (chr 'u')) [] d = number 10 d % 2 ^ 64 := fun _ => rfl
    simp only [List.nil_append, List.append_nil, hvalue] at hfirst
    exact hfirst
  have hend : ∀ c, Piece.conv c ∈ quad → Stops (baseOf c) e := by
    intro c hc
    have hu : c = chr 'u' := by simpa [quad] using hc
    rw [hu]
    exact he
  have htext : d0 ++ dot :: (d1 ++ dot :: (d2 ++ dot :: (d3 ++ e :: rest))) =
      (d0 ++ dot :: (d1 ++ dot :: (d2 ++ dot :: d3))) ++ e :: rest := by
    simp
  have hfour : [0, 4, 8, 12].length =
      ([d0, d1, d2, d3].map fun d => number 10 d % 2 ^ 64).length := rfl
  obtain ⟨s, hscan, hstate, hbail, hq, hva, hconv, hstores⟩ := scan_pieces st quad_separated hspell
    hfour [16] hend rest (s := Scan.start _ ipaddrLocals) rfl rfl rfl rfl
  obtain ⟨s', hs', hconv', hstores'⟩ := scanLoop_char st hstate hbail hq hva
  have hformat : ipaddrFormat = inFront quad [chr '%', chr 'c', 0#8] := rfl
  have hconverted : s.converted = 4 := hconv
  rw [hconverted] at hconv'
  have hcall : wmVsscanf st (d0 ++ dot :: (d1 ++ dot :: (d2 ++ dot :: (d3 ++ e :: rest)))) ipaddrFormat
      ipaddrLocals = some (s'.converted, s'.stores) := by
    have hsome : s'.converted ≠ 0 := by
      rw [hconv']
      split
      · decide
      · decide
    rw [htext, wmVsscanf, hformat, hscan, hs']
    simp [hsome]
  rw [stringToIpaddr, hcall, hconv', hstores', hstores]
  by_cases hzero : e = 0#8
  case pos =>
    subst hzero
    rfl
  case neg =>
    rw [if_neg hzero, if_neg hzero]
    by_cases hline : e = chr '\n'
    case pos =>
      subst hline
      rfl
    case neg =>
      have hend : ¬ IsEnd e := fun h => h.elim hzero hline
      rw [if_neg hend]
      simp [localAt, Scan.start, hline]

/-- The loop over the fields that the scanner stored. -/
theorem ipaddrLoop_fields (dss : List (List Byte)) :
    let r := ipaddrLoop (dss.map fun d => leBytes 4 (number 10 d % 2 ^ 64))
    (r.1 = 0 ↔ ∀ d ∈ dss, Passes (ipField d)) ∧
      (r.1 = 0 → r.2 = dss.map fun d => BitVec.ofNat 8 (ipField d)) := by
  induction dss with
  | nil => simp [ipaddrLoop]
  | cons d dss ih =>
    have hlt : ipField d < 2 ^ 32 := Nat.mod_lt _ (by decide)
    have hpass := passes_iff hlt
    simp only [List.map_cons, ipaddrLoop, leNat_field, List.forall_mem_cons]
    rw [← ipField]
    split
    case isTrue h =>
      have hno : ¬ Passes (ipField d) := fun hp => hpass.mpr hp h
      exact ⟨⟨fun h0 => absurd h0 (by decide), fun h0 => absurd h0.1 hno⟩, fun h0 => absurd h0 (by decide)⟩
    case isFalse h =>
      have hyes : Passes (ipField d) := hpass.mp h
      simp only [hyes, true_and]
      exact ⟨ih.1, fun h0 => by rw [ih.2 h0]⟩

/-- Four fields of digits are accepted exactly if behind them comes the end of the string or a new line
and each of them, as an unsigned number of 32 bits, is below 256 or at least `2 ^ 31`; the address then
has their low bytes. -/
theorem string_to_ipaddr_accepts (st : Strto) {d0 d1 d2 d3 : List Byte} (h0 : Field d0) (h1 : Field d1)
    (h2 : Field d2) (h3 : Field d3) {e : Byte} (he : ¬ (chr '0' ≤ e ∧ e ≤ chr '9')) (rest : List Byte) :
    ∃ r addr, stringToIpaddr st (d0 ++ dot :: (d1 ++ dot :: (d2 ++ dot :: (d3 ++ e :: rest)))) =
        some (r, addr) ∧
      (r = 0 ↔ IsEnd e ∧ ∀ d ∈ [d0, d1, d2, d3], Passes (ipField d)) ∧
      (r = 0 → addr = [d0, d1, d2, d3].map fun d => BitVec.ofNat 8 (ipField d)) := by
  obtain ⟨haccept, haddr⟩ := ipaddrLoop_fields [d0, d1, d2, d3]
  have hcall := stringToIpaddr_fields st h0 h1 h2 h3 (stops_decimal he) rest
  obtain ⟨r, addr, hloop⟩ : ∃ r addr,
      ipaddrLoop ([d0, d1, d2, d3].map fun d => leBytes 4 (number 10 d % 2 ^ 64)) = (r, addr) :=
    ⟨_, _, rfl⟩
  rw [hloop] at hcall haccept haddr
  by_cases hend : IsEnd e
  case pos =>
    rw [if_pos hend] at hcall
    exact ⟨r, addr, hcall, haccept.trans (and_iff_right hend).symm, haddr⟩
  case neg =>
    rw [if_neg hend] at hcall
    exact ⟨_, _, hcall, by simp [hend], fun h => absurd h (by decide)⟩

theorem decimal_field {n : Nat} (h : n < 10 ^ 10) : Field (radix false 10 n) := by
  have hlen := radix_length_le false (b := 10) (k := 10) (by decide) (by decide) h
  exact ⟨radix_ne_nil _ _ _, radix_numeral _ (by decide) (by decide) n, by omega⟩

theorem ipField_decimal (n : Nat) : ipField (radix false 10 n) = n % 2 ^ 32 := by
  rw [ipField, number_radix false (by decide) (by decide)]

/-- `4294967295.0.0.1` and a new line. -/
theorem string_to_ipaddr_accepts_wide : ∃ r addr,
    stringToIpaddr ⟨fun q => ([], q), fun q => ([], q)⟩
      (radix false 10 4294967295 ++ dot :: (radix false 10 0 ++ dot :: (radix false 10 0 ++ dot ::
        (radix false 10 1 ++ [chr '\n', 0#8])))) = some (r, addr) ∧ r = 0 := by
  obtain ⟨r, addr, hcall, haccept, -⟩ := string_to_ipaddr_accepts
    ⟨fun q => ([], q), fun q => ([], q)⟩ (decimal_field (n := 4294967295) (by decide))
    (decimal_field (n := 0) (by decide)) (decimal_field (n := 0) (by decide))
    (decimal_field (n := 1) (by decide)) (e := chr '\n') (by decide) [0#8]
  refine ⟨r, addr, hcall, haccept.mpr ⟨.inr rfl, ?_⟩⟩
  simp [ipField_decimal, Passes]

/-! ## Printing -/

/-- `"%d.%d.%d.%d"` -/
def iptostrPieces : List Piece :=
  [.conv (chr 'd'), .lit (chr '.'), .conv (chr 'd'), .lit (chr '.'), .conv (chr 'd'), .lit (chr '.'),
    .conv (chr 'd')]

theorem iptostrPieces_separated : Separated iptostrPieces := by
  have hdot : IsLit (chr '.') := ⟨by decide, by decide, rfl⟩
  have hstop : Stops 10 (chr '.') := stops_of_none 10 rfl
  exact ⟨rfl, ⟨hdot, rfl, ⟨hdot, rfl, ⟨hdot, rfl, trivial, trivial⟩, hstop⟩, hstop⟩, hstop⟩

/-- The arguments of the `sprintf`. -/
def octets (ip : BitVec 32) : List (BitVec 32) :=
  [(ip >>> 24) &&& 0xFF#32, (ip >>> 16) &&& 0xFF#32, (ip >>> 8) &&& 0xFF#32, ip &&& 0xFF#32]

theorem radix_digits (n : Nat) : radix false 10 n = digits n := by
  induction n using Nat.strong_induction_on with
  | _ n ih =>
    obtain hlt | hle := Nat.lt_or_ge n 10
    · rw [digits_of_lt hlt]
      interval_cases n <;> rfl
    · have hdigit : digit false (n % 10) = BitVec.ofNat 8 (0x30 + n % 10) :=
        if_pos (Nat.mod_lt n (by decide))
      rw [radix_pos false (by decide) (by omega), if_neg (by omega), ih _ (by omega), digits_of_le hle,
        hdigit]

theorem toInt_byte {y : BitVec 32} (h : y.toNat < 256) : y.toInt = (y.toNat : Int) := by
  rw [BitVec.toInt_eq_toNat_cond]
  exact if_pos (by omega)

theorem plainText_byte {y : BitVec 32} (h : y.toNat < 256) : plainText (chr 'd') y = digits y.toNat := by
  rw [plainText, if_pos rfl, toInt_byte h, if_neg (by omega), Int.natAbs_natCast, radix_digits]
  rfl

theorem printD_octet {y : BitVec 32} (h : y.toNat < 256) : printD y = digits y.toNat := by
  rw [printD, toInt_byte h, if_neg (by omega), Int.natAbs_natCast]

theorem octets_lt (ip : BitVec 32) : ∀ y ∈ octets ip, y.toNat < 256 := by
  intro y hy
  have hand : ∀ x : BitVec 32, (x &&& 0xFF#32).toNat < 256 := by
    intro x
    rw [BitVec.toNat_and]
    exact lt_of_le_of_lt Nat.and_le_right (by decide)
  simp only [octets, List.mem_cons, List.not_mem_nil, or_false] at hy
  obtain rfl | rfl | rfl | rfl := hy
  · exact hand _
  · exact hand _
  · exact hand _
  · exact hand _

theorem octets_split (ip : BitVec 32) : ∃ y0 y1 y2 y3, octets ip = [y0, y1, y2, y3] ∧
    y0.toNat < 256 ∧ y1.toNat < 256 ∧ y2.toNat < 256 ∧ y3.toNat < 256 ∧
    iptostr ip = printD y0 ++ dot :: (printD y1 ++ dot :: (printD y2 ++ dot :: (printD y3 ++ [0#8]))) := by
  have hlt := octets_lt ip
  simp only [octets, List.forall_mem_cons] at hlt
  exact ⟨_, _, _, _, rfl, hlt.1, hlt.2.1, hlt.2.2.1, hlt.2.2.2.1, rfl⟩

/-- `iptostr` is what the format puts out. -/
theorem iptostr_text (fp : Floats) (ip : BitVec 32) :
    (text fp (formatOf iptostrPieces) ((octets ip).map Arg.word)).map (· ++ [0#8]) =
      some (iptostr ip) := by
  obtain ⟨y0, y1, y2, y3, hy, h0, h1, h2, h3, htext⟩ := octets_split ip
  rw [text_pieces fp iptostrPieces_separated (by rfl), htext, hy]
  simp only [iptostrPieces, printed, plainText_byte, printD_octet, h0, h1, h2, h3, Option.map_some,
    List.append_assoc, List.cons_append, List.append_nil]
  rfl

/-- Every address is printed as `iptostr` says and read back by `string_to_ipaddr`, the most significant
byte first. -/
theorem string_to_ipaddr_iptostr (fp : Floats) (st : Strto) (ip : BitVec 32) (rest : List Byte) :
    (text fp (formatOf iptostrPieces) ((octets ip).map Arg.word)).map (· ++ [0#8]) = some (iptostr ip) ∧
      stringToIpaddr st (iptostr ip ++ rest) = some (0, (octets ip).map (BitVec.setWidth 8)) := by
  refine ⟨iptostr_text fp ip, ?_⟩
  obtain ⟨y0, y1, y2, y3, hy, h0, h1, h2, h3, htext⟩ := octets_split ip
  have hfield : ∀ {y : BitVec 32}, y.toNat < 256 → Field (digits y.toNat) ∧
      ipField (digits y.toNat) = y.toNat := by
    intro y h
    rw [← radix_digits, ipField_decimal, Nat.mod_eq_of_lt (by omega)]
    exact ⟨decimal_field (by omega), rfl⟩
  have hcall := stringToIpaddr_fields st (hfield h0).1 (hfield h1).1 (hfield h2).1 (hfield h3).1
    (e := 0#8) (stops_of_none 10 rfl) rest
  rw [if_pos (.inl rfl)] at hcall
  obtain ⟨haccept, haddr⟩ := ipaddrLoop_fields ([y0, y1, y2, y3].map fun y => digits y.toNat)
  have hzero := haccept.mpr (by simp [hfield, h0, h1, h2, h3, Passes])
  have hvalue := haddr hzero
  have hstr : iptostr ip ++ rest = digits y0.toNat ++ dot :: (digits y1.toNat ++ dot ::
      (digits y2.toNat ++ dot :: (digits y3.toNat ++ 0#8 :: rest))) := by
    simp [htext, printD_octet, h0, h1, h2, h3]
  rw [hstr, hcall, hy]
  congr 1
  refine Prod.ext hzero (hvalue.trans ?_)
  simp [hfield, h0, h1, h2, h3]

end Utils
end Air101

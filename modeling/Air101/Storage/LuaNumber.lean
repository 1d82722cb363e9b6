import Mathlib.Data.Int.Log
import Mathlib.Data.Rat.Floor
import Mathlib.Tactic.Linarith
import Mathlib.Tactic.NormNum

/-!
# Storage.LuaNumber

The numbers of Lua 5.4 and how a script reads them from text. An integer has 64 bits and its
arithmetic wraps; a float is a double, here the value it stands for. Arithmetic on two integers is
integer arithmetic, on anything else float arithmetic, correctly rounded. Comparisons are exact,
between the two kinds too.

`ExtRat` serves both as the value of a float and as the exact value of any number. It has one zero:
no comparison and no sum below tells `0.0` from `-0.0`. Characters are those of the C locale.
-/

namespace Storage

/-- A rational, an infinity, or no number. -/
inductive ExtRat where
  | fin (q : ℚ)
  | inf
  | negInf
  | nan
  deriving DecidableEq

namespace ExtRat

def neg : ExtRat → ExtRat
  | .fin a => .fin (-a)
  | .inf => .negInf
  | .negInf => .inf
  | .nan => .nan

/-- The exact sum. -/
def sum : ExtRat → ExtRat → ExtRat
  | .fin a, .fin b => .fin (a + b)
  | .nan, _ | _, .nan | .inf, .negInf | .negInf, .inf => .nan
  | .inf, _ | _, .inf => .inf
  | .negInf, _ | _, .negInf => .negInf

/-- The sign of an infinity times a rational. -/
def signed (q : ℚ) : ExtRat := if 0 < q then .inf else if q < 0 then .negInf else .nan

/-- The exact product. -/
def prod : ExtRat → ExtRat → ExtRat
  | .fin a, .fin b => .fin (a * b)
  | .nan, _ | _, .nan => .nan
  | .fin a, .inf | .inf, .fin a => signed a
  | .fin a, .negInf | .negInf, .fin a => signed (-a)
  | .inf, .inf | .negInf, .negInf => .inf
  | .inf, .negInf | .negInf, .inf => .negInf

def lt : ExtRat → ExtRat → Bool
  | .nan, _ | _, .nan => false
  | .fin a, .fin b => a < b
  | .inf, _ | _, .negInf => false
  | .negInf, _ | _, .inf => true

def le : ExtRat → ExtRat → Bool
  | .nan, _ | _, .nan => false
  | .fin a, .fin b => a ≤ b
  | .negInf, _ | _, .inf => true
  | .inf, _ | _, .negInf => false

def eq : ExtRat → ExtRat → Bool
  | .fin a, .fin b => a = b
  | .inf, .inf | .negInf, .negInf => true
  | _, _ => false

@[simp] theorem sum_fin (a b : ℚ) : sum (.fin a) (.fin b) = .fin (a + b) := rfl
@[simp] theorem lt_fin (a b : ℚ) : lt (.fin a) (.fin b) = decide (a < b) := rfl
@[simp] theorem le_fin (a b : ℚ) : le (.fin a) (.fin b) = decide (a ≤ b) := rfl

theorem ne_nan_of_le_left {a b : ExtRat} (h : le a b) : a ≠ .nan := by
  rintro rfl
  simp [le] at h

theorem ne_nan_of_le_right {a b : ExtRat} (h : le a b) : b ≠ .nan := by
  rintro rfl
  cases a <;> simp [le] at h

theorem le_trans {a b c : ExtRat} (hab : le a b) (hbc : le b c) : le a c := by
  cases a <;> cases b <;> cases c <;> simp [le] at hab hbc ⊢
  linarith

theorem lt_of_lt_of_le {a b c : ExtRat} (hab : lt a b) (hbc : le b c) : lt a c := by
  cases a <;> cases b <;> cases c <;> simp [lt, le] at hab hbc ⊢
  linarith

theorem not_lt_of_le {a b : ExtRat} (h : le b a) : lt a b = false := by
  cases a <;> cases b <;> simp [lt, le] at h ⊢
  linarith

theorem le_of_not_lt {a b : ExtRat} (ha : a ≠ .nan) (hb : b ≠ .nan) (h : lt b a = false) :
    le a b := by
  cases a <;> cases b <;> simp [lt, le] at ha hb h ⊢
  exact h

theorem eq_of_eq {a b : ExtRat} (h : eq a b) : a = b := by
  cases a <;> cases b <;> simp [eq] at h ⊢
  exact h

/-! ## Rounding -/

/-- The nearest integer, the even one of two. -/
def roundEven (q : ℚ) : ℤ :=
  let k := ⌊q⌋
  if q - k < 1 / 2 then k
  else if 1 / 2 < q - k then k + 1
  else k + k % 2

/-- The nearest double. Its last digit stands for `2 ^ (e - 52)` when the leading one stands for
`2 ^ e`, and for `2 ^ -1074` at least; from `2 ^ 1024` on it is an infinity. -/
def round (q : ℚ) : ExtRat :=
  let ulp : ℚ := 2 ^ max (Int.log 2 |q| - 52) (-1074)
  let r := roundEven (q / ulp) * ulp
  if 2 ^ 1024 ≤ r then .inf else if r ≤ -2 ^ 1024 then .negInf else .fin r

def rounded : ExtRat → ExtRat
  | .fin q => round q
  | x => x

end ExtRat

/-! ## Numbers -/

inductive LuaNumber where
  | int (i : Int64)
  | float (x : ExtRat)
  deriving DecidableEq

namespace LuaNumber

/-- The value, not rounded. -/
def exact : LuaNumber → ExtRat
  | .int i => .fin i.toInt
  | .float x => x

def toFloat : LuaNumber → ExtRat
  | .int i => .round i.toInt
  | .float x => x

def add : LuaNumber → LuaNumber → LuaNumber
  | .int a, .int b => .int (a + b)
  | a, b => .float (a.toFloat.sum b.toFloat).rounded

def sub : LuaNumber → LuaNumber → LuaNumber
  | .int a, .int b => .int (a - b)
  | a, b => .float (a.toFloat.sum b.toFloat.neg).rounded

def mul : LuaNumber → LuaNumber → LuaNumber
  | .int a, .int b => .int (a * b)
  | a, b => .float (a.toFloat.prod b.toFloat).rounded

def lt (a b : LuaNumber) : Bool := a.exact.lt b.exact
def eq (a b : LuaNumber) : Bool := a.exact.eq b.exact

@[simp] theorem exact_int (i : Int64) : (LuaNumber.int i).exact = .fin i.toInt := rfl
@[simp] theorem add_int (a b : Int64) : add (.int a) (.int b) = .int (a + b) := rfl
@[simp] theorem sub_int (a b : Int64) : sub (.int a) (.int b) = .int (a - b) := rfl

end LuaNumber

/-! ## Text -/

/-- `%s`. -/
def isSpace (c : Char) : Bool := c = ' ' || (9 ≤ c.toNat && c.toNat ≤ 13)

/-- `s:match("^%s*(.-)%s*$")`. -/
def trim (s : List Char) : List Char :=
  ((s.dropWhile isSpace).reverse.dropWhile isSpace).reverse

/-- `%x`. -/
def isXDigit (c : Char) : Bool :=
  c.isDigit || ('a' ≤ c && c ≤ 'f') || ('A' ≤ c && c ≤ 'F')

/-- The value of a hexadecimal or decimal digit. -/
def digitVal (c : Char) : Nat :=
  if c.isDigit then c.toNat - '0'.toNat else c.toUpper.toNat - 'A'.toNat + 10

def natOf (base : Nat) (ds : List Char) : Nat := ds.foldl (fun n c => n * base + digitVal c) 0

/-- The digits behind `0x` or `0X`. -/
def hexDigits : List Char → Option (List Char)
  | '0' :: c :: ds => if c = 'x' ∨ c = 'X' then some ds else none
  | _ => none

/-- A leading `-` or `+`: whether it is a minus, and what follows. -/
def takeSign : List Char → Bool × List Char
  | '-' :: s => (true, s)
  | '+' :: s => (false, s)
  | s => (false, s)

/-- `tonumber(s, 16)` on hexadecimal digits: the accumulator wraps. -/
def tonumberBase16 (ds : List Char) : Int64 :=
  ds.foldl (fun n c => n * 16 + Int64.ofNat (digitVal c)) 0

/-- The integer a text stands for. Hexadecimal digits wrap; a decimal one that does not fit is
left to `str2d`. -/
def str2int (s : List Char) : Option Int64 :=
  let (minus, r) := takeSign s
  let signed (i : Int64) := if minus then -i else i
  match hexDigits r with
  | some ds => if ds ≠ [] ∧ ds.all isXDigit then some (signed (tonumberBase16 ds)) else none
  | none =>
    if r ≠ [] ∧ r.all Char.isDigit ∧ natOf 10 r ≤ 2 ^ 63 - 1 + minus.toNat then
      some (signed (Int64.ofNat (natOf 10 r)))
    else none

/-- Digits, with or without a point: those before it, those behind it, and the rest. -/
def mantissa (isDigit : Char → Bool) (s : List Char) : List Char × List Char × List Char :=
  match s.span isDigit with
  | (whole, '.' :: r) => (whole, r.span isDigit)
  | (whole, r) => (whole, [], r)

/-- What may follow the mantissa: nothing, or a mark and a decimal exponent. -/
def exponent (mark : Char) : List Char → Option ℤ
  | [] => some 0
  | c :: r =>
    let (minus, ds) := takeSign r
    if c.toLower = mark ∧ ds ≠ [] ∧ ds.all Char.isDigit then
      some (if minus then -natOf 10 ds else natOf 10 ds)
    else none

/-- A mantissa in base `base`, each digit worth `width` digits of the base `scale` that the
exponent counts in. -/
def scanFloat (base scale width : Nat) (isDigit : Char → Bool) (mark : Char) (s : List Char) :
    Option ℚ :=
  let (whole, frac, r) := mantissa isDigit s
  if whole ++ frac = [] then none
  else (exponent mark r).map fun e =>
    natOf base (whole ++ frac) * (scale : ℚ) ^ (e - (width * frac.length : ℤ))

/-- The float a text stands for; the names of infinities and of `nan` are not taken. -/
def str2d (s : List Char) : Option ExtRat :=
  let (minus, r) := takeSign s
  let q := match hexDigits r with
    | some ds => scanFloat 16 2 4 isXDigit 'p' ds
    | none => scanFloat 10 10 1 Char.isDigit 'e' r
  q.map fun q => .round (if minus then -q else q)

/-- `tonumber(s)`. -/
def tonumber (s : List Char) : Option LuaNumber :=
  match str2int (trim s) with
  | some i => some (.int i)
  | none => (str2d (trim s)).map .float

end Storage

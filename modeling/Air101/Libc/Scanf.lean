import Air101.Libc.Printf

/-!
# Libc.Scanf

`platform/arch/xt804/libc/libc_port.c`: `strntoumax` and `wm_vsscanf`.

The scanner is a machine over the characters of the format. A step takes one character; where the
source steps back (`p--`), the next state takes the same one. What the call stores is a list, each
value with the address that `va_arg` gave. `strtof` and `strtod` are those of the C library.
-/

namespace Air101
namespace Libc

open Storage

/-- `isspace` in the C locale. -/
def isspace (c : Byte) : Bool := c = 0x20#8 || (0x09#8 ≤ c && c ≤ 0x0D#8)

/-- `while ( n && isspace(*nptr) )` -/
def skipBlanks : List Byte → Nat → Option (List Byte × Nat)
  | [], n => if n = 0 then some ([], 0) else none
  | c :: cs, n => if n ≠ 0 && isspace c then skipBlanks cs (n - 1) else some (c :: cs, n)

/-- The digits of `strntoumax`; `uintmax_t` has 64 bits. -/
def readDigits (base : Nat) : List Byte → Nat → Nat → Option (Nat × List Byte)
  | [], n, v => if n = 0 then some (v, []) else none
  | c :: cs, n, v =>
    if n = 0 then some (v, c :: cs)
    else
      match digitval c with
      | some d =>
        if d < base then readDigits base cs (n - 1) ((v * base + d) % 2 ^ 64) else some (v, c :: cs)
      | none => some (v, c :: cs)

/-- The sign: whether it is a minus, and what is behind it. A plus does not count for `n`. -/
def readSign : List Byte → Nat → Option (Bool × List Byte × Nat)
  | [], n => if n = 0 then some (false, [], 0) else none
  | c :: cs, n =>
    if n ≠ 0 && c = chr '-' then some (true, cs, n - 1)
    else if n ≠ 0 && c = chr '+' then some (false, cs, n)
    else some (false, c :: cs, n)

/-- `nptr[0] == '0' && (nptr[1] == 'x' || nptr[1] == 'X')`, read only if `n >= 2`. -/
def hexPrefix : List Byte → Option Bool
  | [] => none
  | c :: cs =>
    if c = chr '0' then
      match cs with
      | [] => none
      | d :: _ => some (d = chr 'x' || d = chr 'X')
    else some false

/-- The base and what is behind its prefix. -/
def readBase (nptr : List Byte) (base n : Nat) : Option (Nat × List Byte × Nat) :=
  if base = 0 then do
    let hex ← if n ≥ 2 then hexPrefix nptr else some false
    if hex then return (16, nptr.drop 2, n - 2)
    else if n ≥ 1 then
      match nptr with
      | [] => none
      | c :: cs => return if c = chr '0' then (8, cs, n - 1) else (10, nptr, n)
    else return (10, nptr, n)
  else if base = 16 then do
    let hex ← if n ≥ 2 then hexPrefix nptr else some false
    return if hex then (16, nptr.drop 2, n - 2) else (16, nptr, n)
  else some (base, nptr, n)

/-- `strntoumax`: the value and `*endptr`. -/
def strntoumax (nptr : List Byte) (base n : Nat) : Option (Nat × List Byte) := do
  let (nptr, n) ← skipBlanks nptr n
  let (minus, nptr, n) ← readSign nptr n
  let (base, nptr, n) ← readBase nptr base n
  let (v, nptr) ← readDigits base nptr n 0
  return (if minus then (2 ^ 64 - v) % 2 ^ 64 else v, nptr)

/-- `skipspace` -/
def skipspace : List Byte → Option (List Byte)
  | [] => none
  | c :: cs => if isspace c then skipspace cs else some (c :: cs)

inductive State where
  | normal
  | flags
  | width
  | modifiers
  | matchInit
  | matchSet
  | matchRange
  deriving DecidableEq

inductive Bail where
  | none
  | eof
  | err
  deriving DecidableEq

/-- What is stored at the address of an argument. -/
structure Store where
  address : Nat
  bytes : List Byte
  deriving DecidableEq

/-- `strtof` and `strtod`: the bytes of the value and what is behind the number. -/
structure Strto where
  strtof : List Byte → List Byte × List Byte
  strtod : List Byte → List Byte × List Byte

def rankPtr : Int := 2 ^ 31 - 1

/-- The variables of `wm_vsscanf`. -/
structure Scan where
  state : State
  splat : Bool
  flWidth : Bool
  rank : Int
  width : Nat
  q : List Byte
  /-- `q - buffer` -/
  count : Nat
  bail : Bail
  converted : Int
  matchmap : Byte → Bool
  matchinv : Bool
  rangeStart : Byte
  /-- the address in `sarg` -/
  sarg : Nat
  va : List Nat
  stores : List Store

def Scan.start (buffer : List Byte) (va : List Nat) : Scan where
  state := .normal
  splat := false
  flWidth := false
  rank := 0
  width := 2 ^ 32 - 1
  q := buffer
  count := 0
  bail := .none
  converted := 0
  matchmap := fun _ => false
  matchinv := false
  rangeStart := 0#8
  sarg := 0
  va := va
  stores := []

/-- `q` moves on to `rest`. -/
def Scan.goto (s : Scan) (rest : List Byte) : Scan :=
  { s with q := rest, count := s.count + (s.q.length - rest.length) }

/-- The bytes of the types behind the ranks. -/
def rankBytes (rank : Int) : Nat :=
  if rank = -2 then 1 else if rank = -1 then 2 else if rank = 2 then 8 else 4

/-- `va_arg(ap, T *)` -/
def Scan.vaArg (s : Scan) : Option (Nat × Scan) :=
  match s.va with
  | [] => none
  | a :: va => some (a, { s with va })

/-- `set_integer:` -/
def setInteger (val : Nat) (s : Scan) : Option Scan :=
  if !s.splat then do
    let (a, s) ← s.vaArg
    return { s with stores := s.stores ++ [Store.mk a (leBytes (rankBytes s.rank) val)] }
  else some s

/-- `scan_int:` -/
def scanInt (base : Nat) (s : Scan) : Option Scan := do
  let q ← skipspace s.q
  let s := s.goto q
  match q with
  | [] => none
  | c :: _ =>
    if c = 0#8 then return { s with bail := .eof }
    let (val, qq) ← strntoumax q base s.width
    if qq.length = q.length then return { s with bail := .err }
    setInteger val { s.goto qq with converted := s.converted + 1 }

/-- The loop of the case `c`: the characters it copies, the rest, and whether it came to the end. -/
def takeChars : List Byte → Nat → Option (List Byte × List Byte × Bool)
  | q, 0 => some ([], q, false)
  | [], _ + 1 => none
  | c :: cs, n + 1 =>
    if c = 0#8 then some ([], c :: cs, true)
    else (takeChars cs n).map fun r => (c :: r.1, r.2.1, r.2.2)

def scanChar (s : Scan) : Option Scan := do
  let width := if s.flWidth then s.width else 1
  let (a, s) ← s.vaArg
  let (cs, q, atEnd) ← takeChars s.q width
  let s := { s.goto q with stores := s.stores ++ [Store.mk a cs] }
  return if atEnd then { s with bail := .eof } else { s with converted := s.converted + 1 }

/-- The characters in front of the first one that fails `p`, as far as `n` allows. -/
def takeWord (p : Byte → Bool) : List Byte → Nat → Option (List Byte × List Byte)
  | q, 0 => some ([], q)
  | [], _ + 1 => none
  | c :: cs, n + 1 =>
    if c ≠ 0#8 && p c then (takeWord p cs n).map fun r => (c :: r.1, r.2) else some ([], c :: cs)

def scanString (s : Scan) : Option Scan := do
  let (a, s) ← s.vaArg
  let (cs, q) ← takeWord (fun c => !isspace c) s.q s.width
  let s := s.goto q
  if cs ≠ [] then
    return { s with stores := s.stores ++ [Store.mk a (cs ++ [0#8])], converted := s.converted + 1 }
  else return { s with bail := .eof }

/-- The cases `f` and `g`. -/
def scanFloat (strto : List Byte → List Byte × List Byte) (s : Scan) : Option Scan := do
  let (a, s) ← s.vaArg
  let (bytes, q) := strto s.q
  let moved := q.length ≠ s.q.length
  let s := { s.goto q with stores := s.stores ++ [Store.mk a bytes] }
  return if moved then { s with converted := s.converted + 1 } else { s with bail := .err }

/-- `switch ( ch )` at a conversion. -/
def scanConversion (fp : Strto) (ch : Byte) (s : Scan) : Option Scan :=
  if ch = chr 'P' || ch = chr 'p' then scanInt 0 { s with rank := rankPtr }
  else if ch = chr 'i' then scanInt 0 s
  else if ch = chr 'd' then scanInt 10 s
  else if ch = chr 'o' then scanInt 8 s
  else if ch = chr 'u' then scanInt 10 s
  else if ch = chr 'x' || ch = chr 'X' then scanInt 16 s
  else if ch = chr 'n' then setInteger s.count s
  else if ch = chr 'c' then scanChar s
  else if ch = chr 's' then scanString s
  else if ch = chr 'f' then scanFloat fp.strtof s
  else if ch = chr 'g' then scanFloat fp.strtod s
  else if ch = chr '[' then do
    let (a, s) ← s.vaArg
    return { s with sarg := a, state := .matchInit, matchinv := false, matchmap := fun _ => false }
  else if ch = chr '%' then
    match s.q with
    | [] => none
    | c :: cs => some (if c = chr '%' then s.goto cs else { s with bail := .err })
  else some { s with bail := .err }

/-- `case st_modifiers:` -/
def scanModifiers (fp : Strto) (ch : Byte) (s : Scan) : Option Scan :=
  if ch = chr 'h' then some { s with rank := s.rank - 1 }
  else if ch = chr 'l' then some { s with rank := s.rank + 1 }
  else if ch = chr 'j' then some { s with rank := 2 }
  else if ch = chr 'z' then some { s with rank := 1 }
  else if ch = chr 't' then some { s with rank := 1 }
  else if ch = chr 'L' || ch = chr 'q' then some { s with rank := 2 }
  else
    let rank := if s.rank < -2 then -2 else if s.rank > 2 then 2 else s.rank
    scanConversion fp ch { s with state := .normal, rank }

/-- `set_bit(matchmap, ch)` -/
def Scan.setBit (s : Scan) (ch : Byte) : Scan :=
  { s with matchmap := fun c => c = ch || s.matchmap c }

/-- `match_run:` the width is not counted down, and the state stays as it is. -/
def matchRun (s : Scan) : Option Scan := do
  let n := if s.width ≠ 0 then s.q.length + 1 else 0
  let (cs, q) ← takeWord (fun c => s.matchmap c != s.matchinv) s.q n
  let s := s.goto q
  if cs ≠ [] then
    return { s with
      stores := s.stores ++ [Store.mk s.sarg (cs ++ [0#8])]
      sarg := s.sarg + cs.length
      converted := s.converted + 1 }
  else
    match q with
    | [] => none
    | c :: _ => return { s with bail := if c ≠ 0#8 then .err else .eof }

/-- A turn of the loop of `wm_vsscanf`. -/
def scanStep (fp : Strto) (ch : Byte) (s : Scan) : Option Scan :=
  match s.state with
  | .normal =>
    if ch = chr '%' then
      some { s with
        state := .flags, splat := false, flWidth := false, rank := 0, width := 2 ^ 32 - 1 }
    else if isspace ch then do
      let q ← skipspace s.q
      return s.goto q
    else
      match s.q with
      | [] => none
      | c :: cs => some (if c = ch then s.goto cs else { s with bail := .err })
  | .flags =>
    if ch = chr '*' then some { s with splat := true }
    else if isDigit ch then
      some { s with width := ch.toNat - 0x30, state := .width, flWidth := true }
    else scanModifiers fp ch { s with state := .modifiers }
  | .width =>
    if isDigit ch then some { s with width := (s.width * 10 + (ch.toNat - 0x30)) % 2 ^ 32 }
    else scanModifiers fp ch { s with state := .modifiers }
  | .modifiers => scanModifiers fp ch s
  | .matchInit =>
    if ch = chr '^' then some { s with matchinv := true }
    else some { s.setBit ch with state := .matchSet }
  | .matchSet =>
    if ch = chr ']' then matchRun s
    else if ch = chr '-' then some { s with rangeStart := ch, state := .matchRange }
    else some (s.setBit ch)
  | .matchRange =>
    if ch = chr ']' then matchRun (s.setBit (chr '-'))
    else
      -- the range begins at the dash itself
      some { s with
        matchmap := fun c => (s.rangeStart ≤ c && c < ch) || s.matchmap c
        state := .matchSet }

/-- The loop of `wm_vsscanf` over the format. -/
def scanLoop (fp : Strto) : List Byte → Scan → Option Scan
  | [], _ => none
  | ch :: format, s =>
    if ch = 0#8 then some s
    else if s.bail ≠ .none then some s
    else
      match scanStep fp ch s with
      | none => none
      | some s => scanLoop fp format s

/-- `wm_vsscanf`: the result and what it stored. -/
def wmVsscanf (fp : Strto) (buffer format : List Byte) (va : List Nat) :
    Option (Int × List Store) := do
  let s ← scanLoop fp format (Scan.start buffer va)
  return (if s.bail = .eof && s.converted = 0 then -1 else s.converted, s.stores)

end Libc
end Air101

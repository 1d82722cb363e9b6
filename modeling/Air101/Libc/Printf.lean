import Air101.Storage.Radix

/-!
# Libc.Printf

`platform/arch/xt804/libc/libc_port.c`: `_vsnprintf` with its output functions, as `wm_vsnprintf` and
`wm_printf` call it.

A string is the list of the bytes from its address on. A read behind them, or an argument of another
type than the conversion takes, is `none`. `int`, `long` and a pointer have 32 bits, and `char` has no
sign. What `_ftoa` and `_etoa` put out is a parameter.
-/

namespace Air101
namespace Libc

open Storage

/-- The code of a character. -/
def chr (c : Char) : Byte := BitVec.ofNat 8 c.toNat

structure Flags where
  zeropad : Bool
  left : Bool
  plus : Bool
  space : Bool
  hash : Bool
  uppercase : Bool
  char : Bool
  short : Bool
  long : Bool
  longLong : Bool
  precision : Bool
  adaptExp : Bool
  deriving DecidableEq

/-- `flags = 0U` -/
def Flags.none : Flags :=
  ⟨false, false, false, false, false, false, false, false, false, false, false, false⟩

def printfNtoaBufferSize : Nat := 32

/-- What `va_arg` takes. -/
inductive Arg where
  | word (v : BitVec 32)
  | dword (v : BitVec 64)
  | double (bits : BitVec 64)
  | ptr (address : BitVec 32) (mem : List Byte)

/-- The characters of `_ftoa` and `_etoa` for a value with precision, width and flags. -/
structure Floats where
  ftoa : BitVec 64 → Nat → Nat → Flags → List Byte
  etoa : BitVec 64 → Nat → Nat → Flags → List Byte

/-! ## Output functions -/

/-- The buffer behind an output function and the index of the next character. -/
structure Out (σ : Type) where
  buffer : σ
  idx : Nat

/-- `_out_buffer` for a buffer at address `base`. -/
def outBuffer (base : Nat) (character : Byte) (ram : Nat → Byte) (idx maxlen : Nat) : Nat → Byte :=
  if idx < maxlen then overlay ram (base + idx) [character] else ram

/-- `_out_null` -/
def outNull {σ : Type} (_ : Byte) (buffer : σ) (_ _ : Nat) : σ := buffer

/-- The port of `printf_port` and what was stored to the send windows of the two UARTs. -/
structure Uart where
  printfPort : Byte
  tx0 : List Byte
  tx1 : List Byte

def sendchar (u : Uart) (ch : Byte) : Uart :=
  if u.printfPort = 0#8 then { u with tx0 := u.tx0 ++ [ch] }
  else if u.printfPort = 1#8 then { u with tx1 := u.tx1 ++ [ch] }
  else u

/-- `_out_uart` -/
def outUart (character : Byte) (u : Uart) (_ _ : Nat) : Uart := sendchar u character

section Sink

variable {σ : Type} (out : Byte → σ → Nat → Nat → σ) (maxlen : Nat)

/-- `out(c, buffer, idx++, maxlen)` -/
def put (o : Out σ) (c : Byte) : Out σ := ⟨out c o.buffer o.idx maxlen, (o.idx + 1) % 2 ^ 32⟩

/-- The characters one after the other. -/
def putAll (o : Out σ) (cs : List Byte) : Out σ := cs.foldl (put out maxlen) o

/-- A loop `for (i = from; i < width; i++)` that puts out blanks. -/
def padTo (o : Out σ) (start width : Nat) : Out σ :=
  putAll out maxlen o (List.replicate (width - start) (chr ' '))

/-- `while (idx - start_idx < width)` -/
def padBehind (startIdx width : Nat) : Nat → Out σ → Out σ
  | 0, o => o
  | n + 1, o =>
    if (o.idx + 2 ^ 32 - startIdx) % 2 ^ 32 < width then
      padBehind startIdx width n (put out maxlen o (chr ' '))
    else o

def outRev (o : Out σ) (buf : List Byte) (width : Nat) (flags : Flags) : Out σ :=
  let startIdx := o.idx
  let o := if !flags.left && !flags.zeropad then padTo out maxlen o buf.length width else o
  let o := putAll out maxlen o buf.reverse
  if flags.left then padBehind out maxlen startIdx width width o else o

/-- `while ((len < n) && (len < PRINTF_NTOA_BUFFER_SIZE)) buf[len++] = '0';` -/
def zerosTo (buf : List Byte) (n : Nat) : List Byte :=
  buf ++ List.replicate (min n printfNtoaBufferSize - buf.length) (chr '0')

/-- `if (len < PRINTF_NTOA_BUFFER_SIZE) buf[len++] = c;` -/
def push (buf : List Byte) (c : Byte) : List Byte :=
  if buf.length < printfNtoaBufferSize then buf ++ [c] else buf

/-- The part of `_ntoa_format` behind `// handle hash`. -/
def hashMark (buf : List Byte) (base prec width : Nat) (flags : Flags) : List Byte :=
  let buf :=
    if !flags.precision && buf.length ≠ 0 && (buf.length = prec || buf.length = width) then
      let buf := buf.dropLast
      if buf.length ≠ 0 && base = 16 then buf.dropLast else buf
    else buf
  let buf :=
    if base = 16 && !flags.uppercase then push buf (chr 'x')
    else if base = 16 && flags.uppercase then push buf (chr 'X')
    else if base = 2 then push buf (chr 'b')
    else buf
  push buf (chr '0')

def signMark (buf : List Byte) (negative : Bool) (flags : Flags) : List Byte :=
  if negative then push buf (chr '-')
  else if flags.plus then push buf (chr '+')
  else if flags.space then push buf (chr ' ')
  else buf

/-- The buffer of `_ntoa_format` when it calls `_out_rev`, and the width. -/
def ntoaBuffer (buf : List Byte) (negative : Bool) (base prec width : Nat) (flags : Flags) :
    List Byte × Nat :=
  let width :=
    if !flags.left && width ≠ 0 && flags.zeropad && (negative || flags.plus || flags.space) then
      width - 1
    else width
  let buf :=
    if !flags.left then
      let buf := zerosTo buf prec
      if flags.zeropad then zerosTo buf width else buf
    else buf
  let buf := if flags.hash then hashMark buf base prec width flags else buf
  (signMark buf negative flags, width)

def ntoaFormat (o : Out σ) (buf : List Byte) (negative : Bool) (base prec width : Nat)
    (flags : Flags) : Out σ :=
  let (buf, width) := ntoaBuffer buf negative base prec width flags
  outRev out maxlen o buf width flags

/-- The loop of `_ntoa_long`; there is room for `n` digits. -/
def ntoaDigits (uppercase : Bool) (base : Nat) : Nat → Nat → List Byte
  | 0, _ => []
  | n + 1, value =>
    digit uppercase (value % base) ::
      if value / base ≠ 0 then ntoaDigits uppercase base n (value / base) else []

/-- The flags and the digits that `_ntoa_long` hands to `_ntoa_format`. -/
def ntoaDigitsOf (value base : Nat) (flags : Flags) : List Byte × Flags :=
  let flags := if value = 0 then { flags with hash := false } else flags
  (if !flags.precision || value ≠ 0 then
    ntoaDigits flags.uppercase base printfNtoaBufferSize value else [], flags)

def ntoaLong (o : Out σ) (value : Nat) (negative : Bool) (base prec width : Nat) (flags : Flags) :
    Out σ :=
  let (buf, flags) := ntoaDigitsOf value base flags
  ntoaFormat out maxlen o buf negative base prec width flags

/-- `_ntoa_long_long` has the text of `_ntoa_long` with a wider `value`. -/
def ntoaLongLong (o : Out σ) (value : Nat) (negative : Bool) (base prec width : Nat)
    (flags : Flags) : Out σ :=
  ntoaLong out maxlen o value negative base prec width flags

/-! ## Strings -/

/-- `_strnlen_s`: the character is read before the limit is looked at. -/
def strnlenS : List Byte → Nat → Option Nat
  | [], _ => none
  | c :: cs, maxsize =>
    if c = 0#8 then some 0
    else if maxsize = 0 then some 0
    else (strnlenS cs (maxsize - 1)).map (· + 1)

/-- `while ((*p != 0) && (!(flags & FLAGS_PRECISION) || precision--)) out(*(p++), ...)`; `limit` is
`none` without the flag. -/
def putString : List Byte → Option Nat → Out σ → Option (Out σ)
  | [], _, _ => none
  | c :: cs, limit, o =>
    if c = 0#8 then some o
    else
      match limit with
      | some 0 => some o
      | some (n + 1) => putString cs (some n) (put out maxlen o c)
      | none => putString cs none (put out maxlen o c)

/-- The end of the cases `s`, `M`, `v` and `V`: a string `p` of which `l` characters count for the
width. -/
def putField (o : Out σ) (flags : Flags) (width precision l : Nat) (p : List Byte) :
    Option (Out σ) := do
  let l := if flags.precision then (if l < precision then l else precision) else l
  let o := if !flags.left then padTo out maxlen o l width else o
  let o ← putString out maxlen p (if flags.precision then some precision else none) o
  return if flags.left then padTo out maxlen o l width else o

end Sink

/-- The characters of a byte in `__mac2str` and `__ip2str`. -/
def hexPair (c : Byte) : List Byte := [digit true (c.toNat / 16), digit true (c.toNat % 16)]

/-- `__mac2str`: `store` as a string. -/
def mac2str (inchar : List Byte) : Option (List Byte) :=
  if inchar.length < 6 then none
  else
    some (((inchar.take 6).flatMap fun c => hexPair c ++ [chr '-']).dropLast ++ [0#8])

/-- The digits of a byte in `__ip2str`, without leading zeros. -/
def decimalByte (bit : Nat) : List Byte :=
  let h := bit / 100
  let m := bit % 100 / 10
  let l := bit % 100 % 10
  (if h ≠ 0 then [digit true h] else []) ++
    (if m ≠ 0 then [digit true m] else if h ≠ 0 then [chr '0'] else []) ++ [digit true l]

/-- `__ip2str(4, ..)`: `store` as a string. -/
def ip2str4 (ipv4 : BitVec 32) : List Byte :=
  ((List.range 4).flatMap fun i => decimalByte (ipv4.toNat >>> (8 * i) % 256) ++ [chr '.']).dropLast ++
    [0#8]

/-- `__ip2str(6, ..)`: a colon behind every second byte. -/
def ip2str6 (inuint : List Byte) : Option (List Byte) :=
  if inuint.length < 16 then none
  else
    some ((((inuint.take 16).zipIdx).flatMap fun c =>
      hexPair c.1 ++ if c.2 % 2 ≠ 0 then [chr ':'] else []).dropLast ++ [0#8])

/-! ## The format -/

/-- `_atoi`: the number and what is behind it. -/
def atoi : List Byte → Nat → Nat × List Byte
  | [], i => (i, [])
  | c :: str, i =>
    if chr '0' ≤ c && c ≤ chr '9' then atoi str ((i * 10 + (c.toNat - 0x30)) % 2 ^ 32)
    else (i, c :: str)

def isDigit (ch : Byte) : Bool := chr '0' ≤ ch && ch ≤ chr '9'

def parseFlags : List Byte → Flags → Flags × List Byte
  | [], flags => (flags, [])
  | c :: format, flags =>
    if c = chr '0' then parseFlags format { flags with zeropad := true }
    else if c = chr '-' then parseFlags format { flags with left := true }
    else if c = chr '+' then parseFlags format { flags with plus := true }
    else if c = chr ' ' then parseFlags format { flags with space := true }
    else if c = chr '#' then parseFlags format { flags with hash := true }
    else (flags, c :: format)

/-- `va_arg(va, int)` -/
def vaInt : List Arg → Option (BitVec 32 × List Arg)
  | .word v :: va => some (v, va)
  | _ => none

/-- `va_arg(va, long long)` -/
def vaLongLong : List Arg → Option (BitVec 64 × List Arg)
  | .dword v :: va => some (v, va)
  | _ => none

/-- `va_arg(va, double)` -/
def vaDouble : List Arg → Option (BitVec 64 × List Arg)
  | .double v :: va => some (v, va)
  | _ => none

/-- `va_arg(va, char*)` -/
def vaPtr : List Arg → Option ((BitVec 32 × List Byte) × List Arg)
  | .ptr a mem :: va => some ((a, mem), va)
  | _ => none

def parseWidth (format : List Byte) (flags : Flags) (va : List Arg) :
    Option (Nat × Flags × List Byte × List Arg) :=
  match format with
  | [] => none
  | c :: rest =>
    if isDigit c then
      let (width, format) := atoi format 0
      some (width, flags, format, va)
    else if c = chr '*' then do
      let (w, va) ← vaInt va
      if w.toInt < 0 then return ((-w).toNat, { flags with left := true }, rest, va)
      else return (w.toNat, flags, rest, va)
    else some (0, flags, format, va)

def parsePrecision (format : List Byte) (flags : Flags) (va : List Arg) :
    Option (Nat × Flags × List Byte × List Arg) :=
  match format with
  | [] => none
  | c :: rest =>
    if c = chr '.' then
      let flags := { flags with precision := true }
      match rest with
      | [] => none
      | d :: rest' =>
        if isDigit d then
          let (precision, format) := atoi rest 0
          some (precision, flags, format, va)
        else if d = chr '*' then do
          let (prec, va) ← vaInt va
          return (if prec.toInt > 0 then prec.toNat else 0, flags, rest', va)
        else some (0, flags, rest, va)
    else some (0, flags, format, va)

/-- The length field: `sizeof(ptrdiff_t)`, `sizeof(size_t)` are that of `long`, `sizeof(intmax_t)` is
not. -/
def parseLength (format : List Byte) (flags : Flags) : Option (Flags × List Byte) :=
  match format with
  | [] => none
  | c :: rest =>
    if c = chr 'l' then
      match rest with
      | [] => none
      | d :: rest' =>
        if d = chr 'l' then some ({ flags with long := true, longLong := true }, rest')
        else some ({ flags with long := true }, rest)
    else if c = chr 'h' then
      match rest with
      | [] => none
      | d :: rest' =>
        if d = chr 'h' then some ({ flags with short := true, char := true }, rest')
        else some ({ flags with short := true }, rest)
    else if c = chr 't' || c = chr 'z' then some ({ flags with long := true }, rest)
    else if c = chr 'j' then some ({ flags with longLong := true }, rest)
    else some (flags, format)

/-- A conversion behind its `%`: all fields and the specifier. -/
structure Spec where
  flags : Flags
  width : Nat
  precision : Nat
  specifier : Byte

/-- The fields of a conversion, the format behind the specifier and the arguments left. -/
def parseSpec (format : List Byte) (va : List Arg) : Option (Spec × List Byte × List Arg) := do
  let (flags, format) := parseFlags format Flags.none
  let (width, flags, format, va) ← parseWidth format flags va
  let (precision, flags, format, va) ← parsePrecision format flags va
  let (flags, format) ← parseLength format flags
  match format with
  | [] => none
  | c :: format => some (⟨flags, width, precision, c⟩, format, va)

/-- The specifiers `d`, `i`, `u`, `x`, `X`, `o` and `b`. -/
def isInteger (c : Byte) : Bool :=
  c = chr 'd' || c = chr 'i' || c = chr 'u' || c = chr 'x' || c = chr 'X' || c = chr 'o' ||
    c = chr 'b'

def baseOf (c : Byte) : Nat :=
  if c = chr 'x' || c = chr 'X' then 16 else if c = chr 'o' then 8 else if c = chr 'b' then 2 else 10

/-- The flags as the case of the integers changes them. -/
def integerFlags (flags : Flags) (c : Byte) : Flags :=
  let flags := if baseOf c = 10 then { flags with hash := false } else flags
  let flags := if c = chr 'X' then { flags with uppercase := true } else flags
  let flags :=
    if c ≠ chr 'i' && c ≠ chr 'd' then { flags with plus := false, space := false } else flags
  if flags.precision then { flags with zeropad := false } else flags

/-- The value of an integer conversion: its magnitude, whether it is negative, and the arguments
left. -/
def integerValue (flags : Flags) (c : Byte) (va : List Arg) : Option (Nat × Bool × List Arg) :=
  if c = chr 'i' || c = chr 'd' then
    if flags.longLong then do
      let (v, va) ← vaLongLong va
      return (v.toInt.natAbs, v.toInt < 0, va)
    else if flags.long then do
      let (v, va) ← vaInt va
      return (v.toInt.natAbs, v.toInt < 0, va)
    else do
      let (v, va) ← vaInt va
      let value :=
        if flags.char then ((v.toNat % 2 ^ 8 : Nat) : Int)
        else if flags.short then (v.setWidth 16).toInt
        else v.toInt
      return (value.natAbs, value < 0, va)
  else
    if flags.longLong then do
      let (v, va) ← vaLongLong va
      return (v.toNat, false, va)
    else if flags.long then do
      let (v, va) ← vaInt va
      return (v.toNat, false, va)
    else do
      let (v, va) ← vaInt va
      let value :=
        if flags.char then v.toNat % 2 ^ 8 else if flags.short then v.toNat % 2 ^ 16 else v.toNat
      return (value, false, va)

section Sink

variable {σ : Type} (out : Byte → σ → Nat → Nat → σ) (maxlen : Nat) (fp : Floats)

/-- The case of the integers. -/
def putInteger (o : Out σ) (s : Spec) (va : List Arg) : Option (Out σ × List Arg) := do
  let flags := integerFlags s.flags s.specifier
  let base := baseOf s.specifier
  let (value, negative, va) ← integerValue flags s.specifier va
  if flags.longLong then
    return (ntoaLongLong out maxlen o value negative base s.precision s.width flags, va)
  else return (ntoaLong out maxlen o value negative base s.precision s.width flags, va)

/-- `switch (*format)` at the specifier. -/
def convert (o : Out σ) (s : Spec) (va : List Arg) : Option (Out σ × List Arg) :=
  if isInteger s.specifier then putInteger out maxlen o s va
  else if s.specifier = chr 'f' || s.specifier = chr 'F' then do
    let flags :=
      if s.specifier = chr 'F' then { s.flags with uppercase := true } else s.flags
    let (v, va) ← vaDouble va
    return (putAll out maxlen o (fp.ftoa v s.precision s.width flags), va)
  else if s.specifier = chr 'e' || s.specifier = chr 'E' || s.specifier = chr 'g' ||
      s.specifier = chr 'G' then do
    let flags :=
      if s.specifier = chr 'g' || s.specifier = chr 'G' then { s.flags with adaptExp := true }
      else s.flags
    let flags :=
      if s.specifier = chr 'E' || s.specifier = chr 'G' then { flags with uppercase := true }
      else flags
    let (v, va) ← vaDouble va
    return (putAll out maxlen o (fp.etoa v s.precision s.width flags), va)
  else if s.specifier = chr 'c' then do
    let (v, va) ← vaInt va
    let o := if !s.flags.left then padTo out maxlen o 1 s.width else o
    let o := put out maxlen o (v.setWidth 8)
    return (if s.flags.left then padTo out maxlen o 1 s.width else o, va)
  else if s.specifier = chr 's' then do
    let ((_, p), va) ← vaPtr va
    let l ← strnlenS p (if s.precision ≠ 0 then s.precision else 2 ^ 32 - 1)
    let o ← putField out maxlen o s.flags s.width s.precision l p
    return (o, va)
  else if s.specifier = chr 'p' then do
    let ((a, _), va) ← vaPtr va
    let flags := { s.flags with zeropad := true, uppercase := true }
    return (ntoaLong out maxlen o a.toNat false 16 s.precision 8 flags, va)
  else if s.specifier = chr 'M' then do
    let ((_, p), va) ← vaPtr va
    let store ← mac2str p
    let o ← putField out maxlen o s.flags s.width s.precision (store.length - 1) store
    return (o, va)
  else if s.specifier = chr 'v' then do
    let (ipv4, va) ← vaInt va
    let store := ip2str4 ipv4
    let o ← putField out maxlen o s.flags s.width s.precision (store.length - 1) store
    return (o, va)
  else if s.specifier = chr 'V' then do
    let ((_, p), va) ← vaPtr va
    let store ← ip2str6 p
    let o ← putField out maxlen o s.flags s.width s.precision (store.length - 1) store
    return (o, va)
  else some (put out maxlen o s.specifier, va)

/-- The loop of `_vsnprintf`; every turn takes a character of the format at least. -/
def formatLoop : Nat → List Byte → List Arg → Out σ → Option (Out σ)
  | 0, _, _, _ => none
  | _ + 1, [], _, _ => none
  | n + 1, c :: format, va, o =>
    if c = 0#8 then some o
    else if c ≠ chr '%' then formatLoop n format va (put out maxlen o c)
    else do
      let (s, format, va) ← parseSpec format va
      let (o, va) ← convert out maxlen fp o s va
      formatLoop n format va o

/-- `_vsnprintf`: the buffer behind the call and the result. -/
def vsnprintf (buffer : σ) (format : List Byte) (va : List Arg) : Option (σ × Int) := do
  let o ← formatLoop out maxlen fp (format.length + 1) format va ⟨buffer, 0⟩
  let last := if o.idx < maxlen then o.idx else (maxlen + 2 ^ 32 - 1) % 2 ^ 32
  return (out 0#8 o.buffer last maxlen, (BitVec.ofNat 32 o.idx).toInt)

end Sink

/-- `wm_vsnprintf` with the buffer at an address, 0 for `NULL`. -/
def wmVsnprintf (fp : Floats) (ram : Nat → Byte) (buffer count : Nat) (format : List Byte)
    (va : List Arg) : Option ((Nat → Byte) × Int) :=
  if buffer = 0 then vsnprintf outNull count fp ram format va
  else vsnprintf (outBuffer buffer) count fp ram format va

/-- `wm_printf`, which is `wm_vprintf` behind the `va_list`. -/
def wmPrintf (fp : Floats) (u : Uart) (format : List Byte) (va : List Arg) : Option (Uart × Int) :=
  vsnprintf outUart (2 ^ 32 - 1) fp u format va

end Libc
end Air101

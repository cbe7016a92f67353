import Kiznix.CString
import Kiznix.PrintfNumber

/-! The format strings of `ee_vsprintf`: its loop over the characters and the `switch` over the conversions.
`%f` is left out: its digits are floating-point arithmetic. -/

namespace Kiznix.Printf

open Console (Char8)

/-- `sizeof(buffer)` of `vprintf`, the one caller of `ee_vsprintf`. -/
def bufferSize : Nat := 80 * 25 + 1

/-- An argument, by the type that `va_arg` has to name for it. -/
inductive Arg (w : Nat) where
  | int (v : BitVec 32)
  | long (v : BitVec w)
  | pointer (v : BitVec w)
  deriving DecidableEq

def isDigit (c : Char8) : Bool := decide (48 ≤ c.toNat ∧ c.toNat ≤ 57)

/-- The loop of `ee_skip_atoi` from `i` on. -/
def skipAtoiLoop (i : BitVec 32) : List Char8 → BitVec 32 × List Char8
  | [] => (i, [])
  | c :: s => if isDigit c then skipAtoiLoop (i * 10 + c.signExtend 32 - 48) s else (i, c :: s)

def eeSkipAtoi (s : List Char8) : BitVec 32 × List Char8 := skipAtoiLoop 0 s

section Model

variable {w : Nat} (m : CString.Memory w)

def strnlen (s : BitVec w) : Nat → Nat
  | 0 => 0
  | count + 1 => if m s = 0 then 0 else strnlen (s + 1) count + 1

/-- The loop `*str++ = *s++`. -/
def copyChars (s : BitVec w) : Nat → List Char8
  | 0 => []
  | len + 1 => m s :: copyChars (s + 1) len

/-- `repeat`: each flag is one character. -/
def takeFlags (flags : Flags) : List Char8 → Flags × List Char8
  | [] => (flags, [])
  | c :: fmt =>
    if c = ch '-' then takeFlags { flags with left := true } fmt
    else if c = ch '+' then takeFlags { flags with plus := true } fmt
    else if c = ch ' ' then takeFlags { flags with space := true } fmt
    else if c = ch '#' then takeFlags { flags with hexPrep := true } fmt
    else if c = ch '0' then takeFlags { flags with zeropad := true } fmt
    else (flags, c :: fmt)

/-- `va_arg(args, int)`. -/
def vaInt : List (Arg w) → Option (BitVec 32 × List (Arg w))
  | .int v :: args => some (v, args)
  | _ => none

def vaPointer : List (Arg w) → Option (BitVec w × List (Arg w))
  | .pointer v :: args => some (v, args)
  | _ => none

/-- The field width, and the flags, which a negative width changes. `-field_width` overflows for `INT_MIN`. -/
def takeWidth (flags : Flags) (fmt : List Char8) (args : List (Arg w)) :
    Option (Int × Flags × List Char8 × List (Arg w)) :=
  match fmt with
  | [] => some (-1, flags, [], args)
  | c :: rest =>
    if isDigit c then
      let (width, rest) := eeSkipAtoi fmt
      some (width.toInt, flags, rest, args)
    else if c = ch '*' then do
      let (width, args) ← vaInt args
      if width = BitVec.intMin 32 then none
      else if width.toInt < 0 then some ((-width).toInt, { flags with left := true }, rest, args)
      else some (width.toInt, flags, rest, args)
    else some (-1, flags, fmt, args)

def takePrecision (fmt : List Char8) (args : List (Arg w)) : Option (Int × List Char8 × List (Arg w)) :=
  match fmt with
  | [] => some (-1, [], args)
  | dot :: fmt =>
    if dot = ch '.' then
      match fmt with
      | [] => some (0, [], args)
      | c :: rest =>
        if isDigit c then
          let (precision, rest) := eeSkipAtoi fmt
          some (max precision.toInt 0, rest, args)
        else if c = ch '*' then do
          let (precision, args) ← vaInt args
          some (max precision.toInt 0, rest, args)
        else some (0, fmt, args)
    else some (-1, dot :: fmt, args)

/-- Whether the qualifier is `l`; `L` is read and does nothing. -/
def takeQualifier : List Char8 → Bool × List Char8
  | [] => (false, [])
  | c :: fmt => if c = ch 'l' then (true, fmt) else if c = ch 'L' then (false, fmt) else (false, c :: fmt)

/-- The argument of an integer conversion as `unsigned long`. -/
def vaNumber (long sign : Bool) : List (Arg w) → Option (BitVec w × List (Arg w))
  | .long v :: args => if long then some (v, args) else none
  | .int v :: args => if long then none else some (if sign then v.signExtend w else v.setWidth w, args)
  | _ => none

/-- The `switch` over the conversion, except for `f`. -/
def convert (fmt : Char8) (flags : Flags) (fieldWidth precision : Int) (long : Bool) (args : List (Arg w)) :
    Option (List Char8 × List (Arg w)) :=
  if fmt = ch 'c' then do
    let (c, args) ← vaInt args
    some (charField (c.setWidth 8) fieldWidth flags, args)
  else if fmt = ch 's' then do
    let (s, args) ← vaPointer args
    let count := (BitVec.ofInt w precision).toNat
    let text := if s = 0 then ("<NULL>".toList.map ch).take count else copyChars m s (strnlen m s count)
    some (stringField text fieldWidth flags, args)
  else if fmt = ch 'p' then do
    let (p, args) ← vaPointer args
    let (fieldWidth, flags) :=
      if fieldWidth = -1 then (((2 * (w / 8) : Nat) : Int), { flags with zeropad := true }) else (fieldWidth, flags)
    let text ← eeNumber p 16 fieldWidth precision flags
    some (text, args)
  else if fmt = ch 'A' ∨ fmt = ch 'a' then do
    let flags := if fmt = ch 'A' then { flags with uppercase := true } else flags
    let (addr, args) ← vaPointer args
    if long then some (eaddr (copyChars m addr 6) fieldWidth flags, args)
    else some (iaddr (copyChars m addr 4) fieldWidth flags, args)
  else if fmt = ch 'o' ∨ fmt = ch 'X' ∨ fmt = ch 'x' ∨ fmt = ch 'd' ∨ fmt = ch 'i' ∨ fmt = ch 'u' then do
    let base := if fmt = ch 'o' then 8 else if fmt = ch 'X' ∨ fmt = ch 'x' then 16 else 10
    let flags := if fmt = ch 'X' then { flags with uppercase := true } else flags
    let flags := if fmt = ch 'd' ∨ fmt = ch 'i' then { flags with sign := true } else flags
    let (num, args) ← vaNumber long flags.sign args
    let text ← eeNumber num base fieldWidth precision flags
    some (text, args)
  else if fmt = ch 'f' then none
  else some (if fmt = ch '%' then [ch '%'] else [ch '%', fmt], args)

/-- The loop of `ee_vsprintf` over what is left of the format. -/
def vsprintfLoop : Nat → List Char8 → List (Arg w) → Option (List Char8)
  | 0, _, _ => none
  | _ + 1, [], _ => some []
  | fuel + 1, c :: fmt, args =>
    if c ≠ ch '%' then do
      let text ← vsprintfLoop fuel fmt args
      some (c :: text)
    else do
      let (flags, fmt) := takeFlags Flags.none fmt
      let (fieldWidth, flags, fmt, args) ← takeWidth flags fmt args
      let (precision, fmt, args) ← takePrecision fmt args
      let (long, fmt) := takeQualifier fmt
      match fmt with
      | [] => do
        let text ← vsprintfLoop fuel [] args
        some (ch '%' :: text)
      | conversion :: fmt => do
        let (field, args) ← convert m conversion flags fieldWidth precision long args
        let text ← vsprintfLoop fuel fmt args
        some (field ++ text)

/-- `ee_vsprintf` of the format up to its zero: the bytes of `buf` up to its own zero, or `none` where an
argument does not have its type or `buf` is too small. The field widths are counted in `Int`; by
`eeNumber_fits` no `int` overflows on the way to a text that fits. -/
def eeVsprintf (fmt : List Char8) (args : List (Arg w)) : Option (List Char8) := do
  let fmt := fmt.takeWhile (· ≠ 0)
  let text ← vsprintfLoop m (fmt.length + 1) fmt args
  if text.length < bufferSize then some text else none

end Model

end Kiznix.Printf

import Kiznix.Console
import Mathlib.Data.Nat.Digits.Lemmas

/-! The conversions of `printf.c`: the text that each of them appends to the output. -/

namespace Kiznix.Printf

open Console (Char8)

/-- A character constant. -/
def ch (c : Char) : Char8 := BitVec.ofNat 8 c.toNat

/-- `ZEROPAD`, `SIGN`, `PLUS`, `SPACE`, `LEFT`, `HEX_PREP` and `UPPERCASE`. -/
structure Flags where
  zeropad : Bool
  sign : Bool
  plus : Bool
  space : Bool
  left : Bool
  hexPrep : Bool
  uppercase : Bool
  deriving DecidableEq, Repr

def Flags.none : Flags := ⟨false, false, false, false, false, false, false⟩

def lowerDigits (d : Nat) : Char8 := if d < 10 then BitVec.ofNat 8 (48 + d) else BitVec.ofNat 8 (87 + d)

def upperDigits (d : Nat) : Char8 := if d < 10 then BitVec.ofNat 8 (48 + d) else BitVec.ofNat 8 (55 + d)

/-- `while (size-- > 0) *str++ = c;`: what is written, and `size` after it. -/
def pad (c : Char8) (size : Int) : List Char8 × Int := (List.replicate size.toNat c, min size 0 - 1)

/-- `while (len < size--) *str++ = ' ';`. -/
def padTo (len : Nat) (size : Int) : List Char8 × Int :=
  (List.replicate (size - len).toNat (ch ' '), min size len - 1)

/-- The loop that fills `tmp`; the lowest digit comes first. -/
def digitLoop (dig : Nat → Char8) (base : Nat) : Nat → Nat → List Char8
  | 0, _ => []
  | fuel + 1, num => if num = 0 then [] else dig (num % base) :: digitLoop dig base fuel (num / base)

/-- `sign`, and the magnitude and the field size that are left. -/
def takeSign {w : Nat} (num : BitVec w) (size : Int) (type : Flags) : Option Char8 × BitVec w × Int :=
  if type.sign then
    if num.msb then (some (ch '-'), -num, size - 1)
    else if type.plus then (some (ch '+'), num, size - 1)
    else if type.space then (some (ch ' '), num, size - 1)
    else (none, num, size)
  else (none, num, size)

/-- `ee_number` of a `long` with `w` bits: the text, or `NULL`. -/
def eeNumber {w : Nat} (num : BitVec w) (base : Nat) (size precision : Int) (type : Flags) : Option (List Char8) :=
  let dig := if type.uppercase then upperDigits else lowerDigits
  let zeropad := type.zeropad && !type.left
  if base < 2 ∨ base > 36 then none
  else
    let c := if zeropad then ch '0' else ch ' '
    let (sign, num, size) := takeSign num size type
    let size :=
      if type.hexPrep then
        if base = 16 then size - 2 else if base = 8 then size - 1 else size
      else size
    let tmp := if num = 0 then [ch '0'] else digitLoop dig base w num.toNat
    let precision := if tmp.length > precision then (tmp.length : Int) else precision
    let size := size - precision
    let (spaces, size) := if !(zeropad || type.left) then pad (ch ' ') size else ([], size)
    let hex :=
      if type.hexPrep then
        if base = 8 then [ch '0'] else if base = 16 then [ch '0', lowerDigits 33] else []
      else []
    let (fill, size) := if !type.left then pad c size else ([], size)
    let zeros := List.replicate (precision - tmp.length).toNat (ch '0')
    some (spaces ++ sign.toList ++ hex ++ fill ++ zeros ++ tmp.reverse ++ (pad (ch ' ') size).1)

/-- The bytes of `addr`, with a colon between them. -/
def eaddrText (dig : Nat → Char8) : List Char8 → List Char8
  | [] => []
  | [a] => [dig (a >>> 4).toNat, dig (a &&& 0x0F).toNat]
  | a :: rest => dig (a >>> 4).toNat :: dig (a &&& 0x0F).toNat :: ch ':' :: eaddrText dig rest

/-- `eaddr` of the six bytes at `addr`. -/
def eaddr (addr : List Char8) (size : Int) (type : Flags) : List Char8 :=
  let tmp := eaddrText (if type.uppercase then upperDigits else lowerDigits) addr
  let (spaces, size) := if !type.left then padTo tmp.length size else ([], size)
  spaces ++ tmp ++ (padTo tmp.length size).1

/-- A number below 256 in decimal. -/
def iaddrByte (n : Nat) : List Char8 :=
  if n = 0 then [lowerDigits 0]
  else if n ≥ 100 then [lowerDigits (n / 100), lowerDigits (n % 100 / 10), lowerDigits (n % 100 % 10)]
  else if n ≥ 10 then [lowerDigits (n / 10), lowerDigits (n % 10)]
  else [lowerDigits n]

def iaddrText : List Char8 → List Char8
  | [] => []
  | [a] => iaddrByte a.toNat
  | a :: rest => iaddrByte a.toNat ++ ch '.' :: iaddrText rest

/-- `iaddr` of the four bytes at `addr`. -/
def iaddr (addr : List Char8) (size : Int) (type : Flags) : List Char8 :=
  let tmp := iaddrText addr
  let (spaces, size) := if !type.left then padTo tmp.length size else ([], size)
  spaces ++ tmp ++ (padTo tmp.length size).1

/-- `%c`; `while (--field_width > 0)` writes one character less than the field has. -/
def charField (c : Char8) (fieldWidth : Int) (flags : Flags) : List Char8 :=
  let (spaces, fieldWidth) := if !flags.left then pad (ch ' ') (fieldWidth - 1) else ([], fieldWidth)
  spaces ++ c :: (pad (ch ' ') (fieldWidth - 1)).1

/-- `%s` of the `len` characters of `s`. -/
def stringField (s : List Char8) (fieldWidth : Int) (flags : Flags) : List Char8 :=
  let (spaces, fieldWidth) := if !flags.left then padTo s.length fieldWidth else ([], fieldWidth)
  spaces ++ s ++ (padTo s.length fieldWidth).1

end Kiznix.Printf

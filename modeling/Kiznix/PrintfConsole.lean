import Kiznix.PrintfDirective

/-! `vprintf`, `puts` and `putchar` on the console. -/

namespace Kiznix.Printf

open Console (Char8)

/-- The field width and the precision of a number are no longer than its text, so the `int`s of `ee_number` stay
far from their ends where the text fits into the buffer. -/
theorem eeNumber_fits {w base : Nat} {num : BitVec w} {size precision : Int} {type : Flags} {text : List Char8}
    (h : eeNumber num base size precision type = some text) (hfits : text.length < bufferSize) :
    size ≤ 2000 ∧ precision ≤ 2000 := by
  have hbase : 2 ≤ base ∧ base ≤ 36 := by
    by_contra hbad
    rw [eeNumber, if_pos (by omega)] at h
    cases h
  rw [eeNumber_eq hbase] at h
  obtain rfl := Option.some.inj h
  have hlen := length_justify type size (signText num type ++ prefixText base type)
    (withPrecision precision (digitsOf (digitsFor type) base (magnitude num type)))
  rw [length_withPrecision] at hlen
  have hsize : bufferSize = 2001 := rfl
  omega

section Stdio

variable {w : Nat} (m : CString.Memory w)

/-- `vprintf`, with what it returns. -/
def vprintf (format : List Char8) (args : List (Arg w)) (s : Console.State) : Option (Nat × Console.State) := do
  let buffer ← eeVsprintf m format args
  some (buffer.length, (Console.consoleWritestring buffer s).2)

def puts (string : List Char8) (s : Console.State) : Nat × Console.State :=
  let (_, s) := Console.consoleWritestring string s
  (1, Console.consolePutchar (ch '\n') s)

def putchar (c : BitVec 32) (s : Console.State) : Nat × Console.State :=
  ((c.setWidth 8).toNat, Console.consolePutchar (c.setWidth 8) s)

/-- A call of the program; its format is given by its pieces. -/
inductive Call (w : Nat) where
  | printf (pieces : List Piece) (args : List (Arg w))
  | puts (string : List Char8)
  | putchar (c : BitVec 32)

namespace Call

def run : Call w → Console.State → Option (Nat × Console.State)
  | printf pieces args, s => vprintf m (pieces.flatMap Piece.print) args s
  | puts string, s => some (Printf.puts string s)
  | putchar c, s => some (Printf.putchar c s)

/-- What the call returns and the characters that it shows. -/
def text : Call w → Option (Nat × List Char8)
  | printf pieces args =>
    (formatText m pieces args).bind fun text =>
      if text.length < bufferSize then some (text.length, text.takeWhile (· ≠ 0)) else none
  | puts string => some (1, string.takeWhile (· ≠ 0) ++ [Console.newline])
  | putchar c => some ((c.setWidth 8).toNat, [c.setWidth 8])

def transcript : List (Call w) → Option (List Nat × List Char8)
  | [] => some ([], [])
  | call :: calls => do
    let (result, text) ← call.text m
    let (results, rest) ← transcript calls
    some (result :: results, text ++ rest)

end Call

open Console (Shows addChar)

end Stdio

end Kiznix.Printf

import Kiznix.PrintfFormat

/-! What a format means: a list of characters and conversions, each with the field that it fills. -/

namespace Kiznix.Printf

open Console (Char8)

inductive Flag where
  | minus | plus | space | hash | zero
  deriving DecidableEq

namespace Flag

def char : Flag → Char8
  | minus => ch '-'
  | plus => ch '+'
  | space => ch ' '
  | hash => ch '#'
  | zero => ch '0'

def set (flags : Flags) : Flag → Flags
  | minus => { flags with left := true }
  | plus => { flags with plus := true }
  | space => { flags with space := true }
  | hash => { flags with hexPrep := true }
  | zero => { flags with zeropad := true }

end Flag

/-- A number of a format, in decimal without leading zeros. -/
def decimal (n : Nat) : List Char8 := digitsOf lowerDigits 10 n

/-- A number leaves room for the character that `ee_skip_atoi` adds before it takes `'0'` away. -/
inductive Width where
  | default
  | number (n : Nat) (pos : 0 < n) (lt : n + 48 < 2 ^ 31)
  | star

inductive Precision where
  | default
  | dot
  | number (n : Nat) (lt : n + 48 < 2 ^ 31)
  | star

inductive Qualifier where
  | none | l | L
  deriving DecidableEq

/-- The characters that do not end a directive. -/
def reserved : List Char8 := "-+ #0123456789*.lL".toList.map ch

/-- The characters with a meaning of their own. -/
def conversions : List Char8 := "cspAaoXxdiuf".toList.map ch

inductive Conversion where
  | character | string | pointer | octal | signed | integer | unsigned
  | address (upper : Bool)
  | hex (upper : Bool)
  | other (c : Char8) (ne_zero : c ≠ 0) (plain : c ∉ reserved ++ conversions)

/-- A directive of a format string, other than `%f`. -/
structure Directive where
  flags : List Flag
  width : Width
  precision : Precision
  qualifier : Qualifier
  conversion : Conversion

inductive Piece where
  | char (c : Char8) (ne_zero : c ≠ 0) (ne : c ≠ ch '%')
  | directive (d : Directive)

/-! ### The text of a format -/

def Width.print : Width → List Char8
  | default => []
  | number n _ _ => decimal n
  | star => [ch '*']

def Precision.print : Precision → List Char8
  | default => []
  | dot => [ch '.']
  | number n _ => ch '.' :: decimal n
  | star => [ch '.', ch '*']

def Qualifier.print : Qualifier → List Char8
  | none => []
  | l => [ch 'l']
  | L => [ch 'L']

def Conversion.print : Conversion → Char8
  | character => ch 'c'
  | string => ch 's'
  | pointer => ch 'p'
  | octal => ch 'o'
  | signed => ch 'd'
  | integer => ch 'i'
  | unsigned => ch 'u'
  | address upper => if upper then ch 'A' else ch 'a'
  | hex upper => if upper then ch 'X' else ch 'x'
  | other c _ _ => c

def Directive.print (d : Directive) : List Char8 :=
  ch '%' :: (d.flags.map Flag.char ++ (d.width.print ++ (d.precision.print ++ (d.qualifier.print ++ [d.conversion.print]))))

def Piece.print : Piece → List Char8
  | char c _ _ => [c]
  | directive d => d.print

theorem decimal_ne_zero (n : Nat) : ∀ c ∈ decimal n, c ≠ 0 := by
  obtain ⟨ds, hds, hdigits, -⟩ := digitsOf_eq_map Flags.none (show 2 ≤ 10 by decide) n
  intro c hc
  rw [decimal, show lowerDigits = digitsFor Flags.none from rfl, hdigits] at hc
  obtain ⟨d, hd, rfl⟩ := List.mem_map.mp hc
  have hlt := hds d (List.mem_reverse.mp hd)
  interval_cases d <;> decide

theorem Conversion.print_ne_zero (conversion : Conversion) : conversion.print ≠ 0 := by
  cases conversion with
  | address upper => cases upper <;> decide
  | hex upper => cases upper <;> decide
  | other c ne_zero plain => exact ne_zero
  | _ => decide

theorem Directive.print_ne_zero (d : Directive) : ∀ c ∈ d.print, c ≠ 0 := by
  have hflags : ∀ f : Flag, f.char ≠ 0 := by
    intro f
    cases f <;> decide
  have hwidth : ∀ c ∈ d.width.print, c ≠ 0 := by
    cases d.width with
    | default => simp [Width.print]
    | number n pos lt => exact decimal_ne_zero n
    | star => simp [Width.print, ch]
  have hprecision : ∀ c ∈ d.precision.print, c ≠ 0 := by
    cases d.precision with
    | default => simp [Precision.print]
    | dot => simp [Precision.print, ch]
    | number n lt =>
      intro c hc
      rcases List.mem_cons.mp hc with rfl | hc
      · decide
      · exact decimal_ne_zero n c hc
    | star => simp [Precision.print, ch]
  have hqualifier : ∀ c ∈ d.qualifier.print, c ≠ 0 := by
    cases d.qualifier <;> simp [Qualifier.print, ch]
  intro c hc
  simp only [Directive.print, List.mem_cons, List.mem_append, List.mem_map, List.not_mem_nil, or_false] at hc
  rcases hc with rfl | ⟨f, -, rfl⟩ | hc | hc | hc | rfl
  · decide
  · exact hflags f
  · exact hwidth c hc
  · exact hprecision c hc
  · exact hqualifier c hc
  · exact d.conversion.print_ne_zero

/-- No character of a format ends it early. -/
theorem Piece.print_ne_zero (piece : Piece) : ∀ c ∈ piece.print, c ≠ 0 := by
  cases piece with
  | char c ne_zero ne => simpa [Piece.print] using ne_zero
  | directive d => exact d.print_ne_zero

/-! ### The text that it stands for -/

section Meaning

variable {w : Nat} (m : CString.Memory w)

/-- The first characters of a string, at most `count` of them. -/
def stringAt (s : BitVec w) (count : Nat) : List Char8 :=
  ((List.range count).map fun i => m (CString.offset s i)).takeWhile (· ≠ 0)

/-- The six or four bytes at an address. -/
def bytesAt (addr : BitVec w) (n : Nat) : List Char8 := (List.range n).map fun i => m (CString.offset addr i)

/-- A field that only spaces fill. -/
def spaced (flags : Flags) (width : Int) (body : List Char8) : List Char8 :=
  justify { flags with zeropad := false } width [] body

/-- A number in its field. -/
def numberText (flags : Flags) (base : Nat) (width precision : Int) (num : BitVec w) : List Char8 :=
  justify flags width (signText num flags ++ prefixText base flags)
    (withPrecision precision (digitsOf (digitsFor flags) base (magnitude num flags)))

def Width.field : Width → Flags → List (Arg w) → Option (Int × Flags × List (Arg w))
  | default, flags, args => some (-1, flags, args)
  | number n _ _, flags, args => some (n, flags, args)
  | star, flags, .int v :: args =>
    if v = BitVec.intMin 32 then none
    else some (v.abs.toInt, { flags with left := flags.left || v.msb }, args)
  | star, _, _ => none

def Precision.field : Precision → List (Arg w) → Option (Int × List (Arg w))
  | default, args => some (-1, args)
  | dot, args => some (0, args)
  | number n _, args => some (n, args)
  | star, .int v :: args => some (max v.toInt 0, args)
  | star, _ => none

/-- The text of a conversion in its field, and the arguments behind it. -/
def Conversion.text (flags : Flags) (width precision : Int) (long : Bool) :
    Conversion → List (Arg w) → Option (List Char8 × List (Arg w))
  | character, .int v :: args => some (spaced flags width [v.setWidth 8], args)
  | string, .pointer s :: args =>
    let count := (BitVec.ofInt w precision).toNat
    some (spaced flags width (if s = 0 then ("<NULL>".toList.map ch).take count else stringAt m s count), args)
  | pointer, .pointer p :: args =>
    if width = -1 then some (numberText { flags with zeropad := true } 16 (2 * (w / 8) : Nat) precision p, args)
    else some (numberText flags 16 width precision p, args)
  | address upper, .pointer addr :: args =>
    let dig := digitsFor { flags with uppercase := upper }
    let text :=
      if long then List.intercalate [ch ':'] ((bytesAt m addr 6).map fun a => [dig (a.toNat / 16), dig (a.toNat % 16)])
      else List.intercalate [ch '.'] ((bytesAt m addr 4).map fun a => decimal a.toNat)
    some (spaced flags width text, args)
  | octal, args => (vaNumber long false args).map fun r => (numberText flags 8 width precision r.1, r.2)
  | hex upper, args =>
    (vaNumber long false args).map fun r => (numberText { flags with uppercase := upper } 16 width precision r.1, r.2)
  | signed, args =>
    (vaNumber long true args).map fun r => (numberText { flags with sign := true } 10 width precision r.1, r.2)
  | integer, args =>
    (vaNumber long true args).map fun r => (numberText { flags with sign := true } 10 width precision r.1, r.2)
  | unsigned, args => (vaNumber long false args).map fun r => (numberText flags 10 width precision r.1, r.2)
  | other c _ _, args => some (if c = ch '%' then [ch '%'] else [ch '%', c], args)
  | _, _ => none

def Directive.text (d : Directive) (args : List (Arg w)) : Option (List Char8 × List (Arg w)) := do
  let (width, flags, args) ← d.width.field (d.flags.foldl Flag.set Flags.none) args
  let (precision, args) ← d.precision.field args
  d.conversion.text m flags width precision (d.qualifier = .l) args

/-- The text of the pieces one after the other. -/
def formatText : List Piece → List (Arg w) → Option (List Char8)
  | [], _ => some []
  | .char c _ _ :: pieces, args => (formatText pieces args).map (c :: ·)
  | .directive d :: pieces, args => do
    let (field, args) ← d.text m args
    let text ← formatText pieces args
    some (field ++ text)

end Meaning

/-! ### The fields -/

theorem charField_eq (c : Char8) (width : Int) (flags : Flags) : charField c width flags = spaced flags width [c] := by
  have hpad : (width - ((([] : List Char8).length : Nat) : Int) - (([c].length : Nat) : Int)).toNat =
      (width - 1).toNat := by
    simp
  unfold charField spaced justify
  rw [hpad]
  cases flags.left with
  | false =>
    have hrest : (min (width - 1) 0 - 1 - 1).toNat = 0 := by omega
    simp [pad, hrest]
  | true => simp [pad]

theorem padTo_text (s : List Char8) (width : Int) (flags : Flags) :
    (if !flags.left then padTo s.length width else ([], width)).1 ++ s
      ++ (padTo s.length (if !flags.left then padTo s.length width else ([], width)).2).1 = spaced flags width s := by
  unfold spaced justify
  cases flags.left with
  | false =>
    have hrest : (min width s.length - 1 - s.length).toNat = 0 := by omega
    simp [padTo, hrest]
  | true => simp [padTo]

theorem stringField_eq (s : List Char8) (width : Int) (flags : Flags) :
    stringField s width flags = spaced flags width s :=
  padTo_text s width flags

theorem eaddrText_eq (dig : Nat → Char8) (addr : List Char8) :
    eaddrText dig addr = List.intercalate [ch ':'] (addr.map fun a => [dig (a.toNat / 16), dig (a.toNat % 16)]) := by
  have hhigh : ∀ a : Char8, (a >>> 4).toNat = a.toNat / 16 := fun a => by
    rw [BitVec.toNat_ushiftRight, Nat.shiftRight_eq_div_pow]
  have hlow : ∀ a : Char8, (a &&& 0x0F).toNat = a.toNat % 16 := fun a => by
    rw [BitVec.toNat_and, show (0x0F : Char8).toNat = 2 ^ 4 - 1 from rfl, Nat.and_two_pow_sub_one_eq_mod]
  induction addr with
  | nil => rfl
  | cons a rest ih =>
    cases rest with
    | nil =>
      rw [eaddrText, hhigh, hlow]
      rfl
    | cons b tail =>
      rw [eaddrText, ih, hhigh, hlow]
      · rfl
      · exact List.cons_ne_nil b tail

theorem iaddrByte_eq {n : Nat} (hn : n < 256) : iaddrByte n = decimal n := by
  unfold iaddrByte decimal digitsOf
  by_cases hzero : n = 0
  · rw [if_pos hzero, if_pos hzero]
  · rw [if_neg hzero, if_neg hzero]
    by_cases hhundred : n ≥ 100
    · rw [if_pos hhundred, Nat.digits_def' (by decide) (by omega), Nat.digits_def' (by decide) (by omega),
        Nat.digits_of_lt 10 _ (by omega) (by omega), show n / 10 / 10 = n / 100 by omega,
        show n / 10 % 10 = n % 100 / 10 by omega, show n % 10 = n % 100 % 10 by omega]
      rfl
    · rw [if_neg hhundred]
      by_cases hten : n ≥ 10
      · rw [if_pos hten, Nat.digits_def' (by decide) (by omega), Nat.digits_of_lt 10 _ (by omega) (by omega)]
        rfl
      · rw [if_neg hten, Nat.digits_of_lt 10 _ (by omega) (by omega)]
        rfl

theorem iaddrText_eq (addr : List Char8) :
    iaddrText addr = List.intercalate [ch '.'] (addr.map fun a => decimal a.toNat) := by
  induction addr with
  | nil => rfl
  | cons a rest ih =>
    cases rest with
    | nil =>
      rw [iaddrText, iaddrByte_eq a.isLt]
      simp [List.intercalate]
    | cons b tail =>
      rw [iaddrText, ih, iaddrByte_eq a.isLt]
      · simp [List.intercalate]
      · exact List.cons_ne_nil b tail

/-! ### The parser -/

/-- What may follow a number of the format. -/
def NoDigit (rest : List Char8) : Prop := ∀ c ∈ rest.head?, isDigit c = false

theorem isDigit_lowerDigits {d : Nat} (hd : d < 10) : isDigit (lowerDigits d) = true := by
  interval_cases d <;> rfl

theorem skipAtoiLoop_noDigit (i : BitVec 32) {rest : List Char8} (h : NoDigit rest) :
    skipAtoiLoop i rest = (i, rest) := by
  cases rest with
  | nil => rfl
  | cons c s => rw [skipAtoiLoop, h c (by simp), if_neg (by decide)]

theorem skipAtoiLoop_digits (acc : Nat) (ds : List Nat) (rest : List Char8) (hds : ∀ d ∈ ds, d < 10) :
    skipAtoiLoop (BitVec.ofNat 32 acc) (ds.map lowerDigits ++ rest)
      = skipAtoiLoop (BitVec.ofNat 32 (ds.foldl (fun n d => n * 10 + d) acc)) rest := by
  induction ds generalizing acc with
  | nil => rfl
  | cons d ds ih =>
    have hd : d < 10 := hds d List.mem_cons_self
    have hdigit : (lowerDigits d).signExtend 32 - 48 = BitVec.ofNat 32 d := by interval_cases d <;> rfl
    have hstep : BitVec.ofNat 32 acc * 10 + (lowerDigits d).signExtend 32 - 48 = BitVec.ofNat 32 (acc * 10 + d) := by
      rw [BitVec.sub_eq_add_neg, BitVec.add_assoc, ← BitVec.sub_eq_add_neg, hdigit, BitVec.ofNat_add, BitVec.ofNat_mul]
      rfl
    rw [List.map_cons, List.cons_append, skipAtoiLoop, isDigit_lowerDigits hd, if_pos rfl, hstep,
      ih _ (fun e he => hds e (List.mem_cons_of_mem d he)), List.foldl_cons]

/-- `ee_skip_atoi` reads the number that stands there. -/
theorem eeSkipAtoi_decimal (n : Nat) {rest : List Char8} (h : NoDigit rest) :
    eeSkipAtoi (decimal n ++ rest) = (BitVec.ofNat 32 n, rest) := by
  obtain ⟨ds, hds, hdigits, hn⟩ := digitsOf_eq_map Flags.none (show 2 ≤ 10 by decide) n
  have hfold := skipAtoiLoop_digits 0 ds.reverse rest (fun d hd => hds d (List.mem_reverse.mp hd))
  rw [foldl_digits, hn, Nat.zero_mul, Nat.zero_add] at hfold
  rw [decimal, show lowerDigits = digitsFor Flags.none from rfl, hdigits, eeSkipAtoi]
  exact hfold.trans (skipAtoiLoop_noDigit _ h)

theorem decimal_cons (n : Nat) : ∃ d rest, decimal n = lowerDigits d :: rest ∧ d < 10 ∧ (0 < n → 0 < d) := by
  by_cases hzero : n = 0
  · exact ⟨0, [], by rw [decimal, digitsOf, if_pos hzero], by decide, fun hn => by omega⟩
  · have hne : Nat.digits 10 n ≠ [] := Nat.digits_ne_nil_iff_ne_zero.mpr hzero
    have hlast := Nat.getLast_digit_ne_zero 10 hzero
    have hlt := Nat.digits_lt_base (b := 10) (by decide) (List.getLast_mem hne)
    refine ⟨(Nat.digits 10 n).getLast hne, ((Nat.digits 10 n).dropLast.map lowerDigits).reverse, ?_, hlt,
      fun _ => by omega⟩
    rw [decimal, digitsOf, if_neg hzero]
    conv_lhs => rw [← List.dropLast_concat_getLast hne]
    rw [List.map_append, List.reverse_append]
    rfl

theorem toInt_ofNat {n : Nat} (hn : n < 2 ^ 31) : (BitVec.ofNat 32 n).toInt = n := by
  have hnat : (BitVec.ofNat 32 n).toNat = n := by
    rw [BitVec.toNat_ofNat, Nat.mod_eq_of_lt (by omega)]
  rw [BitVec.toInt_eq_toNat_of_lt (by rw [hnat]; omega), hnat]

/-- A character that ends the flags. -/
def NoFlag (rest : List Char8) : Prop := ∀ c ∈ rest.head?, c ∉ "-+ #0".toList.map ch

theorem takeFlags_noFlag (flags : Flags) {rest : List Char8} (h : NoFlag rest) :
    takeFlags flags rest = (flags, rest) := by
  cases rest with
  | nil => rfl
  | cons c fmt =>
    have hc : c ∉ "-+ #0".toList.map ch := h c (by simp)
    rw [show "-+ #0".toList.map ch = [ch '-', ch '+', ch ' ', ch '#', ch '0'] from rfl] at hc
    simp only [List.mem_cons, List.not_mem_nil, or_false, not_or] at hc
    obtain ⟨hminus, hplus, hspace, hhash, hzero⟩ := hc
    rw [takeFlags, if_neg hminus, if_neg hplus, if_neg hspace, if_neg hhash, if_neg hzero]

theorem takeFlags_print (flags : Flags) (fs : List Flag) {rest : List Char8} (h : NoFlag rest) :
    takeFlags flags (fs.map Flag.char ++ rest) = (fs.foldl Flag.set flags, rest) := by
  induction fs generalizing flags with
  | nil => exact takeFlags_noFlag flags h
  | cons f fs ih =>
    rw [List.map_cons, List.cons_append, List.foldl_cons, ← ih]
    cases f <;> rfl

section Parser

variable {w : Nat}

theorem takeWidth_print (flags : Flags) (width : Width) (args : List (Arg w)) {rest : List Char8}
    (hdigit : NoDigit rest) (hstar : ch '*' ∉ rest.head?) :
    takeWidth flags (width.print ++ rest) args
      = (width.field flags args).map fun r => (r.1, r.2.1, rest, r.2.2) := by
  cases width with
  | default =>
    cases rest with
    | nil => rfl
    | cons c fmt =>
      have hc : c ≠ ch '*' := fun h => hstar (by rw [h]; rfl)
      rw [Width.print, List.nil_append, takeWidth, hdigit c rfl]
      simp only [if_neg hc]
      rfl
  | number n pos lt =>
    obtain ⟨d, tail, hdecimal, hd, -⟩ := decimal_cons n
    have hskip := eeSkipAtoi_decimal n hdigit
    rw [hdecimal] at hskip
    rw [Width.print, hdecimal, List.cons_append, takeWidth, isDigit_lowerDigits hd, if_pos rfl, ← List.cons_append, hskip]
    show some ((BitVec.ofNat 32 n).toInt, flags, rest, args) = _
    rw [toInt_ofNat (by omega)]
    rfl
  | star =>
    rw [Width.print, List.singleton_append, takeWidth, show isDigit (ch '*') = false from rfl]
    cases args with
    | nil => rfl
    | cons arg args =>
      cases arg with
      | int v =>
        have hmsb := BitVec.msb_eq_toInt (x := v)
        show (if v = BitVec.intMin 32 then none
          else if v.toInt < 0 then some ((-v).toInt, { flags with left := true }, rest, args)
          else some (v.toInt, flags, rest, args)) = _
        by_cases hmin : v = BitVec.intMin 32
        · rw [if_pos hmin, Width.field, if_pos hmin]
          rfl
        rw [if_neg hmin, Width.field, if_neg hmin]
        by_cases hneg : v.toInt < 0
        · rw [if_pos hneg]
          simp [BitVec.abs, hmsb, hneg]
        · rw [if_neg hneg]
          simp [BitVec.abs, hmsb, hneg]
      | long v => rfl
      | pointer v => rfl

theorem takePrecision_print (precision : Precision) (args : List (Arg w)) {rest : List Char8}
    (hdigit : NoDigit rest) (hstar : ch '*' ∉ rest.head?) (hdot : ch '.' ∉ rest.head?) :
    takePrecision (precision.print ++ rest) args
      = (precision.field args).map fun r => (r.1, rest, r.2) := by
  cases precision with
  | default =>
    cases rest with
    | nil => rfl
    | cons c fmt =>
      have hc : c ≠ ch '.' := fun h => hdot (by rw [h]; rfl)
      rw [Precision.print, List.nil_append]
      simp only [takePrecision, if_neg hc]
      rfl
  | dot =>
    cases rest with
    | nil => rfl
    | cons c fmt =>
      have hc : c ≠ ch '*' := fun h => hstar (by rw [h]; rfl)
      rw [Precision.print, List.singleton_append]
      simp only [takePrecision, if_true, hdigit c rfl, if_neg hc]
      rfl
  | number n lt =>
    obtain ⟨d, tail, hdecimal, hd, -⟩ := decimal_cons n
    have hskip := eeSkipAtoi_decimal n hdigit
    rw [hdecimal] at hskip
    rw [Precision.print, List.cons_append, hdecimal, List.cons_append]
    simp only [takePrecision, if_true, isDigit_lowerDigits hd, if_true, ← List.cons_append, hskip]
    rw [toInt_ofNat (by omega), max_eq_left (by omega)]
    rfl
  | star =>
    cases args with
    | nil => rfl
    | cons arg args => cases arg <;> rfl

theorem takeQualifier_print (q : Qualifier) {c : Char8} (rest : List Char8) (hl : c ≠ ch 'l') (hL : c ≠ ch 'L') :
    takeQualifier (q.print ++ c :: rest) = (decide (q = .l), c :: rest) := by
  cases q with
  | none => rw [Qualifier.print, List.nil_append, takeQualifier, if_neg hl, if_neg hL]; rfl
  | l => rfl
  | L => rfl

end Parser

section Conversions

variable {w : Nat} (m : CString.Memory w)

theorem copyChars_eq (s : BitVec w) (n : Nat) : copyChars m s n = bytesAt m s n := by
  induction n generalizing s with
  | zero => rfl
  | succ n ih =>
    rw [copyChars, ih, bytesAt, bytesAt, List.range_succ_eq_map, List.map_cons, List.map_map, CString.offset_zero]
    refine congrArg (m s :: ·) (List.map_congr_left fun i _ => ?_)
    exact congrArg m (CString.offset_succ s i)

/-- What `%s` copies ends before the first zero. -/
theorem copyChars_strnlen (s : BitVec w) (count : Nat) : copyChars m s (strnlen m s count) = stringAt m s count := by
  induction count generalizing s with
  | zero => rfl
  | succ count ih =>
    have hsucc : (List.range (count + 1)).map (fun i => m (CString.offset s i))
        = m s :: (List.range count).map fun i => m (CString.offset (s + 1) i) := by
      rw [List.range_succ_eq_map, List.map_cons, List.map_map, CString.offset_zero]
      refine congrArg (m s :: ·) (List.map_congr_left fun i _ => ?_)
      exact congrArg m (CString.offset_succ s i).symm
    rw [strnlen, stringAt, hsucc]
    by_cases hzero : m s = 0
    · rw [if_pos hzero, copyChars, List.takeWhile_cons_of_neg (by simpa using hzero)]
    · rw [if_neg hzero, copyChars, List.takeWhile_cons_of_pos (by simpa using hzero), ih, stringAt]

theorem eaddr_eq (addr : List Char8) (width : Int) (flags : Flags) :
    eaddr addr width flags = spaced flags width (List.intercalate [ch ':']
      (addr.map fun a => [digitsFor flags (a.toNat / 16), digitsFor flags (a.toNat % 16)])) := by
  rw [← eaddrText_eq]
  exact padTo_text _ width flags

theorem iaddr_eq (addr : List Char8) (width : Int) (flags : Flags) :
    iaddr addr width flags = spaced flags width (List.intercalate [ch '.'] (addr.map fun a => decimal a.toNat)) := by
  rw [← iaddrText_eq]
  exact padTo_text _ width flags

theorem eeNumber_numberText {base : Nat} (hbase : 2 ≤ base ∧ base ≤ 36) (num : BitVec w) (width precision : Int)
    (flags : Flags) : eeNumber num base width precision flags = some (numberText flags base width precision num) :=
  eeNumber_eq hbase num width precision flags

/-- The integer conversions, by what the `switch` sets for them. -/
theorem number_eq {base : Nat} (hbase : 2 ≤ base ∧ base ≤ 36) (flags : Flags) (width precision : Int) (long : Bool)
    (args : List (Arg w)) :
    ((vaNumber long flags.sign args).bind fun r =>
      (eeNumber r.1 base width precision flags).bind fun text => some (text, r.2))
    = (vaNumber long flags.sign args).map fun r => (numberText flags base width precision r.1, r.2) := by
  cases vaNumber long flags.sign args with
  | none => rfl
  | some r => simp [eeNumber_numberText hbase]

/-- The `switch` writes the conversion into its field. -/
theorem convert_eq (conversion : Conversion) {flags : Flags} (hsign : flags.sign = false)
    (hupper : flags.uppercase = false) (width precision : Int) (long : Bool) (args : List (Arg w)) :
    convert m conversion.print flags width precision long args
      = conversion.text m flags width precision long args := by
  have hlower : { flags with uppercase := false } = flags := by rw [← hupper]
  cases conversion with
  | character =>
    rcases args with _ | ⟨_ | _ | _, args⟩
    case cons.int v => exact congrArg (fun text => some (text, args)) (charField_eq _ width flags)
    all_goals rfl
  | string =>
    rcases args with _ | ⟨_ | _ | _, args⟩
    case cons.pointer s =>
      show some (stringField (if s = 0 then _ else copyChars m s (strnlen m s _)) width flags, args) = _
      rw [stringField_eq, copyChars_strnlen]
      rfl
    all_goals rfl
  | pointer =>
    rcases args with _ | ⟨_ | _ | _, args⟩
    case cons.pointer p =>
      have hcase : ∀ (width' : Int) (flags' : Flags),
          (eeNumber p 16 width' precision flags').bind (fun text => some (text, args))
            = some (numberText flags' 16 width' precision p, args) := fun width' flags' => by
        rw [eeNumber_numberText (show 2 ≤ 16 ∧ 16 ≤ 36 by decide), Option.bind_some]
      by_cases hwidth : width = -1
      · subst hwidth
        exact hcase _ { flags with zeropad := true }
      · rw [Conversion.text, if_neg hwidth, ← hcase width flags]
        simp [convert, Conversion.print, vaPointer, hwidth, show ch 'p' ≠ ch 'c' by decide,
          show ch 'p' ≠ ch 's' by decide]
    all_goals rfl
  | octal => exact (number_eq (by decide) flags width precision long args).trans (by rw [hsign]; rfl)
  | signed => exact number_eq (by decide) { flags with sign := true } width precision long args
  | integer => exact number_eq (by decide) { flags with sign := true } width precision long args
  | unsigned => exact (number_eq (by decide) flags width precision long args).trans (by rw [hsign]; rfl)
  | address upper =>
    rcases args with _ | ⟨_ | _ | _, args⟩
    case cons.pointer addr =>
      have hconvert : convert m (Conversion.address upper).print flags width precision long (.pointer addr :: args)
          = if long then some (eaddr (copyChars m addr 6) width { flags with uppercase := upper }, args)
            else some (iaddr (copyChars m addr 4) width { flags with uppercase := upper }, args) := by
        cases upper with
        | false => rw [hlower]; rfl
        | true => rfl
      rw [hconvert, Conversion.text, eaddr_eq, iaddr_eq, copyChars_eq, copyChars_eq]
      cases long <;> rfl
    all_goals cases upper <;> rfl
  | hex upper =>
    have hconvert : convert m (Conversion.hex upper).print flags width precision long args
        = (vaNumber long flags.sign args).bind fun r =>
          (eeNumber r.1 16 width precision { flags with uppercase := upper }).bind fun text => some (text, r.2) := by
      cases upper with
      | false => rw [hlower]; rfl
      | true => rfl
    have hnumber := number_eq (by decide : 2 ≤ 16 ∧ 16 ≤ 36) { flags with uppercase := upper } width precision long args
    refine hconvert.trans (hnumber.trans ?_)
    show (vaNumber long flags.sign args).map _ = (vaNumber long false args).map _
    rw [hsign]
  | other c ne_zero plain =>
    rw [show reserved ++ conversions = "-+ #0123456789*.lLcspAaoXxdiuf".toList.map ch from rfl] at plain
    have hne : ∀ d ∈ "cspAaoXxdiuf".toList, c ≠ ch d := by
      intro d hd hc
      refine plain (hc ▸ List.mem_map_of_mem ?_)
      exact List.mem_append_right "-+ #0123456789*.lL".toList hd
    simp only [convert, Conversion.print, Conversion.text, if_neg (hne 'c' (by decide)), if_neg (hne 's' (by decide)),
      if_neg (hne 'p' (by decide)), hne 'A' (by decide), hne 'a' (by decide), hne 'o' (by decide), hne 'X' (by decide),
      hne 'x' (by decide), hne 'd' (by decide), hne 'i' (by decide), hne 'u' (by decide), hne 'f' (by decide),
      or_self, if_false]
    rfl

end Conversions

/-! ### The loop -/

/-- The text does not begin with one of the characters. -/
def HeadNot (chars : String) (text : List Char8) : Prop := ∀ c ∈ text.head?, c ∉ chars.toList.map ch

theorem mem_digits_of_isDigit {c : Char8} (h : isDigit c = true) : c ∈ "0123456789".toList.map ch := by
  have hrange : 48 ≤ c.toNat ∧ c.toNat ≤ 57 := of_decide_eq_true h
  obtain ⟨d, hd⟩ := Nat.exists_eq_add_of_le hrange.1
  have hc : c = BitVec.ofNat 8 (48 + d) := by rw [← hd, BitVec.ofNat_toNat, BitVec.setWidth_eq]
  have hlt : d < 10 := by omega
  rw [hc]
  interval_cases d <;> decide

theorem HeadNot.mono {chars chars' : String} {text : List Char8} (h : HeadNot chars' text)
    (hsub : chars.toList ⊆ chars'.toList) : HeadNot chars text :=
  fun c hc hmem => h c hc (List.map_subset ch hsub hmem)

theorem HeadNot.noDigit {text : List Char8} (h : HeadNot "0123456789" text) : NoDigit text := by
  intro c hc
  cases hdigit : isDigit c with
  | false => rfl
  | true => exact absurd (mem_digits_of_isDigit hdigit) (h c hc)

theorem HeadNot.not_mem {chars : String} {text : List Char8} (h : HeadNot chars text) {d : Char} (hd : d ∈ chars.toList) :
    ch d ∉ text.head? :=
  fun hmem => h _ hmem (List.mem_map_of_mem hd)

theorem Conversion.print_not_mem (conversion : Conversion) : conversion.print ∉ reserved := by
  cases conversion with
  | address upper => cases upper <;> decide
  | hex upper => cases upper <;> decide
  | other c ne_zero plain => exact fun h => plain (List.mem_append_left _ h)
  | _ => decide

section Heads

variable (d : Directive) (rest : List Char8)

theorem headNot_qualifier : HeadNot "-+ #0123456789*." (d.qualifier.print ++ d.conversion.print :: rest) := by
  intro c hc hmem
  cases hq : d.qualifier with
  | none =>
    rw [hq] at hc
    obtain rfl : d.conversion.print = c := Option.some.inj hc
    exact d.conversion.print_not_mem (List.map_subset ch (by decide) hmem)
  | l =>
    rw [hq] at hc
    obtain rfl : ch 'l' = c := Option.some.inj hc
    exact absurd hmem (by decide)
  | L =>
    rw [hq] at hc
    obtain rfl : ch 'L' = c := Option.some.inj hc
    exact absurd hmem (by decide)

theorem headNot_precision :
    HeadNot "-+ #0123456789*" (d.precision.print ++ (d.qualifier.print ++ d.conversion.print :: rest)) := by
  have hdot : ∀ text, HeadNot "-+ #0123456789*" (ch '.' :: text) := by
    intro text c hc hmem
    obtain rfl : ch '.' = c := Option.some.inj hc
    exact absurd hmem (by decide)
  cases d.precision with
  | default => exact (headNot_qualifier d rest).mono (by decide)
  | dot => exact hdot _
  | number n lt => exact hdot _
  | star => exact hdot _

theorem noFlag_width :
    NoFlag (d.width.print ++ (d.precision.print ++ (d.qualifier.print ++ d.conversion.print :: rest))) := by
  cases d.width with
  | default => exact (headNot_precision d rest).mono (by decide)
  | number n pos lt =>
    obtain ⟨e, tail, hdecimal, he, hpos⟩ := decimal_cons n
    intro c hc
    rw [Width.print, hdecimal] at hc
    obtain rfl : lowerDigits e = c := Option.some.inj hc
    have hne : 0 < e := hpos pos
    interval_cases e <;> decide
  | star =>
    intro c hc
    obtain rfl : ch '*' = c := Option.some.inj hc
    decide

end Heads

theorem foldl_set (fs : List Flag) (flags : Flags) :
    (fs.foldl Flag.set flags).sign = flags.sign ∧ (fs.foldl Flag.set flags).uppercase = flags.uppercase := by
  induction fs generalizing flags with
  | nil => exact ⟨rfl, rfl⟩
  | cons f fs ih =>
    obtain ⟨hsign, hupper⟩ := ih (Flag.set flags f)
    cases f <;> exact ⟨hsign, hupper⟩

section Loop

variable {w : Nat} (m : CString.Memory w)

theorem width_field_flags {width : Width} {flags flags' : Flags} {args args' : List (Arg w)} {n : Int}
    (h : width.field flags args = some (n, flags', args')) :
    flags'.sign = flags.sign ∧ flags'.uppercase = flags.uppercase := by
  cases width with
  | default => obtain ⟨-, rfl, -⟩ := Option.some.inj h; exact ⟨rfl, rfl⟩
  | number n pos lt => cases Option.some.inj h; exact ⟨rfl, rfl⟩
  | star =>
    rcases args with _ | ⟨_ | _ | _, args⟩
    case cons.int v =>
      rw [Width.field] at h
      split at h
      · cases h
      · cases Option.some.inj h
        exact ⟨rfl, rfl⟩
    all_goals cases h

/-- One turn of the loop for a directive. -/
theorem vsprintfLoop_directive (d : Directive) (fuel : Nat) (rest : List Char8) (args : List (Arg w)) :
    vsprintfLoop m (fuel + 1) (d.print ++ rest) args = (do
      let (field, args) ← d.text m args
      let text ← vsprintfLoop m fuel rest args
      some (field ++ text)) := by
  have hshape : d.print ++ rest = ch '%' :: (d.flags.map Flag.char
      ++ (d.width.print ++ (d.precision.print ++ (d.qualifier.print ++ d.conversion.print :: rest)))) := by
    simp [Directive.print]
  have hprecision := headNot_precision d rest
  have hqualifier := headNot_qualifier d rest
  have hl : d.conversion.print ≠ ch 'l' := fun h => d.conversion.print_not_mem (h ▸ by decide)
  have hL : d.conversion.print ≠ ch 'L' := fun h => d.conversion.print_not_mem (h ▸ by decide)
  rw [hshape]
  simp only [vsprintfLoop, ne_eq, not_true_eq_false, if_false, takeFlags_print _ _ (noFlag_width d rest),
    takeWidth_print _ _ _ (hprecision.mono (by decide)).noDigit (hprecision.not_mem (d := '*') (by decide)),
    Directive.text]
  cases hwidth : d.width.field (d.flags.foldl Flag.set Flags.none) args with
  | none => rfl
  | some r =>
    obtain ⟨width, flags, args'⟩ := r
    obtain ⟨hsign, hupper⟩ := width_field_flags hwidth
    rw [(foldl_set d.flags Flags.none).1] at hsign
    rw [(foldl_set d.flags Flags.none).2] at hupper
    simp only [Option.map_some, Option.bind_eq_bind, Option.bind_some,
      takePrecision_print _ _ (hqualifier.mono (by decide)).noDigit (hqualifier.not_mem (d := '*') (by decide))
        (hqualifier.not_mem (d := '.') (by decide))]
    cases d.precision.field args' with
    | none => rfl
    | some r =>
      obtain ⟨precision, args'⟩ := r
      simp only [Option.map_some, Option.bind_some, takeQualifier_print d.qualifier rest hl hL,
        convert_eq m d.conversion hsign hupper]

/-- The fuel that `ee_vsprintf` has is enough for every format. -/
theorem vsprintfLoop_pieces (pieces : List Piece) (args : List (Arg w)) {fuel : Nat}
    (hfuel : (pieces.flatMap Piece.print).length < fuel) :
    vsprintfLoop m fuel (pieces.flatMap Piece.print) args = formatText m pieces args := by
  induction pieces generalizing fuel args with
  | nil =>
    obtain ⟨fuel, rfl⟩ := Nat.exists_eq_succ_of_ne_zero (Nat.ne_of_gt (Nat.lt_of_le_of_lt (Nat.zero_le _) hfuel))
    rfl
  | cons piece pieces ih =>
    obtain ⟨fuel, rfl⟩ := Nat.exists_eq_succ_of_ne_zero (Nat.ne_of_gt (Nat.lt_of_le_of_lt (Nat.zero_le _) hfuel))
    rw [List.flatMap_cons, List.length_append] at hfuel
    cases piece with
    | char c ne_zero ne =>
      have hrest : (pieces.flatMap Piece.print).length < fuel := by
        rw [Piece.print, List.length_singleton] at hfuel
        omega
      simp only [List.flatMap_cons, Piece.print, List.singleton_append, Nat.succ_eq_add_one, vsprintfLoop, formatText,
        if_pos ne, ih args hrest]
      cases formatText m pieces args <;> rfl
    | directive d =>
      have hrest : (pieces.flatMap Piece.print).length < fuel := by
        rw [Piece.print, Directive.print, List.length_cons] at hfuel
        omega
      rw [List.flatMap_cons, Piece.print, vsprintfLoop_directive, formatText]
      cases d.text m args with
      | none => rfl
      | some r => simp only [Option.bind_eq_bind, Option.bind_some, ih _ hrest]

/-- `ee_vsprintf` of any list of characters and directives writes their texts one after the other,
each directive with its own arguments, if they fit into the buffer. -/
theorem eeVsprintf_pieces (pieces : List Piece) (args : List (Arg w)) :
    eeVsprintf m (pieces.flatMap Piece.print) args
      = (formatText m pieces args).bind fun text => if text.length < bufferSize then some text else none := by
  have hall : (pieces.flatMap Piece.print).takeWhile (· ≠ 0) = pieces.flatMap Piece.print := by
    refine List.takeWhile_eq_self_iff.mpr fun c hc => ?_
    obtain ⟨piece, -, hpiece⟩ := List.mem_flatMap.mp hc
    exact decide_eq_true (piece.print_ne_zero c hpiece)
  rw [eeVsprintf, hall, vsprintfLoop_pieces m pieces args (Nat.lt_succ_self _)]
  rfl

end Loop

end Kiznix.Printf

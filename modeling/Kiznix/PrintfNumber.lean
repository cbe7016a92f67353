import Kiznix.Printf

/-! The text of a number and the number that is read back from it. -/

namespace Kiznix.Printf

open Console (Char8)

/-- The digits of `n`, the highest first. -/
def digitsOf (dig : Nat → Char8) (base n : Nat) : List Char8 :=
  if n = 0 then [dig 0] else ((Nat.digits base n).map dig).reverse

/-- At least `precision` digits. -/
def withPrecision (precision : Int) (digits : List Char8) : List Char8 :=
  List.replicate (precision - digits.length).toNat (ch '0') ++ digits

/-- `head` and `body` in a field of `size` characters, which is larger where they need it. -/
def justify (type : Flags) (size : Int) (head body : List Char8) : List Char8 :=
  let fill := (size - head.length - body.length).toNat
  if type.left then head ++ body ++ List.replicate fill (ch ' ')
  else if type.zeropad then head ++ List.replicate fill (ch '0') ++ body
  else List.replicate fill (ch ' ') ++ head ++ body

/-- The sign in front of a number. -/
def signText {w : Nat} (num : BitVec w) (type : Flags) : List Char8 :=
  if type.sign then
    if num.msb then [ch '-'] else if type.plus then [ch '+'] else if type.space then [ch ' '] else []
  else []

/-- `0` or `0x`. -/
def prefixText (base : Nat) (type : Flags) : List Char8 :=
  if type.hexPrep then if base = 8 then [ch '0'] else if base = 16 then [ch '0', ch 'x'] else [] else []

/-- What is left without the sign. -/
def magnitude {w : Nat} (num : BitVec w) (type : Flags) : Nat :=
  if type.sign && num.msb then (-num).toNat else num.toNat

/-- The value that a number stands for. -/
def value {w : Nat} (num : BitVec w) (type : Flags) : Int := if type.sign then num.toInt else num.toNat

def digitsFor (type : Flags) : Nat → Char8 := if type.uppercase then upperDigits else lowerDigits

section Digits

variable {dig : Nat → Char8} {base : Nat}

theorem digitLoop_eq (hbase : 1 < base) {fuel n : Nat} (hn : n < base ^ fuel) :
    digitLoop dig base fuel n = (Nat.digits base n).map dig := by
  induction fuel generalizing n with
  | zero =>
    obtain rfl : n = 0 := by rw [Nat.pow_zero] at hn; omega
    rw [digitLoop, Nat.digits_zero, List.map_nil]
  | succ fuel ih =>
    rw [digitLoop]
    split
    · next hzero => rw [hzero, Nat.digits_zero, List.map_nil]
    · next hzero =>
      have hdiv : n / base < base ^ fuel := Nat.div_lt_of_lt_mul (by rwa [← Nat.pow_succ'])
      rw [ih hdiv, Nat.digits_def' hbase (Nat.pos_of_ne_zero hzero), List.map_cons]

/-- `tmp` holds a number of `w` bits in any base. -/
theorem digitLoop_toNat {w : Nat} (hbase : 1 < base) (num : BitVec w) :
    digitLoop dig base w num.toNat = (Nat.digits base num.toNat).map dig :=
  digitLoop_eq hbase (num.isLt.trans_le (Nat.pow_le_pow_left hbase w))

theorem length_digitsOf_le (dig : Nat → Char8) {n w : Nat} (hbase : 1 < base) (hn : n < 2 ^ w) :
    (digitsOf dig base n).length ≤ max 1 w := by
  rw [digitsOf]
  split
  · simp
  · next hzero =>
    rw [List.length_reverse, List.length_map, Nat.length_digits base n hbase hzero]
    have hlog : Nat.log base n < w := Nat.log_lt_of_lt_pow hzero (hn.trans_le (Nat.pow_le_pow_left hbase w))
    omega

theorem length_digitsOf_pos (dig : Nat → Char8) (n : Nat) (hbase : 1 < base) : 0 < (digitsOf dig base n).length := by
  rw [digitsOf]
  split
  · simp
  · next hzero =>
    rw [List.length_reverse, List.length_map, Nat.length_digits base n hbase hzero]
    omega

theorem length_withPrecision (precision : Int) (digits : List Char8) :
    ((withPrecision precision digits).length : Int) = max precision digits.length := by
  rw [withPrecision, List.length_append, List.length_replicate]
  omega

end Digits

theorem pad_fst (c : Char8) (size : Int) : (pad c size).1 = List.replicate size.toNat c := rfl

theorem pad_snd (c : Char8) (size : Int) : (pad c size).2 = min size 0 - 1 := rfl

/-- After a loop that wrote the padding there is none left. -/
theorem pad_pad (c d : Char8) (size : Int) : (pad d (pad c size).2).1 = [] := by
  rw [pad_fst, pad_snd, List.replicate_eq_nil_iff]
  omega

theorem takeSign_eq {w : Nat} (num : BitVec w) (size : Int) (type : Flags) :
    ∃ sign mag, takeSign num size type = (sign, mag, size - (signText num type).length) ∧
      sign.toList = signText num type ∧ mag.toNat = magnitude num type := by
  unfold takeSign signText magnitude
  split
  · split
    · exact ⟨_, _, rfl, rfl, by simp_all⟩
    · split
      · exact ⟨_, _, rfl, rfl, by simp_all⟩
      · split
        · exact ⟨_, _, rfl, rfl, by simp_all⟩
        · exact ⟨none, num, by simp, rfl, by simp_all⟩
  · exact ⟨none, num, by simp, rfl, by simp_all⟩

/-- The prefix takes its room from the field. -/
theorem size_prefixed (base : Nat) (size : Int) (type : Flags) :
    (if type.hexPrep then if base = 16 then size - 2 else if base = 8 then size - 1 else size else size)
      = size - (prefixText base type).length := by
  unfold prefixText
  split
  · split
    · next h16 => simp [h16]
    · split <;> simp_all
  · simp

theorem prefix_eq (base : Nat) (type : Flags) :
    (if type.hexPrep then
        if base = 8 then [ch '0'] else if base = 16 then [ch '0', lowerDigits 33] else []
      else []) = prefixText base type := rfl

theorem digit_zero (type : Flags) : digitsFor type 0 = ch '0' := by
  rw [digitsFor]
  split <;> rfl

/-- The digits in `tmp`, turned around. -/
theorem tmp_eq {w base : Nat} (hbase : 1 < base) (num : BitVec w) (type : Flags) :
    (if num = 0 then [ch '0'] else digitLoop (digitsFor type) base w num.toNat).reverse
      = digitsOf (digitsFor type) base num.toNat := by
  rw [digitsOf]
  by_cases hzero : num = 0
  · rw [if_pos hzero, if_pos (by rw [hzero]; rfl), digit_zero, List.reverse_singleton]
  · have hnat : num.toNat ≠ 0 := fun h => hzero (BitVec.eq_of_toNat_eq h)
    rw [if_neg hzero, if_neg hnat, digitLoop_toNat hbase]

/-- `ee_number` writes the sign, the prefix and the digits into the field. -/
theorem eeNumber_eq {w base : Nat} (hbase : 2 ≤ base ∧ base ≤ 36) (num : BitVec w) (size precision : Int) (type : Flags) :
    eeNumber num base size precision type
      = some (justify type size (signText num type ++ prefixText base type)
          (withPrecision precision (digitsOf (digitsFor type) base (magnitude num type)))) := by
  obtain ⟨sign, mag, htake, hsign, hmag⟩ := takeSign_eq num size type
  unfold eeNumber
  simp only [htake, size_prefixed, prefix_eq, if_neg (show ¬(base < 2 ∨ base > 36) by omega)]
  rw [← hmag, ← hsign, ← tmp_eq (by omega)]
  rw [show (if type.uppercase = true then upperDigits else lowerDigits) = digitsFor type from rfl]
  generalize (if mag = 0 then [ch '0'] else digitLoop (digitsFor type) base w mag.toNat) = tmp
  generalize prefixText base type = hex
  generalize sign.toList = signs
  have hprecision : (if (tmp.length : Int) > precision then (tmp.length : Int) else precision) =
      max precision tmp.length := by
    split <;> omega
  have hbody := length_withPrecision precision tmp.reverse
  rw [List.length_reverse] at hbody
  have hzeros : (max precision tmp.length - tmp.length).toNat = (precision - tmp.reverse.length).toNat := by
    rw [List.length_reverse]
    omega
  rw [hprecision, hzeros, Option.some.injEq, justify, List.length_append]
  rw [show size - ((signs.length + hex.length : Nat) : Int) - (withPrecision precision tmp.reverse).length
    = size - signs.length - hex.length - max precision tmp.length by rw [hbody]; omega]
  generalize size - (signs.length : Int) - hex.length - max precision tmp.length = left
  have hwith : ∀ front : List Char8,
      front ++ List.replicate (precision - (tmp.reverse.length : Int)).toNat (ch '0') ++ tmp.reverse =
        front ++ withPrecision precision tmp.reverse := fun front => List.append_assoc _ _ _
  simp only [hwith]
  generalize withPrecision precision tmp.reverse = body
  have hnone : ∀ c d : Char8, (pad d (pad c left).2).1 = [] := fun c d => pad_pad c d left
  have hagain : ∀ c d e : Char8, (pad e (pad d (pad c left).2).2).1 = [] := fun c d e => by
    rw [pad_fst, pad_snd, pad_snd, List.replicate_eq_nil_iff]
    omega
  cases type.left <;> cases type.zeropad <;> simp [hnone, hagain, pad_fst]

/-- The value of a digit, and 36 for another character. -/
def digitValue (c : Char8) : Nat :=
  if 48 ≤ c.toNat ∧ c.toNat ≤ 57 then c.toNat - 48
  else if 65 ≤ c.toNat ∧ c.toNat ≤ 90 then c.toNat - 55
  else if 97 ≤ c.toNat ∧ c.toNat ≤ 122 then c.toNat - 87
  else 36

/-- The number that the digits in front of the text give. -/
def readDigits (base : Nat) : Nat → List Char8 → Nat
  | n, [] => n
  | n, c :: rest => if digitValue c < base then readDigits base (n * base + digitValue c) rest else n

def skipPrefix (base : Nat) : List Char8 → List Char8
  | c :: d :: rest => if base = 16 ∧ c = ch '0' ∧ d = ch 'x' then rest else c :: d :: rest
  | text => text

/-- The text as a number, the way that `strtol` reads it. -/
def readNumber (base : Nat) (text : List Char8) : Int :=
  match text.dropWhile (· = ch ' ') with
  | [] => 0
  | c :: rest =>
    if c = ch '-' then -(readDigits base 0 (skipPrefix base rest) : Nat)
    else if c = ch '+' then (readDigits base 0 (skipPrefix base rest) : Nat)
    else (readDigits base 0 (skipPrefix base (c :: rest)) : Nat)

theorem digitValue_digitsFor (type : Flags) {d : Nat} (hd : d < 36) : digitValue (digitsFor type d) = d := by
  rw [digitsFor]
  split
  · interval_cases d <;> rfl
  · interval_cases d <;> rfl

section Reading

variable {type : Flags} {base : Nat}

theorem foldl_digits (acc : Nat) (ds : List Nat) :
    ds.reverse.foldl (fun n d => n * base + d) acc = acc * base ^ ds.length + Nat.ofDigits base ds := by
  induction ds with
  | nil => simp
  | cons d ds ih =>
    rw [List.reverse_cons, List.foldl_append, ih, List.foldl_cons, List.foldl_nil, Nat.ofDigits_cons, List.length_cons,
      Nat.pow_succ, Nat.add_mul, Nat.mul_assoc, Nat.mul_comm (Nat.ofDigits base ds) base]
    omega

theorem readDigits_map (hbase : base ≤ 36) (n : Nat) (ds : List Nat) (rest : List Char8) (hds : ∀ d ∈ ds, d < base) :
    readDigits base n (ds.map (digitsFor type) ++ rest) = readDigits base (ds.foldl (fun n d => n * base + d) n) rest := by
  induction ds generalizing n with
  | nil => rfl
  | cons d ds ih =>
    have hd : d < base := hds d List.mem_cons_self
    rw [List.map_cons, List.cons_append, readDigits, digitValue_digitsFor type (by omega), if_pos hd,
      ih _ (fun e he => hds e (List.mem_cons_of_mem d he)), List.foldl_cons]

theorem digitsOf_eq_map (type : Flags) (hbase : 2 ≤ base) (n : Nat) : ∃ ds : List Nat, (∀ d ∈ ds, d < base) ∧
    digitsOf (digitsFor type) base n = ds.reverse.map (digitsFor type) ∧ Nat.ofDigits base ds = n := by
  rw [digitsOf]
  split
  · next hzero =>
    exact ⟨[0], by simp; omega, rfl, by rw [hzero, Nat.ofDigits_singleton]⟩
  · next hzero =>
    exact ⟨Nat.digits base n, fun d => Nat.digits_lt_base hbase, by rw [List.map_reverse], Nat.ofDigits_digits base n⟩

theorem readDigits_zeros (hbase : 2 ≤ base) (z : Nat) (rest : List Char8) :
    readDigits base 0 (List.replicate z (ch '0') ++ rest) = readDigits base 0 rest := by
  induction z with
  | zero => rfl
  | succ z ih =>
    rw [List.replicate_succ, List.cons_append, readDigits, show digitValue (ch '0') = 0 from rfl, if_pos (by omega),
      Nat.zero_mul]
    exact ih

theorem readDigits_spaces (hbase : base ≤ 36) (n m : Nat) : readDigits base n (List.replicate m (ch ' ')) = n := by
  cases m with
  | zero => rfl
  | succ m =>
    rw [List.replicate_succ, readDigits, show digitValue (ch ' ') = 36 from rfl, if_neg (by omega)]

/-- Leading zeros and the spaces behind do not change the number. -/
theorem readDigits_digitsOf (type : Flags) (hbase : 2 ≤ base ∧ base ≤ 36) (n z m : Nat) :
    readDigits base 0
      (List.replicate z (ch '0') ++ digitsOf (digitsFor type) base n ++ List.replicate m (ch ' ')) = n := by
  obtain ⟨ds, hds, hdigits, hn⟩ := digitsOf_eq_map type hbase.1 n
  rw [List.append_assoc, readDigits_zeros hbase.1, hdigits,
    readDigits_map hbase.2 0 ds.reverse _ (fun d hd => hds d (List.mem_reverse.mp hd)), readDigits_spaces hbase.2,
    foldl_digits, hn, Nat.zero_mul, Nat.zero_add]

/-- A field of any size holds the head, zeros and the digits, with spaces on both sides. -/
theorem justify_form (type : Flags) (size precision : Int) (head digits : List Char8) : ∃ k z m,
    justify type size head (withPrecision precision digits)
      = List.replicate k (ch ' ') ++ (head ++ (List.replicate z (ch '0') ++ digits ++ List.replicate m (ch ' '))) := by
  unfold justify withPrecision
  generalize (precision - (digits.length : Int)).toNat = zeros
  generalize (size - (head.length : Int) - ((List.replicate zeros (ch '0') ++ digits).length : Nat)).toNat = fill
  cases type.left with
  | true => exact ⟨0, zeros, fill, by simp⟩
  | false =>
    cases type.zeropad with
    | true =>
      refine ⟨0, fill + zeros, 0, ?_⟩
      simp only [Bool.false_eq_true, if_false, if_true, List.replicate_zero, List.nil_append, List.append_nil,
        List.append_assoc, List.replicate_add]
    | false => exact ⟨fill, zeros, 0, by simp⟩

/-- The first character of the digits is a digit, and no `x` is among them. -/
def StartsDigit (text : List Char8) : Prop := ∃ c rest, text = c :: rest ∧ digitValue c < 36

theorem startsDigit_digitsOf (type : Flags) (hbase : 2 ≤ base ∧ base ≤ 36) (n z : Nat) (rest : List Char8) :
    StartsDigit (List.replicate z (ch '0') ++ digitsOf (digitsFor type) base n ++ rest) := by
  cases z with
  | succ z => exact ⟨ch '0', _, rfl, by decide⟩
  | zero =>
    obtain ⟨ds, hds, hdigits, hn⟩ := digitsOf_eq_map type hbase.1 n
    have hpos := length_digitsOf_pos (digitsFor type) n (Nat.lt_of_succ_le hbase.1)
    rw [hdigits, List.length_map, List.length_reverse] at hpos
    obtain ⟨d, tail, hd⟩ := List.exists_cons_of_length_pos (l := ds.reverse) (by rwa [List.length_reverse])
    have hlt : d < base := hds d (List.mem_reverse.mp (hd ▸ List.mem_cons_self))
    refine ⟨digitsFor type d, _, by rw [hdigits, hd]; rfl, ?_⟩
    rw [digitValue_digitsFor type (by omega)]
    omega

theorem readNumber_startsDigit (text : List Char8) (k : Nat) (h : StartsDigit text) :
    readNumber base (List.replicate k (ch ' ') ++ text) = (readDigits base 0 (skipPrefix base text) : Nat) := by
  obtain ⟨c, rest, rfl, hc⟩ := h
  have hspace : c ≠ ch ' ' := fun h => absurd hc (by rw [h]; decide)
  have hminus : c ≠ ch '-' := fun h => absurd hc (by rw [h]; decide)
  have hplus : c ≠ ch '+' := fun h => absurd hc (by rw [h]; decide)
  rw [readNumber, List.dropWhile_append_of_pos (by simp), List.dropWhile_cons_of_neg (by simpa using hspace)]
  simp only [if_neg hminus, if_neg hplus]

theorem readNumber_sign {w : Nat} (num : BitVec w) (text : List Char8) (k : Nat) (h : StartsDigit text) :
    readNumber base (List.replicate k (ch ' ') ++ (signText num type ++ text))
      = (if type.sign && num.msb then -1 else 1) * (readDigits base 0 (skipPrefix base text) : Nat) := by
  have hplain : readNumber base _ = _ := readNumber_startsDigit text k h
  unfold signText
  split
  · next hsign =>
    rw [hsign, Bool.true_and]
    split
    · next hmsb =>
      rw [readNumber, List.dropWhile_append_of_pos (by simp), List.singleton_append,
        List.dropWhile_cons_of_neg (by decide)]
      simp
    · split
      · rw [readNumber, List.dropWhile_append_of_pos (by simp), List.singleton_append,
          List.dropWhile_cons_of_neg (by decide)]
        simp [show ch '+' ≠ ch '-' by decide]
      · split
        · rw [Int.one_mul, List.singleton_append, ← List.singleton_append,
            show [ch ' '] = List.replicate 1 (ch ' ') from rfl, ← List.append_assoc, ← List.replicate_add,
            readNumber_startsDigit text (k + 1) h]
        · rw [Int.one_mul, List.nil_append, hplain]
  · next hsign =>
    rw [Bool.not_eq_true] at hsign
    rw [List.nil_append, hplain, hsign]
    simp

theorem skipPrefix_of_not_mem {text : List Char8} (h : ch 'x' ∉ text) : skipPrefix base text = text := by
  unfold skipPrefix
  split
  · next c d rest =>
    rw [if_neg]
    rintro ⟨-, -, rfl⟩
    exact h (List.mem_cons_of_mem _ List.mem_cons_self)
  · rfl

theorem skipPrefix_of_ne {text : List Char8} (h : base ≠ 16) : skipPrefix base text = text := by
  unfold skipPrefix
  split
  · exact if_neg (fun hall => h hall.1)
  · rfl

theorem x_not_mem_body (n z m : Nat) :
    ch 'x' ∉ List.replicate z (ch '0') ++ digitsOf (digitsFor type) 16 n ++ List.replicate m (ch ' ') := by
  obtain ⟨ds, hds, hdigits, hn⟩ := digitsOf_eq_map type (show 2 ≤ 16 by decide) n
  rw [hdigits]
  simp only [List.mem_append, List.mem_replicate, List.mem_map, List.mem_reverse, not_or]
  refine ⟨⟨fun h => absurd h.2 (by decide), ?_⟩, fun h => absurd h.2 (by decide)⟩
  rintro ⟨d, hd, hx⟩
  have hlt := hds d hd
  have hvalue := digitValue_digitsFor type (d := d) (by omega)
  rw [hx, show digitValue (ch 'x') = 33 from rfl] at hvalue
  omega

theorem readDigits_prefixed (hbase : 2 ≤ base ∧ base ≤ 36) (n z m : Nat) :
    readDigits base 0 (skipPrefix base (prefixText base type
      ++ (List.replicate z (ch '0') ++ digitsOf (digitsFor type) base n ++ List.replicate m (ch ' ')))) = n := by
  have hbody := readDigits_digitsOf type hbase n
  have hnone : readDigits base 0 (skipPrefix base
      (List.replicate z (ch '0') ++ digitsOf (digitsFor type) base n ++ List.replicate m (ch ' '))) = n := by
    by_cases h16 : base = 16
    · subst h16
      rw [skipPrefix_of_not_mem (x_not_mem_body n z m), hbody]
    · rw [skipPrefix_of_ne h16, hbody]
  unfold prefixText
  split
  · split
    · next h8 =>
      rw [skipPrefix_of_ne (by omega), List.append_assoc, ← List.append_assoc [ch '0'],
        show [ch '0'] = List.replicate 1 (ch '0') from rfl, ← List.replicate_add, ← List.append_assoc, hbody]
    · split
      · next h16 =>
        rw [List.cons_append, List.singleton_append, skipPrefix, if_pos ⟨h16, rfl, rfl⟩, hbody]
      · exact hnone
  · exact hnone

theorem startsDigit_prefixed (hbase : 2 ≤ base ∧ base ≤ 36) (n z : Nat) (rest : List Char8) :
    StartsDigit (prefixText base type ++ (List.replicate z (ch '0') ++ digitsOf (digitsFor type) base n ++ rest)) := by
  have hbody := startsDigit_digitsOf type hbase n z rest
  unfold prefixText
  split
  · split
    · exact ⟨ch '0', _, rfl, by decide⟩
    · split
      · exact ⟨ch '0', _, rfl, by decide⟩
      · exact hbody
  · exact hbody

end Reading

/-- Also for the most negative number, whose magnitude is its own bit pattern. -/
theorem value_eq {w : Nat} (num : BitVec w) (type : Flags) :
    value num type = (if type.sign && num.msb then -1 else 1) * (magnitude num type : Int) := by
  unfold value magnitude
  cases type.sign with
  | false => simp
  | true =>
    cases hmsb : num.msb with
    | false => simp [BitVec.toInt_eq_toNat_of_msb hmsb]
    | true =>
      have hlt := num.isLt
      have hne : num.toNat ≠ 0 := by
        intro hzero
        have hnum : num = 0#w := BitVec.eq_of_toNat_eq (by simpa using hzero)
        rw [hnum, BitVec.msb_zero] at hmsb
        exact absurd hmsb (by decide)
      have hneg : (-num).toNat = 2 ^ w - num.toNat := by
        rw [BitVec.toNat_neg, Nat.mod_eq_of_lt (by omega)]
      simp only [if_true, Bool.and_self, hneg, BitVec.toInt_eq_msb_cond, hmsb]
      omega

theorem magnitude_lt {w : Nat} (num : BitVec w) (type : Flags) : magnitude num type < 2 ^ w := by
  unfold magnitude
  split
  · exact (-num).isLt
  · exact num.isLt

theorem length_justify (type : Flags) (size : Int) (head body : List Char8) :
    ((justify type size head body).length : Int) = max size (head.length + body.length) := by
  unfold justify
  split
  · simp only [List.length_append, List.length_replicate]
    omega
  · split <;> simp only [List.length_append, List.length_replicate] <;> omega

/-- For every base that `ee_number` takes, every word, width, precision and flags: the digits fit
into `tmp`, the text is the sign, the prefix and the digits in their field, and reading it back
gives the number. -/
theorem eeNumber_reads {w base : Nat} (hbase : 2 ≤ base ∧ base ≤ 36) (hw : w ≤ 64) (num : BitVec w)
    (size precision : Int) (type : Flags) :
    ∃ digits text, digits = digitsOf (digitsFor type) base (magnitude num type) ∧ digits.length ≤ 64 ∧
      eeNumber num base size precision type = some text ∧
      text = justify type size (signText num type ++ prefixText base type) (withPrecision precision digits) ∧
      (text.length : Int) = max size ((signText num type).length + (prefixText base type).length
        + max precision digits.length) ∧
      readNumber base text = value num type := by
  refine ⟨_, _, rfl, ?_, eeNumber_eq hbase num size precision type, rfl, ?_, ?_⟩
  · have hlen := length_digitsOf_le (digitsFor type) (Nat.lt_of_succ_le hbase.1) (magnitude_lt num type)
    omega
  · rw [length_justify, List.length_append, length_withPrecision]
    omega
  · obtain ⟨k, z, m, hform⟩ := justify_form type size precision (signText num type ++ prefixText base type)
      (digitsOf (digitsFor type) base (magnitude num type))
    rw [hform, List.append_assoc (signText num type), readNumber_sign num _ k (startsDigit_prefixed hbase _ z _),
      readDigits_prefixed hbase, value_eq]

theorem eeNumber_reads_min :
    ∃ text, eeNumber (BitVec.intMin 64) 16 24 (-1) { Flags.none with sign := true, zeropad := true, hexPrep := true }
      = some text ∧ readNumber 16 text = -2 ^ 63 :=
  let ⟨_, text, _, _, htext, _, _, hread⟩ := eeNumber_reads (by decide) (by decide) (BitVec.intMin 64) 24 (-1)
    { Flags.none with sign := true, zeropad := true, hexPrep := true }
  ⟨text, htext, hread.trans (by decide)⟩

end Kiznix.Printf

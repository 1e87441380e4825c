import Lox.Proofs.Decimals

/- Numbers as they are written, against their exact values. The text of a finite number is a decimal in
   its shortest form: the exact value rounded to hundred-thousandths, a half going to the even
   neighbour. So it is close to the number, keeps whole numbers, and keeps their order. -/
namespace Lox

section Rounding

variable {m n d : Nat}

theorem divNearest_mono (pos : 0 < d) (le : m ≤ n) : divNearest m d ≤ divNearest n d := by
  rcases Nat.lt_or_eq_of_le le with less | rfl
  · obtain ⟨-, below⟩ := divNearest_bounds m pos
    obtain ⟨above, -⟩ := divNearest_bounds n pos
    by_contra more
    have step := Nat.mul_le_mul_right d (Nat.lt_of_not_le more)
    rw [Nat.succ_mul] at step
    omega
  · exact Nat.le_refl _

theorem divNearest_mul_self (n : Nat) (pos : 0 < d) : divNearest (n * d) d = n :=
  divNearest_eq_of_close (by omega) (by omega)

end Rounding

def signed (negative : Bool) (n : Nat) : ℤ := if negative then -(n : ℤ) else n

theorem signed_mul (negative : Bool) (n k : Nat) : signed negative (n * k) = signed negative n * k := by
  cases negative <;> simp [signed]

theorem natAbs_signed (negative : Bool) (n : Nat) : (signed negative n).natAbs = n := by
  cases negative <;> simp [signed]

theorem abs_signed_sub (negative : Bool) (m n : Nat) (k l : ℚ) :
    |(signed negative m : ℚ) / k - (signed negative n : ℚ) / l| = |(m : ℚ) / k - (n : ℚ) / l| := by
  cases negative with
  | false => simp [signed]
  | true =>
    simp only [signed, if_true]
    push_cast
    rw [neg_div, neg_div, neg_sub_neg, abs_sub_comm]

theorem abs_ratio_sub_le {m n k l : Nat} (pos : 0 < k) (pos' : 0 < l)
    (above : 2 * (n * k) ≤ 2 * (m * l) + l) (below : 2 * (m * l) ≤ 2 * (n * k) + l) :
    |(m : ℚ) / k - (n : ℚ) / l| ≤ 1 / (2 * k) := by
  have pos : (0 : ℚ) < k := by exact_mod_cast pos
  have pos' : (0 : ℚ) < l := by exact_mod_cast pos'
  have above : 2 * ((n : ℚ) * k) ≤ 2 * (m * l) + l := by exact_mod_cast above
  have below : 2 * ((m : ℚ) * l) ≤ 2 * (n * k) + l := by exact_mod_cast below
  have half : 1 / (2 * (k : ℚ)) * (k * l) = l / 2 := by field_simp
  rw [div_sub_div _ _ pos.ne' pos'.ne', abs_div, abs_of_pos (mul_pos pos pos'),
    div_le_iff₀ (mul_pos pos pos'), half, abs_le]
  constructor <;> linarith

/-- Signs keep the order of what is rounded, as rounding keeps zero. -/
theorem signed_mono {f : Nat → Nat} (mono : ∀ {m n : Nat}, m ≤ n → f m ≤ f n) (zero : f 0 = 0)
    {b c : Bool} {m n : Nat} (le : signed b m ≤ signed c n) : signed b (f m) ≤ signed c (f n) := by
  cases b <;> cases c <;> simp only [signed, if_true, if_false, Bool.false_eq_true] at le ⊢
  · have := mono (m := m) (n := n) (by omega)
    omega
  · obtain rfl : m = 0 := by omega
    obtain rfl : n = 0 := by omega
    omega
  · omega
  · have := mono (m := n) (n := m) (by omega)
    omega

namespace Binary64

open Float.Model (Format)
open Float.Model.UnpackedFloat

/-- The value of a significand with its sign and exponent. Infinities and NaN have none, and zero
stands for it. -/
def unpackedValue : Float.Model.UnpackedFloat → ℚ
  | .finite sign significand exponent _ => (sign.apply significand : ℤ) * (2 : ℚ) ^ exponent
  | .zero _ | .infinity _ | .notANumber => 0

def exactValue (x : Float) : ℚ := unpackedValue x.toModel.unpack

theorem isNegative_iff (word : UInt64) : isNegative word = true ↔ word.toNat.testBit 63 = true := by
  have less := word.toNat_lt
  unfold isNegative
  rw [Nat.testBit_eq_decide_div_mod_eq, beq_iff_eq, decide_eq_true_iff]
  simp only [Nat.pow_eq]
  omega

theorem apply_sign (word : UInt64) (n : Nat) :
    (Sign.ofBitVec (@unpackSign Format.binary64 word.toBitVec)).apply n =
      signed (isNegative word) n := by
  have less := word.toNat_lt
  have bit : (@unpackSign Format.binary64 word.toBitVec).toNat = word.toNat / 2 ^ 63 := by
    rw [unpackSign_def, BitVec.extractLsb'_toNat, Nat.shiftRight_eq_div_pow]
    show word.toNat / 2 ^ 63 % 2 ^ 1 = _
    omega
  have zero : @unpackSign Format.binary64 word.toBitVec = 0#1 ↔ word.toNat / 2 ^ 63 = 0 := by
    rw [← BitVec.toNat_inj, bit]
    rfl
  unfold Sign.ofBitVec signed isNegative
  simp only [Nat.pow_eq, zero, beq_iff_eq]
  by_cases positive : word.toNat / 2 ^ 63 = 0
  · rw [if_pos positive, if_neg (by omega)]
    rfl
  · rw [if_neg positive, if_pos (by omega)]
    rfl

theorem signed_mul_zpow (negative : Bool) (n e : Nat) :
    (signed negative n : ℚ) * 2 ^ ((e : ℤ) - 1074) =
      (signed negative (n * 2 ^ e) : ℚ) / (unitsPerOne : ℚ) := by
  obtain ⟨k, exponent, units⟩ := Number.unitsPerOne_eq
  have same : (1074 : ℤ) = (k : ℤ) := by rw [exponent]; rfl
  rw [units, same, zpow_sub₀ two_ne_zero, zpow_natCast, zpow_natCast, signed_mul]
  push_cast
  rw [mul_div_assoc]

section Finite

variable {word : UInt64} (finite : (Float.ofBits word).isFinite = true)
include finite

theorem not_isNaNBits_of_finite : @isNaNBits Format.binary64 word.toBitVec = false := by
  by_contra nan
  rw [Bool.not_eq_false] at nan
  have bits : (Float.ofBits word).toBits.toBitVec = packedNaN Format.binary64 := by
    show (unpack Format.binary64 word.toBitVec).pack Format.binary64 = _
    rw [pack_unpack, if_pos nan]
  have none : (unpack Format.binary64 (packedNaN Format.binary64)).isFinite = false := by
    decide +kernel
  have some : (unpack Format.binary64 (Float.ofBits word).toBits.toBitVec).isFinite = true := finite
  rw [bits, none] at some
  cases some

theorem toBits_of_finite : (Float.ofBits word).toBits = word :=
  toBits_of_not_nan (not_isNaNBits_of_finite finite)

theorem unpack_of_finite :
    (Float.ofBits word).toModel.unpack = unpack Format.binary64 word.toBitVec :=
  unpack_of_not_nan (not_isNaNBits_of_finite finite)

theorem not_special_of_finite :
    (Float.ofBits word).isNaN = false ∧ (Float.ofBits word).isInf = false := by
  have either (x : Float.Model.UnpackedFloat) (finite : x.isFinite = true) :
      x.isNaN = false ∧ x.isInf = false := by
    cases x <;> simp_all [isFinite, isNaN, isInf]
  exact either _ finite

theorem exponent_not_full : @unpackExponent Format.binary64 word.toBitVec ≠ -1#_ := by
  intro full
  have known : (unpack Format.binary64 word.toBitVec).isFinite = true := by
    rw [← unpack_of_finite finite]
    exact finite
  unfold unpack at known
  simp only [if_pos full] at known
  split at known <;> cases known

/-- The exact value, in units of the smallest double. -/
theorem exactValue_of_finite :
    exactValue (Float.ofBits word) =
      (signed (isNegative word) (magnitude word) : ℚ) / (unitsPerOne : ℚ) := by
  have exponent : (@unpackExponent Format.binary64 word.toBitVec).toNat = exponentField word :=
    toNat_unpackExponent word.toBitVec
  have mantissa : (@unpackMantissa Format.binary64 word.toBitVec).toNat = fractionField word :=
    toNat_unpackMantissa word.toBitVec
  have bias : ((Format.binary64.exponentBias : ℤ) + (52 : ℕ)) = 1075 := by decide
  unfold exactValue
  rw [unpack_of_finite finite]
  unfold unpack magnitude
  simp only [if_neg (exponent_not_full finite)]
  by_cases least : @unpackExponent Format.binary64 word.toBitVec = 0#_
  · -- Without an exponent the fraction is the whole magnitude, and may be zero.
    have field : exponentField word = 0 := by rw [← exponent, least]; rfl
    rw [if_pos least, field]
    split
    · rename_i none
      have zero : fractionField word = 0 := by rw [← mantissa, none]; rfl
      have nothing (negative : Bool) : signed negative 0 = 0 := by cases negative <;> rfl
      simp only [unpackedValue, zero, nothing, Int.cast_zero, zero_div]
    · have place : ((0 : ℕ) : ℤ) - 1075 + 1 = ((0 : ℕ) : ℤ) - 1074 := by omega
      simp only [unpackedValue, apply_sign, exponent, mantissa, field, bias, place,
        signed_mul_zpow, Nat.pow_zero, Nat.mul_one]
  · have field : exponentField word ≠ 0 := by
      intro zero
      exact least (BitVec.eq_of_toNat_eq (by rw [exponent, zero]; rfl))
    obtain ⟨e, later⟩ := Nat.exists_eq_succ_of_ne_zero field
    have place : ((e.succ : ℕ) : ℤ) - 1075 = (e : ℤ) - 1074 := by omega
    have highest : (1#1 ++ @unpackMantissa Format.binary64 word.toBitVec).toNat =
        fractionField word + fractionCount := by
      have less := (@unpackMantissa Format.binary64 word.toBitVec).isLt
      rw [BitVec.toNat_append, ← Nat.shiftLeft_add_eq_or_of_lt less, mantissa, Nat.add_comm]
      rfl
    rw [if_neg least, later]
    simp only [unpackedValue, apply_sign, exponent, highest, later, bias, place, signed_mul_zpow]
    rfl

end Finite

end Binary64

namespace Number

open Binary64

/-- A decimal in its shortest form: no zero stands before another digit of the whole part, and none at
the end of the at most five digits after the point. -/
structure Decimal where
  negative : Bool
  whole : List Char
  fraction : List Char
  digits : ∀ c ∈ whole ++ fraction, c.isDigit = true
  some_whole : whole ≠ []
  first_digit : whole.head? = some '0' → whole = ['0']
  few_places : fraction.length ≤ 5
  last_digit : fraction.getLast? ≠ some '0'

namespace Decimal

variable (d : Decimal)

def unsignedText : List Char := d.whole ++ if d.fraction = [] then [] else '.' :: d.fraction

def text : String := String.ofList ((if d.negative then ['-'] else []) ++ d.unsignedText)

def value : ℚ :=
  (signed d.negative (Nat.ofDigitChars 10 (d.whole ++ d.fraction) 0) : ℚ) / 10 ^ d.fraction.length

theorem parts_unsignedText :
    d.unsignedText.takeWhile Char.isDigit = d.whole ∧
      (d.unsignedText.dropWhile Char.isDigit).drop 1 = d.fraction := by
  have digits : ∀ c ∈ d.whole, c.isDigit = true := fun c member =>
    d.digits c (List.mem_append_left _ member)
  have cut {rest : List Char} (stops : ∀ c ∈ rest.head?, c.isDigit = false) :=
    takeWhile_dropWhile_append digits stops
  unfold unsignedText
  by_cases none : d.fraction = []
  · have parts := @cut [] nofun
    rw [if_pos none, parts.1, parts.2, none]
    exact ⟨rfl, rfl⟩
  · have parts := @cut ('.' :: d.fraction) (by rintro c ⟨⟩; rfl)
    rw [if_neg none, parts.1, parts.2]
    exact ⟨rfl, rfl⟩

theorem not_sign_head : d.unsignedText.head? ≠ some '-' := by
  obtain ⟨c, cs, whole⟩ := List.exists_cons_of_ne_nil d.some_whole
  have digit := d.digits c (by rw [whole]; simp)
  intro sign
  rw [unsignedText, whole] at sign
  cases sign
  cases digit

variable {d}

theorem text_injective {e : Decimal} (same : d.text = e.text) : d = e := by
  have lists := String.ofList_inj.mp same
  have head := d.not_sign_head
  have head' := e.not_sign_head
  have parts : d.negative = e.negative ∧ d.unsignedText = e.unsignedText := by
    cases first : d.negative <;> cases second : e.negative <;> rw [first, second] at lists
    · exact ⟨rfl, lists⟩
    · exact absurd (congrArg List.head? lists) head
    · exact absurd (congrArg List.head? lists).symm head'
    · exact ⟨rfl, (List.cons.inj lists).2⟩
  have whole : d.whole = e.whole := by
    rw [← d.parts_unsignedText.1, ← e.parts_unsignedText.1, parts.2]
  have fraction : d.fraction = e.fraction := by
    rw [← d.parts_unsignedText.2, ← e.parts_unsignedText.2, parts.2]
  cases d
  cases e
  cases parts.1
  cases whole
  cases fraction
  rfl

theorem fraction_eq_nil_iff : d.fraction = [] ↔ ∃ n : ℤ, d.value = n := by
  constructor
  · intro none
    refine ⟨signed d.negative (Nat.ofDigitChars 10 (d.whole ++ d.fraction) 0), ?_⟩
    rw [value, none, List.length_nil, pow_zero, div_one]
  · rintro ⟨n, eq⟩
    by_contra some_digits
    obtain ⟨front, c, fraction⟩ := (List.eq_nil_or_concat' d.fraction).resolve_left some_digits
    have last := d.last_digit
    have digit := d.digits c (by simp [fraction])
    rw [fraction, List.getLast?_concat] at last
    -- A multiple of ten would have a zero for its last digit.
    have whole : signed d.negative (Nat.ofDigitChars 10 (d.whole ++ d.fraction) 0) =
        n * 10 ^ d.fraction.length := by
      rw [value, div_eq_iff (by positivity)] at eq
      exact_mod_cast eq
    have digits : Nat.ofDigitChars 10 (d.whole ++ d.fraction) 0 =
        10 * Nat.ofDigitChars 10 (d.whole ++ front) 0 + (c.toNat - 48) := by
      rw [fraction, ← List.append_assoc, Nat.ofDigitChars_append]
      rfl
    have tens : (10 : ℤ) ∣ signed d.negative (Nat.ofDigitChars 10 (d.whole ++ d.fraction) 0) := by
      rw [whole, fraction, List.length_append, List.length_singleton, pow_succ]
      exact Dvd.intro_left (n * 10 ^ front.length) (by ring)
    have zero : c.toNat = 48 := by
      have bounds : 48 ≤ c.toNat ∧ c.toNat ≤ 57 := (isDigit_iff c).mp digit
      rw [digits] at tens
      unfold signed at tens
      split at tens <;> omega
    exact last (congrArg some (Char.toNat_inj.mp zero))

end Decimal

section Written

variable (n : Nat)

theorem head_toDigits (pos : 0 < n) : (Nat.toDigits 10 n).head? ≠ some '0' := by
  induction n using Nat.strongRecOn with
  | _ n ih =>
    by_cases small : n < 10
    · rw [Nat.toDigits_of_lt_base small]
      simp
      omega
    · have some_digits := @Nat.toDigits_ne_nil (n / 10) 10
      rw [Nat.toDigits_of_base_le (by decide) (by omega), List.head?_append_of_ne_nil _ some_digits]
      exact ih (n / 10) (by omega) (by omega)

theorem getLast_fractionDigits : (fractionDigits n).getLast? ≠ some '0' := by
  have stops := List.head?_dropWhile_not (· == '0') (paddedDigits n).reverse
  show ((paddedDigits n).reverse.dropWhile (· == '0')).reverse.getLast? ≠ some '0'
  rw [List.getLast?_reverse]
  intro zero
  rw [zero] at stops
  cases stops

def decimal (negative : Bool) : Decimal where
  negative
  whole := Nat.toDigits 10 (n / scale)
  fraction := fractionDigits n
  digits := by
    intro c member
    rcases List.mem_append.mp member with whole | fraction
    · exact isDigit_wholeDigits n c whole
    · exact isDigit_fractionDigits n c fraction
  some_whole := Nat.toDigits_ne_nil
  first_digit := by
    intro zero
    by_cases pos : 0 < n / scale
    · exact absurd zero (head_toDigits _ pos)
    · rw [Nat.eq_zero_of_not_pos pos]
      rfl
  few_places := length_fractionDigits_le n
  last_digit := getLast_fractionDigits n

theorem unsignedText_decimal (negative : Bool) :
    (decimal n negative).unsignedText = decimalDigits n := by
  rcases decimalDigits_eq n with ⟨eq, none⟩ | ⟨eq, some_digits⟩
  · rw [eq, Decimal.unsignedText]
    show _ ++ (if fractionDigits n = [] then _ else _) = _
    rw [if_pos none, List.append_nil]
    rfl
  · rw [eq, Decimal.unsignedText]
    show _ ++ (if fractionDigits n = [] then _ else _) = _
    rw [if_neg some_digits]
    rfl

theorem value_decimal (negative : Bool) :
    (decimal n negative).value = (signed negative n : ℚ) / (scale : ℚ) := by
  have digits := ofDigitChars_digits n
  have powers := pow_places n
  have widened (k m l : Nat) (pos : 0 < k) :
      (signed negative m : ℚ) / l = (signed negative (k * m) : ℚ) / ((k * l : ℕ) : ℚ) := by
    have nonzero : (k : ℚ) ≠ 0 := by positivity
    rw [Nat.mul_comm k m, signed_mul]
    push_cast
    rw [mul_comm, mul_div_mul_left _ _ nonzero]
  have value := widened (10 ^ (places - (fractionDigits n).length))
    (Nat.ofDigitChars 10 (Nat.toDigits 10 (n / scale) ++ fractionDigits n) 0)
    (10 ^ (fractionDigits n).length) (Nat.pow_pos (by decide))
  rw [digits, powers, Nat.cast_pow] at value
  exact value

def fixedDigits : List Char := Nat.toDigits 10 (n / scale) ++ '.' :: paddedDigits n

/-- Trimming zeros and then the point of all five places stops before the whole part. -/
theorem trimmed_fixedDigits :
    ((fixedDigits n).rdropWhile (· == '0')).rdropWhile (· == '.') = decimalDigits n := by
  have zeros (front : List Char) (k : Nat) :
      (front ++ List.replicate k '0').rdropWhile (· == '0') = front.rdropWhile (· == '0') := by
    induction k with
    | zero => rw [List.replicate_zero, List.append_nil]
    | succ k ih =>
      rw [List.replicate_succ', ← List.append_assoc, List.rdropWhile_concat_pos _ _ _ rfl, ih]
  have ends {front : List Char} {c : Char} (digits : ∀ e ∈ front, e.isDigit = true)
      (other : c.isDigit = false) : front.rdropWhile (· == c) = front := by
    rw [List.rdropWhile_eq_self_iff]
    intro some_digits same
    rw [← beq_iff_eq.mp same, digits _ (List.getLast_mem some_digits)] at other
    cases other
  unfold fixedDigits
  rw [paddedDigits_eq, ← List.cons_append, ← List.append_assoc, zeros]
  rcases decimalDigits_eq n with ⟨eq, none⟩ | ⟨eq, some_digits⟩
  · rw [eq, none, List.rdropWhile_concat_neg _ _ _ (by decide), List.rdropWhile_concat_pos _ _ _ rfl]
    exact ends (isDigit_wholeDigits n) rfl
  · obtain ⟨front, c, fraction⟩ := (List.eq_nil_or_concat' _).resolve_left some_digits
    have last := getLast_fractionDigits n
    have digit := isDigit_fractionDigits n c (by simp [fraction])
    rw [fraction, List.getLast?_concat] at last
    have noZero : ¬ (c == '0') = true := fun zero => last (congrArg some (beq_iff_eq.mp zero))
    have noPoint : ¬ (c == '.') = true := by
      intro point
      rw [beq_iff_eq.mp point] at digit
      cases digit
    rw [eq, fraction, ← List.cons_append, ← List.append_assoc,
      List.rdropWhile_concat_neg (· == '0') _ _ noZero,
      List.rdropWhile_concat_neg (· == '.') _ _ noPoint]

theorem decimalDigits_mul_scale : decimalDigits (n * scale) = Nat.toDigits 10 n := by
  have none : fractionDigits (n * scale) = [] := by
    unfold fractionDigits
    rw [Nat.mul_mod_left]
    rfl
  rcases decimalDigits_eq (n * scale) with ⟨whole, -⟩ | ⟨-, some_digits⟩
  · rw [whole, Nat.mul_div_cancel n scale_pos]
  · exact absurd none some_digits

end Written

section Finite

variable {word : UInt64} (finite : (Float.ofBits word).isFinite = true)
include finite

/-- A finite number is written as its hundred-thousandths, after a minus for the sign bit. -/
theorem render_eq_digits :
    render (Float.ofBits word) = String.ofList
      ((if isNegative word then ['-'] else []) ++ decimalDigits (hundredThousandths word)) := by
  obtain ⟨noNaN, noInfinity⟩ := not_special_of_finite finite
  unfold render
  simp only [noNaN, noInfinity, toBits_of_finite finite, Bool.false_eq_true, if_false]

theorem render_eq_text :
    render (Float.ofBits word) = (decimal (hundredThousandths word) (isNegative word)).text := by
  rw [render_eq_digits finite, Decimal.text, unsignedText_decimal]
  rfl

/-- What is written is at most half a hundred-thousandth away. -/
theorem abs_value_sub_le :
    |(decimal (hundredThousandths word) (isNegative word)).value - exactValue (Float.ofBits word)| ≤
      1 / (2 * scale) := by
  obtain ⟨above, below⟩ := hundredThousandths_bounds word
  rw [value_decimal, exactValue_of_finite finite, abs_signed_sub]
  exact abs_ratio_sub_le scale_pos unitsPerOne_pos above below

theorem hundredThousandths_of_integral {n : ℤ} (integral : exactValue (Float.ofBits word) = n) :
    hundredThousandths word = n.natAbs * scale ∧ signed (isNegative word) n.natAbs = n := by
  have units : (unitsPerOne : ℚ) ≠ 0 := by exact_mod_cast unitsPerOne_pos.ne'
  rw [exactValue_of_finite finite, div_eq_iff units] at integral
  have whole : signed (isNegative word) (magnitude word) = n * unitsPerOne := by
    exact_mod_cast integral
  have multiple : magnitude word = n.natAbs * unitsPerOne := by
    rw [← natAbs_signed (isNegative word) (magnitude word), whole, Int.natAbs_mul, Int.natAbs_natCast]
  constructor
  · rw [hundredThousandths, multiple, Nat.mul_right_comm]
    exact divNearest_mul_self _ unitsPerOne_pos
  · rw [multiple, signed_mul] at whole
    exact Int.eq_of_mul_eq_mul_right (by exact_mod_cast unitsPerOne_pos.ne') whole

theorem value_of_integral {n : ℤ} (integral : exactValue (Float.ofBits word) = n) :
    (decimal (hundredThousandths word) (isNegative word)).value = n := by
  have nonzero : (scale : ℚ) ≠ 0 := by exact_mod_cast scale_pos.ne'
  obtain ⟨rounded, same⟩ := hundredThousandths_of_integral finite integral
  rw [value_decimal, rounded, signed_mul, same, div_eq_iff nonzero]
  push_cast
  rfl

/-- Whole numbers are written without places; all others with five, of which zeros at the end and
then a point at the end are trimmed. -/
theorem render_trimmed :
    (∀ n : ℤ, exactValue (Float.ofBits word) = n → render (Float.ofBits word) =
      String.ofList ((if isNegative word then ['-'] else []) ++ Nat.toDigits 10 n.natAbs)) ∧
    render (Float.ofBits word) = String.ofList ((if isNegative word then ['-'] else []) ++
      ((fixedDigits (hundredThousandths word)).rdropWhile (· == '0')).rdropWhile (· == '.')) := by
  constructor
  · intro n integral
    rw [render_eq_digits finite, (hundredThousandths_of_integral finite integral).1,
      decimalDigits_mul_scale]
  · rw [render_eq_digits finite, trimmed_fixedDigits]

theorem value_mono {other : UInt64} (finite' : (Float.ofBits other).isFinite = true)
    (le : exactValue (Float.ofBits word) ≤ exactValue (Float.ofBits other)) :
    (decimal (hundredThousandths word) (isNegative word)).value ≤
      (decimal (hundredThousandths other) (isNegative other)).value := by
  have units : (0 : ℚ) < unitsPerOne := by exact_mod_cast unitsPerOne_pos
  have pos : (0 : ℚ) < scale := by exact_mod_cast scale_pos
  rw [exactValue_of_finite finite, exactValue_of_finite finite', div_le_div_iff_of_pos_right units,
    Int.cast_le] at le
  rw [value_decimal, value_decimal, div_le_div_iff_of_pos_right pos, Int.cast_le]
  have rounds {m n : Nat} (le : m ≤ n) :
      divNearest (m * scale) unitsPerOne ≤ divNearest (n * scale) unitsPerOne :=
    divNearest_mono unitsPerOne_pos (Nat.mul_le_mul_right scale le)
  have zero : divNearest (0 * scale) unitsPerOne = 0 := by
    have same := divNearest_mul_self 0 unitsPerOne_pos
    rwa [Nat.zero_mul] at same ⊢
  exact signed_mono (f := fun m => divNearest (m * scale) unitsPerOne) rounds zero le

end Finite

/-- Finite numbers are written as the shortest decimals of at most five places that are closest to
them. There is a sign exactly for the sign bit, zero included; a point only before digits, and those
only in what is no whole number; what is written is at most five millionths away; whole numbers are
written exactly; and the order of numbers is that of what is written. -/
theorem render_shortest_decimal (word : UInt64) (finite : (Float.ofBits word).isFinite = true) :
    ∃ d : Decimal, render (Float.ofBits word) = d.text ∧
      (d.negative = true ↔ word.toNat.testBit 63 = true) ∧
      (d.fraction = [] ↔ ∃ n : ℤ, d.value = n) ∧
      |d.value - exactValue (Float.ofBits word)| ≤ 0.000005 ∧
      (∀ n : ℤ, exactValue (Float.ofBits word) = n → d.value = n) ∧
      ∀ other : UInt64, (Float.ofBits other).isFinite = true →
        ∀ d' : Decimal, render (Float.ofBits other) = d'.text →
          exactValue (Float.ofBits word) ≤ exactValue (Float.ofBits other) → d.value ≤ d'.value := by
  refine ⟨_, render_eq_text finite, isNegative_iff word, Decimal.fraction_eq_nil_iff, ?_,
    fun n integral => value_of_integral finite integral, ?_⟩
  · have distance : (1 : ℚ) / (2 * scale) = 0.000005 := by norm_num [scale, places]
    rw [← distance]
    exact abs_value_sub_le finite
  · intro other finite' d' written le
    rw [← Decimal.text_injective ((render_eq_text finite').symm.trans written)]
    exact value_mono finite finite' le

/-- A tie in the sixth place goes to the even neighbour: -1/64 is -0.015625. -/
theorem render_shortest_decimal_tie :
    let word : UInt64 := 0xBF90000000000000
    (Float.ofBits word).isFinite = true ∧ exactValue (Float.ofBits word) = -1 / 64 ∧
      ∃ d : Decimal, d.text = "-0.01562" ∧ d.negative = true ∧ |d.value - -1 / 64| ≤ 0.000005 := by
  intro word
  have finite : (Float.ofBits word).isFinite = true := by decide +kernel
  have written : render (Float.ofBits word) = "-0.01562" := by decide +kernel
  have negative : isNegative word = true := by decide
  have units : unitsPerOne = magnitude word * 64 := by decide +kernel
  have pos : (magnitude word : ℚ) ≠ 0 := by exact_mod_cast (by decide +kernel : magnitude word ≠ 0)
  have known : exactValue (Float.ofBits word) = -1 / 64 := by
    rw [exactValue_of_finite finite, negative, units]
    generalize magnitude word = m at pos
    simp only [signed, if_true]
    push_cast
    field_simp
  obtain ⟨d, text, sign, -, close, -⟩ := render_shortest_decimal word finite
  rw [known] at close
  exact ⟨finite, known, d, text.symm.trans written, sign.mpr (by decide), close⟩

end Number

end Lox

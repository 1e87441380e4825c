import Mathlib
import Lox.Number

/- Words of doubles without sign. A number that is no NaN is known by its word, and a word that was
   rounded to has the magnitude of its significand and binade. -/
namespace Lox.Binary64

open Float.Model (Format)
open Float.Model.UnpackedFloat

/-- A word without sign that is no NaN: a magnitude, or infinity. -/
def Unsigned (word : UInt64) : Prop := word.toNat ≤ infinityWord

section Fields

variable (b : BitVec Format.binary64.numBits)

theorem toNat_unpackExponent : (unpackExponent b).toNat = b.toNat / 2 ^ 52 % 2 ^ 11 := by
  rw [unpackExponent_def, BitVec.extractLsb'_toNat, Nat.shiftRight_eq_div_pow]

theorem toNat_unpackMantissa : (unpackMantissa b).toNat = b.toNat % 2 ^ 52 := by
  rw [unpackMantissa_def, BitVec.extractLsb'_toNat, Nat.shiftRight_zero]

theorem exponent_full_iff (unsigned : b.toNat ≤ infinityWord) :
    unpackExponent b = -1#_ ↔ b.toNat = infinityWord := by
  rw [← BitVec.toNat_inj, toNat_unpackExponent, BitVec.neg_one_eq_allOnes, BitVec.toNat_allOnes]
  unfold infinityWord fractionCount at *
  simp only [Nat.pow_eq] at *
  omega

theorem mantissa_zero_of_infinity (infinite : b.toNat = infinityWord) : unpackMantissa b = 0#_ := by
  rw [← BitVec.toNat_inj, toNat_unpackMantissa, infinite]
  rfl

theorem not_isNaNBits (unsigned : b.toNat ≤ infinityWord) : isNaNBits b = false := by
  unfold isNaNBits
  rw [decide_eq_false_iff_not]
  rintro ⟨full, payload⟩
  exact payload (mantissa_zero_of_infinity b ((exponent_full_iff b unsigned).mp full))

end Fields

section Kept

variable {word : UInt64} (noNaN : @isNaNBits Format.binary64 word.toBitVec = false)
include noNaN

theorem toBits_of_not_nan : (Float.ofBits word).toBits = word := by
  rw [← UInt64.toBitVec_inj]
  show (unpack Format.binary64 word.toBitVec).pack Format.binary64 = word.toBitVec
  rw [pack_unpack, noNaN]
  rfl

theorem unpack_of_not_nan :
    (Float.ofBits word).toModel.unpack = unpack Format.binary64 word.toBitVec :=
  congrArg (fun w : UInt64 => unpack Format.binary64 w.toBitVec) (toBits_of_not_nan noNaN)

end Kept

namespace Unsigned

variable {word : UInt64} (unsigned : Unsigned word)
include unsigned

theorem toBits_ofBits : (Float.ofBits word).toBits = word :=
  toBits_of_not_nan (not_isNaNBits _ unsigned)

theorem unpack_ofBits :
    (Float.ofBits word).toModel.unpack = unpack Format.binary64 word.toBitVec :=
  unpack_of_not_nan (not_isNaNBits _ unsigned)

theorem isNaN_ofBits : (Float.ofBits word).isNaN = false := by
  show (Float.ofBits word).toModel.unpack.isNaN = false
  rw [unsigned.unpack_ofBits, unpack]
  simp only
  split
  · rename_i full
    rw [if_pos (mantissa_zero_of_infinity _ ((exponent_full_iff _ unsigned).mp full))]
    rfl
  · split
    · split <;> rfl
    · rfl

theorem isInf_ofBits : (Float.ofBits word).isInf = true ↔ word.toNat = infinityWord := by
  have full := exponent_full_iff word.toBitVec unsigned
  show (Float.ofBits word).toModel.unpack.isInf = true ↔ word.toBitVec.toNat = infinityWord
  rw [unsigned.unpack_ofBits, ← full, unpack]
  simp only
  split
  · rename_i infinite
    rw [if_pos (mantissa_zero_of_infinity _ (full.mp infinite))]
    exact ⟨fun _ => infinite, fun _ => rfl⟩
  · rename_i finite
    refine ⟨fun infinite => ?_, fun infinite => absurd infinite finite⟩
    split at infinite
    · split at infinite <;> cases infinite
    · cases infinite

theorem isFinite_ofBits : (Float.ofBits word).isFinite = true ↔ word.toNat < infinityWord := by
  have split (x : Float.Model.UnpackedFloat) :
      x.isFinite = true ↔ ¬ x.isNaN = true ∧ ¬ x.isInf = true := by
    cases x <;> simp [isFinite, isNaN, isInf]
  have bounds : word.toNat ≤ infinityWord := unsigned
  have finite : (Float.ofBits word).isFinite = true ↔
      ¬ (Float.ofBits word).isNaN = true ∧ ¬ (Float.ofBits word).isInf = true := split _
  rw [finite, unsigned.isNaN_ofBits, unsigned.isInf_ofBits]
  simp only [Bool.false_eq_true, not_false_eq_true, true_and]
  omega

theorem not_isNegative : isNegative word = false := by
  unfold Unsigned infinityWord fractionCount at unsigned
  unfold isNegative
  simp only [Nat.pow_eq] at *
  rw [beq_eq_false_iff_ne]
  omega

end Unsigned

end Lox.Binary64

namespace Lox

section Rounding

variable {n d q : Nat}

theorem divNearest_bounds (n : Nat) (pos : 0 < d) :
    2 * n ≤ 2 * (divNearest n d * d) + d ∧ 2 * (divNearest n d * d) ≤ 2 * n + d := by
  have split_ := Nat.div_add_mod n d
  have less := Nat.mod_lt n pos
  rw [Nat.mul_comm] at split_
  unfold divNearest
  split
  · omega
  · have step : (n / d + 1) * d = n / d * d + d := Nat.succ_mul _ _
    omega

theorem divNearest_eq_of_close (above : 2 * n < 2 * (q * d) + d) (below : 2 * (q * d) < 2 * n + d) :
    divNearest n d = q := by
  have pos : 0 < d := by omega
  obtain ⟨above', below'⟩ := divNearest_bounds n pos
  rcases Nat.lt_trichotomy (divNearest n d) q with less | same | more
  · have step := Nat.mul_le_mul_right d (Nat.succ_le_of_lt less)
    rw [Nat.succ_mul] at step
    omega
  · exact same
  · have step := Nat.mul_le_mul_right d (Nat.succ_le_of_lt more)
    rw [Nat.succ_mul] at step
    omega

theorem div_le_divNearest (n d : Nat) : n / d ≤ divNearest n d := by
  unfold divNearest
  split <;> omega

theorem divNearest_le_succ (n d : Nat) : divNearest n d ≤ n / d + 1 := by
  unfold divNearest
  split <;> omega

end Rounding

namespace Binary64

/-- A significand for a binade: it has all its bits, or the binade is that of the least magnitudes. One
that was rounded up may have a bit too many. -/
structure Fits (q b : Nat) : Prop where
  small : q ≤ 2 * fractionCount
  full : fractionCount ≤ q ∨ b = 0

section Finite

variable {word : UInt64} (finite : word.toNat < infinityWord)
include finite

theorem fields_eq {e f : Nat} (eq : word.toNat = e * fractionCount + f) (less : f < fractionCount) :
    e < 2047 ∧ exponentField word = e ∧ fractionField word = f := by
  have positive : 0 < fractionCount := Nat.pow_pos Nat.zero_lt_two
  have whole : e * fractionCount < 2047 * fractionCount := by
    rw [eq] at finite
    exact Nat.lt_of_le_of_lt (Nat.le_add_right _ f) finite
  have bound : e < 2047 := Nat.lt_of_mul_lt_mul_right whole
  unfold exponentField fractionField
  rw [eq, Nat.mul_comm, Nat.mul_add_div positive, Nat.mul_add_mod, Nat.div_eq_of_lt less,
    Nat.mod_eq_of_lt less, Nat.add_zero, Nat.mod_eq_of_lt (by omega)]
  exact ⟨bound, rfl, rfl⟩

theorem magnitude_of_fields {e f : Nat} (eq : word.toNat = (e + 1) * fractionCount + f)
    (less : f < fractionCount) : magnitude word = (f + fractionCount) * 2 ^ e := by
  obtain ⟨-, exponent, fraction⟩ := fields_eq finite eq less
  unfold magnitude
  rw [exponent, fraction]
  rfl

theorem Fits.magnitude_eq {q b : Nat} (fits : Fits q b)
    (eq : word.toNat = b * fractionCount + q) : magnitude word = q * 2 ^ b := by
  have positive : 0 < fractionCount := Nat.pow_pos Nat.zero_lt_two
  obtain ⟨small, full⟩ := fits
  by_cases subnormal : q < fractionCount
  · -- Without its highest bit the significand is the whole word.
    obtain rfl : b = 0 := full.resolve_left (by omega)
    obtain ⟨-, exponent, fraction⟩ := fields_eq finite eq subnormal
    unfold magnitude
    rw [exponent, fraction, Nat.pow_zero, Nat.mul_one]
  · by_cases carried : q = 2 * fractionCount
    · have eq' : word.toNat = (b + 1 + 1) * fractionCount + 0 := by rw [eq, carried]; ring
      rw [magnitude_of_fields finite eq' positive, carried]
      ring
    · obtain ⟨f, rfl⟩ := Nat.exists_eq_add_of_le (Nat.le_of_not_lt subnormal)
      have eq' : word.toNat = (b + 1) * fractionCount + f := by rw [eq]; ring
      rw [magnitude_of_fields finite eq' (by omega), Nat.add_comm]

theorem exists_magnitude_eq :
    ∃ m e, magnitude word = m * 2 ^ e ∧ m < 2 * fractionCount ∧ e ≤ 2045 := by
  have positive : 0 < fractionCount := Nat.pow_pos Nat.zero_lt_two
  have less := Nat.mod_lt word.toNat positive
  have eq : word.toNat = word.toNat / fractionCount * fractionCount + word.toNat % fractionCount := by
    rw [Nat.mul_comm, Nat.div_add_mod]
  obtain ⟨bound, exponent, fraction⟩ := fields_eq finite eq less
  unfold magnitude
  rw [exponent, fraction]
  cases field : word.toNat / fractionCount with
  | zero => exact ⟨word.toNat % fractionCount, 0, (Nat.mul_one _).symm, by omega, by omega⟩
  | succ e => exact ⟨_, e, rfl, by omega, by omega⟩

end Finite

section Nearest

variable (n d : Nat)

def binade : Nat := Nat.log2 (n * unitsPerOne / d) - 52

def significand : Nat := divNearest (n * unitsPerOne) (d * 2 ^ binade n d)

theorem toNat_nearest :
    (nearest n d).toNat = min (binade n d * fractionCount + significand n d) infinityWord := by
  have small : min (binade n d * fractionCount + significand n d) infinityWord < 2 ^ 64 :=
    Nat.lt_of_le_of_lt (Nat.min_le_right _ _) (by decide)
  exact UInt64.toNat_ofNat_of_lt' small

theorem nearest_unsigned : Unsigned (nearest n d) := by
  unfold Unsigned
  rw [toNat_nearest]
  exact Nat.min_le_right _ _

variable {n d}

theorem binade_le (later : binade n d ≠ 0) :
    fractionCount * (d * 2 ^ binade n d) ≤ n * unitsPerOne := by
  have exponent : (n * unitsPerOne / d).log2 = 52 + binade n d := by
    unfold binade at later ⊢
    omega
  have some_units : n * unitsPerOne / d ≠ 0 := by
    intro none
    rw [none, Nat.log2_zero] at exponent
    omega
  calc fractionCount * (d * 2 ^ binade n d)
      = 2 ^ (52 + binade n d) * d := by rw [Nat.pow_add, fractionCount]; simp only [Nat.pow_eq]; ring
    _ ≤ n * unitsPerOne / d * d := Nat.mul_le_mul_right d (exponent ▸ Nat.log2_self_le some_units)
    _ ≤ n * unitsPerOne := Nat.div_mul_le_self _ _

variable (pos : 0 < d)
include pos

theorem lt_binade : n * unitsPerOne < 2 * fractionCount * (d * 2 ^ binade n d) := by
  have exponent : (n * unitsPerOne / d).log2 + 1 ≤ 53 + binade n d := by
    unfold binade
    omega
  have less : n * unitsPerOne / d < 2 ^ (53 + binade n d) :=
    Nat.lt_of_lt_of_le Nat.lt_log2_self (Nat.pow_le_pow_right Nat.zero_lt_two exponent)
  calc n * unitsPerOne < 2 ^ (53 + binade n d) * d := (Nat.div_lt_iff_lt_mul pos).mp less
    _ = 2 * fractionCount * (d * 2 ^ binade n d) := by
      rw [Nat.pow_add, fractionCount]; simp only [Nat.pow_eq]; ring

theorem significand_fits : Fits (significand n d) (binade n d) := by
  have room : 0 < d * 2 ^ binade n d := Nat.mul_pos pos (Nat.pow_pos Nat.zero_lt_two)
  constructor
  · have less : n * unitsPerOne / (d * 2 ^ binade n d) < 2 * fractionCount :=
      (Nat.div_lt_iff_lt_mul room).mpr (lt_binade pos)
    exact Nat.le_trans (divNearest_le_succ _ _) less
  · by_cases least : binade n d = 0
    · exact .inr least
    · have le := (Nat.le_div_iff_mul_le room).mpr (binade_le least)
      exact .inl (Nat.le_trans le (div_le_divNearest _ _))

omit pos in
/-- No significand reaches infinity from a binade below the last. -/
theorem put_together_finite {q b : Nat} (lower : b ≤ 2044) (small : q ≤ 2 * fractionCount) :
    b * fractionCount + q < infinityWord := by
  have positive : 0 < fractionCount := Nat.pow_pos Nat.zero_lt_two
  have le := Nat.mul_le_mul_right fractionCount lower
  unfold infinityWord
  omega

/-- A finite word that was rounded to has the magnitude of its significand. -/
theorem magnitude_nearest (finite : (nearest n d).toNat < infinityWord) :
    magnitude (nearest n d) = significand n d * 2 ^ binade n d := by
  refine (significand_fits pos).magnitude_eq finite ?_
  rw [toNat_nearest] at finite ⊢
  omega

end Nearest

end Binary64

namespace Number

open Binary64

theorem scale_pos : 0 < scale := by decide

theorem unitsPerOne_pos : 0 < unitsPerOne := by decide +kernel

theorem unitsPerOne_eq : ∃ n, n = 1074 ∧ unitsPerOne = 2 ^ n := ⟨1074, rfl, by decide +kernel⟩

theorem units_lt_of_coarse {b : Nat} (coarse : 1058 ≤ b) : unitsPerOne < scale * 2 ^ b := by
  obtain ⟨n, exponent, units⟩ := unitsPerOne_eq
  have positive : 0 < 2 ^ b := Nat.pow_pos Nat.zero_lt_two
  have some_scale : scale = 100000 := by decide
  have le : 2 ^ n ≤ 2 ^ (16 + b) := Nat.pow_le_pow_right Nat.zero_lt_two (by omega)
  rw [Nat.pow_add] at le
  rw [units, some_scale]
  omega

theorem lt_units_of_fine {b : Nat} (fine : b ≤ 1057) : scale * 2 ^ b < unitsPerOne := by
  obtain ⟨n, exponent, units⟩ := unitsPerOne_eq
  have positive : 0 < 2 ^ b := Nat.pow_pos Nat.zero_lt_two
  have some_scale : scale = 100000 := by decide
  have le : 2 ^ (17 + b) ≤ 2 ^ n := Nat.pow_le_pow_right Nat.zero_lt_two (by omega)
  rw [Nat.pow_add] at le
  rw [units, some_scale]
  omega

variable {word : UInt64}

theorem hundredThousandths_bounds (word : UInt64) :
    2 * (magnitude word * scale) ≤ 2 * (hundredThousandths word * unitsPerOne) + unitsPerOne ∧
      2 * (hundredThousandths word * unitsPerOne) ≤ 2 * (magnitude word * scale) + unitsPerOne :=
  divNearest_bounds _ unitsPerOne_pos

/-- Where doubles are the less dense ones, a double is a whole number of units of the binade that its
decimal is in. -/
theorem binade_le_of_coarse {m e : Nat} (eq : magnitude word = m * 2 ^ e)
    (less : m < 2 * fractionCount)
    (coarse : 1058 ≤ binade (hundredThousandths word) scale) :
    binade (hundredThousandths word) scale ≤ e := by
  obtain ⟨-, near⟩ := hundredThousandths_bounds word
  have dense := units_lt_of_coarse coarse
  have inside := @binade_le (hundredThousandths word) scale (by omega)
  generalize binade (hundredThousandths word) scale = b at dense inside ⊢
  by_contra lower
  -- A smaller exponent would keep the double below the binade, and by more than the rounding.
  have half : 2 * magnitude word + 2 ^ b ≤ 2 * fractionCount * 2 ^ b := by
    calc 2 * magnitude word + 2 ^ b = m * 2 ^ (e + 1) + 2 ^ b := by rw [eq]; ring
      _ ≤ m * 2 ^ b + 2 ^ b := by
        have le : 2 ^ (e + 1) ≤ 2 ^ b := Nat.pow_le_pow_right Nat.zero_lt_two (by omega)
        exact Nat.add_le_add_right (Nat.mul_le_mul_left m le) _
      _ = (m + 1) * 2 ^ b := (Nat.succ_mul m _).symm
      _ ≤ 2 * fractionCount * 2 ^ b := Nat.mul_le_mul_right _ less
  have scaled : 2 * (magnitude word * scale) + scale * 2 ^ b ≤
      2 * (fractionCount * (scale * 2 ^ b)) := by
    calc 2 * (magnitude word * scale) + scale * 2 ^ b
        = (2 * magnitude word + 2 ^ b) * scale := by ring
      _ ≤ 2 * fractionCount * 2 ^ b * scale := Nat.mul_le_mul_right _ half
      _ = 2 * (fractionCount * (scale * 2 ^ b)) := by ring
  omega

section Finite

variable (finite : word.toNat < infinityWord)
include finite

/-- From 2^36 on doubles are less dense than hundred-thousandths, and the double comes back. -/
theorem significand_of_coarse (coarse : 1058 ≤ binade (hundredThousandths word) scale) :
    (nearest (hundredThousandths word) scale).toNat < infinityWord ∧
      significand (hundredThousandths word) scale * 2 ^ binade (hundredThousandths word) scale =
        magnitude word := by
  obtain ⟨m, e, eq, less, bound⟩ := exists_magnitude_eq finite
  have lower := binade_le_of_coarse eq less coarse
  obtain ⟨above, below⟩ := hundredThousandths_bounds word
  have dense := units_lt_of_coarse coarse
  have small := (@significand_fits (hundredThousandths word) scale scale_pos).small
  have whole : magnitude word = m * 2 ^ (e - binade (hundredThousandths word) scale) *
      2 ^ binade (hundredThousandths word) scale := by
    rw [eq, Nat.mul_assoc, ← Nat.pow_add, Nat.sub_add_cancel lower]
  have rounded : significand (hundredThousandths word) scale =
      m * 2 ^ (e - binade (hundredThousandths word) scale) := by
    have scaled : m * 2 ^ (e - binade (hundredThousandths word) scale) *
        (scale * 2 ^ binade (hundredThousandths word) scale) = magnitude word * scale := by
      rw [whole]; ring
    refine divNearest_eq_of_close ?_ ?_
    · rw [scaled]; omega
    · rw [scaled]; omega
  refine ⟨?_, by rw [rounded, ← whole]⟩
  rw [toNat_nearest]
  refine Nat.lt_of_le_of_lt (Nat.min_le_left _ _) ?_
  generalize binade (hundredThousandths word) scale = b at lower rounded ⊢
  generalize significand (hundredThousandths word) scale = q at small rounded ⊢
  rcases Nat.lt_or_eq_of_le lower with lower | rfl
  · exact put_together_finite (by omega) small
  · rw [Nat.sub_self, Nat.pow_zero, Nat.mul_one] at rounded
    subst rounded
    have le := Nat.mul_le_mul_right fractionCount bound
    unfold infinityWord
    omega

/-- Writing a finite number to five places, reading it and writing it again gives the same
hundred-thousandths. -/
theorem hundredThousandths_nearest :
    (nearest (hundredThousandths word) scale).toNat < infinityWord ∧
      hundredThousandths (nearest (hundredThousandths word) scale) = hundredThousandths word := by
  by_cases coarse : 1058 ≤ binade (hundredThousandths word) scale
  · obtain ⟨finite', same⟩ := significand_of_coarse finite coarse
    refine ⟨finite', ?_⟩
    rw [hundredThousandths, magnitude_nearest scale_pos finite', same]
    rfl
  · have fine : binade (hundredThousandths word) scale ≤ 1057 := by omega
    have finite' : (nearest (hundredThousandths word) scale).toNat < infinityWord := by
      rw [toNat_nearest]
      exact Nat.lt_of_le_of_lt (Nat.min_le_left _ _)
        (put_together_finite (by omega) (significand_fits scale_pos).small)
    refine ⟨finite', ?_⟩
    have dense := lt_units_of_fine fine
    have room : 0 < scale * 2 ^ binade (hundredThousandths word) scale :=
      Nat.mul_pos scale_pos (Nat.pow_pos Nat.zero_lt_two)
    obtain ⟨above, below⟩ := divNearest_bounds (hundredThousandths word * unitsPerOne) room
    have scaled : significand (hundredThousandths word) scale *
        2 ^ binade (hundredThousandths word) scale * scale =
        significand (hundredThousandths word) scale *
          (scale * 2 ^ binade (hundredThousandths word) scale) := by ring
    rw [← significand, ← scaled] at above below
    rw [hundredThousandths, magnitude_nearest scale_pos finite']
    exact divNearest_eq_of_close (by omega) (by omega)

end Finite

end Number

end Lox

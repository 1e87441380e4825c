import Lox.Proofs.Readable
import Lox.Proofs.WrittenNumbers

/- Written numbers, scanned again. The digits of what is written are one number token, after a minus for
   the sign, and the number that they denote is written with the same digits: rounding to five places
   and then to the nearest double leads no further. -/
namespace Lox

namespace Binary64

def withoutSign (word : UInt64) : UInt64 := UInt64.ofNat (word.toNat % Nat.pow 2 63)

section WithoutSign

variable (word : UInt64)

theorem toNat_withoutSign : (withoutSign word).toNat = word.toNat % 2 ^ 63 := by
  have less : word.toNat % 2 ^ 63 < 2 ^ 64 := by omega
  exact UInt64.toNat_ofNat_of_lt' less

theorem magnitude_withoutSign : magnitude (withoutSign word) = magnitude word := by
  have exponent : exponentField (withoutSign word) = exponentField word := by
    unfold exponentField fractionCount
    rw [toNat_withoutSign]
    simp only [Nat.pow_eq]
    omega
  have fraction : fractionField (withoutSign word) = fractionField word := by
    unfold fractionField fractionCount
    rw [toNat_withoutSign]
    simp only [Nat.pow_eq]
    omega
  unfold magnitude
  rw [exponent, fraction]

theorem withoutSign_lt {word : UInt64} (finite : (Float.ofBits word).isFinite = true) :
    (withoutSign word).toNat < infinityWord := by
  have notFull := exponent_not_full finite
  rw [ne_eq, ← BitVec.toNat_inj, toNat_unpackExponent, BitVec.neg_one_eq_allOnes,
    BitVec.toNat_allOnes] at notFull
  rw [toNat_withoutSign]
  unfold infinityWord fractionCount
  have same : word.toBitVec.toNat = word.toNat := rfl
  simp only [Nat.pow_eq, same] at notFull ⊢
  omega

end WithoutSign

end Binary64

namespace Number

open Binary64

theorem hundredThousandths_withoutSign (word : UInt64) :
    hundredThousandths (withoutSign word) = hundredThousandths word := by
  rw [hundredThousandths, magnitude_withoutSign]
  rfl

/-- What the digits of a finite number denote is written with the same digits. -/
theorem render_ofText_decimalDigits {word : UInt64} (finite : (Float.ofBits word).isFinite = true) :
    render (Number.ofText (decimalDigits (hundredThousandths word))) =
      String.ofList (decimalDigits (hundredThousandths word)) := by
  have rounds := hundredThousandths_nearest (withoutSign_lt finite)
  rw [hundredThousandths_withoutSign] at rounds
  obtain ⟨less, same⟩ := rounds
  rw [ofText_decimalDigits, render_ofBits (Nat.le_of_lt less), if_neg (Nat.ne_of_lt less), same]

end Number

section Scans

variable {text : List Char} (fits : Pattern.number.Matches text)
include fits

theorem pieces_number : pieces text = [.token (.number (Number.ofText text)) text] := by
  have fits' : Pattern.number.Matches (String.ofList text).toList := by rwa [String.toList_ofList]
  obtain ⟨p, spells, made⟩ := Token.spelled_number fits'
  simp only [String.toList_ofList] at spells made
  have none : ∀ b ∈ ([] : List Char).head?, isBreak b = true := nofun
  have cut := pieces_taken (spells.takes none)
  rwa [List.append_nil, made, pieces] at cut

theorem newlines_number : newlines text = 0 := by
  rw [newlines, List.count_eq_zero]
  intro member
  rcases fits.of_break member (by decide) with blank | comment | string | unterminated | only
  · cases blank
  · cases comment
  · cases string
  · cases unterminated
  · rw [only] at member
    simp at member

theorem scan_number :
    Scan.ofText (String.ofList text) =
      ⟨[⟨.number (Number.ofText text), String.ofList text, 1⟩, ⟨.eof, "", 1⟩], []⟩ := by
  rw [Scan.ofText_eq, String.toList_ofList, pieces_number fits]
  simp [Scan.ofPieces, Scan.token, tokenOn, Piece.text, newlines_number fits]

theorem scan_minus_number :
    Scan.ofText (String.ofList ('-' :: text)) =
      ⟨[⟨.symbol .minus, "-", 1⟩, ⟨.number (Number.ofText text), String.ofList text, 1⟩,
        ⟨.eof, "", 1⟩], []⟩ := by
  have takes : (Pattern.symbol .minus).Takes ['-'] ('-' :: text) :=
    Pattern.takes_single (by decide) (fun _ same => absurd same (by decide))
      (fun _ _ pair => by cases pair) rfl
  have cut : pieces ('-' :: text) = .token (.symbol .minus) ['-'] :: pieces text :=
    pieces_taken takes
  rw [Scan.ofText_eq, String.toList_ofList, cut, pieces_number fits]
  have line : newlines ['-'] = 0 := by decide
  simp [Scan.ofPieces, Scan.token, tokenOn, Piece.text, newlines_number fits, line]

end Scans

/-- Written numbers can be read again. The text of a finite number without sign is one number token and
nothing else; with the sign bit it is a minus and such a token. Either way the number that the token
denotes is written as the lexeme of the token, so a second reading changes nothing. -/
theorem rendered_number_rescans (word : UInt64) (finite : (Float.ofBits word).isFinite = true) :
    ∃ (digits : String) (x : Float), Number.render x = digits ∧
      (word.toNat.testBit 63 = false →
        Number.render (Float.ofBits word) = digits ∧
        Scan.ofText (Number.render (Float.ofBits word)) =
          ⟨[⟨.number x, digits, 1⟩, ⟨.eof, "", 1⟩], []⟩) ∧
      (word.toNat.testBit 63 = true →
        Number.render (Float.ofBits word) = "-" ++ digits ∧
        Scan.ofText (Number.render (Float.ofBits word)) =
          ⟨[⟨.symbol .minus, "-", 1⟩, ⟨.number x, digits, 1⟩, ⟨.eof, "", 1⟩], []⟩) := by
  have fits := Number.decimalDigits_matches (Number.hundredThousandths word)
  have again := Number.render_ofText_decimalDigits finite
  have written := Number.render_eq_digits finite
  generalize Number.decimalDigits (Number.hundredThousandths word) = digits at fits again written
  refine ⟨String.ofList digits, _, again, ?_, ?_⟩
  · intro unset
    have positive : ¬ Binary64.isNegative word = true := by
      rw [Binary64.isNegative_iff, unset]
      decide
    rw [if_neg positive, List.nil_append] at written
    rw [written]
    exact ⟨rfl, scan_number fits⟩
  · intro signed
    rw [if_pos ((Binary64.isNegative_iff word).mpr signed)] at written
    rw [written]
    refine ⟨String.ofList_append, ?_⟩
    rw [List.singleton_append]
    exact scan_minus_number fits

/-- Next to -2^36 a double has sixteen places, of which five are written. -/
theorem rendered_number_rescans_crossover :
    let word : UInt64 := 0xC230000000000001
    (Float.ofBits word).isFinite = true ∧ word.toNat.testBit 63 = true ∧
      ∃ (digits : String) (x : Float), digits = "68719476736.00002" ∧ Number.render x = digits ∧
        Scan.ofText (Number.render (Float.ofBits word)) =
          ⟨[⟨.symbol .minus, "-", 1⟩, ⟨.number x, digits, 1⟩, ⟨.eof, "", 1⟩], []⟩ := by
  intro word
  have finite : (Float.ofBits word).isFinite = true := by decide +kernel
  have sign : word.toNat.testBit 63 = true := by decide
  have text : Number.render (Float.ofBits word) = "-" ++ "68719476736.00002" := by decide +kernel
  obtain ⟨digits, x, again, -, negative⟩ := rendered_number_rescans word finite
  obtain ⟨written, scanned⟩ := negative sign
  have same : digits = "68719476736.00002" := String.append_right_inj "-" |>.mp (written.symm.trans text)
  exact ⟨finite, sign, digits, x, same, again, scanned⟩

end Lox

import Lox.Proofs.Patterns
import Lox.Proofs.Words

/- Texts of numbers without sign. What is written is digits, with a point between them where a part is
   left after the whole; it denotes the double nearest to its hundred-thousandths, and that double is
   written the same way again. -/
namespace Lox.Number

open Binary64

section Digits

variable (n : Nat)

def paddedDigits : List Char :=
  List.replicate (places - (Nat.toDigits 10 (n % scale)).length) '0' ++ Nat.toDigits 10 (n % scale)

theorem length_paddedDigits : (paddedDigits n).length = places := by
  have less : n % scale < 10 ^ places := Nat.mod_lt n scale_pos
  have le := (Nat.length_toDigits_le_iff (by decide) (by decide)).mpr less
  unfold paddedDigits
  rw [List.length_append, List.length_replicate]
  omega

theorem ofDigitChars_paddedDigits : Nat.ofDigitChars 10 (paddedDigits n) 0 = n % scale := by
  unfold paddedDigits
  rw [Nat.ofDigitChars_append, Nat.ofDigitChars_replicate_zero, Nat.mul_zero,
    Nat.ofDigitChars_ten_toDigits]

theorem paddedDigits_eq :
    paddedDigits n = fractionDigits n ++ List.replicate (places - (fractionDigits n).length) '0' := by
  let zeros := (paddedDigits n).reverse.takeWhile (· == '0')
  have all : zeros = List.replicate zeros.length '0' :=
    List.eq_replicate_of_mem fun c member => by simpa using List.mem_takeWhile_imp member
  have parts : paddedDigits n = fractionDigits n ++ List.replicate zeros.length '0' := by
    calc paddedDigits n = (zeros ++ (paddedDigits n).reverse.dropWhile (· == '0')).reverse := by
          rw [List.takeWhile_append_dropWhile, List.reverse_reverse]
      _ = fractionDigits n ++ zeros.reverse := List.reverse_append
      _ = fractionDigits n ++ List.replicate zeros.length '0' := by
          rw [all, List.reverse_replicate, List.length_replicate]
  have length := congrArg List.length parts
  rw [length_paddedDigits, List.length_append, List.length_replicate] at length
  rw [length, Nat.add_sub_cancel_left]
  exact parts

theorem isDigit_fractionDigits : ∀ c ∈ fractionDigits n, c.isDigit = true := by
  intro c member
  have inside : c ∈ paddedDigits n := by
    rw [paddedDigits_eq]
    exact List.mem_append_left _ member
  rcases List.mem_append.mp inside with zero | digit
  · rw [List.eq_of_mem_replicate zero]
    rfl
  · exact Nat.isDigit_of_mem_toDigits (by decide) (by decide) digit

theorem isDigit_wholeDigits : ∀ c ∈ Nat.toDigits 10 (n / scale), c.isDigit = true :=
  fun _ member => Nat.isDigit_of_mem_toDigits (by decide) (by decide) member

theorem length_fractionDigits_le : (fractionDigits n).length ≤ places := by
  have length := congrArg List.length (paddedDigits_eq n)
  rw [length_paddedDigits, List.length_append] at length
  omega

theorem pow_places :
    10 ^ (places - (fractionDigits n).length) * 10 ^ (fractionDigits n).length = scale := by
  rw [← Nat.pow_add, Nat.sub_add_cancel (length_fractionDigits_le n)]
  rfl

theorem ofDigitChars_digits :
    10 ^ (places - (fractionDigits n).length) *
      Nat.ofDigitChars 10 (Nat.toDigits 10 (n / scale) ++ fractionDigits n) 0 = n := by
  have padded := ofDigitChars_paddedDigits n
  rw [paddedDigits_eq, Nat.ofDigitChars_append, Nat.ofDigitChars_replicate_zero] at padded
  rw [Nat.ofDigitChars_append, Nat.ofDigitChars_ten_toDigits,
    Nat.ofDigitChars_eq_ofDigitChars_zero, Nat.mul_add, padded, ← Nat.mul_assoc, pow_places,
    Nat.div_add_mod]

theorem decimalDigits_eq :
    decimalDigits n = Nat.toDigits 10 (n / scale) ∧ fractionDigits n = [] ∨
      decimalDigits n = Nat.toDigits 10 (n / scale) ++ '.' :: fractionDigits n ∧
        fractionDigits n ≠ [] := by
  unfold decimalDigits
  cases fractionDigits n with
  | nil => exact .inl ⟨rfl, rfl⟩
  | cons c cs => exact .inr ⟨rfl, List.cons_ne_nil c cs⟩

theorem decimalDigits_matches : Pattern.number.Matches (decimalDigits n) := by
  have digits (c : Char) (member : c ∈ Nat.toDigits 10 (n / scale)) : Pattern.Digit c :=
    (isDigit_iff c).mp (isDigit_wholeDigits n c member)
  have others (c : Char) (member : c ∈ fractionDigits n) : Pattern.Digit c :=
    (isDigit_iff c).mp (isDigit_fractionDigits n c member)
  obtain ⟨d, ds, whole⟩ := List.exists_cons_of_ne_nil (@Nat.toDigits_ne_nil (n / scale) 10)
  rw [whole] at digits
  rcases decimalDigits_eq n with ⟨eq, -⟩ | ⟨eq, some_digits⟩
  · rw [eq, whole]
    exact .whole digits
  · obtain ⟨e, es, fraction⟩ := List.exists_cons_of_ne_nil some_digits
    rw [fraction] at others
    rw [eq, whole, fraction]
    exact .decimal digits others

theorem parts_decimalDigits :
    (decimalDigits n).takeWhile Char.isDigit = Nat.toDigits 10 (n / scale) ∧
      ((decimalDigits n).dropWhile Char.isDigit).drop 1 = fractionDigits n := by
  have cut {rest : List Char} (stops : ∀ c ∈ rest.head?, c.isDigit = false) :=
    takeWhile_dropWhile_append (isDigit_wholeDigits n) stops
  rcases decimalDigits_eq n with ⟨eq, none⟩ | ⟨eq, -⟩
  · have parts := @cut [] nofun
    rw [List.append_nil] at parts
    rw [eq, parts.1, parts.2, none]
    exact ⟨rfl, rfl⟩
  · have parts := @cut ('.' :: fractionDigits n) (by rintro c ⟨⟩; rfl)
    rw [eq, parts.1, parts.2]
    exact ⟨rfl, rfl⟩

/-- What is written denotes the double nearest to its hundred-thousandths. -/
theorem ofText_decimalDigits :
    Number.ofText (decimalDigits n) = Float.ofBits (nearest n scale) := by
  have same := nearest_mul (10 ^ (places - (fractionDigits n).length))
    (Nat.ofDigitChars 10 (Nat.toDigits 10 (n / scale) ++ fractionDigits n) 0)
    (10 ^ (fractionDigits n).length) (Nat.pow_pos (by decide))
  rw [ofDigitChars_digits, pow_places] at same
  rw [Number.ofText, (parts_decimalDigits n).1, (parts_decimalDigits n).2, same]
  rfl

end Digits

section Literals

variable {word : UInt64} (unsigned : Unsigned word)
include unsigned

theorem render_ofBits :
    render (Float.ofBits word) =
      if word.toNat = infinityWord then "Infinity"
      else String.ofList (decimalDigits (hundredThousandths word)) := by
  have noNaN : ¬ (Float.ofBits word).isNaN = true := by
    rw [unsigned.isNaN_ofBits]
    exact Bool.false_ne_true
  refine (if_neg noNaN).trans ?_
  rw [unsigned.toBits_ofBits, unsigned.not_isNegative, if_neg Bool.false_ne_true, List.nil_append,
    List.nil_append, String.ofList_toList]
  by_cases infinite : word.toNat = infinityWord
  · rw [if_pos infinite, if_pos (unsigned.isInf_ofBits.mpr infinite)]
  · rw [if_neg infinite, if_neg fun isInf => infinite (unsigned.isInf_ofBits.mp isInf)]

theorem render_of_finite (finite : (Float.ofBits word).isFinite = true) :
    (render (Float.ofBits word)).toList = decimalDigits (hundredThousandths word) := by
  have less := unsigned.isFinite_ofBits.mp finite
  rw [render_ofBits unsigned, if_neg (Nat.ne_of_lt less), String.toList_ofList]

end Literals

variable (text : List Char)

theorem exists_word : ∃ word, Unsigned word ∧ Number.ofText text = Float.ofBits word :=
  ⟨nearest _ _, nearest_unsigned _ _, rfl⟩

theorem isFinite_or_render_eq :
    (Number.ofText text).isFinite = true ∨ render (Number.ofText text) = "Infinity" := by
  obtain ⟨word, unsigned, eq⟩ := exists_word text
  rw [eq, unsigned.isFinite_ofBits, render_ofBits unsigned]
  rcases Nat.lt_or_eq_of_le unsigned with less | eq
  · exact .inl less
  · exact .inr (if_pos eq)

variable {text} (finite : (Number.ofText text).isFinite = true)
include finite

theorem render_matches : Pattern.number.Matches (render (Number.ofText text)).toList := by
  obtain ⟨word, unsigned, eq⟩ := exists_word text
  rw [eq] at finite ⊢
  rw [render_of_finite unsigned finite]
  exact decimalDigits_matches _

/-- The text of what a literal denotes is read as a number that has the same text. -/
theorem render_ofText_render :
    render (Number.ofText (render (Number.ofText text)).toList) = render (Number.ofText text) := by
  obtain ⟨word, unsigned, eq⟩ := exists_word text
  rw [eq] at finite ⊢
  obtain ⟨less, same⟩ := hundredThousandths_nearest (unsigned.isFinite_ofBits.mp finite)
  have later := render_of_finite (Nat.le_of_lt less)
    ((Unsigned.isFinite_ofBits (Nat.le_of_lt less)).mpr less)
  apply String.toList_inj.mp
  rw [render_of_finite unsigned finite, ofText_decimalDigits, later, same]

end Lox.Number

import Lox.Scan
import Mathlib.Data.List.TakeWhile
import Mathlib.Data.Rat.Lemmas
import Mathlib.Algebra.Order.Field.Rat
import Mathlib.Tactic.FieldSimp
import Mathlib.Tactic.Positivity

/- Patterns of source text. The first character tells which patterns can match; a keyword is written
   like an identifier, and otherwise no text matches two patterns. A number stands for the double that
   is nearest to its decimal value. -/
namespace Lox

def Symbol.spelling : Symbol → List Char
  | .leftParen => ['(']
  | .rightParen => [')']
  | .leftBrace => ['{']
  | .rightBrace => ['}']
  | .comma => [',']
  | .dot => ['.']
  | .semicolon => [';']
  | .plus => ['+']
  | .minus => ['-']
  | .star => ['*']
  | .slash => ['/']
  | .equal => ['=']
  | .equalEqual => ['=', '=']
  | .bangEqual => ['!', '=']
  | .greater => ['>']
  | .greaterEqual => ['>', '=']
  | .less => ['<']
  | .lessEqual => ['<', '=']
  | .bang => ['!']

inductive Pattern where
  | blank
  | comment
  | symbol (symbol : Symbol)
  | keyword (word : Keyword)
  | identifier
  | number
  | string
  | unterminated

namespace Pattern

def Space (c : Char) : Prop := c ∈ [' ', '\t', '\r', '\n', '\x0c']
def Letter (c : Char) : Prop := 'a' ≤ c ∧ c ≤ 'z' ∨ 'A' ≤ c ∧ c ≤ 'Z' ∨ c = '_'
def Digit (c : Char) : Prop := '0' ≤ c ∧ c ≤ '9'

inductive Matches : Pattern → List Char → Prop where
  | blank {c : Char} {cs : List Char} (all : ∀ d ∈ c :: cs, Space d) : Matches .blank (c :: cs)
  | comment {cs : List Char} (line : '\n' ∉ cs) : Matches .comment ('/' :: '/' :: cs)
  | symbol (s : Symbol) : Matches (.symbol s) s.spelling
  | keyword (w : Keyword) : Matches (.keyword w) w.text.toList
  | identifier {c : Char} {cs : List Char} (first : Letter c)
      (later : ∀ d ∈ cs, Letter d ∨ Digit d) : Matches .identifier (c :: cs)
  | whole {d : Char} {ds : List Char} (digits : ∀ e ∈ d :: ds, Digit e) :
      Matches .number (d :: ds)
  | decimal {d e : Char} {ds es : List Char} (digits : ∀ f ∈ d :: ds, Digit f)
      (places : ∀ f ∈ e :: es, Digit f) : Matches .number (d :: ds ++ '.' :: e :: es)
  | string {cs : List Char} (body : '"' ∉ cs) : Matches .string ('"' :: cs ++ ['"'])
  | unterminated {cs : List Char} (body : '"' ∉ cs) : Matches .unterminated ('"' :: cs)

def decimalValue (text : List Char) : ℚ :=
  let whole := text.takeWhile (· ≠ '.')
  let places := (text.dropWhile (· ≠ '.')).drop 1
  Nat.ofDigitChars 10 whole 0 + Nat.ofDigitChars 10 places 0 / 10 ^ places.length

/-- The piece for a text of the pattern. A string is what stands between its quotes, a number is the
double for its value. -/
def piece : Pattern → List Char → Piece
  | .blank, text => .blank text
  | .comment, text => .comment text
  | .symbol s, text => .token (.symbol s) text
  | .keyword w, text => .token (.keyword w) text
  | .identifier, text => .token .identifier text
  | .number, text =>
    let value := decimalValue text
    .token (.number (Float.ofBits (Binary64.nearest value.num.toNat value.den))) text
  | .string, text => .token (.string (String.ofList text.tail.dropLast)) text
  | .unterminated, text => .unterminated text

end Pattern

section Characters

theorem isBlank_iff (c : Char) : isBlank c = true ↔ Pattern.Space c := by
  simp [isBlank, Pattern.Space, or_assoc]

theorem isDigit_iff (c : Char) : c.isDigit = true ↔ Pattern.Digit c := by
  simp only [Char.isDigit, Bool.and_eq_true, decide_eq_true_eq]
  exact Iff.rfl

theorem isAlpha_iff (c : Char) :
    c.isAlpha = true ↔ 'a' ≤ c ∧ c ≤ 'z' ∨ 'A' ≤ c ∧ c ≤ 'Z' := by
  delta Char.isAlpha Char.isUpper Char.isLower
  simp only [Bool.or_eq_true, Bool.and_eq_true, decide_eq_true_eq]
  exact or_comm

theorem isWordStart_iff (c : Char) : isWordStart c = true ↔ Pattern.Letter c := by
  simp [isWordStart, Pattern.Letter, isAlpha_iff, or_assoc]

theorem isWordPart_iff (c : Char) :
    isWordPart c = true ↔ Pattern.Letter c ∨ Pattern.Digit c := by
  rw [← isWordStart_iff, ← isDigit_iff, isWordPart, isWordStart, Char.isAlphanum]
  simp only [Bool.or_eq_true]
  exact or_right_comm

inductive Class where
  | blank | word | digit | quote | mark
  deriving DecidableEq

def Class.of (c : Char) : Class :=
  if isBlank c then .blank
  else if isWordStart c then .word
  else if c.isDigit then .digit
  else if c == '"' then .quote
  else .mark

theorem not_blank {p : Char → Bool} {c : Char} (holds : p c = true)
    (apart : [' ', '\t', '\r', '\n', '\x0c'].any p = false := by decide) :
    isBlank c = false := by
  rw [Bool.eq_false_iff]
  intro blank
  exact List.any_eq_false.mp apart c ((isBlank_iff c).mp blank) holds

theorem not_letter {c : Char} (digit : c.isDigit = true) : isWordStart c = false := by
  rw [Bool.eq_false_iff]
  intro start
  obtain ⟨low, high⟩ := (isDigit_iff c).mp digit
  rcases (isWordStart_iff c).mp start with ⟨small, -⟩ | ⟨capital, -⟩ | rfl
  · exact absurd (Char.le_trans small high) (by decide)
  · exact absurd (Char.le_trans capital high) (by decide)
  · exact absurd high (by decide)

theorem Class.of_letter {c : Char} (letter : Pattern.Letter c) : Class.of c = .word := by
  have start := (isWordStart_iff c).mpr letter
  simp [Class.of, not_blank start, start]

theorem Class.of_digit {c : Char} (digit : Pattern.Digit c) : Class.of c = .digit := by
  have digit := (isDigit_iff c).mpr digit
  simp [Class.of, not_blank digit, not_letter digit, digit]

end Characters

section Spellings

theorem Symbol.spelling_cases (s : Symbol) :
    (∃ c, s.spelling = [c] ∧ single? c = some s) ∨
      ∃ c, s.spelling = [c, '='] ∧ withEqual? c = some s := by
  cases s with
  | equalEqual | bangEqual | greaterEqual | lessEqual => exact .inr ⟨_, rfl, rfl⟩
  | _ => exact .inl ⟨_, rfl, rfl⟩

theorem Symbol.spelling_of_single {c : Char} {s : Symbol} (eq : single? c = some s) :
    s.spelling = [c] := by
  unfold single? at eq
  split at eq <;> cases eq <;> rfl

theorem Symbol.spelling_of_withEqual {c : Char} {s : Symbol} (eq : withEqual? c = some s) :
    s.spelling = [c, '='] := by
  unfold withEqual? at eq
  split at eq <;> cases eq <;> rfl

theorem Keyword.ofText_eq_some_iff {text : String} {w : Keyword} :
    Keyword.ofText? text = some w ↔ w.text = text := by
  constructor
  · intro eq
    rw [Keyword.ofText?] at eq
    exact beq_iff_eq.mp (List.find?_some eq :)
  · rintro rfl
    cases w <;> decide

theorem Keyword.isWordPart_text (w : Keyword) : ∀ c ∈ w.text.toList, isWordPart c = true := by
  apply List.all_eq_true.mp
  cases w <;> decide

theorem Keyword.isWordStart_text (w : Keyword) :
    ∃ c cs, w.text.toList = c :: cs ∧ isWordStart c = true := by
  have first : w.text.toList.head?.any isWordStart = true := by cases w <;> decide
  obtain ⟨c, head, start⟩ := (Option.any_eq_true _ _).mp first
  obtain ⟨cs, eq⟩ := List.head?_eq_some_iff.mp head
  exact ⟨c, cs, eq, start⟩

end Spellings

namespace Pattern

def class_ : Pattern → Class
  | .blank => .blank
  | .keyword _ | .identifier => .word
  | .number => .digit
  | .string | .unterminated => .quote
  | .comment | .symbol _ => .mark

variable {p : Pattern} {c : Char} {cs text : List Char}

/-- The first character of a text tells the patterns that can match it. -/
theorem Matches.head (fits : p.Matches text) :
    ∃ c cs, text = c :: cs ∧ Class.of c = p.class_ := by
  cases fits with
  | @blank c cs all =>
    refine ⟨c, cs, rfl, ?_⟩
    simp [Class.of, (isBlank_iff c).mpr (all c List.mem_cons_self), class_]
  | comment => exact ⟨_, _, rfl, rfl⟩
  | symbol s => cases s <;> exact ⟨_, _, rfl, rfl⟩
  | keyword w =>
    obtain ⟨c, cs, eq, start⟩ := w.isWordStart_text
    exact ⟨c, cs, eq, Class.of_letter ((isWordStart_iff c).mp start)⟩
  | identifier first => exact ⟨_, _, rfl, Class.of_letter first⟩
  | whole digits => exact ⟨_, _, rfl, Class.of_digit (digits _ List.mem_cons_self)⟩
  | decimal digits => exact ⟨_, _, rfl, Class.of_digit (digits _ List.mem_cons_self)⟩
  | string => exact ⟨_, _, rfl, rfl⟩
  | unterminated => exact ⟨_, _, rfl, rfl⟩

theorem Matches.class_eq (fits : p.Matches text) (front : text <+: c :: cs) :
    Class.of c = p.class_ := by
  obtain ⟨d, ds, rfl, eq⟩ := fits.head
  obtain ⟨rfl, -⟩ := List.cons_prefix_cons.mp front
  exact eq

theorem not_keyword (other : Class.of c ≠ .word) (front : text <+: c :: cs) (w : Keyword) :
    ¬ (Pattern.keyword w).Matches text :=
  fun fits => other (fits.class_eq front)

theorem length_le_takeWhile {q : Char → Bool} (front : text <+: cs)
    (all : ∀ c ∈ text, q c = true) : text.length ≤ (cs.takeWhile q).length := by
  obtain ⟨rest, rfl⟩ := front
  rw [List.takeWhile_append_of_pos all, List.length_append]
  exact Nat.le_add_right _ _

@[simp] theorem text_piece (p : Pattern) (text : List Char) : (p.piece text).text = text := by
  cases p <;> rfl

theorem spelling_injective {s t : Symbol} (same : s.spelling = t.spelling) : s = t := by
  rcases s.spelling_cases with ⟨c, spelled, known⟩ | ⟨c, spelled, known⟩ <;>
    rcases t.spelling_cases with ⟨d, spelled', known'⟩ | ⟨d, spelled', known'⟩ <;>
    rw [spelled, spelled'] at same <;> cases same <;>
    exact Option.some.inj (known.symm.trans known')

theorem not_unterminated {text : List Char} (fits : Pattern.string.Matches text) :
    ¬ Pattern.unterminated.Matches text := by
  intro fits'
  cases fits
  cases fits' with
  | unterminated plain => exact plain (by simp)

theorem not_symbol {text : List Char} (fits : Pattern.comment.Matches text) (s : Symbol) :
    ¬ (Pattern.symbol s).Matches text := by
  intro fits'
  obtain ⟨rest, rfl⟩ : ∃ rest, text = '/' :: '/' :: rest := by
    cases fits
    exact ⟨_, rfl⟩
  generalize eq : '/' :: '/' :: rest = text at fits'
  cases fits' with
  | symbol => cases s <;> cases eq

/-- Patterns that are taken for the same text are the same. -/
theorem Matches.unique {p q : Pattern} {text : List Char} (fits : p.Matches text)
    (fits' : q.Matches text) (wins : ∀ w, (Pattern.keyword w).Matches text → p = .keyword w)
    (wins' : ∀ w, (Pattern.keyword w).Matches text → q = .keyword w) : p = q := by
  have same : p.class_ = q.class_ := by
    obtain ⟨c, cs, rfl, eq⟩ := fits.head
    rw [← eq, fits'.class_eq List.prefix_rfl]
  cases p with
  | blank => cases q with
    | blank => rfl
    | _ => cases same
  | keyword w => exact (wins' w fits).symm
  | identifier => cases q with
    | keyword w => exact wins w fits'
    | identifier => rfl
    | _ => cases same
  | number => cases q with
    | number => rfl
    | _ => cases same
  | string => cases q with
    | string => rfl
    | unterminated => exact (not_unterminated fits fits').elim
    | _ => cases same
  | unterminated => cases q with
    | unterminated => rfl
    | string => exact (not_unterminated fits' fits).elim
    | _ => cases same
  | comment => cases q with
    | comment => rfl
    | symbol s => exact (not_symbol fits s fits').elim
    | _ => cases same
  | symbol s => cases q with
    | comment => exact (not_symbol fits' s fits).elim
    | symbol t =>
      have spelled {s : Symbol} (fits : (Pattern.symbol s).Matches text) : text = s.spelling := by
        cases fits
        rfl
      rw [spelling_injective ((spelled fits).symm.trans (spelled fits'))]
    | _ => cases same

theorem Matches.ne_nil {p : Pattern} {text : List Char} (fits : p.Matches text) :
    text ≠ [] := by
  obtain ⟨c, cs, rfl, -⟩ := fits.head
  exact List.cons_ne_nil c cs

end Pattern

section Numbers

theorem takeWhile_dropWhile_append {q : Char → Bool} {front rest : List Char}
    (all : ∀ c ∈ front, q c = true) (stops : ∀ c ∈ rest.head?, q c = false) :
    (front ++ rest).takeWhile q = front ∧ (front ++ rest).dropWhile q = rest := by
  rw [List.takeWhile_append_of_pos all, List.dropWhile_append_of_pos all]
  cases rest with
  | nil => simp
  | cons c cs => simp [stops c rfl]

theorem divNearest_mul (k n d : Nat) (pos : 0 < k) :
    divNearest (k * n) (k * d) = divNearest n d := by
  unfold divNearest
  rw [Nat.mul_mod_mul_left, Nat.mul_div_mul_left _ _ pos, Nat.mul_left_comm 2 k]
  simp only [Nat.mul_lt_mul_left pos, Nat.mul_right_inj (Nat.ne_of_gt pos)]

theorem nearest_mul (k n d : Nat) (pos : 0 < k) :
    Binary64.nearest (k * n) (k * d) = Binary64.nearest n d := by
  unfold Binary64.nearest
  simp only [Nat.mul_assoc, Nat.mul_div_mul_left _ _ pos, divNearest_mul _ _ _ pos]

/-- The nearest double depends on the ratio alone. -/
theorem nearest_ratio (n d : Nat) (pos : 0 < d) :
    Binary64.nearest ((n : ℚ) / d).num.toNat ((n : ℚ) / d).den = Binary64.nearest n d := by
  obtain ⟨k, num, den⟩ :=
    Rat.exists_eq_mul_div_num_and_eq_mul_div_den (n : ℤ) (d := (d : ℤ)) (by omega)
  simp only [Int.cast_natCast] at num den
  have nonneg : 0 ≤ ((n : ℚ) / d).num := Rat.num_nonneg.mpr (by positivity)
  obtain ⟨m, eq⟩ := Int.eq_ofNat_of_zero_le nonneg
  have less : 0 < k := by
    have product : 0 < k * ((n : ℚ) / d).den := by omega
    exact pos_of_mul_pos_left product (by positivity)
  obtain ⟨j, rfl⟩ := Int.eq_ofNat_of_zero_le less.le
  rw [eq] at num ⊢
  have num' : n = j * m := by exact_mod_cast num
  have den' : d = j * ((n : ℚ) / d).den := by exact_mod_cast den
  calc Binary64.nearest (Int.toNat m) ((n : ℚ) / d).den
      = Binary64.nearest (j * m) (j * ((n : ℚ) / d).den) :=
        (nearest_mul j m _ (by omega)).symm
    _ = Binary64.nearest n d := by rw [← num', ← den']

theorem ofDigitChars_append_eq (whole places : List Char) :
    (Nat.ofDigitChars 10 (whole ++ places) 0 : ℚ) / (10 ^ places.length : Nat) =
      Nat.ofDigitChars 10 whole 0 + Nat.ofDigitChars 10 places 0 / 10 ^ places.length := by
  rw [Nat.ofDigitChars_append, Nat.ofDigitChars_eq_ofDigitChars_zero]
  push_cast
  field_simp

theorem isDigit_of_digits {ds : List Char} (digits : ∀ d ∈ ds, Pattern.Digit d) :
    ∀ d ∈ ds, d.isDigit = true :=
  fun d member => (isDigit_iff d).mpr (digits d member)

theorem ofText_append {ds rest : List Char} (digits : ∀ d ∈ ds, d.isDigit = true)
    (point : ∀ c ∈ rest.head?, c = '.') :
    Float.ofBits (Binary64.nearest (Pattern.decimalValue (ds ++ rest)).num.toNat
      (Pattern.decimalValue (ds ++ rest)).den) = Number.ofText (ds ++ rest) := by
  have stops : ∀ c ∈ rest.head?, c.isDigit = false := by
    intro c head
    rw [point c head]
    rfl
  have stops' : ∀ c ∈ rest.head?, decide (c ≠ '.') = false := by
    intro c head
    simp [point c head]
  have noPoint : ∀ c ∈ ds, decide (c ≠ '.') = true := by
    intro c member
    refine decide_eq_true fun same => ?_
    have digit := digits c member
    rw [same] at digit
    cases digit
  obtain ⟨whole, later⟩ := takeWhile_dropWhile_append digits stops
  obtain ⟨whole', later'⟩ := takeWhile_dropWhile_append noPoint stops'
  rw [Number.ofText, Pattern.decimalValue, whole, later, whole', later',
    ← ofDigitChars_append_eq, nearest_ratio _ _ (by positivity)]
  rfl

theorem ofText_of_matches {text : List Char} (fits : Pattern.number.Matches text) :
    Pattern.number.piece text = Piece.number text := by
  have payload : Float.ofBits (Binary64.nearest (Pattern.decimalValue text).num.toNat
      (Pattern.decimalValue text).den) = Number.ofText text := by
    cases fits with
    | @whole d ds digits =>
      rw [← List.append_nil (d :: ds)]
      exact ofText_append (isDigit_of_digits digits) nofun
    | decimal digits places =>
      refine ofText_append (isDigit_of_digits digits) ?_
      rintro c ⟨⟩
      rfl
  rw [Pattern.piece, Piece.number, payload]

theorem length_whole_le (cs : List Char) :
    (cs.takeWhile Char.isDigit).length ≤ (Piece.splitNumber cs).1.length := by
  unfold Piece.splitNumber
  split
  · split <;> simp
  · exact Nat.le_refl _

theorem splitNumber_decimal {ds es rest : List Char} {e : Char}
    (digits : ∀ d ∈ ds, d.isDigit = true) (places : ∀ d ∈ e :: es, d.isDigit = true) :
    (Piece.splitNumber (ds ++ '.' :: e :: es ++ rest)).1 =
      ds ++ '.' :: e :: es ++ rest.takeWhile Char.isDigit := by
  have stops : ∀ c ∈ ('.' :: e :: es ++ rest).head?, c.isDigit = false := by
    rintro c ⟨⟩
    rfl
  obtain ⟨whole, later⟩ := takeWhile_dropWhile_append digits stops
  have first := places e List.mem_cons_self
  have others := fun d member => places d (List.mem_cons_of_mem e member)
  rw [List.append_assoc, Piece.splitNumber, whole, later]
  simp [first, List.takeWhile_append_of_pos others]

theorem splitNumber_matches {c : Char} (digit : c.isDigit = true) (cs : List Char) :
    Pattern.number.Matches (Piece.splitNumber (c :: cs)).1 := by
  have whole : (c :: cs).takeWhile Char.isDigit = c :: cs.takeWhile Char.isDigit :=
    List.takeWhile_cons_of_pos digit
  have digits : ∀ d ∈ c :: cs.takeWhile Char.isDigit, Pattern.Digit d := by
    intro d member
    rw [← whole] at member
    exact (isDigit_iff d).mp (List.mem_takeWhile_imp member)
  unfold Piece.splitNumber
  rw [whole]
  dsimp only
  split
  · rename_i d rest eq
    split
    · rename_i first
      refine .decimal digits ?_
      intro e member
      rcases List.mem_cons.mp member with rfl | member
      · exact (isDigit_iff e).mp first
      · exact (isDigit_iff e).mp (List.mem_takeWhile_imp member)
    · exact .whole digits
  · exact .whole digits

end Numbers

end Lox

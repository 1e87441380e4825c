import Lox.Proofs.Munch

/- Lexemes written out again. A blank or a closing parenthesis ends every token, so a text that was a
   token once is the same token wherever one of them or the end of the text comes after it. The lexemes
   of a text, with a space between each two of them, are therefore scanned as the tokens that they came
   from. -/
namespace Lox

def isBreak (c : Char) : Bool := isBlank c || c == ')'

theorem Symbol.not_break_spelling {s : Symbol} (other : s ≠ .rightParen) :
    ∀ c ∈ s.spelling, isBreak c = false := by
  have none : s.spelling.any isBreak = false := by cases s <;> first | decide | exact absurd rfl other
  simpa using none

namespace Pattern

variable {p q : Pattern} {b c : Char} {text : List Char}

structure Spells (p : Pattern) (text : List Char) : Prop where
  fits : p.Matches text
  keyword : ∀ w, (Pattern.keyword w).Matches text → p = .keyword w
  token : (p.piece text).token?.isSome = true

theorem Matches.of_break (fits : q.Matches text) (member : b ∈ text) (breaks : isBreak b = true) :
    q = .blank ∨ q = .comment ∨ q = .string ∨ q = .unterminated ∨ text = [')'] := by
  have one : b ∈ [' ', '\t', '\r', '\n', '\x0c', ')'] := by
    simpa [isBreak, isBlank, or_assoc] using breaks
  have none {r : Char → Bool} (holds : r b = true)
      (apart : [' ', '\t', '\r', '\n', '\x0c', ')'].any r = false := by decide) : False := by
    have unmet := List.any_eq_false.mp apart b one
    exact unmet holds
  cases fits with
  | blank | comment | string | unterminated => simp
  | symbol s =>
    by_cases paren : s = .rightParen
    · simp [paren, Symbol.spelling]
    · rw [Symbol.not_break_spelling paren b member] at breaks
      cases breaks
  | keyword w => exact (none (w.isWordPart_text b member)).elim
  | identifier first later =>
    have part : isWordPart b = true := by
      rw [isWordPart_iff]
      rcases List.mem_cons.mp member with rfl | member
      · exact .inl first
      · exact later b member
    exact (none part).elim
  | whole digits => exact (none ((isDigit_iff b).mpr (digits b member))).elim
  | decimal digits places =>
    have part : (b.isDigit || b == '.') = true := by
      simp only [Bool.or_eq_true, isDigit_iff, beq_iff_eq]
      rcases List.mem_append.mp member with member | member
      · exact .inl (digits b member)
      · rcases List.mem_cons.mp member with rfl | member
        · exact .inr rfl
        · exact .inl (places b member)
    exact (none (r := fun c => c.isDigit || c == '.') part).elim

theorem Spells.ends (spells : p.Spells text) (breaks : isBreak b = true) (more : List Char) :
    ¬ q.Matches (text ++ b :: more) := by
  intro longer
  have inside : q = .blank ∨ q = .comment ∨ q = .string ∨ q = .unterminated := by
    have some_text := List.length_pos_iff.mpr spells.fits.ne_nil
    rcases longer.of_break (List.mem_append_right text List.mem_cons_self) breaks with
      blank | comment | string | unterminated | only
    · exact .inl blank
    · exact .inr (.inl comment)
    · exact .inr (.inr (.inl string))
    · exact .inr (.inr (.inr unterminated))
    · have short := congrArg List.length only
      simp only [List.length_append, List.length_cons, List.length_nil] at short
      omega
  have same : p.class_ = q.class_ := by
    obtain ⟨c, cs, rfl, eq⟩ := spells.fits.head
    rw [← eq, longer.class_eq List.prefix_rfl]
  have token := spells.token
  -- What begins alike and has a break in it is a string for a string and a comment for a symbol.
  cases spells.fits with
  | blank | comment | unterminated => cases token
  | keyword | identifier | whole | decimal =>
    rcases inside with rfl | rfl | rfl | rfl <;> cases same
  | symbol s =>
    rcases inside with rfl | rfl | rfl | rfl <;> try cases same
    generalize eq : s.spelling ++ b :: more = other at longer
    cases longer with
    | comment line =>
      rcases s.spelling_cases with ⟨c, spelled, -⟩ | ⟨c, spelled, -⟩
      · rw [spelled] at eq
        cases eq
        cases breaks
      · rw [spelled] at eq
        cases eq
  | @string cs body =>
    have quoted : '"' ∉ (cs ++ '"' :: b :: more).dropLast ∨ '"' ∉ cs ++ '"' :: b :: more := by
      rcases inside with rfl | rfl | rfl | rfl <;> try cases same
      · generalize eq : '"' :: cs ++ ['"'] ++ b :: more = other at longer
        cases longer with
        | @string cs' body' =>
          have inner : cs ++ '"' :: b :: more = cs' ++ ['"'] := by simpa using eq
          exact .inl (by rwa [inner, List.dropLast_concat])
      · generalize eq : '"' :: cs ++ ['"'] ++ b :: more = other at longer
        cases longer with
        | @unterminated cs' body' =>
          have inner : cs ++ '"' :: b :: more = cs' := by simpa using eq
          exact .inr (by rwa [inner])
    simp at quoted

/-- A token is taken wherever a break or the end comes after it. -/
theorem Spells.takes (spells : p.Spells text) {rest : List Char}
    (stops : ∀ b ∈ rest.head?, isBreak b = true) : p.Takes text (text ++ rest) := by
  refine ⟨List.prefix_append _ _, spells.fits, ?_, spells.keyword⟩
  intro q other within fits
  by_contra longer
  obtain ⟨more, rfl⟩ := List.prefix_of_prefix_length_le (List.prefix_append text rest) within
    (by omega)
  cases more with
  | nil => simp at longer
  | cons b more =>
    obtain ⟨later, rfl⟩ := (List.prefix_append_right_inj text).mp within
    exact spells.ends (stops b rfl) more fits

theorem Spells.head (spells : p.Spells text) : ∃ c cs, text = c :: cs ∧ isBlank c = false := by
  obtain ⟨c, cs, rfl, class_⟩ := spells.fits.head
  refine ⟨c, cs, rfl, ?_⟩
  rw [Bool.eq_false_iff]
  intro blank
  have token := spells.token
  rw [Class.of, if_pos blank] at class_
  cases p with
  | blank => cases token
  | _ => cases class_

theorem takes_space {cs : List Char} (stops : ∀ c ∈ cs.head?, isBlank c = false) :
    Takes .blank [' '] ([' '] ++ cs) := by
  have none : cs.takeWhile isBlank = [] := by
    cases cs with
    | nil => rfl
    | cons c cs => simp [stops c rfl]
  have takes : Takes .blank (' ' :: cs.takeWhile isBlank) (' ' :: cs) := takes_blank rfl
  rwa [none] at takes

end Pattern

def Piece.Spelled (piece : Piece) : Prop :=
  ∃ p text, Pattern.Spells p text ∧ p.piece text = piece

theorem Munches.spelled {cs : List Char} {ps : List Piece} (cut : Munches cs ps) :
    ∀ piece ∈ ps, piece.token?.isSome = true → piece.Spelled := by
  induction cut with
  | done => nofun
  | taken takes others ih =>
    intro piece member token
    rcases List.mem_cons.mp member with rfl | member
    · exact ⟨_, _, ⟨takes.fits, takes.keyword, token⟩, rfl⟩
    · exact ih piece member token
  | unexpected none others ih =>
    intro piece member token
    rcases List.mem_cons.mp member with rfl | member
    · cases token
    · exact ih piece member token

/-- Tokens with a space between each two of them are cut as they are. -/
theorem munches_spaced {ps : List Piece} (tokens : ∀ piece ∈ ps, piece.Spelled) :
    Munches ([' '].intercalate (ps.map Piece.text)) (ps.intersperse (.blank [' '])) := by
  induction ps with
  | nil => exact .done
  | cons piece later ih =>
    have rest := ih fun piece member => tokens piece (List.mem_cons_of_mem _ member)
    obtain ⟨p, text, spells, rfl⟩ := tokens piece List.mem_cons_self
    cases later with
    | nil =>
      have cut := Munches.taken (spells.takes (by simp)) rest
      simpa using cut
    | cons next later =>
      -- The next token begins with no blank, so one space is the whole blank run.
      have stops : ∀ c ∈ ([' '].intercalate ((next :: later).map Piece.text)).head?,
          isBlank c = false := by
        obtain ⟨p', text', spells', rfl⟩ := tokens next (by simp)
        obtain ⟨c, cs, rfl, noBlank⟩ := spells'.head
        intro d head
        cases later <;> simp_all
      have spaced : Munches _ (.blank [' '] :: _) := .taken (Pattern.takes_space stops) rest
      have cut := Munches.taken (spells.takes (by rintro b ⟨⟩; rfl)) spaced
      simpa using cut

theorem filterMap_intersperse {α β : Type} {f : α → Option β} {space : α} (skips : f space = none)
    (as : List α) : (as.intersperse space).filterMap f = as.filterMap f := by
  induction as with
  | nil => rfl
  | cons a as ih =>
    cases as with
    | nil => rfl
    | cons b as => simp [List.filterMap_cons, skips, ih]

section Scanning

variable (ps : List Piece)

def tokenPieces : List Piece := ps.filter (·.token?.isSome)

theorem filterMap_tokenPieces :
    (tokenPieces ps).filterMap Piece.token? = ps.filterMap Piece.token? := by
  induction ps with
  | nil => rfl
  | cons piece ps ih =>
    cases piece with
    | token kind text => exact congrArg ((kind, String.ofList text) :: ·) ih
    | _ => exact ih

theorem lexemes_filterMap :
    (ps.filterMap Piece.token?).map Prod.snd =
      (tokenPieces ps).map fun piece => String.ofList piece.text := by
  induction ps with
  | nil => rfl
  | cons piece ps ih =>
    cases piece with
    | token kind text => exact congrArg (String.ofList text :: ·) ih
    | _ => exact ih

theorem complaints_tokenPieces : (tokenPieces ps).filterMap Piece.complaint? = [] := by
  induction ps with
  | nil => rfl
  | cons piece ps ih => cases piece <;> exact ih

/-- The lexemes of the tokens before the end of the file. -/
def Scan.lexemes (scan : Scan) : List String :=
  (scan.tokens.filter (·.kind ≠ .eof)).map (·.lexeme)

theorem Scan.lexemes_ofText (source : String) :
    (Scan.ofText source).lexemes =
      (tokenPieces (pieces source.toList)).map fun piece => String.ofList piece.text := by
  have none : ∀ found ∈ (pieces source.toList).filterMap Piece.token?,
      decide (found.1 ≠ .eof) = true := by
    simpa using (munches_pieces source.toList).ne_eof
  calc (Scan.ofText source).lexemes
      = (((Scan.ofText source).tokens.map fun t => (t.kind, t.lexeme)).filter
          (·.1 ≠ .eof)).map Prod.snd := by simp [lexemes, List.filter_map, Function.comp_def]
    _ = ((pieces source.toList).filterMap Piece.token?).map Prod.snd := by
        rw [Scan.lexed_ofText, List.filter_append, List.filter_eq_self.mpr none]
        simp
    _ = _ := lexemes_filterMap _

end Scanning

/-- Lexemes can be scanned again. The lexemes of a text, joined by single spaces, are scanned without
complaint into tokens of the same kinds, numbers and strings with their values, and lexemes. -/
theorem lexemes_respell_tokens (source : String) :
    (Scan.ofText (" ".intercalate (Scan.ofText source).lexemes)).diagnostics = [] ∧
      (Scan.ofText (" ".intercalate (Scan.ofText source).lexemes)).tokens.map
          (fun t => (t.kind, t.lexeme)) =
        (Scan.ofText source).tokens.map fun t => (t.kind, t.lexeme) := by
  let lexemes := (Scan.ofText source).lexemes
  let ps := tokenPieces (pieces source.toList)
  have spelled : ∀ piece ∈ ps, piece.Spelled := by
    intro piece member
    obtain ⟨there, token⟩ := List.mem_filter.mp member
    exact (munches_pieces source.toList).spelled piece there token
  have text : (" ".intercalate lexemes).toList = [' '].intercalate (ps.map Piece.text) := by
    simp [lexemes, Scan.lexemes_ofText, ps, Function.comp_def]
  have cut : pieces (" ".intercalate lexemes).toList = ps.intersperse (.blank [' ']) := by
    rw [text]
    exact (munches_pieces _).unique (munches_spaced spelled)
  constructor
  · have messages := Scan.messages_ofText (" ".intercalate lexemes)
    rw [cut, filterMap_intersperse rfl, complaints_tokenPieces] at messages
    exact List.map_eq_nil_iff.mp messages
  · have tokens := Scan.lexed_ofText (" ".intercalate lexemes)
    rw [cut, filterMap_intersperse rfl, filterMap_tokenPieces] at tokens
    exact tokens.trans (Scan.lexed_ofText source).symm

/-- Without the stray character between them, the two slashes would begin a comment. -/
example : (Scan.ofText "/@/").tokens.map (·.lexeme) = ["/", "/", ""] ∧
    (Scan.ofText "/ /").tokens.map (·.lexeme) = ["/", "/", ""] ∧
    (Scan.ofText "//").tokens.map (·.lexeme) = [""] := by decide +kernel

end Lox

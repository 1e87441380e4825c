import Lox.Proofs.Patterns
import Lox.Proofs.Spans

/- Source text cut at the longest match of any pattern. What is taken at a place is determined, the
   text and the pattern, so a text can be cut in one way only; where nothing matches, one character is
   passed over. The tokens of a scan are those of the pieces. -/
namespace Lox

namespace Pattern

/-- The pattern and the text that are taken at the front of `cs`: no pattern matches a longer text
there, and a keyword is not taken for an identifier. -/
structure Takes (p : Pattern) (text cs : List Char) : Prop where
  front : text <+: cs
  fits : p.Matches text
  longest : ∀ (q : Pattern) other, other <+: cs → q.Matches other → other.length ≤ text.length
  keyword : ∀ w, (Pattern.keyword w).Matches text → p = .keyword w

end Pattern

/-- A text cut into pieces, each by the pattern that is taken at its place. -/
inductive Munches : List Char → List Piece → Prop where
  | done : Munches [] []
  | taken {p : Pattern} {text rest : List Char} {later : List Piece}
      (takes : p.Takes text (text ++ rest)) (others : Munches rest later) :
      Munches (text ++ rest) (p.piece text :: later)
  | unexpected {c : Char} {rest : List Char} {later : List Piece}
      (none : ∀ (p : Pattern) text, text <+: c :: rest → ¬ p.Matches text)
      (others : Munches rest later) : Munches (c :: rest) (.unexpected c :: later)

namespace Pattern

variable {p : Pattern} {c : Char} {cs text : List Char}

theorem takes_blank (blank : isBlank c = true) :
    Takes .blank (c :: cs.takeWhile isBlank) (c :: cs) := by
  have all : (c :: cs).takeWhile isBlank = c :: cs.takeWhile isBlank :=
    List.takeWhile_cons_of_pos blank
  rw [← all]
  have class_ : Class.of c = .blank := by simp [Class.of, blank]
  refine ⟨List.takeWhile_prefix _, ?_, ?_, ?_⟩
  · rw [all]
    refine .blank fun d member => (isBlank_iff d).mp ?_
    rw [← all] at member
    exact List.mem_takeWhile_imp member
  · intro q other front fits
    have same := fits.class_eq front
    rw [class_] at same
    cases fits with
    | blank spaces =>
      exact length_le_takeWhile front fun d member => (isBlank_iff d).mpr (spaces d member)
    | _ => cases same
  · exact fun w fits => (not_keyword (by rw [class_]; decide) (List.takeWhile_prefix _) w fits).elim

def ofWord (text : List Char) : Pattern :=
  match Keyword.ofText? (String.ofList text) with
  | some w => .keyword w
  | none => .identifier

theorem piece_ofWord (text : List Char) : (ofWord text).piece text = Piece.word text := by
  unfold ofWord Piece.word
  cases Keyword.ofText? (String.ofList text) <;> rfl

theorem keyword_matches_iff {w : Keyword} :
    (Pattern.keyword w).Matches text ↔ Keyword.ofText? (String.ofList text) = some w := by
  rw [Keyword.ofText_eq_some_iff]
  constructor
  · rintro ⟨⟩
    exact String.ofList_toList.symm
  · intro eq
    have same : w.text.toList = text := by rw [eq, String.toList_ofList]
    rw [← same]
    exact .keyword w

theorem takes_word (start : isWordStart c = true) :
    (ofWord (c :: cs.takeWhile isWordPart)).Takes (c :: cs.takeWhile isWordPart) (c :: cs) := by
  have letter := (isWordStart_iff c).mp start
  have all : (c :: cs).takeWhile isWordPart = c :: cs.takeWhile isWordPart :=
    List.takeWhile_cons_of_pos ((isWordPart_iff c).mpr (.inl letter))
  have class_ : Class.of c = .word := Class.of_letter letter
  refine ⟨?_, ?_, ?_, ?_⟩
  · rw [← all]
    exact List.takeWhile_prefix _
  · unfold ofWord
    split
    · rename_i w found
      exact keyword_matches_iff.mpr found
    · exact .identifier letter fun d member => (isWordPart_iff d).mp (List.mem_takeWhile_imp member)
  · intro q other front fits
    have same := fits.class_eq front
    rw [class_] at same
    rw [← all]
    cases fits with
    | keyword w => exact length_le_takeWhile front w.isWordPart_text
    | @identifier d ds first later =>
      refine length_le_takeWhile front fun e member => (isWordPart_iff e).mpr ?_
      rcases List.mem_cons.mp member with rfl | member
      · exact .inl first
      · exact later e member
    | _ => cases same
  · intro w fits
    rw [ofWord, keyword_matches_iff.mp fits]

theorem takes_number (digit : c.isDigit = true) (cs : List Char) :
    Takes .number (Piece.splitNumber (c :: cs)).1 (c :: cs) := by
  have class_ : Class.of c = .digit := Class.of_digit ((isDigit_iff c).mp digit)
  have front : (Piece.splitNumber (c :: cs)).1 <+: c :: cs :=
    ⟨_, Piece.splitNumber_append (c :: cs)⟩
  refine ⟨front, splitNumber_matches digit cs, ?_, ?_⟩
  · intro q other within fits
    have same := fits.class_eq within
    rw [class_] at same
    cases fits with
    | whole digits =>
      exact Nat.le_trans (length_le_takeWhile within (isDigit_of_digits digits))
        (length_whole_le (c :: cs))
    | decimal digits places =>
      obtain ⟨rest, eq⟩ := within
      rw [← eq, splitNumber_decimal (isDigit_of_digits digits) (isDigit_of_digits places)]
      exact (List.prefix_append _ _).length_le
    | _ => cases same
  · exact fun w fits => (not_keyword (by rw [class_]; decide) front w fits).elim

theorem length_le_body {body rest other : List Char} (plain : '"' ∉ body) (within : '"' ∉ other)
    (front : other <+: body ++ '"' :: rest) : other.length ≤ body.length := by
  have unquoted {cs : List Char} (plain : '"' ∉ cs) : ∀ c ∈ cs, (c != '"') = true := by
    intro c member
    exact bne_iff_ne.mpr fun same => plain (same ▸ member)
  have all := length_le_takeWhile front (unquoted within)
  rwa [(takeWhile_dropWhile_append (unquoted plain) (by rintro c ⟨⟩; rfl)).1] at all

theorem takes_string {body : List Char} (plain : '"' ∉ body) (rest : List Char) :
    Takes .string ('"' :: body ++ ['"']) ('"' :: (body ++ '"' :: rest)) := by
  have front : '"' :: body ++ ['"'] <+: '"' :: (body ++ '"' :: rest) := ⟨rest, by simp⟩
  refine ⟨front, .string plain, ?_, fun w fits => (not_keyword (by decide) front w fits).elim⟩
  intro q other within fits
  have same := fits.class_eq within
  cases fits with
  | @string cs quoted =>
    have inner : cs <+: body ++ '"' :: rest :=
      (List.prefix_append cs ['"']).trans (List.cons_prefix_cons.mp within).2
    have le := length_le_body plain quoted inner
    simpa using le
  | @unterminated cs quoted =>
    have le := length_le_body plain quoted (List.cons_prefix_cons.mp within).2
    simp only [List.length_append, List.length_cons]
    omega
  | _ => cases same

theorem takes_unterminated {body : List Char} (plain : '"' ∉ body) :
    Takes .unterminated ('"' :: body) ('"' :: body) := by
  refine ⟨List.prefix_rfl, .unterminated plain, fun q other within _ => within.length_le, ?_⟩
  exact fun w fits => (not_keyword (by decide) List.prefix_rfl w fits).elim

theorem takes_splitString (cs : List Char) :
    ∃ p text, (p : Pattern).Takes text ('"' :: cs) ∧
      p.piece text = (Piece.splitString cs).1 := by
  have plain : '"' ∉ cs.takeWhile (· != '"') := fun member => by
    simpa using List.mem_takeWhile_imp member
  have split := List.takeWhile_append_dropWhile (p := (· != '"')) (l := cs)
  unfold Piece.splitString
  cases stop : cs.dropWhile (· != '"') with
  | nil =>
    rw [stop, List.append_nil] at split
    have takes := takes_unterminated plain
    refine ⟨.unterminated, _, ?_, rfl⟩
    rwa [split] at takes ⊢
  | cons quote rest =>
    have closes : quote = '"' := by
      have head := List.head?_dropWhile_not (· != '"') cs
      rw [stop] at head
      simpa using head
    subst closes
    have takes := takes_string plain rest
    rw [← stop, split] at takes
    refine ⟨.string, _, takes, ?_⟩
    simp [piece]

theorem marks {q : Pattern} {other : List Char} (mark : Class.of c = .mark)
    (within : other <+: c :: cs) (fits : q.Matches other) :
    (∃ rest, other = '/' :: '/' :: rest ∧ '\n' ∉ rest) ∨ ∃ s : Symbol, other = s.spelling := by
  have same := fits.class_eq within
  rw [mark] at same
  cases fits with
  | comment line => exact .inl ⟨_, rfl, line⟩
  | symbol s => exact .inr ⟨s, rfl⟩
  | _ => cases same

theorem length_spelling_le (s : Symbol) : s.spelling.length ≤ 2 := by
  cases s <;> decide

theorem takes_comment (rest : List Char) :
    Takes .comment ('/' :: '/' :: rest.takeWhile (· != '\n')) ('/' :: '/' :: rest) := by
  have front : '/' :: '/' :: rest.takeWhile (· != '\n') <+: '/' :: '/' :: rest := by
    simpa using List.takeWhile_prefix _
  refine ⟨front, .comment ?_, ?_, fun w fits => (not_keyword (by decide) front w fits).elim⟩
  · intro member
    simpa using List.mem_takeWhile_imp member
  · intro q other within fits
    rcases marks (by decide) within fits with ⟨body, rfl, line⟩ | ⟨s, rfl⟩
    · have inner : body <+: rest := by simpa using within
      have le := length_le_takeWhile (q := (· != '\n')) inner fun c member =>
        bne_iff_ne.mpr fun same => line (same ▸ member)
      simpa using le
    · exact Nat.le_trans (length_spelling_le s) (by simp)

theorem takes_pair {s : Symbol} {rest : List Char} (mark : Class.of c = .mark)
    (pair : Symbol.withEqual? c = some s) :
    Takes (.symbol s) [c, '='] (c :: '=' :: rest) := by
  have front : [c, '='] <+: c :: '=' :: rest := ⟨rest, rfl⟩
  have spelled := Symbol.spelling_of_withEqual pair
  refine ⟨front, spelled ▸ .symbol s, ?_,
    fun w fits => (not_keyword (by rw [mark]; decide) front w fits).elim⟩
  intro q other within fits
  rcases marks mark within fits with ⟨body, rfl, -⟩ | ⟨s, rfl⟩
  · simp at within
  · exact length_spelling_le s

section Single

variable (mark : Class.of c = .mark) (noComment : ∀ rest, c = '/' → cs = '/' :: rest → False)
  (noPair : ∀ s rest, Symbol.withEqual? c = some s → cs = '=' :: rest → False)
include mark noComment noPair

theorem single_of_matches {q : Pattern} {other : List Char} (within : other <+: c :: cs)
    (fits : q.Matches other) : other = [c] ∧ ∃ s, Symbol.single? c = some s := by
  rcases marks mark within fits with ⟨body, rfl, -⟩ | ⟨s, rfl⟩
  · obtain ⟨same, rest, eq⟩ := List.cons_prefix_cons.mp within
    exact (noComment _ same.symm eq.symm).elim
  · rcases s.spelling_cases with ⟨d, spelled, single⟩ | ⟨d, spelled, pair⟩
    · rw [spelled] at within ⊢
      obtain ⟨rfl, -⟩ := List.cons_prefix_cons.mp within
      exact ⟨rfl, s, single⟩
    · rw [spelled] at within
      obtain ⟨rfl, rest, eq⟩ := List.cons_prefix_cons.mp within
      exact (noPair s _ pair eq.symm).elim

theorem takes_single {s : Symbol} (single : Symbol.single? c = some s) :
    Takes (.symbol s) [c] (c :: cs) := by
  have front : [c] <+: c :: cs := ⟨cs, rfl⟩
  refine ⟨front, Symbol.spelling_of_single single ▸ .symbol s, ?_,
    fun w fits => (not_keyword (by rw [mark]; decide) front w fits).elim⟩
  intro q other within fits
  rw [(single_of_matches mark noComment noPair within fits).1]

end Single

theorem takes_splitSymbol (mark : Class.of c = .mark) (cs : List Char) :
    (∃ p text, (p : Pattern).Takes text (c :: cs) ∧
      p.piece text = (Piece.splitSymbol c cs).1) ∨
    (Piece.splitSymbol c cs).1 = .unexpected c ∧
      ∀ (p : Pattern) text, text <+: c :: cs → ¬ p.Matches text := by
  unfold Piece.splitSymbol
  split
  · exact .inl ⟨.comment, _, takes_comment _, rfl⟩
  · rename_i noComment
    split
    · rename_i s rest pair
      exact .inl ⟨.symbol s, _, takes_pair mark pair, rfl⟩
    · rename_i noPair
      split
      · rename_i s single
        exact .inl ⟨.symbol s, [c], takes_single mark noComment noPair single, rfl⟩
      · rename_i none
        refine .inr ⟨rfl, fun p text within fits => ?_⟩
        obtain ⟨-, s, single⟩ := single_of_matches mark noComment noPair within fits
        rw [none] at single
        cases single

/-- The first piece of a text is the one for the pattern that is taken there. -/
theorem takes_first (c : Char) (cs : List Char) :
    (∃ p text, (p : Pattern).Takes text (c :: cs) ∧ p.piece text = (Piece.first c cs).1) ∨
    (Piece.first c cs).1 = .unexpected c ∧
      ∀ (p : Pattern) text, text <+: c :: cs → ¬ p.Matches text := by
  unfold Piece.first
  split
  · rename_i blank
    exact .inl ⟨.blank, _, takes_blank blank, rfl⟩
  · rename_i noBlank
    split
    · rename_i start
      exact .inl ⟨_, _, takes_word start, piece_ofWord _⟩
    · rename_i noWord
      split
      · rename_i digit
        have takes := takes_number digit cs
        exact .inl ⟨.number, _, takes, ofText_of_matches takes.fits⟩
      · rename_i noDigit
        split
        · rename_i quote
          cases beq_iff_eq.mp quote
          exact .inl (takes_splitString cs)
        · rename_i noQuote
          refine takes_splitSymbol ?_ cs
          simp [Class.of, noBlank, noWord, noDigit, noQuote]

/-- At each place one text is taken, by one pattern. -/
theorem Takes.unique {p q : Pattern} {text other cs : List Char} (takes : p.Takes text cs)
    (takes' : q.Takes other cs) : p = q ∧ text = other := by
  have le := takes'.longest p text takes.front takes.fits
  have ge := takes.longest q other takes'.front takes'.fits
  have same : text = other :=
    (List.prefix_of_prefix_length_le takes.front takes'.front le).eq_of_length (by omega)
  subst same
  exact ⟨takes.fits.unique takes'.fits takes.keyword takes'.keyword, rfl⟩

theorem Takes.at_end {text rest : List Char} (takes : Takes .unterminated text (text ++ rest)) :
    rest = [] := by
  cases rest with
  | nil => rfl
  | cons c rest =>
    have longer (q : Pattern) : ¬ q.Matches (text ++ [c]) := by
      intro fits
      have le := takes.longest q (text ++ [c]) ⟨rest, by simp⟩ fits
      simp at le
    obtain ⟨body, rfl, plain⟩ : ∃ body, text = '"' :: body ∧ '"' ∉ body := by
      cases takes.fits with
      | unterminated plain => exact ⟨_, rfl, plain⟩
    by_cases quote : c = '"'
    · subst quote
      exact (longer .string (.string plain)).elim
    · have plain' : '"' ∉ body ++ [c] := by simpa using ⟨plain, fun same => quote same.symm⟩
      exact (longer .unterminated (.unterminated plain')).elim

end Pattern

theorem munches_pieces (cs : List Char) : Munches cs (pieces cs) := by
  fun_induction pieces cs with
  | case1 => exact .done
  | case2 c cs step ih =>
    have split := Piece.first_append c cs
    rcases Pattern.takes_first c cs with ⟨p, text, takes, eq⟩ | ⟨eq, none⟩
    · rw [← eq, Pattern.text_piece] at split
      rw [← split] at takes ⊢
      rw [show step.1 = p.piece text from eq.symm]
      exact .taken takes ih
    · rw [eq] at split
      have rest : step.2 = cs := (List.cons.inj split).2
      rw [rest] at ih ⊢
      rw [show step.1 = .unexpected c from eq]
      exact .unexpected none ih

/-- A text can be cut in one way only. -/
theorem Munches.unique {cs : List Char} {ps qs : List Piece} (cut : Munches cs ps)
    (cut' : Munches cs qs) : ps = qs := by
  induction cut generalizing qs with
  | done =>
    generalize eq : ([] : List Char) = cs at cut'
    cases cut' with
    | done => rfl
    | taken takes =>
      exact absurd (List.append_eq_nil_iff.mp eq.symm).1 takes.fits.ne_nil
    | unexpected => cases eq
  | @taken p text rest later takes others ih =>
    generalize eq : text ++ rest = cs at cut' takes
    cases cut' with
    | done => exact absurd (List.append_eq_nil_iff.mp eq).1 takes.fits.ne_nil
    | taken takes' others' =>
      obtain ⟨rfl, rfl⟩ := takes.unique takes'
      rw [ih (List.append_cancel_left eq ▸ others')]
    | unexpected none => exact (none p text takes.front takes.fits).elim
  | @unexpected c rest later none others ih =>
    generalize eq : c :: rest = cs at cut' none
    cases cut' with
    | done => cases eq
    | taken takes' => exact (none _ _ takes'.front takes'.fits).elim
    | unexpected _ others' =>
      cases eq
      rw [ih others']

theorem pieces_taken {p : Pattern} {text rest : List Char} (takes : p.Takes text (text ++ rest)) :
    pieces (text ++ rest) = p.piece text :: pieces rest :=
  (munches_pieces _).unique (.taken takes (munches_pieces rest))

theorem Munches.unterminated_last {cs : List Char} {ps : List Piece} (cut : Munches cs ps)
    {before after : List Piece} {text : List Char} (eq : ps = before ++ .unterminated text :: after) :
    after = [] := by
  induction cut generalizing before with
  | done => simp at eq
  | @taken p text' rest later takes others ih =>
    cases before with
    | cons first before => exact ih (List.cons.inj eq).2
    | nil =>
      obtain ⟨piece, rfl⟩ := List.cons.inj eq
      cases p with
      | unterminated =>
        have none := takes.at_end
        subst none
        exact Munches.unique others .done
      | _ => cases piece
  | unexpected none others ih =>
    cases before with
    | cons first before => exact ih (List.cons.inj eq).2
    | nil => cases eq

namespace Piece

def token? : Piece → Option (Kind × String)
  | .token kind text => some (kind, String.ofList text)
  | _ => none

/-- What is said of a piece that is no token and cannot be left out. -/
def complaint? : Piece → Option String
  | .unterminated _ => some "Unterminated string."
  | .unexpected _ => some "Unexpected character."
  | _ => none

end Piece

theorem Munches.ne_eof {cs : List Char} {ps : List Piece} (cut : Munches cs ps) :
    ∀ found ∈ ps.filterMap Piece.token?, found.1 ≠ .eof := by
  induction cut with
  | done => nofun
  | @taken p text rest later takes others ih =>
    intro found member
    cases p with
    | blank | comment | unterminated => exact ih found member
    | _ =>
      rcases List.mem_cons.mp member with rfl | member
      · nofun
      · exact ih found member
  | unexpected none others ih => exact ih

theorem tokens_ofPieces (line : Nat) (ps : List Piece) :
    (Scan.ofPieces line ps).tokens.map (fun t => (t.kind, t.lexeme)) =
      ps.filterMap Piece.token? ++ [(.eof, "")] := by
  induction ps generalizing line with
  | nil => rfl
  | cons piece rest ih =>
    have later := ih (line + newlines piece.text)
    cases piece with
    | token kind text => exact congrArg ((kind, String.ofList text) :: ·) later
    | _ => exact later

theorem Scan.lexed_ofText (source : String) :
    (Scan.ofText source).tokens.map (fun t => (t.kind, t.lexeme)) =
      (pieces source.toList).filterMap Piece.token? ++ [(.eof, "")] := by
  rw [Scan.ofText_eq]
  exact tokens_ofPieces 1 _

theorem Scan.exists_eof (source : String) : ∃ t ∈ (Scan.ofText source).tokens, t.kind = .eof := by
  have last : ((.eof, "") : Kind × String) ∈
      (Scan.ofText source).tokens.map fun t => (t.kind, t.lexeme) := by
    rw [Scan.lexed_ofText]
    exact List.mem_append_right _ (List.mem_singleton_self _)
  obtain ⟨t, member, eq⟩ := List.mem_map.mp last
  exact ⟨t, member, congrArg Prod.fst eq⟩

theorem diagnostics_ofPieces (line : Nat) (ps : List Piece) :
    (Scan.ofPieces line ps).diagnostics.map (·.message) = ps.filterMap Piece.complaint? := by
  induction ps generalizing line with
  | nil => rfl
  | cons piece rest ih =>
    have later := ih (line + newlines piece.text)
    cases piece with
    | unterminated text => exact congrArg ("Unterminated string." :: ·) later
    | unexpected c => exact congrArg ("Unexpected character." :: ·) later
    | _ => exact later

theorem Scan.messages_ofText (source : String) :
    (Scan.ofText source).diagnostics.map (·.message) =
      (pieces source.toList).filterMap Piece.complaint? := by
  rw [Scan.ofText_eq]
  exact diagnostics_ofPieces 1 _

/-- Scanning cuts a text at the longest match and loses nothing. There is one way to cut it; all
characters are kept, and a string without its end is the last piece. The tokens are those of the
pieces, with one end-of-file token after them, and each other piece that is neither blank nor a
comment is reported, in order. -/
theorem scan_longest_match (source : String) :
    ∃ cut, (∀ ps, Munches source.toList ps ↔ ps = cut) ∧
      cut.flatMap Piece.text = source.toList ∧
      (∀ before text after, cut = before ++ .unterminated text :: after → after = []) ∧
      (Scan.ofText source).tokens.map (fun t => (t.kind, t.lexeme)) =
        cut.filterMap Piece.token? ++ [(.eof, "")] ∧
      (∀ found ∈ cut.filterMap Piece.token?, found.1 ≠ .eof) ∧
      (Scan.ofText source).diagnostics.map (·.message) = cut.filterMap Piece.complaint? := by
  have cut := munches_pieces source.toList
  refine ⟨pieces source.toList, ?_, flatMap_text_pieces _, ?_, Scan.lexed_ofText _, cut.ne_eof,
    Scan.messages_ofText _⟩
  · intro ps
    constructor
    · intro other
      exact other.unique cut
    · rintro rfl
      exact cut
  · intro before text after eq
    exact cut.unterminated_last eq

end Lox
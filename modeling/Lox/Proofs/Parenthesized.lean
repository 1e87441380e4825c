import Lox.Proofs.Readable
import Lox.Proofs.Residue
import Lox.Proofs.Seams

/- Expressions written out again with all operations in parentheses. What is written is scanned as the
   words that it was put together from, since a space or a closing parenthesis comes after each of
   them; and parentheses leave one way to read it. -/
namespace Lox

/-- The text of an expression with each operation in parentheses; none for assignments and calls. -/
def Expr.parenthesized? : Expr → Option String
  | .literal (.string s) => some ("\"" ++ s ++ "\"")
  | .literal l => some l.render
  | .grouping e => e.parenthesized?.map fun t => "(" ++ t ++ ")"
  | .unary op e => e.parenthesized?.map fun t => "(" ++ op.lexeme ++ t ++ ")"
  | .binary a op b | .logical a op b => do
    let t ← a.parenthesized?
    let u ← b.parenthesized?
    return "(" ++ t ++ " " ++ op.lexeme ++ " " ++ u ++ ")"
  | .reference name => some name.lexeme
  | .assign _ _ | .call _ _ _ => none

abbrev Lexed := Kind × String

def Token.lexed (t : Token) : Lexed := (t.kind, t.lexeme)

section Texts

def lexed (cs : List Char) : List Lexed := (pieces cs).filterMap Piece.token?

def complaints (cs : List Char) : List String := (pieces cs).filterMap Piece.complaint?

def Breaks (rest : List Char) : Prop := ∀ c ∈ rest.head?, isBreak c = true

def Begins (text : List Char) : Prop := ∃ c cs, text = c :: cs ∧ isBlank c = false

def Apart (text : List Char) : Prop := ∀ c ∈ text.head?, c ≠ '='

def Found (text : List Char) (tokens : List Lexed) (rest : List Char) : Prop :=
  lexed text = tokens ++ lexed rest ∧ complaints text = complaints rest

/-- Before a break the text is these tokens and nothing else. -/
def Cuts (text : List Char) (tokens : List Lexed) : Prop :=
  ∀ rest, Breaks rest → Found (text ++ rest) tokens rest

theorem Found.trans {text rest rest' : List Char} {tokens tokens' : List Lexed}
    (found : Found text tokens rest) (found' : Found rest tokens' rest') :
    Found text (tokens ++ tokens') rest' := by
  constructor
  · rw [found.1, found'.1, List.append_assoc]
  · rw [found.2, found'.2]

theorem found_token {p : Pattern} {text rest : List Char} {kind : Kind}
    (takes : p.Takes text (text ++ rest)) (made : p.piece text = .token kind text) :
    Found (text ++ rest) [(kind, String.ofList text)] rest := by
  have cut := pieces_taken takes
  rw [made] at cut
  constructor
  · rw [lexed, cut]
    rfl
  · rw [complaints, cut]
    rfl

theorem found_space {rest : List Char} (begins : Begins rest) : Found (' ' :: rest) [] rest := by
  obtain ⟨c, cs, rfl, noBlank⟩ := begins
  have stops : ∀ d ∈ (c :: cs).head?, isBlank d = false := by rintro d ⟨⟩; exact noBlank
  have cut : pieces (' ' :: c :: cs) = .blank [' '] :: pieces (c :: cs) :=
    pieces_taken (Pattern.takes_space stops)
  constructor
  · rw [lexed, cut]
    rfl
  · rw [complaints, cut]
    rfl

theorem found_mark {c : Char} {s : Symbol} (single : Symbol.single? c = some s)
    (mark : Class.of c = .mark) (noSlash : c ≠ '/') {rest : List Char}
    (alone : Symbol.withEqual? c = none ∨ Apart rest) :
    Found (c :: rest) [(.symbol s, String.ofList [c])] rest := by
  have noPair (s : Symbol) (more : List Char) (pair : Symbol.withEqual? c = some s)
      (eq : rest = '=' :: more) : False := by
    rcases alone with none | apart
    · rw [none] at pair
      cases pair
    · exact apart '=' (by rw [eq]; rfl) rfl
  exact found_token (Pattern.takes_single mark (fun _ same _ => noSlash same) noPair single) rfl

theorem cuts_spelled {t : Token} (spelled : t.Spelled) : Cuts t.lexeme.toList [t.lexed] := by
  intro rest breaks
  obtain ⟨p, spells, made⟩ := spelled
  have found := found_token (spells.takes breaks) made
  rwa [String.ofList_toList] at found

section Together

variable {text text' : List Char} {tokens tokens' : List Lexed}

theorem Begins.append (begins : Begins text) (rest : List Char) : Begins (text ++ rest) := by
  obtain ⟨c, cs, rfl, noBlank⟩ := begins
  exact ⟨c, cs ++ rest, rfl, noBlank⟩

theorem Begins.apart (begins : Begins text) (apart : Apart text) (rest : List Char) :
    Apart (text ++ rest) := by
  obtain ⟨c, cs, rfl, -⟩ := begins
  exact apart

theorem Cuts.spaced (cuts : Cuts text tokens) (cuts' : Cuts text' tokens') (begins : Begins text') :
    Cuts (text ++ ' ' :: text') (tokens ++ tokens') := by
  intro rest breaks
  have first := cuts (' ' :: (text' ++ rest)) (by rintro c ⟨⟩; rfl)
  have second := (found_space (begins.append rest)).trans (cuts' rest breaks)
  simpa using first.trans second

theorem Cuts.signed (cuts : Cuts text tokens) (begins : Begins text) (apart : Apart text) {c : Char}
    {s : Symbol} (single : Symbol.single? c = some s) (mark : Class.of c = .mark)
    (noSlash : c ≠ '/') : Cuts (c :: text) ((.symbol s, String.ofList [c]) :: tokens) := by
  intro rest breaks
  have first := found_mark single mark noSlash (.inr (begins.apart apart rest))
  exact first.trans (cuts rest breaks)

def leftParen : Lexed := (.symbol .leftParen, "(")
def rightParen : Lexed := (.symbol .rightParen, ")")

theorem Cuts.parenthesized (cuts : Cuts text tokens) :
    Cuts ('(' :: (text ++ [')'])) (leftParen :: (tokens ++ [rightParen])) := by
  intro rest breaks
  have first : Found ('(' :: (text ++ ')' :: rest)) [leftParen] (text ++ ')' :: rest) :=
    found_mark rfl (by decide) (by decide) (.inl rfl)
  have inner := cuts (')' :: rest) (by rintro c ⟨⟩; rfl)
  have last : Found (')' :: rest) [rightParen] rest :=
    found_mark rfl (by decide) (by decide) (.inl rfl)
  simpa using (first.trans inner).trans last

end Together

end Texts

namespace Grammar

section Levels

variable {ts rest : List Token} {p : Phrase}

theorem Derives.operandLevel (d : Derives .unary ts p rest) (l : Layer) :
    Derives (operandLevel l) ts p rest := by
  cases l with
  | factor => exact d
  | term => exact .operand d
  | comparison => exact .operand (.operand d)
  | equality => exact .operand (.operand (.operand d))
  | and => exact .operand (.operand (.operand (.operand d)))
  | or => exact .operand (.operand (.operand (.operand (.operand d))))

theorem Derives.assignment {l : Layer} (d : Derives (.layer l) ts p rest) :
    Derives .assignment ts p rest := by
  apply Derives.operation
  cases l with
  | or => exact d
  | and => exact .operand d
  | equality => exact .operand (.operand d)
  | comparison => exact .operand (.operand (.operand d))
  | term => exact .operand (.operand (.operand (.operand d)))
  | factor => exact .operand (.operand (.operand (.operand (.operand d))))

end Levels

/-- Tokens that are written like these make an expression of the level, with this form if groups are
left out. Nothing is reported of it. -/
def Makes (l : Level) (front : List Lexed) (form : SExpr) : Prop :=
  ∀ (ts : List Token) (others : List Lexed), ts.map Token.lexed = front ++ others →
    ∃ p rest, Derives l ts p rest ∧ rest.map Token.lexed = others ∧ p.places = [] ∧
      p.expr.ungrouped.toSExpr = form

section Makes

variable {front front' : List Lexed} {form form' : SExpr} {kind : Kind} {lexeme : String}

theorem exists_head {ts : List Token} {others : List Lexed}
    (eq : ts.map Token.lexed = (kind, lexeme) :: others) :
    ∃ t rest, ts = t :: rest ∧ t.kind = kind ∧ t.lexeme = lexeme ∧ rest.map Token.lexed = others := by
  obtain ⟨t, rest, rfl, first, later⟩ := List.map_eq_cons_iff.mp eq
  obtain ⟨kinds, lexemes⟩ := Prod.mk.inj first
  exact ⟨t, rest, rfl, kinds, lexemes, later⟩

theorem Makes.mono {l l' : Level} (makes : Makes l front form)
    (derives : ∀ {ts rest : List Token} {p : Phrase}, Derives l ts p rest → Derives l' ts p rest) :
    Makes l' front form := by
  intro ts others eq
  obtain ⟨p, rest, d, facts⟩ := makes ts others eq
  exact ⟨p, rest, derives d, facts⟩

theorem Makes.whole (makes : Makes .unary front form) : Makes .assignment front form :=
  makes.mono fun d => (Derives.operand (d.operandLevel .or)).assignment

theorem Makes.constant {value : Literal} (stands : Constant kind value) :
    Makes .primary [(kind, lexeme)] (.atom value.render) := by
  intro ts others eq
  obtain ⟨t, rest, rfl, rfl, -, later⟩ := exists_head eq
  exact ⟨.constant value, rest, .constant stands, later, rfl, rfl⟩

theorem Makes.name : Makes .primary [(.identifier, lexeme)] (.atom lexeme) := by
  intro ts others eq
  obtain ⟨t, rest, rfl, identifier, rfl, later⟩ := exists_head eq
  exact ⟨.name t, rest, .name identifier, later, rfl, rfl⟩

theorem Makes.group (makes : Makes .assignment front form) :
    Makes .primary (leftParen :: (front ++ [rightParen])) form := by
  intro ts others eq
  obtain ⟨opening, ts', rfl, opens, -, inside⟩ := exists_head eq
  rw [List.append_eq, List.append_assoc] at inside
  obtain ⟨p, left, d, after, none, same⟩ := makes _ _ inside
  obtain ⟨closing, rest, rfl, closes, -, later⟩ := exists_head after
  exact ⟨.group p, rest, .group opens d closes, later, none, same⟩

theorem Makes.unary (sign : kind = .symbol .bang ∨ kind = .symbol .minus)
    (makes : Makes .unary front form) :
    Makes .unary ((kind, lexeme) :: front) (.list [.atom lexeme, form]) := by
  intro ts others eq
  obtain ⟨op, ts', rfl, rfl, rfl, inside⟩ := exists_head eq
  obtain ⟨p, rest, d, later, none, rfl⟩ := makes _ _ inside
  exact ⟨.unary op p, rest, .unary sign d, later, none, rfl⟩

theorem Makes.binary {l : Layer} (first : Makes (.layer l) front form)
    (belongs : kind.layer? = some l) (second : Makes (operandLevel l) front' form') :
    Makes (.layer l) (front ++ (kind, lexeme) :: front') (.list [.atom lexeme, form, form']) := by
  intro ts others eq
  rw [List.append_assoc] at eq
  obtain ⟨p, left, d, after, none, rfl⟩ := first _ _ eq
  obtain ⟨op, ts', rfl, rfl, rfl, inside⟩ := exists_head after
  obtain ⟨p', rest, d', later, none', rfl⟩ := second _ _ inside
  refine ⟨.binary p op p', rest, .binary d belongs d', later, ?_, ?_⟩
  · rw [Phrase.places, none, none']
    rfl
  -- Whether the node decides by its left side or computes with both, its form is the same.
  · rw [Phrase.expr]
    split <;> rfl

end Makes

end Grammar

open Grammar (Makes)

structure Operand (text : List Char) (tokens : List Lexed) (form : SExpr) : Prop where
  begins : Begins text
  apart : Apart text
  cuts : Cuts text tokens
  makes : Makes .primary tokens form

namespace Operand

variable {text text' : List Char} {tokens tokens' : List Lexed} {form form' : SExpr}

theorem of_token {t : Token} (spelled : t.Spelled) (other : ∀ s, t.kind ≠ .symbol s)
    (makes : Makes .primary [t.lexed] form) : Operand t.lexeme.toList [t.lexed] form := by
  obtain ⟨c, cs, eq, noBlank, noEqual⟩ := spelled.head other
  refine ⟨⟨c, cs, eq, noBlank⟩, ?_, cuts_spelled spelled, makes⟩
  rw [eq, Apart]
  rintro d ⟨⟩
  exact noEqual

theorem parenthesized (cuts : Cuts text tokens) (makes : Makes .assignment tokens form) :
    Operand ('(' :: (text ++ [')'])) (leftParen :: (tokens ++ [rightParen])) form := by
  refine ⟨⟨_, _, rfl, rfl⟩, ?_, cuts.parenthesized, makes.group⟩
  rintro c ⟨⟩
  decide

theorem unaryLevel (operand : Operand text tokens form) : Makes .unary tokens form :=
  operand.makes.mono fun d => .call (.primary d)

theorem group (operand : Operand text tokens form) :
    ∃ tokens', Operand ('(' :: (text ++ [')'])) tokens' form :=
  ⟨_, parenthesized operand.cuts operand.unaryLevel.whole⟩

theorem unary (operand : Operand text tokens form) {op : Token} (spelled : op.Spelled)
    (sign : op.kind = .symbol .bang ∨ op.kind = .symbol .minus) :
    ∃ tokens', Operand ('(' :: (op.lexeme.toList ++ text ++ [')'])) tokens'
      (.list [.atom op.lexeme, form]) := by
  have makes : Makes .unary (op.lexed :: tokens) (.list [.atom op.lexeme, form]) :=
    operand.unaryLevel.unary sign
  -- No break comes after the sign: it is cut off because the operand begins with no equals sign.
  have cuts : Cuts (op.lexeme.toList ++ text) (op.lexed :: tokens) := by
    rcases sign with kind | kind
    · have lexeme : op.lexeme = "!" := String.toList_inj.mp (spelled.lexeme_symbol kind)
      rw [Token.lexed, kind, lexeme]
      exact operand.cuts.signed operand.begins operand.apart rfl (by decide) (by decide)
    · have lexeme : op.lexeme = "-" := String.toList_inj.mp (spelled.lexeme_symbol kind)
      rw [Token.lexed, kind, lexeme]
      exact operand.cuts.signed operand.begins operand.apart rfl (by decide) (by decide)
  exact ⟨_, parenthesized cuts makes.whole⟩

theorem operation (operand : Operand text tokens form) (operand' : Operand text' tokens' form')
    {op : Token} (spelled : op.Spelled) {l : Layer} (belongs : op.kind.layer? = some l) :
    ∃ tokens'', Operand ('(' :: (text ++ ' ' :: (op.lexeme.toList ++ ' ' :: text') ++ [')'])) tokens''
      (.list [.atom op.lexeme, form, form']) := by
  have first : Makes (.layer l) tokens form :=
    operand.unaryLevel.mono fun d => .operand (d.operandLevel l)
  have second : Makes (Grammar.operandLevel l) tokens' form' :=
    operand'.unaryLevel.mono fun d => d.operandLevel l
  have whole : Makes .assignment (tokens ++ op.lexed :: tokens')
      (.list [.atom op.lexeme, form, form']) :=
    (first.binary belongs second).mono fun d => d.assignment
  have begins : Begins op.lexeme.toList := by
    obtain ⟨p, spells, -⟩ := spelled
    exact spells.head
  have right := (cuts_spelled spelled).spaced operand'.cuts operand'.begins
  exact ⟨_, parenthesized (operand.cuts.spaced right (begins.append _)) whole⟩

end Operand

def Expr.Operational : Expr → Prop
  | .assign _ _ | .call _ _ _ => False
  | _ => True

instance : DecidablePred Expr.Operational
  | .assign _ _ | .call _ _ _ => isFalse id
  | .literal _ | .reference _ | .grouping _ => isTrue trivial
  | .unary _ _ | .binary _ _ _ | .logical _ _ _ => isTrue trivial

theorem Token.spelled_infinity : Token.Spelled ⟨.identifier, "Infinity", 1⟩ := by
  have scan : (Scan.ofText "Infinity").tokens = [⟨.identifier, "Infinity", 1⟩, ⟨.eof, "", 1⟩] := by
    decide +kernel
  have member : ⟨.identifier, "Infinity", 1⟩ ∈ (Scan.ofText "Infinity").tokens := by simp [scan]
  exact Scan.spelled member nofun

namespace Operand

theorem constant {t : Token} (spelled : t.Spelled) {value : Literal}
    (stands : Grammar.Constant t.kind value) :
    Operand t.lexeme.toList [t.lexed] (.atom value.render) := by
  have other (s : Symbol) : t.kind ≠ .symbol s := by
    intro symbol
    rw [symbol] at stands
    cases stands
  exact of_token spelled other (.constant stands)

theorem name {t : Token} (isName : t.IsName) :
    Operand t.lexeme.toList [t.lexed] (.atom t.lexeme) := by
  obtain ⟨spelled, kind⟩ := isName
  refine of_token spelled (by rw [kind]; nofun) ?_
  rw [Token.lexed, kind]
  exact .name

theorem number (text : List Char) :
    ∃ tokens, Operand (Number.render (Number.ofText text)).toList tokens
      (.atom (Number.render (Number.ofText text))) := by
  rcases Number.isFinite_or_render_eq text with finite | infinite
  · have spelled := Token.spelled_number (Number.render_matches finite)
    have operand := constant spelled (.number _)
    rw [Literal.render, Number.render_ofText_render finite] at operand
    exact ⟨_, operand⟩
  -- Infinity has no literal. Its text is read as a name, which is written the same.
  · rw [infinite]
    exact ⟨_, name ⟨Token.spelled_infinity, rfl⟩⟩

end Operand

def Written (text? : Option String) (form : SExpr) : Prop :=
  ∃ text ∈ text?, ∃ tokens, Operand text.toList tokens form

namespace Written

theorem literal {l : Literal} (made : (Expr.literal l).Made) :
    Written (Expr.literal l).parenthesized? (.atom l.render) := by
  obtain ⟨t, spelled, stands⟩ := made
  have operand := Operand.constant spelled stands
  generalize kind : t.kind = k at stands
  cases stands with
  | nil | yes | no =>
    rw [spelled.lexeme_keyword kind] at operand
    exact ⟨_, rfl, _, operand⟩
  | number x =>
    obtain ⟨-, rfl⟩ := spelled.number_eq kind
    exact ⟨_, rfl, Operand.number t.lexeme.toList⟩
  | string s =>
    have quoted : ("\"" ++ s ++ "\"").toList = t.lexeme.toList := by
      rw [spelled.lexeme_string kind]
      simp
    exact ⟨_, rfl, [t.lexed], by rwa [quoted]⟩

variable {text? text'? : Option String} {form form' : SExpr} {op : Token}

theorem group (written : Written text? form) : Written (text?.map fun t => "(" ++ t ++ ")") form := by
  obtain ⟨text, rfl, tokens, operand⟩ := written
  obtain ⟨tokens', grouped⟩ := operand.group
  exact ⟨_, rfl, tokens', by simpa using grouped⟩

theorem unary (written : Written text? form) (spelled : op.Spelled)
    (sign : op.kind = .symbol .bang ∨ op.kind = .symbol .minus) :
    Written (text?.map fun t => "(" ++ op.lexeme ++ t ++ ")") (.list [.atom op.lexeme, form]) := by
  obtain ⟨text, rfl, tokens, operand⟩ := written
  obtain ⟨tokens', signed⟩ := operand.unary spelled sign
  exact ⟨_, rfl, tokens', by simpa using signed⟩

theorem operation (left : Written text? form) (right : Written text'? form') (spelled : op.Spelled)
    {l : Layer} (belongs : op.kind.layer? = some l) :
    Written (do
        let t ← text?
        let u ← text'?
        return "(" ++ t ++ " " ++ op.lexeme ++ " " ++ u ++ ")")
      (.list [.atom op.lexeme, form, form']) := by
  obtain ⟨text, rfl, tokens, operand⟩ := left
  obtain ⟨text', rfl, tokens', operand'⟩ := right
  obtain ⟨tokens'', joined⟩ := operand.operation operand' spelled belongs
  exact ⟨_, rfl, tokens'', by simpa using joined⟩

end Written

/-- What is written for an expression that was read is an operand with the form of the expression. -/
theorem Expr.written_parenthesized : ∀ {e : Expr}, e.Every Expr.Made → e.Every Expr.Operational →
    Written e.parenthesized? e.ungrouped.toSExpr
  | .literal _, made, _ => .literal made
  | .reference name, made, _ => ⟨name.lexeme, rfl, _, Operand.name made⟩
  | .grouping _, made, operational =>
    (written_parenthesized made.2 operational.2).group
  | .unary _ _, made, operational =>
    (written_parenthesized made.2 operational.2).unary made.1.1 made.1.2
  | .binary _ _ _, made, operational => by
    obtain ⟨⟨spelled, l, belongs, -⟩, madeA, madeB⟩ := made
    exact (written_parenthesized madeA operational.2.1).operation
      (written_parenthesized madeB operational.2.2) spelled belongs
  | .logical _ _ _, made, operational => by
    obtain ⟨⟨spelled, belongs⟩, madeA, madeB⟩ := made
    have left := written_parenthesized madeA operational.2.1
    have right := written_parenthesized madeB operational.2.2
    exact belongs.elim (left.operation right spelled) (left.operation right spelled)
  | .assign _ _, _, operational => operational.1.elim
  | .call _ _ _, _, operational => operational.1.elim

/-- A text that is cut into tokens is scanned as them, without errors. -/
theorem Cuts.scan {text : String} {tokens : List Lexed} (cuts : Cuts text.toList tokens) :
    (Scan.ofText text).diagnostics = [] ∧
      ∃ ts endToken, (Scan.ofText text).tokens = ts ++ [endToken] ∧ endToken.kind = .eof ∧
        ts.map Token.lexed = tokens := by
  have found : Found (text.toList ++ []) tokens [] := cuts [] (by rintro c ⟨⟩)
  rw [List.append_nil] at found
  have none : lexed [] = [] ∧ complaints [] = [] := by simp [lexed, complaints, pieces]
  have words : (Scan.ofText text).tokens.map Token.lexed = lexed text.toList ++ [(.eof, "")] :=
    Scan.lexed_ofText text
  have messages : (Scan.ofText text).diagnostics.map (·.message) = complaints text.toList :=
    Scan.messages_ofText text
  rw [found.2, none.2] at messages
  rw [found.1, none.1, List.append_nil] at words
  refine ⟨List.map_eq_nil_iff.mp messages, _, _, Scan.tokens_ofText text, rfl, ?_⟩
  rw [Scan.tokens_ofText, List.map_append] at words
  exact (List.append_inj' words rfl).1

/-- An operand alone is read to its end without errors. -/
theorem Operand.reads {text : String} {tokens : List Lexed} {form : SExpr}
    (operand : Operand text.toList tokens form) :
    let reading := (Cursor.ofTokens (Scan.ofText text).tokens).expression
    (Scan.ofText text).diagnostics = [] ∧ reading.diagnostics = [] ∧ reading.cursor.rest = [] ∧
      ∃ e, reading.result = .ok e ∧ e.ungrouped.toSExpr = form := by
  obtain ⟨scans, ts, endToken, split, ending, words⟩ := operand.cuts.scan
  obtain ⟨p, rest, d, left, noPlaces, same⟩ :=
    operand.unaryLevel.whole ts [] (by rw [words, List.append_nil])
  cases List.map_eq_nil_iff.mp left
  have answer : (Parse.expression ts).answer =
      (Answer.parsed p.expr []).after (Grammar.reports p.places) := d.completes (by rintro t ⟨⟩)
  have cursor := Grammar.ofTokens_append_end ending (Scan.kind_ne_eof split)
  have reading : (Cursor.mk ts endToken).expression = ⟨.ok p.expr, [], ⟨[], endToken⟩⟩ := by
    rw [Cursor.expression, Cursor.ofReply_eq, answer, noPlaces, Cursor.reading_parsed]
    rfl
  rw [split, cursor, reading]
  exact ⟨scans, rfl, rfl, p.expr, rfl, same⟩

/-- Expressions survive being written with all their operations in parentheses. For an expression
that was read without errors and has neither assignments nor calls in it, there is such a text; it is
scanned and read to its end without errors; and without groups the expression that it gives is printed
as the first one is. -/
theorem parenthesized_reads_back (source : String) (e : Expr) (parsed : e.ParsedFrom source)
    (operational : e.Every Expr.Operational) :
    ∃ text, e.parenthesized? = some text ∧ (Scan.ofText text).diagnostics = [] ∧
      let reading := (Cursor.ofTokens (Scan.ofText text).tokens).expression
      reading.diagnostics = [] ∧ reading.cursor.rest = [] ∧
        ∃ e', reading.result = .ok e' ∧ e'.ungrouped.render = e.ungrouped.render := by
  obtain ⟨text, eq, tokens, operand⟩ := Expr.written_parenthesized parsed.made operational
  obtain ⟨scans, silent, finished, e', result, same⟩ := operand.reads
  exact ⟨text, eq, scans, silent, finished, e', result, congrArg SExpr.render same⟩

/-- A number loses its sixth place on the way. -/
theorem parenthesized_reads_back_shortened :
    ∃ e : Expr, e.ParsedFrom "1.000001 - -x or \"a\"" ∧
      e.parenthesized? = some "((1 - (-x)) or \"a\")" ∧
      let reading := (Cursor.ofTokens (Scan.ofText "((1 - (-x)) or \"a\")").tokens).expression
      reading.diagnostics = [] ∧ reading.cursor.rest = [] ∧
        ∃ e', reading.result = .ok e' ∧ e'.ungrouped.render = "(or (- 1 (- x)) a)" := by
  have read : (Expr.first? "1.000001 - -x or \"a\"").isSome = true := by decide +kernel
  have facts : ∀ e ∈ Expr.first? "1.000001 - -x or \"a\"", e.Every Expr.Operational ∧
      e.parenthesized? = some "((1 - (-x)) or \"a\")" ∧
      e.ungrouped.render = "(or (- 1 (- x)) a)" := by decide +kernel
  obtain ⟨e, first⟩ := Option.isSome_iff_exists.mp read
  obtain ⟨operational, written, printed⟩ := facts e first
  have parsed := Expr.parsedFrom_of_first first (by decide +kernel) (by decide +kernel)
  obtain ⟨text, eq, -, reads⟩ := parenthesized_reads_back _ e parsed operational
  cases Option.some.inj (written.symm.trans eq)
  rw [printed] at reads
  exact ⟨e, parsed, written, reads⟩

end Lox

import Lox.Proofs.Respelling
import Lox.Proofs.Sentences
import Lox.Proofs.SourceLines

/- Tokens of trees that were read from a source without errors. A tree keeps tokens of the source: its
   names are identifiers, its operators are those of their nodes, its literals stand for a token. So
   what is written at each of them is known from the patterns of the language. -/
namespace Lox

/-- Some pattern makes the token of its lexeme. -/
def Token.Spelled (t : Token) : Prop :=
  ∃ p, Pattern.Spells p t.lexeme.toList ∧
    p.piece t.lexeme.toList = .token t.kind t.lexeme.toList

/-- Every token of a scan but the end of the file is spelled. -/
theorem Scan.spelled {source : String} {t : Token} (member : t ∈ (ofText source).tokens)
    (within : t.kind ≠ .eof) : t.Spelled := by
  have known : (t.kind, t.lexeme) ∈ (ofText source).tokens.map fun t => (t.kind, t.lexeme) :=
    List.mem_map.mpr ⟨t, member, rfl⟩
  rw [lexed_ofText] at known
  rcases List.mem_append.mp known with known | known
  · obtain ⟨piece, there, eq⟩ := List.mem_filterMap.mp known
    obtain ⟨p, text, spells, rfl⟩ :=
      (munches_pieces source.toList).spelled piece there (by rw [eq]; rfl)
    cases made : p.piece text with
    | token kind text' =>
      have texts := congrArg Piece.text made
      rw [Pattern.text_piece] at texts
      simp only [made, Piece.token?, Option.some.injEq, Prod.mk.injEq] at eq
      have lexeme : t.lexeme.toList = text := by rw [← eq.2, String.toList_ofList, texts]; rfl
      exact ⟨p, by rwa [lexeme], by rw [lexeme, made, eq.1, texts]; rfl⟩
    | _ =>
      rw [made] at eq
      cases eq
  · have eof : t.kind = .eof := congrArg Prod.fst (List.mem_singleton.mp known)
    exact absurd eof within

namespace Token.Spelled

variable {t : Token} (spelled : t.Spelled)
include spelled

theorem lexeme_symbol {s : Symbol} (kind : t.kind = .symbol s) :
    t.lexeme.toList = s.spelling := by
  obtain ⟨p, spells, made⟩ := spelled
  rw [kind] at made
  have fits := spells.fits
  generalize t.lexeme.toList = text at made fits ⊢
  cases fits <;> cases made
  rfl

theorem lexeme_keyword {w : Keyword} (kind : t.kind = .keyword w) : t.lexeme = w.text := by
  obtain ⟨p, spells, made⟩ := spelled
  rw [kind] at made
  have fits := spells.fits
  apply String.toList_inj.mp
  generalize t.lexeme.toList = text at made fits ⊢
  cases fits <;> cases made
  rfl

theorem lexeme_identifier (kind : t.kind = .identifier) :
    Pattern.identifier.Spells t.lexeme.toList := by
  obtain ⟨p, spells, made⟩ := spelled
  rw [kind] at made
  cases p <;> cases made
  exact spells

theorem number_eq {x : Float} (kind : t.kind = .number x) :
    Pattern.number.Matches t.lexeme.toList ∧ x = Number.ofText t.lexeme.toList := by
  obtain ⟨p, spells, made⟩ := spelled
  rw [kind] at made
  cases p <;> cases made
  have known := ofText_of_matches spells.fits
  injection known with kinds
  injection kinds with same
  exact ⟨spells.fits, same⟩

theorem lexeme_string {s : String} (kind : t.kind = .string s) :
    t.lexeme.toList = '"' :: (s.toList ++ ['"']) := by
  obtain ⟨p, spells, made⟩ := spelled
  rw [kind] at made
  have fits := spells.fits
  generalize t.lexeme.toList = text at made fits ⊢
  cases fits with
  | @string cs body =>
    cases made
    simp
  | _ => cases made

theorem head (other : ∀ s, t.kind ≠ .symbol s) :
    ∃ c cs, t.lexeme.toList = c :: cs ∧ isBlank c = false ∧ c ≠ '=' := by
  obtain ⟨p, spells, made⟩ := spelled
  obtain ⟨c, cs, eq, noBlank⟩ := spells.head
  obtain ⟨d, ds, eq', class_⟩ := spells.fits.head
  cases eq.symm.trans eq'
  refine ⟨c, cs, eq, noBlank, ?_⟩
  rintro rfl
  cases p with
  | symbol s => exact other s (Piece.token.inj made).1.symm
  | comment => cases made
  | _ => cases class_

end Token.Spelled

def Token.IsName (t : Token) : Prop := t.Spelled ∧ t.kind = .identifier

/-- The tokens of the expression itself are those that the language has at its place. -/
def Expr.Made : Expr → Prop
  | .literal l => ∃ t : Token, t.Spelled ∧ Grammar.Constant t.kind l
  | .grouping _ => True
  | .unary op _ => op.Spelled ∧ (op.kind = .symbol .bang ∨ op.kind = .symbol .minus)
  | .binary _ op _ => op.Spelled ∧ ∃ l, op.kind.layer? = some l ∧ l ≠ .or ∧ l ≠ .and
  | .logical _ op _ => op.Spelled ∧ (op.kind.layer? = some .or ∨ op.kind.layer? = some .and)
  | .reference name | .assign name _ => name.IsName
  | .call _ close _ => close.Spelled ∧ close.kind = .symbol .rightParen

mutual
def Stmt.Made : Stmt → Prop
  | .expression e | .print e => e.Every Expr.Made
  | .declare name value => name.IsName ∧ ∀ e ∈ value, e.Every Expr.Made
  | .block body => Stmt.MadeOf body
  | .ifThen c s | .loop c s => c.Every Expr.Made ∧ s.Made
  | .ifElse c s t => c.Every Expr.Made ∧ s.Made ∧ t.Made
  | .function name params body => name.IsName ∧ (∀ p ∈ params, p.IsName) ∧ Stmt.MadeOf body
  | .return_ keyword value =>
    (keyword.Spelled ∧ keyword.kind = .keyword .return_) ∧ ∀ e ∈ value, e.Every Expr.Made
def Stmt.MadeOf : List Stmt → Prop
  | [] => True
  | s :: ss => s.Made ∧ Stmt.MadeOf ss
end

theorem Expr.made_true : (Expr.literal (.bool true)).Made := by
  have scan : (Scan.ofText "true").tokens = [⟨.keyword .true_, "true", 1⟩, ⟨.eof, "", 1⟩] := by
    decide +kernel
  have member : ⟨.keyword .true_, "true", 1⟩ ∈ (Scan.ofText "true").tokens := by simp [scan]
  exact ⟨_, Scan.spelled member nofun, .yes⟩

namespace Grammar

def Spelled (ts : List Token) : Prop := ∀ t ∈ ts, t.Spelled

theorem Spelled.head {t : Token} {ts : List Token} (spelled : Spelled (t :: ts)) : t.Spelled :=
  spelled t List.mem_cons_self

theorem Spelled.tail {t : Token} {ts : List Token} (spelled : Spelled (t :: ts)) : Spelled ts :=
  fun t member => spelled t (List.mem_cons_of_mem _ member)

/-- The tree of a phrase is made of the tokens that are taken. -/
theorem Derives.made {l : Level} {ts rest : List Token} {phrase : Phrase}
    (d : Derives l ts phrase rest) :
    Spelled ts → phrase.expr.Every Expr.Made ∧ Spelled rest := by
  induction d using @Derives.rec _ fun ts args rest _ =>
      Spelled ts → Expr.EveryOf Expr.Made args.exprs ∧ Spelled rest with
  | @constant t value rest stands => exact fun spelled => ⟨⟨t, spelled.head, stands⟩, spelled.tail⟩
  | name identifier => exact fun spelled => ⟨⟨spelled.head, identifier⟩, spelled.tail⟩
  | group _ _ _ inner =>
    intro spelled
    obtain ⟨made, left⟩ := inner spelled.tail
    exact ⟨⟨trivial, made⟩, left.tail⟩
  | primary _ ih | call _ ih | operand _ ih | operation _ ih => exact ih
  | callNone _ _ closes callee =>
    intro spelled
    obtain ⟨made, left⟩ := callee spelled
    exact ⟨⟨⟨left.tail.head, closes⟩, made, trivial⟩, left.tail.tail⟩
  | callSome _ _ _ closes callee args =>
    intro spelled
    obtain ⟨made, left⟩ := callee spelled
    obtain ⟨made', left'⟩ := args left.tail
    exact ⟨⟨⟨left'.head, closes⟩, made, made'⟩, left'.tail⟩
  | unary sign _ operand =>
    intro spelled
    obtain ⟨made, left⟩ := operand spelled.tail
    exact ⟨⟨⟨spelled.head, sign⟩, made⟩, left⟩
  | @binary l op _ _ _ _ _ _ belongs _ first second =>
    intro spelled
    obtain ⟨made, left⟩ := first spelled
    obtain ⟨made', left'⟩ := second left.tail
    refine ⟨?_, left'⟩
    simp only [Phrase.expr]
    split
    · rename_i logical
      exact ⟨⟨left.head, logical⟩, made, made'⟩
    · rename_i other
      obtain ⟨notOr, notAnd⟩ := not_or.mp other
      refine ⟨⟨left.head, l, belongs, ?_, ?_⟩, made, made'⟩
      · rintro rfl
        exact notOr belongs
      · rintro rfl
        exact notAnd belongs
  | @assign _ _ _ _ target _ _ _ _ first second =>
    intro spelled
    obtain ⟨made, left⟩ := first spelled
    obtain ⟨made', left'⟩ := second left.tail
    refine ⟨?_, left'⟩
    cases target with
    | name token => exact ⟨made, made'⟩
    | _ => exact made
  | last _ value spelled =>
    obtain ⟨made, left⟩ := value spelled
    exact ⟨⟨made, trivial⟩, left⟩
  | more _ _ _ value later spelled =>
    obtain ⟨made, left⟩ := value spelled
    obtain ⟨made', left'⟩ := later left.tail
    exact ⟨⟨made, made'⟩, left'⟩

theorem DerivesOptional.made {ts rest : List Token} {value : Option Phrase}
    (d : DerivesOptional ts value rest) (spelled : Spelled ts) :
    (∀ e ∈ value.map Phrase.expr, e.Every Expr.Made) ∧ Spelled rest := by
  cases d with
  | none => exact ⟨nofun, spelled⟩
  | some only =>
    obtain ⟨made, left⟩ := only.made spelled
    refine ⟨?_, left⟩
    rintro _ ⟨⟩
    exact made

theorem DerivesVariable.made {ts rest : List Token} {name : Token} {value : Option Phrase}
    (d : DerivesVariable ts name value rest) (spelled : Spelled ts) :
    name.IsName ∧ (∀ e ∈ value.map Phrase.expr, e.Every Expr.Made) ∧ Spelled rest := by
  cases d with
  | bare identifier _ => exact ⟨⟨spelled.head, identifier⟩, nofun, spelled.tail.tail⟩
  | initialized identifier _ first _ =>
    obtain ⟨made, left⟩ := first.made spelled.tail.tail
    refine ⟨⟨spelled.head, identifier⟩, ?_, left.tail⟩
    rintro _ ⟨⟩
    exact made

theorem DerivesParameters.made {ts params rest : List Token} (d : DerivesParameters ts params rest)
    (spelled : Spelled ts) : (∀ p ∈ params, p.IsName) ∧ Spelled rest := by
  induction d with
  | none => exact ⟨nofun, spelled⟩
  | last identifier =>
    exact ⟨List.forall_mem_singleton.mpr ⟨spelled.head, identifier⟩, spelled.tail⟩
  | more identifier _ _ ih =>
    obtain ⟨names, left⟩ := ih spelled.tail.tail
    exact ⟨List.forall_mem_cons.mpr ⟨⟨spelled.head, identifier⟩, names⟩, left⟩

theorem DerivesStart.made {ts rest : List Token} {start : Option Start}
    (d : DerivesStart ts start rest) (spelled : Spelled ts) :
    (∀ s ∈ start.map Start.stmt, s.Made) ∧ Spelled rest := by
  cases d with
  | none _ => exact ⟨nofun, spelled.tail⟩
  | declare _ first =>
    obtain ⟨name, made, left⟩ := first.made spelled.tail
    refine ⟨?_, left⟩
    rintro _ ⟨⟩
    exact ⟨name, made⟩
  | expression first _ =>
    obtain ⟨made, left⟩ := first.made spelled
    refine ⟨?_, left.tail⟩
    rintro _ ⟨⟩
    exact made

theorem made_count {start : Option Start} {condition increment : Option Phrase} {body : Sentence}
    (starts : ∀ s ∈ start.map Start.stmt, s.Made)
    (holds : ∀ e ∈ condition.map Phrase.expr, e.Every Expr.Made)
    (advances : ∀ e ∈ increment.map Phrase.expr, e.Every Expr.Made) (inner : body.stmt.Made) :
    (Sentence.count start condition increment body).stmt.Made := by
  have test : (condition.elim (.literal (.bool true)) Phrase.expr).Every Expr.Made := by
    cases condition with
    | none => exact Expr.made_true
    | some p => exact holds _ rfl
  have round : (beforeIncrement body.stmt increment).Made := by
    cases increment with
    | none => exact inner
    | some p => exact ⟨inner, advances _ rfl, trivial⟩
  cases start with
  | none => exact ⟨test, round⟩
  | some s => exact ⟨starts _ rfl, ⟨test, round⟩, trivial⟩

theorem DerivesBody.made {ts rest : List Token} {body : Sentences} (d : DerivesBody ts body rest) :
    Spelled ts → Stmt.MadeOf body.stmts ∧ Spelled rest := by
  induction d using @DerivesBody.rec
      (fun ts s rest _ => Spelled ts → s.stmt.Made ∧ Spelled rest)
      (fun ts s rest _ => Spelled ts → s.stmt.Made ∧ Spelled rest) with
  | expression first _ spelled =>
    obtain ⟨made, left⟩ := first.made spelled
    exact ⟨made, left.tail⟩
  | print _ first _ spelled =>
    obtain ⟨made, left⟩ := first.made spelled.tail
    exact ⟨made, left.tail⟩
  | return_ begins first _ spelled =>
    obtain ⟨made, left⟩ := first.made spelled.tail
    exact ⟨⟨⟨spelled.head, begins⟩, made⟩, left.tail⟩
  | block _ _ _ inside spelled =>
    obtain ⟨made, left⟩ := inside spelled.tail
    exact ⟨made, left.tail⟩
  | ifThen _ _ first _ _ _ second spelled =>
    obtain ⟨made, left⟩ := first.made spelled.tail.tail
    obtain ⟨made', left'⟩ := second left.tail
    exact ⟨⟨made, made'⟩, left'⟩
  | ifElse _ _ first _ _ _ _ second third spelled =>
    obtain ⟨made, left⟩ := first.made spelled.tail.tail
    obtain ⟨made', left'⟩ := second left.tail
    obtain ⟨made'', left''⟩ := third left'.tail
    exact ⟨⟨made, made', made''⟩, left''⟩
  | loop _ _ first _ _ second spelled =>
    obtain ⟨made, left⟩ := first.made spelled.tail.tail
    obtain ⟨made', left'⟩ := second left.tail
    exact ⟨⟨made, made'⟩, left'⟩
  | count _ _ first second _ third _ _ fourth spelled =>
    obtain ⟨starts, left₁⟩ := first.made spelled.tail.tail
    obtain ⟨holds, left₂⟩ := second.made left₁
    obtain ⟨advances, left₃⟩ := third.made left₂.tail
    obtain ⟨inner, left₄⟩ := fourth left₃.tail
    exact ⟨made_count starts holds advances inner, left₄⟩
  | function _ identifier _ first _ _ _ _ second spelled =>
    obtain ⟨names, left⟩ := first.made spelled.tail.tail.tail
    obtain ⟨made, left'⟩ := second left.tail.tail
    exact ⟨⟨⟨spelled.tail.head, identifier⟩, names, made⟩, left'.tail⟩
  | declare _ first spelled =>
    obtain ⟨name, made, left⟩ := first.made spelled.tail
    exact ⟨⟨name, made⟩, left⟩
  | statement _ ih spelled => exact ih spelled
  | none => exact fun spelled => ⟨trivial, spelled⟩
  | more _ _ first later =>
    intro spelled
    obtain ⟨made, left⟩ := first spelled
    obtain ⟨made', left'⟩ := later left
    exact ⟨⟨made, made'⟩, left'⟩

end Grammar

namespace Cursor

theorem Over.spelled {source : String} {c : Cursor} (placed : c.Over source) :
    Grammar.Spelled c.rest := by
  intro t member
  obtain ⟨there, within⟩ := placed.mem_tokens member
  exact Scan.spelled there within

theorem reports_eq_nil {α : Type} {consumes : Bool} {ts : List Token} {c : Cursor}
    {r : Reply consumes α ts} {value : α} (eq : (c.ofReply r).result = .ok value)
    (clean : (c.ofReply r).diagnostics = []) :
    ∃ rest, r.answer = (Answer.parsed value rest).after [] := by
  obtain ⟨outcome, reports, within⟩ := r
  cases outcome with
  | parsed value' rest =>
    cases eq
    have none : reports = [] := List.map_eq_nil_iff.mp clean
    exact ⟨rest, by rw [none]; rfl⟩
  | unmet what rest => cases eq

end Cursor

/-- The expression was read from the source without errors. -/
def Expr.ParsedFrom (source : String) (e : Expr) : Prop :=
  (Scan.ofText source).diagnostics = [] ∧ ∃ c : Cursor, c.Over source ∧
    c.expression.result = .ok e ∧ c.expression.diagnostics = []

def Stmt.ParsedFrom (source : String) (s : Stmt) : Prop :=
  (Scan.ofText source).diagnostics = [] ∧ ∃ c : Cursor, c.Over source ∧
    (c.statement.result = .ok s ∧ c.statement.diagnostics = [] ∨
      c.declaration.result = some s ∧ c.declaration.diagnostics = [] ∨
      s ∈ c.program.result ∧ c.program.diagnostics = [])

theorem Expr.ParsedFrom.made {source : String} {e : Expr} (parsed : e.ParsedFrom source) :
    e.Every Expr.Made := by
  obtain ⟨-, c, placed, read, clean⟩ := parsed
  obtain ⟨rest, answer⟩ := Cursor.reports_eq_nil read clean
  obtain ⟨phrase, derives, rfl, -⟩ := Grammar.expression_reads c.rest answer
  exact (derives.made placed.spelled).1

theorem Stmt.made_of_mem {ss : List Stmt} (made : Stmt.MadeOf ss) {s : Stmt} (member : s ∈ ss) :
    s.Made := by
  induction ss with
  | nil => cases member
  | cons first ss ih =>
    rcases List.mem_cons.mp member with rfl | member
    · exact made.1
    · exact ih made.2 member

theorem Stmt.ParsedFrom.made {source : String} {s : Stmt} (parsed : s.ParsedFrom source) :
    s.Made := by
  obtain ⟨-, c, placed, parsed⟩ := parsed
  have spelled := placed.spelled
  rcases parsed with ⟨read, clean⟩ | ⟨read, clean⟩ | ⟨member, clean⟩
  · obtain ⟨rest, answer⟩ := Cursor.reports_eq_nil read clean
    obtain ⟨sentence, derives, rfl, -⟩ :=
      (Grammar.statements_and_blocks_read false c.rest).1 answer (List.forall_mem_nil _)
    exact ((Grammar.DerivesBody.more (.statement derives) .none).made spelled).1.1
  · have none : (Parse.declaration false c.rest).reports = [] := List.map_eq_nil_iff.mp clean
    obtain ⟨sentence, derives, value, -⟩ := Grammar.declaration_reads
      (Grammar.statements_and_blocks_read false c.rest).1
      (fun rest _ => (Grammar.statements_and_blocks_read true rest).2) rfl
      (by rw [none]; exact List.forall_mem_nil _)
    cases Option.some.inj (value.trans read)
    exact ((Grammar.DerivesBody.more derives .none).made spelled).1.1
  · have none : (Parse.program c.rest).2 = [] := List.map_eq_nil_iff.mp clean
    obtain ⟨program, derives, eq⟩ :=
      Grammar.program_reads (by rw [none]; exact List.forall_mem_nil _)
    have result : c.program.result = program.stmts := congrArg Prod.fst eq
    rw [result] at member
    exact Stmt.made_of_mem (derives.made spelled).1 member

end Lox

import Lox.Proofs.Decimals
import Lox.Proofs.Forms
import Lox.Proofs.TreeTokens

/- Trees in parenthesised form can be read in one way only. Each word is scanned as the token that it
   was, which tells the kinds of node apart; what cannot be told is the lines of tokens, and numbers
   that have one text. -/
namespace Lox

def Token.ofWord (text : String) : Token :=
  unlined ((Scan.ofText text).tokens.headD ⟨.eof, "", 0⟩)

/-- A lexeme alone is scanned as the token that it was. -/
theorem Token.Spelled.ofWord {t : Token} (spelled : t.Spelled) :
    Token.ofWord t.lexeme = unlined t := by
  obtain ⟨p, spells, made⟩ := spelled
  have cut : pieces (t.lexeme.toList ++ []) = p.piece t.lexeme.toList :: pieces [] :=
    pieces_taken (spells.takes nofun)
  rw [List.append_nil, made] at cut
  rw [Token.ofWord, Scan.ofText_eq, cut]
  simp [Scan.ofPieces, Scan.token, tokenOn, unlined, relabel]

def Literal.worded : Literal → Literal
  | .number x => .string (Number.render x)
  | l => l

mutual
/-- The expression with numbers replaced by their texts. -/
def Expr.worded : Expr → Expr
  | .literal l => .literal l.worded
  | .grouping e => .grouping e.worded
  | .unary op e => .unary op e.worded
  | .binary a op b => .binary a.worded op b.worded
  | .logical a op b => .logical a.worded op b.worded
  | .reference name => .reference name
  | .assign name e => .assign name e.worded
  | .call f close args => .call f.worded close (Expr.wordedAll args)
def Expr.wordedAll : List Expr → List Expr
  | [] => []
  | e :: es => e.worded :: Expr.wordedAll es
end

mutual
def Stmt.worded : Stmt → Stmt
  | .expression e => .expression e.worded
  | .print e => .print e.worded
  | .declare name value => .declare name (value.map Expr.worded)
  | .block body => .block (Stmt.wordedAll body)
  | .ifThen c s => .ifThen c.worded s.worded
  | .ifElse c s t => .ifElse c.worded s.worded t.worded
  | .loop c s => .loop c.worded s.worded
  | .function name params body => .function name params (Stmt.wordedAll body)
  | .return_ keyword value => .return_ keyword (value.map Expr.worded)
def Stmt.wordedAll : List Stmt → List Stmt
  | [] => []
  | s :: ss => s.worded :: Stmt.wordedAll ss
end

/-- No string is written here, and no number that is not finite. -/
def Expr.Plain : Expr → Prop
  | .literal (.string _) => False
  | .literal (.number x) => x.isFinite = true
  | _ => True

instance : DecidablePred Expr.Plain
  | .literal .nil | .literal (.bool _) => isTrue trivial
  | .literal (.number x) => inferInstanceAs (Decidable (x.isFinite = true))
  | .literal (.string _) => isFalse id
  | .grouping _ | .unary _ _ | .binary _ _ _ | .logical _ _ _ => isTrue trivial
  | .reference _ | .assign _ _ | .call _ _ _ => isTrue trivial

instance {p : Expr → Prop} [DecidablePred p] : DecidablePred (Stmt.Every p) :=
  fun s => decidable_of_iff _ s.every_iff.symm

instance {p : Expr → Prop} [DecidablePred p] : DecidablePred (Expr.Every p) :=
  fun e => decidable_of_iff _ e.every_iff.symm

namespace Expr

def ofToken (t : Token) : Expr :=
  match t.kind with
  | .keyword .nil => .literal .nil
  | .keyword .true_ => .literal (.bool true)
  | .keyword .false_ => .literal (.bool false)
  | .number _ => .literal (.string t.lexeme)
  | _ => .reference t

def operation (op : Token) (a b : Expr) : Expr :=
  match op.kind with
  | .keyword _ => .logical a op b
  | _ => .binary a op b

end Expr

namespace SExpr

mutual
def toExpr : SExpr → Expr
  | .atom text => Expr.ofToken (Token.ofWord text)
  | .list [.atom "group", e] => .grouping e.toExpr
  | .list [.atom "=", .atom name, e] => .assign (Token.ofWord name) e.toExpr
  | .list (.atom "call" :: f :: args) => .call f.toExpr (Token.ofWord ")") (toExprs args)
  -- Operators come last: none of them is written as a word above.
  | .list [.atom op, e] => .unary (Token.ofWord op) e.toExpr
  | .list [.atom op, a, b] => Expr.operation (Token.ofWord op) a.toExpr b.toExpr
  | .list _ => .literal .nil
def toExprs : List SExpr → List Expr
  | [] => []
  | s :: ss => s.toExpr :: toExprs ss
end

mutual
def toStmt : SExpr → Stmt
  | .list [.atom ";", e] => .expression e.toExpr
  | .list [.atom "print", e] => .print e.toExpr
  | .list (.atom "var" :: .atom name :: value) =>
    .declare (Token.ofWord name) (value.head?.map toExpr)
  | .list (.atom "block" :: body) => .block (toStmts body)
  | .list [.atom "if", c, s] => .ifThen c.toExpr s.toStmt
  | .list [.atom "if", c, s, t] => .ifElse c.toExpr s.toStmt t.toStmt
  | .list [.atom "while", c, s] => .loop c.toExpr s.toStmt
  | .list (.atom "fun" :: .atom name :: .list params :: body) =>
    .function (Token.ofWord name) (params.map fun p => Token.ofWord p.render) (toStmts body)
  | .list (.atom "return" :: value) => .return_ (Token.ofWord "return") (value.head?.map toExpr)
  | _ => .block []
def toStmts : List SExpr → List Stmt
  | [] => []
  | s :: ss => s.toStmt :: toStmts ss
end

end SExpr

def operators : List String :=
  ["or", "and", "==", "!=", ">", ">=", "<", "<=", "+", "-", "*", "/", "!"]

theorem Token.Spelled.lexeme_operator {t : Token} (spelled : t.Spelled)
    (operator : t.kind.layer?.isSome = true ∨ t.kind = .symbol .bang) : t.lexeme ∈ operators := by
  cases kind : t.kind with
  | symbol s =>
    have lexeme : t.lexeme = String.ofList s.spelling := by
      rw [← spelled.lexeme_symbol kind, String.ofList_toList]
    rw [kind] at operator
    rw [lexeme]
    cases s <;> first | decide | simp [Kind.layer?] at operator
  | keyword w =>
    rw [kind] at operator
    rw [spelled.lexeme_keyword kind]
    cases w <;> first | decide | simp [Kind.layer?] at operator
  | _ => simp [kind, Kind.layer?] at operator

theorem Token.Spelled.lexeme_layer {t : Token} (spelled : t.Spelled) {l : Layer}
    (belongs : t.kind.layer? = some l) : t.lexeme ∈ operators :=
  spelled.lexeme_operator (.inl (by rw [belongs]; rfl))

theorem Token.Spelled.lexeme_sign {t : Token} (spelled : t.Spelled)
    (sign : t.kind = .symbol .bang ∨ t.kind = .symbol .minus) : t.lexeme ∈ operators := by
  rcases sign with bang | minus
  · exact spelled.lexeme_operator (.inr bang)
  · exact spelled.lexeme_operator (.inl (by rw [minus]; rfl))

namespace SExpr

variable {text : String} (operator : text ∈ operators)
include operator

theorem toExpr_unary (e : SExpr) :
    toExpr (.list [.atom text, e]) = .unary (Token.ofWord text) e.toExpr := by
  have notGroup : text ≠ "group" := by rintro rfl; exact absurd operator (by decide)
  have notCall : text ≠ "call" := by rintro rfl; exact absurd operator (by decide)
  simp [toExpr]

theorem toExpr_operation (a b : SExpr) :
    toExpr (.list [.atom text, a, b]) = Expr.operation (Token.ofWord text) a.toExpr b.toExpr := by
  have notAssign : text ≠ "=" := by rintro rfl; exact absurd operator (by decide)
  have notCall : text ≠ "call" := by rintro rfl; exact absurd operator (by decide)
  simp [toExpr, notAssign]

end SExpr

theorem Token.spelled_number {text : String} (fits : Pattern.number.Matches text.toList) :
    Token.Spelled ⟨.number (Number.ofText text.toList), text, 0⟩ := by
  obtain ⟨c, cs, eq, class_⟩ := fits.head
  have other : Class.of c ≠ .word := by rw [class_]; decide
  have noKeyword (w : Keyword) : ¬ (Pattern.keyword w).Matches text.toList :=
    Pattern.not_keyword other (by rw [eq]) w
  have piece := ofText_of_matches fits
  exact ⟨.number, ⟨fits, fun w keyword => absurd keyword (noKeyword w), rfl⟩, piece⟩

@[simp] theorem Token.kind_unlined (t : Token) : (unlined t).kind = t.kind := rfl

namespace Expr

theorem ofToken_number (x : Float) (text : String) :
    ofToken (unlined ⟨.number x, text, 0⟩) = .literal (.string text) := rfl

theorem ofToken_literal {l : Literal} (made : (literal l).Made) (plain : (literal l).Plain) :
    ofToken (Token.ofWord l.render) = .literal l.worded := by
  obtain ⟨t, spelled, constant⟩ := made
  generalize kind : t.kind = k at constant
  cases constant with
  | nil | yes | no =>
    have lexeme := spelled.lexeme_keyword kind
    have word := spelled.ofWord
    rw [lexeme] at word
    simp only [Literal.render, if_true, Bool.false_eq_true, if_false]
    simp only [Keyword.text] at word
    simp [word, ofToken, kind, Literal.worded]
  | number x =>
    obtain ⟨fits, rfl⟩ := spelled.number_eq kind
    have finite : (Number.ofText t.lexeme.toList).isFinite = true := plain
    have word := (Token.spelled_number (Number.render_matches finite)).ofWord
    rw [Literal.render, word]
    exact ofToken_number _ _
  | string s => exact plain.elim

theorem ofToken_name {name : Token} (isName : name.IsName) :
    ofToken (Token.ofWord name.lexeme) = .reference (unlined name) := by
  obtain ⟨spelled, kind⟩ := isName
  simp [ofToken, spelled.ofWord, kind]

theorem operation_binary {op : Token} {l : Layer} (belongs : op.kind.layer? = some l)
    (notOr : l ≠ .or) (notAnd : l ≠ .and) (a b : Expr) :
    operation (unlined op) a b = .binary a (unlined op) b := by
  unfold operation
  rw [Token.kind_unlined]
  cases kind : op.kind with
  | keyword w =>
    rw [kind] at belongs
    cases w <;> simp_all [Kind.layer?]
  | _ => rfl

theorem operation_logical {op : Token}
    (belongs : op.kind.layer? = some .or ∨ op.kind.layer? = some .and) (a b : Expr) :
    operation (unlined op) a b = .logical a (unlined op) b := by
  unfold operation
  rw [Token.kind_unlined]
  cases kind : op.kind with
  | keyword w => rfl
  | symbol s =>
    rw [kind] at belongs
    cases s <;> simp [Kind.layer?] at belongs
  | _ => simp [kind, Kind.layer?] at belongs

end Expr

mutual

/-- An expression is read back from its form. -/
theorem Expr.toExpr_toSExpr : ∀ {e : Expr}, e.Every Expr.Made → e.Every Expr.Plain →
    e.toSExpr.toExpr = unlined e.worded
  | .literal l, made, plain => by
    rw [Expr.toSExpr, SExpr.toExpr]
    exact Expr.ofToken_literal made plain
  | .reference name, made, _ => by
    rw [Expr.toSExpr, SExpr.toExpr]
    exact Expr.ofToken_name made
  | .grouping e, made, plain => by
    rw [Expr.toSExpr, SExpr.toExpr, toExpr_toSExpr made.2 plain.2]
    rfl
  | .unary op e, made, plain => by
    have operator := made.1.1.lexeme_sign made.1.2
    rw [Expr.toSExpr, SExpr.toExpr_unary operator, made.1.1.ofWord, toExpr_toSExpr made.2 plain.2]
    rfl
  | .binary a op b, made, plain => by
    obtain ⟨⟨spelled, l, belongs, notOr, notAnd⟩, madeA, madeB⟩ := made
    have operator := spelled.lexeme_layer belongs
    rw [Expr.toSExpr, SExpr.toExpr_operation operator, spelled.ofWord,
      toExpr_toSExpr madeA plain.2.1, toExpr_toSExpr madeB plain.2.2]
    exact Expr.operation_binary belongs notOr notAnd _ _
  | .logical a op b, made, plain => by
    obtain ⟨⟨spelled, belongs⟩, madeA, madeB⟩ := made
    have operator := belongs.elim spelled.lexeme_layer spelled.lexeme_layer
    rw [Expr.toSExpr, SExpr.toExpr_operation operator, spelled.ofWord,
      toExpr_toSExpr madeA plain.2.1, toExpr_toSExpr madeB plain.2.2]
    exact Expr.operation_logical belongs _ _
  | .assign name e, made, plain => by
    rw [Expr.toSExpr, SExpr.toExpr, made.1.1.ofWord, toExpr_toSExpr made.2 plain.2]
    rfl
  | .call f close args, made, plain => by
    obtain ⟨⟨spelled, kind⟩, madeF, madeArgs⟩ := made
    have lexeme : close.lexeme = ")" := String.toList_inj.mp (spelled.lexeme_symbol kind)
    have word := spelled.ofWord
    rw [lexeme] at word
    rw [Expr.toSExpr, SExpr.toExpr, word, toExpr_toSExpr madeF plain.2.1,
      toExprs_toSExprs madeArgs plain.2.2]
    rfl

theorem Expr.toExprs_toSExprs : ∀ {es : List Expr}, Expr.EveryOf Expr.Made es →
    Expr.EveryOf Expr.Plain es →
    SExpr.toExprs (Expr.toSExprs es) = Expr.relabelAll (fun _ => 0) (Expr.wordedAll es)
  | [], _, _ => rfl
  | e :: es, made, plain => by
    rw [Expr.toSExprs, SExpr.toExprs, toExpr_toSExpr made.1 plain.1,
      toExprs_toSExprs made.2 plain.2]
    rfl

end

theorem Expr.toExpr_ofOption {value : Option Expr} (made : ∀ e ∈ value, e.Every Expr.Made)
    (plain : ∀ e ∈ value, e.Every Expr.Plain) :
    (SExpr.ofOption value).head?.map SExpr.toExpr = unlined (value.map Expr.worded) := by
  cases value with
  | none => rfl
  | some e =>
    show some e.toSExpr.toExpr = some (unlined e.worded)
    rw [Expr.toExpr_toSExpr (made e rfl) (plain e rfl)]

theorem Token.ofWord_params {params : List Token} (names : ∀ p ∈ params, p.IsName) :
    (params.map fun p => SExpr.atom p.lexeme).map (fun s => Token.ofWord s.render) =
      unlined params := by
  rw [List.map_map]
  exact List.map_congr_left fun p member => (names p member).1.ofWord

mutual

theorem Stmt.toStmt_toSExpr : ∀ {s : Stmt}, s.Made → s.Every Expr.Plain →
    s.toSExpr.toStmt = unlined s.worded
  | .expression e, made, plain | .print e, made, plain => by
    rw [Stmt.toSExpr, SExpr.toStmt, Expr.toExpr_toSExpr made plain]
    rfl
  | .declare name value, made, plain => by
    rw [Stmt.toSExpr, SExpr.toStmt, made.1.1.ofWord, Expr.toExpr_ofOption made.2 plain]
    rfl
  | .block body, made, plain => by
    rw [Stmt.toSExpr, SExpr.toStmt, toStmts_toSExprs made plain]
    rfl
  | .ifThen c s, made, plain | .loop c s, made, plain => by
    rw [Stmt.toSExpr, SExpr.toStmt, Expr.toExpr_toSExpr made.1 plain.1,
      toStmt_toSExpr made.2 plain.2]
    rfl
  | .ifElse c s t, made, plain => by
    rw [Stmt.toSExpr, SExpr.toStmt, Expr.toExpr_toSExpr made.1 plain.1,
      toStmt_toSExpr made.2.1 plain.2.1, toStmt_toSExpr made.2.2 plain.2.2]
    rfl
  | .function name params body, made, plain => by
    rw [Stmt.toSExpr, SExpr.toStmt, made.1.1.ofWord, Token.ofWord_params made.2.1,
      toStmts_toSExprs made.2.2 plain]
    rfl
  | .return_ keyword value, made, plain => by
    obtain ⟨⟨spelled, kind⟩, madeValue⟩ := made
    have word := spelled.ofWord
    rw [spelled.lexeme_keyword kind] at word
    simp only [Keyword.text] at word
    rw [Stmt.toSExpr, SExpr.toStmt, word, Expr.toExpr_ofOption madeValue plain]
    rfl

theorem Stmt.toStmts_toSExprs : ∀ {ss : List Stmt}, Stmt.MadeOf ss → Stmt.EveryOf Expr.Plain ss →
    SExpr.toStmts (Stmt.toSExprs ss) = Stmt.relabelAll (fun _ => 0) (Stmt.wordedAll ss)
  | [], _, _ => rfl
  | s :: ss, made, plain => by
    rw [Stmt.toSExprs, SExpr.toStmts, toStmt_toSExpr made.1 plain.1,
      toStmts_toSExprs made.2 plain.2]
    rfl

end

section Clean

open SExpr (CleanAll)

def fixedWords : List String :=
  operators ++ ["nil", "true", "false", "group", "=", "call", ";", "print", "var", "block", "if",
    "while", "fun", "return"]

theorem clean_fixed {text : String} (fixed : text ∈ fixedWords) : (SExpr.atom text).Clean := by
  have all : ∀ text ∈ fixedWords, text.toList ≠ [] ∧ text.toList.all isPlain = true := by
    decide +kernel
  exact (all text fixed).imp_right List.all_eq_true.mp

theorem clean_operator {text : String} (operator : text ∈ operators) : (SExpr.atom text).Clean :=
  clean_fixed (List.mem_append_left _ operator)

theorem Token.IsName.clean {name : Token} (isName : name.IsName) :
    (SExpr.atom name.lexeme).Clean := by
  have fits := (isName.1.lexeme_identifier isName.2).fits
  refine ⟨fits.ne_nil, fun c member => isPlain_of (q := isWordPart) ?_ (by decide)⟩
  generalize name.lexeme.toList = text at fits member
  rw [isWordPart_iff]
  cases fits with
  | identifier first others =>
    rcases List.mem_cons.mp member with rfl | member
    · exact .inl first
    · exact others c member

theorem clean_number {text : String} (fits : Pattern.number.Matches text.toList) :
    (SExpr.atom text).Clean := by
  refine ⟨fits.ne_nil, fun c member =>
    isPlain_of (q := fun c => c.isDigit || c == '.') ?_ (by decide)⟩
  generalize text.toList = cs at fits member
  simp only [Bool.or_eq_true, isDigit_iff, beq_iff_eq]
  cases fits with
  | whole digits => exact .inl (digits c member)
  | decimal digits places =>
    rcases List.mem_append.mp member with member | member
    · exact .inl (digits c member)
    · rcases List.mem_cons.mp member with rfl | member
      · exact .inr rfl
      · exact .inl (places c member)

theorem clean_literal {l : Literal} (made : (Expr.literal l).Made) (plain : (Expr.literal l).Plain) :
    (SExpr.atom l.render).Clean := by
  obtain ⟨t, spelled, constant⟩ := made
  generalize kind : t.kind = k at constant
  cases constant with
  | nil | yes | no => exact clean_fixed (by decide)
  | number x =>
    obtain ⟨fits, rfl⟩ := spelled.number_eq kind
    exact clean_number (Number.render_matches plain)
  | string s => exact plain.elim

mutual

theorem Expr.clean_toSExpr : ∀ {e : Expr}, e.Every Expr.Made → e.Every Expr.Plain →
    e.toSExpr.Clean
  | .literal _, made, plain => clean_literal made plain
  | .reference _, made, _ => made.clean
  | .grouping _, made, plain =>
    ⟨clean_fixed (by decide), clean_toSExpr made.2 plain.2, trivial⟩
  | .unary _ _, made, plain =>
    ⟨clean_operator (made.1.1.lexeme_sign made.1.2), clean_toSExpr made.2 plain.2, trivial⟩
  | .binary _ _ _, made, plain => by
    obtain ⟨⟨spelled, l, belongs, -, -⟩, madeA, madeB⟩ := made
    exact ⟨clean_operator (spelled.lexeme_layer belongs), clean_toSExpr madeA plain.2.1,
      clean_toSExpr madeB plain.2.2, trivial⟩
  | .logical _ _ _, made, plain => by
    obtain ⟨⟨spelled, belongs⟩, madeA, madeB⟩ := made
    have operator := belongs.elim spelled.lexeme_layer spelled.lexeme_layer
    exact ⟨clean_operator operator, clean_toSExpr madeA plain.2.1, clean_toSExpr madeB plain.2.2,
      trivial⟩
  | .assign _ _, made, plain =>
    ⟨clean_fixed (by decide), made.1.clean, clean_toSExpr made.2 plain.2, trivial⟩
  | .call _ _ _, made, plain =>
    ⟨clean_fixed (by decide), clean_toSExpr made.2.1 plain.2.1, clean_toSExprs made.2.2 plain.2.2⟩

theorem Expr.clean_toSExprs : ∀ {es : List Expr}, Expr.EveryOf Expr.Made es →
    Expr.EveryOf Expr.Plain es → CleanAll (Expr.toSExprs es)
  | [], _, _ => trivial
  | _ :: _, made, plain => ⟨clean_toSExpr made.1 plain.1, clean_toSExprs made.2 plain.2⟩

end

theorem clean_ofOption {value : Option Expr} (made : ∀ e ∈ value, e.Every Expr.Made)
    (plain : ∀ e ∈ value, e.Every Expr.Plain) : CleanAll (SExpr.ofOption value) := by
  cases value with
  | none => trivial
  | some e => exact ⟨Expr.clean_toSExpr (made e rfl) (plain e rfl), trivial⟩

theorem clean_params {params : List Token} (names : ∀ p ∈ params, p.IsName) :
    (SExpr.list (params.map fun p => .atom p.lexeme)).Clean := by
  show CleanAll _
  induction params with
  | nil => trivial
  | cons p ps ih =>
    obtain ⟨name, others⟩ := List.forall_mem_cons.mp names
    exact ⟨name.clean, ih others⟩

mutual

theorem Stmt.clean_toSExpr : ∀ {s : Stmt}, s.Made → s.Every Expr.Plain → s.toSExpr.Clean
  | .expression _, made, plain | .print _, made, plain =>
    ⟨clean_fixed (by decide), Expr.clean_toSExpr made plain, trivial⟩
  | .declare _ _, made, plain =>
    ⟨clean_fixed (by decide), made.1.clean, clean_ofOption made.2 plain⟩
  | .block _, made, plain => ⟨clean_fixed (by decide), clean_toSExprs made plain⟩
  | .ifThen _ _, made, plain | .loop _ _, made, plain =>
    ⟨clean_fixed (by decide), Expr.clean_toSExpr made.1 plain.1, clean_toSExpr made.2 plain.2,
      trivial⟩
  | .ifElse _ _ _, made, plain =>
    ⟨clean_fixed (by decide), Expr.clean_toSExpr made.1 plain.1, clean_toSExpr made.2.1 plain.2.1,
      clean_toSExpr made.2.2 plain.2.2, trivial⟩
  | .function _ _ _, made, plain =>
    ⟨clean_fixed (by decide), made.1.clean, clean_params made.2.1, clean_toSExprs made.2.2 plain⟩
  | .return_ _ _, made, plain => ⟨clean_fixed (by decide), clean_ofOption made.2 plain⟩

theorem Stmt.clean_toSExprs : ∀ {ss : List Stmt}, Stmt.MadeOf ss → Stmt.EveryOf Expr.Plain ss →
    CleanAll (Stmt.toSExprs ss)
  | [], _, _ => trivial
  | _ :: _, made, plain => ⟨clean_toSExpr made.1 plain.1, clean_toSExprs made.2 plain.2⟩

end

end Clean

section Back

variable (g : Nat → Nat)

@[simp] theorem Literal.render_worded (l : Literal) : l.worded.render = l.render := by
  cases l <;> rfl

mutual

/-- Neither lines nor the difference of numbers that have one text are seen in the form. -/
theorem Expr.toSExpr_worded : ∀ e : Expr, (e.worded.relabel g).toSExpr = e.toSExpr
  | .literal l => by simp [Expr.worded, Expr.relabel, Expr.toSExpr]
  | .reference _ => rfl
  | .grouping e | .unary _ e | .assign _ e => by
    simp [Expr.worded, Expr.relabel, Expr.toSExpr, toSExpr_worded e]
  | .binary a _ b | .logical a _ b => by
    simp [Expr.worded, Expr.relabel, Expr.toSExpr, toSExpr_worded a, toSExpr_worded b]
  | .call f _ args => by
    simp [Expr.worded, Expr.relabel, Expr.toSExpr, toSExpr_worded f, toSExprs_worded args]

theorem Expr.toSExprs_worded : ∀ es : List Expr,
    Expr.toSExprs (Expr.relabelAll g (Expr.wordedAll es)) = Expr.toSExprs es
  | [] => rfl
  | e :: es => by
    simp [Expr.wordedAll, Expr.relabelAll, Expr.toSExprs, toSExpr_worded e, toSExprs_worded es]

end

theorem Expr.relabel_def (e : Expr) : Lined.relabel g e = e.relabel g := rfl

theorem Expr.ofOption_worded (value : Option Expr) :
    SExpr.ofOption (Lined.relabel g (value.map Expr.worded)) = SExpr.ofOption value := by
  cases value with
  | none => rfl
  | some e => exact congrArg (fun s => [s]) (Expr.toSExpr_worded g e)

mutual

theorem Stmt.toSExpr_worded : ∀ s : Stmt, (s.worded.relabel g).toSExpr = s.toSExpr
  | .expression e | .print e => by
    simp [Stmt.worded, Stmt.relabel, Stmt.toSExpr, Expr.relabel_def, Expr.toSExpr_worded]
  | .declare _ value | .return_ _ value => by
    simp [Stmt.worded, Stmt.relabel, Stmt.toSExpr, Expr.ofOption_worded]
  | .block body => by simp [Stmt.worded, Stmt.relabel, Stmt.toSExpr, toSExprs_worded body]
  | .ifThen c s | .loop c s => by
    simp [Stmt.worded, Stmt.relabel, Stmt.toSExpr, Expr.relabel_def, Expr.toSExpr_worded,
      toSExpr_worded s]
  | .ifElse c s t => by
    simp [Stmt.worded, Stmt.relabel, Stmt.toSExpr, Expr.relabel_def, Expr.toSExpr_worded,
      toSExpr_worded s, toSExpr_worded t]
  | .function _ params body => by
    have words : (Lined.relabel g params).map (fun p => SExpr.atom p.lexeme) =
        params.map fun p => .atom p.lexeme := List.map_map
    simp [Stmt.worded, Stmt.relabel, Stmt.toSExpr, words, toSExprs_worded body]

theorem Stmt.toSExprs_worded : ∀ ss : List Stmt,
    Stmt.toSExprs (Stmt.relabelAll g (Stmt.wordedAll ss)) = Stmt.toSExprs ss
  | [] => rfl
  | s :: ss => by
    simp [Stmt.wordedAll, Stmt.relabelAll, Stmt.toSExprs, toSExpr_worded s, toSExprs_worded ss]

end

end Back

/-- The printed form is unambiguous. Two trees that were read without errors, with no string and no
infinite number in them, have the same text exactly if they are the same but for the lines of their
tokens and for numbers that are written alike. -/
theorem render_unambiguous :
    (∀ (source source' : String) (a b : Expr), a.ParsedFrom source → b.ParsedFrom source' →
      a.Every Expr.Plain → b.Every Expr.Plain →
      (a.render = b.render ↔ unlined a.worded = unlined b.worded)) ∧
    ∀ (source source' : String) (a b : Stmt), a.ParsedFrom source → b.ParsedFrom source' →
      a.Every Expr.Plain → b.Every Expr.Plain →
      (a.render = b.render ↔ unlined a.worded = unlined b.worded) := by
  constructor
  · intro source source' a b parsed parsed' plain plain'
    have made := parsed.made
    have made' := parsed'.made
    exact SExpr.render_eq_iff SExpr.toExpr (Expr.toSExpr_worded fun _ => 0)
      (Expr.clean_toSExpr made plain) (Expr.clean_toSExpr made' plain')
      (Expr.toExpr_toSExpr made plain) (Expr.toExpr_toSExpr made' plain')
  · intro source source' a b parsed parsed' plain plain'
    have made := parsed.made
    have made' := parsed'.made
    exact SExpr.render_eq_iff SExpr.toStmt (Stmt.toSExpr_worded fun _ => 0)
      (Stmt.clean_toSExpr made plain) (Stmt.clean_toSExpr made' plain')
      (Stmt.toStmt_toSExpr made plain) (Stmt.toStmt_toSExpr made' plain')

def Expr.first? (source : String) : Option Expr :=
  (Cursor.ofTokens (Scan.ofText source).tokens).expression.result.toOption

theorem Expr.parsedFrom_of_first {source : String} {e : Expr} (first : Expr.first? source = some e)
    (scans : (Scan.ofText source).diagnostics = [])
    (clean : (Cursor.ofTokens (Scan.ofText source).tokens).expression.diagnostics = []) :
    e.ParsedFrom source := by
  refine ⟨scans, _, List.suffix_rfl, ?_, clean⟩
  unfold Expr.first? at first
  generalize (Cursor.ofTokens (Scan.ofText source).tokens).expression.result = result at first
  cases result with
  | ok e' => exact congrArg Except.ok (Option.some.inj first)
  | error why => cases first

/-- Two numbers that differ after the fifth place, on different lines: the trees differ, the texts do
not. -/
theorem render_unambiguous_tenth :
    (∃ a b : Expr, a.ParsedFrom "-0.1" ∧ b.ParsedFrom "\n-0.100001" ∧ a.render = "(- 0.1)" ∧
      (a == b) = false ∧ unlined a.worded = unlined b.worded) ∧
    ∃ a b : Stmt, a.ParsedFrom "print 0.1;" ∧ b.ParsedFrom "\nprint 0.100001;" ∧
      a.render = "(print 0.1)" ∧ (a == b) = false ∧ unlined a.worded = unlined b.worded := by
  constructor
  · have read : (Expr.first? "-0.1").isSome = true ∧ (Expr.first? "\n-0.100001").isSome = true := by
      decide +kernel
    have facts : ∀ a ∈ Expr.first? "-0.1", ∀ b ∈ Expr.first? "\n-0.100001",
        a.Every Expr.Plain ∧ b.Every Expr.Plain ∧ a.render = "(- 0.1)" ∧ b.render = "(- 0.1)" ∧
          (a == b) = false := by decide +kernel
    obtain ⟨a, first⟩ := Option.isSome_iff_exists.mp read.1
    obtain ⟨b, second⟩ := Option.isSome_iff_exists.mp read.2
    obtain ⟨plain, plain', text, text', differ⟩ := facts a first b second
    have parsed := Expr.parsedFrom_of_first first (by decide +kernel) (by decide +kernel)
    have parsed' := Expr.parsedFrom_of_first second (by decide +kernel) (by decide +kernel)
    have alike := render_unambiguous.1 _ _ a b parsed parsed' plain plain'
    have same := alike.mp (text.trans text'.symm)
    exact ⟨a, b, parsed, parsed', text, differ, same⟩
  · let c := Cursor.ofTokens (Scan.ofText "print 0.1;").tokens
    let c' := Cursor.ofTokens (Scan.ofText "\nprint 0.100001;").tokens
    have read : c.program.result.length = 1 ∧ c'.program.result.length = 1 := by decide +kernel
    have facts : ∀ a ∈ c.program.result, ∀ b ∈ c'.program.result,
        a.Every Expr.Plain ∧ b.Every Expr.Plain ∧ a.render = "(print 0.1)" ∧
          b.render = "(print 0.1)" ∧ (a == b) = false := by decide +kernel
    obtain ⟨a, first⟩ := List.exists_mem_of_length_pos (read.1 ▸ Nat.one_pos)
    obtain ⟨b, second⟩ := List.exists_mem_of_length_pos (read.2 ▸ Nat.one_pos)
    obtain ⟨plain, plain', text, text', differ⟩ := facts a first b second
    have parsed : a.ParsedFrom "print 0.1;" :=
      ⟨by decide +kernel, c, List.suffix_rfl, .inr (.inr ⟨first, by decide +kernel⟩)⟩
    have parsed' : b.ParsedFrom "\nprint 0.100001;" :=
      ⟨by decide +kernel, c', List.suffix_rfl, .inr (.inr ⟨second, by decide +kernel⟩)⟩
    have alike := render_unambiguous.2 _ _ a b parsed parsed' plain plain'
    have same := alike.mp (text.trans text'.symm)
    exact ⟨a, b, parsed, parsed', text, differ, same⟩

end Lox

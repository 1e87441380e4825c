import Lox.Parse.Cursor
import Lox.Proofs.Derivation
import Lox.Proofs.Simulation

/- Trees that can be read from tokens, whatever else is wrong with these. Operators are in their
   places, and a statement that is no declaration binds nothing in the scope that it is in. -/
namespace Lox

/-- Operators are those that the nodes around them can be evaluated with. -/
def Expr.Operated : Expr → Prop
  | .unary op _ => op.kind = .symbol .bang ∨ op.kind = .symbol .minus
  | .binary _ op _ => ∃ l, op.kind.layer? = some l ∧ l ≠ .or ∧ l ≠ .and
  | .logical _ op _ => op.kind.layer? = some .or ∨ op.kind.layer? = some .and
  | _ => True

namespace Answer

variable {α β : Type} {p : α → Prop} {q : β → Prop} {a : Answer α}

def Only (p : α → Prop) (a : Answer α) : Prop :=
  ∀ value rest, a.outcome = .parsed value rest → p value

theorem Only.bind {next : α → List Token → Answer β} (first : a.Only p)
    (second : ∀ value rest, a.outcome = .parsed value rest → p value → (next value rest).Only q) :
    (a.bind next).Only q := by
  intro value rest eq
  obtain ⟨value', left, parsed, eq'⟩ := parsed_of_bind eq
  exact second value' left parsed (first value' left parsed) value rest eq'

theorem Only.map {f : α → β} (first : a.Only p) (second : ∀ value, p value → q (f value)) :
    (a.map f).Only q := by
  refine first.bind fun value rest _ given => ?_
  rintro _ _ ⟨⟩
  exact second value given

theorem Only.mono {p' : α → Prop} (only : a.Only p) (imp : ∀ value, p value → p' value) :
    a.Only p' :=
  fun value rest eq => imp value (only value rest eq)

theorem only_parsed {value : α} (given : p value) (rest : List Token) :
    (parsed value rest).Only p := by
  rintro _ _ ⟨⟩
  exact given

theorem only_unmet (p : α → Prop) (what : Expectation) (rest : List Token) :
    (unmet what rest).Only p := nofun

theorem only_any (a : Answer α) : a.Only fun _ => True := fun _ _ _ => trivial

end Answer

namespace Grammar

theorem Derives.operated {l : Level} {ts rest : List Token} {phrase : Phrase}
    (d : Derives l ts phrase rest) : phrase.expr.Every Expr.Operated := by
  induction d using @Derives.rec _ fun _ args _ _ => Expr.EveryOf Expr.Operated args.exprs with
  | constant | name => trivial
  | group _ _ _ inner => exact ⟨trivial, inner⟩
  | primary _ ih | call _ ih | operand _ ih | operation _ ih => exact ih
  | callNone _ _ _ callee => exact ⟨trivial, callee, trivial⟩
  | callSome _ _ _ _ callee args => exact ⟨trivial, callee, args⟩
  | unary sign _ operand => exact ⟨sign, operand⟩
  | @binary l op _ _ _ _ _ _ belongs _ left right =>
    simp only [Phrase.expr]
    split
    · rename_i logical
      exact ⟨logical, left, right⟩
    · rename_i other
      obtain ⟨notOr, notAnd⟩ := not_or.mp other
      refine ⟨⟨l, belongs, ?_, ?_⟩, left, right⟩
      · rintro rfl
        exact notOr belongs
      · rintro rfl
        exact notAnd belongs
  | @assign _ _ _ _ target _ _ _ _ left right =>
    cases target with
    | name token => exact ⟨trivial, right⟩
    | _ => exact left
  | last _ value => exact ⟨value, trivial⟩
  | more _ _ _ value later => exact ⟨value, later⟩

end Grammar

namespace Parse

theorem expression_derives (ts : List Token) :
    (expression ts).answer.Only fun e =>
      ∃ phrase rest, Grammar.Derives .assignment ts phrase rest ∧ phrase.expr = e := by
  intro e rest eq
  have form : (expression ts).answer =
      (Answer.parsed e rest).after (expression ts).answer.reports := by
    ext1
    · exact eq
    · simp [Answer.after, Answer.parsed]
  obtain ⟨phrase, derives, rfl, -⟩ := Grammar.expression_reads ts form
  exact ⟨phrase, rest, derives, rfl⟩

theorem expression_operated (ts : List Token) :
    (expression ts).answer.Only (·.Every Expr.Operated) := by
  refine (expression_derives ts).mono ?_
  rintro _ ⟨phrase, rest, derives, rfl⟩
  exact derives.operated

def Starts (s : Stmt) : Prop := (∃ e, s = .expression e) ∨ ∃ name value, s = .declare name value

section Statements

variable {p : Expr → Prop} (expressions : ∀ ts, (expression ts).answer.Only (·.Every p))
include expressions

theorem optional_every (stop : Kind) (ts : List Token) :
    (optional stop ts).answer.Only fun value => ∀ e ∈ value, e.Every p := by
  rw [answer_optional]
  split
  · exact Answer.only_parsed nofun ts
  · refine (expressions ts).map fun e every => ?_
    rintro _ ⟨⟩
    exact every

theorem expressionStatement_every (ts : List Token) :
    (expressionStatement ts).answer.Only fun s => s.Every p ∧ ∃ e, s = .expression e := by
  rw [answer_expressionStatement]
  refine (expressions ts).bind fun e rest _ every => ?_
  exact (Answer.only_any _).map fun _ _ => ⟨every, e, rfl⟩

theorem variableDeclaration_every (ts : List Token) :
    (variableDeclaration ts).answer.Only fun s => s.Every p ∧ ∃ name value, s = .declare name value := by
  have values (rest : List Token) :
      (initializer rest).answer.Only fun value => ∀ e ∈ value, e.Every p := by
    cases rest with
    | nil => exact Answer.only_parsed nofun []
    | cons t rest =>
      rw [answer_initializer_cons]
      split
      · refine (expressions rest).map fun e every => ?_
        rintro _ ⟨⟩
        exact every
      · exact Answer.only_parsed nofun _
  rw [answer_variableDeclaration]
  refine (Answer.only_any _).bind fun name rest _ _ => ?_
  refine (values rest).bind fun value rest' _ every => ?_
  exact (Answer.only_any _).map fun _ _ => ⟨every, name, value, rfl⟩

theorem forInitializer_every (ts : List Token) :
    (forInitializer ts).answer.Only fun first => ∀ s ∈ first, s.Every p ∧ Starts s := by
  have plain (ts : List Token) : ((expressionStatement ts).answer.map some).Only
      fun first => ∀ s ∈ first, s.Every p ∧ Starts s := by
    refine (expressionStatement_every expressions ts).map fun s read => ?_
    rintro _ ⟨⟩
    exact ⟨read.1, .inl read.2⟩
  cases ts with
  | nil =>
    rw [answer_forInitializer_nil]
    exact plain []
  | cons t rest =>
    rw [answer_forInitializer_cons]
    split
    · exact Answer.only_parsed nofun rest
    · split
      · refine (variableDeclaration_every expressions rest).map fun s read => ?_
        rintro _ ⟨⟩
        exact ⟨read.1, .inr read.2⟩
      · exact plain _

structure ForClauses.Every (p : Expr → Prop) (clauses : ForClauses) : Prop where
  initializer : ∀ s ∈ clauses.initializer, s.Every p ∧ Starts s
  condition : ∀ e ∈ clauses.condition, e.Every p
  increment : ∀ e ∈ clauses.increment, e.Every p

theorem forClauses_every (ts : List Token) :
    (forClauses ts).answer.Only (ForClauses.Every p) := by
  rw [answer_forClauses]
  refine (Answer.only_any _).bind fun _ rest₁ _ _ => ?_
  refine (forInitializer_every expressions rest₁).bind fun first rest₂ _ start => ?_
  refine (optional_every expressions _ rest₂).bind fun condition rest₃ _ holds => ?_
  refine (Answer.only_any _).bind fun _ rest₄ _ _ => ?_
  refine (optional_every expressions _ rest₄).bind fun increment rest₅ _ advances => ?_
  exact (Answer.only_any _).map fun _ _ => ⟨start, holds, advances⟩

end Statements

theorem ForClauses.loop_mode (clauses : ForClauses) {body : Stmt} (quiet : body.mode = .expression) :
    (clauses.loop body).mode = .expression := by
  obtain ⟨initializer, condition, increment⟩ := clauses
  cases initializer <;> cases increment <;> first | rfl | exact quiet

theorem ForClauses.Every.loop {p : Expr → Prop} {clauses : ForClauses} (every : clauses.Every p)
    (always : p (.literal (.bool true))) {body : Stmt} (inner : body.Every p) :
    (clauses.loop body).Every p := by
  obtain ⟨initializer, condition, increment⟩ := clauses
  obtain ⟨start, holds, advances⟩ := every
  have condition' : (condition.getD (.literal (.bool true))).Every p := by
    cases condition with
    | none => exact always
    | some c => exact holds c rfl
  cases increment with
  | none =>
    cases initializer with
    | none => exact ⟨condition', inner⟩
    | some first => exact ⟨(start first rfl).1, ⟨condition', inner⟩, trivial⟩
  | some e =>
    have round : Stmt.EveryOf p [body, .expression e] := ⟨inner, advances e rfl, trivial⟩
    cases initializer with
    | none => exact ⟨condition', round⟩
    | some first => exact ⟨(start first rfl).1, ⟨condition', round⟩, trivial⟩

def Quiet (p : Expr → Prop) (s : Stmt) : Prop := s.Every p ∧ s.mode = .expression

section Statements

variable {p : Expr → Prop} (expressions : ∀ ts, (expression ts).answer.Only (·.Every p))
  (always : p (.literal (.bool true))) {inFunction : Bool} {ts : List Token}
include expressions

theorem expressionStatement_quiet (ts : List Token) :
    (expressionStatement ts).answer.Only (Quiet p) := by
  refine (expressionStatement_every expressions ts).mono ?_
  rintro _ ⟨every, e, rfl⟩
  exact ⟨every, rfl⟩

theorem printStatement_quiet (ts : List Token) : (printStatement ts).answer.Only (Quiet p) := by
  rw [answer_printStatement]
  refine (expressions ts).bind fun e rest _ every => ?_
  exact (Answer.only_any _).map fun _ _ => ⟨every, rfl⟩

theorem returnStatement_quiet (inFunction : Bool) (keyword : Token) (ts : List Token) :
    (returnStatement inFunction keyword ts).answer.Only (Quiet p) := by
  have read : ((optional (.symbol .semicolon) ts).answer.bind fun value rest =>
      (expect .semicolonAfterReturnValue rest).answer.map fun _ =>
        Stmt.return_ keyword value).Only (Quiet p) := by
    refine (optional_every expressions _ ts).bind fun value rest _ every => ?_
    exact (Answer.only_any _).map fun _ _ => ⟨every, rfl⟩
  rw [answer_returnStatement]
  exact read

theorem whileStatement_quiet
    (statements : ∀ rest : List Token, rest.length < ts.length →
      (statement inFunction rest).answer.Only (Quiet p)) :
    (whileStatement inFunction ts).answer.Only (Quiet p) := by
  rw [answer_whileStatement]
  refine (Answer.only_any _).bind fun _ rest₁ first _ => ?_
  refine (expressions rest₁).bind fun c rest₂ second every => ?_
  refine (Answer.only_any _).bind fun _ rest₃ third _ => ?_
  have shorter : rest₃.length < ts.length :=
    Nat.lt_trans (Reply.shorter_of_parsed third)
      (Nat.lt_trans (Reply.shorter_of_parsed second) (Reply.shorter_of_parsed first))
  exact (statements rest₃ shorter).map fun s quiet => ⟨⟨every, quiet.1⟩, quiet.2⟩

theorem ifStatement_quiet
    (statements : ∀ rest : List Token, rest.length < ts.length →
      (statement inFunction rest).answer.Only (Quiet p)) :
    (ifStatement inFunction ts).answer.Only (Quiet p) := by
  rw [answer_ifStatement]
  refine (Answer.only_any _).bind fun _ rest₁ first _ => ?_
  refine (expressions rest₁).bind fun c rest₂ second every => ?_
  refine (Answer.only_any _).bind fun _ rest₃ third _ => ?_
  have shorter : rest₃.length < ts.length :=
    Nat.lt_trans (Reply.shorter_of_parsed third)
      (Nat.lt_trans (Reply.shorter_of_parsed second) (Reply.shorter_of_parsed first))
  refine (statements rest₃ shorter).bind fun s left fourth quiet => ?_
  have alone : Quiet p (.ifThen c s) := ⟨⟨every, quiet.1⟩, quiet.2⟩
  cases left with
  | nil => exact Answer.only_parsed alone []
  | cons t rest =>
    rw [alternative]
    split
    · have less : rest.length < ts.length :=
        Nat.lt_trans (Nat.lt_succ_self _) (Nat.lt_trans (Reply.shorter_of_parsed fourth) shorter)
      refine (statements rest less).map fun u quiet' => ⟨⟨every, quiet.1, quiet'.1⟩, ?_⟩
      rw [Stmt.mode, quiet.2, quiet'.2]
      rfl
    · exact Answer.only_parsed alone _

include always

theorem forStatement_quiet
    (statements : ∀ rest : List Token, rest.length < ts.length →
      (statement inFunction rest).answer.Only (Quiet p)) :
    (forStatement inFunction ts).answer.Only (Quiet p) := by
  rw [answer_forStatement]
  refine (forClauses_every expressions ts).bind fun clauses rest first every => ?_
  refine (statements rest (Reply.shorter_of_parsed first)).map fun body quiet => ?_
  exact ⟨every.loop always quiet.1, clauses.loop_mode quiet.2⟩

theorem statement_quiet
    (statements : ∀ rest : List Token, rest.length < ts.length →
      (statement inFunction rest).answer.Only (Quiet p))
    (blocks : ∀ rest : List Token, rest.length < ts.length →
      (block inFunction rest).answer.Only (Stmt.EveryOf p)) :
    (statement inFunction ts).answer.Only (Quiet p) := by
  cases ts with
  | nil =>
    rw [answer_statement_nil]
    exact expressionStatement_quiet expressions []
  | cons t rest =>
    have shorter : ∀ left : List Token, left.length < rest.length →
        (statement inFunction left).answer.Only (Quiet p) :=
      fun left less => statements left (Nat.lt_succ_of_lt less)
    rw [answer_statement_cons]
    split
    · exact forStatement_quiet expressions always shorter
    · exact ifStatement_quiet expressions shorter
    · exact printStatement_quiet expressions rest
    · exact returnStatement_quiet expressions inFunction t rest
    · exact whileStatement_quiet expressions shorter
    · exact (blocks rest (Nat.lt_succ_self _)).map fun body every => ⟨every, rfl⟩
    · exact expressionStatement_quiet expressions (t :: rest)

omit expressions always in
theorem functionDeclaration_every
    (blocks : ∀ rest : List Token, rest.length < ts.length →
      (block true rest).answer.Only (Stmt.EveryOf p)) :
    (functionDeclaration ts).answer.Only (·.Every p) := by
  rw [answer_functionDeclaration]
  refine (Answer.only_any _).bind fun name rest₁ first _ => ?_
  refine (Answer.only_any _).bind fun _ rest₂ second _ => ?_
  refine (Answer.only_any _).bind fun params rest₃ third _ => ?_
  refine (Answer.only_any _).bind fun _ rest₄ fourth _ => ?_
  refine (Answer.only_any _).bind fun _ rest₅ fifth _ => ?_
  have shorter : rest₅.length < ts.length := by
    have less₁ := Reply.shorter_of_parsed first
    have less₂ := Reply.shorter_of_parsed second
    have le₃ := (Reply.leaves_of_parsed third).length_le
    have less₄ := Reply.shorter_of_parsed fourth
    have less₅ := Reply.shorter_of_parsed fifth
    omega
  exact (blocks rest₅ shorter).map fun body every => every

omit always in
theorem declaration_every
    (statement : (Parse.statement inFunction ts).answer.Only (Quiet p))
    (blocks : ∀ rest : List Token, rest.length < ts.length →
      (block true rest).answer.Only (Stmt.EveryOf p)) :
    (declaration inFunction ts).answer.Only fun value => ∀ s ∈ value, s.Every p := by
  have attempts : (attempt inFunction ts).Only (·.Every p) := by
    cases ts with
    | nil => exact statement.mono fun _ quiet => quiet.1
    | cons t rest =>
      rw [attempt]
      split
      · exact functionDeclaration_every fun left less => blocks left (Nat.lt_succ_of_lt less)
      · split
        · exact (variableDeclaration_every expressions rest).mono fun _ read => read.1
        · exact statement.mono fun _ quiet => quiet.1
  rw [answer_declaration]
  intro value rest eq s member
  unfold settle at eq
  cases found : (attempt inFunction ts).outcome with
  | parsed stmt left =>
    rw [found] at eq
    cases eq
    cases member
    exact attempts s rest found
  | unmet what left =>
    rw [found] at eq
    cases eq
    cases member

omit expressions always in
theorem everyOf_append {ss : List Stmt} {value : Option Stmt} (first : ∀ s ∈ value, s.Every p)
    (later : Stmt.EveryOf p ss) : Stmt.EveryOf p (value.toList ++ ss) := by
  cases value with
  | none => exact later
  | some s => exact ⟨first s rfl, later⟩

/-- All statements that are read, alone or in a block, are made of expressions that satisfy `p`. -/
theorem statement_and_block_every (ts : List Token) (inFunction : Bool) :
    (statement inFunction ts).answer.Only (Quiet p) ∧
      (block inFunction ts).answer.Only (Stmt.EveryOf p) := by
  induction ts using shorterInduction generalizing inFunction with
  | step ts ih =>
    have statement := statement_quiet expressions always
      (fun rest less => (ih rest less inFunction).1) fun rest less => (ih rest less inFunction).2
    refine ⟨statement, ?_⟩
    cases ts with
    | nil =>
      rw [answer_block_nil]
      exact Answer.only_unmet _ _ _
    | cons t rest =>
      rw [answer_block_cons]
      split
      · exact Answer.only_parsed trivial rest
      · refine (declaration_every expressions statement fun left less => (ih left less true).2).bind
          fun value left read every => ?_
        have shorter : left.length < (t :: rest).length := by
          cases read
          exact Nat.lt_succ_of_le (declaration inFunction (t :: rest)).shorter
        exact ((ih left shorter inFunction).2).map fun later every' => everyOf_append every every'

theorem program_every (ts : List Token) : ∀ s ∈ (program ts).1, s.Every p := by
  induction ts using shorterInduction with
  | step ts ih =>
    cases ts with
    | nil => simp [program]
    | cons t rest =>
      intro s member
      rw [program] at member
      rcases List.mem_append.mp member with first | later
      · have read := declaration_every expressions
          (statement_and_block_every expressions always (t :: rest) false).1
          fun left _ => (statement_and_block_every expressions always left true).2
        exact read _ _ rfl s (Option.mem_toList.mp first)
      · exact ih _ (Nat.lt_succ_of_le (declaration false (t :: rest)).shorter) s later

end Statements

end Parse

def Expr.Read (e : Expr) : Prop := ∃ c : Cursor, c.expression.result = .ok e

def Stmt.Read (s : Stmt) : Prop :=
  ∃ c : Cursor, c.statement.result = .ok s ∨ c.declaration.result = some s ∨ s ∈ c.program.result

theorem Cursor.result_eq_ok {α : Type} {consumes : Bool} {ts : List Token} {c : Cursor}
    {r : Reply consumes α ts} {value : α} (eq : (c.ofReply r).result = .ok value) :
    ∃ rest, r.answer.outcome = .parsed value rest := by
  obtain ⟨outcome, reports, within⟩ := r
  cases outcome with
  | parsed value' rest =>
    cases eq
    exact ⟨rest, rfl⟩
  | unmet what rest => cases eq

section Read

variable {p : Expr → Prop} (expressions : ∀ ts, (Parse.expression ts).answer.Only (·.Every p))
include expressions

theorem Expr.Read.every {e : Expr} (read : e.Read) : e.Every p := by
  obtain ⟨c, read⟩ := read
  obtain ⟨rest, parsed⟩ := Cursor.result_eq_ok read
  exact expressions c.rest e rest parsed

theorem Stmt.Read.every (always : p (.literal (.bool true))) {s : Stmt} (read : s.Read) :
    s.Every p := by
  obtain ⟨c, read⟩ := read
  have along := Parse.statement_and_block_every expressions always
  rcases read with read | read | read
  · obtain ⟨rest, parsed⟩ := Cursor.result_eq_ok read
    exact ((along c.rest false).1 s rest parsed).1
  · exact Parse.declaration_every expressions (along c.rest false).1
      (fun rest _ => (along rest true).2) _ _ rfl s read
  · exact Parse.program_every expressions always c.rest s read

end Read

theorem Expr.Read.operated {e : Expr} (read : e.Read) : e.Every Expr.Operated :=
  read.every Parse.expression_operated

theorem Stmt.Read.operated {s : Stmt} (read : s.Read) : s.Every Expr.Operated :=
  read.every Parse.expression_operated trivial

end Lox

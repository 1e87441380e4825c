import Lox.Proofs.Derivation

/- What the parser of statements and declarations reads is derivable, with the tree and the reports of
   a derivation, unless an expectation was unmet: a declaration is then given up inside the block it
   stands in, and only the reports tell. -/
namespace Lox.Grammar

def Clean (made : List Report) : Prop := ∀ r ∈ made, ∃ rule, r.problem = .violated rule

theorem Clean.left {xs ys : List Report} (clean : Clean (xs ++ ys)) : Clean xs :=
  fun r mem => clean r (List.mem_append_left ys mem)

theorem Clean.right {xs ys : List Report} (clean : Clean (xs ++ ys)) : Clean ys :=
  fun r mem => clean r (List.mem_append_right xs mem)

section Inversion

variable {α β : Type} {what : Expectation} {ts rest : List Token} {made : List Report}

theorem expect_bind_eq_parsed {f : Token → List Token → Answer β} {value : β}
    (eq : (expect what ts).answer.bind f = (Answer.parsed value rest).after made) :
    ∃ t ts', ts = t :: ts' ∧ some t.kind = what.kind? ∧
      f t ts' = (Answer.parsed value rest).after made := by
  obtain ⟨t, ts', made₁, made₂, first, second, rfl⟩ := Answer.bind_eq_parsed_iff.mp eq
  obtain ⟨rfl, meets, rfl⟩ := answer_expect_eq_parsed_iff.mp first
  exact ⟨t, ts', rfl, meets, second⟩

theorem expect_map_eq_parsed {f : Token → β} {value : β}
    (eq : (expect what ts).answer.map f = (Answer.parsed value rest).after made) :
    ∃ t, ts = t :: rest ∧ some t.kind = what.kind? ∧ f t = value ∧ made = [] := by
  obtain ⟨t, first, rfl⟩ := Answer.map_eq_parsed_iff.mp eq
  obtain ⟨rfl, meets, rfl⟩ := answer_expect_eq_parsed_iff.mp first
  exact ⟨t, rfl, meets, rfl, rfl⟩

theorem expression_bind_eq_parsed {f : Expr → List Token → Answer β} {value : β}
    (eq : (Parse.expression ts).answer.bind f = (Answer.parsed value rest).after made) :
    ∃ p left later, Derives .assignment ts p left ∧ left.length < ts.length ∧
      f p.expr left = (Answer.parsed value rest).after later ∧
      made = reports p.places ++ later := by
  obtain ⟨e, left, made₁, later, first, second, rfl⟩ := Answer.bind_eq_parsed_iff.mp eq
  have shorter := Reply.shorter_of_parsed (congrArg Answer.outcome first)
  obtain ⟨p, derives, rfl, rfl⟩ := expression_reads ts first
  exact ⟨p, left, later, derives, shorter, second, rfl⟩

end Inversion

theorem optional_reads {stop : Kind} {ts rest : List Token} {value : Option Expr}
    {made : List Report}
    (eq : (Parse.optional stop ts).answer = (Answer.parsed value rest).after made) :
    ∃ p, DerivesOptional ts p rest ∧ p.map Phrase.expr = value ∧
      reports (optionalPlaces p) = made := by
  rw [Parse.answer_optional] at eq
  split at eq
  · obtain ⟨rfl, rfl, rfl⟩ := Answer.parsed_eq_parsed_iff.mp eq
    exact ⟨none, .none, rfl, rfl⟩
  · obtain ⟨e, found, rfl⟩ := Answer.map_eq_parsed_iff.mp eq
    obtain ⟨p, derives, rfl, rfl⟩ := expression_reads ts found
    exact ⟨some p, .some derives, rfl, rfl⟩

theorem expressionStatement_reads {ts rest : List Token} {stmt : Stmt} {made : List Report}
    (eq : (Parse.expressionStatement ts).answer = (Answer.parsed stmt rest).after made) :
    ∃ p stop, Derives .assignment ts p (stop :: rest) ∧ stop.kind = .symbol .semicolon ∧
      stmt = .expression p.expr ∧ reports p.places = made := by
  rw [Parse.answer_expressionStatement] at eq
  obtain ⟨p, left, later, derives, -, second, rfl⟩ := expression_bind_eq_parsed eq
  obtain ⟨stop, rfl, ends, rfl, rfl⟩ := expect_map_eq_parsed second
  exact ⟨p, stop, derives, Option.some.inj ends, rfl, by simp⟩

theorem variableDeclaration_reads {ts rest : List Token} {stmt : Stmt} {made : List Report}
    (eq : (Parse.variableDeclaration ts).answer = (Answer.parsed stmt rest).after made) :
    ∃ name value, DerivesVariable ts name value rest ∧
      stmt = .declare name (value.map Phrase.expr) ∧ reports (optionalPlaces value) = made := by
  rw [Parse.answer_variableDeclaration] at eq
  obtain ⟨name, ts₁, rfl, identifier, eq⟩ := expect_bind_eq_parsed eq
  have identifier := Option.some.inj identifier
  obtain ⟨value, ts₂, made₁, made₂, first, second, rfl⟩ := Answer.bind_eq_parsed_iff.mp eq
  obtain ⟨stop, rfl, ends, rfl, rfl⟩ := expect_map_eq_parsed second
  have ends := Option.some.inj ends
  cases ts₁ with
  | nil =>
    rw [Parse.answer_initializer_nil] at first
    obtain ⟨-, empty, -⟩ := Answer.parsed_eq_parsed_iff.mp first
    cases empty
  | cons t ts₁ =>
    rw [Parse.answer_initializer_cons] at first
    split at first
    · rename_i sign
      obtain ⟨e, found, rfl⟩ := Answer.map_eq_parsed_iff.mp first
      obtain ⟨p, derives, rfl, rfl⟩ := expression_reads ts₁ found
      exact ⟨name, some p, .initialized identifier sign derives ends, rfl, by simp [optionalPlaces]⟩
    · obtain ⟨rfl, same, rfl⟩ := Answer.parsed_eq_parsed_iff.mp first
      obtain ⟨rfl, rfl⟩ := List.cons.inj same
      exact ⟨name, none, .bare identifier ends, rfl, rfl⟩

theorem countReports_parameter (count : Nat) (t : Token) (ts : List Token) :
    Parse.countReports .tooManyParameters count (t :: ts) =
      (Place.parameter count t).report?.toList := by
  rw [countReports_cons, Place.report?]
  split
  · rfl
  · rfl

theorem parameterList_reads {ts : List Token} {count : Nat} {params rest : List Token}
    {made : List Report}
    (eq : (Parse.parameterList count ts).answer = (Answer.parsed params rest).after made) :
    ∃ name later, params = name :: later ∧ DerivesParameters ts params rest ∧
      reports (parameterPlaces count params) = made := by
  induction ts using shorterInduction generalizing count params made with
  | step ts ih =>
    rw [Parse.answer_parameterList] at eq
    obtain ⟨inside, found, rfl⟩ := Answer.after_eq_parsed_iff.mp eq
    obtain ⟨name, ts', rfl, identifier, found⟩ := expect_bind_eq_parsed found
    have identifier := Option.some.inj identifier
    rw [countReports_parameter]
    rcases entries_eq_parsed found with ⟨rfl, rfl, rfl⟩ | ⟨comma, ts₁, others, rfl, sep, tail, rfl⟩
    · exact ⟨name, [], rfl, .last identifier, by simp [parameterPlaces, reports_cons]⟩
    · obtain ⟨next, later, rfl, derives, rfl⟩ :=
        ih ts₁ (Nat.lt_succ_of_lt (Nat.lt_succ_self _)) tail
      refine ⟨name, next :: later, rfl, .more identifier sep derives, ?_⟩
      rw [parameterPlaces, reports_cons]

theorem parameters_reads {ts params rest : List Token} {made : List Report}
    (eq : (Parse.parameters ts).answer = (Answer.parsed params rest).after made) :
    DerivesParameters ts params rest ∧ reports (parameterPlaces 0 params) = made := by
  rw [Parse.answer_parameters] at eq
  split at eq
  · obtain ⟨rfl, rfl, rfl⟩ := Answer.parsed_eq_parsed_iff.mp eq
    exact ⟨.none, rfl⟩
  · obtain ⟨name, later, -, derives, made⟩ := parameterList_reads eq
    exact ⟨derives, made⟩

theorem forInitializer_reads {ts rest : List Token} {stmt : Option Stmt} {made : List Report}
    (eq : (Parse.forInitializer ts).answer = (Answer.parsed stmt rest).after made) :
    ∃ start, DerivesStart ts start rest ∧ start.map Start.stmt = stmt ∧
      reports (start.elim [] Start.places) = made := by
  have plain : ∀ {ts : List Token},
      (Parse.expressionStatement ts).answer.map some = (Answer.parsed stmt rest).after made →
      ∃ start, DerivesStart ts start rest ∧ start.map Start.stmt = stmt ∧
        reports (start.elim [] Start.places) = made := by
    intro ts eq
    obtain ⟨s, found, rfl⟩ := Answer.map_eq_parsed_iff.mp eq
    obtain ⟨p, stop, derives, ends, rfl, rfl⟩ := expressionStatement_reads found
    exact ⟨some (.expression p), .expression derives ends, rfl, rfl⟩
  cases ts with
  | nil =>
    rw [Parse.answer_forInitializer_nil] at eq
    exact plain eq
  | cons t ts =>
    rw [Parse.answer_forInitializer_cons] at eq
    split at eq
    · rename_i ends
      obtain ⟨rfl, rfl, rfl⟩ := Answer.parsed_eq_parsed_iff.mp eq
      exact ⟨none, .none ends, rfl, rfl⟩
    · split at eq
      · rename_i begins
        obtain ⟨s, found, rfl⟩ := Answer.map_eq_parsed_iff.mp eq
        obtain ⟨name, value, derives, rfl, rfl⟩ := variableDeclaration_reads found
        exact ⟨some (.declare name value), .declare begins derives, rfl, rfl⟩
      · exact plain eq

theorem forClauses_reads {ts rest : List Token} {clauses : Parse.ForClauses} {made : List Report}
    (eq : (Parse.forClauses ts).answer = (Answer.parsed clauses rest).after made) :
    ∃ start condition increment,
      (∀ keyword body rest', keyword.kind = .keyword .for_ → DerivesStatement rest body rest' →
        DerivesStatement (keyword :: ts) (.count start condition increment body) rest') ∧
      clauses = ⟨start.map Start.stmt, condition.map Phrase.expr, increment.map Phrase.expr⟩ ∧
      made = reports (start.elim [] Start.places ++ optionalPlaces condition ++
        optionalPlaces increment) := by
  rw [Parse.answer_forClauses] at eq
  obtain ⟨open_, ts₁, rfl, opens, eq₁⟩ := expect_bind_eq_parsed eq
  obtain ⟨first, ts₂, made₁, made₂, found₁, eq₂, rfl⟩ := Answer.bind_eq_parsed_iff.mp eq₁
  obtain ⟨start, derives₁, rfl, rfl⟩ := forInitializer_reads found₁
  obtain ⟨value, ts₃, made₃, made₄, found₂, eq₃, rfl⟩ := Answer.bind_eq_parsed_iff.mp eq₂
  obtain ⟨condition, derives₂, rfl, rfl⟩ := optional_reads found₂
  obtain ⟨stop, ts₄, rfl, ends, eq₄⟩ := expect_bind_eq_parsed eq₃
  obtain ⟨value, ts₅, made₅, made₆, found₃, eq₅, rfl⟩ := Answer.bind_eq_parsed_iff.mp eq₄
  obtain ⟨increment, derives₃, rfl, rfl⟩ := optional_reads found₃
  obtain ⟨close, rfl, closes, rfl, rfl⟩ := expect_map_eq_parsed eq₅
  refine ⟨start, condition, increment, ?_, rfl, by simp⟩
  intro keyword body rest' begins derives₄
  exact .count begins (Option.some.inj opens) derives₁ derives₂ (Option.some.inj ends) derives₃
    (Option.some.inj closes) derives₄

theorem loop_stmt (start : Option Start) (condition increment : Option Phrase) (body : Sentence) :
    Parse.ForClauses.loop
        ⟨start.map Start.stmt, condition.map Phrase.expr, increment.map Phrase.expr⟩ body.stmt =
      (Sentence.count start condition increment body).stmt := by
  cases start <;> cases condition <;> cases increment <;> rfl

def StatementReads (inFunction : Bool) (ts : List Token) (a : Answer Stmt) : Prop :=
  ∀ ⦃stmt rest made⦄, a = (Answer.parsed stmt rest).after made → Clean made →
    ∃ s, DerivesStatement ts s rest ∧ s.stmt = stmt ∧ reports (s.places inFunction) = made

def BlockReads (inFunction : Bool) (ts : List Token) (a : Answer (List Stmt)) : Prop :=
  ∀ ⦃stmts rest made⦄, a = (Answer.parsed stmts rest).after made → Clean made →
    ∃ body close, DerivesBody ts body (close :: rest) ∧ close.kind = .symbol .rightBrace ∧
      body.stmts = stmts ∧ reports (body.places inFunction) = made

theorem functionDeclaration_reads (inFunction : Bool) {ts : List Token} {keyword : Token}
    (begins : keyword.kind = .keyword .fun_)
    (blocks : ∀ rest : List Token, rest.length < ts.length →
      BlockReads true rest (Parse.block true rest).answer) {stmt : Stmt} {rest : List Token}
    {made : List Report}
    (eq : (Parse.functionDeclaration ts).answer = (Answer.parsed stmt rest).after made)
    (clean : Clean made) :
    ∃ s, DerivesDeclaration (keyword :: ts) s rest ∧ s.stmt = stmt ∧
      reports (s.places inFunction) = made := by
  rw [Parse.answer_functionDeclaration] at eq
  obtain ⟨name, ts₁, rfl, identifier, eq₁⟩ := expect_bind_eq_parsed eq
  obtain ⟨open_, ts₂, rfl, opens, eq₂⟩ := expect_bind_eq_parsed eq₁
  obtain ⟨params, ts₃, made₁, made₂, found, eq₃, rfl⟩ := Answer.bind_eq_parsed_iff.mp eq₂
  have within := (Reply.leaves_of_parsed (congrArg Answer.outcome found)).length_le
  obtain ⟨derives, rfl⟩ := parameters_reads found
  obtain ⟨close, ts₄, rfl, closes, eq₄⟩ := expect_bind_eq_parsed eq₃
  obtain ⟨brace, ts₅, rfl, opens', eq₅⟩ := expect_bind_eq_parsed eq₄
  obtain ⟨stmts, inside, rfl⟩ := Answer.map_eq_parsed_iff.mp eq₅
  have less : ts₅.length < (name :: open_ :: ts₂).length := by
    simp only [List.length_cons] at within ⊢
    omega
  obtain ⟨body, brace', derives', closes', rfl, rfl⟩ := blocks ts₅ less inside clean.right
  refine ⟨.function name params body, ?_, rfl, by simp [Sentence.places]⟩
  exact .function begins (Option.some.inj identifier) (Option.some.inj opens) derives
    (Option.some.inj closes) (Option.some.inj opens') derives' closes'

section Steps

variable {inFunction : Bool} {ts : List Token}

theorem whileStatement_reads {keyword : Token} (begins : keyword.kind = .keyword .while_)
    (statements : ∀ rest : List Token, rest.length < ts.length →
      StatementReads inFunction rest (Parse.statement inFunction rest).answer) :
    StatementReads inFunction (keyword :: ts) (Parse.whileStatement inFunction ts).answer := by
  intro stmt rest made eq clean
  rw [Parse.answer_whileStatement] at eq
  obtain ⟨open_, ts₁, rfl, opens, eq₁⟩ := expect_bind_eq_parsed eq
  obtain ⟨condition, ts₂, made₂, derives₁, shorter, eq₂, rfl⟩ := expression_bind_eq_parsed eq₁
  obtain ⟨close, ts₃, rfl, closes, eq₃⟩ := expect_bind_eq_parsed eq₂
  obtain ⟨round, found, rfl⟩ := Answer.map_eq_parsed_iff.mp eq₃
  have less : ts₃.length < (open_ :: ts₁).length := by
    simp only [List.length_cons] at shorter ⊢
    omega
  obtain ⟨body, derives₂, rfl, rfl⟩ := statements ts₃ less found clean.right
  refine ⟨.loop condition body, ?_, rfl, by simp [Sentence.places]⟩
  exact .loop begins (Option.some.inj opens) derives₁ (Option.some.inj closes) derives₂

theorem ifStatement_reads {keyword : Token} (begins : keyword.kind = .keyword .if_)
    (statements : ∀ rest : List Token, rest.length < ts.length →
      StatementReads inFunction rest (Parse.statement inFunction rest).answer) :
    StatementReads inFunction (keyword :: ts) (Parse.ifStatement inFunction ts).answer := by
  intro stmt rest made eq clean
  rw [Parse.answer_ifStatement] at eq
  obtain ⟨open_, ts₁, rfl, opens, eq₁⟩ := expect_bind_eq_parsed eq
  have opens := Option.some.inj opens
  obtain ⟨condition, ts₂, made₂, derives₁, shorter, eq₂, rfl⟩ := expression_bind_eq_parsed eq₁
  obtain ⟨close, ts₃, rfl, closes, eq₃⟩ := expect_bind_eq_parsed eq₂
  have closes := Option.some.inj closes
  obtain ⟨first, ts₄, made₃, made₄, found, eq₄, rfl⟩ := Answer.bind_eq_parsed_iff.mp eq₃
  have shorter' := Reply.shorter_of_parsed (congrArg Answer.outcome found)
  have less : ts₃.length < (open_ :: ts₁).length := by
    simp only [List.length_cons] at shorter ⊢
    omega
  obtain ⟨thenBranch, derives₂, rfl, rfl⟩ := statements ts₃ less found clean.right.left
  cases ts₄ with
  | nil =>
    obtain ⟨rfl, rfl, rfl⟩ := Answer.parsed_eq_parsed_iff.mp eq₄
    refine ⟨.ifThen condition thenBranch, ?_, rfl, by simp [Sentence.places]⟩
    exact .ifThen begins opens derives₁ closes derives₂ nofun
  | cons t ts₄ =>
    simp only [Parse.alternative] at eq₄
    split at eq₄
    · rename_i else_
      obtain ⟨second, found, rfl⟩ := Answer.map_eq_parsed_iff.mp eq₄
      have less : ts₄.length < (open_ :: ts₁).length := by
        simp only [List.length_cons] at shorter' less ⊢
        omega
      obtain ⟨elseBranch, derives₃, rfl, rfl⟩ := statements ts₄ less found clean.right.right
      refine ⟨.ifElse condition thenBranch elseBranch, ?_, rfl, by simp [Sentence.places]⟩
      exact .ifElse begins opens derives₁ closes derives₂ else_ derives₃
    · rename_i noElse
      obtain ⟨rfl, rfl, rfl⟩ := Answer.parsed_eq_parsed_iff.mp eq₄
      refine ⟨.ifThen condition thenBranch, ?_, rfl, by simp [Sentence.places]⟩
      refine .ifThen begins opens derives₁ closes derives₂ ?_
      rintro next ⟨⟩
      exact noElse

theorem forStatement_reads {keyword : Token} (begins : keyword.kind = .keyword .for_)
    (statements : ∀ rest : List Token, rest.length < ts.length →
      StatementReads inFunction rest (Parse.statement inFunction rest).answer) :
    StatementReads inFunction (keyword :: ts) (Parse.forStatement inFunction ts).answer := by
  intro stmt rest made eq clean
  rw [Parse.answer_forStatement] at eq
  obtain ⟨clauses, left, made₁, made₂, first, second, rfl⟩ := Answer.bind_eq_parsed_iff.mp eq
  have shorter := Reply.shorter_of_parsed (congrArg Answer.outcome first)
  obtain ⟨start, condition, increment, derives, rfl, rfl⟩ := forClauses_reads first
  obtain ⟨round, found, rfl⟩ := Answer.map_eq_parsed_iff.mp second
  obtain ⟨body, derives', rfl, rfl⟩ := statements left shorter found clean.right
  refine ⟨.count start condition increment body, derives keyword body rest begins derives', ?_, ?_⟩
  · rw [loop_stmt]
  · simp [Sentence.places]

theorem printStatement_reads {keyword : Token} (begins : keyword.kind = .keyword .print) :
    StatementReads inFunction (keyword :: ts) (Parse.printStatement ts).answer := by
  intro stmt rest made eq clean
  rw [Parse.answer_printStatement] at eq
  obtain ⟨value, left, later, derives, -, last, rfl⟩ := expression_bind_eq_parsed eq
  obtain ⟨stop, rfl, ends, rfl, rfl⟩ := expect_map_eq_parsed last
  exact ⟨.print value, .print begins derives (Option.some.inj ends), rfl, by simp [Sentence.places]⟩

theorem returnStatement_reads {keyword : Token} (begins : keyword.kind = .keyword .return_) :
    StatementReads inFunction (keyword :: ts)
      (Parse.returnStatement inFunction keyword ts).answer := by
  intro stmt rest made eq clean
  rw [Parse.answer_returnStatement] at eq
  obtain ⟨inside, whole, rfl⟩ := Answer.after_eq_parsed_iff.mp eq
  obtain ⟨found, left, made₁, made₂, first, second, rfl⟩ := Answer.bind_eq_parsed_iff.mp whole
  obtain ⟨value, derives, rfl, rfl⟩ := optional_reads first
  obtain ⟨stop, rfl, ends, rfl, rfl⟩ := expect_map_eq_parsed second
  refine ⟨.return_ keyword value, .return_ begins derives (Option.some.inj ends), rfl, ?_⟩
  cases inFunction <;> simp [Sentence.places, reports_cons, Place.report?]

theorem statement_reads
    (statements : ∀ rest : List Token, rest.length < ts.length →
      StatementReads inFunction rest (Parse.statement inFunction rest).answer)
    (blocks : ∀ rest : List Token, rest.length < ts.length →
      BlockReads inFunction rest (Parse.block inFunction rest).answer) :
    StatementReads inFunction ts (Parse.statement inFunction ts).answer := by
  have plain : StatementReads inFunction ts (Parse.expressionStatement ts).answer := by
    intro stmt rest made eq clean
    obtain ⟨value, stop, derives, ends, rfl, rfl⟩ := expressionStatement_reads eq
    exact ⟨.expression value, .expression derives ends, rfl, rfl⟩
  cases ts with
  | nil =>
    rw [Parse.answer_statement_nil]
    exact plain
  | cons t ts =>
    have shorter : ∀ rest : List Token, rest.length < ts.length →
        StatementReads inFunction rest (Parse.statement inFunction rest).answer :=
      fun rest less => statements rest (Nat.lt_succ_of_lt less)
    rw [Parse.answer_statement_cons]
    split
    · rename_i begins
      exact forStatement_reads begins shorter
    · rename_i begins
      exact ifStatement_reads begins shorter
    · rename_i begins
      exact printStatement_reads begins
    · rename_i begins
      exact returnStatement_reads begins
    · rename_i begins
      exact whileStatement_reads begins shorter
    · rename_i opens
      intro stmt rest made eq clean
      obtain ⟨stmts, found, rfl⟩ := Answer.map_eq_parsed_iff.mp eq
      obtain ⟨body, close, derives, closes, rfl, rfl⟩ := blocks ts (Nat.lt_succ_self _) found clean
      exact ⟨.block body, .block opens derives closes, rfl, rfl⟩
    · exact plain

theorem settle_eq_parsed {a : Answer Stmt} {value : Option Stmt} {rest : List Token}
    {made : List Report} (eq : Parse.settle a = (Answer.parsed value rest).after made)
    (clean : Clean made) :
    ∃ stmt, value = some stmt ∧ a = (Answer.parsed stmt rest).after made := by
  rcases a.eq_parsed_or_unmet with ⟨stmt, left, form⟩ | ⟨what, left, form⟩
  · rw [form] at eq
    obtain ⟨later, plain, rfl⟩ := Answer.after_eq_parsed_iff.mp eq
    obtain ⟨rfl, rfl, rfl⟩ := Answer.parsed_eq_parsed_iff.mp plain
    exact ⟨stmt, rfl, by rw [form]; simp [Answer.after, Answer.parsed]⟩
  · rw [form] at eq
    obtain ⟨later, plain, rfl⟩ := Answer.after_eq_parsed_iff.mp eq
    obtain ⟨rule, broken⟩ := clean ⟨left.head?, .expected what⟩ (by simp)
    cases broken

theorem declaration_reads
    (statement : StatementReads inFunction ts (Parse.statement inFunction ts).answer)
    (blocks : ∀ rest : List Token, rest.length < ts.length →
      BlockReads true rest (Parse.block true rest).answer) {value : Option Stmt} {rest : List Token}
    {made : List Report}
    (eq : (Parse.declaration inFunction ts).answer = (Answer.parsed value rest).after made)
    (clean : Clean made) :
    ∃ s, DerivesDeclaration ts s rest ∧ some s.stmt = value ∧
      reports (s.places inFunction) = made := by
  rw [Parse.answer_declaration] at eq
  obtain ⟨stmt, rfl, found⟩ := settle_eq_parsed eq clean
  have plain (found : (Parse.statement inFunction ts).answer =
      (Answer.parsed stmt rest).after made) : ∃ s, DerivesDeclaration ts s rest ∧
        some s.stmt = some stmt ∧ reports (s.places inFunction) = made := by
    obtain ⟨s, derives, rfl, rfl⟩ := statement found clean
    exact ⟨s, .statement derives, rfl, rfl⟩
  cases ts with
  | nil => exact plain found
  | cons t ts =>
    simp only [Parse.attempt] at found
    split at found
    · rename_i begins
      obtain ⟨s, derives, rfl, rfl⟩ := functionDeclaration_reads inFunction begins
        (fun rest less => blocks rest (Nat.lt_succ_of_lt less)) found clean
      exact ⟨s, derives, rfl, rfl⟩
    · split at found
      · rename_i begins
        obtain ⟨name, value, derives, rfl, rfl⟩ := variableDeclaration_reads found
        exact ⟨.declare name value, .declare begins derives, rfl, rfl⟩
      · exact plain found

theorem block_reads
    (statement : StatementReads inFunction ts (Parse.statement inFunction ts).answer)
    (bodies : ∀ rest : List Token, rest.length < ts.length →
      BlockReads true rest (Parse.block true rest).answer)
    (blocks : ∀ rest : List Token, rest.length < ts.length →
      BlockReads inFunction rest (Parse.block inFunction rest).answer) :
    BlockReads inFunction ts (Parse.block inFunction ts).answer := by
  intro stmts rest made eq clean
  cases ts with
  | nil => simp [Parse.answer_block_nil] at eq
  | cons t ts =>
    rw [Parse.answer_block_cons] at eq
    split at eq
    · rename_i closes
      obtain ⟨rfl, rfl, rfl⟩ := Answer.parsed_eq_parsed_iff.mp eq
      exact ⟨.none, t, .none, closes, rfl, rfl⟩
    · obtain ⟨value, left, made₁, made₂, first, second, rfl⟩ := Answer.bind_eq_parsed_iff.mp eq
      obtain ⟨later, found, rfl⟩ := Answer.map_eq_parsed_iff.mp second
      have shorter : left.length < (t :: ts).length := by
        obtain ⟨-, same, -⟩ := Answer.parsed_eq_parsed_iff.mp
          ((Answer.after_eq_parsed_iff.mp first).choose_spec.1)
        have le := (Parse.declaration inFunction (t :: ts)).shorter
        rw [same] at le
        exact Nat.lt_succ_of_le le
      obtain ⟨s, derives, rfl, rfl⟩ :=
        declaration_reads statement bodies first clean.left
      obtain ⟨body, close, derives', closes, rfl, rfl⟩ := blocks left shorter found clean.right
      exact ⟨.more s body, close, .more derives derives', closes, rfl, by simp [Sentences.places]⟩

end Steps

theorem statements_and_blocks_read (inFunction : Bool) (ts : List Token) :
    StatementReads inFunction ts (Parse.statement inFunction ts).answer ∧
      BlockReads inFunction ts (Parse.block inFunction ts).answer := by
  induction ts using shorterInduction generalizing inFunction with
  | step ts ih =>
    have statement : StatementReads inFunction ts (Parse.statement inFunction ts).answer :=
      statement_reads (fun rest less => (ih rest less inFunction).1)
        (fun rest less => (ih rest less inFunction).2)
    exact ⟨statement, block_reads statement (fun rest less => (ih rest less true).2)
      (fun rest less => (ih rest less inFunction).2)⟩

/-- A program in which nothing expected was missing is derivable, with its tree and its reports. -/
theorem program_reads {ts : List Token} (clean : Clean (Parse.program ts).2) :
    ∃ program, DerivesProgram ts program ∧
      Parse.program ts = (program.stmts, reports (program.places false)) := by
  induction ts using shorterInduction with
  | step ts ih =>
    cases ts with
    | nil => exact ⟨.none, .none, by rw [Parse.program]; rfl⟩
    | cons t ts =>
      rw [Parse.program] at clean ⊢
      have shorter := Nat.lt_of_le_sub_one (Nat.succ_pos _)
        (Parse.declaration false (t :: ts)).shorter
      obtain ⟨s, derives, value, made⟩ := declaration_reads
        (statements_and_blocks_read false (t :: ts)).1
        (fun rest _ => (statements_and_blocks_read true rest).2) rfl clean.left
      obtain ⟨program, derives', later⟩ := ih _ shorter clean.right
      refine ⟨.more s program, .more derives derives', ?_⟩
      rw [later, ← value, ← made]
      simp [Sentences.stmts, Sentences.places]

end Lox.Grammar

import Lox.Proofs.Frontier
import Lox.Proofs.Lines

/- The first thing missing from a program is reported at the first token that no program could have
   there. Statements and declarations find what is missing as expressions do; a declaration that is
   given up has reported it before anything is skipped. -/
namespace Lox.Parse

open Grammar (Clean closesPhrase)

variable {α β : Type}

/-- `f` detects what is wrong in lists of fewer than `n` tokens, and can be completed after what
`before` allows. -/
structure Finds (n : Nat) (moves : Bool) (before follow : List Token → Prop)
    (f : List Token → Answer α) : Prop where
  detects : ∀ ts : List Token, ts.length < n → Detects moves follow f ts
  resumes : Resumable before follow f

namespace Finds

variable {n : Nat} {moves : Bool} {E F G : List Token → Prop} {f h : List Token → Answer α}
  {g : α → List Token → Answer β}

theorem congr (finds : Finds n moves E F f) (same : ∀ ts, h ts = f ts) : Finds n moves E F h := by
  rwa [show h = f from funext same]

theorem bind (first : Finds n moves E F f) (second : ∀ value, Finds n true F G (g value)) :
    Finds n true E G fun ts => (f ts).bind g where
  detects ts less := (first.detects ts less).bind
    (fun value rest leaves => (second value).detects rest (Nat.lt_of_le_of_lt leaves.length_le less))
    fun value => (second value).resumes
  resumes := first.resumes.bind fun value => (second value).resumes

theorem bindIdle (first : Finds n moves E F f) (second : ∀ value, Finds n false F G (g value))
    (idle : ∀ later, G later → F later) : Finds n moves E G fun ts => (f ts).bind g where
  detects ts less := (first.detects ts less).bindIdle
    (fun value rest leaves => (second value).detects rest (Nat.lt_of_le_of_lt leaves.length_le less))
    (fun value => (second value).resumes) idle
  resumes := first.resumes.bind fun value => (second value).resumes

theorem map {u : α → β} (finds : Finds n moves E F f) : Finds n moves E F fun ts => (f ts).map u :=
  ⟨fun ts less => (finds.detects ts less).map, finds.resumes.map⟩

theorem expect (what : Expectation) {kind : Kind} (one : what.kind? = some kind)
    (allowed : ∀ t later, t.kind = kind → E (t :: later)) :
    Finds n true E F fun ts => (Lox.expect what ts).answer :=
  ⟨fun ts _ => .expect what one ts, .expect what one allowed⟩

theorem token (what : Expectation) {kind : Kind} (one : what.kind? = some kind) :
    Finds n true Anything F fun ts => (Lox.expect what ts).answer :=
  expect what one fun _ _ _ => trivial

theorem stop (what : Expectation) {kind : Kind} (one : what.kind? = some kind) :
    Finds n true (Before kind) F fun ts => (Lox.expect what ts).answer :=
  expect what one fun t later eq => ⟨t, later, rfl, eq⟩

theorem close (what : Expectation) {kind : Kind} (one : what.kind? = some kind)
    (closes : closesPhrase kind = true) :
    Finds n true Closing F fun ts => (Lox.expect what ts).answer :=
  expect what one fun t later eq => ⟨t, later, rfl, eq ▸ closes⟩

theorem expression : Finds n true Anything Closing fun ts => (Parse.expression ts).answer :=
  ⟨fun ts _ => expression_detects ts, .expression fun _ => trivial⟩

theorem stopping {stop : Kind} {value : α}
    (cases : ∀ ts, h ts = if ts.head?.any (·.kind = stop) then .parsed value ts else f ts)
    (detects : ∀ ts, Detects true (Before stop) f ts) : Finds n false Anything (Before stop) h := by
  refine ⟨fun ts _ => .stopping cases (detects ts), .nothing value (fun _ _ => trivial) ?_⟩
  intro later next
  rw [cases, if_pos next.any]

theorem optional {stop : Kind} (closes : closesPhrase stop = true) :
    Finds n false Anything (Before stop) fun ts => (Parse.optional stop ts).answer :=
  stopping (answer_optional stop) fun ts =>
    ((expression_detects ts).mono fun _ next => Before.closing closes next).map

end Finds

section Clauses

variable {n : Nat} {F : List Token → Prop}

theorem expressionStatement_finds :
    Finds n true Anything F fun ts => (expressionStatement ts).answer :=
  (Finds.expression.bind fun _ => (Finds.close .semicolonAfterExpression rfl rfl).map).congr
    answer_expressionStatement

theorem printStatement_finds : Finds n true Anything F fun ts => (printStatement ts).answer :=
  (Finds.expression.bind fun _ => (Finds.close .semicolonAfterValue rfl rfl).map).congr
    answer_printStatement

theorem returnStatement_detects (inFunction : Bool) (keyword : Token) (ts : List Token) :
    Detects true F (fun ts => (returnStatement inFunction keyword ts).answer) ts := by
  have read : Finds (ts.length + 1) true Anything F fun ts =>
      (optional (.symbol .semicolon) ts).answer.bind fun value rest =>
        (expect .semicolonAfterReturnValue rest).answer.map fun _ => Stmt.return_ keyword value :=
    (Finds.optional rfl).bind fun _ => (Finds.stop .semicolonAfterReturnValue rfl).map
  refine Detects.congr ?_ (answer_returnStatement inFunction keyword)
  refine Detects.after (fun _ => ?_) (fun _ => rfl) (read.detects ts (Nat.lt_succ_self _))
  split
  · exact clean_nil
  · intro r member
    rw [List.mem_singleton.mp member]
    exact ⟨_, rfl⟩

theorem initializer_finds :
    Finds n false Anything (Before (.symbol .semicolon)) fun ts => (initializer ts).answer := by
  have closed (later : List Token) (next : Before (.symbol .semicolon) later) :
      (initializer later).answer = .parsed none later := by
    obtain ⟨t, rest, rfl, ends⟩ := next
    rw [answer_initializer_cons, if_neg]
    rw [ends]
    decide
  refine ⟨fun ts _ => ?_, .nothing none (fun _ _ => trivial) closed⟩
  cases ts with
  | nil => exact .done_nil none answer_initializer_nil closed
  | cons t rest =>
    have takes (later : List Token) := answer_initializer_cons t later
    by_cases equals : t.kind = .symbol .equal
    · simp only [if_pos equals] at takes
      exact .past takes
        ((expression_detects rest).mono fun _ next => Before.closing rfl next).map
    · simp only [if_neg equals] at takes
      exact .done_cons none takes closed

theorem variableDeclaration_finds :
    Finds n true Anything F fun ts => (variableDeclaration ts).answer :=
  ((Finds.token .variableName rfl).bind fun _ => initializer_finds.bind fun _ =>
    (Finds.stop .semicolonAfterDeclaration rfl).map).congr answer_variableDeclaration

theorem parameterList_detects (count : Nat) (ts : List Token) :
    Detects true (Before (.symbol .rightParen)) (fun ts => (parameterList count ts).answer) ts := by
  induction ts using shorterInduction generalizing count with
  | step ts ih =>
    refine Detects.congr ?_ (answer_parameterList count)
    refine Detects.after (countReports_clean _ count) countReports_head ?_
    refine (Detects.expect (F := Anything) .parameterName rfl ts).bindIdle
      (fun first left less => ?_) (fun first => ?_) fun _ _ => trivial
    · exact Detects.entries (fun rest less' => ih rest (Nat.lt_trans less' less) (count + 1)) first
    · exact .nothing _ (fun _ _ => trivial) (entries_before _ first)

theorem parameters_finds :
    Finds n false Anything (Before (.symbol .rightParen)) fun ts => (parameters ts).answer :=
  .stopping answer_parameters (parameterList_detects 0)

theorem forInitializer_finds : Finds n true Anything F fun ts => (forInitializer ts).answer := by
  have completable : Resumable Anything F fun ts => (forInitializer ts).answer := by
    refine ⟨[⟨.symbol .semicolon, ";", 1⟩], none, fun later _ => ⟨trivial, [], clean_nil, ?_⟩⟩
    exact (answer_forInitializer_cons _ later).trans (if_pos rfl)
  refine ⟨fun ts less => ?_, completable⟩
  have plain := (expressionStatement_finds.detects ts less).map (u := some) (F := F)
  cases ts with
  | nil => exact plain.of_nil answer_forInitializer_nil completable
  | cons t rest =>
    have takes (later : List Token) := answer_forInitializer_cons t later
    by_cases ends : t.kind = .symbol .semicolon
    · simp only [if_pos ends] at takes
      exact .past takes (.done none fun _ _ => rfl)
    · by_cases begins : t.kind = .keyword .var
      · simp only [if_neg ends, if_pos begins] at takes
        have less' : rest.length < n := Nat.lt_of_succ_lt less
        exact .past takes (variableDeclaration_finds.detects rest less').map
      · simp only [if_neg ends, if_neg begins] at takes
        exact plain.of_cons takes completable

theorem forClauses_finds : Finds n true Anything F fun ts => (forClauses ts).answer := by
  refine Finds.congr ?_ answer_forClauses
  refine (Finds.token (F := Anything) .parenAfterFor rfl).bind fun _ => ?_
  refine (forInitializer_finds (F := Anything)).bind fun first => ?_
  refine (Finds.optional rfl).bind fun condition => ?_
  refine (Finds.stop (F := Anything) .semicolonAfterLoopCondition rfl).bind fun _ => ?_
  refine (Finds.optional rfl).bind fun increment => ?_
  exact (Finds.stop .parenAfterForClauses rfl).map

end Clauses

def NoElse (later : List Token) : Prop := ∀ t ∈ later.head?, t.kind ≠ .keyword .else_

structure StatementsFind (n : Nat) : Prop where
  statement : ∀ inFunction, Finds n true Anything NoElse fun ts => (statement inFunction ts).answer
  block : ∀ inFunction, Finds n true Anything Anything fun ts => (block inFunction ts).answer

section Statements

variable {n : Nat} (inFunction : Bool)

def semicolonToken : Token := ⟨.symbol .semicolon, ";", 1⟩

theorem statement_nil (later : List Token) :
    (statement inFunction (nilToken :: semicolonToken :: later)).answer =
      .parsed (.expression (.literal .nil)) later := by
  have ended : (expect .semicolonAfterExpression (semicolonToken :: later)).answer =
      .parsed semicolonToken later := (answer_expect_cons _ _ later).trans (if_pos rfl)
  have closing : Closing (semicolonToken :: later) := ⟨semicolonToken, later, rfl, rfl⟩
  rw [answer_statement_cons]
  show (expressionStatement (nilToken :: semicolonToken :: later)).answer = _
  rw [answer_expressionStatement, expression_nil closing, Answer.parsed_bind, ended]
  rfl

theorem statement_resumes :
    Resumable Anything NoElse fun ts => (statement inFunction ts).answer :=
  ⟨[nilToken, semicolonToken], _, fun later _ =>
    ⟨trivial, [], clean_nil, statement_nil inFunction later⟩⟩

theorem attempt_resumes : Resumable Anything NoElse (attempt inFunction) :=
  ⟨[nilToken, semicolonToken], _, fun later _ =>
    ⟨trivial, [], clean_nil, statement_nil inFunction later⟩⟩

theorem block_resumes {E : List Token → Prop}
    (allowed : ∀ t later, t.kind = .symbol .rightBrace → E (t :: later)) :
    Resumable E Anything fun ts => (block inFunction ts).answer := by
  refine ⟨[⟨.symbol .rightBrace, "\x7d", 1⟩], [], fun later _ =>
    ⟨allowed _ later rfl, [], clean_nil, ?_⟩⟩
  exact (answer_block_cons inFunction _ later).trans (if_pos rfl)

variable (ih : StatementsFind n)
include ih

theorem forStatement_finds :
    Finds n true Anything NoElse fun ts => (forStatement inFunction ts).answer :=
  (forClauses_finds.bind fun _ => (ih.statement inFunction).map).congr
    (answer_forStatement inFunction)

theorem whileStatement_finds :
    Finds n true Anything NoElse fun ts => (whileStatement inFunction ts).answer := by
  refine Finds.congr ?_ (answer_whileStatement inFunction)
  refine (Finds.token (F := Anything) .parenAfterWhile rfl).bind fun _ => ?_
  refine Finds.expression.bind fun condition => ?_
  refine (Finds.close (F := Anything) .parenAfterCondition rfl rfl).bind fun _ => ?_
  exact (ih.statement inFunction).map

/-- An else belongs to the statement before it, so that without one nothing is taken. -/
theorem alternative_finds (condition : Expr) (thenBranch : Stmt) :
    Finds n false NoElse NoElse (alternative inFunction condition thenBranch) := by
  have closed (later : List Token) (none : NoElse later) :
      alternative inFunction condition thenBranch later =
        .parsed (.ifThen condition thenBranch) later := by
    cases later with
    | nil => rfl
    | cons t rest => exact if_neg (none t rfl)
  refine ⟨fun ts less => ?_, .nothing _ (fun _ none => none) closed⟩
  cases ts with
  | nil => exact .done_nil _ rfl closed
  | cons t rest =>
    by_cases otherwise : t.kind = .keyword .else_
    · have less' : rest.length < n := Nat.lt_of_succ_lt less
      exact .past (fun later => if_pos otherwise)
        ((ih.statement inFunction).detects rest less').map
    · exact .done_cons _ (fun later => if_neg otherwise) closed

theorem ifStatement_finds :
    Finds n true Anything NoElse fun ts => (ifStatement inFunction ts).answer := by
  refine Finds.congr ?_ (answer_ifStatement inFunction)
  refine (Finds.token (F := Anything) .parenAfterIf rfl).bind fun _ => ?_
  refine Finds.expression.bind fun condition => ?_
  refine (Finds.close (F := Anything) .parenAfterIfCondition rfl rfl).bind fun _ => ?_
  exact (ih.statement inFunction).bindIdle (alternative_finds inFunction ih condition)
    fun _ none => none

theorem functionDeclaration_finds :
    Finds n true Anything Anything fun ts => (functionDeclaration ts).answer := by
  refine Finds.congr ?_ answer_functionDeclaration
  refine (Finds.token (F := Anything) .functionName rfl).bind fun name => ?_
  refine (Finds.token (F := Anything) .parenAfterFunctionName rfl).bind fun _ => ?_
  refine parameters_finds.bind fun params => ?_
  refine (Finds.stop (F := Anything) .parenAfterParameters rfl).bind fun _ => ?_
  refine (Finds.token (F := Anything) .braceBeforeBody rfl).bind fun _ => ?_
  exact (ih.block true).map

theorem statement_detects (ts : List Token) (less : ts.length < n + 1) :
    Detects true NoElse (fun ts => (statement inFunction ts).answer) ts := by
  have plain : Detects true NoElse (fun ts => (expressionStatement ts).answer) ts :=
    expressionStatement_finds.detects ts less
  have completable := statement_resumes inFunction
  cases ts with
  | nil => exact plain.of_nil (answer_statement_nil inFunction) completable
  | cons t rest =>
    have less' : rest.length < n := Nat.lt_of_succ_lt_succ less
    have takes (later : List Token) := answer_statement_cons inFunction t later
    cases kind : t.kind with
    | keyword word =>
      cases word with
      | for_ =>
        simp only [kind] at takes
        exact .past takes ((forStatement_finds inFunction ih).detects rest less')
      | if_ =>
        simp only [kind] at takes
        exact .past takes ((ifStatement_finds inFunction ih).detects rest less')
      | print =>
        simp only [kind] at takes
        exact .past takes (printStatement_finds.detects rest less')
      | return_ =>
        simp only [kind] at takes
        exact .past takes (returnStatement_detects inFunction t rest)
      | while_ =>
        simp only [kind] at takes
        exact .past takes ((whileStatement_finds inFunction ih).detects rest less')
      | _ =>
        simp only [kind] at takes
        exact plain.of_cons takes completable
    | symbol s =>
      cases s with
      | leftBrace =>
        simp only [kind] at takes
        exact .past takes (((ih.block inFunction).detects rest less').mono fun _ _ => trivial).map
      | _ =>
        simp only [kind] at takes
        exact plain.of_cons takes completable
    | _ =>
      simp only [kind] at takes
      exact plain.of_cons takes completable

theorem attempt_detects (ts : List Token) (less : ts.length < n + 1) :
    Detects true NoElse (attempt inFunction) ts := by
  have plain := statement_detects inFunction ih ts less
  have completable := attempt_resumes inFunction
  cases ts with
  | nil => exact plain.of_nil rfl completable
  | cons t rest =>
    have less' : rest.length < n := Nat.lt_of_succ_lt_succ less
    by_cases function : t.kind = .keyword .fun_
    · exact .past (fun later => if_pos function)
        (((functionDeclaration_finds ih).detects rest less').mono fun _ _ => trivial)
    · by_cases variable_ : t.kind = .keyword .var
      · exact .past (fun later => (if_neg function).trans (if_pos variable_))
          (variableDeclaration_finds.detects rest less')
      · exact plain.of_cons (fun later => (if_neg function).trans (if_neg variable_)) completable

theorem declaration_detects_of_shorter (ts : List Token) (less : ts.length < n + 1) :
    Detects true NoElse (fun ts => (declaration inFunction ts).answer) ts :=
  (attempt_detects inFunction ih ts less).settle.congr (answer_declaration inFunction)

theorem block_detects (ts : List Token) (less : ts.length < n + 1) :
    Detects true Anything (fun ts => (block inFunction ts).answer) ts := by
  have completable := block_resumes inFunction (E := Anything) fun _ _ _ => trivial
  cases ts with
  | nil => exact .refuse_nil .braceAfterBlock (answer_block_nil inFunction) completable
  | cons t rest =>
    have takes (later : List Token) := answer_block_cons inFunction t later
    by_cases closes : t.kind = .symbol .rightBrace
    · simp only [if_pos closes] at takes
      exact .past takes (.done [] fun _ _ => rfl)
    · simp only [if_neg closes] at takes
      have first := declaration_detects_of_shorter inFunction ih (t :: rest) less
      refine (first.bind (fun value left leaves => ?_) fun value => ?_).of_cons takes completable
      · have less' : left.length < n := Nat.lt_of_lt_of_le leaves (Nat.le_of_lt_succ less)
        exact ((ih.block inFunction).detects left less').map
      · refine (block_resumes inFunction fun t later brace => ?_).map
        rintro _ ⟨⟩ otherwise
        rw [brace] at otherwise
        cases otherwise

end Statements

theorem statementsFind (n : Nat) : StatementsFind n := by
  induction n with
  | zero =>
    constructor
    · exact fun inFunction => ⟨nofun, statement_resumes inFunction⟩
    · exact fun inFunction => ⟨nofun, block_resumes inFunction fun _ _ _ => trivial⟩
  | succ n ih =>
    constructor
    · exact fun inFunction => ⟨statement_detects inFunction ih, statement_resumes inFunction⟩
    · exact fun inFunction =>
        ⟨block_detects inFunction ih, block_resumes inFunction fun _ _ _ => trivial⟩

theorem declaration_detects (inFunction : Bool) (ts : List Token) :
    Detects true NoElse (fun ts => (declaration inFunction ts).answer) ts :=
  declaration_detects_of_shorter inFunction (statementsFind ts.length) ts (Nat.lt_succ_self _)

def programAfter (stmts : List Stmt) (ts : List Token) : Answer (List Stmt) :=
  (Answer.parsed (stmts ++ (program ts).1) []).after (program ts).2

theorem programAfter_nil (stmts : List Stmt) : programAfter stmts [] = .parsed stmts [] := by
  rw [programAfter, program, List.append_nil]
  rfl

theorem program_detects (stmts : List Stmt) (ts : List Token) :
    Detects false (· = []) (programAfter stmts) ts := by
  have ended (stmts : List Stmt) (later : List Token) (none : later = []) :
      programAfter stmts later = .parsed stmts later := by
    rw [none]
    exact programAfter_nil stmts
  induction ts using shorterInduction generalizing stmts with
  | step ts ih =>
    cases ts with
    | nil => exact .done_nil stmts (programAfter_nil stmts) (ended stmts)
    | cons t rest =>
      have first := declaration_detects false (t :: rest)
      refine (first.bindIdle (fun value left less => ?_) (fun value => ?_) ?_).of_cons
        (answer_program_cons stmts t) (.nothing stmts (fun _ _ => trivial) (ended stmts))
      · exact ih left less (stmts ++ value.toList)
      · refine .nothing _ ?_ (ended (stmts ++ value.toList))
        rintro _ rfl
        nofun
      · rintro _ rfl
        nofun

end Lox.Parse

namespace Lox

/-- Anything but the four rules that a program can break without being given up. -/
def Diagnostic.Fatal (d : Diagnostic) : Prop :=
  d.message ∉ ["Invalid assignment target.", "Can't have more than 255 arguments.",
    "Can't have more than 255 parameters.", "Can't return from top-level code."]

instance (d : Diagnostic) : Decidable d.Fatal := inferInstanceAs (Decidable (_ ∉ _))

theorem Report.fatal_iff (r : Report) (endToken : Token) :
    (r.diagnostic endToken).Fatal ↔ ∃ what, r.problem = .expected what := by
  have message : (r.diagnostic endToken).message = r.problem.message := by
    obtain ⟨token?, problem⟩ := r
    cases token? <;> rfl
  unfold Diagnostic.Fatal
  rw [message]
  cases r.problem with
  | expected what => cases what <;> simp [Problem.message, Expectation.message]
  | violated rule => cases rule <;> simp [Problem.message, Violation.message]

/-- The tokens with their places for lines. -/
def numbered (ts : List Token) : List Token := ts.mapIdx fun i t => { t with line := i }

/-- The place of the token that each diagnostic is made at. -/
def reportedAt (ts : List Token) : List Nat :=
  (Cursor.ofTokens (numbered ts)).program.diagnostics.map (·.line)

/-- The lines can be found again from the places. -/
theorem exists_relabel_numbered (ts : List Token) : ∃ g, relabel g (numbered ts) = ts := by
  refine ⟨fun i => (ts[i]?.map (·.line)).getD 0, List.ext_getElem? fun i => ?_⟩
  simp only [numbered, relabel, List.getElem?_map, List.getElem?_mapIdx]
  cases found : ts[i]? with
  | none => rfl
  | some t => simp [found]

namespace Grammar

/-- Some program begins with these tokens. -/
def Viable (ts : List Token) : Prop := ∃ more tree, DerivesProgram (ts ++ more) tree

theorem clean_iff_not_fatal (made : List Report) (endToken : Token) :
    Clean made ↔ ∀ d ∈ made.map (·.diagnostic endToken), ¬ d.Fatal := by
  rw [List.forall_mem_map]
  refine forall₂_congr fun r _ => ?_
  rw [r.fatal_iff]
  cases r.problem <;> simp

theorem reports_clean (places : List Place) : Clean (reports places) := by
  intro r member
  obtain ⟨place, -, eq⟩ := List.mem_filterMap.mp member
  unfold Place.report? at eq
  split at eq <;> grind

/-- What is derivable is what nothing is missing from. -/
theorem derivable_iff_clean (ts : List Token) :
    (∃ tree, DerivesProgram ts tree) ↔ Clean (Parse.program ts).2 := by
  constructor
  · rintro ⟨tree, derives⟩
    rw [derives.completes.program rfl]
    exact reports_clean _
  · intro clean
    obtain ⟨tree, derives, -⟩ := program_reads clean
    exact ⟨tree, derives⟩

theorem viable_iff_clean (ts : List Token) :
    Viable ts ↔ ∃ more, Clean (Parse.program (ts ++ more)).2 :=
  exists_congr fun more => derivable_iff_clean (ts ++ more)

theorem clean_program_relabel (g : Nat → Nat) (ts : List Token) :
    Clean (Parse.program (relabel g ts)).2 ↔ Clean (Parse.program ts).2 := by
  rw [Parse.program_relabel]
  exact List.forall_mem_map

theorem viable_relabel (g : Nat → Nat) (ts : List Token) : Viable (relabel g ts) ↔ Viable ts := by
  rw [viable_iff_clean, viable_iff_clean]
  constructor
  · rintro ⟨more, clean⟩
    refine ⟨more, ?_⟩
    rw [← clean_program_relabel fun _ => 0, relabel_append] at clean ⊢
    rwa [Lined.relabel_relabel] at clean
  · rintro ⟨more, clean⟩
    refine ⟨relabel g more, ?_⟩
    rwa [← relabel_append, clean_program_relabel]

/-- If something is missing from a program, then first at the token after all that is viable. -/
theorem first_missing {ts : List Token} (missing : ¬ Clean (Parse.program ts).2) :
    ∃ front rest, ts = front ++ rest ∧
      (∃ before what later, Clean before ∧
        (Parse.program ts).2 = before ++ ⟨rest.head?, .expected what⟩ :: later) ∧
      Viable front ∧ ∀ t ∈ rest.head?, ¬ Viable (front ++ [t]) := by
  have reported (ts : List Token) : (Parse.programAfter [] ts).reported = (Parse.program ts).2 :=
    Parse.reported_parsed _ _ _
  rcases Parse.program_detects [] ts with
    ⟨front, rest, value, made, rfl, passes⟩ | ⟨front, rest, rfl, balks⟩
  · have parses := passes.parses rest (.inl rfl)
    rw [← reported, parses, Parse.reported_parsed] at missing
    exact absurd passes.clean missing
  · refine ⟨front, rest, rfl, ?_, ?_, ?_⟩
    · obtain ⟨before, what, later, clean, eq⟩ := balks.first
      exact ⟨before, what, later, clean, by rw [← reported, eq]⟩
    · obtain ⟨suffix, value, parses⟩ := balks.viable
      obtain ⟨-, made, clean, eq⟩ := parses [] rfl
      rw [viable_iff_clean]
      refine ⟨suffix, ?_⟩
      dsimp only at eq
      rw [List.append_nil] at eq
      rwa [← reported, eq, Parse.reported_parsed]
    · intro t next viable
      obtain ⟨more, clean⟩ := (viable_iff_clean _).mp viable
      have same : (t :: more).head? = rest.head? := (Option.mem_def.mp next).symm
      have not := balks.always (t :: more) same
      rw [reported] at not
      rw [List.append_assoc] at clean
      exact not clean

theorem first_missing_at {ts : List Token} (missing : ¬ Clean (Parse.program ts).2) :
    ∃ i what before later before' later', i ≤ ts.length ∧ Clean before ∧
      (Parse.program ts).2 = before ++ ⟨ts[i]?, .expected what⟩ :: later ∧
      (Parse.program (numbered ts)).2 = before' ++ ⟨(numbered ts)[i]?, .expected what⟩ :: later' ∧
      before'.length = before.length ∧ Viable (ts.take i) ∧
      (i < ts.length → ¬ Viable (ts.take (i + 1))) := by
  obtain ⟨g, back⟩ := exists_relabel_numbered ts
  have program : Parse.program ts = relabel g (Parse.program (numbered ts)) := by
    rw [← Parse.program_relabel, back]
  have missing' : ¬ Clean (Parse.program (numbered ts)).2 := by
    rwa [← clean_program_relabel g, back]
  obtain ⟨front, rest, split, ⟨before, what, later, clean, reports⟩, viable, beyond⟩ :=
    first_missing missing'
  have parts : ts = relabel g front ++ relabel g rest := by
    rw [← relabel_append, ← split, back]
  have size : (relabel g front).length = front.length := length_relabel g front
  have next : (numbered ts)[front.length]? = rest.head? := by
    rw [split, List.getElem?_append_right (Nat.le_refl _), Nat.sub_self, List.head?_eq_getElem?]
  have next' : ts[front.length]? = (relabel g rest).head? := by
    rw [parts, ← size, List.getElem?_append_right (Nat.le_refl _), Nat.sub_self,
      List.head?_eq_getElem?]
  refine ⟨front.length, what, relabel g before, relabel g later, before, later, ?_, ?_, ?_, ?_,
    (length_relabel g before).symm, ?_, ?_⟩
  · rw [parts, List.length_append, size]
    exact Nat.le_add_right _ _
  · exact List.forall_mem_map.mpr clean
  · rw [program, next', head?_relabel]
    show relabel g (Parse.program (numbered ts)).2 = _
    rw [reports, relabel_append]
    rfl
  · rw [next, reports]
  · rw [parts, List.take_left' size, viable_relabel]
    exact viable
  · intro less
    cases rest with
    | nil =>
      rw [parts, relabel_nil, List.append_nil, size] at less
      exact absurd less (Nat.lt_irrefl _)
    | cons t rest =>
      have one : ts.take (front.length + 1) = relabel g (front ++ [t]) := by
        rw [parts, ← size, List.take_length_add_append, relabel_append]
        rfl
      rw [one, viable_relabel]
      exact beyond t rfl

theorem reportedAt_eq {ts : List Token} {endToken : Token} (ending : endToken.kind = .eof)
    (only : ∀ t ∈ ts, t.kind ≠ .eof) :
    reportedAt (ts ++ [endToken]) =
      (Parse.program (numbered ts)).2.map fun r => (r.token?.map (·.line)).getD ts.length := by
  have only' : ∀ t ∈ numbered ts, t.kind ≠ .eof := by
    intro t member
    obtain ⟨i, less, rfl⟩ := List.mem_mapIdx.mp member
    exact only ts[i] (List.getElem_mem less)
  have concat : numbered (ts ++ [endToken]) =
      numbered ts ++ [{ endToken with line := ts.length }] := List.mapIdx_concat
  have ofTokens : Cursor.ofTokens (numbered (ts ++ [endToken])) =
      ⟨numbered ts, { endToken with line := ts.length }⟩ :=
    concat ▸ ofTokens_append_end ending only'
  rw [reportedAt, ofTokens]
  show ((Parse.program (numbered ts)).2.map _).map _ = _
  rw [List.map_map]
  refine List.map_congr_left fun r _ => ?_
  obtain ⟨token?, problem⟩ := r
  cases token? <;> rfl

section Places

variable {ts : List Token} {endToken : Token} {i : Nat}

theorem getElem?_append_end (le : i ≤ ts.length) :
    (ts ++ [endToken])[i]? = some (ts[i]?.getD endToken) := by
  rcases Nat.lt_or_eq_of_le le with less | rfl
  · simp [List.getElem?_append_left less, List.getElem?_eq_getElem less]
  · simp

variable (ending : endToken.kind = .eof) (only : ∀ t ∈ ts, t.kind ≠ .eof) (le : i ≤ ts.length)
include ending only le

theorem diagnostic_at {problem : Problem} :
    Report.diagnostic endToken ⟨ts[i]?, problem⟩ =
      (ts[i]?.getD endToken).diagnostic problem := by
  rcases Nat.lt_or_eq_of_le le with less | rfl
  · have plain := only ts[i] (List.getElem_mem less)
    rw [List.getElem?_eq_getElem less]
    simp [Report.diagnostic, Token.diagnostic, plain]
  · simp [Report.diagnostic, Token.diagnostic, ending]

theorem kind_eof_iff : (ts[i]?.getD endToken).kind = .eof ↔ i = ts.length := by
  rcases Nat.lt_or_eq_of_le le with less | rfl
  · rw [List.getElem?_eq_getElem less, Option.getD_some]
    exact ⟨fun eof => absurd eof (only _ (List.getElem_mem less)), fun eq => by omega⟩
  · simp [ending]

end Places

/-- The first fatal diagnostic is at the first token that no program could have there: some program
begins with the tokens before it, none with it as well, and if it is the end-of-file token then the
tokens before it are no program. -/
theorem first_fatal_earliest (ts : List Token) (endToken : Token) (ending : endToken.kind = .eof)
    (only : ∀ t ∈ ts, t.kind ≠ .eof)
    (fatal : ∃ d ∈ (Cursor.ofTokens (ts ++ [endToken])).program.diagnostics, d.Fatal) :
    ∃ before d later i t what,
      (Cursor.ofTokens (ts ++ [endToken])).program.diagnostics = before ++ d :: later ∧
      (∀ e ∈ before, ¬ e.Fatal) ∧ d.Fatal ∧
      (ts ++ [endToken])[i]? = some t ∧ d = t.diagnostic (.expected what) ∧
      (reportedAt (ts ++ [endToken]))[before.length]? = some i ∧
      Viable (ts.take i) ∧ (t.kind ≠ .eof → ¬ Viable (ts.take (i + 1))) ∧
      (t.kind = .eof → ¬ ∃ tree, DerivesProgram ts tree) := by
  rw [reportedAt_eq ending only]
  rw [ofTokens_append_end ending only] at fatal ⊢
  have missing : ¬ Clean (Parse.program ts).2 := by
    rw [clean_iff_not_fatal _ endToken]
    obtain ⟨d, member, fatal⟩ := fatal
    exact fun none => none d member fatal
  obtain ⟨i, what, before, later, before', later', le, clean, reports, reports', size, viable,
    beyond⟩ := first_missing_at missing
  have place : (((numbered ts)[i]?).map (·.line)).getD ts.length = i := by
    rw [numbered, List.getElem?_mapIdx]
    rcases Nat.lt_or_eq_of_le le with less | rfl
    · simp [List.getElem?_eq_getElem less]
    · simp
  have eof := kind_eof_iff ending only le
  refine ⟨before.map (·.diagnostic endToken), _, later.map (·.diagnostic endToken), i,
    ts[i]?.getD endToken, what, ?_, (clean_iff_not_fatal _ endToken).mp clean, ?_,
    getElem?_append_end le, diagnostic_at ending only le, ?_, viable, ?_, ?_⟩
  · show (Parse.program ts).2.map _ = _
    rw [reports, List.map_append, List.map_cons]
  · exact (Report.fatal_iff _ endToken).mpr ⟨what, rfl⟩
  · rw [List.length_map, ← size, reports', List.getElem?_map,
      List.getElem?_append_right (Nat.le_refl _), Nat.sub_self]
    exact congrArg some place
  · intro other
    exact beyond (Nat.lt_of_le_of_ne le fun eq => other (eof.mpr eq))
  · intro _
    rwa [derivable_iff_clean]

/-- In `nil = nil; var a = ;` the first diagnostic is not fatal and the second is at the last
token. -/
theorem first_fatal_earliest_initializer :
    let nil : Token := ⟨.keyword .nil, "nil", 1⟩
    let equals : Token := ⟨.symbol .equal, "=", 1⟩
    let stop : Token := ⟨.symbol .semicolon, ";", 1⟩
    let ts : List Token := [nil, equals, nil, stop, ⟨.keyword .var, "var", 1⟩,
      ⟨.identifier, "a", 1⟩, equals, stop]
    (Cursor.ofTokens (ts ++ [⟨.eof, "", 1⟩])).program.diagnostics =
        [⟨1, " at '='", "Invalid assignment target."⟩, ⟨1, " at ';'", "Expect expression."⟩] ∧
      Viable (ts.take 7) ∧ ¬ Viable ts := by
  intro nil equals stop ts
  have diagnostics : (Cursor.ofTokens (ts ++ [⟨.eof, "", 1⟩])).program.diagnostics =
      [⟨1, " at '='", "Invalid assignment target."⟩, ⟨1, " at ';'", "Expect expression."⟩] := by
    decide +kernel
  have places : reportedAt (ts ++ [⟨.eof, "", 1⟩]) = [1, 7] := by decide +kernel
  obtain ⟨before, d, later, i, t, what, eq, quiet, fatal, found, -, place, viable, beyond, -⟩ :=
    first_fatal_earliest ts ⟨.eof, "", 1⟩ rfl (by decide) (by
      rw [diagnostics]
      exact ⟨_, List.mem_cons_of_mem _ (List.mem_singleton_self _), by decide⟩)
  rw [diagnostics] at eq
  rw [places] at place
  rcases before with _ | ⟨first, _ | ⟨second, before⟩⟩
  · obtain ⟨rfl, -⟩ := List.cons.inj eq
    exact absurd fatal (by decide)
  · obtain rfl : 7 = i := Option.some.inj place
    obtain rfl : stop = t := Option.some.inj found
    exact ⟨diagnostics, viable, beyond nofun⟩
  · simp at eq

end Grammar
end Lox

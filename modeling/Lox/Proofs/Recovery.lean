import Lox.Proofs.Following

/- The reader of statements follows the one that keeps nothing. A declaration that is refused leaves
   all function bodies it was in, whichever expectation was unmet, and reading resumes at the next
   boundary. -/
namespace Lox

theorem Reply.length_left_le {α : Type} {c : Bool} {ts : List Token} (r : Reply c α ts) :
    r.answer.left.length ≤ ts.length := by
  obtain ⟨outcome, reports, within⟩ := r
  cases outcome with
  | parsed value rest => exact within.length_le
  | unmet what rest => exact within

namespace Parse

theorem length_left_attempt_le (inFunction : Bool) (ts : List Token) :
    (attempt inFunction ts).left.length ≤ ts.length := by
  cases ts with
  | nil => exact Reply.length_left_le _
  | cons t rest =>
    rw [attempt]
    split
    · exact Nat.le_succ_of_le (Reply.length_left_le _)
    · split
      · exact Nat.le_succ_of_le (Reply.length_left_le _)
      · exact Reply.length_left_le _

theorem settle_parsed (s : Stmt) (rest : List Token) (reports : List Report) :
    settle ⟨.parsed s rest, reports⟩ = ⟨.parsed (some s) rest, reports⟩ := by
  simp [settle, Answer.parsed, Answer.after]

theorem settle_unmet (what : Expectation) (rest : List Token) (reports : List Report) :
    settle ⟨.unmet what rest, reports⟩ =
      ⟨.parsed none (skipToBoundary rest), reports ++ [⟨rest.head?, .expected what⟩]⟩ := by
  simp [settle, Answer.parsed, Answer.after]

theorem shorter_of_settled {inFunction : Bool} {ts left : List Token} {value : Option Stmt}
    (settled : (declaration inFunction ts).answer.outcome = .parsed value left) :
    left.length ≤ ts.length - 1 := by
  cases settled
  exact (declaration inFunction ts).shorter

theorem answer_program_cons (stmts : List Stmt) (t : Token) (rest : List Token) :
    (Answer.parsed (stmts ++ (program (t :: rest)).1) []).after (program (t :: rest)).2 =
      (declaration false (t :: rest)).answer.bind fun value left =>
        (Answer.parsed (stmts ++ value.toList ++ (program left).1) []).after (program left).2 := by
  rw [program, Declaration.answer, Answer.after_bind, Answer.parsed_bind, Answer.after_after,
    List.append_assoc]

end Parse

namespace Reader

section Simple

variable {e : Token} {later ts : List Token} {inFunction : Bool} {fuel : Nat}

theorem Follows.of_plain {α : Type} {x : Reads α} {a : Answer α}
    (follows : (∀ t ∈ ts, t.kind ≠ .eof) → Follows e later inFunction ts x a) :
    Follows e later inFunction ts x a :=
  ⟨fun r before depth => (follows before.plain).reads r before depth⟩

theorem Follows.noteReturn {α : Type} {keyword : Token} {f : Unit → Reads α} {a : Answer α}
    (plain : keyword.kind ≠ .eof) (follows : Follows e later inFunction ts (f ()) a) :
    Follows e later inFunction ts (Reader.noteReturn keyword >>= f)
      (a.after
        (if inFunction then [] else [⟨some keyword, .violated .returnOutsideFunction⟩])) := by
  refine ⟨fun r before depth => ?_⟩
  rw [bind_apply, Reader.noteReturn]
  cases inFunction with
  | true =>
    rw [if_neg (depth.mp rfl)]
    exact follows.reads r before depth
  | false =>
    have outside : r.depth = 0 := Decidable.not_not.mp (mt depth.mpr Bool.false_ne_true)
    have same : keyword.diagnostic (.violated .returnOutsideFunction) =
        Report.diagnostic e ⟨some keyword, .violated .returnOutsideFunction⟩ := by
      simp [Token.diagnostic, Report.diagnostic, plain]
    rw [if_pos outside]
    exact (Follows.report same follows).reads r before depth

/-- In a function body or not, code in one more body reads as in a function, and leaves that body
also when it refuses. -/
theorem Follows.inBody {α : Type} {x : Reads α} {a : Answer α}
    (follows : Follows e later true ts x a) :
    Follows e later inFunction ts (Reader.inBody x) a := by
  refine ⟨fun r before _ => ?_⟩
  -- What surrounds the body does not matter in it: one more than any number of bodies is not none.
  have within : ({ r with depth := r.depth + 1 } : Reader).Before ts e later :=
    ⟨before.split, before.plain⟩
  obtain ⟨position, eq, before'⟩ := follows.reads _ within (by simp)
  refine ⟨position, ?_, before'.split, before'.plain⟩
  simp only [Reader.inBody, bind_apply, change, outcome, eq, Option.map_some]
  rfl

variable (ends : e.kind = .eof)
include ends

theorem optional_follows {stop : Kind} (known : stop ≠ .eof) (enough : ts.length * 8 + 4 < fuel) :
    Follows e later inFunction ts (optional fuel stop) (Parse.optional stop ts).answer := by
  rw [optional, Parse.answer_optional]
  refine .check ends known ?_ ?_
  · rintro t rest rfl here
    rw [if_pos (by simpa using here)]
    exact .pure none
  · intro other
    rw [if_neg (head_any_of_ne other)]
    exact ((expressionsFollow ends fuel).expression ts enough).map

theorem expressionStatement_follows (enough : ts.length * 8 + 4 < fuel) :
    Follows e later inFunction ts (expressionStatement fuel)
      (Parse.expressionStatement ts).answer := by
  rw [expressionStatement, Parse.answer_expressionStatement]
  exact ((expressionsFollow ends fuel).expression ts enough).bind fun _ _ _ =>
    (Follows.expect ends _).map

theorem printStatement_follows (enough : ts.length * 8 + 4 < fuel) :
    Follows e later inFunction ts (printStatement fuel) (Parse.printStatement ts).answer := by
  rw [printStatement, Parse.answer_printStatement]
  exact ((expressionsFollow ends fuel).expression ts enough).bind fun _ _ _ =>
    (Follows.expect ends _).map

theorem returnStatement_follows {keyword : Token} (plain : keyword.kind ≠ .eof)
    (enough : ts.length * 8 + 4 < fuel) :
    Follows e later inFunction (keyword :: ts) (returnStatement fuel)
      (Parse.returnStatement inFunction keyword ts).answer := by
  rw [returnStatement, Parse.answer_returnStatement]
  refine .next (.noteReturn plain ?_)
  exact (optional_follows ends (by decide) enough).bind fun _ _ _ => (Follows.expect ends _).map

theorem initializer_follows (enough : ts.length * 8 + 4 < fuel) :
    Follows e later inFunction ts (initializer fuel) (Parse.initializer ts).answer := by
  rw [initializer]
  refine .eat ends (by decide) ?_ ?_
  · rintro t rest rfl equal
    simp only [List.length_cons] at enough
    rw [Parse.answer_initializer_cons, if_pos equal]
    exact ((expressionsFollow ends fuel).expression rest (by omega)).map
  · intro other
    have absent : (Parse.initializer ts).answer = .parsed none ts := by
      cases ts with
      | nil => rfl
      | cons t rest =>
        rw [Parse.answer_initializer_cons]
        exact if_neg other
    rw [absent]
    exact .pure none

theorem variableDeclaration_follows (enough : ts.length * 8 + 4 < fuel) :
    Follows e later inFunction ts (variableDeclaration fuel)
      (Parse.variableDeclaration ts).answer := by
  rw [variableDeclaration, Parse.answer_variableDeclaration]
  refine (Follows.expect ends _).bind fun name rest parsed => ?_
  have shorter := Reply.shorter_of_parsed parsed
  exact (initializer_follows ends (by omega)).bind fun _ _ _ => (Follows.expect ends _).map

theorem parameterList_follows (params : List Token) (enough : ts.length < fuel) :
    Follows e later inFunction ts (parameterList fuel params)
      ((Parse.parameterList params.length ts).answer.map (params ++ ·)) := by
  induction fuel generalizing params ts with
  | zero => exact absurd enough (Nat.not_lt_zero _)
  | succ fuel ih =>
    rw [parameterList, Parse.answer_parameterList, Answer.after_map]
    refine .noteCount ends ?_
    rw [Answer.map, Answer.bind_assoc]
    refine (Follows.expect ends _).bind fun param left parsed => ?_
    have shorter := Reply.shorter_of_parsed parsed
    refine .eat ends (by decide) ?_ ?_
    · rintro t rest rfl comma
      simp only [List.length_cons] at shorter
      have list : Follows e later inFunction rest _ _ := ih (params ++ [param]) (by omega)
      simp only [List.length_append, List.length_singleton] at list
      rw [Parse.entries, if_pos comma]
      simpa [Answer.map, Answer.bind_assoc] using list
    · intro other
      rw [entries_of_ne other]
      exact .pure _

theorem parameters_follows (enough : ts.length < fuel) :
    Follows e later inFunction ts (parameters fuel) (Parse.parameters ts).answer := by
  rw [parameters, Parse.answer_parameters]
  refine .check ends (by decide) ?_ ?_
  · rintro t rest rfl closes
    rw [if_pos (by simpa using closes)]
    exact .pure []
  · intro other
    rw [if_neg (head_any_of_ne other)]
    have list : Follows e later inFunction ts (parameterList fuel []) _ :=
      parameterList_follows ends [] enough
    simpa [Answer.map] using list

theorem forInitializer_follows (enough : ts.length * 8 + 4 < fuel) :
    Follows e later inFunction ts (forInitializer fuel) (Parse.forInitializer ts).answer := by
  rw [forInitializer]
  refine .eat ends (by decide) ?_ fun present => .eat ends (by decide) ?_ fun other => ?_
  · rintro t rest rfl semicolon
    rw [Parse.answer_forInitializer_cons, if_pos semicolon]
    exact .pure none
  · rintro t rest rfl var
    simp only [List.length_cons] at enough
    rw [Parse.answer_forInitializer_cons, var, if_neg (by decide), if_pos rfl]
    exact (variableDeclaration_follows ends (by omega)).map
  · have plain : (Parse.forInitializer ts).answer =
        (Parse.expressionStatement ts).answer.map some := by
      cases ts with
      | nil => exact Parse.answer_forInitializer_nil
      | cons t rest =>
        rw [Parse.answer_forInitializer_cons]
        exact (if_neg present).trans (if_neg other)
    rw [plain]
    exact (expressionStatement_follows ends enough).map

theorem forClauses_follows (enough : ts.length * 8 + 4 < fuel) :
    Follows e later inFunction ts (forClauses fuel) (Parse.forClauses ts).answer := by
  rw [forClauses, Parse.answer_forClauses]
  refine (Follows.expect ends _).bind fun _ rest₁ parsed₁ => ?_
  have shorter₁ := Reply.shorter_of_parsed parsed₁
  refine (forInitializer_follows ends (by omega)).bind fun first rest₂ parsed₂ => ?_
  have shorter₂ := Reply.shorter_of_parsed parsed₂
  refine (optional_follows ends (by decide) (by omega)).bind fun condition rest₃ parsed₃ => ?_
  have le₃ := (Reply.leaves_of_parsed parsed₃).length_le
  refine (Follows.expect ends _).bind fun _ rest₄ parsed₄ => ?_
  have shorter₄ := Reply.shorter_of_parsed parsed₄
  exact (optional_follows ends (by decide) (by omega)).bind fun _ _ _ => (Follows.expect ends _).map

end Simple

section Recovery

variable {e : Token} {later ts : List Token} {inFunction : Bool} {fuel : Nat}

theorem skip_follows (ends : e.kind = .eof) (previous : Token) (enough : ts.length < fuel) :
    Follows e later inFunction ts (skip fuel previous)
      (.parsed () (Parse.skipToBoundary (previous :: ts))) := by
  induction fuel generalizing previous ts with
  | zero => exact absurd enough (Nat.not_lt_zero _)
  | succ fuel ih =>
    refine .of_plain fun plain => ?_
    rw [skip, Parse.skipToBoundary]
    cases ts with
    | nil =>
      refine .peek_nil ?_
      rw [if_pos ends, Parse.skipToBoundary, ite_self]
      exact .pure ()
    | cons t rest =>
      refine .peek_cons ?_
      rw [if_neg (plain t List.mem_cons_self)]
      by_cases boundary : previous.kind = .symbol .semicolon ∨ t.kind.startsStatement
      · rw [if_pos boundary, if_pos (by simpa using boundary)]
        exact .pure ()
      · rw [if_neg boundary, if_neg (by simpa using boundary)]
        exact .next (ih t (by simpa using enough))

/-- Recovery drops what lies before the next boundary. -/
theorem synchronize_follows (ends : e.kind = .eof) (enough : ts.length < fuel) :
    Follows e later inFunction ts (synchronize fuel) (.parsed () (Parse.skipToBoundary ts)) := by
  rw [synchronize]
  cases ts with
  | nil =>
    have alone : Parse.skipToBoundary [e] = Parse.skipToBoundary [] := ite_self _
    rw [← alone]
    refine (skip_follows ends e enough).congr fun r before => ?_
    rw [bind_apply, Reader.next, before.peek]
    simp [ends]
  | cons t rest =>
    exact .next (skip_follows ends t (Nat.lt_of_succ_lt enough))

theorem Follows.settle {x : Reads Stmt} {a : Answer Stmt} (ends : e.kind = .eof)
    (follows : Follows e later inFunction ts x a) (enough : a.left.length < fuel) :
    Follows e later inFunction ts
      (outcome x >>= fun result =>
        match result with
        | .ok s => Pure.pure (some s)
        | .error _ => synchronize fuel >>= fun _ => Pure.pure none)
      (Parse.settle a) := by
  refine ⟨fun r before depth => ?_⟩
  obtain ⟨position, eq, before'⟩ := follows.reads r before depth
  rw [bind_apply, outcome, eq]
  obtain ⟨found, reports⟩ := a
  cases found with
  | parsed s rest =>
    rw [Parse.settle_parsed]
    exact ⟨position, rfl, before'⟩
  | unmet what rest =>
    obtain ⟨position', eq', before''⟩ :=
      (synchronize_follows ends enough).reads _ before' depth
    rw [moved_moved] at eq' before''
    rw [Parse.settle_unmet]
    refine ⟨position', ?_, ?_⟩
    · simp only [Option.map_some, Answer.result, bind_apply, eq']
      simp [Answer.reported, Answer.parsed]
      rfl
    · simpa [Answer.reported, Answer.parsed, Answer.left] using before''

end Recovery

structure StatementsFollow (e : Token) (later : List Token) (fuel : Nat) : Prop where
  declaration : ∀ inFunction ts, ts.length * 8 + 7 < fuel →
    Follows e later inFunction ts (declaration fuel) (Parse.declaration inFunction ts).answer
  attempt : ∀ inFunction ts, ts.length * 8 + 6 < fuel →
    Follows e later inFunction ts (attempt fuel) (Parse.attempt inFunction ts)
  statement : ∀ inFunction ts, ts.length * 8 + 5 < fuel →
    Follows e later inFunction ts (statement fuel) (Parse.statement inFunction ts).answer
  forStatement : ∀ inFunction ts, ts.length * 8 + 6 < fuel →
    Follows e later inFunction ts (forStatement fuel) (Parse.forStatement inFunction ts).answer
  ifStatement : ∀ inFunction ts, ts.length * 8 + 6 < fuel →
    Follows e later inFunction ts (ifStatement fuel) (Parse.ifStatement inFunction ts).answer
  whileStatement : ∀ inFunction ts, ts.length * 8 + 6 < fuel →
    Follows e later inFunction ts (whileStatement fuel) (Parse.whileStatement inFunction ts).answer
  functionDeclaration : ∀ inFunction ts, ts.length * 8 + 6 < fuel →
    Follows e later inFunction ts (functionDeclaration fuel)
      (Parse.functionDeclaration ts).answer
  block : ∀ inFunction body ts, ts.length * 8 + 8 < fuel →
    Follows e later inFunction ts (block fuel body)
      ((Parse.block inFunction ts).answer.map (body ++ ·))

section Statements

variable {e : Token} {later : List Token} (ends : e.kind = .eof) {fuel : Nat}
  (ih : StatementsFollow e later fuel)
include ends ih

theorem declaration_succ (inFunction : Bool) (ts : List Token)
    (enough : ts.length * 8 + 7 < fuel + 1) :
    Follows e later inFunction ts (declaration (fuel + 1))
      (Parse.declaration inFunction ts).answer := by
  rw [declaration, Parse.answer_declaration]
  have attempted := ih.attempt inFunction ts (by omega)
  have le := Parse.length_left_attempt_le inFunction ts
  exact attempted.settle ends (by omega)

theorem attempt_succ (inFunction : Bool) (ts : List Token)
    (enough : ts.length * 8 + 6 < fuel + 1) :
    Follows e later inFunction ts (attempt (fuel + 1)) (Parse.attempt inFunction ts) := by
  rw [attempt]
  refine .eat ends (by decide) ?_ fun notFun => .eat ends (by decide) ?_ fun notVar => ?_
  · rintro t rest rfl fun_
    simp only [List.length_cons] at enough
    rw [Parse.attempt, if_pos fun_]
    exact ih.functionDeclaration inFunction rest (by omega)
  · rintro t rest rfl var
    simp only [List.length_cons] at enough
    rw [Parse.attempt, var, if_neg (by decide), if_pos rfl]
    exact variableDeclaration_follows ends (by omega)
  · have plain : Parse.attempt inFunction ts = (Parse.statement inFunction ts).answer := by
      cases ts with
      | nil => rfl
      | cons t rest => exact (if_neg notFun).trans (if_neg notVar)
    rw [plain]
    exact ih.statement inFunction ts (by omega)

theorem statement_succ (inFunction : Bool) (ts : List Token)
    (enough : ts.length * 8 + 5 < fuel + 1) :
    Follows e later inFunction ts (statement (fuel + 1))
      (Parse.statement inFunction ts).answer := by
  rw [statement]
  refine .eat ends (by decide) ?_ fun notFor => .eat ends (by decide) ?_ fun notIf =>
    .eat ends (by decide) ?_ fun notPrint => .check ends (by decide) ?_ fun notReturn =>
    .eat ends (by decide) ?_ fun notWhile => .eat ends (by decide) ?_ fun notBrace => ?_
  · rintro t rest rfl kind
    simp only [List.length_cons] at enough
    rw [Parse.answer_statement_cons, kind]
    exact ih.forStatement inFunction rest (by omega)
  · rintro t rest rfl kind
    simp only [List.length_cons] at enough
    rw [Parse.answer_statement_cons, kind]
    exact ih.ifStatement inFunction rest (by omega)
  · rintro t rest rfl kind
    simp only [List.length_cons] at enough
    rw [Parse.answer_statement_cons, kind]
    exact printStatement_follows ends (by omega)
  · rintro t rest rfl kind
    simp only [List.length_cons] at enough
    rw [Parse.answer_statement_cons, kind]
    exact returnStatement_follows ends (by simp [kind]) (by omega)
  · rintro t rest rfl kind
    simp only [List.length_cons] at enough
    rw [Parse.answer_statement_cons, kind]
    exact ih.whileStatement inFunction rest (by omega)
  · rintro t rest rfl kind
    simp only [List.length_cons] at enough
    rw [Parse.answer_statement_cons, kind]
    have body := (ih.block inFunction [] rest (by omega)).map (f := Stmt.block)
    simpa [Answer.map] using body
  · have plain : (Parse.statement inFunction ts).answer =
        (Parse.expressionStatement ts).answer := by
      cases ts with
      | nil => exact Parse.answer_statement_nil inFunction
      | cons t rest =>
        rw [Parse.answer_statement_cons]
        split
        · exact absurd ‹_› notFor
        · exact absurd ‹_› notIf
        · exact absurd ‹_› notPrint
        · exact absurd ‹_› notReturn
        · exact absurd ‹_› notWhile
        · exact absurd ‹_› notBrace
        · rfl
    rw [plain]
    exact expressionStatement_follows ends (by omega)

theorem forStatement_succ (inFunction : Bool) (ts : List Token)
    (enough : ts.length * 8 + 6 < fuel + 1) :
    Follows e later inFunction ts (forStatement (fuel + 1))
      (Parse.forStatement inFunction ts).answer := by
  rw [forStatement, Parse.answer_forStatement]
  refine (forClauses_follows ends (by omega)).bind fun clauses rest parsed => ?_
  have shorter := Reply.shorter_of_parsed parsed
  exact (ih.statement inFunction rest (by omega)).map

theorem ifStatement_succ (inFunction : Bool) (ts : List Token)
    (enough : ts.length * 8 + 6 < fuel + 1) :
    Follows e later inFunction ts (ifStatement (fuel + 1))
      (Parse.ifStatement inFunction ts).answer := by
  rw [ifStatement, Parse.answer_ifStatement]
  refine (Follows.expect ends _).bind fun _ rest₁ parsed₁ => ?_
  have shorter₁ := Reply.shorter_of_parsed parsed₁
  refine ((expressionsFollow ends fuel).expression rest₁ (by omega)).bind
    fun condition rest₂ parsed₂ => ?_
  have shorter₂ := Reply.shorter_of_parsed parsed₂
  refine (Follows.expect ends _).bind fun _ rest₃ parsed₃ => ?_
  have shorter₃ := Reply.shorter_of_parsed parsed₃
  refine (ih.statement inFunction rest₃ (by omega)).bind fun thenBranch left parsed₄ => ?_
  have shorter₄ := Reply.shorter_of_parsed parsed₄
  refine .eat ends (by decide) ?_ ?_
  · rintro t rest rfl else_
    simp only [List.length_cons] at shorter₄
    rw [Parse.alternative, if_pos else_]
    exact (ih.statement inFunction rest (by omega)).map
  · intro other
    have alone : Parse.alternative inFunction condition thenBranch left =
        .parsed (.ifThen condition thenBranch) left := by
      cases left with
      | nil => rfl
      | cons t rest => exact if_neg other
    rw [alone]
    exact .pure _

theorem whileStatement_succ (inFunction : Bool) (ts : List Token)
    (enough : ts.length * 8 + 6 < fuel + 1) :
    Follows e later inFunction ts (whileStatement (fuel + 1))
      (Parse.whileStatement inFunction ts).answer := by
  rw [whileStatement, Parse.answer_whileStatement]
  refine (Follows.expect ends _).bind fun _ rest₁ parsed₁ => ?_
  have shorter₁ := Reply.shorter_of_parsed parsed₁
  refine ((expressionsFollow ends fuel).expression rest₁ (by omega)).bind
    fun condition rest₂ parsed₂ => ?_
  have shorter₂ := Reply.shorter_of_parsed parsed₂
  refine (Follows.expect ends _).bind fun _ rest₃ parsed₃ => ?_
  have shorter₃ := Reply.shorter_of_parsed parsed₃
  exact (ih.statement inFunction rest₃ (by omega)).map

theorem functionDeclaration_succ (inFunction : Bool) (ts : List Token)
    (enough : ts.length * 8 + 6 < fuel + 1) :
    Follows e later inFunction ts (functionDeclaration (fuel + 1))
      (Parse.functionDeclaration ts).answer := by
  rw [functionDeclaration, Parse.answer_functionDeclaration]
  refine (Follows.expect ends _).bind fun name rest₁ parsed₁ => ?_
  have shorter₁ := Reply.shorter_of_parsed parsed₁
  refine (Follows.expect ends _).bind fun _ rest₂ parsed₂ => ?_
  have shorter₂ := Reply.shorter_of_parsed parsed₂
  refine (parameters_follows ends (by omega)).bind fun params rest₃ parsed₃ => ?_
  have le₃ := (Reply.leaves_of_parsed parsed₃).length_le
  refine (Follows.expect ends _).bind fun _ rest₄ parsed₄ => ?_
  have shorter₄ := Reply.shorter_of_parsed parsed₄
  refine (Follows.expect ends _).bind fun _ rest₅ parsed₅ => ?_
  have shorter₅ := Reply.shorter_of_parsed parsed₅
  have body := ih.block true [] rest₅ (by omega)
  simp only [List.nil_append, Answer.map, Answer.bind_parsed] at body
  exact body.inBody.map

theorem block_succ (inFunction : Bool) (body : List Stmt) (ts : List Token)
    (enough : ts.length * 8 + 8 < fuel + 1) :
    Follows e later inFunction ts (block (fuel + 1) body)
      ((Parse.block inFunction ts).answer.map (body ++ ·)) := by
  rw [block]
  refine .of_plain fun plain => ?_
  cases ts with
  | nil =>
    refine .peek_nil ?_
    rw [Parse.answer_block_nil, if_pos (.inr ends)]
    exact (Follows.expect ends _).map
  | cons t rest =>
    refine .peek_cons ?_
    rw [Parse.answer_block_cons]
    by_cases closes : t.kind = .symbol .rightBrace
    · rw [if_pos closes, if_pos (.inl closes)]
      have taken : (Lox.expect .braceAfterBlock (t :: rest)).answer = .parsed t rest := by
        rw [answer_expect_cons, closes]
        rfl
      have closed : (Answer.parsed [] rest).map (body ++ ·) =
          (Lox.expect .braceAfterBlock (t :: rest)).answer.map fun _ => body := by
        rw [taken, Answer.parsed_map, Answer.parsed_map, List.append_nil]
      rw [closed]
      exact (Follows.expect ends _).map
    · rw [if_neg closes, if_neg (not_or.mpr ⟨closes, plain t List.mem_cons_self⟩)]
      rw [Answer.map, Answer.bind_assoc]
      refine (ih.declaration inFunction (t :: rest) (by omega)).bind fun value left parsed => ?_
      -- Also a declaration that was given up has dropped a token, so the block comes to its end.
      have shorter : left.length ≤ (t :: rest).length - 1 := Parse.shorter_of_settled parsed
      simp only [List.length_cons] at enough shorter
      have later := ih.block inFunction (body ++ value.toList) left (by omega)
      simpa [Answer.map, Answer.bind_assoc] using later

omit ih in
theorem statementsFollow (fuel : Nat) : StatementsFollow e later fuel := by
  induction fuel with
  | zero => constructor <;> simp
  | succ fuel ih =>
    exact ⟨declaration_succ ends ih, attempt_succ ends ih, statement_succ ends ih,
      forStatement_succ ends ih, ifStatement_succ ends ih, whileStatement_succ ends ih,
      functionDeclaration_succ ends ih, block_succ ends ih⟩

omit ih in
theorem program_follows (stmts : List Stmt) (ts : List Token) (enough : ts.length * 8 + 8 < fuel) :
    Follows e later false ts (program fuel stmts)
      ((Answer.parsed (stmts ++ (Parse.program ts).1) []).after (Parse.program ts).2) := by
  induction fuel generalizing stmts ts with
  | zero => exact absurd enough (Nat.not_lt_zero _)
  | succ fuel ih =>
    rw [program]
    refine .of_plain fun plain => .checked ?_
    cases ts with
    | nil =>
      rw [Parse.program]
      simp only [List.headD_nil, ends, decide_true, if_true, List.append_nil]
      exact .pure stmts
    | cons t rest =>
      have more : t.kind ≠ .eof := plain t List.mem_cons_self
      simp only [List.headD_cons, more, decide_false, Bool.false_eq_true, if_false]
      rw [Parse.answer_program_cons]
      refine ((statementsFollow ends fuel).declaration false (t :: rest) (by omega)).bind
        fun value left parsed => ?_
      have shorter : left.length ≤ (t :: rest).length - 1 := Parse.shorter_of_settled parsed
      simp only [List.length_cons] at enough shorter
      exact ih (stmts ++ value.toList) left (by omega)

end Statements

end Reader

end Lox

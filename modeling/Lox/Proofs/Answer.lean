import Lox.Parse.Statement

/- Replies without their bounds. An answer is what a reply says once the proof that it leaves fewer
   tokens is forgotten; sequencing answers needs no proof, so every reading function gets one
   equation between answers, and later arguments open no reading function again. -/
namespace Lox

@[ext] structure Answer (α : Type) where
  outcome : Outcome α
  reports : List Report

/-- Induction on what a reply leaves. -/
@[elab_as_elim] theorem shorterInduction {motive : List Token → Prop} (ts : List Token)
    (step : ∀ ts, (∀ rest : List Token, rest.length < ts.length → motive rest) → motive ts) :
    motive ts :=
  (measure List.length).wf.induction ts step

namespace Answer

variable {α β γ : Type}

def parsed (value : α) (rest : List Token) : Answer α := ⟨.parsed value rest, []⟩
def unmet (what : Expectation) (rest : List Token) : Answer α := ⟨.unmet what rest, []⟩

def after (earlier : List Report) (a : Answer α) : Answer α := ⟨a.outcome, earlier ++ a.reports⟩

def bind (a : Answer α) (next : α → List Token → Answer β) : Answer β :=
  match a.outcome with
  | .parsed value rest => (next value rest).after a.reports
  | .unmet what rest => ⟨.unmet what rest, a.reports⟩

def map (f : α → β) (a : Answer α) : Answer β := a.bind fun value rest => parsed (f value) rest

@[simp] theorem after_nil (a : Answer α) : a.after [] = a := rfl

@[simp] theorem after_after (xs ys : List Report) (a : Answer α) :
    (a.after ys).after xs = a.after (xs ++ ys) := by
  simp [after]

@[simp] theorem parsed_bind (value : α) (rest : List Token) (next : α → List Token → Answer β) :
    (parsed value rest).bind next = next value rest := rfl

@[simp] theorem unmet_bind (what : Expectation) (rest : List Token)
    (next : α → List Token → Answer β) : (unmet what rest : Answer α).bind next = unmet what rest :=
  rfl

@[simp] theorem after_bind (earlier : List Report) (a : Answer α)
    (next : α → List Token → Answer β) :
    (a.after earlier).bind next = (a.bind next).after earlier := by
  unfold bind
  cases eq : a.outcome <;> simp [after, eq]

@[simp] theorem parsed_map (f : α → β) (value : α) (rest : List Token) :
    (parsed value rest).map f = parsed (f value) rest := rfl

@[simp] theorem unmet_map (f : α → β) (what : Expectation) (rest : List Token) :
    (unmet what rest : Answer α).map f = unmet what rest := rfl

@[simp] theorem after_map (earlier : List Report) (f : α → β) (a : Answer α) :
    (a.after earlier).map f = (a.map f).after earlier := after_bind ..

theorem eq_parsed_or_unmet (a : Answer α) :
    (∃ value rest, a = (parsed value rest).after a.reports) ∨
      ∃ what rest, a = (unmet what rest).after a.reports := by
  obtain ⟨outcome, reports⟩ := a
  cases outcome with
  | parsed value rest => exact .inl ⟨value, rest, by simp [after, parsed]⟩
  | unmet what rest => exact .inr ⟨what, rest, by simp [after, unmet]⟩

theorem bind_assoc (a : Answer α) (f : α → List Token → Answer β)
    (g : β → List Token → Answer γ) :
    (a.bind f).bind g = a.bind fun value rest => (f value rest).bind g := by
  rcases a.eq_parsed_or_unmet with ⟨value, rest, eq⟩ | ⟨what, rest, eq⟩
  · rw [eq]
    simp
  · rw [eq]
    simp

theorem bind_congr {a : Answer α} {f g : α → List Token → Answer β}
    (same : ∀ value rest, a.outcome = .parsed value rest → f value rest = g value rest) :
    a.bind f = a.bind g := by
  unfold bind
  cases eq : a.outcome with
  | parsed value rest => simp only [same value rest eq]
  | unmet what rest => rfl

@[simp] theorem bind_parsed (a : Answer α) : a.bind parsed = a := by
  rcases a.eq_parsed_or_unmet with ⟨value, rest, eq⟩ | ⟨what, rest, eq⟩
  · rw [eq]
    simp
  · rw [eq]
    simp

theorem parsed_of_bind {a : Answer α} {next : α → List Token → Answer β} {value : β}
    {rest : List Token} (eq : (a.bind next).outcome = .parsed value rest) :
    ∃ first left, a.outcome = .parsed first left ∧
      (next first left).outcome = .parsed value rest := by
  unfold bind at eq
  cases first : a.outcome with
  | parsed value' left =>
    rw [first] at eq
    exact ⟨value', left, rfl, eq⟩
  | unmet what left =>
    rw [first] at eq
    cases eq

theorem bind_eq_parsed_iff {a : Answer α} {next : α → List Token → Answer β} {value : β}
    {rest : List Token} {reports : List Report} :
    a.bind next = (parsed value rest).after reports ↔
      ∃ first left before later, a = (parsed first left).after before ∧
        next first left = (parsed value rest).after later ∧ reports = before ++ later := by
  constructor
  · intro eq
    rcases a.eq_parsed_or_unmet with ⟨first, left, form⟩ | ⟨what, left, form⟩
    · rw [form, after_bind, parsed_bind] at eq
      have outcome := congrArg Answer.outcome eq
      have total := congrArg Answer.reports eq
      refine ⟨first, left, a.reports, (next first left).reports, form, ?_, ?_⟩
      · ext1
        · exact outcome
        · simp [after, parsed]
      · simpa [after, parsed] using total.symm
    · rw [form, after_bind, unmet_bind] at eq
      exact absurd (congrArg Answer.outcome eq) (by simp [after, parsed, unmet])
  · rintro ⟨first, left, before, later, rfl, second, rfl⟩
    simp [second]

theorem map_eq_parsed_iff {f : α → β} {a : Answer α} {value : β} {rest : List Token}
    {reports : List Report} :
    a.map f = (parsed value rest).after reports ↔
      ∃ first, a = (parsed first rest).after reports ∧ f first = value := by
  unfold map
  rw [bind_eq_parsed_iff]
  constructor
  · rintro ⟨first, left, before, later, rfl, second, rfl⟩
    simp only [parsed, after, Answer.mk.injEq, Outcome.parsed.injEq, List.append_nil] at second
    obtain ⟨⟨rfl, rfl⟩, rfl⟩ := second
    exact ⟨first, by simp, rfl⟩
  · rintro ⟨first, rfl, rfl⟩
    exact ⟨first, rest, reports, [], rfl, rfl, by simp⟩

theorem after_eq_parsed_iff {a : Answer α} {earlier reports : List Report} {value : α}
    {rest : List Token} :
    a.after earlier = (parsed value rest).after reports ↔
      ∃ later, a = (parsed value rest).after later ∧ reports = earlier ++ later := by
  constructor
  · intro eq
    have outcome := congrArg Answer.outcome eq
    have total := congrArg Answer.reports eq
    refine ⟨a.reports, ?_, ?_⟩
    · ext1
      · exact outcome
      · simp [after, parsed]
    · simpa [after, parsed] using total.symm
  · rintro ⟨later, rfl, rfl⟩
    simp

@[simp] theorem parsed_eq_parsed_iff {value value' : α} {rest rest' : List Token}
    {reports : List Report} :
    parsed value rest = (parsed value' rest').after reports ↔
      value = value' ∧ rest = rest' ∧ reports = [] := by
  simp [parsed, after, and_assoc, eq_comm]

@[simp] theorem unmet_ne_parsed {what : Expectation} {value : α} {rest rest' : List Token}
    {reports : List Report} :
    (unmet what rest = (parsed value rest').after reports) = False := by
  simp [parsed, unmet, after]

end Answer

namespace Reply

variable {α β : Type} {c d : Bool} {t : Token} {ts : List Token}

def answer (r : Reply c α ts) : Answer α := ⟨r.outcome, r.reports⟩

theorem ext_answer {r s : Reply c α ts} (same : r.answer = s.answer) : r = s := by
  ext1
  · exact congrArg Answer.outcome same
  · exact congrArg Answer.reports same

@[simp] theorem answer_done (value : α) (ts : List Token) :
    (done value ts).answer = .parsed value ts := rfl

@[simp] theorem answer_fail (what : Expectation) (ts : List Token) :
    (fail what ts : Reply c α ts).answer = .unmet what ts := rfl

@[simp] theorem answer_after (earlier : List Report) (r : Reply c α ts) :
    (r.after earlier).answer = r.answer.after earlier := rfl

@[simp] theorem answer_past (r : Reply c α ts) :
    (r.past : Reply d α (t :: ts)).answer = r.answer := by
  obtain ⟨outcome, reports, within⟩ := r
  cases outcome <;> rfl

@[simp] theorem answer_loosen (r : Reply c α ts) : r.loosen.answer = r.answer := by
  obtain ⟨outcome, reports, within⟩ := r
  cases outcome <;> rfl

@[simp] theorem answer_map (f : α → β) (r : Reply c α ts) :
    (r.map f).answer = r.answer.map f := by
  obtain ⟨outcome, reports, within⟩ := r
  cases outcome <;> simp [map, answer, Answer.map, Answer.bind, Answer.parsed, Answer.after]

/-- The bound that `next` is handed does not show in its answer. -/
theorem answer_bind (r : Reply c α ts)
    (next : (value : α) → (rest : List Token) → Leaves c ts rest → Reply d β rest)
    (f : α → List Token → Answer β)
    (same : ∀ value rest leaves, (next value rest leaves).answer = f value rest) :
    (r.bind next).answer = r.answer.bind f := by
  obtain ⟨outcome, reports, within⟩ := r
  cases outcome with
  | unmet what rest => rfl
  | parsed value rest =>
    have eq := same value rest within
    simp only [bind, answer, Answer.bind]
    rw [← eq]
    split <;> rename_i second <;> simp [answer, second, Answer.after]

theorem leaves_of_parsed {r : Reply c α ts} {value : α} {rest : List Token}
    (parsed : r.answer.outcome = .parsed value rest) : Leaves c ts rest := by
  have within := r.within
  rw [show r.outcome = .parsed value rest from parsed] at within
  exact within

theorem shorter_of_parsed {r : Reply true α ts} {value : α} {rest : List Token}
    (parsed : r.answer.outcome = .parsed value rest) : rest.length < ts.length :=
  leaves_of_parsed parsed

end Reply

@[simp] theorem answer_expect_nil (what : Expectation) :
    (expect what []).answer = .unmet what [] := rfl

theorem answer_expect_cons (what : Expectation) (t : Token) (rest : List Token) :
    (expect what (t :: rest)).answer =
      if some t.kind = what.kind? then .parsed t rest else .unmet what (t :: rest) := by
  simp only [expect]
  split <;> simp

namespace Parse

def assignment (value : List Token → Answer Expr) (target : Expr) : List Token → Answer Expr
  | [] => .parsed target []
  | t :: rest =>
    if t.kind = .symbol .equal then
      (value rest).bind fun value rest' =>
        (Answer.parsed (assignTo target t value).1 rest').after (assignTo target t value).2
    else .parsed target (t :: rest)

def entries {α : Type} (later : List Token → Answer (List α)) (first : α) :
    List Token → Answer (List α)
  | [] => .parsed [first] []
  | t :: rest =>
    if t.kind = .symbol .comma then (later rest).map (first :: ·) else .parsed [first] (t :: rest)

theorem answer_expression (ts : List Token) :
    (expression ts).answer =
      (operation 0 ts).answer.bind (assignment fun rest => (expression rest).answer) := by
  rw [expression]
  apply Reply.answer_bind
  intro target left leaves
  cases left with
  | nil => rfl
  | cons t rest =>
    simp only [assignment]
    split
    · rw [Reply.answer_past]
      exact Reply.answer_bind _ _ _ fun value rest' _ => rfl
    · rfl

theorem answer_operation (power : Nat) (ts : List Token) :
    (operation power ts).answer =
      (unary ts).answer.bind fun left rest => (operators power left rest).answer := by
  rw [operation]
  exact Reply.answer_bind _ _ _ fun left rest _ => rfl

theorem answer_operators_nil (power : Nat) (left : Expr) :
    (operators power left []).answer = .parsed left [] := by
  rw [operators]
  rfl

theorem answer_operators_cons (power : Nat) (left : Expr) (op : Token) (rest : List Token) :
    (operators power left (op :: rest)).answer =
      match op.kind.bindingPower? with
      | none => .parsed left (op :: rest)
      | some (leftPower, rightPower) =>
        if leftPower < power then .parsed left (op :: rest)
        else
          (operation rightPower rest).answer.bind fun right rest' =>
            (operators power (combine left op right) rest').answer := by
  rw [operators]
  cases op.kind.bindingPower? with
  | none => rfl
  | some powers =>
    dsimp only
    split
    · rfl
    · rw [Reply.answer_past]
      exact Reply.answer_bind _ _ _ fun right rest' _ => rfl

theorem answer_unary_nil : (unary []).answer = (call []).answer := by
  rw [unary]

theorem answer_unary_cons (op : Token) (rest : List Token) :
    (unary (op :: rest)).answer =
      if op.kind = .symbol .bang ∨ op.kind = .symbol .minus then
        (unary rest).answer.map (.unary op)
      else (call (op :: rest)).answer := by
  rw [unary]
  split
  · simp
  · rfl

theorem answer_call (ts : List Token) :
    (call ts).answer = (primary ts).answer.bind fun callee rest => (calls callee rest).answer := by
  rw [call]
  exact Reply.answer_bind _ _ _ fun callee rest _ => rfl

theorem answer_calls_nil (callee : Expr) : (calls callee []).answer = .parsed callee [] := by
  rw [calls]
  rfl

theorem answer_calls_cons (callee : Expr) (t : Token) (rest : List Token) :
    (calls callee (t :: rest)).answer =
      if t.kind = .symbol .leftParen then
        (arguments rest).answer.bind fun args rest₁ =>
          (expect .parenAfterArguments rest₁).answer.bind fun paren rest₂ =>
            (calls (.call callee paren args) rest₂).answer
      else .parsed callee (t :: rest) := by
  rw [calls]
  split
  · rw [Reply.answer_past]
    apply Reply.answer_bind
    intro args rest₁ _
    exact Reply.answer_bind _ _ _ fun paren rest₂ _ => rfl
  · rfl

theorem answer_arguments (ts : List Token) :
    (arguments ts).answer =
      if ts.head?.any (·.kind = .symbol .rightParen) then .parsed [] ts
      else (argumentList 0 ts).answer := by
  rw [arguments]
  split
  · rfl
  · simp

theorem answer_argumentList (count : Nat) (ts : List Token) :
    (argumentList count ts).answer =
      ((expression ts).answer.bind
        (entries fun rest => (argumentList (count + 1) rest).answer)).after
          (countReports .tooManyArguments count ts) := by
  rw [argumentList, Reply.answer_after]
  congr 1
  apply Reply.answer_bind
  intro first left leaves
  cases left with
  | nil => rfl
  | cons t rest =>
    simp only [entries]
    split <;> simp

theorem answer_primary_nil : (primary []).answer = .unmet .expression [] := by
  rw [primary]
  rfl

theorem answer_primary_cons (t : Token) (rest : List Token) :
    (primary (t :: rest)).answer =
      match constant? t.kind with
      | some l => .parsed (.literal l) rest
      | none =>
        if t.kind = .identifier then .parsed (.reference t) rest
        else if t.kind = .symbol .leftParen then
          (expression rest).answer.bind fun inner rest₁ =>
            (expect .parenAfterExpression rest₁).answer.map fun _ => .grouping inner
        else .unmet .expression (t :: rest) := by
  rw [primary]
  cases constant? t.kind with
  | some l => simp
  | none =>
    dsimp only
    split
    · simp
    · split
      · rw [Reply.answer_past]
        exact Reply.answer_bind _ _ _ fun inner rest₁ _ => Reply.answer_map _ _
      · rfl

theorem answer_optional (stop : Kind) (ts : List Token) :
    (optional stop ts).answer =
      if ts.head?.any (·.kind = stop) then .parsed none ts
      else (expression ts).answer.map some := by
  unfold optional
  split <;> simp

theorem answer_expressionStatement (ts : List Token) :
    (expressionStatement ts).answer =
      (expression ts).answer.bind fun expr rest =>
        (expect .semicolonAfterExpression rest).answer.map fun _ => .expression expr :=
  Reply.answer_bind _ _ _ fun _ _ _ => Reply.answer_map _ _

theorem answer_printStatement (ts : List Token) :
    (printStatement ts).answer =
      (expression ts).answer.bind fun expr rest =>
        (expect .semicolonAfterValue rest).answer.map fun _ => .print expr :=
  Reply.answer_bind _ _ _ fun _ _ _ => Reply.answer_map _ _

theorem answer_returnStatement (inFunction : Bool) (keyword : Token) (ts : List Token) :
    (returnStatement inFunction keyword ts).answer =
      ((optional (.symbol .semicolon) ts).answer.bind fun value rest =>
        (expect .semicolonAfterReturnValue rest).answer.map fun _ => .return_ keyword value).after
          (if inFunction then [] else [⟨some keyword, .violated .returnOutsideFunction⟩]) := by
  rw [returnStatement, Reply.answer_after]
  congr 1
  exact Reply.answer_bind _ _ _ fun _ _ _ => Reply.answer_map _ _

theorem answer_initializer_nil : (initializer []).answer = .parsed none [] := rfl

theorem answer_initializer_cons (t : Token) (rest : List Token) :
    (initializer (t :: rest)).answer =
      if t.kind = .symbol .equal then (expression rest).answer.map some
      else .parsed none (t :: rest) := by
  simp only [initializer]
  split <;> simp

theorem answer_variableDeclaration (ts : List Token) :
    (variableDeclaration ts).answer =
      (expect .variableName ts).answer.bind fun name rest₁ =>
        (initializer rest₁).answer.bind fun value rest₂ =>
          (expect .semicolonAfterDeclaration rest₂).answer.map fun _ => .declare name value := by
  refine Reply.answer_bind _ _ _ fun name rest₁ _ => ?_
  exact Reply.answer_bind _ _ _ fun value rest₂ _ => Reply.answer_map _ _

theorem answer_parameterList (count : Nat) (ts : List Token) :
    (parameterList count ts).answer =
      ((expect .parameterName ts).answer.bind
        (entries fun rest => (parameterList (count + 1) rest).answer)).after
          (countReports .tooManyParameters count ts) := by
  rw [parameterList, Reply.answer_after]
  congr 1
  apply Reply.answer_bind
  intro first left leaves
  cases left with
  | nil => rfl
  | cons t rest =>
    simp only [entries]
    split <;> simp

theorem answer_parameters (ts : List Token) :
    (parameters ts).answer =
      if ts.head?.any (·.kind = .symbol .rightParen) then .parsed [] ts
      else (parameterList 0 ts).answer := by
  unfold parameters
  split <;> simp

theorem answer_forInitializer_cons (t : Token) (rest : List Token) :
    (forInitializer (t :: rest)).answer =
      if t.kind = .symbol .semicolon then .parsed none rest
      else if t.kind = .keyword .var then (variableDeclaration rest).answer.map some
      else (expressionStatement (t :: rest)).answer.map some := by
  simp only [forInitializer]
  split
  · simp
  · split <;> simp

theorem answer_forInitializer_nil :
    (forInitializer []).answer = (expressionStatement []).answer.map some := by
  simp [forInitializer]

theorem answer_forClauses (ts : List Token) :
    (forClauses ts).answer =
      (expect .parenAfterFor ts).answer.bind fun _ rest₁ =>
        (forInitializer rest₁).answer.bind fun first rest₂ =>
          (optional (.symbol .semicolon) rest₂).answer.bind fun condition rest₃ =>
            (expect .semicolonAfterLoopCondition rest₃).answer.bind fun _ rest₄ =>
              (optional (.symbol .rightParen) rest₄).answer.bind fun increment rest₅ =>
                (expect .parenAfterForClauses rest₅).answer.map fun _ =>
                  ⟨first, condition, increment⟩ := by
  refine Reply.answer_bind _ _ _ fun _ rest₁ _ => ?_
  refine Reply.answer_bind _ _ _ fun first rest₂ _ => ?_
  refine Reply.answer_bind _ _ _ fun condition rest₃ _ => ?_
  refine Reply.answer_bind _ _ _ fun _ rest₄ _ => ?_
  exact Reply.answer_bind _ _ _ fun increment rest₅ _ => Reply.answer_map _ _

theorem answer_statement_nil (inFunction : Bool) :
    (statement inFunction []).answer = (expressionStatement []).answer := by
  rw [statement]

theorem answer_statement_cons (inFunction : Bool) (t : Token) (rest : List Token) :
    (statement inFunction (t :: rest)).answer =
      match t.kind with
      | .keyword .for_ => (forStatement inFunction rest).answer
      | .keyword .if_ => (ifStatement inFunction rest).answer
      | .keyword .print => (printStatement rest).answer
      | .keyword .return_ => (returnStatement inFunction t rest).answer
      | .keyword .while_ => (whileStatement inFunction rest).answer
      | .symbol .leftBrace => (block inFunction rest).answer.map .block
      | _ => (expressionStatement (t :: rest)).answer := by
  rw [statement]
  generalize t.kind = kind
  split <;> simp

theorem answer_forStatement (inFunction : Bool) (ts : List Token) :
    (forStatement inFunction ts).answer =
      (forClauses ts).answer.bind fun clauses rest =>
        (statement inFunction rest).answer.map clauses.loop := by
  rw [forStatement]
  exact Reply.answer_bind _ _ _ fun _ _ _ => Reply.answer_map _ _

def alternative (inFunction : Bool) (condition : Expr) (thenBranch : Stmt) :
    List Token → Answer Stmt
  | [] => .parsed (.ifThen condition thenBranch) []
  | t :: rest =>
    if t.kind = .keyword .else_ then
      (statement inFunction rest).answer.map (.ifElse condition thenBranch)
    else .parsed (.ifThen condition thenBranch) (t :: rest)

theorem answer_ifStatement (inFunction : Bool) (ts : List Token) :
    (ifStatement inFunction ts).answer =
      (expect .parenAfterIf ts).answer.bind fun _ rest₁ =>
        (expression rest₁).answer.bind fun condition rest₂ =>
          (expect .parenAfterIfCondition rest₂).answer.bind fun _ rest₃ =>
            (statement inFunction rest₃).answer.bind (alternative inFunction condition) := by
  rw [ifStatement]
  refine Reply.answer_bind _ _ _ fun _ rest₁ _ => ?_
  refine Reply.answer_bind _ _ _ fun condition rest₂ _ => ?_
  refine Reply.answer_bind _ _ _ fun _ rest₃ _ => ?_
  apply Reply.answer_bind
  intro thenBranch left leaves
  cases left with
  | nil => rfl
  | cons t rest =>
    simp only [alternative]
    split <;> simp

theorem answer_whileStatement (inFunction : Bool) (ts : List Token) :
    (whileStatement inFunction ts).answer =
      (expect .parenAfterWhile ts).answer.bind fun _ rest₁ =>
        (expression rest₁).answer.bind fun condition rest₂ =>
          (expect .parenAfterCondition rest₂).answer.bind fun _ rest₃ =>
            (statement inFunction rest₃).answer.map (.loop condition) := by
  rw [whileStatement]
  refine Reply.answer_bind _ _ _ fun _ rest₁ _ => ?_
  refine Reply.answer_bind _ _ _ fun condition rest₂ _ => ?_
  exact Reply.answer_bind _ _ _ fun _ rest₃ _ => Reply.answer_map _ _

theorem answer_functionDeclaration (ts : List Token) :
    (functionDeclaration ts).answer =
      (expect .functionName ts).answer.bind fun name rest₁ =>
        (expect .parenAfterFunctionName rest₁).answer.bind fun _ rest₂ =>
          (parameters rest₂).answer.bind fun params rest₃ =>
            (expect .parenAfterParameters rest₃).answer.bind fun _ rest₄ =>
              (expect .braceBeforeBody rest₄).answer.bind fun _ rest₅ =>
                (block true rest₅).answer.map (.function name params) := by
  rw [functionDeclaration]
  refine Reply.answer_bind _ _ _ fun name rest₁ _ => ?_
  refine Reply.answer_bind _ _ _ fun _ rest₂ _ => ?_
  refine Reply.answer_bind _ _ _ fun params rest₃ _ => ?_
  refine Reply.answer_bind _ _ _ fun _ rest₄ _ => ?_
  exact Reply.answer_bind _ _ _ fun _ rest₅ _ => Reply.answer_map _ _

def attempt (inFunction : Bool) : List Token → Answer Stmt
  | [] => (statement inFunction []).answer
  | t :: rest =>
    if t.kind = .keyword .fun_ then (functionDeclaration rest).answer
    else if t.kind = .keyword .var then (variableDeclaration rest).answer
    else (statement inFunction (t :: rest)).answer

/-- What becomes of an attempt: its statement, or none past the next boundary. -/
def settle (a : Answer Stmt) : Answer (Option Stmt) :=
  match a.outcome with
  | .parsed stmt rest => (Answer.parsed (some stmt) rest).after a.reports
  | .unmet what rest =>
    (Answer.parsed none (skipToBoundary rest)).after (a.reports ++ [⟨rest.head?, .expected what⟩])

def Declaration.answer {ts : List Token} (d : Declaration ts) : Answer (Option Stmt) :=
  (Answer.parsed d.value d.rest).after d.reports

theorem answer_recover {ts : List Token} (r : Reply true Stmt ts) :
    (recover r).answer = settle r.answer := by
  obtain ⟨outcome, reports, within⟩ := r
  cases outcome <;> rfl

theorem answer_declaration (inFunction : Bool) (ts : List Token) :
    (declaration inFunction ts).answer = settle (attempt inFunction ts) := by
  cases ts with
  | nil => rw [declaration.eq_def, answer_recover, attempt]
  | cons t rest =>
    rw [declaration.eq_def, answer_recover, attempt]
    dsimp only
    congr 1
    split
    · simp
    · split <;> simp

theorem answer_block_nil (inFunction : Bool) :
    (block inFunction []).answer = .unmet .braceAfterBlock [] := by
  rw [block]
  rfl

theorem answer_block_cons (inFunction : Bool) (t : Token) (rest : List Token) :
    (block inFunction (t :: rest)).answer =
      if t.kind = .symbol .rightBrace then .parsed [] rest
      else
        (declaration inFunction (t :: rest)).answer.bind fun value left =>
          (block inFunction left).answer.map (value.toList ++ ·) := by
  rw [block]
  split
  · simp
  · rw [Declaration.andThen, Reply.answer_past]
    refine (Reply.answer_bind _ _ _ fun value left _ => Reply.answer_map _ _).trans ?_
    simp [Reply.answer, Declaration.answer, Answer.parsed, Answer.after]

end Parse
end Lox

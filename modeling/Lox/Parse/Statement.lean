import Lox.Parse.Expression

/- Statements and declarations. A declaration that cannot be parsed is reported, given up, and
   skipped up to the next boundary; the statements around it are unaffected. Whether a function body
   encloses the tokens decides only if a return is reported. -/
namespace Lox.Parse

/-- Drops at least one token, and then more up to a boundary: after a semicolon, before a keyword
that starts a statement, or at the end. -/
def skipToBoundary : List Token → List Token
  | [] => []
  | t :: rest =>
    if t.kind = .symbol .semicolon ∨ rest.head?.any (·.kind.startsStatement) then rest
    else skipToBoundary rest

theorem length_skipToBoundary_le (ts : List Token) :
    (skipToBoundary ts).length ≤ ts.length - 1 := by
  induction ts with
  | nil => simp [skipToBoundary]
  | cons t rest ih =>
    unfold skipToBoundary
    split
    · simp
    · simp only [List.length_cons]
      omega

/-- A declaration, or none if it was given up, with the tokens left after it. At least one token is
gone unless there was none. -/
@[ext] structure Declaration (ts : List Token) where
  value : Option Stmt
  rest : List Token
  reports : List Report
  shorter : rest.length ≤ ts.length - 1

def recover {ts : List Token} (r : Reply true Stmt ts) : Declaration ts :=
  match r with
  | ⟨.parsed stmt rest, reports, within⟩ => ⟨some stmt, rest, reports, Nat.le_sub_one_of_lt within⟩
  | ⟨.unmet what rest, reports, within⟩ =>
    ⟨none, skipToBoundary rest, reports ++ [⟨rest.head?, .expected what⟩],
      Nat.le_trans (length_skipToBoundary_le rest) (Nat.sub_le_sub_right within 1)⟩

def Declaration.andThen {α : Type} {c d : Bool} {t : Token} {ts : List Token}
    (first : Declaration (t :: ts))
    (next : (value : Option Stmt) → (rest : List Token) → Leaves false ts rest → Reply c α rest) :
    Reply d α (t :: ts) :=
  ((Reply.mk (.parsed first.value first.rest) first.reports first.shorter : Reply false _ ts).bind
    next).past

def optional (stop : Kind) (ts : List Token) : Reply false (Option Expr) ts :=
  if ts.head?.any (·.kind = stop) then .done none ts else ((expression ts).map some).loosen

def expressionStatement (ts : List Token) : Reply true Stmt ts :=
  (expression ts).bind fun expr rest _ =>
    (expect .semicolonAfterExpression rest).map fun _ => .expression expr

def printStatement (ts : List Token) : Reply true Stmt ts :=
  (expression ts).bind fun expr rest _ =>
    (expect .semicolonAfterValue rest).map fun _ => .print expr

def returnStatement (inFunction : Bool) (keyword : Token) (ts : List Token) : Reply true Stmt ts :=
  ((optional (.symbol .semicolon) ts).bind fun value rest _ =>
    (expect .semicolonAfterReturnValue rest).map fun _ => .return_ keyword value).after
      (if inFunction then [] else [⟨some keyword, .violated .returnOutsideFunction⟩])

def initializer (ts : List Token) : Reply false (Option Expr) ts :=
  match ts with
  | [] => .done none []
  | t :: rest =>
    if t.kind = .symbol .equal then ((expression rest).map some).past else .done none (t :: rest)

def variableDeclaration (ts : List Token) : Reply true Stmt ts :=
  (expect .variableName ts).bind fun name rest₁ _ =>
    (initializer rest₁).bind fun value rest₂ _ =>
      (expect .semicolonAfterDeclaration rest₂).map fun _ => .declare name value

def parameterList (count : Nat) (ts : List Token) : Reply true (List Token) ts :=
  ((expect .parameterName ts).bind fun first left leaves =>
    match left, leaves with
    | [], _ => .done [first] []
    | t :: rest, _ =>
      if t.kind = .symbol .comma then ((parameterList (count + 1) rest).map (first :: ·)).past
      else .done [first] (t :: rest)).after (countReports .tooManyParameters count ts)
termination_by ts.length
decreasing_by all_goals grind [Leaves]

def parameters (ts : List Token) : Reply false (List Token) ts :=
  if ts.head?.any (·.kind = .symbol .rightParen) then .done [] ts
  else (parameterList 0 ts).loosen

def forInitializer (ts : List Token) : Reply true (Option Stmt) ts :=
  match ts with
  | [] => (expressionStatement []).map some
  | t :: rest =>
    if t.kind = .symbol .semicolon then (Reply.done none rest).past
    else if t.kind = .keyword .var then ((variableDeclaration rest).map some).past
    else (expressionStatement (t :: rest)).map some

structure ForClauses where
  initializer : Option Stmt
  condition : Option Expr
  increment : Option Expr

def forClauses (ts : List Token) : Reply true ForClauses ts :=
  (expect .parenAfterFor ts).bind fun _ rest₁ _ =>
    (forInitializer rest₁).bind fun first rest₂ _ =>
      (optional (.symbol .semicolon) rest₂).bind fun condition rest₃ _ =>
        (expect .semicolonAfterLoopCondition rest₃).bind fun _ rest₄ _ =>
          (optional (.symbol .rightParen) rest₄).bind fun increment rest₅ _ =>
            (expect .parenAfterForClauses rest₅).map fun _ => ⟨first, condition, increment⟩

/-- A counted loop is a plain loop: the increment ends each round, a missing condition always holds,
and the initializer has a block of its own around the loop. -/
def ForClauses.loop (clauses : ForClauses) (body : Stmt) : Stmt :=
  let round :=
    match clauses.increment with
    | some increment => .block [body, .expression increment]
    | none => body
  let loop := .loop (clauses.condition.getD (.literal (.bool true))) round
  match clauses.initializer with
  | some first => .block [first, loop]
  | none => loop

mutual

def declaration (inFunction : Bool) (ts : List Token) : Declaration ts :=
  recover <|
    match ts with
    | [] => statement inFunction []
    | t :: rest =>
      if t.kind = .keyword .fun_ then (functionDeclaration rest).past
      else if t.kind = .keyword .var then (variableDeclaration rest).past
      else statement inFunction (t :: rest)
termination_by ts.length * 4 + 1
decreasing_by all_goals grind [Leaves]

def statement (inFunction : Bool) (ts : List Token) : Reply true Stmt ts :=
  match ts with
  | [] => expressionStatement []
  | t :: rest =>
    match t.kind with
    | .keyword .for_ => (forStatement inFunction rest).past
    | .keyword .if_ => (ifStatement inFunction rest).past
    | .keyword .print => (printStatement rest).past
    | .keyword .return_ => (returnStatement inFunction t rest).past
    | .keyword .while_ => (whileStatement inFunction rest).past
    | .symbol .leftBrace => ((block inFunction rest).map .block).past
    | _ => expressionStatement (t :: rest)
termination_by ts.length * 4
decreasing_by all_goals grind [Leaves]

def forStatement (inFunction : Bool) (ts : List Token) : Reply true Stmt ts :=
  (forClauses ts).bind fun clauses rest _ => (statement inFunction rest).map clauses.loop
termination_by ts.length * 4 + 1
decreasing_by all_goals grind [Leaves]

/-- An else belongs to the nearest if. -/
def ifStatement (inFunction : Bool) (ts : List Token) : Reply true Stmt ts :=
  (expect .parenAfterIf ts).bind fun _ rest₁ _ =>
    (expression rest₁).bind fun condition rest₂ _ =>
      (expect .parenAfterIfCondition rest₂).bind fun _ rest₃ _ =>
        (statement inFunction rest₃).bind fun thenBranch left leaves =>
          match left, leaves with
          | [], _ => .done (.ifThen condition thenBranch) []
          | t :: rest, _ =>
            if t.kind = .keyword .else_ then
              ((statement inFunction rest).map (.ifElse condition thenBranch)).past
            else .done (.ifThen condition thenBranch) (t :: rest)
termination_by ts.length * 4 + 1
decreasing_by all_goals grind [Leaves]

def whileStatement (inFunction : Bool) (ts : List Token) : Reply true Stmt ts :=
  (expect .parenAfterWhile ts).bind fun _ rest₁ _ =>
    (expression rest₁).bind fun condition rest₂ _ =>
      (expect .parenAfterCondition rest₂).bind fun _ rest₃ _ =>
        (statement inFunction rest₃).map (.loop condition)
termination_by ts.length * 4 + 1
decreasing_by all_goals grind [Leaves]

def functionDeclaration (ts : List Token) : Reply true Stmt ts :=
  (expect .functionName ts).bind fun name rest₁ _ =>
    (expect .parenAfterFunctionName rest₁).bind fun _ rest₂ _ =>
      (parameters rest₂).bind fun params rest₃ _ =>
        (expect .parenAfterParameters rest₃).bind fun _ rest₄ _ =>
          (expect .braceBeforeBody rest₄).bind fun _ rest₅ _ =>
            (block true rest₅).map (.function name params)
termination_by ts.length * 4 + 1
decreasing_by all_goals grind [Leaves]

def block (inFunction : Bool) (ts : List Token) : Reply true (List Stmt) ts :=
  match ts with
  | [] => .fail .braceAfterBlock []
  | t :: rest =>
    if t.kind = .symbol .rightBrace then (Reply.done [] rest).past
    else
      (declaration inFunction (t :: rest)).andThen fun value left _ =>
        (block inFunction left).map (value.toList ++ ·)
termination_by ts.length * 4 + 2
decreasing_by all_goals grind [Leaves]

end

def program (ts : List Token) : List Stmt × List Report :=
  match ts with
  | [] => ([], [])
  | t :: rest =>
    let first := declaration false (t :: rest)
    let later := program first.rest
    (first.value.toList ++ later.1, first.reports ++ later.2)
termination_by ts.length
decreasing_by exact Nat.lt_of_le_sub_one (Nat.succ_pos _) (declaration false (t :: rest)).shorter

end Lox.Parse

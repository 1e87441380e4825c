import Lox.Diagnostic
import Lox.Token

/- What can be wrong with a token list. An expectation that is not met ends the declaration it
   stands in; a violation is noted and parsing goes on. -/
namespace Lox

def maxArguments : Nat := 255

inductive Expectation where
  | expression
  | parenAfterExpression
  | parenAfterArguments
  | semicolonAfterExpression
  | semicolonAfterValue
  | braceAfterBlock
  | variableName
  | semicolonAfterDeclaration
  | functionName
  | parenAfterFunctionName
  | parameterName
  | parenAfterParameters
  | braceBeforeBody
  | parenAfterIf
  | parenAfterIfCondition
  | parenAfterWhile
  | parenAfterCondition
  | parenAfterFor
  | semicolonAfterLoopCondition
  | parenAfterForClauses
  | semicolonAfterReturnValue
  deriving DecidableEq

inductive Violation where
  | assignmentTarget
  | tooManyArguments
  | tooManyParameters
  | returnOutsideFunction
  deriving DecidableEq

inductive Problem where
  | expected (what : Expectation)
  | violated (rule : Violation)
  deriving DecidableEq

def Expectation.kind? : Expectation → Option Kind
  | .expression => none
  | .variableName | .functionName | .parameterName => some .identifier
  | .parenAfterFunctionName | .parenAfterIf | .parenAfterWhile | .parenAfterFor =>
    some (.symbol .leftParen)
  | .parenAfterExpression | .parenAfterArguments | .parenAfterParameters | .parenAfterIfCondition
  | .parenAfterCondition | .parenAfterForClauses => some (.symbol .rightParen)
  | .braceBeforeBody => some (.symbol .leftBrace)
  | .braceAfterBlock => some (.symbol .rightBrace)
  | .semicolonAfterExpression | .semicolonAfterValue | .semicolonAfterDeclaration
  | .semicolonAfterLoopCondition | .semicolonAfterReturnValue => some (.symbol .semicolon)

def Expectation.message : Expectation → String
  | .expression => "Expect expression."
  | .parenAfterExpression => "Expect ')' after expression."
  | .parenAfterArguments => "Expect ')' after arguments."
  | .semicolonAfterExpression => "Expect ';' after expression."
  | .semicolonAfterValue => "Expect ';' after value."
  | .braceAfterBlock => "Expect '\x7d' after block."
  | .variableName => "Expect variable name."
  | .semicolonAfterDeclaration => "Expect ';' after variable declaration."
  | .functionName => "Expect function name."
  | .parenAfterFunctionName => "Expect '(' after function name."
  | .parameterName => "Expect parameter name."
  | .parenAfterParameters => "Expect ')' after parameters."
  | .braceBeforeBody => "Expect '\x7b' before function body."
  | .parenAfterIf => "Expect '(' after 'if'."
  | .parenAfterIfCondition => "Expect ')' after if condition."
  | .parenAfterWhile => "Expect '(' after 'while'."
  | .parenAfterCondition => "Expect ')' after condition."
  | .parenAfterFor => "Expect '(' after 'for'."
  | .semicolonAfterLoopCondition => "Expect ';' after loop condition."
  | .parenAfterForClauses => "Expect ')' after for clauses."
  | .semicolonAfterReturnValue => "Expect ';' after return value."

def Violation.message : Violation → String
  | .assignmentTarget => "Invalid assignment target."
  | .tooManyArguments => "Can't have more than 255 arguments."
  | .tooManyParameters => "Can't have more than 255 parameters."
  | .returnOutsideFunction => "Can't return from top-level code."

def Problem.message : Problem → String
  | .expected what => what.message
  | .violated rule => rule.message

structure Report where
  token? : Option Token
  problem : Problem
  deriving DecidableEq

def Report.diagnostic (endToken : Token) (r : Report) : Diagnostic :=
  match r.token? with
  | some t => ⟨t.line, " at '" ++ t.lexeme ++ "'", r.problem.message⟩
  | none => ⟨endToken.line, " at end", r.problem.message⟩

end Lox

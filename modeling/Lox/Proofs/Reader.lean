import Lox.Parse.Cursor

/- A reader that goes along its tokens. It keeps its place, the number of function bodies around it
   and all that it has reported, and goes on with them from one call to the next. -/
namespace Lox

structure Reader where
  tokens : List Token
  position : Nat
  depth : Nat
  reported : List Diagnostic

/-- Reading gives a value or refuses; out of fuel, or past the last token, it gives nothing. -/
def Reads (α : Type) : Type := Reader → Option (Except Refusal α × Reader)

instance : Monad Reads where
  pure a := fun r => some (.ok a, r)
  bind x f := fun r =>
    match x r with
    | some (.ok a, r') => f a r'
    | some (.error why, r') => some (.error why, r')
    | none => none

def Token.diagnostic (t : Token) (problem : Problem) : Diagnostic :=
  ⟨t.line, if t.kind = .eof then " at end" else " at '" ++ t.lexeme ++ "'", problem.message⟩

namespace Reader

variable {α β : Type}

def endOf (ts : List Token) : Token := ⟨.eof, "", (ts.getLast?.map (·.line)).getD 1⟩

/-- A new reader. An end-of-file token is appended if none is last. -/
def ofTokens (ts : List Token) : Reader where
  tokens := if ts.getLast?.any (·.kind = .eof) then ts else ts ++ [endOf ts]
  position := 0
  depth := 0
  reported := []

def peek : Reads Token := fun r => r.tokens[r.position]?.map fun t => (.ok t, r)

def change (f : Reader → Reader) : Reads Unit := fun r => some (.ok (), f r)

def next : Reads Token := fun r =>
  r.tokens[r.position]?.map fun t =>
    (.ok t, if t.kind = .eof then r else { r with position := r.position + 1 })

def check (kind : Kind) : Reads Bool := do return (← peek).kind = kind

def eat (kind : Kind) : Reads Bool := do
  if ← check kind then
    let _ ← next
    return true
  else return false

def report (t : Token) (problem : Problem) : Reads Unit :=
  change fun r => { r with reported := r.reported ++ [t.diagnostic problem] }

def refuse (what : Expectation) : Reads α := do
  let t ← peek
  report t (.expected what)
  fun r => some (.error ⟨t, what⟩, r)

def expect (what : Expectation) : Reads Token := do
  if some (← peek).kind = what.kind? then next else refuse what

def noteCount (rule : Violation) (count : Nat) : Reads Unit := do
  if maxArguments ≤ count then report (← peek) (.violated rule) else return

def outcome (x : Reads α) : Reads (Except Refusal α) := fun r =>
  (x r).map fun (result, r') => (.ok result, r')

/-- Runs code in one more function body, and leaves the body however the code ends. -/
def inBody (x : Reads α) : Reads α := do
  change fun r => { r with depth := r.depth + 1 }
  let result ← outcome x
  change fun r => { r with depth := r.depth - 1 }
  fun r => some (result, r)

mutual

def expression : Nat → Reads Expr
  | 0 => fun _ => none
  | fuel + 1 => do
    let target ← operation fuel 0
    if ← check (.symbol .equal) then
      let equals ← next
      let value ← expression fuel
      match target with
      | .reference name => return .assign name value
      | other =>
        report equals (.violated .assignmentTarget)
        return other
    else return target

def operation : Nat → Nat → Reads Expr
  | 0, _ => fun _ => none
  | fuel + 1, power => do
    let left ← unary fuel
    operators fuel power left

def operators : Nat → Nat → Expr → Reads Expr
  | 0, _, _ => fun _ => none
  | fuel + 1, power, left => do
    match (← peek).kind.bindingPower? with
    | none => return left
    | some (leftPower, rightPower) =>
      if leftPower < power then return left
      else
        let op ← next
        let right ← operation fuel rightPower
        operators fuel power (Parse.combine left op right)

def unary : Nat → Reads Expr
  | 0 => fun _ => none
  | fuel + 1 => do
    let t ← peek
    if t.kind = .symbol .bang ∨ t.kind = .symbol .minus then
      let op ← next
      let operand ← unary fuel
      return .unary op operand
    else call fuel

def call : Nat → Reads Expr
  | 0 => fun _ => none
  | fuel + 1 => do
    let callee ← primary fuel
    calls fuel callee

def calls : Nat → Expr → Reads Expr
  | 0, _ => fun _ => none
  | fuel + 1, callee => do
    if ← eat (.symbol .leftParen) then
      let args ← arguments fuel
      let paren ← expect .parenAfterArguments
      calls fuel (.call callee paren args)
    else return callee

def arguments : Nat → Reads (List Expr)
  | 0 => fun _ => none
  | fuel + 1 => do
    if ← check (.symbol .rightParen) then return [] else argumentList fuel []

def argumentList : Nat → List Expr → Reads (List Expr)
  | 0, _ => fun _ => none
  | fuel + 1, args => do
    noteCount .tooManyArguments args.length
    let arg ← expression fuel
    if ← eat (.symbol .comma) then argumentList fuel (args ++ [arg]) else return args ++ [arg]

def primary : Nat → Reads Expr
  | 0 => fun _ => none
  | fuel + 1 => do
    let t ← peek
    match Parse.constant? t.kind with
    | some l =>
      let _ ← next
      return .literal l
    | none =>
      if t.kind = .identifier then
        let name ← next
        return .reference name
      else if ← eat (.symbol .leftParen) then
        let inner ← expression fuel
        let _ ← expect .parenAfterExpression
        return .grouping inner
      else refuse .expression

end

def optional (fuel : Nat) (stop : Kind) : Reads (Option Expr) := do
  if ← check stop then return none
  else
    let e ← expression fuel
    return some e

def expressionStatement (fuel : Nat) : Reads Stmt := do
  let e ← expression fuel
  let _ ← expect .semicolonAfterExpression
  return .expression e

def printStatement (fuel : Nat) : Reads Stmt := do
  let e ← expression fuel
  let _ ← expect .semicolonAfterValue
  return .print e

def noteReturn (keyword : Token) : Reads Unit := fun r =>
  if r.depth = 0 then report keyword (.violated .returnOutsideFunction) r else some (.ok (), r)

def returnStatement (fuel : Nat) : Reads Stmt := do
  let keyword ← next
  noteReturn keyword
  let value ← optional fuel (.symbol .semicolon)
  let _ ← expect .semicolonAfterReturnValue
  return .return_ keyword value

def initializer (fuel : Nat) : Reads (Option Expr) := do
  if ← eat (.symbol .equal) then
    let e ← expression fuel
    return some e
  else return none

def variableDeclaration (fuel : Nat) : Reads Stmt := do
  let name ← expect .variableName
  let value ← initializer fuel
  let _ ← expect .semicolonAfterDeclaration
  return .declare name value

def parameterList : Nat → List Token → Reads (List Token)
  | 0, _ => fun _ => none
  | fuel + 1, params => do
    noteCount .tooManyParameters params.length
    let param ← expect .parameterName
    if ← eat (.symbol .comma) then parameterList fuel (params ++ [param])
    else return params ++ [param]

def parameters (fuel : Nat) : Reads (List Token) := do
  if ← check (.symbol .rightParen) then return [] else parameterList fuel []

def forInitializer (fuel : Nat) : Reads (Option Stmt) := do
  if ← eat (.symbol .semicolon) then return none
  else if ← eat (.keyword .var) then
    let s ← variableDeclaration fuel
    return some s
  else
    let s ← expressionStatement fuel
    return some s

def forClauses (fuel : Nat) : Reads Parse.ForClauses := do
  let _ ← expect .parenAfterFor
  let first ← forInitializer fuel
  let condition ← optional fuel (.symbol .semicolon)
  let _ ← expect .semicolonAfterLoopCondition
  let increment ← optional fuel (.symbol .rightParen)
  let _ ← expect .parenAfterForClauses
  return ⟨first, condition, increment⟩

/-- Drops tokens up to a boundary; `previous` is the last one dropped. -/
def skip : Nat → Token → Reads Unit
  | 0, _ => fun _ => none
  | fuel + 1, previous => do
    let t ← peek
    if t.kind = .eof then return
    else if previous.kind = .symbol .semicolon ∨ t.kind.startsStatement then return
    else
      let dropped ← next
      skip fuel dropped

def synchronize (fuel : Nat) : Reads Unit := do
  let dropped ← next
  skip fuel dropped

mutual

def declaration : Nat → Reads (Option Stmt)
  | 0 => fun _ => none
  | fuel + 1 => do
    match ← outcome (attempt fuel) with
    | .ok s => return some s
    | .error _ =>
      synchronize fuel
      return none

def attempt : Nat → Reads Stmt
  | 0 => fun _ => none
  | fuel + 1 => do
    if ← eat (.keyword .fun_) then functionDeclaration fuel
    else if ← eat (.keyword .var) then variableDeclaration fuel
    else statement fuel

def statement : Nat → Reads Stmt
  | 0 => fun _ => none
  | fuel + 1 => do
    if ← eat (.keyword .for_) then forStatement fuel
    else if ← eat (.keyword .if_) then ifStatement fuel
    else if ← eat (.keyword .print) then printStatement fuel
    else if ← check (.keyword .return_) then returnStatement fuel
    else if ← eat (.keyword .while_) then whileStatement fuel
    else if ← eat (.symbol .leftBrace) then
      let body ← block fuel []
      return .block body
    else expressionStatement fuel

def forStatement : Nat → Reads Stmt
  | 0 => fun _ => none
  | fuel + 1 => do
    let clauses ← forClauses fuel
    let body ← statement fuel
    return clauses.loop body

def ifStatement : Nat → Reads Stmt
  | 0 => fun _ => none
  | fuel + 1 => do
    let _ ← expect .parenAfterIf
    let condition ← expression fuel
    let _ ← expect .parenAfterIfCondition
    let thenBranch ← statement fuel
    if ← eat (.keyword .else_) then
      let elseBranch ← statement fuel
      return .ifElse condition thenBranch elseBranch
    else return .ifThen condition thenBranch

def whileStatement : Nat → Reads Stmt
  | 0 => fun _ => none
  | fuel + 1 => do
    let _ ← expect .parenAfterWhile
    let condition ← expression fuel
    let _ ← expect .parenAfterCondition
    let body ← statement fuel
    return .loop condition body

def functionDeclaration : Nat → Reads Stmt
  | 0 => fun _ => none
  | fuel + 1 => do
    let name ← expect .functionName
    let _ ← expect .parenAfterFunctionName
    let params ← parameters fuel
    let _ ← expect .parenAfterParameters
    let _ ← expect .braceBeforeBody
    let body ← inBody (block fuel [])
    return .function name params body

def block : Nat → List Stmt → Reads (List Stmt)
  | 0, _ => fun _ => none
  | fuel + 1, body => do
    let t ← peek
    if t.kind = .symbol .rightBrace ∨ t.kind = .eof then
      let _ ← expect .braceAfterBlock
      return body
    else
      let value ← declaration fuel
      block fuel (body ++ value.toList)

end

def program : Nat → List Stmt → Reads (List Stmt)
  | 0, _ => fun _ => none
  | fuel + 1, stmts => do
    if ← check .eof then return stmts
    else
      let value ← declaration fuel
      program fuel (stmts ++ value.toList)

end Reader

end Lox

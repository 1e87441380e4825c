import Lox.Machine

/- Evaluation of expressions and execution of statements. Programs need not end, so every step down
   uses up fuel; running out of it is told apart from a fault of the program. -/
namespace Lox

def unaryValue (op : Token) (v : Value) : Eval Value :=
  match op.kind with
  | .symbol .minus =>
    match v with
    | .number x => pure (.number (-x))
    | _ => Machine.raise op .operandNotNumber
  | .symbol .bang => pure (.bool !v.isTruthy)
  | _ => throw (.stuck (.unaryOperator op))

def arithmetic? : Symbol → Option (Float → Float → Value)
  | .minus => some fun a b => .number (a - b)
  | .star => some fun a b => .number (a * b)
  | .slash => some fun a b => .number (a / b)
  | .greater => some fun a b => .bool (a > b)
  | .greaterEqual => some fun a b => .bool (a ≥ b)
  | .less => some fun a b => .bool (a < b)
  | .lessEqual => some fun a b => .bool (a ≤ b)
  | _ => none

def binaryValue (op : Token) (left right : Value) : Eval Value :=
  match op.kind with
  | .symbol .equalEqual => pure (.bool (left == right))
  | .symbol .bangEqual => pure (.bool (left != right))
  | .symbol .plus =>
    match left, right with
    | .number a, .number b => pure (.number (a + b))
    | .string a, .string b => pure (.string (a ++ b))
    | _, _ => Machine.raise op .operandsNotAddable
  | .symbol s =>
    match arithmetic? s with
    | some f =>
      match left, right with
      | .number a, .number b => pure (f a b)
      | _, _ => Machine.raise op .operandsNotNumbers
    | none => throw (.stuck (.binaryOperator op))
  | _ => throw (.stuck (.binaryOperator op))

def decides (op : Token) (left : Value) : Bool :=
  if op.kind = .keyword .or then left.isTruthy else !left.isTruthy

/-- The frame of a call: the parameters in order, a later one of the same name winning. -/
def Closure.callFrame (f : Closure) (args : List Value) : Frame where
  bindings := (f.params.zip args).foldl (fun bs (p, v) => bindName p.lexeme v bs) []
  enclosing := some f.frame

def checkCount (paren : Token) (expected given : Nat) : Eval Unit :=
  if given = expected then pure () else Machine.raise paren (.argumentCount expected given)

def Completion.value : Completion → Value
  | .normal => .nil
  | .returned v => v

mutual

def evaluate (natives : List Native) : Nat → Expr → Eval Value
  | 0, _ => throw .outOfFuel
  | _ + 1, .literal l => pure (.ofLiteral l)
  | fuel + 1, .grouping e => evaluate natives fuel e
  | fuel + 1, .unary op e => do
    let v ← evaluate natives fuel e
    unaryValue op v
  | fuel + 1, .binary a op b => do
    let left ← evaluate natives fuel a
    let right ← evaluate natives fuel b
    binaryValue op left right
  | fuel + 1, .logical a op b => do
    let left ← evaluate natives fuel a
    if decides op left then pure left else evaluate natives fuel b
  | _ + 1, .reference name => Machine.lookup name
  | fuel + 1, .assign name e => do
    let v ← evaluate natives fuel e
    Machine.assign name v
  | fuel + 1, .call f paren args => do
    let callee ← evaluate natives fuel f
    let values ← evaluateAll natives fuel args
    call natives fuel paren callee values

def evaluateAll (natives : List Native) : Nat → List Expr → Eval (List Value)
  | 0, _ => throw .outOfFuel
  | _ + 1, [] => pure []
  | fuel + 1, e :: es => do
    let v ← evaluate natives fuel e
    let vs ← evaluateAll natives fuel es
    pure (v :: vs)

def call (natives : List Native) : Nat → Token → Value → List Value → Eval Value
  | 0, _, _, _ => throw .outOfFuel
  | _ + 1, paren, .native ref, args => do
    checkCount paren ref.arity args.length
    Machine.callNative natives ref args
  | fuel + 1, paren, .function f, args => do
    checkCount paren f.params.length args.length
    let completion ← Machine.inFrame (f.callFrame args) (executeAll natives fuel f.body)
    pure completion.value
  | _ + 1, paren, _, _ => Machine.raise paren .notCallable

def execute (natives : List Native) : Nat → Stmt → Eval Completion
  | 0, _ => throw .outOfFuel
  | fuel + 1, .expression e => do
    let _ ← evaluate natives fuel e
    pure .normal
  | fuel + 1, .print e => do
    let v ← evaluate natives fuel e
    Machine.print v
    pure .normal
  | _ + 1, .declare name none => do
    Machine.define name.lexeme .nil
    pure .normal
  | fuel + 1, .declare name (some e) => do
    let v ← evaluate natives fuel e
    Machine.define name.lexeme v
    pure .normal
  | fuel + 1, .block body => do
    let m ← get
    Machine.inFrame ⟨[], some m.current⟩ (executeAll natives fuel body)
  | fuel + 1, .ifThen c s => do
    let v ← evaluate natives fuel c
    if v.isTruthy then execute natives fuel s else pure .normal
  | fuel + 1, .ifElse c s t => do
    let v ← evaluate natives fuel c
    if v.isTruthy then execute natives fuel s else execute natives fuel t
  | fuel + 1, .loop c s => do
    let v ← evaluate natives fuel c
    if v.isTruthy then
      match ← execute natives fuel s with
      | .normal => execute natives fuel (.loop c s)
      | .returned v => pure (.returned v)
    else pure .normal
  | _ + 1, .function name params body => do
    Machine.declare name params body
    pure .normal
  | _ + 1, .return_ _ none => pure (.returned .nil)
  | fuel + 1, .return_ _ (some e) => do
    let v ← evaluate natives fuel e
    pure (.returned v)

def executeAll (natives : List Native) : Nat → List Stmt → Eval Completion
  | 0, _ => throw .outOfFuel
  | _ + 1, [] => pure .normal
  | fuel + 1, s :: ss => do
    match ← execute natives fuel s with
    | .normal => executeAll natives fuel ss
    | .returned v => pure (.returned v)

end

/-- Executes a program to its end or its first fault. A return here returns from nothing. -/
def interpret (natives : List Native) (fuel : Nat) : List Stmt → Eval Unit
  | [] => pure ()
  | s :: ss => do
    let _ ← execute natives fuel s
    interpret natives fuel ss

end Lox

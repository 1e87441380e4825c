import Lox.Parse.Reply
import Lox.Tree

/- Expressions. Binary operators are grouped by their binding powers in one loop; assignment stands
   below all of them and groups to the right. Each measure is the number of tokens, scaled to leave
   room for the descent from one form of expression to the next at the same place. -/
namespace Lox.Parse

def constant? : Kind → Option Literal
  | .keyword .false_ => some (.bool false)
  | .keyword .true_ => some (.bool true)
  | .keyword .nil => some .nil
  | .number x => some (.number x)
  | .string s => some (.string s)
  | _ => none

def combine (left : Expr) (op : Token) (right : Expr) : Expr :=
  match op.kind with
  | .keyword .and | .keyword .or => .logical left op right
  | _ => .binary left op right

/-- Only a name can be assigned to; any other target is reported and stands alone. -/
def assignTo (target : Expr) (equals : Token) (value : Expr) : Expr × List Report :=
  match target with
  | .reference name => (.assign name value, [])
  | other => (other, [⟨some equals, .violated .assignmentTarget⟩])

def countReports (rule : Violation) (count : Nat) (ts : List Token) : List Report :=
  if maxArguments ≤ count then [⟨ts.head?, .violated rule⟩] else []

mutual

def expression (ts : List Token) : Reply true Expr ts :=
  (operation 0 ts).bind fun target left leaves =>
    match left, leaves with
    | [], _ => .done target []
    | t :: rest, _ =>
      if t.kind = .symbol .equal then
        ((expression rest).bind fun value rest' _ =>
          let (expr, reports) := assignTo target t value
          (Reply.done expr rest').after reports).past
      else .done target (t :: rest)
termination_by ts.length * 8 + 4
decreasing_by all_goals grind [Leaves]

/-- An expression of operators that bind at least as tightly as `power`. -/
def operation (power : Nat) (ts : List Token) : Reply true Expr ts :=
  (unary ts).bind fun left rest _ => operators power left rest
termination_by ts.length * 8 + 3
decreasing_by all_goals grind [Leaves]

def operators (power : Nat) (left : Expr) (ts : List Token) : Reply false Expr ts :=
  match ts with
  | [] => .done left []
  | op :: rest =>
    match op.kind.bindingPower? with
    | none => .done left (op :: rest)
    | some (leftPower, rightPower) =>
      if leftPower < power then .done left (op :: rest)
      else
        ((operation rightPower rest).bind fun right rest' _ =>
          operators power (combine left op right) rest').past
termination_by ts.length * 8
decreasing_by all_goals grind [Leaves]

def unary (ts : List Token) : Reply true Expr ts :=
  match ts with
  | [] => call []
  | op :: rest =>
    if op.kind = .symbol .bang ∨ op.kind = .symbol .minus then
      ((unary rest).map (.unary op)).past
    else call (op :: rest)
termination_by ts.length * 8 + 2
decreasing_by all_goals grind [Leaves]

def call (ts : List Token) : Reply true Expr ts :=
  (primary ts).bind fun callee rest _ => calls callee rest
termination_by ts.length * 8 + 1
decreasing_by all_goals grind [Leaves]

def calls (callee : Expr) (ts : List Token) : Reply false Expr ts :=
  match ts with
  | [] => .done callee []
  | t :: rest =>
    if t.kind = .symbol .leftParen then
      ((arguments rest).bind fun args rest₁ _ =>
        (expect .parenAfterArguments rest₁).bind fun paren rest₂ _ =>
          calls (.call callee paren args) rest₂).past
    else .done callee (t :: rest)
termination_by ts.length * 8
decreasing_by all_goals grind [Leaves]

def arguments (ts : List Token) : Reply false (List Expr) ts :=
  if ts.head?.any (·.kind = .symbol .rightParen) then .done [] ts
  else (argumentList 0 ts).loosen
termination_by ts.length * 8 + 6
decreasing_by all_goals grind [Leaves]

def argumentList (count : Nat) (ts : List Token) : Reply true (List Expr) ts :=
  ((expression ts).bind fun first left leaves =>
    match left, leaves with
    | [], _ => .done [first] []
    | t :: rest, _ =>
      if t.kind = .symbol .comma then ((argumentList (count + 1) rest).map (first :: ·)).past
      else .done [first] (t :: rest)).after (countReports .tooManyArguments count ts)
termination_by ts.length * 8 + 5
decreasing_by all_goals grind [Leaves]

def primary (ts : List Token) : Reply true Expr ts :=
  match ts with
  | [] => .fail .expression []
  | t :: rest =>
    match constant? t.kind with
    | some l => (Reply.done (.literal l) rest).past
    | none =>
      if t.kind = .identifier then (Reply.done (.reference t) rest).past
      else if t.kind = .symbol .leftParen then
        ((expression rest).bind fun inner rest₁ _ =>
          (expect .parenAfterExpression rest₁).map fun _ => .grouping inner).past
      else .fail .expression (t :: rest)
termination_by ts.length * 8
decreasing_by all_goals grind [Leaves]

end

end Lox.Parse

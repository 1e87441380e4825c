import Lox.Tree

/- Values of running programs. A function value names the frame it captured and carries a serial
   number: functions are equal when they are the same function, not when they look alike. -/
namespace Lox

structure Closure where
  serial : Nat
  name : Token
  params : List Token
  body : List Stmt
  frame : Nat

structure NativeRef where
  slot : Nat
  name : String
  arity : Nat
  deriving DecidableEq

inductive Value where
  | nil
  | bool (value : Bool)
  | number (value : Float)
  | string (text : String)
  | native (ref : NativeRef)
  | function (closure : Closure)

namespace Value

def ofLiteral : Literal → Value
  | .nil => .nil
  | .bool b => .bool b
  | .number x => .number x
  | .string s => .string s

def isTruthy : Value → Bool
  | .nil | .bool false => false
  | _ => true

def beq : Value → Value → Bool
  | .nil, .nil => true
  | .bool a, .bool b => a == b
  | .number a, .number b => a == b
  | .string a, .string b => a == b
  | .native a, .native b => a.slot == b.slot
  | .function a, .function b => a.serial == b.serial
  | _, _ => false

instance : BEq Value := ⟨beq⟩

def number? : Value → Option Float
  | .number x => some x
  | _ => none

def string? : Value → Option String
  | .string s => some s
  | _ => none

def render : Value → String
  | .nil => "nil"
  | .bool b => if b then "true" else "false"
  | .number x => Number.render x
  | .string s => s
  | .native f => "<native fn " ++ f.name ++ ">"
  | .function f => "<fn " ++ f.name.lexeme ++ ">"

end Value
end Lox

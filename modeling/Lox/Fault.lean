/- Faults of running programs, each on the line of the token that caused it. -/
namespace Lox

inductive Cause where
  | undefinedVariable (name : String)
  | operandNotNumber
  | operandsNotNumbers
  | operandsNotAddable
  | notCallable
  | argumentCount (expected given : Nat)
  deriving DecidableEq

structure Fault where
  cause : Cause
  line : Nat
  deriving DecidableEq

def Cause.message : Cause → String
  | .undefinedVariable name => "Undefined variable '" ++ name ++ "'."
  | .operandNotNumber => "Operand must be a number."
  | .operandsNotNumbers => "Operands must be numbers."
  | .operandsNotAddable => "Operands must be two numbers or two strings."
  | .notCallable => "Can only call functions and classes."
  | .argumentCount expected given =>
    "Expected " ++ toString expected ++ " arguments but got " ++ toString given ++ "."

def Fault.render (f : Fault) : String :=
  f.cause.message ++ "\n[line " ++ toString f.line ++ "]"

end Lox

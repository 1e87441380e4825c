import Lox.Number

/- Values that can be written in a program. Boolean equality compares numbers as numbers, so that
   zero equals minus zero and NaN equals nothing; propositional equality is identity. -/
namespace Lox

inductive Literal where
  | nil
  | bool (value : Bool)
  | number (value : Float)
  | string (text : String)
  deriving BEq, DecidableEq

def Literal.render : Literal → String
  | .nil => "nil"
  | .bool b => if b then "true" else "false"
  | .number x => Number.render x
  | .string s => s

end Lox

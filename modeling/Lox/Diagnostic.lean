/- Messages about source text. The place is empty for text that is no token. -/
namespace Lox

structure Diagnostic where
  line : Nat
  place : String
  message : String
  deriving DecidableEq

def Diagnostic.render (d : Diagnostic) : String :=
  "[line " ++ toString d.line ++ "] Error" ++ d.place ++ ": " ++ d.message

def Diagnostic.listing (ds : List Diagnostic) : String :=
  String.join (ds.map (·.render ++ "\n"))

def Diagnostic.summary (ds : List Diagnostic) : String :=
  "\n".intercalate (ds.map (·.render))

end Lox

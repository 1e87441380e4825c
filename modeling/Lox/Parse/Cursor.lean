import Lox.Parse.Statement
import Lox.Scan

/- A place in a token list, from which expressions, statements and declarations are read one after
   another. The list ends at its first end-of-file token; one is supplied if there is none. Nothing
   but the tokens left carries over from one reading to the next. -/
namespace Lox

structure Cursor where
  rest : List Token
  endToken : Token
  deriving DecidableEq

structure Reading (α : Type) where
  result : α
  diagnostics : List Diagnostic
  cursor : Cursor

structure Refusal where
  token : Token
  what : Expectation
  deriving DecidableEq

namespace Cursor

def ofTokens (ts : List Token) : Cursor :=
  match ts.dropWhile (·.kind ≠ .eof) with
  | endToken :: _ => ⟨ts.takeWhile (·.kind ≠ .eof), endToken⟩
  | [] => ⟨ts, ⟨.eof, "", (ts.getLast?.map (·.line)).getD 1⟩⟩

def current (c : Cursor) : Token := c.rest.headD c.endToken

def reading {α : Type} (c : Cursor) (result : α) (reports : List Report) (rest : List Token) :
    Reading α :=
  ⟨result, reports.map (·.diagnostic c.endToken), { c with rest }⟩

/-- A refusal is reported last, at the token where the cursor then stands. -/
def ofReply {α : Type} {consumes : Bool} {ts : List Token} (c : Cursor) (r : Reply consumes α ts) :
    Reading (Except Refusal α) :=
  match r.outcome with
  | .parsed value rest => c.reading (.ok value) r.reports rest
  | .unmet what rest =>
    c.reading (.error ⟨rest.headD c.endToken, what⟩)
      (r.reports ++ [⟨rest.head?, .expected what⟩]) rest

def expression (c : Cursor) : Reading (Except Refusal Expr) := c.ofReply (Parse.expression c.rest)

def statement (c : Cursor) : Reading (Except Refusal Stmt) :=
  c.ofReply (Parse.statement false c.rest)

def declaration (c : Cursor) : Reading (Option Stmt) :=
  let d := Parse.declaration false c.rest
  c.reading d.value d.reports d.rest

def program (c : Cursor) : Reading (List Stmt) :=
  let (stmts, reports) := Parse.program c.rest
  c.reading stmts reports []

end Cursor

structure Program where
  statements : List Stmt
  diagnostics : List Diagnostic

def Program.ofText (source : String) : Program :=
  let scan := Scan.ofText source
  let reading := (Cursor.ofTokens scan.tokens).program
  ⟨reading.result, scan.diagnostics ++ reading.diagnostics⟩

end Lox

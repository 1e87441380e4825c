import Lox.Eval
import Lox.Parse.Cursor

/- A session: one machine that runs one source text after another. Whatever a text did before it
   failed is kept; a text with diagnostics does nothing at all. -/
namespace Lox

structure Session where
  natives : List Native
  machine : Machine

inductive Failure where
  | rejected (diagnostics : List Diagnostic)
  | stopped (why : Stop)

def Stop.render : Stop → String
  | .fault f => f.render
  | .stuck _ => "Invalid program."
  | .outOfFuel => "Out of fuel."

def Failure.render : Failure → String
  | .rejected ds => Diagnostic.summary ds
  | .stopped why => why.render

def Failure.exitCode : Failure → Nat
  | .rejected _ => 64
  | .stopped _ => 70

namespace Session

def start (natives : List Native) : Session := ⟨natives, Machine.start natives⟩

def ample : Nat := Nat.pow 2 62

def perform {α : Type} (action : Eval α) (s : Session) : Except Stop α × Session :=
  match action s.machine with
  | .ok a m => (.ok a, { s with machine := m })
  | .error e m => (.error e, { s with machine := m })

def evaluate (fuel : Nat) (e : Expr) (s : Session) : Except Stop Value × Session :=
  s.perform (Lox.evaluate s.natives fuel e)

def execute (fuel : Nat) (stmt : Stmt) (s : Session) : Except Stop Completion × Session :=
  s.perform (Lox.execute s.natives fuel stmt)

def interpret (fuel : Nat) (stmts : List Stmt) (s : Session) : Except Stop Unit × Session :=
  s.perform (Lox.interpret s.natives fuel stmts)

def run (fuel : Nat) (source : String) (s : Session) : Except Failure Unit × Session :=
  let program := Program.ofText source
  if program.diagnostics.isEmpty then
    let (result, s) := s.interpret fuel program.statements
    (result.mapError .stopped, s)
  else (.error (.rejected program.diagnostics), s)

def global? (name : String) (s : Session) : Option Value :=
  s.machine.store.lookup? name Machine.globals

def defineGlobal (name : String) (value : Value) (s : Session) : Session :=
  { s with machine :=
    { s.machine with store := s.machine.store.define Machine.globals name value } }

def printedSince (count : Nat) (s : Session) : List String :=
  (s.machine.output.toList).drop count

end Session
end Lox

import Lox.Native
import Lox.Store

/- The state of a running program and the actions on it that run no code of the program. -/
namespace Lox

structure Machine where
  store : Store
  current : Nat
  functionCount : Nat
  hostCalls : Nat
  output : Array String

/-- Trees that no parser builds: an operator node with some other token, or a host function that the
host does not have. -/
inductive Stuck where
  | unaryOperator (op : Token)
  | binaryOperator (op : Token)
  | hostFunction (ref : NativeRef)

inductive Stop where
  | fault (fault : Fault)
  | stuck (why : Stuck)
  | outOfFuel

inductive Completion where
  | normal
  | returned (value : Value)

abbrev Eval := EStateM Stop Machine

namespace Machine

def globals : Nat := 0

def start (natives : List Native) : Machine where
  store := natives.zipIdx.foldl
    (fun s (f, slot) => s.define globals f.name (.native (f.ref slot)))
    (Store.empty.push ⟨[], none⟩)
  current := globals
  functionCount := 0
  hostCalls := 0
  output := #[]

variable {α : Type}

def raise (t : Token) (cause : Cause) : Eval α := throw (.fault ⟨cause, t.line⟩)

def onStore (action : Nat → Store → Except Fault α × Store) : Eval α := fun m =>
  match action m.current m.store with
  | (.ok a, store) => .ok a { m with store }
  | (.error f, store) => .error (.fault f) { m with store }

def lookup (name : Token) : Eval Value := onStore fun i s => (s.get name i, s)

def assign (name : Token) (value : Value) : Eval Value := onStore fun i s => s.assign name value i

def define (name : String) (value : Value) : Eval Unit :=
  modify fun m => { m with store := m.store.define m.current name value }

def print (value : Value) : Eval Unit :=
  modify fun m => { m with output := m.output.push value.render }

/-- A function is a new one each time its declaration is executed. -/
def declare (name : Token) (params : List Token) (body : List Stmt) : Eval Unit :=
  modify fun m =>
    let closure := ⟨m.functionCount, name, params, body, m.current⟩
    { m with
      store := m.store.define m.current name.lexeme (.function closure)
      functionCount := m.functionCount + 1 }

def callNative (natives : List Native) (ref : NativeRef) (args : List Value) : Eval Value := do
  let m ← get
  match natives[ref.slot]? with
  | some f =>
    set { m with hostCalls := m.hostCalls + 1 }
    pure (f.apply m.hostCalls args)
  | none => throw (.stuck (.hostFunction ref))

/-- Runs `body` in a new frame and then goes back to the frame before, however `body` ends. -/
def inFrame (frame : Frame) (body : Eval α) : Eval α := fun m =>
  let before := m.current
  let inner := m.store.size
  match body { m with store := m.store.push frame, current := inner } with
  | .ok a m => .ok a { m with current := before }
  | .error e m => .error e { m with current := before }

end Machine
end Lox

import Lox.Fault
import Lox.Value

/- Frames of variables, numbered in the order of their creation. A frame may enclose later ones; a
   name means the innermost frame on the way outwards that binds it. Links that do not lead to an
   earlier frame are not followed, so every walk outwards ends. -/
namespace Lox

structure Frame where
  bindings : List (String × Value)
  enclosing : Option Nat

structure Store where
  frames : Array Frame

def bindName (name : String) (value : Value) : List (String × Value) → List (String × Value)
  | [] => [(name, value)]
  | (other, old) :: rest =>
    if other = name then (name, value) :: rest else (other, old) :: bindName name value rest

def Frame.get? (f : Frame) (name : String) : Option Value := f.bindings.lookup name

def Frame.define (f : Frame) (name : String) (value : Value) : Frame :=
  { f with bindings := bindName name value f.bindings }

namespace Store

def empty : Store := ⟨#[]⟩
def size (s : Store) : Nat := s.frames.size
def frame? (s : Store) (i : Nat) : Option Frame := s.frames[i]?
def push (s : Store) (f : Frame) : Store := ⟨s.frames.push f⟩

def define (s : Store) (i : Nat) (name : String) (value : Value) : Store :=
  ⟨s.frames.modify i (·.define name value)⟩

/-- The frame that `name` means in frame `i`. -/
def resolve? (s : Store) (name : String) (i : Nat) : Option Nat :=
  match s.frame? i with
  | none => none
  | some f =>
    if (f.get? name).isSome then some i
    else
      match f.enclosing with
      | none => none
      | some outer => if outer < i then s.resolve? name outer else none
termination_by i

def lookup? (s : Store) (name : String) (i : Nat) : Option Value :=
  (s.resolve? name i).bind fun k => (s.frame? k).bind (·.get? name)

def undefined (name : Token) : Fault := ⟨.undefinedVariable name.lexeme, name.line⟩

def get (s : Store) (name : Token) (i : Nat) : Except Fault Value :=
  match s.lookup? name.lexeme i with
  | some value => .ok value
  | none => .error (undefined name)

/-- Changes the binding that `name` means in frame `i`; never adds one. -/
def assign (s : Store) (name : Token) (value : Value) (i : Nat) : Except Fault Value × Store :=
  match s.resolve? name.lexeme i with
  | some k => (.ok value, s.define k name.lexeme value)
  | none => (.error (undefined name), s)

end Store
end Lox

import Lox.Value

/- Functions of the host. Beside its arguments a host function is told how many host calls came
   before, so a clock is what it reads at each of them. -/
namespace Lox

structure Native where
  name : String
  arity : Nat
  apply : (earlierCalls : Nat) → List Value → Value

namespace Native

def clock (seconds : Nat → Float) : Native where
  name := "clock"
  arity := 0
  apply earlierCalls _ := .number (seconds earlierCalls)

def builtins (seconds : Nat → Float) : List Native := [clock seconds]

/-- The host functions with a clock that moves one microsecond with every host call. -/
def standard : List Native := builtins fun calls => calls.toFloat / 1000000

def ref (slot : Nat) (f : Native) : NativeRef := ⟨slot, f.name, f.arity⟩

end Native
end Lox

/- Division of naturals rounded to the nearest quotient. A half goes to the even neighbour.
   A zero divisor gives zero, as for the plain quotient. -/
namespace Lox

def divNearest (n d : Nat) : Nat :=
  if 2 * (n % d) < d ∨ (2 * (n % d) = d ∧ n / d % 2 = 0) then n / d else n / d + 1

end Lox

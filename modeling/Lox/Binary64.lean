import Lox.Rounding

/- Binary64 words as exact numbers. Every finite magnitude is a whole number of units of 2^-1074,
   so all arithmetic is unbounded Nat. Infinities and NaNs have no magnitude of their own here;
   callers set them aside first. -/
namespace Lox.Binary64

def unitsPerOne : Nat := Nat.pow 2 1074
def fractionCount : Nat := Nat.pow 2 52
def infinityWord : Nat := 2047 * fractionCount

def isNegative (word : UInt64) : Bool := word.toNat / Nat.pow 2 63 == 1
def exponentField (word : UInt64) : Nat := word.toNat / fractionCount % 2048
def fractionField (word : UInt64) : Nat := word.toNat % fractionCount

/-- The magnitude of a finite word, in units of 2^-1074. -/
def magnitude (word : UInt64) : Nat :=
  match exponentField word with
  | 0 => fractionField word
  | e + 1 => (fractionField word + fractionCount) * Nat.pow 2 e

/-- The word nearest to `n / d`, a half going to the even significand. The binade is chosen so that
the significand has at most 53 bits; one that rounds up to 2^53 carries into the exponent field,
and what passes the largest finite word is infinity. -/
def nearest (n d : Nat) : UInt64 :=
  let units := n * unitsPerOne
  let binade := Nat.log2 (units / d) - 52
  UInt64.ofNat (min (binade * fractionCount + divNearest units (d * Nat.pow 2 binade)) infinityWord)

end Lox.Binary64

import Lox.Binary64

/- Decimal text of numbers. Written numbers have at most five places; a literal is digits, or digits
   with a point between them, and denotes the nearest double. -/
namespace Lox.Number

def places : Nat := 5
def scale : Nat := Nat.pow 10 places

def fractionDigits (n : Nat) : List Char :=
  let digits := Nat.toDigits 10 (n % scale)
  let padded := List.replicate (places - digits.length) '0' ++ digits
  (padded.reverse.dropWhile (· == '0')).reverse

def decimalDigits (n : Nat) : List Char :=
  let whole := Nat.toDigits 10 (n / scale)
  match fractionDigits n with
  | [] => whole
  | fraction => whole ++ '.' :: fraction

/-- The exact value rounded to hundred-thousandths, a half going to the even neighbour. -/
def hundredThousandths (word : UInt64) : Nat :=
  divNearest (Binary64.magnitude word * scale) Binary64.unitsPerOne

def render (x : Float) : String :=
  let word := x.toBits
  let sign := if Binary64.isNegative word then ['-'] else []
  if x.isNaN then "NaN"
  else if x.isInf then String.ofList (sign ++ "Infinity".toList)
  else String.ofList (sign ++ decimalDigits (hundredThousandths word))

def ofText (text : List Char) : Float :=
  let whole := text.takeWhile Char.isDigit
  let fraction := (text.dropWhile Char.isDigit).drop 1
  Float.ofBits
    (Binary64.nearest (Nat.ofDigitChars 10 (whole ++ fraction) 0) (Nat.pow 10 fraction.length))

end Lox.Number

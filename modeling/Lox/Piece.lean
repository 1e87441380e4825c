import Lox.Token

/- Source text cut into pieces. Each piece is the longest text from its place on that is a blank
   run, a comment, a token or an open string; a character that begins none of these is a piece of
   its own. Pieces keep all their characters, so together they give the source back. -/
namespace Lox

inductive Piece where
  | blank (text : List Char)
  | comment (text : List Char)
  | token (kind : Kind) (text : List Char)
  | unterminated (text : List Char)
  | unexpected (char : Char)

def Piece.text : Piece → List Char
  | .blank text | .comment text | .token _ text | .unterminated text => text
  | .unexpected c => [c]

def isBlank (c : Char) : Bool :=
  c == ' ' || c == '\t' || c == '\r' || c == '\n' || c == '\x0c'

def isWordStart (c : Char) : Bool := c.isAlpha || c == '_'
def isWordPart (c : Char) : Bool := c.isAlphanum || c == '_'

def Symbol.single? : Char → Option Symbol
  | '(' => some .leftParen
  | ')' => some .rightParen
  | '{' => some .leftBrace
  | '}' => some .rightBrace
  | ',' => some .comma
  | '.' => some .dot
  | ';' => some .semicolon
  | '+' => some .plus
  | '-' => some .minus
  | '*' => some .star
  | '/' => some .slash
  | '=' => some .equal
  | '>' => some .greater
  | '<' => some .less
  | '!' => some .bang
  | _ => none

def Symbol.withEqual? : Char → Option Symbol
  | '=' => some .equalEqual
  | '!' => some .bangEqual
  | '>' => some .greaterEqual
  | '<' => some .lessEqual
  | _ => none

namespace Piece

def word (text : List Char) : Piece :=
  match Keyword.ofText? (String.ofList text) with
  | some w => .token (.keyword w) text
  | none => .token .identifier text

def number (text : List Char) : Piece := .token (.number (Number.ofText text)) text

/-- The text of a number that starts with digits, and what follows. A point belongs to it only
before another digit. -/
def splitNumber (cs : List Char) : List Char × List Char :=
  let whole := cs.takeWhile Char.isDigit
  match cs.dropWhile Char.isDigit with
  | '.' :: d :: rest =>
    if d.isDigit then
      (whole ++ '.' :: d :: rest.takeWhile Char.isDigit, rest.dropWhile Char.isDigit)
    else (whole, '.' :: d :: rest)
  | rest => (whole, rest)

def splitString (cs : List Char) : Piece × List Char :=
  let body := cs.takeWhile (· != '"')
  match cs.dropWhile (· != '"') with
  | quote :: rest => (.token (.string (String.ofList body)) ('"' :: body ++ [quote]), rest)
  | [] => (.unterminated ('"' :: body), [])

def splitSymbol (c : Char) (cs : List Char) : Piece × List Char :=
  match c, cs with
  | '/', '/' :: rest =>
    (.comment ('/' :: '/' :: rest.takeWhile (· != '\n')), rest.dropWhile (· != '\n'))
  | c, cs =>
    match Symbol.withEqual? c, cs with
    | some s, '=' :: rest => (.token (.symbol s) [c, '='], rest)
    | _, cs =>
      match Symbol.single? c with
      | some s => (.token (.symbol s) [c], cs)
      | none => (.unexpected c, cs)

def first (c : Char) (cs : List Char) : Piece × List Char :=
  if isBlank c then (.blank (c :: cs.takeWhile isBlank), cs.dropWhile isBlank)
  else if isWordStart c then (word (c :: cs.takeWhile isWordPart), cs.dropWhile isWordPart)
  else if c.isDigit then ((splitNumber (c :: cs)).map number id)
  else if c == '"' then splitString cs
  else splitSymbol c cs

theorem text_word (text : List Char) : (word text).text = text := by
  unfold word
  split <;> rfl

theorem splitNumber_append (cs : List Char) : (splitNumber cs).1 ++ (splitNumber cs).2 = cs := by
  have whole := List.takeWhile_append_dropWhile (p := Char.isDigit) (l := cs)
  unfold splitNumber
  split
  · rename_i d rest eq
    split
    · simpa [eq] using whole
    · simpa [eq] using whole
  · exact whole

theorem splitString_append (cs : List Char) :
    (splitString cs).1.text ++ (splitString cs).2 = '"' :: cs := by
  have body := List.takeWhile_append_dropWhile (p := (· != '"')) (l := cs)
  unfold splitString
  split
  · rename_i quote rest eq
    simpa [Piece.text, eq] using body
  · rename_i eq
    simpa [Piece.text, eq] using body

theorem splitSymbol_append (c : Char) (cs : List Char) :
    (splitSymbol c cs).1.text ++ (splitSymbol c cs).2 = c :: cs := by
  unfold splitSymbol
  split
  · simp [Piece.text, List.takeWhile_append_dropWhile]
  · split
    · rfl
    · split <;> rfl

theorem first_append (c : Char) (cs : List Char) :
    (first c cs).1.text ++ (first c cs).2 = c :: cs := by
  unfold first
  split
  · simp [Piece.text, List.takeWhile_append_dropWhile]
  · split
    · simp [text_word, List.takeWhile_append_dropWhile]
    · split
      · exact splitNumber_append (c :: cs)
      · split
        · rename_i quote
          rw [beq_iff_eq.mp quote]
          exact splitString_append cs
        · exact splitSymbol_append c cs

theorem splitSymbol_text_ne_nil (c : Char) (cs : List Char) : (splitSymbol c cs).1.text ≠ [] := by
  unfold splitSymbol
  split
  · simp [Piece.text]
  · split
    · simp [Piece.text]
    · split <;> simp [Piece.text]

theorem first_text_ne_nil (c : Char) (cs : List Char) : (first c cs).1.text ≠ [] := by
  unfold first
  split
  · simp [Piece.text]
  · split
    · simp [text_word]
    · split
      · rename_i digit
        unfold splitNumber
        split
        · split <;> simp [number, Piece.text, digit]
        · simp [number, Piece.text, digit]
      · split
        · unfold splitString
          split <;> simp [Piece.text]
        · exact splitSymbol_text_ne_nil c cs

theorem first_shorter (c : Char) (cs : List Char) : (first c cs).2.length < (c :: cs).length := by
  have total := congrArg List.length (first_append c cs)
  have some_text := List.length_pos_iff.mpr (first_text_ne_nil c cs)
  rw [List.length_append] at total
  omega

end Piece

def pieces : List Char → List Piece
  | [] => []
  | c :: cs =>
    let step := Piece.first c cs
    step.1 :: pieces step.2
termination_by cs => cs.length
decreasing_by exact Piece.first_shorter c cs

/-- Nothing is lost: the pieces of a text give it back. -/
theorem flatMap_text_pieces (cs : List Char) : (pieces cs).flatMap Piece.text = cs := by
  fun_induction pieces cs with
  | case1 => rfl
  | case2 c cs step ih => simpa [ih] using Piece.first_append c cs

end Lox

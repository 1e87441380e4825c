import Lox.Literal

/- Tokens: what a lexeme is, how it is spelled, and the line it is reported on. A token need not
   come from a scan, so its spelling is free text. -/
namespace Lox

inductive Symbol where
  | leftParen | rightParen | leftBrace | rightBrace | comma | dot | semicolon
  | plus | minus | star | slash
  | equal | equalEqual | bangEqual | greater | greaterEqual | less | lessEqual | bang
  deriving DecidableEq

inductive Keyword where
  | and | class_ | else_ | false_ | for_ | fun_ | if_ | nil | or | print | return_ | super | this
  | true_ | var | while_
  deriving DecidableEq

/-- `unterminatedString` and `unexpected` mark text that is no token; a scan reports such text and
leaves it out. -/
inductive Kind where
  | symbol (symbol : Symbol)
  | keyword (word : Keyword)
  | identifier
  | number (value : Float)
  | string (text : String)
  | unterminatedString
  | unexpected
  | eof
  deriving BEq, DecidableEq

structure Token where
  kind : Kind
  lexeme : String
  line : Nat
  deriving BEq, DecidableEq

def Keyword.all : List Keyword :=
  [.and, .class_, .else_, .false_, .for_, .fun_, .if_, .nil, .or, .print, .return_, .super, .this,
    .true_, .var, .while_]

def Keyword.text : Keyword → String
  | .and => "and"
  | .class_ => "class"
  | .else_ => "else"
  | .false_ => "false"
  | .for_ => "for"
  | .fun_ => "fun"
  | .if_ => "if"
  | .nil => "nil"
  | .or => "or"
  | .print => "print"
  | .return_ => "return"
  | .super => "super"
  | .this => "this"
  | .true_ => "true"
  | .var => "var"
  | .while_ => "while"

def Keyword.ofText? (text : String) : Option Keyword :=
  Keyword.all.find? (·.text == text)

def Symbol.name : Symbol → String
  | .leftParen => "LEFT_PAREN"
  | .rightParen => "RIGHT_PAREN"
  | .leftBrace => "LEFT_BRACE"
  | .rightBrace => "RIGHT_BRACE"
  | .comma => "COMMA"
  | .dot => "DOT"
  | .semicolon => "SEMICOLON"
  | .plus => "PLUS"
  | .minus => "MINUS"
  | .star => "STAR"
  | .slash => "SLASH"
  | .equal => "EQUAL"
  | .equalEqual => "EQUAL_EQUAL"
  | .bangEqual => "BANG_EQUAL"
  | .greater => "GREATER"
  | .greaterEqual => "GREATER_EQUAL"
  | .less => "LESS"
  | .lessEqual => "LESS_EQUAL"
  | .bang => "BANG"

def Symbol.all : List Symbol :=
  [.leftParen, .rightParen, .leftBrace, .rightBrace, .comma, .dot, .semicolon, .plus, .minus, .star,
    .slash, .equal, .equalEqual, .bangEqual, .greater, .greaterEqual, .less, .lessEqual, .bang]

def Kind.name : Kind → String
  | .symbol s => s.name
  | .keyword w => w.text.toUpper
  | .identifier => "IDENTIFIER"
  | .number _ => "NUMBER"
  | .string _ => "STRING"
  | .unterminatedString => "UNTERMINATED_STRING"
  | .unexpected => "ERROR"
  | .eof => "EOF"

/-- How tightly a binary operator holds its left and its right operand. A left operand is held
less tightly than a right one of the same level, so every level groups to the left. -/
def Symbol.bindingPower? : Symbol → Option (Nat × Nat)
  | .equalEqual | .bangEqual => some (6, 7)
  | .greater | .greaterEqual | .less | .lessEqual => some (8, 9)
  | .plus | .minus => some (10, 11)
  | .star | .slash => some (12, 13)
  | _ => none

def Kind.bindingPower? : Kind → Option (Nat × Nat)
  | .keyword .or => some (2, 3)
  | .keyword .and => some (4, 5)
  | .symbol s => s.bindingPower?
  | _ => none

def Keyword.startsStatement : Keyword → Bool
  | .class_ | .fun_ | .var | .for_ | .if_ | .while_ | .print | .return_ => true
  | _ => false

def Kind.startsStatement : Kind → Bool
  | .keyword w => w.startsStatement
  | _ => false

def Kind.literal? : Kind → Option Literal
  | .number x => some (.number x)
  | .string s => some (.string s)
  | _ => none

def Token.render (t : Token) : String :=
  t.kind.name ++ " " ++ t.lexeme ++
    match t.kind.literal? with
    | some l => " " ++ l.render
    | none => ""

end Lox

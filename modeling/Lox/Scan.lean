import Lox.Diagnostic
import Lox.Piece

/- A scan of source text: its tokens, ended by one end-of-file token, and a diagnostic for each
   piece that is no token. Lines count from one. Blanks and comments are skipped, so the line breaks
   in them are counted when the next span is reached. -/
namespace Lox

structure Scan where
  tokens : List Token
  diagnostics : List Diagnostic
  deriving DecidableEq

def newlines (text : List Char) : Nat := text.count '\n'

def Kind.isString : Kind → Bool
  | .string _ | .unterminatedString => true
  | _ => false

/-- Text that is not skipped, and the number of characters before it. -/
structure Span where
  kind : Kind
  text : List Char
  start : Nat

def Span.stop (s : Span) : Nat := s.start + s.text.length

def Piece.kind? : Piece → Option Kind
  | .blank _ | .comment _ => none
  | .token kind _ => some kind
  | .unterminated _ => some .unterminatedString
  | .unexpected _ => some .unexpected

def spans (start : Nat) : List Piece → List Span
  | [] => []
  | piece :: rest =>
    let later := spans (start + piece.text.length) rest
    match piece.kind? with
    | some kind => ⟨kind, piece.text, start⟩ :: later
    | none => later

/-- A line, and the place up to which line breaks are counted in it. -/
structure LineCount where
  line : Nat
  counted : Nat

namespace LineCount

def lineAt (content : Array Char) (c : LineCount) (stop : Nat) : Nat :=
  c.line + newlines (content.extract c.counted stop).toList

/-- On to the next span. A string is on the line where it ends, and all else is on the line where it
starts. -/
def reach (content : Array Char) (c : LineCount) (s : Span) : LineCount :=
  let line := c.lineAt content s.start
  if s.kind.isString then ⟨line + newlines s.text, s.stop⟩ else ⟨line, s.start⟩

end LineCount

namespace Scan

def token (t : Token) (s : Scan) : Scan := { s with tokens := t :: s.tokens }

def diagnostic (line : Nat) (message : String) (s : Scan) : Scan :=
  { s with diagnostics := ⟨line, "", message⟩ :: s.diagnostics }

/-- The scan from the first of the spans on. What lies between spans is looked at for line breaks
only. -/
def ofSpans (content : Array Char) (c : LineCount) : List Span → Scan
  | [] => ⟨[⟨.eof, "", c.lineAt content content.size⟩], []⟩
  | s :: later =>
    let here := c.reach content s
    let scan := ofSpans content here later
    match s.kind with
    | .unexpected => scan.diagnostic here.line "Unexpected character."
    | .unterminatedString => scan.diagnostic here.line "Unterminated string."
    | kind => scan.token ⟨kind, String.ofList s.text, here.line⟩

def ofText (source : String) : Scan :=
  ofSpans source.toList.toArray ⟨1, 0⟩ (spans 0 (pieces source.toList))

end Scan
end Lox

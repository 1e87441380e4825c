import Lox.Session
import Lox.Tree.SExpr

/- The command line: a script, or a prompt that takes one line of input after another. Everything
   but the reading and writing itself is here; a run is a function from arguments, files and input
   to the two output texts and the exit code. -/
namespace Lox.CommandLine

structure Options where
  script : Option String
  listTokens : Bool
  listTree : Bool
  deriving DecidableEq

namespace Options

def initial : Options := ⟨none, false, false⟩

def withScript (o : Options) (path : String) : Option Options :=
  if o.script.isNone then some { o with script := some path } else none

/-- Options come once each and in any order; after two dashes only a script can follow. -/
def read? (o : Options) : List String → Option Options
  | [] => some o
  | "--" :: rest => rest.foldlM withScript o
  | "--print-tokens" :: rest =>
    if o.listTokens then none else read? { o with listTokens := true } rest
  | "--print-ast" :: rest => if o.listTree then none else read? { o with listTree := true } rest
  | argument :: rest =>
    if argument.startsWith "-" && argument != "-" then none
    else (o.withScript argument).bind (·.read? rest)

end Options

structure Transcript where
  out : String
  err : String
  deriving DecidableEq

instance : Append Transcript := ⟨fun a b => ⟨a.out ++ b.out, a.err ++ b.err⟩⟩

structure Result where
  transcript : Transcript
  exitCode : Nat
  deriving DecidableEq

inductive ReadError where
  | missing
  | directory
  | notUtf8
  | other (reason : String)

def ReadError.reason : ReadError → String
  | .missing => "No such file or directory (os error 2)"
  | .directory => "Is a directory (os error 21)"
  | .notUtf8 => "stream did not contain valid UTF-8"
  | .other reason => reason

def decode (bytes : ByteArray) : Except ReadError String :=
  match String.fromUTF8? bytes with
  | some text => .ok text
  | none => .error .notUtf8

def readFailure (subject : String) (e : ReadError) : String :=
  "error reading " ++ subject ++ ": " ++ e.reason ++ "\n"

def lines (texts : List String) : String := String.join (texts.map (· ++ "\n"))

def listing (o : Options) (source : String) : String :=
  (if o.listTokens then lines ((Scan.ofText source).tokens.map (·.render)) else "") ++
    (if o.listTree then lines ((Program.ofText source).statements.map (·.render)) else "")

def failureReport : Failure → String
  | .rejected ds => Diagnostic.listing ds
  | .stopped why => why.render ++ "\n"

def respond (o : Options) (fuel : Nat) (source : String) (s : Session) :
    Transcript × Except Failure Unit × Session :=
  let (result, after) := s.run fuel source
  let report :=
    match result with
    | .ok _ => ""
    | .error failure => failureReport failure
  (⟨lines (after.printedSince s.machine.output.size), listing o source ++ report⟩, result, after)

def runScript (o : Options) (fuel : Nat) (path : String) (content : Except ReadError ByteArray)
    (natives : List Native) : Result :=
  match content >>= decode with
  | .error e => ⟨⟨"", readFailure path e⟩, 66⟩
  | .ok source =>
    match respond o fuel source (.start natives) with
    | (transcript, .ok _, _) => ⟨transcript, 0⟩
    | (transcript, .error failure, _) => ⟨transcript, failure.exitCode⟩

def promptText : String := "> "

def promptStep (o : Options) (fuel : Nat) (line : List UInt8) (s : Session) :
    Transcript × Option Session :=
  match decode ⟨line.toArray⟩ with
  | .error e => (⟨"", readFailure "input" e⟩, none)
  | .ok source =>
    let (transcript, _, after) := respond o fuel source s
    (transcript, some after)

/-- A line ends with its newline; the last one may lack it. -/
def splitLines : List UInt8 → List (List UInt8)
  | [] => []
  | b :: bs =>
    if b = 10 then [b] :: splitLines bs
    else
      match splitLines bs with
      | [] => [[b]]
      | line :: rest => (b :: line) :: rest

def prompt (o : Options) (fuel : Nat) (s : Session) : List (List UInt8) → Transcript
  | [] => ⟨promptText, ""⟩
  | line :: rest =>
    match promptStep o fuel line s with
    | (transcript, none) => ⟨promptText, ""⟩ ++ transcript
    | (transcript, some after) => ⟨promptText, ""⟩ ++ transcript ++ prompt o fuel after rest

def usage : String := "usage: lox [--print-tokens] [--print-ast] [SCRIPT]\n"

/-- The whole run of the program, on a host with the given functions. -/
def run (fuel : Nat) (args : List String) (file : String → Except ReadError ByteArray)
    (input : List UInt8) (natives : List Native := Native.standard) : Result :=
  match Options.initial.read? args with
  | none => ⟨⟨"", usage⟩, 2⟩
  | some o =>
    match o.script with
    | some path => runScript o fuel path (file path) natives
    | none => ⟨prompt o fuel (.start natives) (splitLines input), 0⟩

end Lox.CommandLine

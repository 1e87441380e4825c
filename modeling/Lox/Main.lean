import Lox.CommandLine

/- The program: reads the script or the input and writes what the command line says. -/
namespace Lox.CommandLine

def readScript (path : String) : IO (Except ReadError ByteArray) := do
  try
    return .ok (← IO.FS.readBinFile path)
  catch
    | .noFileOrDirectory .. => return .error .missing
    | .inappropriateType .. | .illegalOperation .. => return .error .directory
    | e => return .error (.other (toString e))

def write (t : Transcript) : IO Unit := do
  (← IO.getStdout).putStr t.out
  (← IO.getStdout).flush
  (← IO.getStderr).putStr t.err

partial def readLine (input : IO.FS.Stream) (line : List UInt8) : IO (List UInt8) := do
  match (← input.read 1).toList with
  | [] => return line.reverse
  | b :: _ => if b = 10 then return (b :: line).reverse else readLine input (b :: line)

partial def converse (o : Options) (input : IO.FS.Stream) (s : Session) : IO Unit := do
  write ⟨promptText, ""⟩
  let line ← readLine input []
  if line.isEmpty then return
  let (transcript, after) := promptStep o Session.ample line s
  write transcript
  match after with
  | some s => converse o input s
  | none => return

def runProgram (args : List String) : IO UInt32 := do
  match Options.initial.read? args with
  | none =>
    write ⟨"", usage⟩
    return 2
  | some o =>
    match o.script with
    | none =>
      converse o (← IO.getStdin) (.start Native.standard)
      return 0
    | some path =>
      let result := runScript o Session.ample path (← readScript path) Native.standard
      write result.transcript
      return result.exitCode.toUInt32

end Lox.CommandLine

def main (args : List String) : IO UInt32 := Lox.CommandLine.runProgram args

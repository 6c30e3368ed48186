import Lox.CommandLine

set_option autoImplicit false

/-! # The program

Reads the file or the standard input that a command needs, and writes its result. The prompt
answers each line as it comes in.
-/

namespace Lox.CommandLine

/-- The fault that the system reports by a number. -/
def faultOfCode : Nat → FileError
  | 2 => .notFound
  | 20 => .notDirectory
  | 21 => .isDirectory
  | 36 => .nameTooLong
  | code => .fault code

/-- The fault behind an error of the system. -/
def faultOfError : IO.Error → FileError
  | .noFileOrDirectory _ code _ | .inappropriateType _ code _ | .otherError code _
  | .permissionDenied _ code _ | .invalidArgument _ code _ => faultOfCode code.toNat
  | _ => .fault 5

/-- The bytes of a file. -/
def readFile (file : String) : IO (Except FileError (List UInt8)) := do
  try
    let bytes ← IO.FS.readBinFile file
    return .ok bytes.toList
  catch e => return .error (faultOfError e)

/-- The next line of a stream, byte by byte, after the bytes `before` (the last one first). -/
partial def readLine (stream : IO.FS.Stream) (before : List UInt8) : IO (List UInt8) := do
  let bytes ← stream.read 1
  match bytes.toList with
  | [] => return before.reverse
  | b :: _ => if b == 10 then return (b :: before).reverse else readLine stream (b :: before)

/-- Answers the lines of the standard input one by one. -/
partial def serve (clock : Nat → Float) (session : Session) : IO UInt32 := do
  let stdout ← IO.getStdout
  stdout.putStr promptSign
  stdout.flush
  let line ← readLine (← IO.getStdin) []
  if line.isEmpty then
    stdout.putStr "\n"
    return 0
  match answer? clock manySteps session line with
  | none =>
    (← IO.getStderr).putStr notText
    return 1
  | some (report, session) =>
    stdout.putStr report.output
    (← IO.getStderr).putStr (errorLines report.errors)
    serve clock session

/-- Writes a result. -/
def write (result : Result) : IO UInt32 := do
  (← IO.getStdout).putStr result.stdout
  (← IO.getStderr).putStr result.stderr
  return result.exit.toUInt32

end Lox.CommandLine

open Lox Lox.CommandLine in
def main (arguments : List String) : IO UInt32 := do
  match Request.ofArguments? arguments with
  | none => write usage
  | some request =>
    if request.keepsLog then IO.FS.writeFile "app.log" ""
    let started ← IO.monoMsNow
    let clock := fun call => Float.ofNat (started + call) / 1000
    match request.command with
    | .repl => serve clock .start
    | command =>
      let contents ← (command.file?.map readFile).getD (pure (.ok []))
      write (execute (fun _ => contents) [] clock manySteps command)

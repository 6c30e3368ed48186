import Lox.File
import Lox.Session
import Lox.Text.Shown
import Lox.Text.Utf8
import Lox.Token.Listing
import Lox.Tree.Form

set_option autoImplicit false

/-! # The command line

The commands as functions from bytes to what is written and the exit code. A command reads at
most one file; `repl` reads its lines from the standard input.

Standard output and standard error are separate texts, since nothing shows in which order
lines of the two were written.
-/

namespace Lox.CommandLine

/-- What a program is asked to do. -/
inductive Command
  | tokenize (file : String) (asRecords : Bool)
  | parse (file : String)
  | evaluate (file : String)
  | run (file : String)
  | repl
  | version
deriving DecidableEq, Inhabited

/-- A command, and whether a log is kept. -/
structure Request where
  command : Command
  keepsLog : Bool
deriving DecidableEq, Inhabited

/-- The file that a command reads. -/
def Command.file? : Command → Option String
  | tokenize file _ | parse file | evaluate file | run file => some file
  | repl | version => none

/-- What a program writes, and the code it exits with. -/
structure Result where
  exit : Nat
  stdout : String
  stderr : String
deriving DecidableEq, Inhabited

/-! ## Arguments

`--log` may be given once before the name of a command and once after it. After the name, `--`
makes all later arguments plain, so that a file may be named like an option. The first argument
that is out of place decides that arguments spell no request, unless the version was asked for
before it. -/

/-- The options and the file given to a command so far. -/
structure Arguments where
  keepsLog : Bool
  asRecords : Bool
  file : Option String
deriving Inhabited

namespace Arguments

/-- No options and no file. -/
def empty : Arguments := ⟨false, false, none⟩

/-- Takes a file, once. -/
def addFile? (a : Arguments) (word : String) : Option Arguments :=
  if a.file.isSome || word.isEmpty then none else some { a with file := some word }

/-- Takes arguments that are no options. -/
def addPlain? (a : Arguments) : List String → Option Arguments
  | [] => some a
  | word :: rest =>
    match a.addFile? word with
    | some a => a.addPlain? rest
    | none => none

/-- Takes an option, once, or a file. A dash alone is a file. -/
def add? (a : Arguments) (word : String) : Option Arguments :=
  if word = "--log" then
    if a.keepsLog then none else some { a with keepsLog := true }
  else if word = "--json" then
    if a.asRecords then none else some { a with asRecords := true }
  else if word.startsWith "-" && word ≠ "-" then none
  else a.addFile? word

/-- Takes the arguments of a command. -/
def addAll? (a : Arguments) : List String → Option Arguments
  | [] => some a
  | word :: rest =>
    if word = "--" then a.addPlain? rest
    else
      match a.add? word with
      | some a => a.addAll? rest
      | none => none

/-- The command of a name with these arguments. -/
def command? (a : Arguments) (name : String) : Option Command :=
  match name, a.file, a.asRecords with
  | "tokenize", some file, asRecords => some (.tokenize file asRecords)
  | "parse", some file, false => some (.parse file)
  | "evaluate", some file, false => some (.evaluate file)
  | "run", some file, false => some (.run file)
  | "repl", none, false => some .repl
  | _, _, _ => none

end Arguments

/-- The argument asks for the version: short options may be run together. -/
def asksVersion (word : String) : Bool := word = "--version" || word.startsWith "-V"

namespace Request

/-- The request that arguments spell, `keepsLog` telling whether a log was asked for before
them. -/
def ofRest? (keepsLog : Bool) : List String → Option Request
  | [] => none
  | word :: rest =>
    if asksVersion word then some ⟨.version, false⟩
    else if word = "--log" then if keepsLog then none else ofRest? true rest
    else
      match Arguments.empty.addAll? rest with
      | some a => (a.command? word).map fun command => ⟨command, keepsLog || a.keepsLog⟩
      | none => none

/-- The request that arguments spell, if they do. -/
def ofArguments? (arguments : List String) : Option Request := ofRest? false arguments

end Request

/-- What is written when arguments spell no request. -/
def usage : Result :=
  ⟨2, "", "Usage: rox [--log] <tokenize FILE [--json] | parse FILE | evaluate FILE | run FILE | repl>\n"⟩

/-! ## Files -/

/-- How files are read: by their paths. -/
abbrev Files := String → Except FileError (List UInt8)

/-- The error for a file that cannot be read. -/
def unreadable (file : String) (e : FileError) : Diagnostic :=
  .file ("Failed to " ++ e.failedAction ++ " file " ++ Text.shown file ++ ": " ++ e.message)

/-- The error for bytes that are no text. -/
def Utf8Error.toDiagnostic (e : Text.Utf8Error) : Diagnostic := .encoding e.message

/-- The text of a file, or what is written instead. -/
def load (files : Files) (file : String) : Except Result String :=
  match files file with
  | .error e =>
    let d := unreadable file e
    .error ⟨d.exitCode, "", d.text ++ "\n"⟩
  | .ok bytes =>
    match Text.decode bytes with
    | .ok source => .ok source
    | .error e =>
      let d := Utf8Error.toDiagnostic e
      .error ⟨d.exitCode, "", "Source file is not valid UTF-8: " ++ d.text ++ "\n"⟩

/-! ## Commands -/

/-- Each text on a line of its own. -/
def lines (texts : List String) : String := String.join (texts.map (· ++ "\n"))

/-- Each error on a line of its own. -/
def errorLines (errors : List Diagnostic) : String := lines (errors.map Diagnostic.text)

/-- Lists the tokens of a source. -/
def tokenize (source : String) (asRecords : Bool) : Result :=
  let scan := Scan.ofText source 0
  let shown := (scan.tokens ++ [scan.eof]).map (if asRecords then Token.record else Token.row)
  { exit := if scan.errors.isEmpty then 0 else 65
    stdout := lines shown
    stderr := errorLines (scan.errors.map LexError.toDiagnostic) }

/-- What is done with an expression, once it is read without an error. -/
def withExpression (source : String) (use : Expr → Result) : Result :=
  let reading := Expr.ofText source
  let lexErrors := reading.lexErrors.map LexError.toDiagnostic
  match reading.parsed with
  | .ok e => if lexErrors.isEmpty then use e else ⟨65, "", errorLines lexErrors⟩
  | .error e => ⟨65, "", errorLines (lexErrors ++ [e.toDiagnostic])⟩

/-- Shows the form of an expression. -/
def parse (source : String) : Result :=
  withExpression source fun e => ⟨0, lines [e.form], ""⟩

/-- Shows the value of an expression. -/
def evaluate (clock : Nat → Float) (steps : Nat) (source : String) : Result :=
  withExpression source fun e =>
    let last := Lox.evaluate clock steps e
    match last.outcome? with
    | some (.ok v) => ⟨0, last.state.output ++ lines [last.state.store.text v], ""⟩
    | some (.error e) => ⟨70, last.state.output, errorLines [e.toDiagnostic]⟩
    | none => ⟨0, last.state.output, ""⟩

/-- Runs a program. -/
def run (clock : Nat → Float) (steps : Nat) (source : String) : Result :=
  let report := runSource clock steps source
  ⟨report.exitCode, report.output, errorLines report.errors⟩

/-! ## The prompt -/

/-- The lines of bytes, each with the byte that ends it. -/
def splitLines : List UInt8 → List (List UInt8)
  | [] => []
  | b :: bytes =>
    match b == 10, splitLines bytes with
    | true, rest => [b] :: rest
    | false, [] => [[b]]
    | false, line :: rest => (b :: line) :: rest

/-- The error for a line that is no text. -/
def notText : String := "Error: stream did not contain valid UTF-8\n"

/-- What a prompt writes before each line. -/
def promptSign : String := "> "

/-- Runs a line of bytes in a session; a line that is no text has no answer. -/
def answer? (clock : Nat → Float) (steps : Nat) (session : Session) (line : List UInt8) :
    Option (Report × Session) :=
  match Text.decode line with
  | .ok source => some (session.run clock steps source)
  | .error _ => none

/-- What a prompt has written so far. -/
structure Transcript where
  stdout : String
  stderr : String
deriving DecidableEq, Inhabited

/-- The transcript with the answer to one more line. -/
def Transcript.add (t : Transcript) (report : Report) : Transcript :=
  ⟨t.stdout ++ promptSign ++ report.output, t.stderr ++ errorLines report.errors⟩

/-- Answers lines one by one; a line that is no text ends the prompt. -/
def prompt (clock : Nat → Float) (steps : Nat) (session : Session) (t : Transcript) :
    List (List UInt8) → Result
  | [] => ⟨0, t.stdout ++ promptSign ++ "\n", t.stderr⟩
  | line :: rest =>
    match answer? clock steps session line with
    | none => ⟨1, t.stdout ++ promptSign, t.stderr ++ notText⟩
    | some (report, session) => prompt clock steps session (t.add report) rest

/-- Answers the lines of the standard input. -/
def repl (clock : Nat → Float) (steps : Nat) (stdin : List UInt8) : Result :=
  prompt clock steps Session.start ⟨"", ""⟩ (splitLines stdin)

/-! ## All commands -/

/-- What is done with the text of a file. -/
def withFile (files : Files) (file : String) (use : String → Result) :
    Result :=
  match load files file with
  | .ok source => use source
  | .error result => result

/-- Carries out a command. -/
def execute (files : Files) (stdin : List UInt8) (clock : Nat → Float)
    (steps : Nat) : Command → Result
  | .tokenize file asRecords => withFile files file (tokenize · asRecords)
  | .parse file => withFile files file parse
  | .evaluate file => withFile files file (evaluate clock steps)
  | .run file => withFile files file (run clock steps)
  | .repl => repl clock steps stdin
  | .version => ⟨0, lines ["rox 0.1.0"], ""⟩

end Lox.CommandLine

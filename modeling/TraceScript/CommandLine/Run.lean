import TraceScript.CommandLine.Arguments
import TraceScript.Compile
import TraceScript.Kernel.DryRun

/-!
The command: reads a script, compiles it against a dry run, and writes a listing or the code of one
probe. Files and streams are reached through a console, in any monad.
-/
namespace TraceScript.CommandLine

inductive FileError where
  | notFound
  | notADirectory
  | isADirectory
  | noSpace
  | nameTooLong
  | notText
  | other (reason : String)
deriving DecidableEq, Inhabited

namespace FileError

def message : FileError → String
  | notFound => "No such file or directory (os error 2)"
  | notADirectory => "Not a directory (os error 20)"
  | isADirectory => "Is a directory (os error 21)"
  | noSpace => "No space left on device (os error 28)"
  | nameTooLong => "File name too long (os error 36)"
  | notText => "stream did not contain valid UTF-8"
  | other reason => reason

end FileError

/-- A file can fail to open, or fail to take what is written to it. -/
inductive WriteError where
  | opening (error : FileError)
  | writing (error : FileError)
deriving DecidableEq, Inhabited

/-- The text of a file. Its bytes have to be the form of a text. -/
def readText (bytes : List UInt8) : Except FileError String :=
  let text := Text.ofUtf8Lossy bytes
  if Text.utf8 text = bytes then .ok text else .error .notText

structure Console (m : Type → Type) where
  readStdin : m (Except FileError String)
  readFile : String → m (Except FileError String)
  writeFile : String → List UInt8 → m (Except WriteError Unit)
  print : String → m (Except FileError Unit)
  complain : String → m Unit

inductive NumberError where
  | empty | badDigit | tooLarge
deriving DecidableEq, Inhabited

namespace NumberError

def message : NumberError → String
  | empty => "cannot parse integer from empty string"
  | badDigit => "invalid digit found in string"
  | tooLarge => "number too large to fit in target type"

end NumberError

/-- The largest number that can be given as a limit. -/
def maxLimit : Nat := UInt64.size - 1

def readDigits (n : Nat) : List Char → Except NumberError Nat
  | [] => .ok n
  | c :: cs =>
    if '0' ≤ c ∧ c ≤ '9' then
      let next := n * 10 + (c.toNat - '0'.toNat)
      if next ≤ maxLimit then readDigits next cs else .error .tooLarge
    else .error .badDigit

/-- Decimal digits, after a plus sign or not. -/
def readNumber (text : String) : Except NumberError Nat :=
  match text.toList with
  | [] => .error .empty
  | ['+'] => .error .badDigit
  | '+' :: cs => readDigits 0 cs
  | cs => readDigits 0 cs

/-- The listing of a probe: its maps, its events and its code. -/
def listing (p : CompiledProbe) : String :=
  let maps := p.maps.map fun (name, id) => s!"; map {name.text} = {id.render}\n"
  let events := match p.events with
    | some id => s!"; events = {id.render}\n"
    | none => ""
  s!"{p.name}:\n" ++ String.join maps ++ s!"; trace event = {p.traceEvent}\n{events}" ++
    p.bytecode.render ++ "\n"

def dumpOf (p : CompiledProbe) : Dump → String
  | .ir => s!"; IR: {p.name}\n{p.program.render}\n"
  | .allocation => s!"; allocation: {p.name}\n{p.allocation.render}\n"
  | .bytecode => s!"; bytecode: {p.name}\n{p.bytecode.render}\n"

/-- What is shown of a probe, in the order of the stages. -/
def dumpText (dumps : List Dump) (p : CompiledProbe) : String :=
  let shown := [Dump.ir, .allocation, .bytecode].filter (dumps.contains ·)
  String.join (shown.map (dumpOf p))

/-- Why the command fails: a message and what caused it, or a finished report. -/
inductive Failure where
  | message (text : String) (cause : Option String)
  | report (text : String)

namespace Failure

def render : Failure → String
  | message text none => s!"Error: {text}\n"
  | message text (some cause) => s!"Error: {text}\n\nCaused by:\n    {cause}\n"
  | report text => text

def ofCompileError (source : Source) (e : CompileError) : Failure :=
  match e.report? with
  | some r => report (r.render source)
  | none => message (e.message source) none

end Failure

variable {m : Type → Type} [Monad m]

abbrev Action (m : Type → Type) := ExceptT Failure m

def failWith {α : Type} (text : String) : Action m α := throw (.message text none)

def orCause {α : Type} (context : String) (x : Except FileError α) : Action m α :=
  match x with
  | .ok a => return a
  | .error e => throw (.message context (some e.message))

def readLimit (a : Arguments) : Action m Nat :=
  match a.maxInsns with
  | none => return ({} : Options).maxInstructions
  | some text =>
    match readNumber text with
    | .ok n => return n
    | .error e => throw (.message s!"Bad instruction ceiling: {text}" (some e.message))

def readInput (c : Console m) (path : String) : Action m String := do
  if path = "-" then orCause "Failed to read from stdin" (← c.readStdin)
  else orCause s!"Failed to read input file: {path}" (← c.readFile path)

def select (a : Arguments) (probes : List CompiledProbe) : Action m (List CompiledProbe) := do
  match a.probe with
  | none => return probes
  | some name =>
    let selected := probes.filter (·.name == name)
    if selected.isEmpty then failWith s!"No probe named '{name}' in {a.input}"
    return selected

/-- Writes a file, and says of a failure which kind of content was not written. -/
def writeOut (c : Console m) (content path : String) (bytes : List UInt8) : Action m Unit := do
  match ← c.writeFile path bytes with
  | .ok () => return
  | .error (.opening e) =>
    throw (.message s!"Failed to open for writing: {path}" (some e.message))
  | .error (.writing e) =>
    throw (.message s!"Failed to write {content} to file: {path}" (some e.message))

def writeListing (c : Console m) (path : String) (probes : List CompiledProbe) :
    Action m Unit := do
  let text := String.join (probes.map listing)
  if path = "-" then orCause "Failed to write to stdout" (← c.print text)
  else writeOut c "listing" path (Text.utf8 text)

def writeCode (c : Console m) (path : String) (probes : List CompiledProbe) : Action m Unit := do
  if path = "-" then failWith "Refusing to write bytecode to stdout"
  match probes with
  | [] => failWith "Script defines no probes"
  | [p] => writeOut c "bytecode" path p.bytecode.encode
  | _ => failWith s!"Script defines {probes.length} probes, select one with -p"

def compileAll (source : Source) (limit : Nat) : Except CompileError (List CompiledProbe) :=
  let options : Options := { maxInstructions := limit }
  match (Compile.script DryRun.kernel options source).run { kernel := {} } with
  | .ok probes _ => .ok probes
  | .error e _ => .error e

def execute (c : Console m) (a : Arguments) : Action m Unit := do
  let limit ← readLimit a
  let source := Source.ofText a.input (← readInput c a.input)
  let probes ← match compileAll source limit with
    | .ok probes => pure probes
    | .error e => throw (.ofCompileError source e)
  c.complain (String.join (probes.map (dumpText a.dumps)))
  let selected ← select a probes
  if a.listing then writeListing c a.output selected else writeCode c a.output selected

def usage : String := "usage: [-v] [-S] [-p NAME] [--max-insns N] [--dump STAGES] -o FILE INPUT\n"

/-- Runs the command and gives its exit code: two for wrong arguments, one for any other error. -/
def run (c : Console m) (args : List String) : m UInt32 := do
  match Arguments.parse args with
  | none =>
    c.complain usage
    return 2
  | some a =>
    match ← (execute c a).run with
    | .ok _ => return 0
    | .error failure =>
      c.complain failure.render
      return 1

end TraceScript.CommandLine

import TraceScript.Flow.Build
import TraceScript.Flow.Liveness
import TraceScript.Flow.TwoAddress
import TraceScript.Kernel.Basic
import TraceScript.Report
import TraceScript.Script.Layout
import TraceScript.Script.Parser
import TraceScript.Script.Typing
import TraceScript.Token.Lexer

/-!
From the text of a script to programs that a kernel has loaded and attached. The first error ends
the work. The maps of a probe are created before its program is built, since the program holds
their descriptors.
-/
namespace TraceScript

structure Options where
  /-- The most slots that a program may have. -/
  maxInstructions : Nat := 4096
  /-- The number of entries of each map of a script. -/
  mapEntries : Nat := 1024
  /-- The number of entries of a channel of events. -/
  cpus : Nat := 1

inductive CompileError where
  | lexical (errors : List (Located LexicalError))
  | syntactic (e : Located SyntaxError)
  | semantic (e : Located SemanticError)
  | code (e : CodeError)
  | kernel (e : KernelError)

namespace CompileError

def message (source : Source) : CompileError → String
  | lexical errors => s!"lexical analysis failed with {errors.length} error(s)"
  | syntactic e => s!"{source.locate e.span}: {e.value.message}"
  | semantic e => s!"{source.locate e.span}: {e.value.message}"
  | code e => e.message
  | kernel e => e.message

/-- The report of an error that has a place in the source. -/
def report? : CompileError → Option Report
  | lexical errors =>
    some { kind := "lexical error", errors := errors.map fun e => ⟨e.value.message, e.span⟩ }
  | syntactic e => some { kind := "syntax error", errors := [⟨e.value.message, e.span⟩] }
  | semantic e => some { kind := "semantic error", errors := [⟨e.value.message, e.span⟩] }
  | code _ | kernel _ => none

end CompileError

structure CompiledProbe where
  name : String
  bytecode : Bytecode
  program : Flow.Program
  allocation : Flow.Allocation
  maps : List (Name × MapId)
  events : Option MapId
  outputs : List EventFormat
  handle : ProgramHandle
  traceEvent : Nat

/-- The probes of a script. -/
def parseScript (source : Source) : Except CompileError (List Probe) := do
  let tokens ← (Token.ofSource source).mapError .lexical
  (Probe.ofTokens tokens).mapError .syntactic

structure Session (σ : Type) where
  kernel : σ
  notes : Array Note := #[]

/-- Compilation with a kernel in state `σ`. What was reported and asked before an error stays. -/
abbrev Compile (σ : Type) := EStateM CompileError (Session σ)

namespace Compile

variable {σ : Type}

def note (n : Note) : Compile σ Unit := modify fun s => { s with notes := s.notes.push n }

def notes (ns : Array Note) : Compile σ Unit := modify fun s => { s with notes := s.notes ++ ns }

def orFail {ε α : Type} (wrap : ε → CompileError) : Except ε α → Compile σ α
  | .ok a => return a
  | .error e => throw (wrap e)

def call (k : Kernel σ) (c : Call) : Compile σ c.Reply := do
  let s ← get
  let a := k.answer c s.kernel
  set { s with kernel := a.state, notes := s.notes ++ a.notes.toArray }
  orFail .kernel a.result

/-- Types a probe on its own table. -/
def annotate (p : Probe) : Compile σ (Probe × Table) := do
  match p.annotate.run {} with
  | .ok p typing =>
    notes typing.notes
    return (p, typing.table)
  | .error e typing =>
    notes typing.notes
    throw (.semantic e)

/-- Creates the maps among some symbols, in order. -/
def createMaps (k : Kernel σ) (options : Options) : List Symbol → Compile σ (List Symbol)
  | [] => return []
  | s :: rest => do
    let s ← match s.map with
      | none => pure s
      | some slot => do
        let id ← call k (.createMap ⟨.hash, slot.keySize, s.facts.size, options.mapEntries⟩)
        pure { s with map := some { slot with id := some id } }
    let rest ← createMaps k options rest
    return s :: rest

/-- Creates the maps of a probe, and a channel if the probe sends events. -/
def bindTable (k : Kernel σ) (options : Options) (t : Table) : Compile σ Table := do
  let symbols ← createMaps k options t.symbols.toList
  let t := { t with symbols := symbols.toArray }
  if t.needsEvents then
    let id ← call k (.createMap ⟨.perfEventArray, 4, 4, options.cpus⟩)
    return t.bindEvents id
  else return t

/-- The code of a typed probe whose maps are known. -/
structure Code where
  program : Flow.Program
  allocation : Flow.Allocation
  bytecode : Bytecode
  outputs : List EventFormat

def codeOf (options : Options) (t : Table) (p : Probe) : Compile σ Code := do
  let (p, t) := p.place.run t
  note (Probe.placedNote t)
  let built ← orFail .code (Flow.ofProbe t p)
  note built.note
  let program := built.program.twoAddress.analyze
  note program.analyzedNote
  let allocated := program.allocate t.frame
  notes allocated.notes
  let bytecode ← orFail .code <|
    Bytecode.generate allocated.program allocated.allocation allocated.frame.usage
      options.maxInstructions
  note (Bytecode.generatedNote allocated.program bytecode)
  return ⟨allocated.program, allocated.allocation, bytecode, built.outputs⟩

/-- The maps of a table and their descriptors, in order. -/
def mapsOf (t : Table) : List (Name × MapId) :=
  t.symbols.toList.filterMap fun s => do
    let slot ← s.map
    return (s.name, ← slot.id)

def probe (k : Kernel σ) (options : Options) (p : Probe) : Compile σ CompiledProbe := do
  let name := p.name.value
  note (.probe name)
  let (p, t) ← annotate p
  note (.annotated t.symbols.size)
  let t ← bindTable k options t
  let code ← codeOf options t p
  let handle ← call k (.loadProgram name code.bytecode)
  let event ← call k (.traceEvent name)
  call k (.attach handle event)
  note (.probeCompiled code.bytecode.code.size code.bytecode.stack event)
  return {
    name
    bytecode := code.bytecode
    program := code.program
    allocation := code.allocation
    maps := mapsOf t
    events := t.events.id?
    outputs := code.outputs
    handle
    traceEvent := event }

def probes (k : Kernel σ) (options : Options) : List Probe → Compile σ (List CompiledProbe)
  | [] => return []
  | p :: ps => do
    let first ← probe k options p
    let others ← probes k options ps
    return first :: others

def script (k : Kernel σ) (options : Options) (source : Source) :
    Compile σ (List CompiledProbe) := do
  let parsed ← orFail id (parseScript source)
  note (.scriptParsed source.name parsed.length)
  probes k options parsed

end Compile

end TraceScript

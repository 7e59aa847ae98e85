import TraceScript.Name
import TraceScript.Script.Shape

/-!
What the compiler reports while it works, as events with named fields.
-/
namespace TraceScript

inductive NoteLevel where
  | trace | debug | info | warn
  /-- The beginning of a part of the work. -/
  | span
deriving DecidableEq, Inhabited

namespace NoteLevel

def render : NoteLevel → String
  | trace => "TRACE"
  | debug => "DEBUG"
  | info => "INFO"
  | warn => "WARN"
  | span => "SPAN"

end NoteLevel

inductive Note where
  | scriptParsed (script : String) (probes : Nat)
  | probe (name : String)
  | declaredVariable (name : Name)
  | declaredMap (name : Name) (keySize : Nat)
  | provisionalValue (map : Name)
  | refinedValue (map : Name) (shape : Shape)
  | annotationComplete (symbols : Nat) (events : Bool)
  | annotated (symbols : Nat)
  | mapCreated (kind : MapKind) (keySize valueSize maxEntries : Nat) (id : MapId)
  | locationsAssigned (stack : Nat)
  | flowBuilt (blocks temps instructions : Nat)
  | livenessNumbered (instructions : Nat)
  | spilled (temp : Nat) (addr : Int)
  | registersAllocated (temps inStack stack : Nat)
  | bytecodeGenerated (name : String) (instructions jumps : Nat)
  | programLoaded (name : String) (instructions : Nat)
  | programAttached (program : ProgramHandle) (event : Nat)
  | probeCompiled (instructions stack event : Nat)
deriving DecidableEq, Inhabited

namespace Note

def level : Note → NoteLevel
  | probe .. => .span
  | declaredVariable .. | declaredMap .. | provisionalValue .. | livenessNumbered .. | spilled .. =>
    .trace
  | refinedValue .. => .warn
  | programLoaded .. | probeCompiled .. => .info
  | _ => .debug

def message : Note → String
  | scriptParsed .. => "script parsed"
  | probe .. => "probe"
  | declaredVariable .. => "declared variable"
  | declaredMap .. => "declared map"
  | provisionalValue .. => "provisional int value"
  | refinedValue .. => "value of map inferred from an earlier compound assignment is refined"
  | annotationComplete .. => "annotation complete"
  | annotated .. => "annotated"
  | mapCreated .. => "map created"
  | locationsAssigned .. => "locations assigned"
  | flowBuilt .. => "IR built"
  | livenessNumbered .. => "liveness numbered"
  | spilled .. => "spilled"
  | registersAllocated .. => "registers allocated"
  | bytecodeGenerated .. => "bytecode generated"
  | programLoaded .. => "program loaded (dry run)"
  | programAttached .. => "program attached (dry run)"
  | probeCompiled .. => "probe compiled"

def fields : Note → List (String × String)
  | scriptParsed script probes => [("script", script), ("probes", toString probes)]
  | probe name => [("name", name)]
  | declaredVariable name => [("name", name.text)]
  | declaredMap name keySize => [("name", name.text), ("key_size", toString keySize)]
  | provisionalValue map => [("map", map.text)]
  | refinedValue map shape =>
    [("map", map.text), ("from", Shape.int.render), ("to", shape.render)]
  | annotationComplete symbols events =>
    [("symbols", toString symbols), ("events", toString events)]
  | annotated symbols => [("symbols", toString symbols)]
  | mapCreated kind keySize valueSize maxEntries id =>
    [("kind", kind.render), ("key_size", toString keySize), ("value_size", toString valueSize),
      ("max_entries", toString maxEntries), ("id", toString id.fd)]
  | locationsAssigned stack => [("stack", toString stack)]
  | flowBuilt blocks temps instructions =>
    [("blocks", toString blocks), ("vregs", toString temps),
      ("instructions", toString instructions)]
  | livenessNumbered instructions => [("instructions", toString instructions)]
  | spilled temp addr => [("vreg", s!"%{temp}"), ("addr", toString addr)]
  | registersAllocated temps inStack stack =>
    [("vregs", toString temps), ("spilled", toString inStack), ("stack", toString stack)]
  | bytecodeGenerated name instructions jumps =>
    [("probe", name), ("instructions", toString instructions), ("fixups", toString jumps)]
  | programLoaded name instructions =>
    [("probe", name), ("instructions", toString instructions)]
  | programAttached program event =>
    [("program", toString program.fd), ("trace_event", toString event)]
  | probeCompiled instructions stack event =>
    [("instructions", toString instructions), ("stack", toString stack),
      ("trace_event", toString event)]

end Note

end TraceScript

import TraceScript.Kernel.Basic

/-!
A kernel that only keeps account of what it is asked for. It makes the two checks of a loader that
need no machine: the size of the stack and the last instruction. Descriptors are 32-bit numbers with
checked sums: a call that needs one beyond the largest does not return.
-/
namespace TraceScript

structure DryRun where
  maps : Array MapRequest := #[]
  /-- The names of the loaded programs and their lengths. -/
  programs : Array (String × Nat) := #[]
  events : Array String := #[]
  attached : Array (ProgramHandle × Nat) := #[]
deriving DecidableEq, Inhabited

namespace DryRun

/-- The lower descriptors are those of the standard streams. -/
def firstDescriptor : Nat := 3

def firstEvent : Nat := 1

/-- The size of a program's stack in bytes. -/
def stackSize : Nat := 512

/-- Maps and programs share one sequence of descriptors. -/
def nextDescriptor (d : DryRun) : Int := firstDescriptor + (d.maps.size + d.programs.size : Nat)

def createMap (d : DryRun) (r : MapRequest) : Answer DryRun MapId :=
  if r.keySize = 0 ∨ r.valueSize = 0 ∨ r.maxEntries = 0 then
    { result := .error (.mapCreation r.kind r.keySize r.valueSize), state := d }
  else
    let id : MapId := ⟨d.nextDescriptor⟩
    { result := .ok id
      state := { d with maps := d.maps.push r }
      notes := [.mapCreated r.kind r.keySize r.valueSize r.maxEntries id] }

def endsInExit (b : Bytecode) : Bool := b.code.back?.any (·.code == Slot.exit.code)

def loadProgram (d : DryRun) (name : String) (b : Bytecode) : Answer DryRun ProgramHandle :=
  if stackSize < b.stack then
    { result := .error (.stackExhausted name b.stack stackSize), state := d }
  else if endsInExit b then
    { result := .ok ⟨d.nextDescriptor⟩
      state := { d with programs := d.programs.push (name, b.code.size) }
      notes := [.programLoaded name b.code.size] }
  else { result := .error (.rejected name "last insn is not an exit or jmp"), state := d }

/-- Each name has one number, however often it is asked for. -/
def traceEvent (d : DryRun) (name : String) : Answer DryRun Nat :=
  match d.events.findIdx? (· == name) with
  | some i => { result := .ok (firstEvent + i), state := d }
  | none =>
    { result := .ok (firstEvent + d.events.size), state := { d with events := d.events.push name } }

def attach (d : DryRun) (program : ProgramHandle) (event : Nat) : Answer DryRun Unit :=
  if d.programs.isEmpty ∨ program.fd < firstDescriptor then
    { result := .error (.attach event), state := d }
  else
    { result := .ok ()
      state := { d with attached := d.attached.push (program, event) }
      notes := [.programAttached program event] }

def kernel : Kernel DryRun where
  answer
    | .createMap r, d => d.createMap r
    | .loadProgram name b, d => d.loadProgram name b
    | .traceEvent name, d => d.traceEvent name
    | .attach program event, d => d.attach program event

/-- The next descriptor is beyond the largest 32-bit number. -/
def exhausted (d : DryRun) : Bool := Int32.maxValue.toInt < d.nextDescriptor

/-- A call returns unless it needs a descriptor and there is none. -/
def returns (d : DryRun) (c : Call) : Bool :=
  !d.exhausted || (kernel.answer c d).state.nextDescriptor == d.nextDescriptor

end DryRun

end TraceScript

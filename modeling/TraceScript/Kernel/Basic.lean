import TraceScript.Bytecode.Emit

/-!
What the compiler asks of a kernel: to create maps, to load a program, to find the trace event of a
name and to attach a program to it. A kernel is a state with an answer to every call.
-/
namespace TraceScript

structure MapRequest where
  kind : MapKind
  keySize : Nat
  valueSize : Nat
  maxEntries : Nat
deriving DecidableEq, Inhabited

inductive KernelError where
  | mapCreation (kind : MapKind) (keySize valueSize : Nat)
  | stackExhausted (probe : String) (used limit : Nat)
  | rejected (probe log : String)
  | attach (event : Nat)
deriving DecidableEq, Inhabited

namespace KernelError

def message : KernelError → String
  | mapCreation kind keySize valueSize =>
    s!"Failed to create {kind.render} map with {keySize}-byte keys and {valueSize}-byte values"
  | stackExhausted probe used limit =>
    s!"Probe `{probe}` needs {used} bytes of stack, the limit is {limit}"
  | rejected probe log => s!"Program `{probe}` was rejected by the verifier:\n{log}"
  | attach event => s!"Failed to attach program to trace event {event}"

end KernelError

inductive Call where
  | createMap (request : MapRequest)
  | loadProgram (name : String) (program : Bytecode)
  | traceEvent (name : String)
  | attach (program : ProgramHandle) (event : Nat)

namespace Call

/-- What a call gives back if it succeeds. -/
abbrev Reply : Call → Type
  | createMap _ => MapId
  | loadProgram .. => ProgramHandle
  | traceEvent _ => Nat
  | attach .. => Unit

end Call

/-- The result of a call, the state after it and what the kernel reports. -/
structure Answer (σ ρ : Type) where
  result : Except KernelError ρ
  state : σ
  notes : List Note := []

structure Kernel (σ : Type) where
  answer : (c : Call) → σ → Answer σ c.Reply

namespace Kernel

/-- The same kernel with a record of every call, also of those that fail. -/
def recorded {σ : Type} (k : Kernel σ) : Kernel (σ × Array Call) where
  answer c s :=
    let a := k.answer c s.1
    { a with state := (a.state, s.2.push c) }

/-- The same kernel, except that one call, counted from zero, does not reach it and fails. -/
def failingAt {σ : Type} (n : Nat) (e : KernelError) (k : Kernel σ) : Kernel (σ × Nat) where
  answer c s :=
    if s.2 = n then { result := .error e, state := (s.1, s.2 + 1) }
    else
      let a := k.answer c s.1
      { a with state := (a.state, s.2 + 1) }

end Kernel

end TraceScript

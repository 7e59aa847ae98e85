import TraceScript.Name
import TraceScript.Script.Shape

/-!
The functions that scripts can call.
-/
namespace TraceScript

inductive Arity where
  | exactly (n : Nat)
  | atLeast (n : Nat)
deriving DecidableEq, Inhabited

namespace Arity

def accepts : Arity → Nat → Bool
  | exactly n, count => count == n
  | atLeast n, count => n ≤ count

def render : Arity → String
  | exactly n => toString n
  | atLeast n => s!"at least {n}"

end Arity

inductive Builtin where
  | pid | tid | cpu | ns | arg | comm | strcmp | out
deriving DecidableEq, Inhabited

namespace Builtin

def all : List Builtin := [pid, tid, cpu, ns, arg, comm, strcmp, out]

def spelling : Builtin → String
  | pid => "pid"
  | tid => "tid"
  | cpu => "cpu"
  | ns => "ns"
  | arg => "arg"
  | comm => "comm"
  | strcmp => "strcmp"
  | out => "out"

def ofName? (n : Name) : Option Builtin := all.find? fun b => Name.same ⟨b.spelling⟩ n

def arity : Builtin → Arity
  | arg => .exactly 1
  | strcmp => .exactly 2
  | out => .atLeast 1
  | _ => .exactly 0

/-- The length of a process name. -/
def commSize : Nat := 16

/-- The number of arguments of an event that a script can read. -/
def maxArgs : Nat := 6

/-- The shape of the result and where it lives, if there is a result. -/
def result : Builtin → Option (Shape × Storage)
  | out => none
  | comm => some (⟨.str, commSize⟩, .stack)
  | _ => some (.int, .register)

end Builtin

end TraceScript

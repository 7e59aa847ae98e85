import TraceScript.Kernel.Basic
import TraceScript.Proofs.Memory

namespace TraceScript

/-- Arithmetic on words. A quotient by zero is zero, and a remainder by zero the dividend. -/
def ArithOp.apply : ArithOp → UInt64 → UInt64 → UInt64
  | .add, a, b => a + b
  | .sub, a, b => a - b
  | .mul, a, b => a * b
  | .div, a, b => a / b
  | .mod, a, b => a % b
  | .and, a, b => a &&& b
  | .or, a, b => a ||| b
  | .xor, a, b => a ^^^ b
  | .lsh, a, b => a <<< b
  | .rsh, a, b => a >>> b

/-- Words are compared as signed numbers. -/
def CompareOp.holds : CompareOp → UInt64 → UInt64 → Bool
  | .eq, a, b => a == b
  | .ne, a, b => a != b
  | .lt, a, b => a.toInt64 < b.toInt64
  | .le, a, b => a.toInt64 ≤ b.toInt64
  | .gt, a, b => b.toInt64 < a.toInt64
  | .ge, a, b => b.toInt64 ≤ a.toInt64

def BinaryOp.apply : BinaryOp → UInt64 → UInt64 → UInt64
  | .arith op, a, b => op.apply a b
  | .compare op, a, b => if op.holds a b then 1 else 0

/-- What stays the same during a run. The clock gives its readings in order, and the kernel keeps
what was asked of every map and channel when it was created. -/
structure World where
  pid : UInt32
  tid : UInt32
  cpu : UInt64
  args : Nat → UInt64
  comm : List UInt8
  clock : Nat → UInt64
  created : MapId → Option MapRequest
deriving Inhabited

namespace World

def keySize (w : World) (id : MapId) : Nat := ((w.created id).map (·.keySize)).getD 0

def valueSize (w : World) (id : MapId) : Nat := ((w.created id).map (·.valueSize)).getD 0

end World

inductive Effect where
  | lookup (map : MapId) (key : List UInt8)
  | update (map : MapId) (key value : List UInt8)
  | event (channel : MapId) (record : List UInt8)
deriving DecidableEq, Inhabited

/-- The contents of all maps, the number of readings that were taken from the clock, and what was
done so far. -/
structure Outside where
  store : MapId → List UInt8 → Option (List UInt8)
  readings : Nat := 0
  trace : List Effect := []

namespace Outside

def log (o : Outside) (e : Effect) : Outside := { o with trace := o.trace ++ [e] }

/-- The entry under a key, and the record that it was asked for. -/
def find (o : Outside) (map : MapId) (key : List UInt8) : Option (List UInt8) × Outside :=
  (o.store map key, o.log (.lookup map key))

def put (o : Outside) (map : MapId) (key value : List UInt8) : Outside :=
  { o.log (.update map key value) with
    store := fun m k => if m = map ∧ k = key then some value else o.store m k }

def send (o : Outside) (channel : MapId) (record : List UInt8) : Outside :=
  o.log (.event channel record)

/-- The next reading of the clock. -/
def tick (o : Outside) (w : World) : UInt64 × Outside :=
  (w.clock o.readings, { o with readings := o.readings + 1 })

end Outside

end TraceScript

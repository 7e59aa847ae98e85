import TraceScript.Kernel.Descriptor

/-!
Types of values with their sizes in bytes, and what is known about a value: its shape, where it
lives and, for an entry of a map, which map.
-/
namespace TraceScript

/-- Rounds up to a multiple of eight bytes. -/
def align8 (size : Nat) : Nat := (size + 7) / 8 * 8

inductive ValueType where
  | int | str | record
deriving DecidableEq, Inhabited

namespace ValueType

def render : ValueType → String
  | int => "int"
  | str => "str"
  | record => "record"

end ValueType

structure Shape where
  type : ValueType
  size : Nat
deriving DecidableEq, Inhabited

namespace Shape

def int : Shape := ⟨.int, 8⟩

def render (s : Shape) : String :=
  match s.type with
  | .int => "int"
  | t => s!"{t.render}[{s.size}]"

end Shape

inductive Storage where
  | none | register | stack
deriving DecidableEq, Inhabited

/-- A type that is absent has not been determined yet. -/
structure Facts where
  type : Option ValueType := none
  size : Nat := 0
  storage : Storage := .none
  addr : Option Int := none
  map : Option MapId := none
deriving DecidableEq, Inhabited

namespace Facts

def ofShape (shape : Shape) (storage : Storage) : Facts :=
  { type := some shape.type, size := shape.size, storage }

def shape (a : Facts) : Option Shape := a.type.map (⟨·, a.size⟩)

def withShape (a : Facts) (shape : Shape) : Facts :=
  { a with type := some shape.type, size := shape.size }

def isInt (a : Facts) : Bool := a.type == some .int

/-- What is known of a value once it stands at an address of the stack. -/
def onStack (a : Facts) (addr : Int) : Facts :=
  { a with storage := .stack, addr := some addr }

end Facts

end TraceScript

import TraceScript.Name
import TraceScript.Script.Shape

/-!
The variables and maps of a probe and the stack frame that they share. Symbols are only ever
added, so a symbol's index stays valid. The frame is meant to grow towards lower addresses. They are
32-bit numbers with checked sums, but a size is cut to 32 bits before that, without a check.
-/
namespace TraceScript

/-- The bytes that a value takes in the frame, a multiple of eight that is cut to a signed 32-bit
number. From `2 ^ 31` bytes on the number is another one, and may be negative. -/
def frameSize (size : Nat) : Int := (align8 size : Int).bmod UInt32.size

/-- The lowest address in use, relative to the frame pointer. -/
structure Frame where
  top : Int := 0
deriving DecidableEq, Inhabited

namespace Frame

/-- Takes a region for at least one byte at the lower end and returns its address. It is below all
others unless one of them was cut. -/
def reserve (f : Frame) (size : Nat) : Int × Frame :=
  let top := f.top - frameSize (max size 1)
  (top, ⟨top⟩)

def usage (f : Frame) : Nat := f.top.natAbs

/-- The address can be kept in 32 bits. -/
def fits (f : Frame) : Bool := Int32.minValue.toInt ≤ f.top && f.top ≤ Int32.maxValue.toInt

end Frame

/-- The regions through which a map is read and written, and its descriptor. -/
structure MapSlot where
  keySize : Nat := 0
  keyAddr : Option Int := none
  valueAddr : Option Int := none
  id : Option MapId := none
  /-- The size of the values was only assumed, and a declaration may still change it. -/
  provisional : Bool := false
deriving DecidableEq, Inhabited

inductive SymbolKind where
  | var
  | map
deriving DecidableEq, Inhabited

/-- A variable or a map. A map has a slot, and a variable an address once it is placed. -/
structure Symbol where
  name : Name
  kind : SymbolKind := .var
  facts : Facts := {}
  addr : Option Int := none
  map : Option MapSlot := none
deriving DecidableEq, Inhabited

inductive Channel where
  | unused
  | requested
  | bound (id : MapId)
deriving DecidableEq, Inhabited

namespace Channel

def request : Channel → Channel
  | unused => requested
  | c => c

def id? : Channel → Option MapId
  | bound id => some id
  | _ => none

end Channel

structure Table where
  symbols : Array Symbol := #[]
  frame : Frame := {}
  events : Channel := .unused
deriving DecidableEq, Inhabited

namespace Table

/-- The index of the first symbol of a name. -/
def lookup (t : Table) (name : Name) : Option Nat := t.symbols.findIdx? (·.name.same name)

def find? (t : Table) (name : Name) : Option Symbol := t.symbols.find? (·.name.same name)

/-- Adds a symbol and returns its index. -/
def push (t : Table) (s : Symbol) : Nat × Table :=
  (t.symbols.size, { t with symbols := t.symbols.push s })

def declareVariable (t : Table) (name : Name) : Nat × Table := t.push { name }

def declareMap (t : Table) (name : Name) : Nat × Table :=
  t.push { name, kind := .map, map := some {} }

def modify (t : Table) (i : Nat) (f : Symbol → Symbol) : Table :=
  { t with symbols := t.symbols.modify i f }

def reserve (t : Table) (size : Nat) : Int × Table :=
  let (addr, frame) := t.frame.reserve size
  (addr, { t with frame })

def requestEvents (t : Table) : Table := { t with events := t.events.request }

def bindEvents (t : Table) (id : MapId) : Table := { t with events := .bound id }

def needsEvents (t : Table) : Bool := t.events != .unused

end Table

end TraceScript

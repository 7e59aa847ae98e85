import TraceScript.Note
import TraceScript.Script.Builtin
import TraceScript.Script.Tree
import TraceScript.Symbol.Table

/-!
Places for the values of a script. Variables, the keys and values of maps, strings, process names
and records live in the frame. A value that is built where it is needed takes the address of that
place instead of a region of its own. Offsets inside a region are 32-bit numbers with checked sums,
like the addresses of the frame.
-/
namespace TraceScript

abbrev Layout := StateM Table

/-- How a node finds its place: by itself, or when its value is wanted at an address. -/
structure Placement where
  alone : Layout Node
  into : Int → Layout Node

namespace Placement

/-- A node that is placed in the same way wherever its value is wanted. -/
def fixed (place : Layout Node) : Placement := ⟨place, fun _ => place⟩

def reserve (size : Nat) : Layout Int := modifyGet (·.reserve size)

/-- A node that is built at an address; by itself it takes a region once. -/
def built (n : Node) (into : Int → Layout Node) : Placement where
  alone := do
    if n.facts.addr.isSome then return n
    else into (← reserve n.facts.size)
  into := into

/-- The address of a variable, taken when the variable is first met. -/
def variableAddr (name : Name) : Layout (Option Int) := do
  let t ← get
  match t.lookup name with
  | none => return none
  | some i =>
    let s := t.symbols.getD i default
    match s.addr with
    | some addr => return some addr
    | none =>
      let addr ← reserve s.facts.size
      modify (·.modify i fun s => { s with addr := some addr })
      return some addr

def orReserve (addr : Option Int) (size : Nat) : Layout Int :=
  match addr with
  | some addr => return addr
  | none => reserve size

/-- The regions for the keys and the values of a map, taken when the map is first met. -/
def mapRegions (i : Nat) : Layout (Option (Int × Int)) := do
  let s := (← get).symbols.getD i default
  match s.map with
  | none => return none
  | some slot =>
    let key ← orReserve slot.keyAddr slot.keySize
    let value ← orReserve slot.valueAddr s.facts.size
    modify (·.modify i fun s =>
      { s with map := some { slot with keyAddr := some key, valueAddr := some value } })
    return some (key, value)

/-- Places values one after another from an address on. -/
def packInto (addr : Int) : List (Node × Placement) → Layout (List Node)
  | [] => return []
  | (n, p) :: rest => do
    let placed ← p.into addr
    let others ← packInto (addr + frameSize n.facts.size) rest
    return placed :: others

def allAlone : List (Node × Placement) → Layout (List Node)
  | [] => return []
  | (_, p) :: rest => do
    let placed ← p.alone
    let others ← allAlone rest
    return placed :: others

def stacked (tag : Tag) (addr : Int) : Tag := { tag with facts := tag.facts.onStack addr }

def stored (tag : Tag) (storage : Storage) : Tag :=
  { tag with facts := { tag.facts with storage } }

/-- A map entry that is written, or read as an integer, is in the region of the map's values. Any
other reading has a region of its own, since the next access uses the map's regions again. -/
def mapAccess (tag : Tag) (map : Name) (keys : List (Node × Placement)) (write : Bool) :
    Layout Node := do
  let unplaced := Node.mapAccess tag map (keys.map Prod.fst)
  match (← get).lookup map with
  | none => return unplaced
  | some i =>
    match ← mapRegions i with
    | none => return unplaced
    | some (keyAddr, valueAddr) =>
      let keys ← packInto keyAddr keys
      let a := tag.facts
      let id := ((← get).symbols.getD i default).map.bind MapSlot.id
      let addr ← if write || a.isInt then pure valueAddr else orReserve a.addr a.size
      let facts := { a with storage := .stack, addr := some addr, map := id }
      return .mapAccess { tag with facts } map keys

/-- The format of an event stays outside the frame; its record is built in one region. -/
def output (tag : Tag) (function : Name) : List (Node × Placement) → Layout Node
  | format :: (record, p) :: rest => do
    let addr ← orReserve record.facts.addr record.facts.size
    let record ← p.into addr
    return .call tag function (format.1 :: record :: rest.map Prod.fst)
  | args => return .call tag function (args.map Prod.fst)

end Placement

namespace Node

open Placement

mutual

def placement : Node → Placement
  | .int tag value => fixed (return .int (stored tag .register) value)
  | .text tag value => built (.text tag value) fun addr => return .text (stacked tag addr) value
  | .var tag name => fixed do
    let addr ← variableAddr name
    return .var { tag with facts := { tag.facts with storage := .stack, addr } } name
  | .mapAccess tag map keys => fixed (Placement.mapAccess tag map (placements keys) false)
  | .binary tag op lhs rhs => fixed do
    let lhs ← (placement lhs).alone
    let rhs ← (placement rhs).alone
    return .binary (stored tag .register) op lhs rhs
  | .call tag function args =>
    match Builtin.ofName? function with
    | some .comm =>
      built (.call tag function args) fun addr => return .call (stacked tag addr) function args
    | some .out => fixed (output tag function (placements args))
    | _ => fixed do
      let args ← allAlone (placements args)
      let tag := if tag.facts.isInt then stored tag .register else tag
      return .call tag function args
  | .record tag members => built (.record tag members) fun addr => do
    let members ← packInto addr (placements members)
    return .record (stacked tag addr) members
  | n => fixed (return n)

def placements : List Node → List (Node × Placement)
  | [] => []
  | n :: ns => (n, placement n) :: placements ns

end

/-- Places what a statement writes to and gives the address where the value is wanted. -/
def placeTarget : Node → Layout (Node × Option Int)
  | .var tag name => do
    match ← variableAddr name with
    | none => return (.var tag name, none)
    | some addr => return (.var (stacked tag addr) name, some addr)
  | .mapAccess tag map keys => do
    let target ← Placement.mapAccess tag map (placements keys) true
    return (target, target.facts.addr)
  | n => return (n, none)

def placeValue (value : Node) : Option Int → Layout Node
  | some addr => if value.facts.isInt then value.placement.alone else value.placement.into addr
  | none => value.placement.alone

mutual

def placeStatement : Node → Layout Node
  | .declaration tag target value => do
    let (target, addr) ← target.placeTarget
    let value ← value.placeValue addr
    return .declaration tag target value
  | .assignment tag op target value => do
    let (target, addr) ← target.placeTarget
    let value ← value.placeValue addr
    return .assignment tag op target value
  | .cond tag condition yes no => do
    let condition ← condition.placement.alone
    let yes ← placeStatements yes
    let no ← placeStatements no
    return .cond tag condition yes no
  | .unroll tag count body => do
    let body ← placeStatements body
    return .unroll tag count body
  | n => n.placement.alone

def placeStatements : List Node → Layout (List Node)
  | [] => return []
  | n :: ns => do
    let n ← placeStatement n
    let ns ← placeStatements ns
    return n :: ns

end

end Node

namespace Probe

/-- Gives every value of a typed probe its place in the table's frame. -/
def place (p : Probe) : Layout Probe := return { p with body := ← Node.placeStatements p.body }

/-- The report that follows the placing of a probe. -/
def placedNote (t : Table) : Note := .locationsAssigned t.frame.usage

end Probe

end TraceScript

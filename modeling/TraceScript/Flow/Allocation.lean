import TraceScript.Bytecode.Slot
import TraceScript.Flow.Program
import TraceScript.Note
import TraceScript.Symbol.Table

/-!
Homes for temporaries. Three registers survive calls and are shared out along the emitted order.
When none is free, the value that is needed longest moves to the frame for its whole range.
-/
namespace TraceScript.Flow

inductive Home where
  | reg (r : Reg)
  | spill (addr : Int)
deriving DecidableEq, Inhabited

namespace Home

def render : Home → String
  | reg r => r.render
  | spill addr => s!"[{renderAddr addr}]"

def isSpill : Home → Bool
  | reg _ => false
  | spill _ => true

end Home

/-- The home of each temporary that has a value. -/
structure Allocation where
  homes : Array (Option Home) := #[]
deriving Inhabited

namespace Allocation

def home (a : Allocation) (t : Temp) : Option Home := (a.homes[t]?).join

def spilled (a : Allocation) : Nat := a.homes.countP fun h => h.any Home.isSpill

def render (a : Allocation) : String :=
  String.join (a.homes.toList.zipIdx.filterMap fun (home, t) =>
    home.map fun h => s!"{renderTemp t}\t{h.render}\n")

end Allocation

/-- The range of a temporary. -/
structure Interval where
  start : Nat
  stop : Nat
  temp : Temp
deriving DecidableEq, Inhabited

namespace Interval

def ofTemp (info : TempInfo) (t : Temp) : Option Interval := do
  return ⟨← info.firstDef, ← info.stop, t⟩

/-- By start, then by end, then by temporary. -/
def le (a b : Interval) : Bool :=
  a.start < b.start ||
    (a.start == b.start && (a.stop < b.stop || (a.stop == b.stop && a.temp ≤ b.temp)))

end Interval

/-- A register of the pool and the range that it holds. -/
structure PoolEntry where
  reg : Reg
  occupant : Option Interval := none
deriving DecidableEq, Inhabited

abbrev Pool := List PoolEntry

namespace Pool

def empty : Pool := [{ reg := 6 }, { reg := 7 }, { reg := 8 }]

/-- Frees the registers of ranges that have ended. -/
def release (p : Pool) (start : Nat) : Pool :=
  p.map fun e => if e.occupant.any (·.stop ≤ start) then { e with occupant := none } else e

/-- A free register, the wanted one if it is free. -/
def free (p : Pool) (wanted : Option Home) : Option Nat :=
  p.findIdx? (fun e => e.occupant.isNone && wanted == some (.reg e.reg)) <|>
    p.findIdx? (·.occupant.isNone)

/-- The later of two candidates, the second if they end together. -/
def longer (a : Option (Nat × Interval)) (e : PoolEntry) (i : Nat) : Option (Nat × Interval) :=
  match a, e.occupant with
  | a, none => a
  | none, some o => some (i, o)
  | some (j, best), some o => if best.stop ≤ o.stop then some (i, o) else some (j, best)

/-- The last of the ranges that end latest. -/
def victim (p : Pool) : Option (Nat × Interval) :=
  p.zipIdx.foldl (fun best (e, i) => longer best e i) none

end Pool

structure Allocator where
  homes : Array (Option Home)
  temps : Array TempInfo
  frame : Frame
  pool : Pool := .empty
  notes : Array Note := #[]

namespace Allocator

/-- Gives a temporary a slot of the frame. -/
def spill (a : Allocator) (t : Temp) : Allocator :=
  let (addr, frame) := a.frame.reserve 8
  { a with
    frame
    homes := a.homes.setIfInBounds t (some (.spill addr))
    temps := a.temps.modify t fun i => { i with spilled := true }
    notes := a.notes.push (.spilled t addr) }

/-- Gives a range a register of the pool. -/
def occupy (a : Allocator) (index : Nat) (v : Interval) : Allocator :=
  match a.pool[index]? with
  | none => a
  | some e =>
    { a with
      pool := a.pool.set index { e with occupant := some v }
      homes := a.homes.setIfInBounds v.temp (some (.reg e.reg)) }

def allocate (hints : Array (Option Temp)) (a : Allocator) (v : Interval) : Allocator :=
  let a := { a with pool := a.pool.release v.start }
  let wanted := ((hints[v.temp]?).join.bind (a.homes[·]?)).join
  match a.pool.free wanted with
  | some index => a.occupy index v
  | none =>
    match a.pool.victim with
    | some (index, o) => if v.stop < o.stop then (a.spill o.temp).occupy index v else a.spill v.temp
    | none => a.spill v.temp

end Allocator

/-- A program with homes for its temporaries, in the frame that they extend. -/
structure Allocated where
  program : Program
  allocation : Allocation
  frame : Frame
  notes : Array Note

namespace Program

/-- The first move that defines each temporary. Sharing the register of its source saves the
move. -/
def hints (p : Program) : Array (Option Temp) :=
  let start : Array (Option Temp) := Array.replicate p.temps.size none
  p.instructions.foldl
    (fun hints i =>
      match i with
      | .move dst src => hints.modify dst (· <|> some src)
      | _ => hints)
    start

def intervals (p : Program) : List Interval :=
  (p.temps.toList.zipIdx.filterMap fun (info, t) => Interval.ofTemp info t).mergeSort Interval.le

def allocate (p : Program) (frame : Frame) : Allocated :=
  let start : Allocator :=
    { homes := Array.replicate p.temps.size none, temps := p.temps, frame }
  let a := p.intervals.foldl (Allocator.allocate p.hints) start
  let allocation : Allocation := ⟨a.homes⟩
  let note := .registersAllocated p.temps.size allocation.spilled a.frame.usage
  { program := { p with temps := a.temps }
    allocation
    frame := a.frame
    notes := a.notes.push note }

end Program

end TraceScript.Flow

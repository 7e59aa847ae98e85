import Std.Data.TreeSet
import TraceScript.Flow.Instruction

/-!
Programs as blocks of instructions. A block's number is its place, and code is emitted in that
order. Blocks and temporaries also carry what is found out about them.
-/
namespace TraceScript.Flow

abbrev TempSet := Std.TreeSet Temp

structure Block where
  code : Array Instruction := #[]
  preds : Array BlockId := #[]
  succs : Array BlockId := #[]
  /-- The temporaries that the block gives a value. -/
  defined : TempSet := ∅
  liveIn : TempSet := ∅
  liveOut : TempSet := ∅
deriving Inhabited

/-- What a temporary stands for. -/
inductive Origin where
  | symbol (index : Nat)
  | builtin (b : Builtin)
deriving DecidableEq, Inhabited

/-- The first definition and the last use of a temporary, as places in the emitted order. -/
structure TempInfo where
  firstDef : Option Nat := none
  lastUse : Option Nat := none
  spilled : Bool := false
  origin : Option Origin := none
deriving DecidableEq, Inhabited

namespace TempInfo

/-- The end of the range in which the value is needed. -/
def stop (i : TempInfo) : Option Nat :=
  match i.firstDef, i.lastUse with
  | some d, some u => some (max d u)
  | some d, none => some d
  | none, u => u

end TempInfo

structure Program where
  name : String := ""
  blocks : Array Block := #[]
  temps : Array TempInfo := #[]
deriving Inhabited

namespace Program

/-- The instructions in the order in which they are emitted. -/
def instructions (p : Program) : List Instruction := p.blocks.toList.flatMap (·.code.toList)

def size (p : Program) : Nat := p.instructions.length

def renderBlockHead (i : BlockId) (b : Block) : String :=
  let preds := String.intercalate ", " (b.preds.toList.map renderBlock)
  if b.preds.isEmpty then s!"{renderBlock i}:" else s!"{renderBlock i}:\t\t; preds: {preds}"

def renderBlockBody (i : BlockId) (b : Block) : List String :=
  s!"{renderBlockHead i b}\n" :: b.code.toList.map fun x => s!"\t{x.render}\n"

def render (p : Program) : String :=
  let blocks := p.blocks.toList.zipIdx.flatMap fun (b, i) => renderBlockBody i b
  s!"probe {p.name}:\n" ++ String.join blocks

/-- An edge from one block to another, recorded at both. -/
def link (p : Program) (source target : BlockId) : Program :=
  let blocks := p.blocks.modify source fun b => { b with succs := b.succs.push target }
  { p with blocks := blocks.modify target fun b => { b with preds := b.preds.push source } }

end Program

end TraceScript.Flow

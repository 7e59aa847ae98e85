import TraceScript.CodeError
import TraceScript.Event.Format
import TraceScript.Flow.Program
import TraceScript.Note
import TraceScript.Script.Tree
import TraceScript.Symbol.Table

/-!
Programs from typed and placed scripts. Integers are computed in new temporaries, all other values
are built at their addresses. All accesses to a map use the same two regions, so whatever an access
needs is computed before they are written.
-/
namespace TraceScript.Flow

structure Builder where
  program : Program := {}
  current : BlockId := 0
  outputs : Array EventFormat := #[]

abbrev Build := StateT Builder (Except CodeError)

namespace Build

def fault {α : Type} (f : Fault) : Build α := throw (.internal f)

/-- Adds an instruction to the current block. -/
def push (i : Instruction) : Build Unit :=
  modify fun s =>
    { s with program.blocks :=
        s.program.blocks.modify s.current fun b => { b with code := b.code.push i } }

def newBlock : Build BlockId :=
  modifyGet fun s =>
    (s.program.blocks.size, { s with program.blocks := s.program.blocks.push {} })

def newTemp (origin : Option Origin) : Build Temp :=
  modifyGet fun s =>
    (s.program.temps.size, { s with program.temps := s.program.temps.push { origin } })

/-- Continues in another block. -/
def enter (b : BlockId) : Build Unit := modify fun s => { s with current := b }

def linkTo (target : BlockId) : Build Unit :=
  modify fun s => { s with program := s.program.link s.current target }

def jump (target : BlockId) : Build Unit := do
  push (.jump target)
  linkTo target

def load (addr : Int) (origin : Option Origin) : Build Temp := do
  let dst ← newTemp origin
  push (.load dst addr)
  return dst

def addrOf (tag : Tag) : Build Int :=
  match tag.facts.addr with
  | some addr => return addr
  | none => fault .noStackLocation

end Build

open Build

/-- The bytes of a string with zeros after them, at least one. -/
def padded (s : String) (size : Nat) : List UInt8 :=
  let bytes := Text.utf8 s
  bytes ++ List.replicate (max size (bytes.length + 1) - bytes.length) 0

/-- Where a map is in the frame, and its descriptor. -/
structure MapRef where
  id : MapId
  key : Int
  keySize : Nat
  value : Int
  valueSize : Nat

def mapRef (t : Table) (tag : Tag) (name : Name) : Build MapRef :=
  let found : Option MapRef := do
    let symbol ← t.find? name
    let slot ← symbol.map
    let id ← tag.facts.map <|> slot.id
    let key ← slot.keyAddr
    let value ← slot.valueAddr
    return { id, key, keySize := slot.keySize, value, valueSize := symbol.facts.size }
  match found with
  | some ref => return ref
  | none => throw (.unboundMap name)

/-- The three uses of a value: as an integer in a temporary, written to an address, or read from
the address at which it stands. -/
structure Evaluation where
  scalar : Build Temp
  into : Int → Build Unit
  slot : Build Int

namespace Evaluation

/-- An integer is computed and stored; any other value is built at the address. -/
def storing (tag : Tag) (scalar : Build Temp) (build : Int → Build Unit) (dest : Int) :
    Build Unit := do
  if tag.facts.isInt then
    let src ← scalar
    push (.store src dest)
  else build dest

/-- A value that stands somewhere and is copied from there. -/
def standing (tag : Tag) (scalar : Build Temp) (slot : Build Int) : Evaluation where
  scalar := scalar
  into := storing tag scalar fun dest => do
    let source ← slot
    if source ≠ dest then push (.copy dest source tag.facts.size)
  slot := slot

/-- A value that is built wherever it is wanted. -/
def built (tag : Tag) (scalar : Build Temp) (build : Int → Build Unit) : Evaluation where
  scalar := scalar
  into := storing tag scalar build
  slot := do
    let addr ← addrOf tag
    storing tag scalar build addr
    return addr

/-- The right operand of an operation: a small constant is part of the instruction. -/
def operand (n : Node) (e : Evaluation) : Build Operand := do
  match n with
  | .int _ value =>
    if value.toInt32.toInt64 = value then return .imm value.toInt32
    else return .temp (← e.scalar)
  | _ => return .temp (← e.scalar)

/-- A value that is wanted in a region of a map, before the region is written. -/
inductive Staged where
  | temp (t : Temp)
  | slot (addr : Int)
  /-- Built in the region itself. -/
  | deferred

def stage (n : Node) (e : Evaluation) : Build Staged := do
  if n.facts.isInt then return .temp (← e.scalar)
  else
    match n with
    | .mapAccess .. => return .slot (← e.slot)
    | _ => return .deferred

def unstage (n : Node) (e : Evaluation) (dest : Int) : Staged → Build Unit
  | .temp src => push (.store src dest)
  | .slot source => push (.copy dest source n.facts.size)
  | .deferred => e.into dest

def stageAll : List (Node × Evaluation) → Build (List Staged)
  | [] => return []
  | (n, e) :: rest => do
    let first ← stage n e
    let others ← stageAll rest
    return first :: others

/-- Writes staged values one after another from an address on. -/
def unstageAll (addr : Int) : List (Node × Evaluation) → List Staged → Build Unit
  | (n, e) :: rest, s :: staged => do
    unstage n e addr s
    unstageAll (addr + frameSize n.facts.size) rest staged
  | _, _ => return ()

/-- Writes values one after another from an address on. -/
def packInto (addr : Int) : List (Node × Evaluation) → Build Unit
  | [] => return ()
  | (n, e) :: rest => do
    e.into addr
    packInto (addr + frameSize n.facts.size) rest

/-- Copies an entry of a map to an address; an entry that is missing gives zeros. -/
def readMap (m : MapRef) (keys : List (Node × Evaluation)) (dest : Int) : Build Unit := do
  let staged ← stageAll keys
  push (.zero m.key m.keySize)
  push (.zero dest m.valueSize)
  unstageAll m.key keys staged
  push (.lookup m.id m.key dest m.valueSize)

/-- The fields of a record, one for each conversion and member. -/
def eventFields (offset : Nat) : List Conversion → List Node → List EventField
  | c :: cs, n :: ns => ⟨c, offset, n.packedSize⟩ :: eventFields (offset + n.packedSize) cs ns
  | _, _ => []

/-- Sends the record of an event and keeps the format for whoever reads it. -/
def output (t : Table) : List (Node × Evaluation) → Build Unit
  | [(format, _), (record, e)] => do
    match format with
    | .text _ format =>
      match record with
      | .record tag members =>
        match t.events.id? with
        | none => throw .noEventChannel
        | some channel =>
          let addr ← addrOf tag
          let size := tag.facts.size
          e.into addr
          push (.call (.out addr size channel) none)
          match conversions format with
          | .error _ => fault .badFormat
          | .ok cs =>
            let fields := eventFields 0 cs members
            modify fun s => { s with outputs := s.outputs.push ⟨format, fields, size⟩ }
      | _ => fault .unpackedOutput
    | _ => fault .formatNotLiteral
  | _ => fault .unpackedOutput

/-- The helper that a function calls, after its arguments have been computed. -/
def helper (tag : Tag) (args : List (Node × Evaluation)) : Builtin → Build (Option Helper)
  | .pid => return some .pid
  | .tid => return some .tid
  | .cpu => return some .cpu
  | .ns => return some .ns
  | .arg =>
    match args.head? with
    | some (.int _ value, _) => return some (.arg value.toInt8.toUInt8)
    | _ => fault .argNotConstant
  | .comm => return some (.comm (← addrOf tag) tag.facts.size)
  | .strcmp =>
    match args with
    | [(lhs, l), (rhs, r)] => do
      let left ← l.slot
      let right ← r.slot
      return some (.strcmp left right (min lhs.facts.size rhs.facts.size))
    | _ => fault .strcmpArguments
  | .out => return none

/-- A call; its result has a temporary only if it is wanted and an integer. -/
def call (t : Table) (tag : Tag) (function : Name) (args : List (Node × Evaluation))
    (wanted : Bool) : Build (Option Temp) := do
  match Builtin.ofName? function with
  | none => fault .unknownBuiltin
  | some b =>
    match ← helper tag args b with
    | none =>
      output t args
      return none
    | some h =>
      let dst ← if wanted && tag.facts.isInt then some <$> newTemp (some (.builtin b))
        else pure none
      push (.call h dst)
      return dst

end Evaluation

open Evaluation

mutual

def evaluation (t : Table) : Node → Evaluation
  | .int tag value =>
    standing tag
      (do
        let dst ← newTemp none
        push (.imm dst value)
        return dst)
      (fault .unplaceable)
  | .var tag name =>
    standing tag (do load (← addrOf tag) ((t.lookup name).map .symbol)) (addrOf tag)
  | .mapAccess tag map keys =>
    let entries := evaluations t keys
    standing tag
      (do
        let m ← mapRef t tag map
        readMap m entries m.value
        load m.value ((t.lookup map).map .symbol))
      (do
        let m ← mapRef t tag map
        let dest ← addrOf tag
        readMap m entries dest
        return dest)
  | .binary tag op lhs rhs =>
    let left := evaluation t lhs
    let right := evaluation t rhs
    standing tag
      (do
        let l ← left.scalar
        let r ← right.operand rhs
        let dst ← newTemp none
        match op with
        | .arith op => push (.arith op dst l r)
        | .compare op => push (.compare op dst l r)
        return dst)
      (fault .unplaceable)
  | .call tag function args =>
    let arguments := evaluations t args
    let scalar : Build Temp := do
      match ← Evaluation.call t tag function arguments true with
      | some dst => return dst
      | none => fault .noCallValue
    built tag scalar fun dest => do
      if Builtin.ofName? function = some .comm then
        push (.call (.comm dest tag.facts.size) none)
      else
        let _ ← addrOf tag
        fault .unplaceable
  | .text tag value =>
    built tag (fault .notInteger) fun dest => push (.bytes dest (padded value tag.facts.size))
  | .record tag members =>
    let values := evaluations t members
    built tag (fault .notInteger) fun dest => do
      if members.isEmpty then push (.zero dest tag.facts.size) else packInto dest values
  | n => standing n.tag (fault .notInteger) (fault .unplaceable)

def evaluations (t : Table) : List Node → List (Node × Evaluation)
  | [] => []
  | n :: ns => (n, evaluation t n) :: evaluations t ns

end

def clearRegions (m : MapRef) : Build Unit := do
  push (.zero m.key m.keySize)
  push (.zero m.value m.valueSize)

def declaration (t : Table) (target value : Node) : Build Unit := do
  match target with
  | .var tag _ => (evaluation t value).into (← addrOf tag)
  | .mapAccess tag map keys =>
    let m ← mapRef t tag map
    let entries := evaluations t keys
    let e := evaluation t value
    let staged ← stageAll entries
    let stagedValue ← stage value e
    clearRegions m
    unstageAll m.key entries staged
    unstage value e m.value stagedValue
    push (.update m.id m.key m.value)
  | _ => fault .declarationTarget

def assignment (t : Table) (op : ArithOp) (target value : Node) : Build Unit := do
  match target with
  | .var tag name =>
    let addr ← addrOf tag
    let current ← load addr ((t.lookup name).map .symbol)
    let rhs ← (evaluation t value).operand value
    let dst ← newTemp none
    push (.arith op dst current rhs)
    push (.store dst addr)
  | .mapAccess tag map keys =>
    let m ← mapRef t tag map
    let entries := evaluations t keys
    let staged ← stageAll entries
    let rhs ← (evaluation t value).operand value
    clearRegions m
    unstageAll m.key entries staged
    push (.lookup m.id m.key m.value m.valueSize)
    let current ← load m.value none
    let dst ← newTemp none
    push (.arith op dst current rhs)
    push (.store dst m.value)
    push (.update m.id m.key m.value)
  | _ => fault .assignmentTarget

/-- Three new blocks: for a condition that holds, for one that fails, and for what follows. -/
def branch (t : Table) (condition : Node) (yes no : Build Unit) : Build Unit := do
  let cond ← (evaluation t condition).scalar
  let yesBlock ← newBlock
  let noBlock ← newBlock
  let merge ← newBlock
  push (.branch cond yesBlock noBlock)
  linkTo yesBlock
  linkTo noBlock
  enter yesBlock
  yes
  jump merge
  enter noBlock
  no
  jump merge
  enter merge

def times (action : Build Unit) : Nat → Build Unit
  | 0 => return ()
  | n + 1 => do
    action
    times action n

mutual

def statement (t : Table) : Node → Build Unit
  | .declaration _ target value => declaration t target value
  | .assignment _ op target value => assignment t op target value
  | .cond _ condition yes no => branch t condition (statements t yes) (statements t no)
  | .unroll _ count body => times (statements t body) count
  | .call tag function args => do
    let _ ← Evaluation.call t tag function (evaluations t args) false
  | _ => fault .expressionStatement

def statements (t : Table) : List Node → Build Unit
  | [] => return ()
  | n :: ns => do
    statement t n
    statements t ns

end

/-- A program and the formats of the events that it sends. -/
structure Built where
  program : Program
  outputs : List EventFormat

namespace Built

def note (b : Built) : Note :=
  .flowBuilt b.program.blocks.size b.program.temps.size b.program.size

end Built

def probe (t : Table) (p : Probe) : Build Unit := do
  let first ← newBlock
  enter first
  statements t p.body
  push .ret

def ofProbe (t : Table) (p : Probe) : Except CodeError Built := do
  let (_, s) ← (probe t p).run { program := { name := p.name.value } }
  return ⟨s.program, s.outputs.toList⟩

end TraceScript.Flow

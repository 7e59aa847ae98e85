import TraceScript.Proofs.Control
import TraceScript.Proofs.World

/-!
The machine that runs slots. It has eleven registers of 64 bits and a memory of bytes, which it
reaches through addresses in registers. A call goes to the kernel, which may leave anything in the
registers that it does not keep. Jumps count from the slot after them.
-/
namespace TraceScript

/-- The register of a number. -/
def Reg.ofNumber? (n : UInt8) : Option Reg := if h : n.toNat < 11 then some ⟨n.toNat, h⟩ else none

theorem Reg.ofNumber?_number (r : Reg) : ofNumber? r.number = some r := by
  revert r
  decide

theorem Reg.number_of_ofNumber? {n : UInt8} {r : Reg} (h : ofNumber? n = some r) : n = r.number := by
  unfold ofNumber? at h
  split at h
  · obtain rfl := Option.some.inj h
    exact (UInt8.ofNat_toNat).symm
  · cases h

namespace Machine

/-- What a slot tells the machine to do. -/
inductive Action where
  | arith (op : ArithOp) (dst : Reg) (right : Operand)
  | move (dst : Reg) (right : Operand)
  /-- Moves the lower half and clears the upper. -/
  | moveLow (dst : Reg) (right : Operand)
  | load (width : Nat) (dst src : Reg) (off : Int16)
  | store (width : Nat) (dst : Reg) (right : Operand) (off : Int16)
  /-- A constant of 64 bits, or the map of a descriptor. -/
  | wide (dst : Reg) (isMap : Bool) (low : Int32)
  | jump (off : Int16)
  | test (op : CompareOp) (dst : Reg) (right : Operand) (off : Int16)
  | call (function : Int32)
  | exit

def arithmetic : List (UInt8 × ArithOp) :=
  [(0x00, .add), (0x10, .sub), (0x20, .mul), (0x30, .div), (0x40, .or), (0x50, .and), (0x60, .lsh),
    (0x70, .rsh), (0x90, .mod), (0xa0, .xor)]

/-- The comparisons of signed words. -/
def comparisons : List (UInt8 × CompareOp) :=
  [(0x10, .eq), (0x50, .ne), (0x60, .gt), (0x70, .ge), (0xc0, .lt), (0xd0, .le)]

def widths : List (UInt8 × Nat) := [(0x00, 4), (0x08, 2), (0x10, 1), (0x18, 8)]

/-- The widths of accesses to memory. -/
def IsWidth (n : Nat) : Prop := n = 8 ∨ n = 4 ∨ n = 2 ∨ n = 1

def width? (code : UInt8) : Option Nat :=
  if code &&& 0xe0 = 0x60 then widths.lookup (code &&& 0x18) else none

/-- The action of an opcode with its operands. -/
def Action.ofCode (code : UInt8) (dst src : Reg) (off : Int16) (imm : Int32) : Option Action :=
  let right : Operand := if code &&& 0x08 = 0 then .imm imm else .reg src
  match code &&& 0x07 with
  | 0 => if code = 0x18 then some (.wide dst (src = 1) imm) else none
  | 1 => (width? code).map fun width => .load width dst src off
  | 2 => (width? code).map fun width => .store width dst (.imm imm) off
  | 3 => (width? code).map fun width => .store width dst (.reg src) off
  | 4 => if code &&& 0xf0 = 0xb0 then some (.moveLow dst right) else none
  | 5 =>
    if code = 0x05 then some (.jump off)
    else if code = 0x85 then some (.call imm)
    else if code = 0x95 then some .exit
    else (comparisons.lookup (code &&& 0xf0)).map fun op => .test op dst right off
  | 7 =>
    if code &&& 0xf0 = 0xb0 then some (.move dst right)
    else (arithmetic.lookup (code &&& 0xf0)).map fun op => .arith op dst right
  | _ => none

/-- The registers that an action may change. -/
def Action.writes : Action → List Reg
  | arith _ dst _ | move dst _ | moveLow dst _ | load _ dst .. | wide dst .. => [dst]
  | call _ => [0, 1, 2, 3, 4, 5]
  | store .. | jump _ | test .. | exit => []

/-- The services of the kernel. -/
inductive Service where
  | lookup
  | update
  | probeRead
  | time
  | processor
  | pidTgid
  | comm
  | output

def services : List (Int32 × Service) :=
  [(1, .lookup), (2, .update), (4, .probeRead), (5, .time), (8, .processor), (14, .pidTgid),
    (16, .comm), (25, .output)]

/-- What the machine is placed in: the addresses of the end of the frame and of the context of the
event, and how the kernel shows itself to the code. -/
structure Env where
  world : World
  frame : UInt64
  context : UInt64
  /-- What stands in a register for the map of a descriptor. -/
  handle : Int32 → UInt64
  /-- The map that a register stands for. -/
  resolve : UInt64 → Option MapId
  /-- What each call leaves in the registers that it does not keep. -/
  left : Nat → Reg → UInt64
  /-- Where a call shows the value of an entry that it has found. -/
  entry : Nat → UInt64

/-- The place of an address in memory, relative to the end of the frame. -/
def Env.place (e : Env) (address : UInt64) : Int := (address - e.frame).toInt64.toInt

structure State where
  regs : Reg → UInt64
  memory : Memory
  outside : Outside
  /-- The number of calls so far. -/
  calls : Nat := 0

namespace State

def set (m : State) (r : Reg) (v : UInt64) : State := { m with regs := Function.update m.regs r v }

def write (m : State) (place : Int) (data : List UInt8) : State :=
  { m with memory := m.memory.write place data }

/-- The registers after a call, of which the first six are not kept. -/
def called (m : State) (e : Env) : State :=
  { m with regs := fun r => if r.val ≤ 5 then e.left m.calls r else m.regs r, calls := m.calls + 1 }

def value (m : State) : Operand → UInt64
  | .reg r => m.regs r
  | .imm v => v.toInt64.toUInt64

/-- The address of a register and an offset. -/
def address (m : State) (r : Reg) (off : Int16) : UInt64 := m.regs r + off.toInt64.toUInt64

section

variable (m : State) (e : Env) (r : Reg) (v : UInt64) (place : Int) (data : List UInt8)

@[simp] theorem regs_set : (m.set r v).regs r = v := Function.update_self ..

theorem set_set (w : UInt64) : (m.set r v).set r w = m.set r w := by
  simp [set]

@[simp] theorem memory_set : (m.set r v).memory = m.memory := rfl

@[simp] theorem memory_write : (m.write place data).memory = m.memory.write place data := rfl

variable {m r}

theorem regs_set_of_ne {q : Reg} (h : q ≠ r) : (m.set r v).regs q = m.regs q :=
  Function.update_of_ne h ..

theorem regs_called_of_lt (h : 5 < r.val) : (m.called e).regs r = m.regs r :=
  if_neg (Nat.not_le_of_lt h)

end

end State

/-- What a service does with the registers that hold its arguments. There is no result where the
kernel would refuse the call: a register does not stand for a map, an update has flags, or an event is
not sent from the context to the buffer of its own processor. -/
def Service.run (e : Env) (m : State) : Service → Option State
  | lookup => do
    let id ← e.resolve (m.regs 1)
    let (entry, o) := m.outside.find id (m.memory.read (e.place (m.regs 2)) (e.world.keySize id))
    let m' := { m.called e with outside := o }
    match entry with
    | some v =>
      let shown := e.entry m.calls
      return (m'.write (e.place shown) (Bytes.extend (e.world.valueSize id) v)).set 0 shown
    | none => return m'.set 0 0
  | update => do
    let id ← e.resolve (m.regs 1)
    let key := m.memory.read (e.place (m.regs 2)) (e.world.keySize id)
    let value := m.memory.read (e.place (m.regs 3)) (e.world.valueSize id)
    guard (m.regs 4 = 0)
    return { m.called e with outside := m.outside.put id key value }
  | probeRead =>
    let data := m.memory.read (e.place (m.regs 3)) (m.regs 2).toNat
    some ((m.called e).write (e.place (m.regs 1)) data)
  | time =>
    let (reading, o) := m.outside.tick e.world
    some (State.set { m.called e with outside := o } 0 reading)
  | processor => some ((m.called e).set 0 e.world.cpu)
  | pidTgid =>
    some ((m.called e).set 0 (UInt64.ofNat (e.world.pid.toNat * 2 ^ 32 + e.world.tid.toNat)))
  | comm =>
    some ((m.called e).write (e.place (m.regs 1)) (Bytes.extend (m.regs 2).toNat e.world.comm))
  | output => do
    let id ← e.resolve (m.regs 2)
    guard (m.regs 1 = e.context ∧ m.regs 3 = e.world.cpu)
    let record := m.memory.read (e.place (m.regs 4)) (m.regs 5).toNat
    return { m.called e with outside := m.outside.send id record }

/-- What an action does, and the distance to the slot after it. A constant of 64 bits takes its upper
half from the next slot. Nothing comes after an exit. -/
def Action.run (e : Env) (next : Option Slot) (m : State) : Action → Option (State × Int)
  | arith op dst right => some (m.set dst (op.apply (m.regs dst) (m.value right)), 1)
  | move dst right => some (m.set dst (m.value right), 1)
  | moveLow dst right => some (m.set dst (m.value right).toUInt32.toUInt64, 1)
  | load width dst src off =>
    some (m.set dst (Bytes.toWord (m.memory.read (e.place (m.address src off)) width)), 1)
  | store width dst right off =>
    some (m.write (e.place (m.address dst off)) (Bytes.ofNat width (m.value right).toNat), 1)
  | wide dst true low => next.map fun _ => (m.set dst (e.handle low), 2)
  | wide dst false low => next.map fun s =>
    (m.set dst (UInt64.ofNat (low.toUInt32.toNat + s.imm.toUInt32.toNat * 2 ^ 32)), 2)
  | jump off => some (m, 1 + off.toInt)
  | test op dst right off =>
    some (m, if op.holds (m.regs dst) (m.value right) then 1 + off.toInt else 1)
  | call function => do
    let service ← services.lookup function
    return (← service.run e m, 1)
  | exit => none

end Machine

/-- The action of a slot, if it has one. -/
def Slot.action (s : Slot) : Option Machine.Action := do
  Machine.Action.ofCode s.code (← Reg.ofNumber? s.dst) (← Reg.ofNumber? s.src) s.off s.imm

namespace Slot

open Machine Emit

section

variable (d s : Reg) (off : Int16) (imm : Int32)

theorem action_ofRegs (code : UInt8) :
    (ofRegs code d s off imm).action = Action.ofCode code d s off imm := by
  simp [action, ofRegs, Reg.ofNumber?_number]

@[simp] theorem action_aluImm (op : ArithOp) :
    (aluImm (arithCode op) d imm).action = some (.arith op d (.imm imm)) := by
  rw [aluImm, action_ofRegs]
  cases op <;> rfl

@[simp] theorem action_aluReg (op : ArithOp) :
    (aluReg (arithCode op) d s).action = some (.arith op d (.reg s)) := by
  rw [aluReg, action_ofRegs]
  cases op <;> rfl

@[simp] theorem action_movImm : (movImm d imm).action = some (.move d (.imm imm)) :=
  action_ofRegs d 0 0 imm _

@[simp] theorem action_movReg : (movReg d s).action = some (.move d (.reg s)) :=
  action_ofRegs d s 0 0 _

@[simp] theorem action_mov32Reg : (mov32Reg d s).action = some (.moveLow d (.reg s)) :=
  action_ofRegs d s 0 0 _

theorem action_load {width : Nat} (hw : IsWidth width) :
    (load (widthCode width) d s off).action = some (.load width d s off) := by
  rw [load, action_ofRegs]
  rcases hw with rfl | rfl | rfl | rfl <;> rfl

theorem action_loadDouble : (load Opcode.double d s off).action = some (.load 8 d s off) := by
  rw [load, action_ofRegs]
  rfl

theorem action_store {width : Nat} (hw : IsWidth width) :
    (store (widthCode width) d s off).action = some (.store width d (.reg s) off) := by
  rw [store, action_ofRegs]
  rcases hw with rfl | rfl | rfl | rfl <;> rfl

theorem action_storeImm {width : Nat} (hw : IsWidth width) :
    (storeImm (widthCode width) d off imm).action = some (.store width d (.imm imm) off) := by
  rw [storeImm, action_ofRegs]
  rcases hw with rfl | rfl | rfl | rfl <;> rfl

@[simp] theorem action_jump : (jump off).action = some (.jump off) := action_ofRegs 0 0 off 0 _

@[simp] theorem action_jumpImm (op : CompareOp) :
    (jumpImm (compareCode op) d imm off).action = some (.test op d (.imm imm) off) := by
  rw [jumpImm, action_ofRegs]
  cases op <;> rfl

@[simp] theorem action_jumpReg (op : CompareOp) :
    (jumpReg (compareCode op) d s off).action = some (.test op d (.reg s) off) := by
  rw [jumpReg, action_ofRegs]
  cases op <;> rfl

@[simp] theorem action_call (function : Int32) : (call function).action = some (.call function) :=
  action_ofRegs 0 0 0 function _

@[simp] theorem action_exit : exit.action = some .exit := rfl

theorem action_wide : (ofRegs wideCode d 0 0 imm).action = some (.wide d false imm) :=
  action_ofRegs d 0 0 imm _

theorem action_mapMark : (Slot.mk wideCode d.number mapMark 0 imm).action = some (.wide d true imm) :=
  action_ofRegs d 1 0 imm _

end

end Slot

namespace Machine

/-- A slot that is about to be executed, and the state before that. -/
structure Config where
  index : Int
  state : State

open Bytecode (fetch)

/-- One step through machine code. There is none from an exit or from outside the code. -/
def step (e : Env) (code : Array Slot) (c : Config) : Option Config := do
  let action ← (← fetch code c.index).action
  let (state, distance) ← action.run e (fetch code (c.index + 1)) c.state
  return ⟨c.index + distance, state⟩

/-- Some steps lead from one slot to another. -/
def Reaches (e : Env) (code : Array Slot) : Config → Config → Prop :=
  Relation.ReflTransGen fun c d => step e code c = some d

end Machine

end TraceScript

import TraceScript.Bytecode.Listing
import TraceScript.CodeError
import TraceScript.Flow.Allocation

/-!
Machine code from programs whose temporaries have homes. Blocks are emitted in order. A jump is
first written without its distance, which is filled in once the start of every block is known.
-/
namespace TraceScript

structure Bytecode where
  code : Array Slot := #[]
  limit : Nat
  stack : Nat
deriving Inhabited

namespace Bytecode

def encode (b : Bytecode) : List UInt8 := b.code.toList.flatMap Slot.encode

def render (b : Bytecode) : String := disassemble b.code.toList

end Bytecode

/-- A slot, and the block that it jumps to if it is a jump whose distance is still open. -/
structure Draft where
  slot : Slot
  target : Option BlockId := none
deriving DecidableEq, Inhabited

abbrev Emit := EStateM CodeError (Array Draft)

/-- The number of slots that a program may have, if there is a limit. -/
class Ceiling where
  limit : Option Nat

namespace Ceiling

/-- Where nothing else is said, there is no limit. -/
instance unlimited : Ceiling := ⟨none⟩

@[reducible] def ofLimit (limit : Nat) : Ceiling := ⟨some limit⟩

end Ceiling

namespace Emit

open TraceScript.Flow

def fault {α : Type} (f : Fault) : Emit α := throw (.internal f)

/-- The offset of a frame address in an instruction. -/
def offset (addr : Int) : Emit Int16 :=
  if (Int16.ofInt addr).toInt = addr then return Int16.ofInt addr else throw (.stackOffset addr)

def arithCode : ArithOp → UInt8
  | .add => Opcode.add
  | .sub => Opcode.sub
  | .mul => Opcode.mul
  | .div => Opcode.div
  | .mod => Opcode.mod
  | .and => Opcode.and
  | .or => Opcode.or
  | .xor => Opcode.xor
  | .lsh => Opcode.lsh
  | .rsh => Opcode.rsh

/-- The jump that is taken if a signed comparison holds. -/
def compareCode : CompareOp → UInt8
  | .eq => Opcode.jeq
  | .ne => Opcode.jne
  | .lt => Opcode.jslt
  | .le => Opcode.jsle
  | .gt => Opcode.jsgt
  | .ge => Opcode.jsge

/-- The widest access of at most a number of bytes that is aligned at an address. -/
def chunkWidth (addr : Int) (remaining : Nat) : Nat :=
  if 8 ≤ remaining ∧ addr % 8 = 0 then 8
  else if 4 ≤ remaining ∧ addr % 4 = 0 then 4
  else if 2 ≤ remaining ∧ addr % 2 = 0 then 2
  else 1

theorem chunkWidth_pos (addr : Int) (remaining : Nat) : 0 < chunkWidth addr remaining := by
  unfold chunkWidth
  split
  · omega
  · split
    · omega
    · split <;> omega

def widthCode : Nat → UInt8
  | 8 => Opcode.double
  | 4 => Opcode.word
  | 2 => Opcode.half
  | _ => Opcode.byte

/-- Covers what is left of a region after some bytes of it. -/
def forChunksFrom (addr : Int) (size : Nat) (action : Nat → Nat → Emit Unit) (done : Nat) :
    Emit Unit := do
  if done < size then
    let width := chunkWidth (addr + done) (size - done)
    action done width
    forChunksFrom addr size action (done + width)
  else return ()
termination_by size - done
decreasing_by
  have := chunkWidth_pos (addr + done) (size - done)
  omega

/-- Covers a region with aligned accesses, the widest first. The action takes the distance from the
start of the region and the width. -/
def forChunks (addr : Int) (size : Nat) (action : Nat → Nat → Emit Unit) : Emit Unit :=
  forChunksFrom addr size action 0

def scratch₁ : Reg := 3

def scratch₂ : Reg := 4

def homeOf (a : Allocation) (t : Temp) : Emit Home :=
  match a.home t with
  | some h => return h
  | none => fault .noHome

/-- The register in which a temporary is computed. -/
def target (a : Allocation) (t : Temp) : Emit Reg := do
  match ← homeOf a t with
  | .reg r => return r
  | .spill _ => return scratch₁

/-- The arguments of an event follow a header of sixteen bytes. -/
def argOffset (n : UInt8) : Int16 := Int16.ofNat (16 + 8 * n.toNat)

section

variable [Ceiling]

/-- Puts a draft behind those that are there, if the limit leaves room for one more. -/
def append (d : Draft) : Emit Unit := fun ds =>
  match Ceiling.limit with
  | none => .ok () (ds.push d)
  | some limit => if ds.size < limit then .ok () (ds.push d) else .error (.tooLong limit) ds

def push (s : Slot) : Emit Unit := append { slot := s }

def pushAll : List Slot → Emit Unit
  | [] => return ()
  | s :: ss => do
    push s
    pushAll ss

def pushJump (s : Slot) (target : BlockId) : Emit Unit := append { slot := s, target := some target }

/-- The register that holds a temporary; a value in the frame is loaded into a scratch register. -/
def read (a : Allocation) (t : Temp) (scratch : Reg) : Emit Reg := do
  match ← homeOf a t with
  | .reg r => return r
  | .spill addr =>
    push (.load Opcode.double scratch Reg.frame (← offset addr))
    return scratch

/-- Stores a temporary that lives in the frame. -/
def writeBack (a : Allocation) (t : Temp) (r : Reg) : Emit Unit := do
  match ← homeOf a t with
  | .reg _ => return ()
  | .spill addr => push (.store Opcode.double Reg.frame r (← offset addr))

def copyReg (dst src : Reg) : Emit Unit :=
  if dst = src then return () else push (.movReg dst src)

/-- Points a register to an address of the frame. -/
def pointer (r : Reg) (addr : Int) : Emit Unit := do
  push (.movReg r Reg.frame)
  push (.aluImm Opcode.add r (Int32.ofInt addr))

def loadMap (r : Reg) (map : MapId) : Emit Unit := pushAll (Slot.loadMap r (Int32.ofInt map.fd))

def zero (addr : Int) (size : Nat) : Emit Unit :=
  forChunks addr size fun done width => do
    push (.storeImm (widthCode width) Reg.frame (← offset (addr + done)) 0)

/-- One access of a constant. A double word is stored at once if its immediate, extended by its
sign, gives all eight bytes, else as two words. -/
def storeChunk (addr : Int) (width : Nat) (value : Nat) : Emit Unit := do
  let off ← offset addr
  let word := Int64.ofNat value
  if width = 8 then
    if word.toInt32.toInt64 = word then push (.storeImm Opcode.double Reg.frame off word.toInt32)
    else
      let high ← offset (addr + 4)
      push (.storeImm Opcode.word Reg.frame off word.toInt32)
      push (.storeImm Opcode.word Reg.frame high (word >>> 32).toInt32)
  else push (.storeImm (widthCode width) Reg.frame off word.toInt32)

def storeBytes (addr : Int) (data : List UInt8) : Emit Unit :=
  forChunks addr data.length fun done width =>
    storeChunk (addr + done) width (Bytes.toNat ((data.drop done).take width))

def copyBytes (dest source : Int) (size : Nat) : Emit Unit :=
  forChunks dest size fun done width => do
    push (.load (widthCode width) 0 Reg.frame (← offset (source + done)))
    push (.store (widthCode width) Reg.frame 0 (← offset (dest + done)))

def mapUpdate (map : MapId) (key value : Int) : Emit Unit := do
  loadMap 1 map
  pointer 2 key
  pointer 3 value
  push (.movImm 4 0)
  push (.call KernelFunction.mapUpdate)

/-- A found entry is copied out; otherwise the five instructions of the copy are passed over. -/
def mapLookup (map : MapId) (key value : Int) (size : Nat) : Emit Unit := do
  loadMap 1 map
  pointer 2 key
  push (.call KernelFunction.mapLookup)
  push (.jumpImm Opcode.jeq 0 0 5)
  pointer 1 value
  push (.movImm 2 (Int32.ofNat size))
  push (.movReg 3 0)
  push (.call KernelFunction.probeRead)

/-- Keeps the result of a call. -/
def keepResult (a : Allocation) : Option Temp → Emit Unit
  | none => return ()
  | some dst => do
    let d ← target a dst
    push (.movReg d 0)
    writeBack a dst d

/-- One at the first chunk that differs, zero if none does. -/
def compareRegions (d : Reg) (lhs rhs : Int) (size : Nat) : Emit Unit := do
  push (.movImm d 0)
  forChunks lhs size fun done width => do
    push (.load (widthCode width) 0 Reg.frame (← offset (lhs + done)))
    push (.load (widthCode width) 1 Reg.frame (← offset (rhs + done)))
    push (.jumpReg Opcode.jeq 0 1 1)
    push (.movImm d 1)

def sendEvent (addr : Int) (size : Nat) (channel : MapId) : Emit Unit := do
  push (.call KernelFunction.processor)
  push (.movReg 3 0)
  push (.movReg 1 Reg.context)
  loadMap 2 channel
  pointer 4 addr
  push (.movImm 5 (Int32.ofNat size))
  push (.call KernelFunction.eventOutput)

def helper (a : Allocation) (dst : Option Temp) : Helper → Emit Unit
  | .pid => do
    push (.call KernelFunction.pidTgid)
    push (.aluImm Opcode.rsh 0 32)
    keepResult a dst
  | .tid => do
    push (.call KernelFunction.pidTgid)
    push (.mov32Reg 0 0)
    keepResult a dst
  | .cpu => do
    push (.call KernelFunction.processor)
    keepResult a dst
  | .ns => do
    push (.call KernelFunction.time)
    keepResult a dst
  | .arg n =>
    match dst with
    | none => return ()
    | some dst => do
      let d ← target a dst
      push (.load Opcode.double d Reg.context (argOffset n))
      writeBack a dst d
  | .comm addr size => do
    zero addr size
    pointer 1 addr
    push (.movImm 2 (Int32.ofNat size))
    push (.call KernelFunction.comm)
  | .strcmp lhs rhs size =>
    match dst with
    | none => return ()
    | some dst => do
      let d ← target a dst
      compareRegions d lhs rhs size
      writeBack a dst d
  | .out addr size channel => sendEvent addr size channel

def arith (a : Allocation) (op : ArithOp) (dst lhs : Temp) (rhs : Operand) : Emit Unit := do
  let l ← read a lhs scratch₁
  let d ← target a dst
  match rhs with
  | .imm value =>
    copyReg d l
    push (.aluImm (arithCode op) d value)
  | .temp t =>
    let r ← read a t scratch₂
    if r = d ∧ l ≠ d then fault .operandCollision
    copyReg d l
    push (.aluReg (arithCode op) d r)
  writeBack a dst d

def compare (a : Allocation) (op : CompareOp) (dst lhs : Temp) (rhs : Operand) : Emit Unit := do
  let l ← read a lhs scratch₁
  let test ← match rhs with
    | .imm value => pure (Slot.jumpImm (compareCode op) l value 2)
    | .temp t => do pure (Slot.jumpReg (compareCode op) l (← read a t scratch₂) 2)
  let d ← target a dst
  push test
  push (.movImm d 0)
  push (.jump 1)
  push (.movImm d 1)
  writeBack a dst d

def instruction (a : Allocation) : Instruction → Emit Unit
  | .imm dst value => do
    let d ← target a dst
    if value.toInt32.toInt64 = value then push (.movImm d value.toInt32)
    else pushAll (Slot.loadImm d value)
    writeBack a dst d
  | .arith op dst lhs rhs => arith a op dst lhs rhs
  | .compare op dst lhs rhs => compare a op dst lhs rhs
  | .move dst src => do
    let s ← read a src scratch₁
    let d ← target a dst
    copyReg d s
    writeBack a dst d
  | .load dst addr => do
    let d ← target a dst
    push (.load Opcode.double d Reg.frame (← offset addr))
    writeBack a dst d
  | .store src addr => do
    let s ← read a src scratch₁
    push (.store Opcode.double Reg.frame s (← offset addr))
  | .zero addr size => zero addr size
  | .bytes addr data => storeBytes addr data
  | .copy dest source size => copyBytes dest source size
  | .update map key value => mapUpdate map key value
  | .lookup map key value size => mapLookup map key value size
  | .call h dst => helper a dst h
  | .branch cond yes no => do
    let c ← read a cond scratch₁
    pushJump (.jumpImm Opcode.jne c 0 0) yes
    pushJump (.jump 0) no
  | .jump target => pushJump (.jump 0) target
  | .ret => do
    push (.movImm 0 0)
    push .exit

def instructions (a : Allocation) : List Instruction → Emit Unit
  | [] => return ()
  | i :: is => do
    instruction a i
    instructions a is

/-- The blocks in order, with the slot at which each begins. -/
def blocks (a : Allocation) (starts : Array Nat) : List Block → Emit (Array Nat)
  | [] => return starts
  | b :: bs => do
    let start := (← get).size
    instructions a b.code.toList
    blocks a (starts.push start) bs

/-- The context of the event is put where calls leave it alone. -/
def program (a : Allocation) (p : Program) : Emit (Array Nat) := do
  push (.movReg Reg.context 1)
  blocks a #[] p.blocks.toList

end

/-- Fills in the distance of a jump, which counts from the slot after it. -/
def aim (starts : Array Nat) (index : Nat) (d : Draft) : Except CodeError Slot :=
  match d.target with
  | none => .ok d.slot
  | some b =>
    match starts[b]? with
    | none => .error (.internal .missingBlock)
    | some start =>
      let distance : Int := start - index - 1
      if (Int16.ofInt distance).toInt = distance then
        .ok { d.slot with off := Int16.ofInt distance }
      else .error (.jumpRange distance)

/-- The code so far says at which slot the next draft stands. -/
def aimAll (starts : Array Nat) (drafts : Array Draft) : Except CodeError (Array Slot) :=
  drafts.foldlM (fun code d => return code.push (← aim starts code.size d)) #[]

end Emit

namespace Bytecode

/-- The slots of a program, with all distances filled in. -/
def slotsOf [Ceiling] (p : Flow.Program) (a : Flow.Allocation) : Except CodeError (Array Slot) :=
  match (Emit.program a p).run #[] with
  | .ok starts drafts => Emit.aimAll starts drafts
  | .error e _ => .error e

/-- The machine code of a program. Generation stops at the first slot beyond the limit. -/
def generate (p : Flow.Program) (a : Flow.Allocation) (stack limit : Nat) :
    Except CodeError Bytecode :=
  letI := Ceiling.ofLimit limit
  return { code := ← slotsOf p a, limit, stack }

/-- The number of jumps of a program to its blocks. -/
def jumps (p : Flow.Program) : Nat := (p.instructions.flatMap (·.targets)).length

def generatedNote (p : Flow.Program) (b : Bytecode) : Note :=
  .bytecodeGenerated p.name b.code.size (jumps p)

end Bytecode

end TraceScript

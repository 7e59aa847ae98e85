import TraceScript.Bytecode.Slot
import TraceScript.Text.Lines

/-!
Machine code as text, one instruction on a line after the number of its slot.
-/
namespace TraceScript

namespace Slot

def widthSuffix (code : UInt8) : String :=
  let width := code &&& 0x18
  if width = Opcode.word then "w"
  else if width = Opcode.half then "h"
  else if width = Opcode.byte then "b"
  else "dw"

def arithNames : List (UInt8 × String) :=
  [(Opcode.add, "add"), (Opcode.sub, "sub"), (Opcode.mul, "mul"), (Opcode.div, "div"),
    (Opcode.or, "or"), (Opcode.and, "and"), (Opcode.lsh, "lsh"), (Opcode.rsh, "rsh"),
    (Opcode.mod, "mod"), (Opcode.xor, "xor"), (Opcode.mov, "mov")]

def jumpNames : List (UInt8 × String) :=
  [(Opcode.ja, "ja"), (Opcode.jeq, "jeq"), (Opcode.jne, "jne"), (Opcode.jsgt, "jsgt"),
    (Opcode.jsge, "jsge"), (Opcode.jslt, "jslt"), (Opcode.jsle, "jsle")]

def renderMem (reg : UInt8) (off : Int16) : String :=
  s!"[r{reg.toNat}{Text.signed off.toInt}]"

/-- Whether the right operand is a register. -/
def fromReg (s : Slot) : Bool := s.code &&& Opcode.fromReg != 0

def rightOperand (s : Slot) : String :=
  if s.fromReg then s!"r{s.src.toNat}" else toString s.imm.toInt

def renderJump (s : Slot) : String :=
  if s.operation = Opcode.call then s!"call {s.imm.toInt}"
  else if s.operation = Opcode.exit then "exit"
  else if s.operation = Opcode.ja then s!"ja {Text.signed s.off.toInt}"
  else
    let name := (jumpNames.lookup s.operation).getD "jmp?"
    s!"{name} r{s.dst.toNat}, {s.rightOperand}, {Text.signed s.off.toInt}"

def renderArith (s : Slot) : String :=
  let name := (arithNames.lookup s.operation).getD "alu?"
  let width := if s.opClass = Opcode.alu then "32" else ""
  s!"{name}{width} r{s.dst.toNat}, {s.rightOperand}"

def renderWide (dst : UInt8) (value : Nat) : String := s!"lddw r{dst.toNat}, 0x{Text.hex value}"

/-- A slot that begins no instruction, by its opcode and immediate. -/
def renderRaw (s : Slot) : String :=
  let digits := Text.hex s.code.toNat
  let digits := if digits.length < 2 then "0" ++ digits else digits
  s!".slot 0x{digits}, {s.imm.toInt}"

/-- A slot by itself. -/
def render (s : Slot) : String :=
  let width := widthSuffix s.code
  if s.opClass = Opcode.alu64 ∨ s.opClass = Opcode.alu then s.renderArith
  else if s.opClass = Opcode.ldx then s!"ldx{width} r{s.dst.toNat}, {renderMem s.src s.off}"
  else if s.opClass = Opcode.stx then s!"stx{width} {renderMem s.dst s.off}, r{s.src.toNat}"
  else if s.opClass = Opcode.st then s!"st{width} {renderMem s.dst s.off}, {s.imm.toInt}"
  else if s.opClass = Opcode.ld ∧ s.src = mapMark then
    s!"lddw r{s.dst.toNat}, map {s.imm.toInt}"
  else if s.isWide then renderWide s.dst s.imm.toUInt32.toNat
  else if s.opClass = Opcode.jmp then s.renderJump
  else s.renderRaw

end Slot

namespace Listing

def line (index : Nat) (text : String) : String :=
  s!"{Text.alignRight 4 (toString index)}: {text}\n"

/-- The two slots of a 64-bit immediate are one line. -/
def lines (index : Nat) : List Slot → List String
  | [] => []
  | [s] => [line index s.render]
  | s :: upper :: rest =>
    if s.isWide then
      let value := upper.imm.toUInt32.toNat * UInt32.size + s.imm.toUInt32.toNat
      let text := if s.src = Slot.mapMark then s.render else Slot.renderWide s.dst value
      line index text :: lines (index + 2) rest
    else line index s.render :: lines (index + 1) (upper :: rest)

end Listing

def disassemble (code : List Slot) : String := String.join (Listing.lines 0 code)

end TraceScript

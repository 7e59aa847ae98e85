import TraceScript.Bytes

/-!
Machine code. An instruction takes a slot of eight bytes: the opcode, the two registers, an offset
of 16 bits and an immediate of 32 bits. A 64-bit immediate takes a second slot for its upper half.
-/
namespace TraceScript

/-- The machine's registers. -/
abbrev Reg := Fin 11

namespace Reg

instance : @NeZero Nat Zero.ofOfNat0 11 := ⟨by decide⟩

/-- Keeps the context of the event through calls. -/
def context : Reg := 9

/-- Points to the end of the frame and cannot be written. -/
def frame : Reg := 10

def number (r : Reg) : UInt8 := UInt8.ofNat r.val

def render (r : Reg) : String := s!"r{r.val}"

end Reg

namespace Opcode

def ld : UInt8 := 0x00
def ldx : UInt8 := 0x01
def st : UInt8 := 0x02
def stx : UInt8 := 0x03
def alu : UInt8 := 0x04
def jmp : UInt8 := 0x05
def alu64 : UInt8 := 0x07

def add : UInt8 := 0x00
def sub : UInt8 := 0x10
def mul : UInt8 := 0x20
def div : UInt8 := 0x30
def or : UInt8 := 0x40
def and : UInt8 := 0x50
def lsh : UInt8 := 0x60
def rsh : UInt8 := 0x70
def mod : UInt8 := 0x90
def xor : UInt8 := 0xa0
def mov : UInt8 := 0xb0

def ja : UInt8 := 0x00
def jeq : UInt8 := 0x10
def jne : UInt8 := 0x50
def jsgt : UInt8 := 0x60
def jsge : UInt8 := 0x70
def call : UInt8 := 0x80
def exit : UInt8 := 0x90
def jslt : UInt8 := 0xc0
def jsle : UInt8 := 0xd0

def word : UInt8 := 0x00
def half : UInt8 := 0x08
def byte : UInt8 := 0x10
def double : UInt8 := 0x18

/-- Memory at a register and an offset. -/
def mem : UInt8 := 0x60

/-- The right operand is a register. -/
def fromReg : UInt8 := 0x08

end Opcode

/-! The functions of the kernel, by number. -/

namespace KernelFunction

def mapLookup : Int32 := 1
def mapUpdate : Int32 := 2
def probeRead : Int32 := 4
def time : Int32 := 5
def processor : Int32 := 8
def pidTgid : Int32 := 14
def comm : Int32 := 16
def eventOutput : Int32 := 25

end KernelFunction

structure Slot where
  code : UInt8
  dst : UInt8
  src : UInt8
  off : Int16
  imm : Int32
deriving DecidableEq, Inhabited

namespace Slot

def ofRegs (code : UInt8) (dst src : Reg) (off : Int16) (imm : Int32) : Slot :=
  ⟨code, dst.number, src.number, off, imm⟩

def aluImm (op : UInt8) (dst : Reg) (imm : Int32) : Slot :=
  ofRegs (Opcode.alu64 ||| op) dst 0 0 imm

def aluReg (op : UInt8) (dst src : Reg) : Slot :=
  ofRegs (Opcode.alu64 ||| op ||| Opcode.fromReg) dst src 0 0

def movImm (dst : Reg) (imm : Int32) : Slot := aluImm Opcode.mov dst imm

def movReg (dst src : Reg) : Slot := aluReg Opcode.mov dst src

/-- Moves the lower half and clears the upper. -/
def mov32Reg (dst src : Reg) : Slot :=
  ofRegs (Opcode.alu ||| Opcode.mov ||| Opcode.fromReg) dst src 0 0

/-- The opcode of the first slot of a 64-bit immediate. -/
def wideCode : UInt8 := Opcode.ld ||| Opcode.double

/-- Marks an immediate as the descriptor of a map. -/
def mapMark : UInt8 := 1

def upperHalf (value : Int64) : Slot := ⟨0, 0, 0, 0, (value >>> 32).toInt32⟩

def loadImm (dst : Reg) (value : Int64) : List Slot :=
  [ofRegs wideCode dst 0 0 value.toInt32, upperHalf value]

def loadMap (dst : Reg) (fd : Int32) : List Slot :=
  [⟨wideCode, dst.number, mapMark, 0, fd⟩, upperHalf fd.toInt64]

def load (width : UInt8) (dst src : Reg) (off : Int16) : Slot :=
  ofRegs (Opcode.ldx ||| width ||| Opcode.mem) dst src off 0

def store (width : UInt8) (dst src : Reg) (off : Int16) : Slot :=
  ofRegs (Opcode.stx ||| width ||| Opcode.mem) dst src off 0

def storeImm (width : UInt8) (dst : Reg) (off : Int16) (imm : Int32) : Slot :=
  ofRegs (Opcode.st ||| width ||| Opcode.mem) dst 0 off imm

def jump (off : Int16) : Slot := ofRegs (Opcode.jmp ||| Opcode.ja) 0 0 off 0

def jumpImm (op : UInt8) (dst : Reg) (imm : Int32) (off : Int16) : Slot :=
  ofRegs (Opcode.jmp ||| op) dst 0 off imm

def jumpReg (op : UInt8) (dst src : Reg) (off : Int16) : Slot :=
  ofRegs (Opcode.jmp ||| op ||| Opcode.fromReg) dst src off 0

def call (function : Int32) : Slot := ofRegs (Opcode.jmp ||| Opcode.call) 0 0 0 function

def exit : Slot := ofRegs (Opcode.jmp ||| Opcode.exit) 0 0 0 0

def opClass (s : Slot) : UInt8 := s.code &&& 0x07

/-- The operation of an arithmetic instruction or a jump. -/
def operation (s : Slot) : UInt8 := s.code &&& 0xf0

def isWide (s : Slot) : Bool := s.code == wideCode

def isJump (s : Slot) : Bool :=
  s.opClass == Opcode.jmp && s.operation != Opcode.call && s.operation != Opcode.exit

/-- Eight bytes; a register takes half of one. -/
def encode (s : Slot) : List UInt8 :=
  [s.code, s.dst % 16 + s.src % 16 * 16] ++
    Bytes.ofNat 2 s.off.toUInt16.toNat ++ Bytes.ofNat 4 s.imm.toUInt32.toNat

end Slot

end TraceScript

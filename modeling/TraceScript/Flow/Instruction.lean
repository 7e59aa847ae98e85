import TraceScript.Kernel.Descriptor
import TraceScript.Operator
import TraceScript.Script.Builtin
import TraceScript.Text.Lines
import TraceScript.Text.Quoted
import TraceScript.Text.Utf8

/-!
Instructions on temporaries. There is no limit to the number of temporaries; addresses are relative
to the frame pointer.
-/
namespace TraceScript

abbrev Temp := Nat

abbrev BlockId := Nat

namespace Flow

def renderTemp (t : Temp) : String := s!"%{t}"

def renderBlock (b : BlockId) : String := s!"b{b}"

def renderAddr (addr : Int) : String := s!"fp{Text.signed addr}"

inductive Operand where
  | temp (t : Temp)
  | imm (value : Int32)
deriving DecidableEq, Inhabited

namespace Operand

def render : Operand → String
  | temp t => renderTemp t
  | imm value => toString value.toInt

def temps : Operand → List Temp
  | temp t => [t]
  | imm _ => []

end Operand

/-- A service of the kernel that an instruction calls. -/
inductive Helper where
  | pid
  | tid
  | cpu
  | ns
  | arg (n : UInt8)
  /-- Writes the name of the process into a region. -/
  | comm (addr : Int) (size : Nat)
  /-- Compares two regions that are filled up with zeros. -/
  | strcmp (lhs rhs : Int) (size : Nat)
  /-- Sends a region to the channel of events. -/
  | out (addr : Int) (size : Nat) (channel : MapId)
deriving DecidableEq, Inhabited

namespace Helper

def builtin : Helper → Builtin
  | pid => .pid
  | tid => .tid
  | cpu => .cpu
  | ns => .ns
  | arg _ => .arg
  | comm .. => .comm
  | strcmp .. => .strcmp
  | out .. => .out

def renderArguments : Helper → String
  | arg n => s!"({n.toNat})"
  | comm addr size => s!" [{renderAddr addr}; {size}]"
  | strcmp lhs rhs size => s!" [{renderAddr lhs}], [{renderAddr rhs}]; {size}"
  | out addr size channel => s!" [{renderAddr addr}; {size}] -> map {channel.render}"
  | _ => ""

end Helper

inductive Instruction where
  | imm (dst : Temp) (value : Int64)
  | arith (op : ArithOp) (dst lhs : Temp) (rhs : Operand)
  /-- One if the comparison holds and zero otherwise. -/
  | compare (op : CompareOp) (dst lhs : Temp) (rhs : Operand)
  | move (dst src : Temp)
  /-- Eight bytes from an address. -/
  | load (dst : Temp) (addr : Int)
  | store (src : Temp) (addr : Int)
  | zero (addr : Int) (size : Nat)
  | bytes (addr : Int) (data : List UInt8)
  | copy (dest source : Int) (size : Nat)
  /-- Puts a value under a key. -/
  | update (map : MapId) (key value : Int)
  /-- Copies the value under a key; without one the destination stays as it is. -/
  | lookup (map : MapId) (key value : Int) (size : Nat)
  | call (helper : Helper) (dst : Option Temp)
  /-- Goes to the first block if the temporary is not zero, else to the second. -/
  | branch (cond : Temp) (yes no : BlockId)
  | jump (target : BlockId)
  | ret
deriving DecidableEq, Inhabited

namespace Instruction

/-- The temporary that an instruction gives a value. -/
def def? : Instruction → Option Temp
  | imm dst _ | arith _ dst .. | compare _ dst .. | move dst _ | load dst _ => some dst
  | call _ dst => dst
  | _ => none

/-- The temporaries that an instruction reads. -/
def uses : Instruction → List Temp
  | arith _ _ lhs rhs | compare _ _ lhs rhs => lhs :: rhs.temps
  | move _ src | store src _ => [src]
  | branch cond .. => [cond]
  | _ => []

/-- The blocks that an instruction may go to. -/
def targets : Instruction → List BlockId
  | branch _ yes no => [yes, no]
  | jump target => [target]
  | _ => []

def render : Instruction → String
  | imm dst value => s!"{renderTemp dst} = {value.toInt}"
  | arith op dst lhs rhs =>
    s!"{renderTemp dst} = {renderTemp lhs} {op.symbol} {rhs.render}"
  | compare op dst lhs rhs =>
    s!"{renderTemp dst} = {renderTemp lhs} {op.symbol} {rhs.render}"
  | move dst src => s!"{renderTemp dst} = {renderTemp src}"
  | load dst addr => s!"{renderTemp dst} = [{renderAddr addr}]"
  | store src addr => s!"[{renderAddr addr}] = {renderTemp src}"
  | zero addr size => s!"zero [{renderAddr addr}; {size}]"
  | bytes addr data =>
    s!"[{renderAddr addr}; {data.length}] = {Text.quote (Text.ofUtf8Lossy data)}"
  | copy dest source size => s!"copy [{renderAddr dest}] <- [{renderAddr source}]; {size}"
  | update map key value =>
    s!"update map {map.render} [{renderAddr key}] <- [{renderAddr value}]"
  | lookup map key value size =>
    s!"lookup map {map.render} [{renderAddr key}] -> [{renderAddr value}; {size}]"
  | call helper dst =>
    let result := match dst with
      | some dst => s!"{renderTemp dst} = "
      | none => ""
    s!"{result}call {helper.builtin.spelling}{helper.renderArguments}"
  | branch cond yes no => s!"br {renderTemp cond}, {renderBlock yes}, {renderBlock no}"
  | jump target => s!"jmp {renderBlock target}"
  | ret => "ret"

end Instruction

end Flow

end TraceScript

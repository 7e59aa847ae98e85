import TraceScript.Name

/-!
Errors in building a program for a probe.
-/
namespace TraceScript

/-- A state that no script leads to, only a tree or a program made by hand. -/
inductive Fault where
  | noStackLocation
  | expressionStatement
  | declarationTarget
  | assignmentTarget
  | noCallValue
  | notInteger
  | unplaceable
  | unknownBuiltin
  | argNotConstant
  | strcmpArguments
  | unpackedOutput
  | formatNotLiteral
  | badFormat
  | noHome
  | operandCollision
  | missingBlock
deriving DecidableEq, Inhabited

namespace Fault

def message : Fault → String
  | noStackLocation => "value was not assigned a stack location"
  | expressionStatement => "expression used as a statement"
  | declarationTarget => "unsupported declaration target"
  | assignmentTarget => "unsupported assignment target"
  | noCallValue => "call produces no value"
  | notInteger => "not an integer expression"
  | unplaceable => "value cannot be placed on the stack"
  | unknownBuiltin => "unknown builtin"
  | argNotConstant => "argument index is not a constant"
  | strcmpArguments => "strcmp takes two arguments"
  | unpackedOutput => "out() arguments were not packed"
  | formatNotLiteral => "out() format is not a literal"
  | badFormat => "invalid format string"
  | noHome => "virtual register has no home"
  | operandCollision => "ALU operand collides with its destination"
  | missingBlock => "jump to a block that was never emitted"

end Fault

inductive CodeError where
  | tooLong (limit : Nat)
  | unboundMap (name : Name)
  | noEventChannel
  | stackOffset (addr : Int)
  | jumpRange (distance : Int)
  | internal (fault : Fault)
deriving DecidableEq, Inhabited

namespace CodeError

def message : CodeError → String
  | tooLong limit => s!"Program exceeds the limit of {limit} instructions"
  | unboundMap name => s!"Map `{name.text}` has no kernel descriptor"
  | noEventChannel => "out() requires an event channel, but none was created"
  | stackOffset addr => s!"Stack offset {addr} does not fit in an instruction"
  | jumpRange distance => s!"Jump distance {distance} does not fit in an instruction"
  | internal fault => s!"Internal compiler error: {fault.message}"

end CodeError

end TraceScript

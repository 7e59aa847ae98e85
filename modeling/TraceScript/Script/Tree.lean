import TraceScript.Name
import TraceScript.Operator
import TraceScript.Script.Shape
import TraceScript.Source.Position

/-!
Script trees. Statements and expressions are nodes of one kind; which of them may stand where is
for the typing rules to say.
-/
namespace TraceScript

/-- What a node carries beside its contents. -/
structure Tag where
  span : Span
  facts : Facts := {}
deriving DecidableEq, Inhabited

inductive Node where
  | declaration (tag : Tag) (target value : Node)
  | assignment (tag : Tag) (op : ArithOp) (target value : Node)
  | var (tag : Tag) (name : Name)
  | mapAccess (tag : Tag) (map : Name) (keys : List Node)
  | int (tag : Tag) (value : Int64)
  | text (tag : Tag) (value : String)
  | call (tag : Tag) (function : Name) (args : List Node)
  | binary (tag : Tag) (op : BinaryOp) (lhs rhs : Node)
  | cond (tag : Tag) (condition : Node) (yes no : List Node)
  | unroll (tag : Tag) (count : Nat) (body : List Node)
  /-- Values packed one after another, as the arguments of an event are. -/
  | record (tag : Tag) (members : List Node)
deriving Inhabited

namespace Node

def tag : Node → Tag
  | declaration t .. | assignment t .. | var t .. | mapAccess t .. | int t .. | text t ..
  | call t .. | binary t .. | cond t .. | unroll t .. | record t .. => t

def withTag (t : Tag) : Node → Node
  | declaration _ target value => declaration t target value
  | assignment _ op target value => assignment t op target value
  | var _ name => var t name
  | mapAccess _ map keys => mapAccess t map keys
  | int _ value => int t value
  | text _ value => text t value
  | call _ function args => call t function args
  | binary _ op lhs rhs => binary t op lhs rhs
  | cond _ condition yes no => cond t condition yes no
  | unroll _ count body => unroll t count body
  | record _ members => record t members

def span (n : Node) : Span := n.tag.span

def facts (n : Node) : Facts := n.tag.facts

@[simp] theorem tag_withTag (t : Tag) (n : Node) : (n.withTag t).tag = t := by
  cases n <;> rfl

/-- The bytes that a value takes when it is packed with others. -/
def packedSize (n : Node) : Nat := align8 n.facts.size

end Node

/-- A probe: the statements that run at one trace event. -/
structure Probe where
  name : Located String
  body : List Node
deriving Inhabited

end TraceScript

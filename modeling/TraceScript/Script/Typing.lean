import TraceScript.Event.Format
import TraceScript.Note
import TraceScript.Script.Builtin
import TraceScript.Script.Tree
import TraceScript.Symbol.Table

/-!
Types of a script. A name is declared where it is first given a value, and takes that value's
shape. A map that is first seen in a compound assignment is assumed to hold integers until a
declaration says otherwise.
-/
namespace TraceScript

inductive SemanticError where
  | undeclaredSymbol (name : Name)
  | typeMismatch (expected found : Shape)
  | keySizeMismatch (map : Name) (expected found : Nat)
  | unsupportedTarget
  | unknownFunction (name : Name)
  | argumentCount (function : Builtin) (found : Nat)
  | expectedConstant (max : Nat)
  | expectedString (found : Shape)
  | expectedFormat
  | badConversion (c : Char)
  | formatArguments (expected found : Nat)
  | noValue (function : Builtin)
  | expectedMap (name : Name)
  | expectedVariable (name : Name)
  | notAnExpression
deriving DecidableEq, Inhabited

namespace SemanticError

def message : SemanticError → String
  | undeclaredSymbol name => s!"Symbol `{name.text}` is undeclared"
  | typeMismatch expected found =>
    s!"Type mismatch: expected `{expected.render}`, found `{found.render}`"
  | keySizeMismatch map expected found =>
    s!"Map `{map.text}` is keyed by {expected} bytes, found a {found}-byte key"
  | unsupportedTarget => "Only variables and map entries can be assigned to"
  | unknownFunction name => s!"Unknown function `{name.text}`"
  | argumentCount function found =>
    s!"Function `{function.spelling}` expects {function.arity.render} argument(s), found {found}"
  | expectedConstant max => s!"Expected an integer constant in range [0, {max})"
  | expectedString found => s!"Expected a string, found `{found.render}`"
  | expectedFormat => "The first argument to `out` must be a format string literal"
  | badConversion c => s!"Unknown conversion `%{c}` in format string"
  | formatArguments expected found =>
    s!"Format string expects {expected} argument(s), found {found}"
  | noValue function => s!"Function `{function.spelling}` does not produce a value"
  | expectedMap name => s!"`{name.text}` is a variable, not a map"
  | expectedVariable name => s!"`{name.text}` is a map and must be indexed"
  | notAnExpression => "This is not an expression"

end SemanticError

namespace Facts

/-- If exactly one side has a shape the other takes it; two shapes must be equal. -/
def unify (left right : Facts) : Except SemanticError (Facts × Facts) :=
  match left.shape, right.shape with
  | some expected, some found =>
    if expected = found then .ok (left, right) else .error (.typeMismatch expected found)
  | some shape, none => .ok (left, right.withShape shape)
  | none, some shape => .ok (left.withShape shape, right)
  | none, none => .ok (left, right)

end Facts

structure Typing where
  table : Table := {}
  notes : Array Note := #[]

/-- Work on the symbols of a probe, which stops at the first error. -/
abbrev Annotate := EStateM (Located SemanticError) Typing

namespace Annotate

def fail {α : Type} (e : SemanticError) (span : Span) : Annotate α := throw ⟨e, span⟩

def note (n : Note) : Annotate Unit := modify fun s => { s with notes := s.notes.push n }

def table : Annotate Table := return (← get).table

def modifyTable (f : Table → Table) : Annotate Unit :=
  modify fun s => { s with table := f s.table }

def modifySymbol (i : Nat) (f : Symbol → Symbol) : Annotate Unit :=
  modifyTable (·.modify i f)

/-- Adds a symbol and gives its index. -/
def declare (n : Note) (add : Table → Nat × Table) : Annotate Nat := do
  note n
  let (i, t) := add (← table)
  modifyTable fun _ => t
  return i

def symbol (i : Nat) : Annotate Symbol := return (← table).symbols.getD i default

def shapeOf (n : Node) : Annotate Shape :=
  match n.facts.shape with
  | some shape => pure shape
  | none => fail .notAnExpression n.span

def expectInt (n : Node) : Annotate Unit := do
  let found ← shapeOf n
  if found ≠ .int then fail (.typeMismatch .int found) n.span

/-- The variable of a name, declared here if it may be. -/
def variableIndex (name : Name) (span : Span) (mayDeclare : Bool) : Annotate Nat := do
  match (← table).lookup name with
  | some i => if (← symbol i).kind = .var then return i else fail (.expectedVariable name) span
  | none =>
    if mayDeclare then declare (.declaredVariable name) (·.declareVariable name)
    else fail (.undeclaredSymbol name) span

/-- The first access to a map fixes the size of its keys. -/
def checkKeySize (name : Name) (keySize : Nat) (span : Span) (i : Nat) : Annotate Unit := do
  let slot := (← symbol i).map.getD {}
  if slot.keySize = 0 then modifySymbol i fun s => { s with map := some { slot with keySize } }
  else if slot.keySize ≠ keySize then fail (.keySizeMismatch name slot.keySize keySize) span

/-- The map of a name, declared here if it may be. -/
def mapIndex (name : Name) (keySize : Nat) (span : Span) (mayDeclare : Bool) : Annotate Nat := do
  let i ← match (← table).lookup name with
    | some i => if (← symbol i).kind = .map then pure i else fail (.expectedMap name) span
    | none =>
      if mayDeclare then declare (.declaredMap name keySize) (·.declareMap name)
      else fail (.undeclaredSymbol name) span
  checkKeySize name keySize span i
  return i

def declaredShape (i : Nat) (name : Name) (span : Span) : Annotate Shape := do
  match (← symbol i).facts.shape with
  | some shape => return shape
  | none => fail (.undeclaredSymbol name) span

/-- The function of a name, if it takes this number of arguments. -/
def builtin (name : Name) (count : Nat) (span : Span) : Annotate Builtin :=
  match Builtin.ofName? name with
  | none => fail (.unknownFunction name) span
  | some b => if b.arity.accepts count then pure b else fail (.argumentCount b count) span

/-- An event's argument is chosen by a constant. -/
def argIndex : Node → Annotate Node
  | .int tag value =>
    if 0 ≤ value.toInt ∧ value.toInt < Builtin.maxArgs then
      return .int { tag with facts := .ofShape .int .register } value
    else fail (.expectedConstant Builtin.maxArgs) tag.span
  | n => fail (.expectedConstant Builtin.maxArgs) n.span

def packedSize (ns : List Node) : Nat := (ns.map Node.packedSize).foldr (· + ·) 0

/-- New facts keep the address and the map that a node already has. -/
def retag (tag : Tag) (a : Facts) : Tag :=
  { tag with facts := { a with addr := tag.facts.addr, map := tag.facts.map } }

def notRecord (shape : Shape) : Except SemanticError Unit :=
  if shape.type = .record then .error (.expectedString shape) else .ok ()

def isString (shape : Shape) : Except SemanticError Unit :=
  if shape.type = .str then .ok () else .error (.expectedString shape)

def orFail {α : Type} (span : Span) : Except SemanticError α → Annotate α
  | .ok a => pure a
  | .error e => fail e span

mutual

def expression : Node → Annotate Node
  | .int tag value => return .int (retag tag (.ofShape .int .register)) value
  | .text tag value =>
    let shape : Shape := ⟨.str, align8 ((Text.utf8 value).length + 1)⟩
    return .text (retag tag (.ofShape shape .stack)) value
  | .var tag name => do
    let i ← variableIndex name tag.span false
    let shape ← declaredShape i name tag.span
    return .var (retag tag (.ofShape shape .stack)) name
  | .mapAccess tag map keys => do
    let keys ← expressions notRecord keys
    let i ← mapIndex map (packedSize keys) tag.span false
    let shape ← declaredShape i map tag.span
    return .mapAccess (retag tag (.ofShape shape .stack)) map keys
  | .binary tag op lhs rhs => do
    let lhs ← expression lhs
    let rhs ← expression rhs
    expectInt lhs
    expectInt rhs
    return .binary (retag tag (.ofShape .int .register)) op lhs rhs
  | .call tag function args => do
    let b ← builtin function args.length tag.span
    let args ← match b with
      | .arg => args.mapM argIndex
      | .strcmp => expressions isString args
      | _ => pure args
    match b.result with
    | some (shape, storage) => return .call (retag tag (.ofShape shape storage)) function args
    | none => fail (.noValue b) tag.span
  | .record tag members => do
    let members ← expressions (fun _ => .ok ()) members
    let shape : Shape := ⟨.record, max (packedSize members) 8⟩
    return .record (retag tag (.ofShape shape .stack)) members
  | n => fail .notAnExpression n.span

/-- Expressions in order, each with a condition on its shape. -/
def expressions (check : Shape → Except SemanticError Unit) : List Node → Annotate (List Node)
  | [] => return []
  | n :: ns => do
    let n ← expression n
    orFail n.span (check (← shapeOf n))
    let ns ← expressions check ns
    return n :: ns

end

/-- The shape that a conversion wanted in place of one it does not accept. -/
def wanted (found : Shape) : Shape :=
  if found.type = .int then ⟨.str, found.size⟩ else .int

def checkConversions : List Conversion → List Node → Annotate Unit
  | c :: cs, n :: ns => do
    let found ← shapeOf n
    if c.accepts found.type then checkConversions cs ns
    else fail (.typeMismatch (wanted found) found) n.span
  | _, _ => return ()

/-- The values of an event are packed into one record, unless they already are. -/
def pack (span : Span) : List Node → Node
  | [.record tag members] => .record tag members
  | members =>
    let recordSpan := match members.head?, members.getLast? with
      | some first, some last => first.span.join last.span
      | _, _ => span
    .record { span := recordSpan } members

def members : Node → List Node
  | .record _ ms => ms
  | _ => []

/-- The arguments of an event: its format and the record of its values. -/
def output (span : Span) (args : List Node) : Annotate (List Node) := do
  match args with
  | [] => fail .expectedFormat span
  | .text tag format :: values =>
    match conversions format with
    | .error c => fail (.badConversion c) tag.span
    | .ok cs =>
      let record ← expression (pack span values)
      let found := (members record).length
      if cs.length ≠ found then fail (.formatArguments cs.length found) record.span
      checkConversions cs (members record)
      modifyTable Table.requestEvents
      return [.text tag format, record]
  | format :: _ => fail .expectedFormat format.span

/-- A call for its effect alone. -/
def callStatement (tag : Tag) (function : Name) (args : List Node) : Annotate Node := do
  let b ← builtin function args.length tag.span
  if b = .out then
    let args ← output tag.span args
    return .call { tag with facts := {} } function args
  else expression (.call { tag with facts := {} } function args)

/-- Gives a symbol the shape of the value declared for it. -/
def bindValue (i : Nat) (value : Node) : Annotate Node := do
  let s ← symbol i
  let (left, right) ← orFail value.span (s.facts.unify value.facts)
  modifySymbol i fun s => { s with facts := { left with storage := .stack } }
  return value.withTag { value.tag with facts := right }

/-- Gives a map whose values were only assumed to be integers the shape that is declared. -/
def refine (i : Nat) (map : Name) (shape : Shape) : Annotate Unit := do
  let s ← symbol i
  if s.facts.shape ≠ some shape then note (.refinedValue map shape)
  modifySymbol i fun s =>
    { s with
      facts := { s.facts.withShape shape with storage := .stack }
      map := s.map.map fun slot => { slot with provisional := false } }

def declaration (tag : Tag) (target value : Node) : Annotate Node := do
  let value ← expression value
  let shape ← shapeOf value
  let stacked (t : Tag) : Tag := { t with facts := .ofShape shape .stack }
  match target with
  | .var t name =>
    let i ← variableIndex name t.span true
    let value ← bindValue i value
    return .declaration tag (.var (stacked t) name) value
  | .mapAccess t map keys =>
    let keys ← expressions notRecord keys
    let i ← mapIndex map (packedSize keys) t.span true
    let provisional := (← symbol i).map.any MapSlot.provisional
    let value ← if provisional then do refine i map shape; pure value else bindValue i value
    return .declaration tag (.mapAccess (stacked t) map keys) value
  | t => fail .unsupportedTarget t.span

/-- A map that has no shape yet is assumed to hold integers. -/
def assumeInt (i : Nat) : Annotate Unit := do
  let s ← symbol i
  if s.facts.shape.isNone then
    modifySymbol i fun s =>
      { s with
        facts := .ofShape .int .stack
        map := s.map.map fun slot => { slot with provisional := true } }
    note (.provisionalValue s.name)

def expectIntSymbol (i : Nat) (span : Span) : Annotate Unit := do
  let found := (← symbol i).facts.shape.getD .int
  if found ≠ .int then fail (.typeMismatch .int found) span

def assignment (tag : Tag) (op : ArithOp) (target value : Node) : Annotate Node := do
  let value ← expression value
  expectInt value
  let stacked (t : Tag) : Tag := { t with facts := .ofShape .int .stack }
  match target with
  | .var t name =>
    let i ← variableIndex name t.span false
    assumeInt i
    expectIntSymbol i t.span
    return .assignment tag op (.var (stacked t) name) value
  | .mapAccess t map keys =>
    let keys ← expressions notRecord keys
    let i ← mapIndex map (packedSize keys) t.span true
    assumeInt i
    expectIntSymbol i t.span
    return .assignment tag op (.mapAccess (stacked t) map keys) value
  | t => fail .unsupportedTarget t.span

mutual

def statement : Node → Annotate Node
  | .declaration tag target value => declaration tag target value
  | .assignment tag op target value => assignment tag op target value
  | .cond tag condition yes no => do
    let condition ← expression condition
    expectInt condition
    let yes ← statements yes
    let no ← statements no
    return .cond tag condition yes no
  | .unroll tag count body => do
    let body ← statements body
    return .unroll tag count body
  | .call tag function args => callStatement tag function args
  | n => expression n

def statements : List Node → Annotate (List Node)
  | [] => return []
  | n :: ns => do
    let n ← statement n
    let ns ← statements ns
    return n :: ns

end

end Annotate

namespace Probe

/-- Types every node of a probe and adds its names to the table. -/
def annotate (p : Probe) : Annotate Probe := do
  let body ← Annotate.statements p.body
  let t ← Annotate.table
  Annotate.note (.annotationComplete t.symbols.size t.needsEvents)
  return { p with body }

end Probe

end TraceScript

import TraceScript.Script.Tree
import TraceScript.Token.Basic

/-!
Reading probes from tokens. One token decides each step, so the first token that does not fit is
the error. Every rule returns a cursor that is further on, which is why reading ends.
-/
namespace TraceScript

inductive SyntaxError where
  | unexpectedToken (expected found : Token)
  | missingToken (expected : Token)
  | expectedProbe
  | expectedStatement
  | expectedExpr
  | badRepetitionCount
  | unexpectedEnd
deriving DecidableEq, Inhabited

/-- The largest number of repetitions that a script can ask for. -/
def maxCount : Nat := UInt32.size - 1

namespace SyntaxError

def message : SyntaxError → String
  | unexpectedToken expected found =>
    s!"Expected {expected.describe}, found {found.describe} instead"
  | missingToken expected => s!"Expected {expected.describe}, none was found instead"
  | expectedProbe => "Expected `probe` followed by a name"
  | expectedStatement => "Expected any of `if`, `unroll`, declaration, assignment or call"
  | expectedExpr => "Expected an expression"
  | badRepetitionCount => s!"Expected a repetition count between 0 and {maxCount}"
  | unexpectedEnd => "Abrupt end of program"

end SyntaxError

/-- The tokens that are left and the span of the one read last. -/
structure Cursor where
  rest : List (Located Token)
  last : Span

namespace Cursor

/-- A cursor that is further on. -/
abbrev After (c : Cursor) := { d : Cursor // d.rest.length < c.rest.length }

/-- A cursor that is further on or at the same place. -/
abbrev From (c : Cursor) := { d : Cursor // d.rest.length ≤ c.rest.length }

abbrev Outcome := Except (Located SyntaxError)

def peek (c : Cursor) : Option Token := c.rest.head?.map Located.value

/-- Whether a given token is next. -/
def sees (c : Cursor) (token : Token) : Bool := c.peek == some token

def next (c : Cursor) : Outcome (Located Token × After c) :=
  match h : c.rest with
  | [] => .error ⟨.unexpectedEnd, c.last⟩
  | t :: ts => .ok (t, ⟨⟨ts, t.span⟩, by simp [h]⟩)

/-- Reads one given token. -/
def expect (token : Token) (c : Cursor) : Outcome (After c) :=
  match h : c.rest with
  | [] => .error ⟨.missingToken token, c.last⟩
  | t :: ts =>
    if t.value = token then .ok ⟨⟨ts, t.span⟩, by simp [h]⟩
    else .error ⟨.unexpectedToken token t.value, t.span⟩

end Cursor

namespace BinaryOp

/-- How tightly an operator binds: comparisons least, products most. -/
def level : BinaryOp → Nat
  | compare _ => 0
  | arith .or => 1
  | arith .xor => 2
  | arith .and => 3
  | arith .lsh | arith .rsh => 4
  | arith .add | arith .sub => 5
  | arith .mul | arith .div | arith .mod => 6

/-- The number of levels. -/
def levels : Nat := 7

end BinaryOp

namespace Token

def binaryOp? : Token → Option BinaryOp
  | arith op => some (.arith op)
  | compare op => some (.compare op)
  | _ => none

def startsExpr : Token → Bool
  | int _ | text _ | openParen | name _ => true
  | arith op => op = .sub
  | keyword _ | assign | update _ | compare _ | comma | semicolon | closeParen | openBracket
  | closeBracket | openBrace | closeBrace => false

end Token

namespace Node

open Cursor

/-- A minus before an integer is part of the integer; before anything else it subtracts from
zero. -/
def negate (minus : Span) (operand : Node) : Node :=
  let tag : Tag := { span := minus.join operand.span }
  match operand with
  | .int _ value => .int tag (-value)
  | _ => .binary tag (.arith .sub) (.int tag 0) operand

/-- What the first token of an operand says about the rest of it. -/
inductive Opening where
  | literal (n : Node)
  | paren
  | name (n : Name)
  | other

def opening (t : Located Token) : Opening :=
  match t.value with
  | .int value => .literal (.int { span := t.span } value)
  | .text value => .literal (.text { span := t.span } value)
  | .openParen => .paren
  | .name n => .name n
  | .keyword _ | .assign | .update _ | .arith _ | .compare _ | .comma | .semicolon | .closeParen
  | .openBracket | .closeBracket | .openBrace | .closeBrace => .other

mutual

/-- An expression whose operators bind at least as tightly as a level. -/
def parseBinary (level : Nat) (c : Cursor) : Outcome (Node × After c) := do
  if BinaryOp.levels ≤ level then parseUnary c
  else
    let (lhs, c₁) ← parseBinary (level + 1) c
    let (node, c₂) ← parseOperators level lhs c₁.val
    return (node, ⟨c₂.val, Nat.lt_of_le_of_lt c₂.property c₁.property⟩)
termination_by (c.rest.length, BinaryOp.levels - level + 2)
decreasing_by
  · exact Prod.Lex.right _ (by omega)
  · exact Prod.Lex.right _ (by omega)
  · exact Prod.Lex.left _ _ c₁.property

/-- The operators of one level that follow a left operand, which associate to the left. -/
def parseOperators (level : Nat) (lhs : Node) (c : Cursor) : Outcome (Node × From c) := do
  match c.peek.bind Token.binaryOp? with
  | none => return (lhs, ⟨c, Nat.le_refl _⟩)
  | some op =>
    if op.level = level then
      let (_, c₁) ← c.next
      let (rhs, c₂) ← parseBinary (level + 1) c₁.val
      let node := Node.binary { span := lhs.span.join rhs.span } op lhs rhs
      let (node, c₃) ← parseOperators level node c₂.val
      return (node,
        ⟨c₃.val, by have := c₁.property; have := c₂.property; have := c₃.property; omega⟩)
    else return (lhs, ⟨c, Nat.le_refl _⟩)
termination_by (c.rest.length, 0)
decreasing_by
  · exact Prod.Lex.left _ _ c₁.property
  · have := c₁.property
    have := c₂.property
    exact Prod.Lex.left _ _ (by omega)

def parseUnary (c : Cursor) : Outcome (Node × After c) := do
  if c.sees (.arith .sub) then
    let (minus, c₁) ← c.next
    let (operand, c₂) ← parseUnary c₁.val
    return (negate minus.span operand, ⟨c₂.val, Nat.lt_trans c₂.property c₁.property⟩)
  else parsePrimary c
termination_by (c.rest.length, 1)
decreasing_by
  · exact Prod.Lex.left _ _ c₁.property
  · exact Prod.Lex.right _ (by omega)

def parsePrimary (c : Cursor) : Outcome (Node × After c) := do
  let (token, c₁) ← c.next
  match opening token with
  | .literal node => return (node, c₁)
  | .paren =>
    let (node, c₂) ← parseBinary 0 c₁.val
    let c₃ ← c₂.val.expect .closeParen
    return (node, ⟨c₃.val, by have := c₁.property; have := c₂.property; have := c₃.property; omega⟩)
  | .name name =>
    if c₁.val.sees .openParen then
      let (node, c₂) ← parseCall name token.span c₁.val
      return (node, ⟨c₂.val, Nat.lt_trans c₂.property c₁.property⟩)
    else
      let (node, c₂) ← parsePlace name token.span c₁.val
      return (node, ⟨c₂.val, Nat.lt_of_le_of_lt c₂.property c₁.property⟩)
  | .other => throw ⟨.expectedExpr, token.span⟩
termination_by (c.rest.length, 0)
decreasing_by
  all_goals exact Prod.Lex.left _ _ c₁.property

/-- The rest of a variable or of a map entry, after its name. -/
def parsePlace (name : Name) (start : Span) (c : Cursor) : Outcome (Node × From c) := do
  if c.sees .openBracket then
    let (_, c₁) ← c.next
    let (keys, c₂) ← parseList c₁.val
    let c₃ ← c₂.val.expect .closeBracket
    return (.mapAccess { span := start.join c₃.val.last } name keys,
      ⟨c₃.val, by have := c₁.property; have := c₂.property; have := c₃.property; omega⟩)
  else return (.var { span := start } name, ⟨c, Nat.le_refl _⟩)
termination_by (c.rest.length, 0)
decreasing_by
  exact Prod.Lex.left _ _ c₁.property

/-- The rest of a call, after its name. -/
def parseCall (name : Name) (start : Span) (c : Cursor) : Outcome (Node × After c) := do
  let c₁ ← c.expect .openParen
  let (args, c₂) ← parseArgs c₁.val
  let c₃ ← c₂.val.expect .closeParen
  return (.call { span := start.join c₃.val.last } name args,
    ⟨c₃.val, by have := c₁.property; have := c₂.property; have := c₃.property; omega⟩)
termination_by (c.rest.length, 0)
decreasing_by
  exact Prod.Lex.left _ _ c₁.property

/-- Arguments may be absent, which a token that begins no expression shows. -/
def parseArgs (c : Cursor) : Outcome (List Node × From c) := do
  if c.peek.all Token.startsExpr then
    let (args, c₁) ← parseList c
    return (args, ⟨c₁.val, Nat.le_of_lt c₁.property⟩)
  else return ([], ⟨c, Nat.le_refl _⟩)
termination_by (c.rest.length, BinaryOp.levels + 4)
decreasing_by
  exact Prod.Lex.right _ (by omega)

/-- One expression or more, with commas between them. -/
def parseList (c : Cursor) : Outcome (List Node × After c) := do
  let (first, c₁) ← parseBinary 0 c
  if c₁.val.sees .comma then
    let (_, c₂) ← c₁.val.next
    let (others, c₃) ← parseList c₂.val
    return (first :: others,
      ⟨c₃.val, by have := c₁.property; have := c₂.property; have := c₃.property; omega⟩)
  else return ([first], c₁)
termination_by (c.rest.length, BinaryOp.levels + 3)
decreasing_by
  · exact Prod.Lex.right _ (by omega)
  · have := c₁.property
    have := c₂.property
    exact Prod.Lex.left _ _ (by omega)

end

def parseExpr (c : Cursor) : Outcome (Node × After c) := parseBinary 0 c

/-- A call, a declaration or an assignment, after the name that it begins with. -/
def parseSimple (name : Name) (start : Span) (c : Cursor) : Outcome (Node × After c) := do
  if c.sees .openParen then
    let (node, c₁) ← parseCall name start c
    let c₂ ← c₁.val.expect .semicolon
    return (node, ⟨c₂.val, Nat.lt_trans c₂.property c₁.property⟩)
  else
    let (target, c₁) ← parsePlace name start c
    let (token, c₂) ← c₁.val.next
    let op ← match token.value with
      | .assign => pure none
      | .update op => pure (some op)
      | found => throw ⟨.unexpectedToken .assign found, token.span⟩
    let (value, c₃) ← parseExpr c₂.val
    let c₄ ← c₃.val.expect .semicolon
    let tag : Tag := { span := target.span.join c₄.val.last }
    let node := match op with
      | none => Node.declaration tag target value
      | some op => Node.assignment tag op target value
    return (node, ⟨c₄.val, by
      have := c₁.property; have := c₂.property; have := c₃.property; have := c₄.property; omega⟩)

mutual

/-- Statements up to the brace that closes them, which is read too. -/
def parseStatements (c : Cursor) : Outcome (List Node × After c) := do
  let (token, c₁) ← c.next
  if token.value = .closeBrace then return ([], c₁)
  else
    let (first, c₂) ← parseStatement token c₁.val
    let (others, c₃) ← parseStatements c₂.val
    return (first :: others,
      ⟨c₃.val, by have := c₁.property; have := c₂.property; have := c₃.property; omega⟩)
termination_by (c.rest.length, 0)
decreasing_by
  all_goals have := c₁.property
  · exact Prod.Lex.left _ _ this
  · have := c₂.property
    exact Prod.Lex.left _ _ (by omega)

def parseBlock (c : Cursor) : Outcome (List Node × After c) := do
  let c₁ ← c.expect .openBrace
  let (body, c₂) ← parseStatements c₁.val
  return (body, ⟨c₂.val, Nat.lt_trans c₂.property c₁.property⟩)
termination_by (c.rest.length, 0)
decreasing_by
  exact Prod.Lex.left _ _ c₁.property

/-- The rest of a statement, after its first token. -/
def parseStatement (token : Located Token) (c : Cursor) : Outcome (Node × After c) :=
  match token.value with
  | .keyword .cond => parseCond token.span c
  | .keyword .unroll => parseUnroll token.span c
  | .name name => parseSimple name token.span c
  | _ => throw ⟨.expectedStatement, token.span⟩
termination_by (c.rest.length, 1)
decreasing_by
  all_goals exact Prod.Lex.right _ (by omega)

def parseCond (start : Span) (c : Cursor) : Outcome (Node × After c) := do
  let c₁ ← c.expect .openParen
  let (condition, c₂) ← parseExpr c₁.val
  let c₃ ← c₂.val.expect .closeParen
  let (yes, c₄) ← parseBlock c₃.val
  let (no, c₅) ← parseElse c₄.val
  return (.cond { span := start.join c₅.val.last } condition yes no, ⟨c₅.val, by
    have := c₁.property; have := c₂.property; have := c₃.property; have := c₄.property
    have := c₅.property; omega⟩)
termination_by (c.rest.length, 0)
decreasing_by
  all_goals have := c₁.property; have := c₂.property; have := c₃.property
  · exact Prod.Lex.left _ _ (by omega)
  · have := c₄.property
    exact Prod.Lex.left _ _ (by omega)

/-- The statements for a condition that fails; another condition may be one of them by itself. -/
def parseElse (c : Cursor) : Outcome (List Node × From c) := do
  if c.sees (.keyword .otherwise) then
    let (_, c₁) ← c.next
    if c₁.val.sees (.keyword .cond) then
      let (token, c₂) ← c₁.val.next
      let (node, c₃) ← parseCond token.span c₂.val
      return ([node],
        ⟨c₃.val, by have := c₁.property; have := c₂.property; have := c₃.property; omega⟩)
    else
      let (body, c₂) ← parseBlock c₁.val
      return (body, ⟨c₂.val, by have := c₁.property; have := c₂.property; omega⟩)
  else return ([], ⟨c, Nat.le_refl _⟩)
termination_by (c.rest.length, 0)
decreasing_by
  all_goals have := c₁.property
  · have := c₂.property
    exact Prod.Lex.left _ _ (by omega)
  · exact Prod.Lex.left _ _ this

def parseUnroll (start : Span) (c : Cursor) : Outcome (Node × After c) := do
  let c₁ ← c.expect .openParen
  let (token, c₂) ← c₁.val.next
  let count ← match token.value with
    | .int value =>
      if 0 ≤ value.toInt ∧ value.toInt ≤ maxCount then pure value.toInt.toNat
      else throw ⟨.badRepetitionCount, token.span⟩
    | _ => throw ⟨.badRepetitionCount, token.span⟩
  let c₃ ← c₂.val.expect .closeParen
  let (body, c₄) ← parseBlock c₃.val
  return (.unroll { span := start.join c₄.val.last } count body, ⟨c₄.val, by
    have := c₁.property; have := c₂.property; have := c₃.property; have := c₄.property; omega⟩)
termination_by (c.rest.length, 0)
decreasing_by
  have := c₁.property; have := c₂.property; have := c₃.property
  exact Prod.Lex.left _ _ (by omega)

end

end Node

namespace Probe

open Cursor

def parse (c : Cursor) : Outcome (Probe × After c) := do
  let c₁ ← c.expect (.keyword .probe)
  let (token, c₂) ← c₁.val.next
  let name ← match token.value with
    | .name n => pure n.text
    | .text s => pure s
    | _ => throw ⟨.expectedProbe, token.span⟩
  let (body, c₃) ← Node.parseBlock c₂.val
  return ({ name := ⟨name, token.span⟩, body },
    ⟨c₃.val, by have := c₁.property; have := c₂.property; have := c₃.property; omega⟩)

def parseAll (c : Cursor) : Outcome (List Probe) := do
  if c.rest.isEmpty then return []
  else
    let (probe, c₁) ← parse c
    let others ← parseAll c₁.val
    return probe :: others
termination_by c.rest.length
decreasing_by
  exact c₁.property

/-- The probes that a list of tokens writes. -/
def ofTokens (tokens : List (Located Token)) : Except (Located SyntaxError) (List Probe) :=
  parseAll ⟨tokens, .first⟩

end Probe

end TraceScript

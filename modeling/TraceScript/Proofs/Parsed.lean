import TraceScript.Script.Tree

namespace TraceScript

/-- An expression as it is written. -/
inductive Expression : Node → Prop
  | int {tag : Tag} {value : Int64} : tag.facts = {} → Expression (.int tag value)
  | text {tag : Tag} {value : String} : tag.facts = {} → Expression (.text tag value)
  | var {tag : Tag} {name : Name} : tag.facts = {} → Expression (.var tag name)
  | mapAccess {tag : Tag} {map : Name} {keys : List Node} : tag.facts = {} → keys ≠ [] →
      (∀ k ∈ keys, Expression k) → Expression (.mapAccess tag map keys)
  | binary {tag : Tag} {op : BinaryOp} {lhs rhs : Node} : tag.facts = {} →
      Expression lhs → Expression rhs → Expression (.binary tag op lhs rhs)
  | call {tag : Tag} {function : Name} {args : List Node} : tag.facts = {} →
      (∀ a ∈ args, Expression a) → Expression (.call tag function args)

/-- A variable or an entry of a map. -/
inductive Place : Node → Prop
  | var {tag : Tag} {name : Name} : tag.facts = {} → Place (.var tag name)
  | mapAccess {tag : Tag} {map : Name} {keys : List Node} : tag.facts = {} → keys ≠ [] →
      (∀ k ∈ keys, Expression k) → Place (.mapAccess tag map keys)

theorem Place.expression {n : Node} (h : Place n) : Expression n := by
  cases h with
  | var hf => exact .var hf
  | mapAccess hf hne hk => exact .mapAccess hf hne hk

/-- A statement as it is written. -/
inductive Statement : Node → Prop
  | declaration {tag : Tag} {target value : Node} : Place target → Expression value →
      Statement (.declaration tag target value)
  | assignment {tag : Tag} {op : ArithOp} {target value : Node} : Place target →
      Expression value → Statement (.assignment tag op target value)
  | cond {tag : Tag} {condition : Node} {yes no : List Node} : Expression condition →
      (∀ n ∈ yes, Statement n) → (∀ n ∈ no, Statement n) → Statement (.cond tag condition yes no)
  | unroll {tag : Tag} {count : Nat} {body : List Node} : (∀ n ∈ body, Statement n) →
      Statement (.unroll tag count body)
  | call {tag : Tag} {function : Name} {args : List Node} : tag.facts = {} →
      (∀ a ∈ args, Expression a) → Statement (.call tag function args)

end TraceScript

import TraceScript.Name
import TraceScript.Operator
import TraceScript.Text.Quoted

/-!
The tokens of a script and how messages name them.
-/
namespace TraceScript

inductive Keyword where
  | probe | cond | otherwise | unroll
deriving DecidableEq, Inhabited

namespace Keyword

def all : List Keyword := [probe, cond, otherwise, unroll]

def spelling : Keyword → String
  | probe => "probe"
  | cond => "if"
  | otherwise => "else"
  | unroll => "unroll"

/-- A keyword may be written in any case. -/
def ofName? (n : Name) : Option Keyword := all.find? fun k => Name.same ⟨k.spelling⟩ n

end Keyword

inductive Token where
  | name (n : Name)
  | keyword (k : Keyword)
  | int (value : Int64)
  | text (value : String)
  | assign
  | update (op : ArithOp)
  | arith (op : ArithOp)
  | compare (op : CompareOp)
  | comma
  | semicolon
  | openParen
  | closeParen
  | openBracket
  | closeBracket
  | openBrace
  | closeBrace
deriving DecidableEq, Inhabited

namespace Token

def describe : Token → String
  | name n => s!"identifier `{n.text}`"
  | keyword k => s!"keyword `{k.spelling}`"
  | int value => s!"literal `{value.toInt}`"
  | text value => s!"literal {Text.quote value}"
  | assign => "`=`"
  | update op => s!"`{op.symbol}=`"
  | arith op => s!"`{op.symbol}`"
  | compare op => s!"`{op.symbol}`"
  | comma => "`,`"
  | semicolon => "`;`"
  | openParen => "`(`"
  | closeParen => "`)`"
  | openBracket => "`[`"
  | closeBracket => "`]`"
  | openBrace => "`\x7b`"
  | closeBrace => "`\x7d`"

end Token

end TraceScript

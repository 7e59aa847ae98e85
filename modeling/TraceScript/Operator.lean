/-!
The operators of scripts: arithmetic on words and signed comparisons.
-/
namespace TraceScript

inductive ArithOp where
  | add | sub | mul | div | mod | and | or | xor | lsh | rsh
deriving DecidableEq, Inhabited

namespace ArithOp

def symbol : ArithOp → String
  | add => "+"
  | sub => "-"
  | mul => "*"
  | div => "/"
  | mod => "%"
  | and => "&"
  | or => "|"
  | xor => "^"
  | lsh => "<<"
  | rsh => ">>"

end ArithOp

inductive CompareOp where
  | eq | ne | lt | le | gt | ge
deriving DecidableEq, Inhabited

namespace CompareOp

def symbol : CompareOp → String
  | eq => "=="
  | ne => "!="
  | lt => "<"
  | le => "<="
  | gt => ">"
  | ge => ">="

end CompareOp

inductive BinaryOp where
  | arith (op : ArithOp)
  | compare (op : CompareOp)
deriving DecidableEq, Inhabited

namespace BinaryOp

def symbol : BinaryOp → String
  | arith op => op.symbol
  | compare op => op.symbol

end BinaryOp

end TraceScript

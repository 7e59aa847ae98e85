/-!
Lines of a text and the small layouts that reports and listings use.
-/
namespace TraceScript.Text

/-- A newline ends a line, together with one carriage return directly before it; text after the
last newline is a line of its own. -/
def splitLines : List Char → List (List Char)
  | [] => []
  | '\n' :: cs => [] :: splitLines cs
  | '\r' :: '\n' :: cs => [] :: splitLines cs
  | c :: cs =>
    match splitLines cs with
    | [] => [[c]]
    | l :: ls => (c :: l) :: ls

def lines (text : String) : List String := (splitLines text.toList).map String.ofList

def spaces (n : Nat) : String := "".pushn ' ' n

def alignRight (width : Nat) (s : String) : String := spaces (width - s.length) ++ s

/-- A number with its sign, also when it is not negative. -/
def signed (i : Int) : String := if i < 0 then toString i else "+" ++ toString i

def hex (n : Nat) : String := String.ofList (Nat.toDigits 16 n)

end TraceScript.Text

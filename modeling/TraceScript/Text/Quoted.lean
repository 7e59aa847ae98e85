import TraceScript.Text.Visible

/-!
Quoted text, as messages show it: the mark around it and the backslash are escaped, tab, return,
newline and NUL have a letter of their own, and a hidden character is written by its code point.
-/
namespace TraceScript.Text

/-- A code point in lower-case hexadecimal between braces. -/
def codePoint (c : Char) : List Char :=
  '\\' :: 'u' :: '\x7b' :: (Nat.toDigits 16 c.toNat ++ ['\x7d'])

def escape (mark c : Char) : List Char :=
  if c = mark ∨ c = '\\' then ['\\', c]
  else if c = '\x00' then ['\\', '0']
  else if c = '\t' then ['\\', 't']
  else if c = '\r' then ['\\', 'r']
  else if c = '\n' then ['\\', 'n']
  else if isVisible c then [c]
  else codePoint c

def quoteWith (mark : Char) (cs : List Char) : String :=
  String.ofList (mark :: (cs.flatMap (escape mark) ++ [mark]))

def quoteChar (c : Char) : String := quoteWith '\x27' [c]

def quote (s : String) : String := quoteWith '\x22' s.toList

end TraceScript.Text

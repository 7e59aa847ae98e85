import TraceScript.Source.Basic
import TraceScript.Text.Blank
import TraceScript.Token.Basic

/-!
Reading tokens from a source. White space separates tokens, and a comment runs from `#` or `//` to
the end of its line. A wrong character or literal is an error of its own and reading goes on after
it, so that one pass finds every error.
-/
namespace TraceScript

inductive LexicalError where
  | badChar (c : Char)
  | expected (c : Char)
  | intOverflow
  | unterminatedText
  | badEscape (c : Char)
deriving DecidableEq, Inhabited

/-- The largest integer that a literal can write. -/
def maxInt : Nat := 0x7fffffffffffffff

namespace LexicalError

def message : LexicalError → String
  | badChar c => s!"Bad character {Text.quoteChar c} in input stream"
  | expected c => s!"Expected {Text.quoteChar c}"
  | intOverflow => s!"Integer literal overflow, valid range is [0, {maxInt}]"
  | unterminatedText => "Unterminated string literal"
  | badEscape c => s!"Unknown escape sequence `\\{c}`"

end LexicalError

/-- What one step of reading finds, the span it covers and the characters after it. -/
structure Lexeme where
  result : Except LexicalError Token
  span : Span
  rest : List Glyph

namespace Lexeme

/-- A lexeme from the position of its first character to that of its last. -/
def upTo (result : Except LexicalError Token) (start last : Position) (rest : List Glyph) :
    Lexeme :=
  ⟨result, ⟨start, last.advance⟩, rest⟩

/-- The position of the last of some glyphs, or the given one if there are none. -/
def lastOf (p : Position) (gs : List Glyph) : Position := (gs.getLast?.map Glyph.pos).getD p

def isDigit (c : Char) : Bool := '0' ≤ c && c ≤ '9'

def isLetter (c : Char) : Bool := ('a' ≤ c && c ≤ 'z') || ('A' ≤ c && c ≤ 'Z') || c == '_'

def decimal (digits : List Char) : Nat :=
  digits.foldl (fun n c => n * 10 + (c.toNat - '0'.toNat)) 0

/-- A number is the longest run of digits. -/
def number (g : Glyph) (rest : List Glyph) : Lexeme :=
  let digits := rest.takeWhile (isDigit ·.char)
  let value := decimal (g.char :: digits.map Glyph.char)
  let result := if value ≤ maxInt then .ok (.int (Int64.ofNat value)) else .error .intOverflow
  upTo result g.pos (lastOf g.pos digits) (rest.dropWhile (isDigit ·.char))

/-- A word is the longest run of letters, digits and underscores. -/
def word (g : Glyph) (rest : List Glyph) : Lexeme :=
  let inWord (h : Glyph) : Bool := isLetter h.char || isDigit h.char
  let more := rest.takeWhile inWord
  let name : Name := ⟨String.ofList (g.char :: more.map Glyph.char)⟩
  let token := match Keyword.ofName? name with
    | some k => Token.keyword k
    | none => Token.name name
  upTo (.ok token) g.pos (lastOf g.pos more) (rest.dropWhile inWord)

def unescape : Char → Option Char
  | 'n' => some '\n'
  | 't' => some '\t'
  | '0' => some '\x00'
  | '\\' => some '\\'
  | '\x22' => some '\x22'
  | _ => none

/-- The rest of a string literal that began at `start`; `last` is the position of the character
before the rest, and `seen` holds the contents so far in reverse. A literal stays on its line. -/
def text (start last : Position) (seen : List Char) : List Glyph → Lexeme
  | [] => upTo (.error .unterminatedText) start last []
  | g :: rest =>
    if g.char = '\n' then upTo (.error .unterminatedText) start g.pos rest
    else if g.char = '\x22' then upTo (.ok (.text (String.ofList seen.reverse))) start g.pos rest
    else if g.char = '\\' then
      match rest with
      | [] => upTo (.error .unterminatedText) start g.pos []
      | e :: rest =>
        match unescape e.char with
        | some c => text start e.pos (c :: seen) rest
        | none => upTo (.error (.badEscape e.char)) g.pos e.pos rest
    else text start g.pos (g.char :: seen) rest

/-- One of two tokens, the first if an equals sign follows. -/
def withEqual (g : Glyph) (last : Position) (rest : List Glyph) (eq otherwise : Token) : Lexeme :=
  match rest with
  | e :: after =>
    if e.char = '=' then upTo (.ok eq) g.pos e.pos after else upTo (.ok otherwise) g.pos last rest
  | [] => upTo (.ok otherwise) g.pos last rest

def arith (g : Glyph) (rest : List Glyph) (op : ArithOp) : Lexeme :=
  withEqual g g.pos rest (.update op) (.arith op)

/-- An angle bracket: twice it is a shift, once a comparison. -/
def angle (g : Glyph) (rest : List Glyph) (shift : ArithOp) (orEqual strict : CompareOp) :
    Lexeme :=
  match rest with
  | e :: after =>
    if e.char = g.char then withEqual g e.pos after (.update shift) (.arith shift)
    else withEqual g g.pos rest (.compare orEqual) (.compare strict)
  | [] => upTo (.ok (.compare strict)) g.pos g.pos rest

def inequality (g : Glyph) (rest : List Glyph) : Lexeme :=
  match rest with
  | e :: after =>
    if e.char = '=' then upTo (.ok (.compare .ne)) g.pos e.pos after
    else upTo (.error (.expected '=')) g.pos g.pos rest
  | [] => upTo (.error (.expected '=')) g.pos g.pos rest

/-- The lexeme that begins with a character that is neither blank nor opens a comment. -/
def scan (g : Glyph) (rest : List Glyph) : Lexeme :=
  let single (t : Token) : Lexeme := upTo (.ok t) g.pos g.pos rest
  match g.char with
  | ',' => single .comma
  | ';' => single .semicolon
  | '(' => single .openParen
  | ')' => single .closeParen
  | '[' => single .openBracket
  | ']' => single .closeBracket
  | '\x7b' => single .openBrace
  | '\x7d' => single .closeBrace
  | '+' => arith g rest .add
  | '-' => arith g rest .sub
  | '*' => arith g rest .mul
  | '/' => arith g rest .div
  | '%' => arith g rest .mod
  | '&' => arith g rest .and
  | '|' => arith g rest .or
  | '^' => arith g rest .xor
  | '=' => withEqual g g.pos rest (.compare .eq) .assign
  | '<' => angle g rest .lsh .le .lt
  | '>' => angle g rest .rsh .ge .gt
  | '!' => inequality g rest
  | '\x22' => text g.pos g.pos [] rest
  | c =>
    if isDigit c then number g rest
    else if isLetter c then word g rest
    else upTo (.error (.badChar c)) g.pos g.pos rest

theorem text_rest_length (start last : Position) (seen : List Char) (gs : List Glyph) :
    (text start last seen gs).rest.length ≤ gs.length := by
  fun_induction text start last seen gs <;> simp_all [upTo] <;> omega

theorem withEqual_rest_length (g : Glyph) (last : Position) (rest : List Glyph) (eq ow : Token) :
    (withEqual g last rest eq ow).rest.length ≤ rest.length := by
  unfold withEqual
  split <;> (try split) <;> simp [upTo]

theorem angle_rest_length (g : Glyph) (rest : List Glyph) (shift : ArithOp) (a b : CompareOp) :
    (angle g rest shift a b).rest.length ≤ rest.length := by
  unfold angle
  split
  · split
    · exact Nat.le_trans (withEqual_rest_length ..) (by simp)
    · exact withEqual_rest_length ..
  · simp [upTo]

theorem inequality_rest_length (g : Glyph) (rest : List Glyph) :
    (inequality g rest).rest.length ≤ rest.length := by
  unfold inequality
  split <;> (try split) <;> simp [upTo]

theorem dropWhile_length_le {α : Type} (p : α → Bool) (l : List α) :
    (l.dropWhile p).length ≤ l.length :=
  (List.dropWhile_suffix p).length_le

/-- A lexeme begins with the given character, so what follows it is no longer than what followed
that character. -/
theorem scan_rest_length (g : Glyph) (rest : List Glyph) :
    (scan g rest).rest.length ≤ rest.length := by
  unfold scan
  grind [arith, number, word, upTo, withEqual_rest_length, angle_rest_length,
    inequality_rest_length, text_rest_length, dropWhile_length_le]

end Lexeme

namespace Token

def opensComment (g : Glyph) (rest : List Glyph) : Bool :=
  g.char == '#' || (g.char == '/' && (rest.head?.map Glyph.char) == some '/')

mutual

/-- The characters from the first that is neither blank nor part of a comment. -/
def skipBlank : List Glyph → List Glyph
  | [] => []
  | g :: rest =>
    if Text.isBlank g.char then skipBlank rest
    else if opensComment g rest then skipComment rest
    else g :: rest

def skipComment : List Glyph → List Glyph
  | [] => []
  | g :: rest => if g.char = '\n' then skipBlank rest else skipComment rest

end

mutual

theorem skipBlank_length : ∀ gs : List Glyph, (skipBlank gs).length ≤ gs.length
  | [] => by simp [skipBlank]
  | g :: rest => by
    have h := skipBlank_length rest
    have h' := skipComment_length rest
    unfold skipBlank
    split
    · simp only [List.length_cons]; omega
    · split <;> simp only [List.length_cons] <;> omega

theorem skipComment_length : ∀ gs : List Glyph, (skipComment gs).length ≤ gs.length
  | [] => by simp [skipComment]
  | g :: rest => by
    have h := skipBlank_length rest
    have h' := skipComment_length rest
    unfold skipComment
    split <;> simp only [List.length_cons] <;> omega

end

/-- Every token and every error of a text, in order. -/
def lexemes (gs : List Glyph) : List Lexeme :=
  match _h : skipBlank gs with
  | [] => []
  | g :: rest =>
    let lexeme := Lexeme.scan g rest
    lexeme :: lexemes lexeme.rest
termination_by gs.length
decreasing_by
  have h₁ := skipBlank_length gs
  have h₂ := Lexeme.scan_rest_length g rest
  rw [_h] at h₁
  simp only [List.length_cons] at h₁
  omega

def errors (ls : List Lexeme) : List (Located LexicalError) :=
  ls.filterMap fun l =>
    match l.result with
    | .error e => some ⟨e, l.span⟩
    | .ok _ => none

def tokens (ls : List Lexeme) : List (Located Token) :=
  ls.filterMap fun l =>
    match l.result with
    | .ok t => some ⟨t, l.span⟩
    | .error _ => none

/-- The tokens of a source, or all of its errors if there are any. -/
def ofSource (source : Source) : Except (List (Located LexicalError)) (List (Located Token)) :=
  let ls := lexemes source.glyphs
  match errors ls with
  | [] => .ok (tokens ls)
  | es => .error es

/-- The same where positions are checked. Nothing comes back once one of them overflows. -/
def ofSource? (source : Source) :
    Option (Except (List (Located LexicalError)) (List (Located Token))) :=
  if source.fits then some (ofSource source) else none

end Token

end TraceScript

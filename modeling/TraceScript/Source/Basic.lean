import TraceScript.Source.Position
import TraceScript.Text.Lines

/-!
A script's text under the name that messages give it, and its characters with their positions.
-/
namespace TraceScript

structure Source where
  name : String
  lines : List String
deriving Inhabited

structure Glyph where
  char : Char
  pos : Position
deriving DecidableEq, Inhabited

namespace Source

def ofText (name text : String) : Source := ⟨name, Text.lines text⟩

/-- The text of a line; a line that does not exist is empty. -/
def line (s : Source) (n : Nat) : String :=
  if n = 0 then "" else s.lines.getD (n - 1) ""

def place (p : Position) : List Char → List Glyph
  | [] => []
  | c :: cs => ⟨c, p⟩ :: place (p.after c) cs

/-- Every line's characters and a newline after each, also after the last. -/
def glyphs (s : Source) : List Glyph :=
  place {} (s.lines.flatMap fun l => l.toList ++ ['\n'])

/-- No position overflows, neither at the end of a character nor at the start of the next. -/
def fits (s : Source) : Bool :=
  s.glyphs.all fun g => (Span.single g.pos).fits && (g.pos.after g.char).fits

/-- A span after the name of its source. -/
def locate (s : Source) (span : Span) : String := s!"{s.name}:{span.render}"

end Source

end TraceScript

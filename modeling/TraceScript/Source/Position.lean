/-!
Places in a text. Lines and columns count from one; a span ends one column after its last
character. Both are 32-bit numbers with checked sums: a text in which one overflows is not read.
-/
namespace TraceScript

structure Position where
  line : Nat := 1
  column : Nat := 1
deriving DecidableEq, Inhabited

namespace Position

/-- Both numbers can be kept in 32 bits. -/
def fits (p : Position) : Bool := p.line < UInt32.size && p.column < UInt32.size

def advance (p : Position) : Position := { p with column := p.column + 1 }

/-- One column to the left, never before the first. -/
def back (p : Position) : Position := { p with column := max (p.column - 1) 1 }

def newline (p : Position) : Position := ⟨p.line + 1, 1⟩

def tabStop : Nat := 4

/-- The next column after a multiple of the tab stop. -/
def tab (p : Position) : Position :=
  { p with column := 1 + ((p.column - 1) / tabStop + 1) * tabStop }

/-- The position after a character. -/
def after (p : Position) (c : Char) : Position :=
  if c = '\n' then p.newline else if c = '\t' then p.tab else p.advance

def render (p : Position) : String := s!"{p.line}:{p.column}"

end Position

structure Span where
  start : Position
  stop : Position
deriving DecidableEq, Inhabited

namespace Span

def fits (s : Span) : Bool := s.start.fits && s.stop.fits

/-- The span of the character at a position. -/
def single (p : Position) : Span := ⟨p, p.advance⟩

def first : Span := single {}

/-- From the start of one span to the end of another. -/
def join (a b : Span) : Span := ⟨a.start, b.stop⟩

def render (s : Span) : String :=
  if s.stop = s.start.advance then s.start.render
  else s!"[{s.start.render}-{s.stop.back.render}]"

end Span

structure Located (α : Type) where
  value : α
  span : Span
deriving DecidableEq, Inhabited

end TraceScript

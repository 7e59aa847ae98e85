import TraceScript.Source.Basic

/-!
Reports of located errors: each message, the lines it is about and a row of carets under the
columns.
-/
namespace TraceScript

structure Report where
  kind : String := "error"
  errors : List (Located String) := []

namespace Report

/-- The columns under which carets stand, first and last, both counted from one. -/
def underline (s : Span) : Nat × Nat :=
  let a := s.start.column
  let b := s.stop.column - 1
  let low := max (min a b) 1
  (low, max (max a b) low)

def entry (source : Source) (kind : String) (e : Located String) : String :=
  let digits := (toString e.span.stop.line).length
  let margin := Text.spaces digits
  let numbers := List.range' e.span.start.line (e.span.stop.line + 1 - e.span.start.line)
  let shown := numbers.map fun n => s!"{Text.alignRight digits (toString n)} | {source.line n}\n"
  let (low, high) := underline e.span
  let carets := Text.spaces (low - 1) ++ "".pushn '^' (high - low + 1)
  s!"{kind}: {e.value}\n --> {source.locate e.span}\n{margin} |\n" ++ String.join shown ++
    s!"{margin} | {carets}\n\n"

def render (r : Report) (source : Source) : String :=
  if r.errors.isEmpty then "No errors were reported\n"
  else
    let count := r.errors.length
    let noun := if count = 1 then "error" else "errors"
    String.join (r.errors.map (entry source r.kind)) ++ s!"Compilation failed with {count} {noun}\n"

end Report

end TraceScript

/-!
The numbers by which the kernel names what it has created, and the kinds of maps.
-/
namespace TraceScript

structure MapId where
  fd : Int
deriving DecidableEq, Inhabited

namespace MapId

def render (id : MapId) : String := s!"#{id.fd}"

end MapId

structure ProgramHandle where
  fd : Int
deriving DecidableEq, Inhabited

inductive MapKind where
  | hash
  /-- A channel of events to user space, with one entry per processor. -/
  | perfEventArray
deriving DecidableEq, Inhabited

namespace MapKind

def render : MapKind → String
  | hash => "hash"
  | perfEventArray => "perf event array"

end MapKind

end TraceScript

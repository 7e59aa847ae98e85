/-!
Names in a script. They are kept as written and compared without regard to the case of the letters
A to Z.
-/
namespace TraceScript

structure Name where
  text : String
deriving DecidableEq, Inhabited

namespace Name

def folded (n : Name) : List Char := n.text.toList.map Char.toLower

def same (a b : Name) : Bool := a.folded == b.folded

theorem same_iff (a b : Name) : a.same b = true ↔ a.folded = b.folded := by
  simp [same]

end Name

end TraceScript

import Mathlib.Logic.Function.Iterate
import TraceScript.Proofs.World
import TraceScript.Script.Builtin
import TraceScript.Script.Tree
import TraceScript.Symbol.Table
import TraceScript.Text.Utf8

/-!
The meaning of typed scripts. Every value is a list of bytes, integers are words of eight bytes, and
statements change variables, maps and channels in the order in which they are written. Nothing here
knows of temporaries or addresses.
-/
namespace TraceScript

/-- What the names of a script stand for: the index of a variable, and the descriptor of a map with
the size of its values. -/
structure Scope where
  index : Name → Option Nat
  map : Name → Option (MapId × Nat)
  channel : Option MapId

namespace Table

def mapOf (t : Table) (name : Name) : Option (MapId × Nat) := do
  let s ← t.find? name
  let slot ← s.map
  return (← slot.id, s.facts.size)

def scope (t : Table) : Scope := ⟨t.lookup, t.mapOf, t.events.id?⟩

end Table

/-- The contents of each variable. -/
abbrev Variables := Nat → List UInt8

namespace Node

mutual

/-- The value of an expression, with what its evaluation does outside. -/
def value (w : World) (sc : Scope) (vars : Variables) : Node → Outside → List UInt8 × Outside
  | .int _ n, o => (Bytes.ofWord n.toUInt64, o)
  | .text tag s, o => (Bytes.extend tag.facts.size (Text.utf8 s), o)
  | .var _ name, o => (((sc.index name).map vars).getD [], o)
  | .mapAccess tag map keys, o =>
    let (key, o) := packed w sc vars keys o
    match sc.map map with
    | some (id, _) =>
      let (entry, o) := o.find id key
      (Bytes.extend tag.facts.size (entry.getD []), o)
    | none => ([], o)
  | .binary _ op lhs rhs, o =>
    let (a, o) := value w sc vars lhs o
    let (b, o) := value w sc vars rhs o
    (Bytes.ofWord (op.apply (Bytes.toWord a) (Bytes.toWord b)), o)
  | .call tag function args, o =>
    match Builtin.ofName? function with
    | some .pid => (Bytes.ofWord w.pid.toUInt64, o)
    | some .tid => (Bytes.ofWord w.tid.toUInt64, o)
    | some .cpu => (Bytes.ofWord w.cpu, o)
    | some .ns =>
      let (reading, o) := o.tick w
      (Bytes.ofWord reading, o)
    | some .arg =>
      match args with
      | [.int _ n] => (Bytes.ofWord (w.args n.toInt.toNat), o)
      | _ => ([], o)
    | some .comm => (Bytes.extend tag.facts.size w.comm, o)
    | some .strcmp =>
      match values w sc vars args o with
      | ([a, b], o) =>
        let size := min a.length b.length
        (Bytes.ofWord (if a.take size = b.take size then 0 else 1), o)
      | (_, o) => ([], o)
    | _ => ([], o)
  | .record tag members, o =>
    let (data, o) := packed w sc vars members o
    (Bytes.extend tag.facts.size data, o)
  | _, o => ([], o)

/-- Values in order. -/
def values (w : World) (sc : Scope) (vars : Variables) :
    List Node → Outside → List (List UInt8) × Outside
  | [], o => ([], o)
  | n :: ns, o =>
    let (v, o) := value w sc vars n o
    let (vs, o) := values w sc vars ns o
    (v :: vs, o)

/-- Values one after another, each filled up to whole words. -/
def packed (w : World) (sc : Scope) (vars : Variables) :
    List Node → Outside → List UInt8 × Outside
  | [], o => ([], o)
  | n :: ns, o =>
    let (v, o) := value w sc vars n o
    let (data, o) := packed w sc vars ns o
    (Bytes.extend n.packedSize v ++ data, o)

end

section Equations

variable {w : World} {sc : Scope} {vars : Variables} {tag : Tag} {o : Outside}

theorem value_var {name : Name} {i : Nat} (h : sc.index name = some i) :
    value w sc vars (.var tag name) o = (vars i, o) :=
  congrArg (fun index => ((index.map vars).getD [], o)) h

theorem value_mapAccess {map : Name} {keys : List Node} {id : MapId} {size : Nat}
    (h : sc.map map = some (id, size)) :
    value w sc vars (.mapAccess tag map keys) o =
      (Bytes.extend tag.facts.size
        (((packed w sc vars keys o).2.store id (packed w sc vars keys o).1).getD []),
        (packed w sc vars keys o).2.log (.lookup id (packed w sc vars keys o).1)) := by
  rw [value, h]
  rfl

theorem value_binary {op : BinaryOp} {lhs rhs : Node} :
    value w sc vars (.binary tag op lhs rhs) o =
      (Bytes.ofWord (op.apply (Bytes.toWord (value w sc vars lhs o).1)
        (Bytes.toWord (value w sc vars rhs (value w sc vars lhs o).2).1)),
        (value w sc vars rhs (value w sc vars lhs o).2).2) := rfl

theorem value_strcmp {function : Name} {lhs rhs : Node} {a b : List UInt8} {o₁ o₂ : Outside}
    (h : Builtin.ofName? function = some .strcmp) (ha : value w sc vars lhs o = (a, o₁))
    (hb : value w sc vars rhs o₁ = (b, o₂)) :
    value w sc vars (.call tag function [lhs, rhs]) o =
      (Bytes.ofWord (if a.take (min a.length b.length) = b.take (min a.length b.length) then 0
        else 1), o₂) := by
  simp only [value, h, values, ha, hb]

theorem packed_cons {n : Node} {ns : List Node} :
    packed w sc vars (n :: ns) o =
      (Bytes.extend n.packedSize (value w sc vars n o).1 ++
        (packed w sc vars ns (value w sc vars n o).2).1,
        (packed w sc vars ns (value w sc vars n o).2).2) := rfl

end Equations

end Node

/-- Where a script has got to. -/
structure Situation where
  vars : Variables
  outside : Outside

namespace Node

/-- Gives a variable or a map entry the value of an expression. -/
def declare (w : World) (sc : Scope) (target rhs : Node) (s : Situation) : Situation :=
  match target with
  | .var _ name =>
    let (v, o) := rhs.value w sc s.vars s.outside
    match sc.index name with
    | some i => ⟨Function.update s.vars i v, o⟩
    | none => ⟨s.vars, o⟩
  | .mapAccess _ map keys =>
    let (key, o) := packed w sc s.vars keys s.outside
    let (v, o) := rhs.value w sc s.vars o
    match sc.map map with
    | some (id, _) => ⟨s.vars, o.put id key v⟩
    | none => ⟨s.vars, o⟩
  | _ => s

/-- Changes a variable or the first word of a map entry; a missing entry counts as zeros. -/
def assign (w : World) (sc : Scope) (op : ArithOp) (target rhs : Node) (s : Situation) :
    Situation :=
  match target with
  | .var _ name =>
    let (v, o) := rhs.value w sc s.vars s.outside
    match sc.index name with
    | some i =>
      let new := op.apply (Bytes.toWord (s.vars i)) (Bytes.toWord v)
      ⟨Function.update s.vars i (Bytes.ofWord new), o⟩
    | none => ⟨s.vars, o⟩
  | .mapAccess _ map keys =>
    let (key, o) := packed w sc s.vars keys s.outside
    let (v, o) := rhs.value w sc s.vars o
    match sc.map map with
    | some (id, size) =>
      let (entry, o) := o.find id key
      let old := Bytes.extend size (entry.getD [])
      let new := op.apply (Bytes.toWord (old.take 8)) (Bytes.toWord v)
      ⟨s.vars, o.put id key (Bytes.ofWord new ++ old.drop 8)⟩
    | none => ⟨s.vars, o⟩
  | _ => s

/-- Sends the record of an event. -/
def emit (w : World) (sc : Scope) (args : List Node) (s : Situation) : Situation :=
  match args, sc.channel with
  | [_, event], some channel =>
    let (data, o) := event.value w sc s.vars s.outside
    ⟨s.vars, o.send channel data⟩
  | _, _ => s

theorem emit_of_channel {w : World} {sc : Scope} {format event : Node} {channel : MapId}
    {s : Situation} (h : sc.channel = some channel) :
    emit w sc [format, event] s =
      ⟨s.vars, (event.value w sc s.vars s.outside).2.send channel
        (event.value w sc s.vars s.outside).1⟩ := by
  unfold emit
  rw [h]

mutual

def perform (w : World) (sc : Scope) : Node → Situation → Situation
  | .declaration _ target rhs, s => declare w sc target rhs s
  | .assignment _ op target rhs, s => assign w sc op target rhs s
  | .cond _ condition yes no, s =>
    let (v, o) := condition.value w sc s.vars s.outside
    if Bytes.toWord v ≠ 0 then performAll w sc yes ⟨s.vars, o⟩ else performAll w sc no ⟨s.vars, o⟩
  | .unroll _ count body, s => (performAll w sc body)^[count] s
  | .call tag function args, s =>
    if Builtin.ofName? function = some .out then emit w sc args s
    else ⟨s.vars, ((Node.call tag function args).value w sc s.vars s.outside).2⟩
  | n, s => ⟨s.vars, (n.value w sc s.vars s.outside).2⟩

/-- Statements in order. -/
def performAll (w : World) (sc : Scope) : List Node → Situation → Situation
  | [], s => s
  | n :: ns, s => performAll w sc ns (perform w sc n s)

end

end Node

end TraceScript

import TraceScript.Bytes
import TraceScript.Script.Shape
import TraceScript.Text.Lines
import TraceScript.Text.Utf8

/-!
Formats of events. A format never reaches the kernel: an event carries only the packed values, and
the format turns them back into text.
-/
namespace TraceScript

inductive Conversion where
  | signed | unsigned | hex | char | str
deriving DecidableEq, Inhabited

namespace Conversion

def ofChar? : Char → Option Conversion
  | 'd' | 'i' => some signed
  | 'u' => some unsigned
  | 'x' => some hex
  | 'c' => some char
  | 's' => some str
  | _ => none

/-- Strings are shown as strings and integers in every other way. -/
def accepts : Conversion → ValueType → Bool
  | str, type => type == .str
  | _, type => type == .int

end Conversion

/-- A format, piece by piece. -/
inductive FormatPiece where
  | plain (c : Char)
  /-- The sign `%`, written twice. -/
  | percent
  | conversion (c : Char)
  /-- A sign `%` at the end of the format. -/
  | dangling
deriving DecidableEq, Inhabited

def formatPieces : List Char → List FormatPiece
  | [] => []
  | ['%'] => [.dangling]
  | '%' :: '%' :: cs => .percent :: formatPieces cs
  | '%' :: c :: cs => .conversion c :: formatPieces cs
  | c :: cs => .plain c :: formatPieces cs

/-- The conversions of a format, or the first character that names none. -/
def conversionsOf : List FormatPiece → Except Char (List Conversion)
  | [] => .ok []
  | .plain _ :: ps | .percent :: ps => conversionsOf ps
  | .dangling :: _ => .error '%'
  | .conversion c :: ps =>
    match Conversion.ofChar? c with
    | none => .error c
    | some conversion => (conversionsOf ps).map (conversion :: ·)

def conversions (format : String) : Except Char (List Conversion) :=
  conversionsOf (formatPieces format.toList)

structure EventField where
  conversion : Conversion
  offset : Nat
  size : Nat
deriving DecidableEq, Inhabited

/-- The format of one kind of event and the layout of its record. -/
structure EventFormat where
  format : String
  fields : List EventField
  size : Nat
deriving DecidableEq, Inhabited

namespace EventField

/-- The bytes of a field, if the record is long enough. -/
def bytes? (f : EventField) (data : List UInt8) : Option (List UInt8) :=
  if f.offset + f.size ≤ data.length then some ((data.drop f.offset).take f.size) else none

/-- The first eight bytes as a number. -/
def word? (bytes : List UInt8) : Option Nat :=
  if 8 ≤ bytes.length then some (Bytes.toNat (bytes.take 8)) else none

def render (f : EventField) (data : List UInt8) : Option (List Char) := do
  let bytes ← f.bytes? data
  match f.conversion with
  | .signed => return (toString ((← word? bytes : Int).bmod UInt64.size)).toList
  | .unsigned => return (toString (← word? bytes)).toList
  | .hex => return (Text.hex (← word? bytes)).toList
  | .char => return [Char.ofNat (← bytes.head?).toNat]
  | .str => return Text.decodeLossy (bytes.takeWhile (· ≠ 0))

end EventField

namespace EventFormat

/-- Fields are used up one by one; a record that is too short has no text. -/
def renderPieces (data : List UInt8) : List FormatPiece → List EventField → Option (List Char)
  | [], _ => some []
  | .plain c :: ps, fs => (renderPieces data ps fs).map (c :: ·)
  | .percent :: ps, fs | .dangling :: ps, fs => (renderPieces data ps fs).map ('%' :: ·)
  | .conversion _ :: _, [] => none
  | .conversion _ :: ps, f :: fs => do
    let text ← f.render data
    return text ++ (← renderPieces data ps fs)

def render (f : EventFormat) (data : List UInt8) : Option String :=
  (renderPieces data (formatPieces f.format.toList) f.fields).map String.ofList

end EventFormat

end TraceScript

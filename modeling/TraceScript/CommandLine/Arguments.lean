/-!
The arguments of the command. Short options can be written together, and the value of an option
stands behind it or as the next argument. Only the option for more detail may be repeated.
-/
namespace TraceScript.CommandLine

/-- A stage of compilation that can be shown. -/
inductive Dump where
  | ir | allocation | bytecode
deriving DecidableEq, Inhabited

namespace Dump

def ofString? : String → Option Dump
  | "ir" => some ir
  | "alloc" => some allocation
  | "bytecode" => some bytecode
  | _ => none

/-- A set of stages is a sum of these numbers. -/
def bit : Dump → Nat
  | ir => 1
  | allocation => 2
  | bytecode => 4

end Dump

inductive ValueKey where
  | probe | maxInsns | dump | output
deriving DecidableEq, Inhabited

inductive Setting where
  | verbose
  | listing
  | value (key : ValueKey) (text : String)
  | input (text : String)
deriving DecidableEq, Inhabited

/-- What a letter means as a short option. -/
inductive ShortOption where
  | plain (s : Setting)
  | valued (key : ValueKey)

def shortOption? : Char → Option ShortOption
  | 'v' => some (.plain .verbose)
  | 'S' => some (.plain .listing)
  | 'p' => some (.valued .probe)
  | 'o' => some (.valued .output)
  | _ => none

def longKey? : List Char → Option ValueKey
  | ['p', 'r', 'o', 'b', 'e'] => some .probe
  | ['m', 'a', 'x', '-', 'i', 'n', 's', 'n', 's'] => some .maxInsns
  | ['d', 'u', 'm', 'p'] => some .dump
  | _ => none

/-- Settings, and an option that still needs the next argument as its value. -/
structure Scanned where
  settings : List Setting
  pending : Option ValueKey := none

/-- Letters after a single dash. Behind an option with a value, the rest is the value. -/
def scanShort : List Char → Option Scanned
  | [] => some ⟨[], none⟩
  | c :: cs => do
    match ← shortOption? c with
    | .plain s =>
      let rest ← scanShort cs
      return { rest with settings := s :: rest.settings }
    | .valued key =>
      match cs with
      | [] => return ⟨[], some key⟩
      | '=' :: value => return ⟨[.value key (String.ofList value)], none⟩
      | value => return ⟨[.value key (String.ofList value)], none⟩

/-- A name after two dashes, with its value if an equals sign follows. -/
def scanLong (cs : List Char) : Option Scanned := do
  let key ← longKey? (cs.takeWhile (· ≠ '='))
  match cs.dropWhile (· ≠ '=') with
  | [] => return ⟨[], some key⟩
  | _ :: value => return ⟨[.value key (String.ofList value)], none⟩

/-- Whether an argument begins like an option; a single dash does not. -/
def isOption (cs : List Char) : Bool := cs.head? == some '-' && cs.length != 1

/-- All arguments, given the option that waits for a value. -/
def scan : Option ValueKey → List String → Option (List Setting)
  | none, [] => some []
  | some _, [] => none
  | some key, arg :: args =>
    if isOption arg.toList then none else (scan none args).map (.value key arg :: ·)
  | none, arg :: args =>
    match arg.toList with
    | ['-', '-'] => some (args.map .input)
    | '-' :: '-' :: cs => do
      let s ← scanLong cs
      return s.settings ++ (← scan s.pending args)
    | '-' :: c :: cs => do
      let s ← scanShort (c :: cs)
      return s.settings ++ (← scan s.pending args)
    | _ => (scan none args).map (.input arg :: ·)

structure Arguments where
  listing : Bool
  probe : Option String
  maxInsns : Option String
  dumps : List Dump
  output : String
  input : String

/-- The value of an option that is given at most once. -/
def single? {α : Type} : List α → Option (Option α)
  | [] => some none
  | [a] => some (some a)
  | _ => none

def valuesOf (key : ValueKey) (settings : List Setting) : List String :=
  settings.filterMap fun
    | .value k text => if k = key then some text else none
    | _ => none

def inputsOf (settings : List Setting) : List String :=
  settings.filterMap fun
    | .input text => some text
    | _ => none

/-- The stages that a list with commas names. -/
def dumpsOf (text : String) : Option (List Dump) :=
  (text.splitOn ",").mapM Dump.ofString?

namespace Arguments

/-- There is exactly one input and one output, and every other setting is well-formed. -/
def ofSettings (settings : List Setting) : Option Arguments := do
  let probe ← single? (valuesOf .probe settings)
  let maxInsns ← single? (valuesOf .maxInsns settings)
  let dump ← single? (valuesOf .dump settings)
  let dumps ← match dump with
    | none => some []
    | some text => dumpsOf text
  let output ← (← single? (valuesOf .output settings))
  let input ← (← single? (inputsOf settings))
  if 1 < settings.count .listing then none
  else return { listing := settings.contains .listing, probe, maxInsns, dumps, output, input }

def parse (args : List String) : Option Arguments := do
  ofSettings (← scan none args)

end Arguments

end TraceScript.CommandLine

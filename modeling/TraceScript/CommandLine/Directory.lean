import TraceScript.CommandLine.Run

/-!
A console in memory: one directory of files, and streams as texts. A path may lead out of the
directory, to the root and its devices or to a place of which nothing is known. What is written
there is not kept.
-/
namespace TraceScript.CommandLine

/-- The devices that a path can lead to. -/
inductive Device where
  | null | full | stdin | stdout | stderr
deriving DecidableEq, Inhabited

/-- Where a path has led so far. Nothing is known of what lies outside. -/
inductive Place where
  | here | outside | root | devices
deriving DecidableEq, Inhabited

def Place.parent : Place → Place
  | here | outside => outside
  | root | devices => root

/-- What a path leads to. A file elsewhere is a new one that is not kept. -/
inductive Entry where
  | directory (place : Place)
  | file (name : String)
  | device (device : Device)
  | elsewhere
deriving DecidableEq, Inhabited

structure Directory where
  files : List (String × List UInt8) := []
  stdin : String := ""
  stdout : String := ""
  stderr : String := ""

namespace Directory

def get? (d : Directory) (name : String) : Option (List UInt8) := d.files.lookup name

/-- The most bytes in the name of a file. -/
def maxName : Nat := 255

/-- The most bytes in a path. -/
def maxPath : Nat := 4095

/-- What has the name in a place. -/
def find? (d : Directory) : Place → String → Option Entry
  | .here, name => if (d.get? name).isSome then some (.file name) else none
  | .root, "dev" => some (.directory .devices)
  | .root, "tmp" => some (.directory .outside)
  | .devices, "null" => some (.device .null)
  | .devices, "full" => some (.device .full)
  | .devices, "stdin" => some (.device .stdin)
  | .devices, "stdout" => some (.device .stdout)
  | .devices, "stderr" => some (.device .stderr)
  | _, _ => none

/-- What a new file in a place is. -/
def newFile : Place → String → Entry
  | .here, name => .file name
  | _, _ => .elsewhere

/-- What the parts of a path lead to. Empty parts and dots stay where they are, and what another
part follows has to be a directory. A path to create cannot have a slash at its end, whether or not
its last name exists and however long it is. -/
def follow (d : Directory) (create : Bool) (place : Place) : List String → Except FileError Entry
  | [] => .ok (.directory place)
  | part :: rest =>
    if part = "" ∨ part = "." then d.follow create place rest
    else if part = ".." then d.follow create place.parent rest
    else if create ∧ rest ≠ [] ∧ rest.all (· == "") then .error .isADirectory
    else if maxName < part.utf8ByteSize then .error .nameTooLong
    else
      match d.find? place part with
      | some (.directory next) => d.follow create next rest
      | some entry => if rest.isEmpty then .ok entry else .error .notADirectory
      | none => if create ∧ rest.isEmpty then .ok (newFile place part) else .error .notFound

/-- What a path leads to, from the root if it begins with a slash. -/
def resolve (d : Directory) (create : Bool) (path : String) : Except FileError Entry :=
  if path.isEmpty then .error .notFound
  else if maxPath < path.utf8ByteSize then .error .nameTooLong
  else d.follow create (if path.startsWith "/" then .root else .here) (path.splitOn "/")

/-- Of the devices only the standard input holds a text. -/
def read (d : Directory) (path : String) : Except FileError String := do
  match ← d.resolve false path with
  | .directory _ => .error .isADirectory
  | .file name => readText ((d.get? name).getD [])
  | .device .stdin => .ok d.stdin
  | .device _ => .ok ""
  | .elsewhere => .error .notFound

/-- Writes to a device. The full one takes nothing. -/
def send (d : Directory) (bytes : List UInt8) : Device → Except WriteError Directory
  | .full => if bytes.isEmpty then .ok d else .error (.writing .noSpace)
  | .stdout => .ok { d with stdout := d.stdout ++ Text.ofUtf8Lossy bytes }
  | .stderr => .ok { d with stderr := d.stderr ++ Text.ofUtf8Lossy bytes }
  | _ => .ok d

/-- Creates or replaces a file, or writes to a device. -/
def write (d : Directory) (path : String) (bytes : List UInt8) : Except WriteError Directory :=
  match d.resolve true path with
  | .error e => .error (.opening e)
  | .ok (.directory _) => .error (.opening .isADirectory)
  | .ok (.file name) => .ok { d with files := (name, bytes) :: d.files.filter (·.1 != name) }
  | .ok (.device device) => d.send bytes device
  | .ok .elsewhere => .ok d

def console : Console (StateM Directory) where
  readStdin := return .ok (← get).stdin
  readFile path := return (← get).read path
  writeFile path bytes := do
    match (← get).write path bytes with
    | .ok d =>
      set d
      return .ok ()
    | .error e => return .error e
  print text := do
    modify fun d => { d with stdout := d.stdout ++ text }
    return .ok ()
  complain text := modify fun d => { d with stderr := d.stderr ++ text }

end Directory

end TraceScript.CommandLine

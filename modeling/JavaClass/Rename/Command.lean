import JavaClass.Rename

/-!
# The rename command

Strips the marker from the class in each input file and writes the result to an output directory.
What the command does to the world goes through a `Host`, so that it can run on files as well as on
a value that stands for them.
-/

namespace JavaClass.Rename

/-- What the command asks of its surroundings. -/
structure Host (m : Type → Type) where
  /-- the content of a file; `none` if it cannot be read or is empty -/
  read : String → m (Option Bytes)
  /-- writes a whole file and answers whether that worked -/
  write : String → Bytes → m Bool
  print : String → m Unit
  printError : String → m Unit

/-- The path of a file in a directory. -/
def joinPath (directory file : String) : String :=
  match directory.toList.getLast? with
  | none => file
  | some '/' => directory ++ file
  | some _ => directory ++ "/" ++ file

variable {m : Type → Type} [Monad m]

/-- Strips the marker from the class in `bytes` and writes it to the directory, under its new simple
name. Answers the path. -/
def stripMarkerFile (host : Host m) (bytes : Bytes) (directory marker : String) :
    m (Except RenameError String) := do
  match stripMarker bytes marker with
  | .error e => return .error e
  | .ok renamed =>
    let path := joinPath directory renamed.fileName
    if ← host.write path renamed.bytes then return .ok path
    else return .error (.classFile .io)

/-- Deals with one input and answers whether it failed. A class without the marker is passed over,
which is no failure. -/
def processInput (host : Host m) (directory marker input : String) : m Bool := do
  match ← host.read input with
  | none => return true
  | some bytes =>
    match ← stripMarkerFile host bytes directory marker with
    | .ok path =>
      host.print (input ++ " -> " ++ path ++ "\n")
      return false
    | .error (.markerNotFound _ _) => return false
    | .error _ => return true

/-- Deals with every input, whatever came of those before it, and answers whether some failed. -/
def processAll (host : Host m) (directory marker : String) (inputs : List String) : m Bool :=
  inputs.foldlM
    (fun failed input => do return (← processInput host directory marker input) || failed) false

def usage : String := "usage: rename <out-dir> <class-file>...\n"

/-- The whole command; answers the exit code. -/
def run (host : Host m) (args : List String) (marker? : Option String) : m UInt32 := do
  match args with
  | [] =>
    host.printError usage
    return 2
  | directory :: inputs =>
    let failed ← processAll host directory (marker?.getD defaultMarker) inputs
    return if failed then 1 else 0

end JavaClass.Rename

import JavaClass.Rename.Command

/-!
# Files as a value

Directories and files by place, and what has been printed: a host for the rename command that is a
plain value. A path is walked name by name from the top of the tree. Each name must start from a
directory that is there, so a path may fail on its way even if what follows leads back.
-/

namespace JavaClass.Rename

/-- The names that lead from the top of a tree to a file or directory. Above the top there are only
directories, spelled by as many leading `..`. -/
abbrev Place := List String

namespace Place

/-- The directory around a place. -/
def parent (place : Place) : Place :=
  if place.all (· == "..") then ".." :: place else place.dropLast

/-- Follows one name of a path. An empty name and `.` stay, `..` leads to the parent. -/
def follow (place : Place) (name : String) : Place :=
  if name = "" ∨ name = "." then place
  else if name = ".." then place.parent
  else place ++ [name]

/-- Where a path leads if nothing stops it on its way. -/
def ofPath (path : String) : Place := (path.splitOn "/").foldl follow []

end Place

structure FileTree where
  files : List (Place × Bytes)
  directories : List Place
  /-- text printed so far -/
  output : String
  /-- complaints printed so far -/
  errors : String

namespace FileTree

/-- A tree with nothing in it. -/
def empty : FileTree := ⟨[], [], "", ""⟩

/-- Whether there is a directory: one of the tree or around it, the top, or one above. -/
def isDirectory (t : FileTree) (place : Place) : Bool :=
  place.all (· == "..") || t.directories.any place.isPrefixOf

def find? (t : FileTree) (place : Place) : Option Bytes := t.files.lookup place

/-- Whether a file may have the name: at most 255 bytes, and no zero character. -/
def isFileName (name : String) : Bool := name.utf8ByteSize ≤ 255 && !name.toList.contains '\x00'

/-- Whether a path can be walked at all: at most 4095 bytes, and relative. The tree knows nothing
of where paths that start with a slash lead. -/
def isRelativePath (path : String) : Bool :=
  path.utf8ByteSize ≤ 4095 && path.toList.head?.any (· ≠ '/')

/-- Follows one name, which must start from a directory. -/
def step? (t : FileTree) (place : Place) (name : String) : Option Place :=
  if t.isDirectory place && isFileName name then some (place.follow name) else none

/-- Makes every directory on a path, as far as there is no file in the way. -/
def makeDirectories (t : FileTree) (path : String) : FileTree :=
  if isRelativePath path then go t [] (path.splitOn "/") else t
where
  go (t : FileTree) (place : Place) : List String → FileTree
    | [] => t
    | name :: rest =>
      let place := place.follow name
      if isFileName name && (t.find? place).isNone then
        go { t with directories := place :: t.directories } place rest
      else t

/-- Where a path leads. All on the way is there, the place itself may not be. A path that ends with
a slash leads to directories only. -/
def resolve? (t : FileTree) (path : String) : Option Place :=
  if isRelativePath path then (path.splitOn "/").foldlM t.step? [] else none

/-- Puts a file in the place of the one that was there before. -/
def insert (t : FileTree) (place : Place) (content : Bytes) : FileTree :=
  { t with files := (place, content) :: t.files.filter (·.1 ≠ place) }

/-- The tree as surroundings of the rename command. -/
def host : Host (StateM FileTree) where
  read path := do
    let t ← get
    match (t.resolve? path).bind t.find? with
    | some content => return if content.isEmpty then none else some content
    | none => return none
  write path content := do
    let t ← get
    match t.resolve? path with
    | none => return false
    | some place =>
      if t.isDirectory place then return false
      set (t.insert place content)
      return true
  print text := modify fun t => { t with output := t.output ++ text }
  printError text := modify fun t => { t with errors := t.errors ++ text }

end FileTree
end JavaClass.Rename

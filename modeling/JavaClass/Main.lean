import JavaClass.Rename.Command

/-!
# Command line

`rename <out-dir> <class-file>...` strips the marker from each class. The variable `RENAME_MARKER`
replaces the default marker.
-/

namespace JavaClass

/-- The real files and streams. -/
def fileHost : Rename.Host IO where
  read path := do
    try
      let content ← IO.FS.readBinFile path
      return if content.isEmpty then none else some content.data
    catch _ => return none
  write path bytes := do
    if path.toList.contains '\x00' then return false
    try
      IO.FS.writeBinFile path ⟨bytes⟩
      return true
    catch _ => return false
  print text := IO.print text
  printError text := IO.eprint text

end JavaClass

def main (args : List String) : IO UInt32 := do
  JavaClass.Rename.run JavaClass.fileHost args (← IO.getEnv "RENAME_MARKER")

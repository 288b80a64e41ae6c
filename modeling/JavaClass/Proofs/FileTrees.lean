import JavaClass.Rename.FileTree
import Mathlib.Data.String.Basic

/-!
# Paths in a tree of files

A path is cut at its slashes and followed name by name, so the path of a file in a directory leads
where the directory leads and then one name further. A tree that has taken a file finds it in its
place, and finds in all others what was there before.
-/

namespace JavaClass.Rename

/-! ## Cutting at slashes -/

section

open String

variable (passed name rest : List Char) (done : List String) {c : Char}

end

/-! ## Places -/

variable {front file path directory simple : String} {place : Place} {t : FileTree}

namespace Place

end Place

/-- The path of the file of a class. -/
def classPath (directory simple : String) : String := joinPath directory (simple ++ ".class")

namespace FileTree

/-- What a path leads to. -/
def contentAt (t : FileTree) (path : String) : Option Bytes := (t.resolve? path).bind t.find?

section

variable (content : Bytes)

end

end FileTree

end JavaClass.Rename

import JavaClass.Proofs.FileTrees
import JavaClass.Proofs.Stripping
import Mathlib.Data.List.ReduceOption

/-!
# Running the rename command

Each input either leaves a file in the directory or leaves everything as it was, and those in front
of it do not matter but for the files that they have left. Classes of one simple name share a file,
so the last of them is what the directory keeps.
-/

namespace JavaClass.Rename

/-- What the file of a class is named for: the name after the last slash. -/
def Renamed.simpleName (r : Renamed) : String := String.ofList (r.name.toList.rtakeWhile (· ≠ '/'))

/-- What the command says of a class that it has written. -/
def report (directory input : String) (r : Renamed) : String :=
  input ++ " -> " ++ classPath directory r.simpleName ++ "\n"

/-! ## Surroundings -/

/-- What there is to see in a state: files, and what has been printed. -/
structure View (σ : Type) where
  content : σ → String → Option Bytes
  printed : σ → String

variable {σ : Type} {host : Host (StateM σ)} {view : View σ} {directory marker input : String}
  {inputs front : List String} {s s' : σ}

namespace View

structure Same (view : View σ) (s s' : σ) : Prop where
  content path : view.content s' path = view.content s path
  printed : view.printed s' = view.printed s

/-- The file of a class has new bytes. The inputs and the files of other classes are as before. -/
structure Puts (view : View σ) (directory : String) (inputs : List String) (simple : String)
    (bytes : Bytes) (s s' : σ) : Prop where
  self : view.content s' (classPath directory simple) = some bytes
  others other : '/' ∉ other.toList → other ≠ simple →
    view.content s' (classPath directory other) = view.content s (classPath directory other)
  inputs : ∀ input ∈ inputs, view.content s' input = view.content s input
  printed : view.printed s' = view.printed s

end View

/-- Files that can be read unless they are missing or empty, and that stay as they are where a write
fails. No input is the file of a class in the directory. -/
structure Host.Lawful (host : Host (StateM σ)) (view : View σ) (directory : String)
    (inputs : List String) : Prop where
  read s : ∀ input ∈ inputs,
    (host.read input).run s = ((view.content s input).filter (!·.isEmpty), s)
  print_content s text path :
    view.content ((host.print text).run s).2 path = view.content s path
  print_printed s text : view.printed ((host.print text).run s).2 = view.printed s ++ text
  write_refused s simple bytes : '/' ∉ simple.toList →
    ((host.write (classPath directory simple) bytes).run s).1 = false →
      view.Same s ((host.write (classPath directory simple) bytes).run s).2
  write_done s simple bytes : '/' ∉ simple.toList →
    ((host.write (classPath directory simple) bytes).run s).1 = true →
      view.Puts directory inputs simple bytes s
        ((host.write (classPath directory simple) bytes).run s).2

/-- An input with this content leaves a file: its class is renamed and can be written. -/
structure Contributes (host : Host (StateM σ)) (directory marker : String)
    (content? : Option Bytes) (s : σ) (r : Renamed) : Prop where
  stripped : ∃ bytes, content? = some bytes ∧ stripMarker bytes marker = .ok r
  written : ((host.write (classPath directory r.simpleName) r.bytes).run s).1 = true

/-- An input with this content fails. A class without the marker does not. -/
inductive Fails (host : Host (StateM σ)) (directory marker : String) (content? : Option Bytes)
    (s : σ) : Prop
  | missing : content? = none → Fails host directory marker content? s
  | refused {bytes : Bytes} {e : RenameError} : content? = some bytes →
      stripMarker bytes marker = .error e → (∀ name other, e ≠ .markerNotFound name other) →
      Fails host directory marker content? s
  | unwritten {bytes : Bytes} {r : Renamed} : content? = some bytes →
      stripMarker bytes marker = .ok r →
      ((host.write (classPath directory r.simpleName) r.bytes).run s).1 = false →
      Fails host directory marker content? s

section

variable {content? : Option Bytes} {bytes : Bytes} {r : Renamed} {e : RenameError}

end

/-! ## One input -/

section

variable {bytes : Bytes} {r : Renamed} {e : RenameError}

end

/-- What the last of the classes with a simple name has left in their file, if there are any. -/
def Renamed.lastBytes? (written : List Renamed) (simple : String) : Option Bytes :=
  (written.filter (·.simpleName = simple)).getLast?.map Renamed.bytes

namespace Handled

variable {bytes : Bytes} {r : Renamed}

end Handled

/-- The state that the inputs leave behind. -/
def stateAfter (host : Host (StateM σ)) (directory marker : String) (s : σ)
    (inputs : List String) : σ :=
  ((processAll host directory marker inputs).run s).2

/-- All that the inputs in `front` do, one after the other. Each meets the state that those before
it have left, whatever came of them. -/
structure Ran (host : Host (StateM σ)) (view : View σ) (directory marker : String)
    (inputs front : List String) (written : List (Option Renamed)) (failed : Bool) (s : σ) :
    Prop where
  length : written.length = front.length
  processed i input : front[i]? = some input →
    stateAfter host directory marker s (front.take (i + 1)) =
      ((processInput host directory marker input).run
        (stateAfter host directory marker s (front.take i))).2
  contributes i input : front[i]? = some input → ∀ r, written[i]? = some (some r) ↔
    Contributes host directory marker (view.content s input)
      (stateAfter host directory marker s (front.take i)) r
  failed : failed = true ↔ ∃ i input, front[i]? = some input ∧
    Fails host directory marker (view.content s input)
      (stateAfter host directory marker s (front.take i))
  files simple : '/' ∉ simple.toList →
    view.content (stateAfter host directory marker s front) (classPath directory simple) =
      (Renamed.lastBytes? written.reduceOption simple).or
        (view.content s (classPath directory simple))
  printed : view.printed (stateAfter host directory marker s front) = view.printed s ++
    String.join ((front.zip written).flatMap fun p => p.2.toList.map (report directory p.1))
  inputs : ∀ input ∈ inputs,
    view.content (stateAfter host directory marker s front) input = view.content s input

namespace Ran

theorem nil : Ran host view directory marker inputs [] [] false s where
  length := rfl
  processed _ _ := nofun
  contributes _ _ := nofun
  failed := by simp
  files _ _ := rfl
  printed := String.append_empty.symm
  inputs _ _ := rfl

end Ran

namespace FileTree

variable {t : FileTree} {path : String} {place : Place} {content : Bytes}

/-- What there is to see of a tree. -/
def seen : View FileTree := ⟨contentAt, output⟩

end FileTree

end JavaClass.Rename

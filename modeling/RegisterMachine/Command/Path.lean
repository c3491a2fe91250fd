/-!
# File names

The last part of a path is the name of the file.  The extension is what follows
the last dot of the name, and the stem what precedes it; a name without a dot,
or with its only dot at the front, is all stem.
-/

namespace RegisterMachine.Command

/-- The parts of a path between slashes, without empty ones and those that stay in place. -/
def pathParts (path : String) : List String :=
  (path.splitOn "/").filter fun part => part != "" && part != "."

/-- The name of the file at the end of a path. -/
def fileName? (path : String) : Option String :=
  (pathParts path).getLast?.filter fun part => part != ".."

/-- The stem of a file name and its extension. -/
def splitExtension (name : String) : String × Option String :=
  let reversed := name.toList.reverse
  match reversed.dropWhile (· != '.') with
  | _ :: c :: cs =>
      (String.ofList (c :: cs).reverse,
        some (String.ofList (reversed.takeWhile (· != '.')).reverse))
  | _ => (name, none)

/-- The stem of the file at the end of a path; a path without one stands for a program. -/
def fileStem (path : String) : String :=
  match fileName? path with
  | some name => (splitExtension name).1
  | none => "program"

/-- The extension of the file at the end of a path. -/
def extension? (path : String) : Option String :=
  (fileName? path).bind fun name => (splitExtension name).2

end RegisterMachine.Command

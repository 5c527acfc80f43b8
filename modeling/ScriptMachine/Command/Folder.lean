import ScriptMachine.OrdMap
import ScriptMachine.Word

/-!
# Folders

The command works on named files.  A `Folder` is such a collection of files in memory, with the
wording of failures that file systems use.
-/

namespace ScriptMachine.Command

/-- Why a file could not be read. -/
structure FileError where
  /-- Whether it could not even be opened. -/
  atOpen : Bool
  text : String
deriving DecidableEq

/-- There is no such file. -/
def FileError.missing : FileError := ⟨true, "No such file or directory (os error 2)"⟩

/-- A file stands where a folder was expected. -/
def FileError.notFolder : FileError := ⟨true, "Not a directory (os error 20)"⟩

/-- A folder stands where a file was expected. -/
def FileError.isFolder : FileError := ⟨false, "Is a directory (os error 21)"⟩

/-- Files in memory, by the parts of their paths. -/
structure Folder where
  files : List (List String × Bytes) := []

namespace Folder

/-- Steps over the parts of a path: the folder itself, the one above, or an entry. -/
def walk (base : List String) : List String → List String
  | [] => base
  | part :: rest =>
    if part = "" ∨ part = "." then walk base rest
    else if part = ".." then walk base.dropLast rest
    else walk (base ++ [part]) rest

/-- The parts of a path within the folder. -/
def parts (path : String) : List String := walk [] (path.splitOn "/")

/-- The folder that holds some files. -/
def ofList (files : List (String × Bytes)) : Folder :=
  ⟨files.map fun (path, data) => (parts path, data)⟩

/-- Whether a path leads to a folder. -/
def isFolder (f : Folder) (p : List String) : Bool :=
  p.isEmpty || f.files.any fun (q, _) => p.isPrefixOf q && p != q

/-- Whether a file stands on the way to a path. -/
def isBlocked (f : Folder) (p : List String) : Bool :=
  f.files.any fun (q, _) => q.isPrefixOf p && p != q

/-- The content of a file. -/
def read (f : Folder) (path : String) : Except FileError Bytes :=
  let p := parts path
  if path = "" ∨ path.startsWith "/" then .error .missing
  else
    match f.files.lookup p with
    | some b => if path.endsWith "/" then .error .notFolder else .ok b
    | none =>
      if f.isFolder p then .error .isFolder
      else if f.isBlocked p then .error .notFolder
      else .error .missing

/-- Writes a file, in place of an older one. -/
def write (f : Folder) (path : String) (data : Bytes) : Except FileError Folder :=
  let p := parts path
  if path = "" ∨ path.startsWith "/" then .error .missing
  else if f.isFolder p ∨ path.endsWith "/" then .error .isFolder
  else if f.isBlocked p then .error .notFolder
  else if f.isFolder p.dropLast then
    .ok ⟨(p, data) :: f.files.filter fun (q, _) => q != p⟩
  else .error .missing

end Folder

end ScriptMachine.Command

import Galley.Text.Basic

/-!
Files, as far as the command needs them: what can be done with them wherever they are kept, and a
folder that keeps them as a value.
-/

namespace Galley.Command

/-- What can be done with files. What fails is answered with a message. -/
structure Files (m : Type → Type) where
  read : Text → m (Except Text Text)
  write : Text → Text → m (Except Text Unit)

/-- Files by name. A name may lead through folders inside the folder. -/
abbrev Folder := List (Text × Text)

namespace Folder

/-- The steps that a name leads through. -/
def steps (name : Text) : List Text :=
  (Text.splitOn 0x2f name).filter fun s => !(s.isEmpty || s = [0x2e])

/-- Whether a name can only be that of a folder. -/
def namesFolder (name : Text) : Bool :=
  match (Text.splitOn 0x2f name).getLast? with
  | some s => s.isEmpty || s = [0x2e]
  | none => false

/-- The message that a file is missing. -/
def missing (name : Text) : Text := ("open " : Text) ++ name ++ (": no such file or directory" : Text)

/-- The message that a name leads through a file as if it were a folder. -/
def throughFile (name : Text) : Text := ("open " : Text) ++ name ++ (": not a directory" : Text)

/-- The message that a name is that of a folder. -/
def isFolder (name : Text) : Text := ("read " : Text) ++ name ++ (": is a directory" : Text)

/-- Reads a file. -/
def read (f : Folder) (name : Text) : Except Text Text :=
  let way := steps name
  if name.isEmpty || name.head? = some 0x2f then .error (missing name)
  else
    match f.find? fun (n, _) => steps n = way with
    | some (_, content) => if namesFolder name then .error (throughFile name) else .ok content
    | none =>
      if f.any fun (n, _) => way.isPrefixOf (steps n) then .error (isFolder name)
      else if way.isEmpty then .error (isFolder name)
      else if f.any fun (n, _) => (steps n).isPrefixOf way then .error (throughFile name)
      else .error (missing name)

/-- Replaces the content of a file that is there. -/
def write (f : Folder) (name content : Text) : Folder :=
  f.map fun (n, old) => (n, if steps n = steps name then content else old)

/-- Files kept in a folder. -/
def files : Files (StateM Folder) where
  read name := return (← get).read name
  write name content := do
    modify (·.write name content)
    return .ok ()

end Folder

end Galley.Command

import RegionNet.Command.Path

/-!
# Hosts

What the command line needs from the system that it runs on: access to files, and a seed for runs
that bring none.
-/

namespace RegionNet

/-- Why a file could not be used. -/
inductive FileError where
  | notFound
  | busy
  | alreadyThere
  | notAFolder
  | isAFolder
  | nameTooLong
  | notText
  | other (text : String)
  deriving DecidableEq, Repr

def FileError.message : FileError → String
  | notFound => "No such file or directory (os error 2)"
  | busy => "Device or resource busy (os error 16)"
  | alreadyThere => "File exists (os error 17)"
  | notAFolder => "Not a directory (os error 20)"
  | isAFolder => "Is a directory (os error 21)"
  | nameTooLong => "File name too long (os error 36)"
  | notText => "stream did not contain valid UTF-8"
  | other text => text

class Host (m : Type → Type) where
  /-- The text of a file. -/
  readFile : String → m (Except FileError String)
  /-- Makes or replaces a file in a folder that is there. -/
  writeFile : String → String → m (Except FileError Unit)
  /-- There is a file or folder. -/
  isPresent : String → m Bool
  /-- Makes a folder in a folder that is there. -/
  makeFolder : String → m (Except FileError Unit)
  /-- Moves a file over another one. -/
  moveFile : String → String → m (Except FileError Unit)
  /-- A number that nobody could have known. -/
  freshSeed : m UInt64

namespace Host

variable {m : Type → Type} [Monad m] [Host m]

/-- There is a folder. -/
def isFolder (path : String) : m Bool := isPresent (path ++ "/.")

/-- Makes a folder, unless it is there. -/
def provideFolder (path : String) : m (Except FileError Unit) := do
  match ← makeFolder path with
  | .error .alreadyThere =>
    return if ← isFolder path then .ok () else .error .alreadyThere
  | made => return made

/-- Makes the first of some folders that lie in each other, the innermost first, unless it is there.
If that fails for want of the next one, this is made before it. -/
def provideFolders : List String → m (Except FileError Unit)
  | [] => return .ok ()
  | path :: outer => do
    match ← provideFolder path with
    | .error .notFound =>
      match ← provideFolders outer with
      | .ok () => provideFolder path
      | .error e => return .error e
    | made => return made

/-- Makes a folder, and those that it lies in. -/
def makeFolders (path : String) : m (Except FileError Unit) := provideFolders (Path.ancestors path)

end Host

end RegionNet

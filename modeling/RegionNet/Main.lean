import RegionNet.Command.Run

/-!
# The program

The command line on a real system: its files, its source of seeds, and printing.
-/

namespace RegionNet

/-- The number of a failure, which some systems give with a minus sign. -/
def failureNumber (code : UInt32) : UInt32 := min code (0 - code)

/-- What a failure of the system means for a file. -/
def FileError.ofSystem (e : IO.Error) : FileError :=
  match e with
  | .noFileOrDirectory .. => .notFound
  | .resourceBusy .. => .busy
  | .alreadyExists _ code _ =>
    if failureNumber code = 17 then .alreadyThere else .other (toString e)
  | .inappropriateType _ code _ =>
    if failureNumber code = 20 then .notAFolder
    else if failureNumber code = 21 then .isAFolder
    else .other (toString e)
  | .invalidArgument _ code _ =>
    if failureNumber code = 36 then .nameTooLong else .other (toString e)
  | .userError _ => .notText
  | e => .other (toString e)

/-- Carries out an action on files. -/
def onFiles {β : Type} (action : IO β) : IO (Except FileError β) := do
  match ← action.toBaseIO with
  | .ok x => return .ok x
  | .error e => return .error (.ofSystem e)

instance : Host IO where
  readFile path := onFiles (IO.FS.readFile path)
  writeFile path text := onFiles (IO.FS.writeFile path text)
  isPresent path := do
    match ← onFiles (IO.FS.Handle.mk path .read) with
    | .ok _ => return true
    | .error (.other _) => return true
    | .error _ => return false
  makeFolder path := onFiles (IO.FS.createDir path)
  moveFile source target := onFiles (IO.FS.rename source target)
  freshSeed := do return UInt64.ofNat (← IO.rand 0 (UInt64.size - 1))

end RegionNet

/-- Runs the request on the command line. -/
def main (words : List String) : IO UInt32 := do
  let outcome : RegionNet.Outcome ← RegionNet.Command.run words
  (← IO.getStdout).putStr outcome.out
  (← IO.getStderr).putStr outcome.err
  return UInt32.ofNat outcome.code

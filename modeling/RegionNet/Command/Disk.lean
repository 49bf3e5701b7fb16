import RegionNet.Command.Host

/-!
# Disks

A working folder with files and folders in it, as a value, and what little is known of the system
around it. Paths are followed name by name, the way a system follows them: everything on the way
must be a folder, also in front of a dot.
-/

namespace RegionNet

namespace Disk

/-- Where a path can begin. -/
inductive Base where
  /-- The working folder. -/
  | working
  /-- A folder in which the working folder lies. -/
  | above
  /-- The root of all folders. -/
  | system
  deriving DecidableEq, Repr

/-- A place at which there can be a file or a folder. -/
structure Place where
  base : Base
  names : List String
  deriving DecidableEq, Repr

namespace Place

/-- The place at which a path begins. -/
def origin (path : String) : Place := ⟨if Path.isAbsolute path then .system else .working, []⟩

def child (p : Place) (name : String) : Place := ⟨p.base, p.names ++ [name]⟩

/-- The folder in which a place lies. The root lies in itself. -/
def up : Place → Place
  | ⟨.working, []⟩ => ⟨.above, []⟩
  | ⟨base, names⟩ => ⟨base, names.dropLast⟩

end Place

end Disk

structure Disk where
  files : List (Disk.Place × String)
  folders : List Disk.Place

namespace Disk

/-- The disk with an empty working folder, in a system that has the usual folders and a file that is
always empty. -/
def empty : Disk where
  files := [(⟨.system, ["dev", "null"]⟩, "")]
  folders := ["dev", "etc", "tmp", "usr"].map fun name => ⟨.system, [name]⟩

/-- What a place on a disk holds. -/
inductive Content where
  | file (text : String)
  | folder
  | nothing

def content (d : Disk) (place : Place) : Content :=
  match d.files.lookup place with
  | some text => .file text
  | none => if place.names = [] ∨ place ∈ d.folders then .folder else .nothing

/-- The number of bytes that a name may have. -/
def maxName : Nat := 255

/-- The number of bytes that a path may have. -/
def maxPath : Nat := 4095

/-- Follows a name from a place, which must be a folder. -/
def follow (d : Disk) (place : Place) (name : String) : Except FileError Place :=
  match d.content place with
  | .file _ => .error .notAFolder
  | .nothing => .error .notFound
  | .folder =>
    if name = "." then .ok place
    else if name = ".." then .ok place.up
    else if maxName < name.utf8ByteSize then .error .nameTooLong
    else .ok (place.child name)

/-- Follows names from where a path begins. -/
def walk (d : Disk) (path : String) (names : List String) : Except FileError Place :=
  if maxPath < path.utf8ByteSize then .error .nameTooLong
  else names.foldlM d.follow (.origin path)

/-- The place that a path leads to. -/
def locate (d : Disk) (path : String) : Except FileError Place := do
  let place ← d.walk path (Path.names path)
  match d.content place with
  | .file _ => if Path.endsInSlash path then .error .notAFolder else .ok place
  | _ => .ok place

/-- The folder that the last name of a path lies in, and this name; nothing if every folder has the
name. -/
def entry (d : Disk) (path : String) : Except FileError (Option (Place × String)) := do
  let names := Path.names path
  let folder ← d.walk path (names.dropLast ++ ["."])
  return (names.getLast?.filter (!Path.isDots ·)).map (folder, ·)

def read (d : Disk) (path : String) : Except FileError String := do
  let place ← d.locate path
  match d.content place with
  | .file text => .ok text
  | .folder => .error .isAFolder
  | .nothing => .error .notFound

/-- Takes away what is at a place. -/
def erase (d : Disk) (place : Place) : Disk :=
  { d with files := d.files.filter fun (p, _) => p ≠ place }

/-- Puts a text at a place. -/
def put (d : Disk) (place : Place) (text : String) : Disk :=
  { d.erase place with files := (place, text) :: (d.erase place).files }

def write (d : Disk) (path text : String) : Except FileError Disk := do
  match ← d.entry path with
  | none => .error .isAFolder
  | some (folder, name) =>
    if Path.endsInSlash path then .error .isAFolder
    else
      let place ← d.follow folder name
      match d.content place with
      | .folder => .error .isAFolder
      | _ => .ok (d.put place text)

def isPresent (d : Disk) (path : String) : Bool :=
  match d.locate path with
  | .error _ => false
  | .ok place =>
    match d.content place with
    | .nothing => false
    | _ => true

def makeFolder (d : Disk) (path : String) : Except FileError Disk := do
  match ← d.entry path with
  | none => .error .alreadyThere
  | some (folder, name) =>
    let place ← d.follow folder name
    match d.content place with
    | .nothing => .ok { d with folders := place :: d.folders }
    | _ => .error .alreadyThere

/-- Moves a file. Both paths must end in names of their own, and the target must not be a folder. -/
def move (d : Disk) (source target : String) : Except FileError Disk := do
  match ← d.entry source, ← d.entry target with
  | some (folder, name), some (newFolder, newName) =>
    let old ← d.follow folder name
    let new ← d.follow newFolder newName
    match d.content old with
    | .nothing => .error .notFound
    | .folder => .error .isAFolder
    | .file text =>
      if Path.endsInSlash source || Path.endsInSlash target then .error .notAFolder
      else
        match d.content new with
        | .folder => .error .isAFolder
        | _ => .ok ((d.erase old).put new text)
  | _, _ => .error .busy

/-- Puts a file into the working folder, with the folders that it lies in. -/
def install (d : Disk) (path text : String) : Disk :=
  let names := (Path.names path).filter (· ≠ ".")
  let folders := (List.range names.length).map fun n => ⟨.working, names.take n⟩
  { d.put ⟨.working, names⟩ text with folders := folders ++ d.folders }

/-- Applies a change to the disk, unless it fails. -/
def attempt (change : Disk → Except FileError Disk) : StateM Disk (Except FileError Unit) :=
  fun d =>
    match change d with
    | .ok d => (.ok (), d)
    | .error e => (.error e, d)

instance : Host (StateM Disk) where
  readFile path := fun d => (d.read path, d)
  writeFile path text := attempt (·.write path text)
  isPresent path := fun d => (d.isPresent path, d)
  makeFolder path := attempt (·.makeFolder path)
  moveFile source target := attempt (·.move source target)
  freshSeed := pure 0

end Disk

end RegionNet

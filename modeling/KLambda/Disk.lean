import KLambda.Table

/-!
Files by path. Names are relative to one directory unless they start with a slash; a name with
slashes implies the directories before it. Errors are worded as the operating system words them.
-/
namespace KLambda

inductive OsError where
  | noSuchFile
  | notADirectory
  | isADirectory
  | nameTooLong
  | nulInPath
deriving DecidableEq, Repr

def OsError.text : OsError → String
  | .noSuchFile => "No such file or directory (os error 2)"
  | .notADirectory => "Not a directory (os error 20)"
  | .isADirectory => "Is a directory (os error 21)"
  | .nameTooLong => "File name too long (os error 36)"
  | .nulInPath => "file name contained an unexpected NUL byte"

/-- The files, further directories, and the paths that were asked for and not there. -/
structure Disk where
  files : Table (Array UInt8)
  folders : List String
  missed : List String

/-- What a path leads to. -/
inductive Entry where
  | file (name : String)
  | directory
  | missing (name : String)
deriving DecidableEq, Repr

namespace Disk

def empty : Disk := ⟨.empty, [], []⟩

def joined (parts : List String) : String := "/".intercalate parts

/-- The working directory and the root are there, and so is what has files below it. -/
def hasDirectory (d : Disk) (parts : List String) : Bool :=
  parts.isEmpty || parts == [""] || d.folders.contains (joined parts) ||
    d.files.entries.any fun (name, _) => (joined parts ++ "/").isPrefixOf name

/-- The directory above, which the root is itself. -/
def parent (parts : List String) : List String :=
  if parts == [""] then parts else parts.dropLast

/-- Follows the parts of a path; `done` are those behind, in order. -/
def walk (d : Disk) (done : List String) : List String → Except OsError Entry
  | [] => if d.hasDirectory done then .ok .directory else .error .noSuchFile
  | part :: rest =>
    if part = "" || part = "." then d.walk done rest
    else if part = ".." then d.walk (parent done) rest
    else if 255 < part.utf8ByteSize then .error .nameTooLong
    else
      let path := done ++ [part]
      if d.files.contains (joined path) then
        if rest.isEmpty then .ok (.file (joined path)) else .error .notADirectory
      else if d.hasDirectory path then d.walk path rest
      else if rest.isEmpty then .ok (.missing (joined path))
      else if rest.all (· = "") then .error .isADirectory
      else .error .noSuchFile

def resolve (d : Disk) (path : String) : Except OsError Entry :=
  if path.toList.contains '\x00' then .error .nulInPath
  else if path = "" then .error .noSuchFile
  else d.walk (if path.startsWith "/" then [""] else []) (path.splitOn "/")

def contents (d : Disk) (name : String) : Array UInt8 := (d.files.get? name).getD #[]

/-- Opens for reading: a directory opens too, and fails when it is read. -/
def open? (d : Disk) (path : String) : Except OsError Entry :=
  match d.resolve path with
  | .ok (.missing _) => .error .noSuchFile
  | .error .isADirectory => .error .noSuchFile
  | r => r

/-- Makes an empty file, or empties the one that is there. -/
def create (d : Disk) (path : String) : Except OsError (String × Disk) :=
  match d.resolve path with
  | .ok (.file name) | .ok (.missing name) =>
    .ok (name, { d with files := d.files.insert name #[] })
  | .ok .directory => .error .isADirectory
  | .error e => .error e

/-- Replaces the bytes from `offset` on, filling a gap before them with zeros. -/
def writeAt (d : Disk) (name : String) (offset : Nat) (bytes : Array UInt8) : Disk :=
  let old := d.contents name
  let front := old.extract 0 offset ++ Array.replicate (offset - old.size) 0
  let new := front ++ bytes ++ old.extract (offset + bytes.size) old.size
  { d with files := d.files.insert name new }

def miss (d : Disk) (path : String) : Disk := { d with missed := path :: d.missed }

end Disk
end KLambda

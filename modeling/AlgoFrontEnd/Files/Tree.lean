import AlgoFrontEnd.Files.Path
import AlgoFrontEnd.Text.Quoted

/-! What stands at a path, and trees of files in which paths are followed. -/
namespace AlgoFrontEnd.Files

/-- What is at a path: a file with its bytes, a directory, nothing in an existing directory,
nothing for want of a directory, nothing because a file stands in the way, or nothing because no
name is as long. -/
inductive Entry where
  | file (bytes : List UInt8)
  | directory
  | vacant
  | absent
  | blocked
  | overlong
  deriving DecidableEq, Repr

/-- Files and further directories by their parts from the root, and the directory in which paths
start that do not start at the root. -/
structure Tree where
  files : List (List String × List UInt8)
  directories : List (List String)
  here : List String
  deriving DecidableEq, Repr

/-- Bytes that one part of a path may have. -/
def maxNameBytes : Nat := 255

/-- Bytes that a whole path may have. -/
def maxPathBytes : Nat := 4095

namespace Tree

def bytes? (t : Tree) (parts : List String) : Option (List UInt8) :=
  (t.files.find? (·.1 = parts)).map (·.2)

/-- A directory is known by itself or by what it holds; the root always is one. -/
def isDirectory (t : Tree) (parts : List String) : Bool :=
  parts.isPrefixOf t.here || t.directories.any parts.isPrefixOf ||
    t.files.any fun file => parts.length < file.1.length && parts.isPrefixOf file.1

/-- Follows parts from a directory, which is given from the inside outwards. -/
def follow (t : Tree) (inside : List String) : List String → Entry
  | [] => .directory
  | part :: rest =>
    if staysAt part then t.follow inside rest
    else if part = ".." then t.follow inside.tail rest
    else if maxNameBytes < part.utf8ByteSize then .overlong
    else
      let inside := part :: inside
      if t.isDirectory inside.reverse then t.follow inside rest
      else match t.bytes? inside.reverse, rest with
        | some bytes, [] => .file bytes
        | some _, _ :: _ => .blocked
        | none, [] => .vacant
        | none, _ :: _ => .absent

/-- Where a path starts, from the inside outwards. -/
def origin (t : Tree) (path : String) : List String :=
  match path.toList with
  | '/' :: _ => []
  | _ => t.here.reverse

/-- What is at a path. Nothing is at the empty one. -/
def at? (t : Tree) (path : String) : Entry :=
  if path = "" then .absent
  else if maxPathBytes < path.utf8ByteSize then .overlong
  else t.follow (t.origin path) (partsOf path)

/-- Where a path leads, from the root. -/
def place (t : Tree) (path : String) : List String :=
  (settle (t.origin path) (partsOf path)).reverse

/-- The tree with other bytes in the file at a place, which may be new. -/
def put (t : Tree) (place : List String) (bytes : List UInt8) : Tree :=
  { t with files := (place, bytes) :: t.files.filter (·.1 ≠ place) }

/-- The parts of a path from where the tree's own paths start, if it leads there. -/
def within? (t : Tree) (path : String) : Option (List String) :=
  let parts := (settle (t.origin path) (partsOf path)).reverse
  if t.here.isPrefixOf parts then some (parts.drop t.here.length) else none

end Tree

/-- Why no file can be used at a path. -/
inductive AccessFault where
  | isDirectory
  | missingDirectory
  | notDirectory
  | overlong
  deriving DecidableEq, Repr

/-- Why nothing can be written where an entry is. -/
def Entry.writeFault? : Entry → Option AccessFault
  | file _ | vacant => none
  | directory => some .isDirectory
  | absent => some .missingDirectory
  | blocked => some .notDirectory
  | overlong => some .overlong

def AccessFault.message (path : String) : AccessFault → String
  | isDirectory => "[Errno 21] Is a directory: " ++ Text.quoted path
  | missingDirectory => "[Errno 2] No such file or directory: " ++ Text.quoted path
  | notDirectory => "[Errno 20] Not a directory: " ++ Text.quoted path
  | overlong => "[Errno 36] File name too long: " ++ Text.quoted path

end AlgoFrontEnd.Files

/-! Paths as texts: their parts, where these lead, and the form in which paths are shown. -/
namespace AlgoFrontEnd.Files

/-- The stretches between slashes. -/
def pathParts : List Char → List (List Char)
  | [] => [[]]
  | '/' :: rest => [] :: pathParts rest
  | c :: rest =>
    match pathParts rest with
    | [] => [[c]]
    | first :: more => (c :: first) :: more

/-- Two slashes at the start stand for a root of their own; any other number is one root. -/
def pathRoot (path : List Char) : List Char :=
  match path.takeWhile (· = '/') with
  | [] => []
  | ['/', '/'] => ['/', '/']
  | _ => ['/']

/-- A path without empty parts and single dots, as it is shown. The empty path is a dot. -/
def normalPath (path : String) : String :=
  let kept := (pathParts path.toList).filter fun part => part ≠ [] && part ≠ ['.']
  let text := pathRoot path.toList ++ ['/'].intercalate kept
  if text.isEmpty then "." else String.ofList text

def partsOf (path : String) : List String := (pathParts path.toList).map String.ofList

/-- An empty part or a single dot stays where it is. -/
def staysAt (part : String) : Bool := part = "" || part = "."

/-- Where parts lead from a place, both places from the inside outwards. A double dot leads one
part outwards, and nowhere from the root. -/
def settle (inside : List String) : List String → List String
  | [] => inside
  | part :: rest =>
    if staysAt part then settle inside rest
    else if part = ".." then settle inside.tail rest
    else settle (part :: inside) rest

end AlgoFrontEnd.Files

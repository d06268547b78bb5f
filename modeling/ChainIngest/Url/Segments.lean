import ChainIngest.Url.Basic
/-!
# Paths of segments

A path is read segment by segment.  A point stands for the segment before it and
two points for the one above, which is why neither is kept.  A segment that names
a disk is never left by going up.
-/

namespace ChainIngest.Url

def isSlash (special : Bool) (c : Char) : Bool := c = '/' || (special && c = '\\')

def pieces (special : Bool) : List Char → List (List Char)
  | [] => [[]]
  | c :: rest =>
    if isSlash special c then [] :: pieces special rest
    else
      match pieces special rest with
      | first :: more => (c :: first) :: more
      | [] => [[c]]

/-! ## Disks -/

/-- Whether a segment names a disk: a letter, then a colon or a bar in its place. -/
def isDisk (segment : String) : Bool :=
  match segment.toList with
  | [letter, mark] => letter.isAlpha && (mark = ':' || mark = '|')
  | _ => false

def closeDisk (segment : String) : String :=
  match segment.toList with
  | [letter, _] => if isDisk segment then String.ofList [letter, ':'] else segment
  | _ => segment

/-! ## Moving about -/

/-- A segment in lower case with its spelled-out points restored. -/
def dots (segment : String) : String :=
  let lower := String.ofList (segment.toList.map Char.toLower)
  match lower with
  | "%2e" => "."
  | ".%2e" | "%2e." | "%2e%2e" => ".."
  | other => other

/-- The segments one level up, last first: a disk stays. -/
def up : List String → List String
  | [] => []
  | last :: found => if isDisk last then last :: found else found

/-- The segments with those taken out that only move about; `found` holds the ones kept, last
first, and `lead` is the form in which a first segment is kept. -/
def walk (lead : String → String) (found : List String) : List String → List String
  | [] => found.reverse
  | s :: rest =>
    match dots s, rest with
    | "..", [] => ("" :: up found).reverse
    | "..", rest => walk lead (up found) rest
    | ".", [] => ("" :: found).reverse
    | ".", rest => walk lead found rest
    | _, rest => walk lead ((if found.isEmpty then lead s else s) :: found) rest

/-! ## Whole paths -/

def spelled (special : Bool) (cs : List Char) : List String :=
  (pieces special cs).map fun p => String.ofList (Percent.encode Percent.inPath p)

def segmentsOf (special : Bool) (cs : List Char) : Path :=
  .segments (walk id [] (spelled special cs))

def withoutSlash (special : Bool) : List Char → List Char
  | [] => []
  | c :: rest => if isSlash special c then rest else c :: rest

def pathAfterAuthority (special : Bool) (cs : List Char) : Path :=
  if cs.isEmpty ∧ !special then .segments [] else segmentsOf special (withoutSlash special cs)

def fileSegments (cs : List Char) : List String :=
  walk closeDisk [] (spelled true (withoutSlash true cs))

/-- Segments of which the first is not blank, unless there is one alone. -/
def withoutBlankLead : List String → List String
  | "" :: next :: rest => withoutBlankLead (next :: rest)
  | segments => segments

end ChainIngest.Url

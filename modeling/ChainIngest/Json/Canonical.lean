import ChainIngest.Json.Basic
/-!
# Canonical order

Objects with their members sorted by name, and of several members with one name
only the last.
-/

namespace ChainIngest.Json

/-- Adds a member at its place, in the place of one with the same name. -/
def insertMember (name : String) (value : Json) : List (String × Json) → List (String × Json)
  | [] => [(name, value)]
  | m :: rest =>
    if name < m.1 then (name, value) :: m :: rest
    else if name = m.1 then (name, value) :: rest
    else m :: insertMember name value rest

mutual

def canonical : Json → Json
  | .arr items => .arr (canonicalItems items)
  | .obj ms => .obj ((canonicalMembers ms).foldl (fun out m => insertMember m.1 m.2 out) [])
  | j => j

def canonicalItems : List Json → List Json
  | [] => []
  | j :: rest => canonical j :: canonicalItems rest

/-- Members as they stand, each value in canonical order. -/
def canonicalMembers : List (String × Json) → List (String × Json)
  | [] => []
  | (name, j) :: rest => (name, canonical j) :: canonicalMembers rest

end

end ChainIngest.Json

import ChainIngest.Bytes
/-!
# JSON values

Values as they stand in a text: object members keep their order and their
repetitions, and numbers that are not plain integers keep their spelling.
-/

namespace ChainIngest

inductive Json where
  | null
  | bool (b : Bool)
  /-- A number written with digits only, or with a minus sign before them. -/
  | int (n : Int)
  /-- Any other number, by its spelling. -/
  | decimal (spelling : String)
  | str (s : String)
  | arr (items : List Json)
  | obj (members : List (String × Json))
deriving Inhabited

namespace Json

def members? : Json → Option (List (String × Json))
  | .obj ms => some ms
  | _ => none

def lookup (ms : List (String × Json)) (name : String) : Option Json :=
  (ms.reverse.find? fun m => m.1 = name).map Prod.snd

def field? (j : Json) (name : String) : Option Json :=
  j.members?.bind fun ms => lookup ms name

def natural? : Json → Option Nat
  | .int n => if 0 ≤ n ∧ n < 2 ^ 64 then some n.toNat else none
  | _ => none

def string? : Json → Option String
  | .str s => some s
  | _ => none

def bool? : Json → Option Bool
  | .bool b => some b
  | _ => none

def items? : Json → Option (List Json)
  | .arr items => some items
  | _ => none

def isNull : Json → Bool
  | .null => true
  | _ => false

end Json

end ChainIngest

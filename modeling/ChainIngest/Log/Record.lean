import ChainIngest.Json.Printer
/-!
# Log records

A record is a message with a level and a few named values.
-/

namespace ChainIngest.Log

inductive Level where
  | error
  | warn
  | info
  | debug
  | trace
deriving DecidableEq, Inhabited

namespace Level

/-- Every level, the gravest first. -/
def all : List Level := [error, warn, info, debug, trace]

def name : Level → String
  | error => "ERROR"
  | warn => "WARN"
  | info => "INFO"
  | debug => "DEBUG"
  | trace => "TRACE"

/-- The level's place among all, counted from one. -/
def rank : Level → Nat
  | error => 1
  | warn => 2
  | info => 3
  | debug => 4
  | trace => 5

end Level

structure Record where
  level : Level
  message : String
  fields : List (String × Json)

namespace Record

def toJson (r : Record) : Json :=
  .obj [("level", .str r.level.name), ("fields", .obj (("message", .str r.message) :: r.fields))]

/-- A value as it stands in a line: a text without its quotes. -/
def plain : Json → String
  | .str s => s
  | j => j.compact

def line (r : Record) : String :=
  " ".intercalate (r.level.name :: r.message :: r.fields.map fun f => f.1 ++ "=" ++ plain f.2)

end Record

end ChainIngest.Log

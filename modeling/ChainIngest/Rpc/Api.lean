/-!
# Trace interfaces

Nodes expose call traces through one of two interfaces: as nested frames, or as
a flat list of frames with addresses.
-/

namespace ChainIngest.Rpc

inductive TraceApi where
  | debug
  | parity
deriving DecidableEq, Inhabited

namespace TraceApi

def name : TraceApi → String
  | .debug => "debug"
  | .parity => "parity"

def lower (text : String) : String := String.ofList (text.toList.map Char.toLower)

def ofName? (text : String) : Option TraceApi :=
  match lower text with
  | "debug" => some .debug
  | "parity" => some .parity
  | "trace" => some .parity
  | _ => none

def unknownMessage (text : String) : String :=
  "unknown trace API '" ++ lower text ++ "', expected 'debug' or 'parity'"

end TraceApi

end ChainIngest.Rpc

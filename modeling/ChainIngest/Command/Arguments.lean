import ChainIngest.Command.Options
/-!
# Arguments

The arguments of the program, read from left to right.  A setting is given once,
by its name or its letter; a switch is turned on by its name alone, and any other
setting takes its value after an equals sign or as the next argument.  A value is
looked at only when the next setting begins or the arguments end, so a fault in
what follows may be reported first.  The environment fills in what the arguments
leave open.
-/

namespace ChainIngest.Command

/-! ## Refusals -/

inductive Refusal where
  | unknownArgument
  | invalidValue
  | valueValidation
  | argumentConflict
  | tooManyValues
  | help
  | version
deriving DecidableEq, Inhabited

namespace Refusal

def label : Refusal → String
  | unknownArgument => "UnknownArgument"
  | invalidValue => "InvalidValue"
  | valueValidation => "ValueValidation"
  | argumentConflict => "ArgumentConflict"
  | tooManyValues => "TooManyValues"
  | help => "DisplayHelp"
  | version => "DisplayVersion"

/-- The code that the program ends with: to ask for help or the version is no mistake. -/
def exitCode : Refusal → Nat
  | help | version => 0
  | _ => 2

end Refusal

/-! ## Single arguments -/

inductive Argument where
  /-- Two dashes: no setting follows. -/
  | separator
  /-- A name after two dashes, perhaps with a value. -/
  | long (name : String) (value : Option String)
  | short (letters : List Char)
  /-- Anything else, a lone dash included. -/
  | plain (text : String)
deriving DecidableEq, Inhabited

def Argument.ofString (text : String) : Argument :=
  match text.toList with
  | ['-', '-'] => .separator
  | '-' :: '-' :: rest =>
    let (name, value) := rest.span (· ≠ '=')
    .long (String.ofList name) (value.tail?.map String.ofList)
  | '-' :: c :: rest => .short (c :: rest)
  | _ => .plain text

/-! ## Reading -/

structure Reading where
  options : Options
  given : List Setting
  /-- The setting whose value is still to come or to be read. -/
  pending : Option (Setting × Option String)
  closed : Bool
deriving DecidableEq, Inhabited

namespace Reading

def start : Reading := ⟨.standard, [], none, false⟩

def enter (s : Setting) (text : String) (r : Reading) : Except Refusal Reading :=
  if s ∈ r.given then .error .argumentConflict
  else
    match s.assign? text r.options with
    | some options => .ok { r with options := options, given := s :: r.given }
    | none => .error .valueValidation

/-- Takes the pending setting, which must have got its value. -/
def settle (r : Reading) : Except Refusal Reading :=
  match r.pending with
  | none => .ok r
  | some (_, none) => .error .invalidValue
  | some (s, some text) => enter s text { r with pending := none }

def turnOn (s : Setting) (r : Reading) : Except Refusal Reading := do (← r.settle).enter s "true"

def stop (why : Refusal) (r : Reading) : Except Refusal Reading := do
  discard r.settle
  .error why

def long (name : String) (value : Option String) (r : Reading) : Except Refusal Reading :=
  match Setting.ofName? name, value with
  | some s, none =>
    if s.isSwitch then r.turnOn s else return { ← r.settle with pending := some (s, none) }
  | some s, some text =>
    if s.isSwitch then .error .tooManyValues else do (← r.settle).enter s text
  | none, value =>
    let why := if name = "help" then some Refusal.help
      else if name = "version" then some Refusal.version else none
    match why, value with
    | none, _ => .error .unknownArgument
    | some _, some _ => .error .tooManyValues
    | some why, none => r.stop why

def letter (r : Reading) (c : Char) : Except Refusal Reading :=
  match Setting.ofLetter? c with
  | some s => r.turnOn s
  | none =>
    if c = 'h' then r.stop .help
    else if c = 'V' then r.stop .version
    else .error .unknownArgument

/-- Reads an argument that names no setting: it can only be a value that is still to come. -/
def plain (text : String) (r : Reading) : Except Refusal Reading :=
  match r.pending with
  | some (s, none) => .ok { r with pending := some (s, some text) }
  | _ => .error .unknownArgument

def take (r : Reading) (text : String) : Except Refusal Reading :=
  if r.closed then .error .unknownArgument
  else
    match Argument.ofString text with
    | .separator => .ok { r with closed := true }
    | .long name value => r.long name value
    | .short letters => letters.foldlM letter r
    | .plain text => r.plain text

/-- Takes a setting from the environment unless an argument gave it. -/
def fillIn (lookUp : String → Option String) (r : Reading) (s : Setting) :
    Except Refusal Reading :=
  match s.inEnvironment.bind lookUp with
  | some text => if s ∈ r.given then .ok r else r.enter s text
  | none => .ok r

end Reading

def Options.ofArguments (arguments : List String) (lookUp : String → Option String) :
    Except Refusal Options := do
  let told ← (← arguments.foldlM Reading.take .start).settle
  let filled ← Setting.all.foldlM (Reading.fillIn lookUp) told
  return filled.options

end ChainIngest.Command

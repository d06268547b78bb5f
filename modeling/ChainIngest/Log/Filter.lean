import ChainIngest.Log.Record
import ChainIngest.Text.Blank
import ChainIngest.Text.Natural
/-!
# Log filters

Which records are kept.  A filter is a list of directives between commas; each
names a level, or the part of the program that it is about, or both.  Of those
about a part the most specific one counts.
-/

namespace ChainIngest.Log

/-- The gravest levels that are kept, by their number; zero keeps nothing. -/
abbrev Limit := Nat

def upper (text : String) : String := String.ofList (text.toList.map Char.toUpper)

/-- The limit of a name in any letter case, or of a number. -/
def Limit.ofString? (text : String) : Option Limit :=
  match Text.Natural.ofString 64 text with
  | .ok n => if n ≤ 5 then some n else none
  | .error _ =>
    if upper text = "OFF" then some 0
    else (Level.all.find? fun l => l.name = upper text).map Level.rank

structure Directive where
  /-- How the names of the part begin; the empty text is about everything. -/
  part : String
  /-- Whether it is about single spans of activity within the part. -/
  narrow : Bool
  limit : Limit
deriving DecidableEq, Inhabited

namespace Directive

def everything : Limit := Level.trace.rank

/-- The limit after an equals sign; a missing one keeps everything. -/
def limitAfter (cs : List Char) : Option Limit :=
  match cs with
  | [] => some everything
  | _ => Limit.ofString? (String.ofList cs)

def opens (c : Char) : Bool := c.isAlphanum || c = '-' || c = ':' || c = '_' || 0x80 ≤ c.toNat

def ofNarrow? (part : String) (cs : List Char) : Option Directive :=
  match cs.dropWhile (· ≠ ']') with
  | [] => none
  | _ :: '=' :: limit => (limitAfter limit).map fun l => ⟨part, true, l⟩
  | [_] => some ⟨part, true, everything⟩
  | _ => none

def ofString? (text : String) : Option Directive :=
  let cs := (Text.trim text).toList
  let (name, rest) := cs.span fun c => c ≠ '=' && c ≠ '['
  let part := String.ofList name
  if name.isEmpty then
    match rest with
    | '[' :: spans => ofNarrow? "" spans
    | _ => none
  else if !(name.head?.any opens) then none
  else
    match rest with
    | [] =>
      match Limit.ofString? part with
      | some l => some ⟨"", false, l⟩
      | none => some ⟨part, false, everything⟩
    | '[' :: spans => ofNarrow? part spans
    | _ :: limit => (limitAfter limit).map fun l => ⟨part, false, l⟩

end Directive

structure Filter where
  directives : List Directive
deriving DecidableEq, Inhabited

namespace Filter

/-- The filter of directives; without any, only errors are kept. -/
def ofDirectives (ds : List Directive) : Filter :=
  ⟨if ds.isEmpty then [⟨"", false, Level.error.rank⟩] else ds⟩

def pieces (text : String) : List String :=
  ((text.toList.splitOnP (· = ',')).filter fun p => !p.isEmpty).map String.ofList

def ofString? (text : String) : Option Filter :=
  ((pieces text).mapM Directive.ofString?).map ofDirectives

def ofReadable (text : String) : Filter :=
  ofDirectives ((pieces text).filterMap Directive.ofString?)

/-- The better of two directives about a part: the more specific one, and the later of two that
are about the same. -/
def prefer (best : Option Directive) (d : Directive) : Option Directive :=
  match best with
  | none => some d
  | some b => if b.part.length ≤ d.part.length then some d else some b

def limitFor (part : String) (f : Filter) : Limit :=
  let about := f.directives.filter fun d => !d.narrow && part.startsWith d.part
  ((about.foldl prefer none).map Directive.limit).getD 0

def keeps (part : String) (f : Filter) (r : Record) : Bool := r.level.rank ≤ f.limitFor part

end Filter

end ChainIngest.Log

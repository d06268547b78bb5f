import ChainIngest.Url.Basic
import ChainIngest.Url.Segments
/-!
# Reading URLs

A text is a URL if it names a scheme and what follows has the form that goes with
the scheme: the web's own schemes always have a host and know two kinds of
slashes, all others may have an authority after two slashes, a path of segments
after one, and any text after none.
-/

namespace ChainIngest.Url

/-! ## Schemes -/

inductive SchemeKind where
  | web
  | file
  | other
deriving DecidableEq, Inhabited

def defaultPort? : String → Option Nat
  | "http" | "ws" => some 80
  | "https" | "wss" => some 443
  | "ftp" => some 21
  | _ => none

def kindOf (scheme : String) : SchemeKind :=
  if (defaultPort? scheme).isSome then .web else if scheme = "file" then .file else .other

def SchemeKind.special : SchemeKind → Bool
  | .other => false
  | _ => true

def endsAuthority (special : Bool) (c : Char) : Bool := isSlash special c || c = '?' || c = '#'

/-- A text without blanks and control characters at its ends and without line breaks and
tabulators anywhere. -/
def trimmed (cs : List Char) : List Char :=
  let cs := cs.dropWhile fun c => c.toNat ≤ 0x20
  let cs := (cs.reverse.dropWhile fun c => c.toNat ≤ 0x20).reverse
  cs.filter fun c => c ≠ '\t' ∧ c ≠ '\n' ∧ c ≠ '\x0d'

def scheme? (cs : List Char) : Option (String × List Char) :=
  let letters := cs.takeWhile fun c => c.isAlphanum || c = '+' || c = '-' || c = '.'
  match letters, cs.drop letters.length with
  | first :: _, ':' :: rest =>
    if first.isAlpha then some (String.ofList (letters.map Char.toLower), rest) else none
  | _, _ => none

/-! ## Authorities -/

def splitLast (mark : Char) (cs : List Char) : Option (List Char × List Char) :=
  if cs.contains mark then
    let after := (cs.reverse.takeWhile (· ≠ mark)).reverse
    some (cs.take (cs.length - after.length - 1), after)
  else none

/-- The host at the front of a text: up to a colon outside square brackets. -/
def spanHost : (inside : Bool) → List Char → List Char × List Char
  | _, [] => ([], [])
  | inside, c :: rest =>
    if c = ':' ∧ ¬inside then ([], c :: rest)
    else
      let inside := if c = '[' then true else if c = ']' then false else inside
      let (host, rest) := spanHost inside rest
      (c :: host, rest)

/-- The number that a port's digits spell, unless there are none or it is the scheme's own. -/
def port (scheme : String) (digits : List Char) : Except UrlError (Option Nat) :=
  let n := digits.foldl (fun n c => n * 10 + (c.toNat - 48)) 0
  if n ≥ 65536 then .error .port
  else .ok (if digits.isEmpty ∨ defaultPort? scheme = some n then none else some n)

def userinfo (cs : List Char) : String × Option String :=
  let name := cs.takeWhile (· ≠ ':')
  let password := (cs.drop name.length).drop 1
  let spell (cs : List Char) : String := String.ofList (Percent.encode Percent.inUserinfo cs)
  (spell name, if password.isEmpty then none else some (spell password))

/-- The authority at the front of a text, after its two slashes, and the rest. -/
def readAuthority (scheme : String) (kind : SchemeKind) (cs : List Char) :
    Except UrlError (Authority × List Char) := do
  let whole := cs.takeWhile fun c => !endsAuthority kind.special c
  let rest := cs.drop whole.length
  let (user, place) := (splitLast '@' whole).getD ([], whole)
  if whole = ['@'] ∧ ¬rest.isEmpty then throw .emptyHost
  let (username, password) := userinfo user
  let (hostText, afterHost) := spanHost false place
  if kind = .web ∧ hostText.isEmpty then throw .emptyHost
  let host ← if kind = .web then Host.web hostText else Host.plain hostText
  if hostText.isEmpty ∧ ¬afterHost.isEmpty then throw .emptyHost
  let afterColon := afterHost.drop 1
  let digits := afterColon.takeWhile Char.isDigit
  let number ← port scheme digits
  let beyond := afterColon.drop digits.length
  if !beyond.isEmpty ∧ beyond.head? ≠ some '\\' then throw .port
  if hostText.isEmpty ∧ (!username.isEmpty || password.isSome) then throw .emptyHost
  return (⟨username, password, host, number⟩, beyond ++ rest)

/-! ## Whole URLs -/

/-- A URL of parts whose path ends before the query and the fragment; `tail` holds these. -/
def assemble (scheme : String) (kind : SchemeKind) (a : Option Authority) (path : Path)
    (tail : List Char) : Url :=
  let queryText := tail.takeWhile (· ≠ '#')
  let fragmentText := tail.drop queryText.length
  let hidden := if kind.special then Percent.inSpecialQuery else Percent.inQuery
  { scheme := scheme
    authority := a
    path := path
    query := if queryText.isEmpty then none
      else some (String.ofList (Percent.encode hidden (queryText.drop 1)))
    fragment := if fragmentText.isEmpty then none
      else some (String.ofList (Percent.encode Percent.inFragment (fragmentText.drop 1))) }

def spanPath (cs : List Char) : List Char × List Char :=
  cs.span fun c => c ≠ '?' ∧ c ≠ '#'

def withAuthority (scheme : String) (kind : SchemeKind) (cs : List Char) :
    Except UrlError Url := do
  let (a, rest) ← readAuthority scheme kind cs
  let (path, tail) := spanPath rest
  return assemble scheme kind (some a) (pathAfterAuthority kind.special path) tail

/-- The URL of a file: it has an authority, whose host is empty for this machine.  A path that
starts with a disk is one of this machine. -/
def readFile (cs : List Char) : Except UrlError Url := do
  let build (host : Host) (rest : List Char) : Url :=
    let (path, tail) := spanPath rest
    let segments := fileSegments path
    let host := if segments.head?.any isDisk then .name "" else host
    assemble "file" .file (some ⟨"", none, host, none⟩) (.segments (withoutBlankLead segments))
      tail
  match cs with
  | a :: b :: rest =>
    if isSlash true a ∧ isSlash true b then
      let hostText := rest.takeWhile fun c => !endsAuthority true c
      let after := rest.drop hostText.length
      if hostText.isEmpty then return build (.name "") after
      else if isDisk (String.ofList hostText) then return build (.name "") rest
      else
        match ← Host.web hostText with
        | .name "localhost" => return build (.name "") after
        | host => return build host after
    else return build (.name "") cs
  | _ => return build (.name "") cs

def parse (text : String) : Except UrlError Url :=
  match scheme? (trimmed text.toList) with
  | none => .error .relative
  | some (scheme, rest) =>
    match kindOf scheme, rest with
    | .web, rest => withAuthority scheme .web (rest.dropWhile (isSlash true))
    | .file, rest => readFile rest
    | .other, '/' :: '/' :: rest => withAuthority scheme .other rest
    | .other, '/' :: rest =>
      let (path, tail) := spanPath rest
      .ok (assemble scheme .other none (segmentsOf false path) tail)
    | .other, rest =>
      let (path, tail) := spanPath rest
      .ok (assemble scheme .other none
        (.solid (String.ofList (Percent.encode Percent.control path))) tail)

/-- A text with the password hidden, if the text is a URL that has one. -/
def maskPassword (text : String) : String :=
  match parse text with
  | .ok u => (u.replacePassword "****").text
  | .error _ => text

def queryPairs (u : Url) : List (String × String) :=
  let fields := ((Host.splitAt '&' (u.query.getD "").toList).filter fun f => !f.isEmpty)
  let plain (cs : List Char) : String :=
    Text.Utf8.lossy (Percent.decode (cs.map fun c => if c = '+' then ' ' else c))
  fields.map fun f =>
    let name := f.takeWhile (· ≠ '=')
    (plain name, plain ((f.drop name.length).drop 1))

end ChainIngest.Url

import ChainIngest.Url.Host
/-!
# URLs

A URL in its parts, each in the form in which it stands in the text.
-/

namespace ChainIngest

namespace Url

structure Authority where
  /-- The user's name; empty if there is none. -/
  username : String
  /-- The password; never empty. -/
  password : Option String
  /-- The host; a name may be empty. -/
  host : Host
  /-- The port, unless it is the scheme's own. -/
  port : Option Nat
deriving DecidableEq, Inhabited

namespace Authority

def userinfo (a : Authority) : String :=
  match a.password with
  | some password => a.username ++ ":" ++ password ++ "@"
  | none => if a.username.isEmpty then "" else a.username ++ "@"

def text (a : Authority) : String :=
  a.userinfo ++ a.host.text ++ ((a.port.map fun p => ":" ++ toString p).getD "")

end Authority

inductive Path where
  | solid (text : String)
  /-- Segments, each after a slash. -/
  | segments (parts : List String)
deriving DecidableEq, Inhabited

def Path.text : Path → String
  | solid t => t
  | segments parts => String.join (parts.map fun p => "/" ++ p)

end Url

structure Url where
  /-- The scheme, in lower case. -/
  scheme : String
  /-- The authority, if there is one. -/
  authority : Option Url.Authority
  path : Url.Path
  query : Option String
  fragment : Option String
deriving DecidableEq, Inhabited

namespace Url

/-- The path, kept apart from the two slashes of an authority. -/
def guardedPath (u : Url) : String :=
  match u.authority, u.path with
  | none, .segments ("" :: _ :: _) => "/." ++ u.path.text
  | _, _ => u.path.text

def text (u : Url) : String :=
  u.scheme ++ ":" ++ ((u.authority.map fun a => "//" ++ a.text).getD "") ++ u.guardedPath ++
    ((u.query.map fun q => "?" ++ q).getD "") ++ ((u.fragment.map fun f => "#" ++ f).getD "")

/-- The URL with another password, if it has one. -/
def replacePassword (u : Url) (password : String) : Url :=
  match u.authority with
  | some a =>
    if a.password.isSome then { u with authority := some { a with password := some password } }
    else u
  | none => u

end Url

end ChainIngest

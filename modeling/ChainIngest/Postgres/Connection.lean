import ChainIngest.Text.Natural
import ChainIngest.Text.Quoted
import ChainIngest.Url.Parser
/-!
# Connections

Where a database is and how to log in to it, from a URL: its parts give host,
port, user, password and database, and its query may give any of them again
together with settings of the connection.  Settings that are not known are
ignored.
-/

namespace ChainIngest.Postgres

/-! ## Errors -/

inductive ConnectionFault where
  | url (e : UrlError)
  /-- A part is no text once its percent signs are resolved. -/
  | text (e : Text.Utf8.Fault)
  | number (e : Text.Natural.Fault)
  | machine
  | encryption (found : String)
deriving DecidableEq, Inhabited

namespace ConnectionFault

def opening : String := "error with configuration: "

def message : ConnectionFault → String
  | url e => opening ++ e.message
  | text e => opening ++ e.message
  | number e => opening ++ e.message
  | machine => opening ++ "invalid IP address syntax"
  | encryption found =>
    opening ++ opening ++ "unknown value " ++ Text.Quoted.encode found ++ " for `ssl_mode`"

end ConnectionFault

/-! ## Settings -/

inductive Encryption where
  | disable
  | allow
  | prefer
  | require
  | verifyAuthority
  | verifyFull
deriving DecidableEq, Inhabited

def Encryption.ofName? (text : String) : Option Encryption :=
  match text.toLower with
  | "disable" => some disable
  | "allow" => some allow
  | "prefer" => some prefer
  | "require" => some require
  | "verify-ca" => some verifyAuthority
  | "verify-full" => some verifyFull
  | _ => none

structure Connection where
  host : String
  /-- A path in the file system that is used in place of a machine. -/
  socket : Option String
  port : Nat
  /-- Who logs in; whoever runs the program unless told. -/
  user : Option String
  password : Option String
  database : Option String
  encryption : Encryption
  /-- Files for encryption, each with its role. -/
  certificates : List (String × String)
  statementCache : Nat
  application : Option String
  /-- Options for the server, in one line. -/
  options : Option String
deriving DecidableEq, Inhabited

namespace Connection

def standard : Connection where
  host := "localhost"
  socket := none
  port := 5432
  user := none
  password := none
  database := none
  encryption := .prefer
  certificates := []
  statementCache := 100
  application := none
  options := none

def addOptions (c : Connection) (more : String) : Connection :=
  { c with options := some ((c.options.map fun o => o ++ " " ++ more).getD more) }

def setOption (c : Connection) (name value : String) : Connection :=
  c.addOptions ("-c " ++ name ++ "=" ++ value)

/-- A machine, or a path that begins with a slash. -/
def setHost (c : Connection) (value : String) : Connection :=
  if value.startsWith "/" then { c with socket := some value } else { c with host := value }

/-- One of four numbers in the address of a machine: no sign, no leading zero, at most 255. -/
def octet? (cs : List Char) : Option Nat :=
  match cs with
  | [] => none
  | '0' :: _ :: _ => none
  | cs => ((Text.Natural.ofDigits 8 cs).toOption)

def isMachine (text : String) : Bool :=
  let parts := Url.Host.splitAt '.' text.toList
  (parts.length = 4 && parts.all fun p => (octet? p).isSome) || (Url.Host.ipv6? text.toList).isSome

def number (bits : Nat) (value : String) : Except ConnectionFault Nat :=
  (Text.Natural.ofString bits value).mapError .number

def bracketed? (name : String) : Option String :=
  match name.toList.reverse with
  | ']' :: rest => some (String.ofList (rest.reverse.drop "options[".length))
  | _ => none

def set (c : Connection) (setting : String × String) : Except ConnectionFault Connection :=
  let (name, value) := setting
  match name with
  | "sslmode" | "ssl-mode" =>
    match Encryption.ofName? value with
    | some mode => .ok { c with encryption := mode }
    | none => .error (.encryption value)
  | "sslrootcert" | "ssl-root-cert" | "ssl-ca" =>
    .ok { c with certificates := c.certificates ++ [("root", value)] }
  | "sslcert" | "ssl-cert" => .ok { c with certificates := c.certificates ++ [("client", value)] }
  | "sslkey" | "ssl-key" => .ok { c with certificates := c.certificates ++ [("key", value)] }
  | "statement-cache-capacity" => do return { c with statementCache := ← number 64 value }
  | "host" => .ok (c.setHost value)
  | "hostaddr" => if isMachine value then .ok { c with host := value } else .error .machine
  | "port" => do return { c with port := ← number 16 value }
  | "dbname" => .ok { c with database := some value }
  | "user" => .ok { c with user := some value }
  | "password" => .ok { c with password := some value }
  | "application_name" => .ok { c with application := some value }
  | "options" => .ok (c.addOptions value)
  | name =>
    if name.startsWith "options[" then
      match bracketed? name with
      | some option => .ok (c.setOption option value)
      | none => .ok c
    else .ok c

def plain (part : String) : Except ConnectionFault String :=
  (Text.Utf8.decode (Url.Percent.decode part.toList)).mapError .text

/-- The connection with a part of a URL that is there unless it is empty. -/
def withPart (c : Connection) (part : String) (put : Connection → String → Connection) :
    Except ConnectionFault Connection :=
  if part.isEmpty then .ok c else do return put c (← plain part)

def withHost (c : Connection) (host : String) : Except ConnectionFault Connection := do
  match Url.Percent.decode host.toList with
  | 0x2f :: _ => return { c with socket := some (← plain host) }
  | [] => return c
  | _ => return { c with host := host }

def ofUrl (u : Url) : Except ConnectionFault Connection := do
  let mut c := standard
  match u.authority with
  | some a =>
    c ← c.withHost a.host.text
    c := { c with port := a.port.getD c.port }
    c ← c.withPart a.username fun c user => { c with user := some user }
    c ← c.withPart (a.password.getD "") fun c password => { c with password := some password }
  | none => pure ()
  let path := String.ofList (u.path.text.toList.dropWhile (· = '/'))
  c ← c.withPart path fun c database => { c with database := some database }
  u.queryPairs.foldlM set c

def ofString (text : String) : Except ConnectionFault Connection := do
  ofUrl (← (Url.parse text).mapError .url)

def greeting (c : Connection) : List (String × String) :=
  let entry (name : String) (value : Option String) : List (String × String) :=
    (value.map fun v => (name, v)).toList
  entry "user" c.user ++ entry "database" c.database ++
    [("DateStyle", "ISO, MDY"), ("client_encoding", "UTF8"), ("TimeZone", "UTC"),
     ("extra_float_digits", "2")] ++
    entry "application_name" c.application ++ entry "options" c.options

end Connection

end ChainIngest.Postgres

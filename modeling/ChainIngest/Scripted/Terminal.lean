import ChainIngest.Command.Report
import ChainIngest.Scripted.Endpoint
import ChainIngest.Scripted.Server
/-!
# A scripted host

Everything that the program runs in, on script: an endpoint for the node, a server
for the database, and what is typed at the prompt.
-/

namespace ChainIngest.Scripted

structure Terminal where
  endpoint : Endpoint
  server : Server
  typed : String

namespace Terminal

def line (t : Terminal) : String := String.ofList (t.typed.toList.takeWhile (· ≠ '\n'))

/-- The host; its clock stands at a time of day, and an importer gets so many steps. -/
def host (clock : Int) (budget : Nat) : Command.Host Terminal where
  node api call t :=
    let (reaction, endpoint) := t.endpoint.react api call
    (reaction, { t with endpoint := endpoint })
  database statement t :=
    let (answer, server) := t.server.answer statement
    (answer, { t with server := server })
  line := line
  clock := clock
  budget := budget

def readServerScript (j : Json) : Fixture.Read (Server → Server) := do
  return Server.prepare (← readAnswers (Fixture.member j "rows"))
    (← Fixture.readNat (Fixture.member j "affected"))
    (← Fixture.listOf readRule (Fixture.member j "fail"))

def read (j : Json) : Fixture.Read Terminal := do
  return {
    endpoint := .ofScript (← Fixture.listOf Endpoint.readTurn (Fixture.member j "replies"))
    server := (← readServerScript (Fixture.member j "pg")) (.new "db")
    typed := ← Fixture.orDefault "" Fixture.readStr (Fixture.member j "stdin") }

end Terminal

end ChainIngest.Scripted

import ChainIngest.Importer.Session
import ChainIngest.Json.Canonical
import ChainIngest.Json.Printer
import ChainIngest.Rpc.Client
import ChainIngest.Scripted.Fixture
/-!
# A scripted endpoint

An endpoint that answers queries by prepared responses, one after another, keeps
the queries, and refuses every query after the last response.  In place of a
response the script may break the asker off.
-/

namespace ChainIngest.Scripted

open Rpc (Query Response)

structure Endpoint where
  /-- Responses still to come; none breaks the asker off. -/
  script : List (Option Response)
  /-- Queries so far, last first. -/
  queries : List Query

namespace Endpoint

def ofScript (script : List (Option Response)) : Endpoint := ⟨script, []⟩

def resultResponse (text : String) : Response :=
  ⟨200, "\x7b\"jsonrpc\":\"2.0\",\"id\":0,\"result\":" ++ text ++ "\x7d"⟩

def refusalResponse (error : Json) : Response :=
  ⟨200, (Json.obj [("jsonrpc", .str "2.0"), ("id", .int 0), ("error", error)]).compact⟩

def exhausted : Response :=
  refusalResponse (.obj [("code", .int (-1)), ("message", .str "script exhausted")])

/-- A prepared response: a result as a value or as a text, a refusal, or a status and a body. -/
def readResponse (j : Json) : Fixture.Read Response :=
  match j.field? "result", j.field? "text", j.field? "error" with
  | some result, _, _ => .ok (resultResponse result.canonical.compact)
  | none, some text, _ => resultResponse <$> Fixture.readStr text
  | none, none, some error => .ok (refusalResponse error)
  | none, none, none => do
    return ⟨← Fixture.readNat (Fixture.member j "status"), ← Fixture.readStr (Fixture.member j "body")⟩

/-- A turn of a script: a signal that breaks the asker off, or a response. -/
def readTurn (j : Json) : Fixture.Read (Option Response) :=
  match j.field? "signal" with
  | some _ => .ok none
  | none => some <$> readResponse j

def answer (q : Query) (e : Endpoint) : Option Response × Endpoint :=
  match e.script with
  | [] => (some exhausted, { e with queries := q :: e.queries })
  | turn :: rest => (turn, ⟨rest, q :: e.queries⟩)

def react (api : Rpc.TraceApi) (call : Importer.NodeCall) (e : Endpoint) :
    Importer.Reaction (Except NodeError call.Answer) × Endpoint :=
  match Dialogue.run answer (Rpc.askCall api call).run e with
  | (some reply, e) => (.answer (reply.mapError Rpc.Failure.toNodeError), e)
  | (none, e) => (.interruption, e)

def asked (e : Endpoint) : List Query := e.queries.reverse

end Endpoint

end ChainIngest.Scripted

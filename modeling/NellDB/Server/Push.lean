import NellDB.Server.Check

namespace NellDB

open Data

namespace Server

/-- The loop of a push handler, with the number of accepted records. -/
def applyChanges (server : Server) : List Record → Nat × Server
  | [] => (0, server)
  | r :: rest =>
      let accepted := (server.store.put r).1
      let (count, final) := (server.ingest r).applyChanges rest
      (if accepted then count + 1 else count, final)

def handlePush (server : Server) (changes : List Record) : (Nat × Nat) × Server :=
  let (accepted, final) := server.applyChanges changes
  ((accepted, changes.length), final)

def handleWebSocket (server : Server) (changes : List Record) : Server :=
  (server.applyChanges changes).2

/-- The records of a binary push: a length, then a record.  A record that does
not unmarshal is skipped; a body that is cut short ends the loop. -/
def decodePush : (fuel : Nat) → Bytes → List Record
  | 0, _ => []
  | fuel + 1, body =>
      if body.length < 4 then
        []
      else
        let recLen := fieldValue (body.take 4)
        let rest := body.drop 4
        if rest.length < recLen then
          []
        else
          match Record.unmarshalBinary (rest.take recLen) with
          | .error _ => decodePush fuel (rest.drop recLen)
          | .ok r => r :: decodePush fuel (rest.drop recLen)

/-- `handleBinPush` answers with the accepted count, narrowed to 32 bits. -/
def handleBinPush (server : Server) (body : Bytes) : Bytes × Server :=
  let (accepted, final) := server.applyChanges (decodePush body.length body)
  (bigEndian 4 accepted, final)

theorem applyChanges_server (server : Server) (changes : List Record) :
    (server.applyChanges changes).2 = server.ingestAll changes := by
  induction changes generalizing server with
  | nil => rfl
  | cons r rest ih => exact ih (server.ingest r)

/-! Every push path is a sequence of ingested records. -/

theorem handlePush_server (server : Server) (changes : List Record) :
    (server.handlePush changes).2 = server.ingestAll changes :=
  server.applyChanges_server changes

theorem handleWebSocket_server (server : Server) (changes : List Record) :
    server.handleWebSocket changes = server.ingestAll changes :=
  server.applyChanges_server changes

theorem handleBinPush_server (server : Server) (body : Bytes) :
    (server.handleBinPush body).2 =
      server.ingestAll (decodePush body.length body) :=
  server.applyChanges_server _

end Server

/-- A text record of the default collection by the writer `w`, without payload. -/
def plainNote (id : GoString) (wallTime : Int64) : Record :=
  ⟨defaultCollection, id, typeText, [], [], ⟨wallTime, 0⟩, ascii ['w'], false⟩

end NellDB

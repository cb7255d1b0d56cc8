/-
What a synchronous session is for: a map.

`SyncMap` is a map from database name to key to snappy stream, with the
database the session has selected and the responses it has given. It is
the reference for a connection that sends PING, SETDB, GET, and PUT and
DEL with the SYNC bit, outside a transaction, on databases that exist:
`SyncMap.step` is `none` for anything else. It knows nothing of
transactions, handles, buffers or allocation, and decodes a value in one
go. The session ends (`ended`) with the first answer `RESP_ERR_SERVER`.

This is not translated from the source; that the server behaves like it
is Proofs/Session.lean.
-/
import FineDB.Model.Lmdb
import FineDB.Model.Session

namespace FineDB

/-- A compressor: its output decodes to the data, for every length that
the four bytes of a request can announce. -/
structure Encoder where
  encode : Bytes → Bytes
  decodes : ∀ v, v.length < 2 ^ 32 → snappyUncompress (encode v) = some v

/-- The whole input as one literal is such an encoding. -/
def literalEncoder : Encoder where
  encode := literalStream
  decodes _ := snappyUncompress_literalStream

structure SyncMap where
  store : Store
  /-- the name of the selected database, `none` for the main one -/
  selected : Option Bytes
  /-- the responses so far -/
  sent : List Bytes
  /-- the session has ended -/
  ended : Bool

namespace SyncMap

def reply (m : SyncMap) (response : Bytes) : SyncMap :=
  { m with sent := m.sent ++ [response] }

/-- A bare response code. -/
def status (m : SyncMap) (code : ResponseCode) : SyncMap :=
  m.reply (responseBytes code false false none)

/-- `RESP_ERR_SERVER`, and the end of the session. -/
def fail (m : SyncMap) : SyncMap :=
  { m.status .RESP_ERR_SERVER with ended := true }

/-- The answer to a GET of the value `z`: as it is stored if the client
asks for that, otherwise decoded, the empty value being its own
decoding. -/
def value (m : SyncMap) (b : Byte) (z : Bytes) : SyncMap :=
  if requestHasCompressed b then
    m.reply (responseBytes .RESP_OK (requestHasSerialized b) true (some z))
  else
    match if z = [] then some [] else snappyUncompress z with
    | some v =>
        m.reply
          (responseBytes .RESP_OK (requestHasSerialized b) false (some v))
    | none => m.fail

/-- What PUT has compressed, GET gives back. -/
theorem value_encode (enc : Encoder) (m : SyncMap) {b : Byte}
    (hb : requestHasCompressed b = false) (data : Field 4) :
    m.value b (enc.encode data.bytes) = m.reply (responseBytes .RESP_OK
      (requestHasSerialized b) false (some data.bytes)) := by
  have hdec := enc.decodes data.bytes data.fits
  have hne : enc.encode data.bytes ≠ [] := by
    intro hnil
    rw [hnil] at hdec
    cases hdec
  unfold value
  rw [hb, if_neg (by simp), if_neg hne, hdec]

def get (m : SyncMap) (b : Byte) (key : Bytes) (db : Db) : SyncMap :=
  if validKey key then
    match db[key]? with
    | some z => m.value b z
    | none => m.status .RESP_ERR_BAD_NAME
  else m.fail

/-- Replace the selected database. -/
def write (m : SyncMap) (db : Db) : SyncMap :=
  { m with store := m.store.setDb m.selected db }

def put (enc : Encoder) (m : SyncMap) (b : Byte) (key data : Bytes)
    (db : Db) : SyncMap :=
  if validKey key then
    let z := if requestHasCompressed b then data else enc.encode data
    (m.write (db.insert key z)).status .RESP_OK
  else m.status .RESP_ERR_BAD_NAME

def del (m : SyncMap) (key : Bytes) (db : Db) : SyncMap :=
  if validKey key ∧ key ∈ db then (m.write (db.erase key)).status .RESP_OK
  else m.status .RESP_ERR_BAD_NAME

/-- The database requests are about, if it exists. -/
def db (m : SyncMap) : Option Db := m.store.db m.selected

def step (enc : Encoder) (req : Byte × Request) (m : SyncMap) :
    Option SyncMap :=
  if m.ended then some m
  else
    match req.2 with
    | .ping => some (m.status .RESP_OK)
    | .setdb name =>
        let selected :=
          if name.bytes = [] then none else some (cString name.bytes)
        some ({ m with selected := selected }.status .RESP_OK)
    | .get key => m.db.map fun db => m.get req.1 key.bytes db
    | .put key data =>
        if requestHasSync req.1 then
          m.db.map fun db => m.put enc req.1 key.bytes data.bytes db
        else none
    | .del key =>
        if requestHasSync req.1 then m.db.map fun db => m.del key.bytes db
        else none
    | .start => none
    | .stop => none

end SyncMap

end FineDB

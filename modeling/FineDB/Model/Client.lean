/-
The client library (src/lib/libfinedb.c).

Every function writes its request to the connection's socket in one
call, `write` or `sendmsg`, and then reads the response: one byte, and
for a GET the data. They are programs over `clientSig`, as the server's
are over its own signature, so a trace says what was written and how
much of it went out, and what was read.

Lengths are narrowed to the width of their field on the wire, eight,
sixteen and 32 bits, while the bytes themselves are sent in full.

`finedb_add` and `finedb_update` are `finedb_put`: the commands they
would need are compiled out. Left out of the module are the functions
that only set fields (`finedb_create`, `finedb_delete`, `finedb_sync`,
`finedb_async`); the mode they set is a parameter here.
-/
import FineDB.Model.Command

namespace FineDB

open Effect

/-- `finedb_result_t`. -/
inductive FinedbResult
  | FINEDB_OK
  | FINEDB_ERR_NETWORK
  | FINEDB_ERR_SERVER
  | FINEDB_ERR_FILE
  | FINEDB_ERR_MEMORY
  | FINEDB_ERR_ZIP
deriving DecidableEq, Repr

-- ================================================================ the calls

inductive ClientCall
  /-- `write` or `sendmsg` on the socket -/
  | write (bytes : Bytes)
  /-- `read(client->sock, &res, 1)` -/
  | readByte
  /-- `read(fd, buff, 8196)`, and `ydynabin_expand` on what it read -/
  | read
  | ymalloc (size : Nat)
  /-- a store through NULL, after which nothing is defined -/
  | nullStore
  | snappyInitEnv
  | snappyCompress (data : Bytes)
  /-- `snappy_uncompress` into a buffer of `len` bytes -/
  | snappyUncompress (z : Bytes) (len : Nat)
  | indeterminateSize

/-- What a `read` into a dynamic buffer comes to: bytes in the buffer,
bytes there was no memory for, or none. -/
inductive ReadRet
  | got (chunk : Chunk)
  | lost (chunk : Chunk)
  | ended (ending : Ending)

@[reducible] def ClientCall.Ret : ClientCall → Type
  | .write _ => Int
  | .readByte => Option Byte
  | .read => ReadRet
  | .ymalloc _ => Bool
  | .nullStore => Empty
  | .snappyInitEnv => Bool
  | .snappyCompress _ => Option Bytes
  | .snappyUncompress _ _ => Option Bytes
  | .indeterminateSize => Nat

@[reducible] def clientSig : Signature where
  Call := ClientCall
  Ret := ClientCall.Ret

/-- A piece of the client's code. -/
abbrev Client (α : Type) := Prog clientSig α

/-- One call. -/
@[simp] def lib (c : ClientCall) : Client c.Ret :=
  Prog.ask (S := clientSig) c

-- ================================================================= requests

/-- `REQUEST_ADD_SYNC(c)`. -/
def requestAddSync (b : Byte) : Byte := b ||| 0x10

/-- `REQUEST_ADD_COMPRESSED(c)`. -/
def requestAddCompressed (b : Byte) : Byte := b ||| 0x40

/-- `RESPONSE_STATUS(c)`. -/
def responseStatus (b : Byte) : Byte := b &&& 1

/-- Send a request and, if all of it went out, go on. -/
def sendRequest (bytes : Bytes) (k : Client FinedbResult) :
    Client FinedbResult := do
  if (← lib (.write bytes)) = bytes.length then k
  else return .FINEDB_ERR_NETWORK

/-- Read the response byte and judge it. -/
def readStatus : Client FinedbResult := do
  match ← lib .readByte with
  | none => return .FINEDB_ERR_NETWORK
  | some res =>
      if responseStatus res ≠ ResponseCode.RESP_OK.toByte then
        return .FINEDB_ERR_SERVER
      else return .FINEDB_OK

/-- The bytes of a SETDB. `dbname` is a C string, `none` for NULL; its
length goes into an `unsigned char`. -/
def setdbBytes (dbname : Option Bytes) : Bytes :=
  0x04 :: match dbname with
    -- the second byte is as the allocation left it, zero
    | none => [0]
    | some name => UInt8.ofNat (cString name).length :: cString name

/-- `finedb_setdb`; the allocation is not checked. -/
def finedbSetdb (dbname : Option Bytes) : Client FinedbResult := do
  let buff := setdbBytes dbname
  if ← lib (.ymalloc buff.length) then sendRequest buff readStatus
  else Empty.elim (← lib .nullStore)

/-- A request byte and a key, its length in 16 bits. -/
def keyBytes (code : Byte) (key : Bytes) : Bytes :=
  code :: beBytes 2 key.length ++ key

/-- `finedb_del`. -/
def finedbDel (sync : Bool) (key : Bytes) : Client FinedbResult :=
  let code := if sync then requestAddSync 0x02 else 0x02
  sendRequest (keyBytes code key) readStatus

/-- The bytes of a PUT: the key, then the compressed data, their length
in 32 bits. -/
def putBytes (sync : Bool) (key zipData : Bytes) : Bytes :=
  let code := requestAddCompressed 0x03
  let code := if sync then requestAddSync code else code
  keyBytes code key ++ beBytes 4 zipData.length ++ zipData

/-- `_send_key_data`, the same for its three callers. -/
def sendKeyData (sync : Bool) (key data : Bytes) :
    Client FinedbResult := do
  if ← lib .snappyInitEnv then
    if ← lib (.ymalloc (snappyMaxCompressedLength data.length)) then
      match ← lib (.snappyCompress data) with
      | none => return .FINEDB_ERR_ZIP
      | some zipData => sendRequest (putBytes sync key zipData) readStatus
    else return .FINEDB_ERR_MEMORY
  else return .FINEDB_ERR_NETWORK

def finedbPut (sync : Bool) (key data : Bytes) : Client FinedbResult :=
  sendKeyData sync key data

def finedbAdd (sync : Bool) (key data : Bytes) : Client FinedbResult :=
  sendKeyData sync key data

def finedbUpdate (sync : Bool) (key data : Bytes) : Client FinedbResult :=
  sendKeyData sync key data

/-- `_send_simple_request` and what its callers make of the response. -/
def sendSimpleRequest (code : Byte) : Client FinedbResult :=
  sendRequest [code] readStatus

def finedbStart : Client FinedbResult := sendSimpleRequest 0x05

def finedbStop : Client FinedbResult := sendSimpleRequest 0x06

def finedbPing : Client FinedbResult := sendSimpleRequest 0x00

-- ====================================================================== GET

/-- `_read_data`: read until the container holds `size` bytes. A
successful `read` gives at least one, so the missing bytes bound the
turns of the loop. -/
def readData (size : Nat) : Nat → Bytes → Client (Option Bytes)
  | 0, container => return some container
  | missing + 1, container => do
      if size ≤ container.length then return some container
      else match ← lib .read with
        | .got chunk => readData size missing (container ++ chunk.bytes)
        | .lost _ => return none
        | .ended _ => return none

/-- `_read_data` and `ydynabin_forward`: the next `size` bytes, and what
the container holds after them. -/
def readField (size : Nat) (container : Bytes) :
    Client (Option (Bytes × Bytes)) := do
  match ← readData size (size - container.length) container with
  | none => return none
  | some container => return some (container.take size, container.drop size)

/-- `unzip_len` after `snappy_uncompressed_length`, whose result is not
checked. -/
def valueLength (data : Bytes) : Client Nat :=
  match snappyUncompressedLength data with
  | some n => return n
  | none => lib .indeterminateSize

/-- The allocation of `unzip_data`, which is checked, and the call of
`snappy_uncompress`. The length goes back into the 32 bits of
`data_len`. -/
def uncompressValue (data : Bytes) (unzipLen : Nat) :
    Client (FinedbResult × Bytes) := do
  if ← lib (.ymalloc unzipLen) then
    match ← lib (.snappyUncompress data unzipLen) with
    | none => return (.FINEDB_ERR_ZIP, [])
    | some out => return (.FINEDB_OK, unzipBuffer out (unzipLen % 2 ^ 32))
  else return (.FINEDB_ERR_MEMORY, [])

/-- The value of a GET response: decompressed here if the response says
it is compressed. -/
def getValue (code : Byte) (data : Bytes) :
    Client (FinedbResult × Bytes) := do
  if requestHasCompressed code then
    uncompressValue data (← valueLength data)
  else return (.FINEDB_OK, data)

/-- The response to a GET from the length on. -/
def getData (code : Byte) (container : Bytes) :
    Client (FinedbResult × Bytes) := do
  match ← readField 4 container with
  | none => return (.FINEDB_ERR_NETWORK, [])
  | some (dataLen, container) =>
      if beNat dataLen = 0 then return (.FINEDB_OK, [])
      else
        match ← readField (beNat dataLen) container with
        | none => return (.FINEDB_ERR_NETWORK, [])
        | some (data, _) =>
            if ← lib (.ymalloc data.length) then getValue code data
            else return (.FINEDB_ERR_MEMORY, [])

/-- The response to a GET. What was read past it is lost with the
container. -/
def getResponse : Client (FinedbResult × Bytes) := do
  match ← readField 1 [] with
  | none => return (.FINEDB_ERR_NETWORK, [])
  | some (pt, container) =>
      let code := pt.headD 0
      if responseStatus code ≠ ResponseCode.RESP_OK.toByte then
        return (.FINEDB_ERR_SERVER, [])
      else getData code container

/-- `finedb_get`: the result, and the value if it is `FINEDB_OK`. -/
def finedbGet (key : Bytes) : Client (FinedbResult × Bytes) := do
  let bytes := keyBytes (requestAddCompressed 0x01) key
  if (← lib (.write bytes)) = bytes.length then getResponse
  else return (.FINEDB_ERR_NETWORK, [])

/-- One call of the library. -/
inductive ClientOp
  | setdb (dbname : Option Bytes)
  | get (key : Bytes)
  | del (key : Bytes)
  | put (key data : Bytes)
  | add (key data : Bytes)
  | update (key data : Bytes)
  | start
  | stop
  | ping
deriving DecidableEq

/-- The function called, in the mode `client->sync`. -/
def ClientOp.exec (sync : Bool) : ClientOp → Client FinedbResult
  | .setdb dbname => finedbSetdb dbname
  | .get key => do return (← finedbGet key).1
  | .del key => finedbDel sync key
  | .put key data => finedbPut sync key data
  | .add key data => finedbAdd sync key data
  | .update key data => finedbUpdate sync key data
  | .start => finedbStart
  | .stop => finedbStop
  | .ping => finedbPing

/-- A GET is sent like every other request. -/
theorem ClientOp.exec_get (sync : Bool) (key : Bytes) :
    (ClientOp.get key).exec sync
      = sendRequest (keyBytes (requestAddCompressed 0x01) key) (do
          return (← getResponse).1) := by
  let bytes := keyBytes (requestAddCompressed 0x01) key
  refine congrArg (Prog.call (S := clientSig) (.write bytes)) ?_
  funext rc
  show ((if rc = (bytes.length : Int) then getResponse
      else pure (.FINEDB_ERR_NETWORK, [])) >>= fun x => pure x.1)
    = if rc = (bytes.length : Int) then getResponse >>= fun x => pure x.1
      else pure .FINEDB_ERR_NETWORK
  split
  · rfl
  · rfl

end FineDB

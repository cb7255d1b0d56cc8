/-
A connection as its thread sees it (src/server/connection_thread.c): the
socket it receives from, the dynamic buffer, and the thread's own state.

The receive buffer is its logical content here; what the allocated block
behind it does is the subject of Model/Ydynabin.lean. A socket is what
`recv` will give out: chunks of 1 to 8196 bytes, then end of file or an
error. Sending is a call, answered from outside.

Of `tcp_thread_t`, the thread id, the pointer to the server structure
and the writer socket's descriptor are left out: no handler computes
with them.
-/
import FineDB.Model.Calls
import FineDB.Model.Protocol

namespace FineDB

open Effect Mvcc

-- ============================================================ the socket

/-- What one successful `recv(fd, buff, 8196, 0)` returns. -/
structure Chunk where
  bytes : Bytes
  pos : 0 < bytes.length
  le : bytes.length ≤ 8196

/-- How receiving ends: the peer closed, or `recv` returned -1 (a
timeout included). -/
inductive Ending
  | eof
  | error
deriving DecidableEq

/-- Everything a connection will receive. -/
structure Socket where
  chunks : List Chunk
  ending : Ending

/-- The byte string received, whatever its chunks. -/
def Socket.bytes (s : Socket) : Bytes := s.chunks.flatMap Chunk.bytes

/-- `tcp_thread_t`. `dbname` is the allocated buffer of the selected
name, its final NUL included; `none` is NULL. -/
structure TcpThread where
  fd : Int
  dbname : Option Bytes
  transaction : Option Nat
deriving DecidableEq

/-- A thread with its receive buffer and the socket it reads. -/
structure Conn where
  thread : TcpThread
  buff : Bytes
  sock : Socket

/-- What the connection has still to read: the buffer, then the
socket. -/
def Conn.bytes (c : Conn) : Bytes := c.buff ++ c.sock.bytes

-- ============================================================= receiving

/-- The receive loop of `connection_read_data`, over the chunks to
come: receive until the buffer holds `size` bytes. -/
def receiveUntil (size : Nat) (ending : Ending) :
    Bytes → List Chunk → Yerr × Bytes × List Chunk
  | buff, [] =>
      if size ≤ buff.length then (.YENOERR, buff, [])
      else match ending with
        | .eof => (.YECONNRESET, buff, [])
        | .error => (.YEACCESS, buff, [])
  | buff, chunk :: chunks =>
      if size ≤ buff.length then (.YENOERR, buff, chunk :: chunks)
      else receiveUntil size ending (buff ++ chunk.bytes) chunks

/-- `connection_read_data`. -/
def connectionReadData (c : Conn) (size : Nat) : Yerr × Conn :=
  if c.thread.fd < 0 then (.YECONNRESET, c)
  else
    let r := receiveUntil size c.sock.ending c.buff c.sock.chunks
    (r.1, { c with buff := r.2.1, sock := ⟨r.2.2, c.sock.ending⟩ })

/-- `connection_read_data` and, if it succeeded, `ydynabin_forward`: the
pair that reads one field of `size` bytes. -/
def readForward (c : Conn) (size : Nat) : Option Bytes × Conn :=
  let r := connectionReadData c size
  if r.1 = .YENOERR then
    (some (r.2.buff.take size), { r.2 with buff := r.2.buff.drop size })
  else (none, r.2)

-- =============================================================== sending

section Sending

variable {Dbi : Type}

/-- `connection_send_response`: an error unless the whole response, and
no more, was sent. -/
def connectionSendResponse (code : ResponseCode)
    (serialized compressed : Bool) (data : Option Bytes) :
    Server Dbi Yerr := do
  let bytes := responseBytes code serialized compressed data
  let rc ← env (.sendmsg bytes)
  return if rc = bytes.length then .YENOERR else Yerr.YEIO

/-- `CONNECTION_SEND_OK(thread)`. -/
def connectionSendOk : Server Dbi Yerr :=
  connectionSendResponse .RESP_OK false false none

/-- `CONNECTION_SEND_ERROR(thread, err)`. -/
def connectionSendError (err : ResponseCode) : Server Dbi Yerr :=
  connectionSendResponse err false false none

/-- Sending a response is one `sendmsg`. -/
theorem connectionSendResponse_calls {P : (serverSig Dbi).Call → Prop}
    (hsend : ∀ bytes, P (.other (.sendmsg bytes))) (code : ResponseCode)
    (serialized compressed : Bool) (data : Option Bytes) :
    (connectionSendResponse code serialized compressed data).Calls P :=
  ⟨hsend _, fun _ => trivial⟩

end Sending

end FineDB

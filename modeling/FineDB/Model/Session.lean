/-
The life of a connection thread (`connection_thread_execution`), and
the writer thread's treatment of one message (`writer_loop`).

A thread serves one connection after the other. For each it loops on
requests, reading one byte, looking the command up in the dispatch
table and calling the handler, until a read fails, a command is unknown
or a handler returns an error; then `connection_thread_disconnect`
resets the thread. Each turn of the loop reads at least the request
byte, so a connection that will receive `n` bytes makes at most `n + 1`
turns.

`Request.exec` and `Stream.exec` say what a decoded request and a
decoded byte string do. They are the handlers' second halves without
the reading.
-/
import FineDB.Model.Command

namespace FineDB

open Effect Mvcc

variable {Dbi : Type}

-- ============================================================= dispatch

/-- The options a handler is called with: an open transaction makes
every request synchronous. -/
def requestFlags (b : Byte) (thread : TcpThread) : Flags where
  sync := thread.transaction.isSome || requestHasSync b
  compress := requestHasCompressed b
  serialized := requestHasSerialized b

/-- Run a handler that reads nothing. -/
def onThread (p : TcpThread → Server Dbi (Yerr × TcpThread)) (c : Conn) :
    Server Dbi (Yerr × Conn) := do
  let r ← p c.thread
  return (r.1, { c with thread := r.2 })

/-- `_commands`. -/
def commands : Nat → Option (Flags → Conn → Server Dbi (Yerr × Conn))
  | 0 => some fun _ c => onThread (fun th => do return (← commandPing, th)) c
  | 1 => some commandGet
  | 2 => some commandDel
  | 3 => some commandPut
  | 4 => some fun _ c => commandSetdb c
  | 5 => some fun _ c => onThread commandStart c
  | 6 => some fun _ c => onThread commandStop c
  | _ => none

-- =========================================================== connection

/-- The loop on incoming requests, `fuel` turns at most. -/
def requestLoop : Nat → Conn → Server Dbi Conn
  | 0, c => return c
  | fuel + 1, c =>
      match readForward c 1 with
      | (none, c) => return c
      | (some request, c) =>
          let b := request.headD 0
          match commands (requestCommand b) with
          | none => do
              let _ ← connectionSendError .RESP_ERR_PROTOCOL
              return c
          | some func => do
              let r ← func (requestFlags b c.thread) c
              if r.1 = .YENOERR then requestLoop fuel r.2 else return r.2

def connectionThreadDisconnect (thread : TcpThread) :
    Server Dbi TcpThread := do
  if thread.fd = -1 then return thread
  else
    if let some txn := thread.transaction then
      databaseTransactionRollback txn
    env (.shutdown thread.fd)
    return { fd := -1, dbname := none, transaction := none }

/-- One connection, from its descriptor's arrival to the reset of the
thread. -/
def serveConnection (thread : TcpThread) (fd : Nat) (sock : Socket) :
    Server Dbi TcpThread := do
  let c ← requestLoop (sock.bytes.length + 1)
    { thread := { thread with fd := fd }, buff := [], sock := sock }
  connectionThreadDisconnect c.thread

/-- `connection_thread_new`: a zeroed structure, no descriptor. -/
def connectionThreadNew : TcpThread where
  fd := -1
  dbname := none
  transaction := none

/-- The disconnection leaves the thread as `connection_thread_new` made
it. -/
theorem connectionThreadDisconnect_thread (thread : TcpThread) :
    (connectionThreadDisconnect thread : Server Dbi _).Ensures fun th =>
      th = if thread.fd = -1 then thread else connectionThreadNew := by
  unfold connectionThreadDisconnect
  by_cases hfd : thread.fd = -1
  · rw [if_pos hfd, if_pos hfd]
    rfl
  · rw [if_neg hfd, if_neg hfd]
    cases thread.transaction with
    | none => exact fun _ => rfl
    | some txn => exact fun _ _ => rfl

/-- Allocate, then go on; a failed allocation is a jump to `error`. -/
def withAlloc (size : Nat) (p : Server Dbi Yerr) : Server Dbi Yerr := do
  if ← env (.ymalloc size) then p else commandError

/-- SETDB with its name in hand. -/
def commandSetdbExec (thread : TcpThread) (name : Bytes) :
    Server Dbi (Yerr × TcpThread) := do
  let thread := { thread with dbname := none }
  if name.length = 0 then
    let _ ← connectionSendOk
    return (.YENOERR, thread)
  else if ← env (.ymalloc (name.length + 1)) then
    let _ ← connectionSendOk
    return (.YENOERR, { thread with dbname := some (dbnameBuffer name) })
  else return (← commandError, thread)

/-- What a request with its fields does, on request byte `b`. -/
def Request.exec (b : Byte) (thread : TcpThread) :
    Request → Server Dbi (Yerr × TcpThread)
  | .ping => do return (← commandPing, thread)
  | .get key => do
      return (← withAlloc key.bytes.length
        (commandGetExec (requestFlags b thread) thread key.bytes), thread)
  | .del key => do
      return (← withAlloc key.bytes.length
        (commandDelExec (requestFlags b thread) thread key.bytes), thread)
  | .put key data => do
      let put := commandPutExec false false (requestFlags b thread) thread
        key.bytes data.bytes
      return (← withAlloc key.bytes.length
        (if data.bytes.length = 0 then put
          else withAlloc data.bytes.length put), thread)
  | .setdb name => commandSetdbExec thread name.bytes
  | .start => commandStart thread
  | .stop => commandStop thread

/-- A PUT cut inside its data has allocated its name. -/
def cutAlloc (b : Byte) (part : Bytes) : Server Dbi Unit :=
  match requestCommand b, takeField 2 part with
  | 3, some (key, _) => do
      let _ ← env (.ymalloc key.bytes.length)
      return ()
  | _, _ => return ()

/-- What a request cut inside its body does: all end in `error`, and
SETDB has dropped the previous name if its length byte was there. -/
def cutExec (b : Byte) (part : Bytes) (thread : TcpThread) :
    Server Dbi TcpThread := do
  cutAlloc b part
  let _ ← commandError
  return if requestCommand b = 4 ∧ part ≠ [] then
    { thread with dbname := none } else thread

/-- What a decoded byte string does. -/
def Stream.exec : Stream → TcpThread → Server Dbi TcpThread
  | .done, thread => return thread
  | .cut b part, thread => cutExec b part thread
  | .unknown _, thread => do
      let _ ← connectionSendError .RESP_ERR_PROTOCOL
      return thread
  | .request b r rest, thread => do
      let x ← r.exec b thread
      if x.1 = .YENOERR then rest.exec x.2 else return x.2

-- =============================================================== writer

/-- The body of `writer_loop` for one message; the outcome is only
logged. `WRITE_DROP` has no branch. -/
def writerApply (msg : WriterMsg) : Server Dbi Unit := do
  match msg.type with
  | .writePut =>
      let _ ← databasePut none msg.createOnly msg.dbname msg.name msg.data
      return ()
  | .writeDel =>
      let _ ← databaseDel none msg.dbname msg.name
      return ()
  | .writeDrop => return ()

end FineDB

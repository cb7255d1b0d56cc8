/-
The command handlers (src/server/command_*.c).

Every handler first reads the fields of its request off the connection,
then acts on them. The two halves are separate definitions: `commandGet`
is the handler as the dispatch table calls it, `commandGetExec` what it
does once the key is in hand. The second halves, with the allocations
for the fields, are also what a decoded request means (`Request.exec`
in Model/Session.lean), and are the only part that touches LMDB or the
writer's queue.

A handler's C parameters `sync`, `compress` and `serialized` are the
fields of `Flags`. Its result is the `yerr_t` it returns together with
the state it leaves in the thread.
-/
import FineDB.Model.Connection
import FineDB.Model.Database
import FineDB.Model.Snappy

namespace FineDB

open Effect Mvcc

variable {Dbi : Type}

/-- The options of a request, as its handler receives them. -/
structure Flags where
  sync : Bool
  compress : Bool
  serialized : Bool
deriving DecidableEq

/-- The label `error` of PUT, GET, DEL and SETDB. -/
def commandError : Server Dbi Yerr := do
  let _ ← connectionSendError .RESP_ERR_SERVER
  return Yerr.YEIO

/-- `if (!sync) CONNECTION_SEND_OK(thread)`: an asynchronous write is
answered before anything is done. -/
def immediateResponse (sync : Bool) : Server Dbi Unit :=
  if sync then return ()
  else do
    let _ ← connectionSendOk
    return ()

/-- The answer to a synchronous write. -/
def sendAnswer (answer : Bool) : Server Dbi Yerr :=
  connectionSendResponse
    (if answer then .RESP_OK else .RESP_ERR_BAD_NAME) false false none

/-- `msg->dbname = thread->dbname ? strdup(thread->dbname) : NULL`; the
result of `strdup` is not checked. -/
def dupDbname (dbname : Option Bytes) : Server Dbi (Option Bytes) :=
  match dbname with
  | none => return none
  | some name => do
      if ← env (.strdup (cString name)) then return some (cString name)
      return none

/-- Hand a message to the writer thread, or fail the request. -/
def sendToWriter (msg : WriterMsg) : Server Dbi Yerr := do
  if ← env (.nnSend msg) then return .YENOERR
  commandError

-- ================================================================= PING

def commandPing : Server Dbi Yerr := connectionSendOk

-- ================================================================== PUT

/-- `snappy_max_compressed_length`. -/
def snappyMaxCompressedLength (n : Nat) : Nat := 32 + n + n / 6

/-- The data to store: as sent if the client compressed them, otherwise
compressed here; `none` is a jump to `error`. -/
def commandPutData (compress : Bool) (data : Bytes) :
    Server Dbi (Option Bytes) := do
  if compress then return some data
  if ← env .snappyInitEnv then
    if ← env (.ymalloc (snappyMaxCompressedLength data.length)) then
      return ← env (.snappyCompress data)
  return none

/-- The check of an update: the transaction to write in, after the key
was found there; `error false` if the key does not exist, `error true`
on a jump to `error`. -/
def commandPutUpdateCheck (thread : TcpThread) (name : Bytes) :
    Server Dbi (Except Bool (Option Nat)) := do
  match ← transactionInit thread.transaction false with
  | none => return .error true
  | some txn =>
      match ← databaseGet (some txn) thread.dbname name with
      | .ok _ => return .ok (some txn)
      | .error rc =>
          rollbackOwn thread.transaction txn
          return .error (rc ≠ .YENODATA)

/-- The synchronous half of `command_put`. -/
def commandPutSync (createOnly updateOnly : Bool) (thread : TcpThread)
    (name data : Bytes) : Server Dbi Yerr := do
  let check ←
    if updateOnly then commandPutUpdateCheck thread name
    else pure (.ok thread.transaction)
  match check with
  | .error true => commandError
  | .error false => sendAnswer false
  | .ok txn =>
      let result ← databasePut txn createOnly thread.dbname name data
      match updateOnly, thread.transaction, txn with
      | true, none, some txn =>
          if (← databaseTransactionCommit txn) ≠ .YENOERR then commandError
          else sendAnswer (result = .YENOERR)
      | _, _, _ => sendAnswer (result = .YENOERR)

/-- Without the check, a synchronous PUT is `database_put` and its
answer. -/
theorem commandPutSync_put (createOnly : Bool) (thread : TcpThread)
    (name data : Bytes) :
    (commandPutSync createOnly false thread name data : Server Dbi _)
      = databasePut thread.transaction createOnly thread.dbname name data
          >>= fun result => sendAnswer (result = .YENOERR) := rfl

/-- The write of a PUT, its data ready to be stored. -/
def commandPutWrite (createOnly updateOnly sync : Bool)
    (thread : TcpThread) (name data : Bytes) : Server Dbi Yerr :=
  if sync then commandPutSync createOnly updateOnly thread name data
  else do
    let dbname ← dupDbname thread.dbname
    sendToWriter ⟨.writePut, dbname, name, data, createOnly⟩

/-- `command_put` from the immediate response on. -/
def commandPutExec (createOnly updateOnly : Bool) (f : Flags)
    (thread : TcpThread) (name data : Bytes) : Server Dbi Yerr := do
  let sync := f.sync || updateOnly
  immediateResponse sync
  if ← env (.ymalloc sizeofWriterMsg) then
    match ← commandPutData f.compress data with
    | none => commandError
    | some data => commandPutWrite createOnly updateOnly sync thread name data
  else commandError

/-- `command_put`, with the two modes its first line sets. -/
def commandPutWith (createOnly updateOnly : Bool) (f : Flags) (c : Conn) :
    Server Dbi (Yerr × Conn) :=
  match readForward c 2 with
  | (none, c) => do return (← commandError, c)
  | (some nameLen, c) =>
      match readForward c (beNat nameLen) with
      | (none, c) => do return (← commandError, c)
      | (some name, c) => do
          if ← env (.ymalloc name.length) then
            match readForward c 4 with
            | (none, c) => return (← commandError, c)
            | (some dataLen, c) =>
                if beNat dataLen = 0 then
                  return (← commandPutExec createOnly updateOnly f
                    c.thread name [], c)
                else
                  match readForward c (beNat dataLen) with
                  | (none, c) => return (← commandError, c)
                  | (some data, c) =>
                      if ← env (.ymalloc data.length) then
                        return (← commandPutExec createOnly updateOnly f
                          c.thread name data, c)
                      else return (← commandError, c)
          else return (← commandError, c)

/-- `create_only = YFALSE, update_only = YFALSE`. -/
def commandPut (f : Flags) (c : Conn) : Server Dbi (Yerr × Conn) :=
  commandPutWith false false f c

-- ================================================================== GET

/-- What the output buffer of `len` zeroed bytes holds after `out` was
decoded into it. -/
def unzipBuffer (out : Bytes) (len : Nat) : Bytes :=
  (out ++ List.replicate (len - out.length) 0).take len

/-- `unzip_len` after `snappy_uncompressed_length`, whose result is not
checked: the length, or whatever the variable held. -/
def unzipLength (z : Bytes) : Server Dbi Nat :=
  match snappyUncompressedLength z with
  | some n => return n
  | none => env .indeterminateSize

/-- The allocation of `unzip_data`, whose result is not checked either,
and the call of `snappy_uncompress`. -/
def uncompressInto (z : Bytes) (unzipLen : Nat) :
    Server Dbi (Option (Option Bytes)) := do
  let allocated ← env (.ymalloc unzipLen)
  let buf := if allocated then some unzipLen else none
  match ← env (.snappyUncompress z buf) with
  | none => return none
  | some out => return some (buf.map (unzipBuffer out))

/-- The decompression in `command_get`; `none` is a jump to `error`, the
inner option the pointer to the data. -/
def commandGetUncompress (z : Bytes) :
    Server Dbi (Option (Option Bytes)) := do
  uncompressInto z (← unzipLength z)

/-- `command_get` after the lookup. -/
def commandGetAnswer (f : Flags) : Except Yerr Bytes → Server Dbi Yerr
  | .error .YENODATA => do
      let _ ← connectionSendError .RESP_ERR_BAD_NAME
      return .YENOERR
  | .error _ => commandError
  | .ok z =>
      if z ≠ [] ∧ f.compress = false then do
        match ← commandGetUncompress z with
        | none => commandError
        | some data =>
            connectionSendResponse .RESP_OK f.serialized f.compress data
      else
        connectionSendResponse .RESP_OK f.serialized f.compress (some z)

/-- `command_get` from the database lookup on. -/
def commandGetExec (f : Flags) (thread : TcpThread) (name : Bytes) :
    Server Dbi Yerr := do
  commandGetAnswer f
    (← databaseGet thread.transaction thread.dbname name)

def commandGet (f : Flags) (c : Conn) : Server Dbi (Yerr × Conn) :=
  match readForward c 2 with
  | (none, c) => do return (← commandError, c)
  | (some nameLen, c) =>
      match readForward c (beNat nameLen) with
      | (none, c) => do return (← commandError, c)
      | (some name, c) => do
          if ← env (.ymalloc name.length) then
            return (← commandGetExec f c.thread name, c)
          else return (← commandError, c)

-- ================================================================== DEL

/-- The write of a DEL. -/
def commandDelWrite (sync : Bool) (thread : TcpThread) (key : Bytes) :
    Server Dbi Yerr :=
  if sync then do
    let result ← databaseDel thread.transaction thread.dbname key
    sendAnswer (result = .YENOERR)
  else do
    let dbname ← dupDbname thread.dbname
    sendToWriter ⟨.writeDel, dbname, key, [], false⟩

/-- `command_del` from the immediate response on. -/
def commandDelExec (f : Flags) (thread : TcpThread) (key : Bytes) :
    Server Dbi Yerr := do
  immediateResponse f.sync
  if ← env (.ymalloc sizeofWriterMsg) then commandDelWrite f.sync thread key
  else commandError

def commandDel (f : Flags) (c : Conn) : Server Dbi (Yerr × Conn) :=
  match readForward c 2 with
  | (none, c) => do return (← commandError, c)
  | (some keyLen, c) =>
      match readForward c (beNat keyLen) with
      | (none, c) => do return (← commandError, c)
      | (some key, c) => do
          if ← env (.ymalloc key.length) then
            return (← commandDelExec f c.thread key, c)
          else return (← commandError, c)

-- ================================================================= DROP

/-- `command_drop`, which has no field to read. -/
def commandDrop (f : Flags) (thread : TcpThread) : Server Dbi Yerr := do
  if thread.dbname = none then commandError
  else
    immediateResponse f.sync
    if ← env (.ymalloc sizeofWriterMsg) then
      if f.sync then
        let result ← databaseDrop thread.transaction thread.dbname
        sendAnswer (result = .YENOERR)
      else
        let dbname ← dupDbname thread.dbname
        sendToWriter ⟨.writeDrop, dbname, [], [], false⟩
    else commandError

-- ================================================================= LIST

/-- What `_command_list_loop` sends for a key: its length in 16 bits and
the key. -/
def listEntry (key : Bytes) : Bytes := beBytes 2 key.length ++ key

/-- The name's buffer: `dbname_len + 1` zeroed bytes, the name copied
in. -/
def dbnameBuffer (name : Bytes) : Bytes := name ++ [0]

@[simp] theorem cString_dbnameBuffer (name : Bytes) :
    cString (dbnameBuffer name) = cString name := by
  induction name with
  | nil => rfl
  | cons c name ih =>
      simp only [cString, dbnameBuffer, List.cons_append,
        List.takeWhile_cons] at ih ⊢
      rw [ih]

def commandSetdb (c : Conn) : Server Dbi (Yerr × Conn) :=
  match readForward c 1 with
  | (none, c) => do return (← commandError, c)
  | (some nameLen, c) =>
      -- the previous name is freed before the new one is read
      let c := { c with thread := { c.thread with dbname := none } }
      if beNat nameLen = 0 then do
        let _ ← connectionSendOk
        return (.YENOERR, c)
      else
        match readForward c (beNat nameLen) with
        | (none, c) => do return (← commandError, c)
        | (some name, c) => do
            if ← env (.ymalloc (name.length + 1)) then
              let _ ← connectionSendOk
              return (.YENOERR, { c with thread :=
                { c.thread with dbname := some (dbnameBuffer name) } })
            else return (← commandError, c)

-- ======================================================== START and STOP

/-- The label `error` of START and STOP. -/
def transactionError : Server Dbi Yerr := do
  let _ ← connectionSendError .RESP_ERR_TRANSACTION
  return .YEACCESS

def commandStart (thread : TcpThread) :
    Server Dbi (Yerr × TcpThread) := do
  if let some txn := thread.transaction then
    databaseTransactionRollback txn
  let transaction ← databaseTransactionStart true
  let thread := { thread with transaction := transaction }
  if transaction = none then
    return (← transactionError, thread)
  else
    let _ ← connectionSendOk
    return (.YENOERR, thread)

def commandStop (thread : TcpThread) :
    Server Dbi (Yerr × TcpThread) := do
  match thread.transaction with
  | none => return (← transactionError, thread)
  | some txn =>
      databaseTransactionRollback txn
      let _ ← connectionSendOk
      return (.YENOERR, { thread with transaction := none })

end FineDB

/-
GET with values as LMDB returns them: pointers into the memory map.

`mdb_get` copies nothing. The `MDB_val` it fills in designates bytes of
the map, `database_get` passes it on as a `ybin_t`, and the bytes are
read where `command_get` decompresses them or `connection_send_response`
sends them. In Model/Database.lean a lookup returns the bytes themselves;
here it returns an `MdbVal`, and reading is a call of its own, `load`.
The functions are those of Model/Database.lean and Model/Command.lean
otherwise, and what has nothing to do with values is taken from there
(`eager`).

`Map` is the map while other threads work. A snapshot says where the
value of each key is. The bytes of the committed data and of every open
transaction stay as they are; any others may be written at any moment,
and the committed data may move on at any moment (`Map.Drift`). Other
threads' readers only hold more bytes in place, so none are assumed. Log
messages, one of which prints the data of a response, are left out.
-/
import FineDB.Lib.Env
import FineDB.Model.Command

namespace FineDB

open Effect Mvcc

-- =================================================================== pointers

/-- `MDB_val`: how many bytes, and where. -/
structure MdbVal where
  mvSize : Nat
  mvData : Nat
deriving DecidableEq

/-- The answers of LMDB, values as pointers. -/
@[reducible] def LmdbCall.MapRet {Dbi : Type} : LmdbCall Dbi → Type
  | .dbiOpen _ _ => OpenRet Dbi
  | .put _ _ _ _ => MdbRc
  | .del _ _ => MdbRc
  | .get _ _ => Except MdbRc MdbVal
  | .drop _ => MdbRc
  | .cursorOpen _ => MdbRc
  | .cursorNext _ _ => Except MdbRc (MdbVal × MdbVal)
  | .cursorClose _ => Unit

@[reducible] def mapSig (Dbi : Type) : Signature where
  Call := LmdbCall Dbi
  Ret := LmdbCall.MapRet

/-- The calls that take no transaction, and the reading of a value. -/
inductive MemCall (Dbi : Type)
  | env (c : EnvCall Dbi)
  | load (v : MdbVal)

@[reducible] def MemCall.Ret {Dbi : Type} : MemCall Dbi → Type
  | .env c => c.Ret
  | .load _ => Bytes

@[reducible] def memSig (Dbi : Type) : Signature where
  Call := MemCall Dbi
  Ret := MemCall.Ret

@[reducible] def mappedSig (Dbi : Type) : Signature :=
  txnSig (mapSig Dbi) (memSig Dbi)

/-- A piece of the server's code that works on the map. -/
abbrev Mapped (Dbi α : Type) := Prog (mappedSig Dbi) α

namespace Mapped

variable {Dbi : Type}

def env (c : EnvCall Dbi) : Mapped Dbi c.Ret :=
  Prog.ask (S := mappedSig Dbi) (.other (.env c))

/-- Read the bytes a value designates. -/
def load (v : MdbVal) : Mapped Dbi Bytes :=
  Prog.ask (S := mappedSig Dbi) (.other (.load v))

def lmdb (txn : Nat) (c : LmdbCall Dbi) : Mapped Dbi c.MapRet :=
  Prog.ask (S := mappedSig Dbi) (.access txn c)

/-- Code that reads every value as soon as it has it. -/
def eager {α : Type} : Server Dbi α → Mapped Dbi α
  | .ret a => .ret a
  | .call (TxnCall.txnBegin rdonly) k =>
      .call (.txnBegin rdonly) fun r => eager (k r)
  | .call (TxnCall.commit t) k => .call (.commit t) fun r => eager (k r)
  | .call (TxnCall.abort t) k => .call (.abort t) fun r => eager (k r)
  | .call (TxnCall.other c) k =>
      .call (.other (.env c)) fun r => eager (k r)
  | .call (TxnCall.access t (.dbiOpen name create)) k =>
      .call (.access t (.dbiOpen name create)) fun r => eager (k r)
  | .call (TxnCall.access t (.put dbi key data nooverwrite)) k =>
      .call (.access t (.put dbi key data nooverwrite)) fun r => eager (k r)
  | .call (TxnCall.access t (.del dbi key)) k =>
      .call (.access t (.del dbi key)) fun r => eager (k r)
  | .call (TxnCall.access t (.drop dbi)) k =>
      .call (.access t (.drop dbi)) fun r => eager (k r)
  | .call (TxnCall.access t (.cursorOpen dbi)) k =>
      .call (.access t (.cursorOpen dbi)) fun r => eager (k r)
  | .call (TxnCall.access t (.cursorClose dbi)) k =>
      .call (.access t (.cursorClose dbi)) fun r => eager (k r)
  | .call (TxnCall.access t (.get dbi key)) k =>
      .call (.access t (.get dbi key)) fun r =>
        match r with
        | .error rc => eager (k (.error rc))
        | .ok v => .call (.other (.load v)) fun z => eager (k (.ok z))
  | .call (TxnCall.access t (.cursorNext dbi pos)) k =>
      .call (.access t (.cursorNext dbi pos)) fun r =>
        match r with
        | .error rc => eager (k (.error rc))
        | .ok (key, v) => .call (.other (.load key)) fun x =>
            .call (.other (.load v)) fun z => eager (k (.ok (x, z)))

-- ======================================================================== GET

/-- What `database_get` gives its caller: the pointer, or an error. -/
def getRetval : Except MdbRc MdbVal → Except Yerr MdbVal
  | .ok v => .ok v
  | .error .notfound => .error .YENODATA
  | .error _ => .error .YEACCESS

def databaseGet (transaction : Option Nat) (name : Option Bytes)
    (key : Bytes) : Mapped Dbi (Except Yerr MdbVal) := do
  match ← eager (transactionInit transaction true) with
  | none => return .error .YEACCESS
  | some txn =>
      match ← lmdb txn (.dbiOpen (name.map cString) false) with
      | .refused _ =>
          let dbi ← env .indeterminateDbi
          env (.dbiClose dbi)
          return .error .YEACCESS
      | .opened dbi _ =>
          let rc ← lmdb txn (.get dbi key)
          eager (rollbackOwn transaction txn)
          env (.dbiClose dbi)
          return getRetval rc

/-- The allocation of `unzip_data` and `snappy_uncompress`, which reads
the value. -/
def uncompressInto (v : MdbVal) (unzipLen : Nat) :
    Mapped Dbi (Option (Option Bytes)) := do
  let allocated ← env (.ymalloc unzipLen)
  let buf := if allocated then some unzipLen else none
  match ← env (.snappyUncompress (← load v) buf) with
  | none => return none
  | some out => return some (buf.map (unzipBuffer out))

/-- The decompression in `command_get`; `snappy_uncompressed_length` has
read the value before. -/
def commandGetUncompress (v : MdbVal) :
    Mapped Dbi (Option (Option Bytes)) := do
  uncompressInto v (← eager (unzipLength (← load v)))

/-- `command_get` after the lookup. `sendmsg` copies what it sends out of
the map. -/
def commandGetAnswer (f : Flags) : Except Yerr MdbVal → Mapped Dbi Yerr
  | .error .YENODATA => do
      let _ ← eager (connectionSendError .RESP_ERR_BAD_NAME)
      return .YENOERR
  | .error _ => eager commandError
  | .ok v =>
      if v.mvSize ≠ 0 ∧ f.compress = false then do
        match ← commandGetUncompress v with
        | none => eager commandError
        | some data =>
            eager (connectionSendResponse .RESP_OK f.serialized f.compress
              data)
      else do
        let z ← if v.mvSize = 0 then pure [] else load v
        eager (connectionSendResponse .RESP_OK f.serialized f.compress
          (some z))

/-- `command_get` from the database lookup on. -/
def commandGetExec (f : Flags) (thread : TcpThread) (name : Bytes) :
    Mapped Dbi Yerr := do
  commandGetAnswer f
    (← databaseGet thread.transaction thread.dbname name)

end Mapped

-- ==================================================================== the map

/-- Where the values are: for each database that exists, for each key. -/
def Snapshot := Option Bytes → Option (Bytes → Option MdbVal)

/-- The key's value is at `v`. -/
def Snapshot.At (snap : Snapshot) (dbi : Option Bytes) (key : Bytes)
    (v : MdbVal) : Prop :=
  ∃ db, snap dbi = some db ∧ db key = some v

/-- Address `a` is inside a value of the snapshot. -/
def Snapshot.Holds (snap : Snapshot) (a : Nat) : Prop :=
  ∃ dbi key v, snap.At dbi key v ∧ v.mvData ≤ a
    ∧ a < v.mvData + v.mvSize

structure Map where
  mem : Nat → Byte
  /-- the committed data -/
  current : Snapshot
  /-- the open transactions of the thread -/
  live : Nat → Option Snapshot

namespace Map

/-- The bytes a value designates now. -/
def load (w : Map) (v : MdbVal) : Bytes :=
  (List.range v.mvSize).map fun i => w.mem (v.mvData + i)

@[simp] theorem length_load (w : Map) (v : MdbVal) :
    (w.load v).length = v.mvSize := by
  simp [load]

/-- What other threads do meanwhile: commit, and write where nothing
committed and nothing a transaction sees is. -/
inductive Drift : Map → Map → Prop
  | commit (w : Map) (snap : Snapshot) : Drift w { w with current := snap }
  | write (w : Map) (a : Nat) (x : Byte) :
      ¬ w.current.Holds a →
      (∀ t snap, w.live t = some snap → ¬ snap.Holds a) →
      Drift w { w with mem := Function.update w.mem a x }

/-- The answers through a transaction that sees `snap`. -/
def Answers (snap : Snapshot) :
    (c : LmdbCall (Option Bytes)) → c.MapRet → Prop
  | .dbiOpen name _, .opened dbi _ => dbi = name ∧ (snap name).isSome
  | .dbiOpen _ _, .refused _ => True
  | .get dbi key, .ok v => snap.At dbi key v
  | .get dbi key, .error rc =>
      rc = .notfound → ∃ db, snap dbi = some db ∧ db key = none
  | _, _ => False

/-- The transaction is over; its values are no longer kept. -/
def ended (w : Map) (t : Nat) : Map :=
  { w with live := Function.update w.live t none }

/-- A new transaction, on the committed data. -/
def begun (w : Map) (t : Nat) : Map :=
  { w with live := Function.update w.live t (some w.current) }

def Answer (w : Map) (e : Event (mappedSig (Option Bytes)))
    (w' : Map) : Prop :=
  match e with
  | ⟨.txnBegin _, none⟩ => w' = w
  | ⟨.txnBegin _, some t⟩ => w.live t = none ∧ w' = w.begun t
  | ⟨.commit t, _⟩ => w' = w.ended t
  | ⟨.abort t, _⟩ => w' = w.ended t
  | ⟨.access t c, r⟩ =>
      w' = w ∧ ∃ snap, w.live t = some snap ∧ Answers snap c r
  | ⟨.other (.env _), _⟩ => w' = w
  | ⟨.other (.load v), z⟩ => w' = w ∧ z = w.load v

end Map

/-- The map, as the environment of a program. -/
def mapEnv : Env (mappedSig (Option Bytes)) Map where
  drift := Map.Drift
  answer := Map.Answer

end FineDB

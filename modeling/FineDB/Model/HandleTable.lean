/-
LMDB's table of database handles (mdb.c), and the threads of the server
on it.

A handle is an index into tables. One table belongs to the environment:
the name of a slot (`me_dbxs[i].md_name`) and whether later transactions
know the slot (`MDB_VALID` in `me_dbflags[i]`). Another belongs to each
transaction: the record of the slot's database (`mt_dbs[i]`), which is
its root page and with it its contents, and what has happened to the
record (`mt_dbflags[i]`). `mdb_dbi_open` looks a name up in the first
and fills in the second; `mdb_dbi_close` clears the first only. Elsewhere in
the development handles are neutral (Model/Lmdb.lean); here they are
the numbers LMDB gives out.

The definitions follow `mdb_txn_renew0`, `mdb_dbi_open`,
`mdb_page_search`, `mdb_txn_commit`, `mdb_dbis_update` and
`mdb_dbi_close`. `origin` is the one field LMDB does not have: the name
a record was read under.

The main database and the entries of named ones are kept apart as in
`Store`. Ending a transaction that has ended already does nothing, and
`mdb_drop` and the cursors, which no thread of the server uses, have no
step.
-/
import FineDB.Lib.Threads
import FineDB.Model.Lmdb
import FineDB.Model.Session

namespace FineDB

open Effect Mvcc

-- ================================================================= the tables

/-- `mt_dbs[i]` and `mt_dbflags[i]`, where `DB_VALID` is set. -/
structure SlotRecord where
  /-- `DB_STALE`: to be read again before use -/
  stale : Bool
  /-- `DB_NEW`: the slot was taken in this transaction -/
  new : Bool
  /-- `DB_DIRTY`: to be written back by the commit -/
  dirty : Bool
  db : Db
  origin : Bytes

/-- `MDB_txn`. -/
structure MdbTxn where
  /-- the thread that began it -/
  owner : Nat
  rdonly : Bool
  /-- the databases as the transaction sees them, without the records
  it has changed -/
  view : Store
  /-- `mt_numdbs` -/
  numdbs : Nat
  slot : Nat → Option SlotRecord

/-- `MDB_env`. -/
structure MdbEnv where
  /-- `me_dbxs[i].md_name`, `none` if cleared -/
  names : Nat → Option Bytes
  /-- `MDB_VALID` in `me_dbflags[i]` -/
  valid : Nat → Bool
  /-- `me_numdbs` -/
  numdbs : Nat
  /-- `me_maxdbs` -/
  maxdbs : Nat
  /-- the last committed state -/
  data : Store
  txns : Nat → Option MdbTxn
  /-- `me_txn`, the holder of the writer lock -/
  writer : Option Nat
  next : Nat

/-- `mdb_env_open` on existing data: the free list and the main database
have the first two slots. -/
def MdbEnv.opened (data : Store) (maxdbs : Nat) : MdbEnv where
  names := fun _ => none
  valid := fun _ => false
  numdbs := 2
  maxdbs := maxdbs
  data := data
  txns := fun _ => none
  writer := none
  next := 0

/-- The slots of named databases the transaction knows, in the order
every loop of LMDB takes them. -/
def MdbTxn.slots (x : MdbTxn) : List Nat := List.range' 2 (x.numdbs - 2)

def MdbTxn.setSlot (x : MdbTxn) (i : Nat) (s : SlotRecord) : MdbTxn :=
  { x with slot := Function.update x.slot i (some s) }

@[simp] theorem MdbTxn.setSlot_self (x : MdbTxn) (i : Nat)
    (s : SlotRecord) : (x.setSlot i s).slot i = some s :=
  Function.update_self ..

theorem MdbTxn.setSlot_ne (x : MdbTxn) {i j : Nat} (h : j ≠ i)
    (s : SlotRecord) : (x.setSlot i s).slot j = x.slot j :=
  Function.update_of_ne h ..

def MdbEnv.setTxn (e : MdbEnv) (t : Nat) (x : MdbTxn) : MdbEnv :=
  { e with txns := Function.update e.txns t (some x) }

@[simp] theorem MdbEnv.setTxn_self (e : MdbEnv) (t : Nat)
    (x : MdbTxn) : (e.setTxn t x).txns t = some x :=
  Function.update_self ..

-- ======================================================= begin, open and close

/-- `mdb_txn_begin`: the slots the environment has kept valid come with
stale records. -/
def MdbEnv.txnBegin (e : MdbEnv) (c : Nat) (rdonly : Bool) : MdbEnv :=
  let slot := fun i =>
    if 2 ≤ i ∧ i < e.numdbs ∧ e.valid i = true then
      some ⟨true, false, false, ∅, []⟩
    else none
  { e with
    txns := Function.update e.txns e.next
      (some ⟨c, rdonly, e.data, e.numdbs, slot⟩)
    writer := if rdonly then e.writer else some e.next
    next := e.next + 1 }

/-- The first slot with this name. -/
def MdbEnv.findSlot (e : MdbEnv) (x : MdbTxn) (name : Bytes) :
    Option Nat :=
  x.slots.find? fun i => e.names i = some name

/-- The first slot with its name cleared. -/
def MdbEnv.unused (e : MdbEnv) (x : MdbTxn) : Option Nat :=
  x.slots.find? fun i => e.names i = none

/-- The end of `mdb_dbi_open`: the slot gets its name, whatever name it
has, and the transaction the record. -/
def MdbEnv.addToTable (e : MdbEnv) (t : Nat) (x : MdbTxn) (name : Bytes)
    (db : Db) (created : Bool) : OpenRet Nat × MdbEnv :=
  let slot := (e.unused x).getD x.numdbs
  let numdbs := if (e.unused x).isSome then x.numdbs else x.numdbs + 1
  let x := { x with numdbs := numdbs }
  (.opened slot created,
    { e.setTxn t (x.setSlot slot ⟨false, true, created, db, name⟩) with
      names := Function.update e.names slot (some name)
      valid := Function.update e.valid slot false })

/-- `mdb_dbi_open`. A name found in the table is answered with its slot
and nothing else happens. -/
def MdbEnv.dbiOpen (e : MdbEnv) (t : Nat) (x : MdbTxn)
    (name : Option Bytes) (create : Bool) : OpenRet Nat × MdbEnv :=
  match name with
  | none => (.opened 1 false, e)
  | some name =>
      match e.findSlot x name with
      | some i => (.opened i false, e)
      | none =>
          if (e.unused x).isNone ∧ e.maxdbs ≤ x.numdbs then
            (.refused .resource, e)
          else match x.view.named[name]? with
            | some db => e.addToTable t x name db false
            | none =>
                if create = false then (.refused .notfound, e)
                else if x.rdonly then (.refused .eacces, e)
                else if validKey name then
                  let x := { x with view := x.view.setDb (some name) ∅ }
                  e.addToTable t x name ∅ true
                else (.refused .einval, e)

/-- `mdb_dbi_close`. -/
def MdbEnv.dbiClose (e : MdbEnv) (dbi : Nat) : MdbEnv :=
  if dbi ≤ 1 ∨ e.maxdbs ≤ dbi then e
  else { e with
    names := Function.update e.names dbi none
    valid := Function.update e.valid dbi false }

-- ============================================================ get, put and del

/-- `dbi < mt_numdbs` and `DB_VALID`. -/
def MdbTxn.has (x : MdbTxn) (dbi : Nat) : Bool :=
  dbi = 1 || (dbi < x.numdbs && (x.slot dbi).isSome)

/-- The record of a slot, a stale one read again under the name the slot
has by now. -/
def MdbEnv.record (e : MdbEnv) (x : MdbTxn) (dbi : Nat) :
    Option SlotRecord :=
  (x.slot dbi).bind fun s =>
    if s.stale then
      (e.names dbi).bind fun name =>
        (x.view.named[name]?).map fun db =>
          { s with stale := false, db := db, origin := name }
    else some s

def dbGet (db : Db) (key : Bytes) : Except MdbRc Bytes :=
  match db[key]? with
  | some data => .ok data
  | none => .error .notfound

/-- `mdb_get`. -/
def MdbEnv.get (e : MdbEnv) (x : MdbTxn) (dbi : Nat) (key : Bytes) :
    Except MdbRc Bytes × MdbTxn :=
  if x.has dbi = false ∨ ¬ validKey key then (.error .einval, x)
  else if dbi = 1 then (dbGet x.view.main key, x)
  else match e.record x dbi with
    | none => (.error .notfound, x)
    | some s => (dbGet s.db key, x.setSlot dbi s)

/-- `mdb_put` and `mdb_del`, `f` being what they do to the database. -/
def MdbEnv.modify (e : MdbEnv) (x : MdbTxn) (dbi : Nat) (key : Bytes)
    (f : Db → Except MdbRc Db) : MdbRc × MdbTxn :=
  if x.has dbi = false then (.einval, x)
  else if x.rdonly then (.eacces, x)
  else if ¬ validKey key then (.einval, x)
  else if dbi = 1 then
    match f x.view.main with
    | .error rc => (rc, x)
    | .ok db => (.success, { x with view := x.view.setDb none db })
  else match e.record x dbi with
    | none => (.notfound, x)
    | some s =>
        match f s.db with
        | .error rc => (rc, x.setSlot dbi s)
        | .ok db => (.success, x.setSlot dbi { s with db, dirty := true })

def MdbEnv.put (e : MdbEnv) (x : MdbTxn) (dbi : Nat) (key data : Bytes)
    (nooverwrite : Bool) : MdbRc × MdbTxn :=
  e.modify x dbi key fun db =>
    if nooverwrite ∧ key ∈ db then .error .keyexist
    else .ok (db.insert key data)

def MdbEnv.del (e : MdbEnv) (x : MdbTxn) (dbi : Nat) (key : Bytes) :
    MdbRc × MdbTxn :=
  e.modify x dbi key fun db =>
    if key ∈ db then .ok (db.erase key) else .error .notfound

-- ============================================================ abort and commit

/-- The slot was taken in this transaction. -/
def MdbTxn.isNew (x : MdbTxn) (i : Nat) : Bool :=
  i < x.numdbs && (x.slot i).any (·.new)

/-- The transaction is over, and the writer lock free if it was its
holder. -/
def MdbEnv.ended (e : MdbEnv) (t : Nat) : MdbEnv :=
  { e with
    txns := Function.update e.txns t none
    writer := if e.writer = some t then none else e.writer }

/-- `mdb_txn_abort`, with `mdb_dbis_update(txn, 0)`: the slots taken in
the transaction lose their names, whoever has named them since. -/
def MdbEnv.abort (e : MdbEnv) (t : Nat) (x : MdbTxn) : MdbEnv :=
  { e.ended t with
    names := fun i => if x.isNew i then none else e.names i
    valid := fun i => !x.isNew i && e.valid i }

/-- `mdb_cursor_put(&mc, &md_name, &record, 0)` into the main database:
the record of an existing database is replaced, any other entry is
plain data. -/
def Store.putRecord (st : Store) (image name : Bytes) (db : Db) : Store :=
  match st.named[name]? with
  | some _ => st.setDb (some name) db
  | none => { st with main := st.main.insert name image }

/-- "Update DB root pointers": every dirty record is written under the
name its slot has by now. A cleared name is `EINVAL`. -/
def MdbEnv.writeBack (e : MdbEnv) (x : MdbTxn) (image : Bytes) :
    List Nat → Store → Option Store
  | [], st => some st
  | i :: is, st =>
      match x.slot i with
      | none => e.writeBack x image is st
      | some s =>
          if s.dirty then
            (e.names i).bind fun name =>
              e.writeBack x image is (st.putRecord image name s.db)
          else e.writeBack x image is st

/-- The end of `mdb_txn_commit`, with `mdb_dbis_update(txn, 1)`. -/
def MdbEnv.committed (e : MdbEnv) (t : Nat) (x : MdbTxn) (st : Store) :
    MdbEnv :=
  { e.ended t with
    data := st
    valid := fun i => x.isNew i || e.valid i
    numdbs := max e.numdbs x.numdbs }

/-- `mdb_txn_commit`. -/
def MdbEnv.commit (e : MdbEnv) (ok : Bool) (image : Bytes) (t : Nat)
    (x : MdbTxn) : Bool × MdbEnv :=
  if x.rdonly then (true, e.committed t x e.data)
  else if ok = false ∨ e.writer ≠ some t then (false, e.abort t x)
  else match e.writeBack x image x.slots x.view with
    | none => (false, e.abort t x)
    | some st => (true, e.committed t x st)

-- ================================================================== one call

/-- What a call depends on besides the tables: whether its resources are
there, the bytes of a record written as plain data, and all answers
from outside LMDB. -/
structure Lot where
  ok : Bool
  image : Bytes
  env : (c : EnvCall Nat) → c.Ret

/-- A call through the open transaction `x`. -/
def MdbEnv.access (e : MdbEnv) (t : Nat) (x : MdbTxn) :
    (a : LmdbCall Nat) → Option (a.Ret × MdbEnv)
  | .dbiOpen name create => some (e.dbiOpen t x name create)
  | .get dbi key =>
      let r := e.get x dbi key
      some (r.1, e.setTxn t r.2)
  | .put dbi key data nooverwrite =>
      let r := e.put x dbi key data nooverwrite
      some (r.1, e.setTxn t r.2)
  | .del dbi key =>
      let r := e.del x dbi key
      some (r.1, e.setTxn t r.2)
  | _ => none

/-- A call by thread `c`. A transaction is used by the thread that began
it; a second writer waits. -/
def MdbEnv.exec (c : Nat) (o : Lot) (e : MdbEnv) :
    (call : (serverSig Nat).Call) → Option ((serverSig Nat).Ret call × MdbEnv)
  | .txnBegin rdonly =>
      if rdonly = false ∧ e.writer.isSome then none
      else if o.ok then some (some e.next, e.txnBegin c rdonly)
      else some (none, e)
  | .commit t =>
      match e.txns t with
      | none => some (false, e)
      | some x =>
          if x.owner = c then some (e.commit o.ok o.image t x) else none
  | .abort t =>
      match e.txns t with
      | none => some ((), e)
      | some x => if x.owner = c then some ((), e.abort t x) else none
  | .access t a =>
      match e.txns t with
      | none => none
      | some x =>
          if x.owner ≠ c then none
          else if o.ok then e.access t x a
          else some (a.exhausted, e)
  | .other (.dbiClose dbi) => some ((), e.dbiClose dbi)
  | .other l => some (o.env l, e)

-- ================================================================= the threads

/-- What a thread takes on: a connection thread requests and the end of
the connection, the writer thread messages. A request that is cut or
unknown makes no LMDB call and the connection's end follows. -/
inductive ThreadJob
  | request (b : Byte) (r : Request)
  | disconnect
  | message (msg : WriterMsg)

def ThreadJob.prog : ThreadJob → TcpThread → Server Nat TcpThread
  | .request b r, thread => do return (← r.exec b thread).2
  | .disconnect, thread => connectionThreadDisconnect thread
  | .message msg, _ => do
      -- the writer has no session to keep
      writerApply msg
      return connectionThreadNew

/-- The name the job's database operation is given. -/
def ThreadJob.dbname : ThreadJob → TcpThread → Option Bytes
  | .message msg, _ => msg.dbname.map cString
  | _, thread => thread.dbname.map cString

/-- Any number of threads on one environment. -/
def handleThreads : Threads (serverSig Nat) MdbEnv TcpThread ThreadJob
    (Option Bytes) Lot where
  prog := ThreadJob.prog
  tag := ThreadJob.dbname
  exec := MdbEnv.exec

/-- Threads without a connection on an environment just opened. -/
def handlesInit (data : Store) (maxdbs : Nat) :
    Pool (serverSig Nat) MdbEnv TcpThread (Option Bytes) :=
  Threads.init (.opened data maxdbs) connectionThreadNew

end FineDB

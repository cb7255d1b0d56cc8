/-
The default database as LMDB keeps it: the entries under user keys and
the records of the named databases in one tree.

The store of Model/Lmdb.lean has the main database and the named ones
side by side. In a file of LMDB the record of a named database is an
entry of the main one, under the name, marked `F_SUBDATA`; so the name
of a database and a key of the default database can be the same entry.
That is what this module keeps. Every call on a handle comes down to one
entry of the tree, its cell: the database's record, or the entry under
the key.

`mdb_cursor_put` does not look at the mark. A value written over a
record replaces it, and the mark with it, unless the value has exactly
the size of the record; then the bytes change and the mark stays.
What LMDB does with a database whose record is not one is not defined;
here its accesses fail.

`CatSys` is the server on such a store, one request after the other:
each job of a connection thread, and each message the writer takes, runs
to its end before the next. A session's transaction, a START's, is the
store it began on.
-/
import FineDB.Lib.Lockstep
import FineDB.Model.System

namespace FineDB

open Effect Mvcc

-- ================================================================ the entries

/-- An entry of the main database. -/
inductive Entry
  | value (data : Bytes)
  /-- the record of a named database -/
  | record (db : Db)
  /-- bytes that were written over a record, still marked as one -/
  | overwritten (data : Bytes)

abbrev Catalog := Std.ExtTreeMap Bytes Entry compare

/-- The entry a call on the handle `dbi` comes down to. -/
def cell (dbi : Option Bytes) (key : Bytes) : Bytes := dbi.getD key

/-- `sizeof(MDB_db)`, on a 64-bit target. -/
def sizeofMdbDb : Nat := 48

/-- The entry after `mdb_put` of `data` in the main database. -/
def Entry.replace (data : Bytes) : Option Entry → Entry
  | none => .value data
  | some (.value _) => .value data
  | some _ =>
      if data.length = sizeofMdbDb then .overwritten data else .value data

/-- `mdb_dbi_open` of a name, on its entry. -/
def Entry.dbiOpen (rdonly : Bool) (name : Bytes) (create : Bool) :
    Option Entry → OpenRet (Option Bytes) × Option Entry
  | some (.value data) =>
      -- "make sure this is actually a DB"
      (.refused .einval, some (.value data))
  | some e => (.opened (some name) false, some e)
  | none =>
      if create = false then (.refused .notfound, none)
      else if rdonly then (.refused .eacces, none)
      else if validKey name then
        (.opened (some name) true, some (.record ∅))
      else (.refused .einval, none)

/-- `mdb_put`, on the cell. -/
def Entry.put (rdonly : Bool) (dbi : Option Bytes) (key data : Bytes)
    (nooverwrite : Bool) (e : Option Entry) : MdbRc × Option Entry :=
  match dbi, e with
  | none, e =>
      if rdonly then (.eacces, e)
      else if ¬ validKey key then (.einval, e)
      else if nooverwrite ∧ e.isSome then (.keyexist, e)
      else (.success, some (Entry.replace data e))
  | some _, some (.record db) =>
      if rdonly then (.eacces, e)
      else if ¬ validKey key then (.einval, e)
      else if nooverwrite ∧ key ∈ db then (.keyexist, e)
      else (.success, some (.record (db.insert key data)))
  | some _, e => (.einval, e)

/-- `mdb_del` with no data given, on the cell. -/
def Entry.del (rdonly : Bool) (dbi : Option Bytes) (key : Bytes)
    (e : Option Entry) : MdbRc × Option Entry :=
  match dbi, e with
  | none, e =>
      if rdonly then (.eacces, e)
      else if ¬ validKey key then (.einval, e)
      else if e.isSome then (.success, none)
      else (.notfound, e)
  | some _, some (.record db) =>
      if rdonly then (.eacces, e)
      else if ¬ validKey key then (.einval, e)
      else if key ∈ db then (.success, some (.record (db.erase key)))
      else (.notfound, e)
  | some _, e => (.einval, e)

/-- The bytes of an entry. Those of a record say where the pages of the
database are: they are `image`. -/
def Entry.bytes (image : Bytes) : Entry → Bytes
  | .value data => data
  | .record _ => image
  | .overwritten data => data

/-- `mdb_get`, on the cell. -/
def Entry.get (image : Bytes) (dbi : Option Bytes) (key : Bytes)
    (e : Option Entry) : Except MdbRc Bytes :=
  if validKey key then
    match dbi, e with
    | none, some e => .ok (e.bytes image)
    | none, none => .error .notfound
    | some _, some (.record db) =>
        match db[key]? with
        | some data => .ok data
        | none => .error .notfound
    | some _, _ => .error .einval
  else .error .einval

-- ================================================================ the catalog

def Catalog.set (cat : Catalog) (κ : Bytes) : Option Entry → Catalog
  | some e => cat.insert κ e
  | none => cat.erase κ

/-- Work on one cell. -/
def Catalog.at {α : Type} (cat : Catalog) (κ : Bytes)
    (f : Option Entry → α × Option Entry) : α × Catalog :=
  ((f cat[κ]?).1, cat.set κ (f cat[κ]?).2)

@[simp] theorem Catalog.at_fst {α : Type} (cat : Catalog) (κ : Bytes)
    (f : Option Entry → α × Option Entry) :
    (cat.at κ f).1 = (f cat[κ]?).1 := rfl

theorem Catalog.getElem?_set (cat : Catalog) (κ k : Bytes)
    (e : Option Entry) :
    (cat.set κ e)[k]? = if k = κ then e else cat[k]? := by
  cases e with
  | none =>
      simp [Catalog.set, Std.ExtTreeMap.getElem?_erase, eq_comm (a := κ)]
  | some e =>
      simp [Catalog.set, Std.ExtTreeMap.getElem?_insert, eq_comm (a := κ)]

theorem Catalog.getElem?_at {α : Type} (cat : Catalog) (κ k : Bytes)
    (f : Option Entry → α × Option Entry) :
    (cat.at κ f).2[k]? = if k = κ then (f cat[κ]?).2 else cat[k]? :=
  cat.getElem?_set κ k _

/-- Work that leaves its cell as it is changes nothing. -/
theorem Catalog.at_eq {α : Type} (cat : Catalog) (κ : Bytes)
    (f : Option Entry → α × Option Entry)
    (h : (f cat[κ]?).2 = cat[κ]?) : (cat.at κ f).2 = cat := by
  refine Std.ExtTreeMap.ext_getElem? fun k => ?_
  rw [Catalog.getElem?_at, h]
  split
  next heq => rw [heq]
  next => rfl

/-- `mdb_cursor_get(cursor, &key, &data, MDB_NEXT)`. -/
def Catalog.cursorNext (cat : Catalog) (image : Bytes)
    (dbi pos : Option Bytes) : Except MdbRc (Bytes × Bytes) :=
  match dbi with
  | none =>
      let entry := match pos with
        | none => cat.minEntry?
        | some key => cat.getEntryGT? key
      match entry with
      | some (key, e) => .ok (key, e.bytes image)
      | none => .error .notfound
  | some name =>
      match cat[name]? with
      | some (.record db) =>
          let entry := match pos with
            | none => db.minEntry?
            | some key => db.getEntryGT? key
          match entry with
          | some entry => .ok entry
          | none => .error .notfound
      | _ => .error .einval

/-- `mdb_drop(txn, dbi, 1)`. -/
def Catalog.drop (cat : Catalog) (rdonly : Bool) (dbi : Option Bytes) :
    MdbRc × Catalog :=
  if rdonly then (.eacces, cat)
  else match dbi with
    | none => (.success, ∅)
    | some name => (.success, cat.erase name)

/-- A call through a transaction when all resources are there. -/
def Catalog.answer (cat : Catalog) (image : Bytes) (rdonly : Bool) :
    (c : LmdbCall (Option Bytes)) → c.Ret × Catalog
  | .dbiOpen none _ => (.opened none false, cat)
  | .dbiOpen (some name) create =>
      cat.at name (Entry.dbiOpen rdonly name create)
  | .put dbi key data nooverwrite =>
      cat.at (cell dbi key) (Entry.put rdonly dbi key data nooverwrite)
  | .del dbi key => cat.at (cell dbi key) (Entry.del rdonly dbi key)
  | .get dbi key => (Entry.get image dbi key cat[cell dbi key]?, cat)
  | .drop dbi => cat.drop rdonly dbi
  | .cursorOpen _ => (.success, cat)
  | .cursorNext dbi pos => (cat.cursorNext image dbi pos, cat)
  | .cursorClose _ => ((), cat)

theorem Entry.dbiOpen_rdonly (name : Bytes) (create : Bool)
    (e : Option Entry) : (Entry.dbiOpen true name create e).2 = e := by
  unfold Entry.dbiOpen
  split
  · rfl
  · rfl
  · split
    · rfl
    · rfl

theorem Entry.put_rdonly (dbi : Option Bytes) (key data : Bytes)
    (nooverwrite : Bool) (e : Option Entry) :
    (Entry.put true dbi key data nooverwrite e).2 = e := by
  unfold Entry.put
  split
  · rfl
  · rfl
  · rfl

theorem Entry.del_rdonly (dbi : Option Bytes) (key : Bytes)
    (e : Option Entry) : (Entry.del true dbi key e).2 = e := by
  unfold Entry.del
  split
  · rfl
  · rfl
  · rfl

theorem Catalog.answer_rdonly (cat : Catalog) (image : Bytes)
    (c : LmdbCall (Option Bytes)) : (cat.answer image true c).2 = cat := by
  cases c with
  | dbiOpen name create =>
      cases name with
      | none => rfl
      | some name => exact cat.at_eq _ _ (Entry.dbiOpen_rdonly ..)
  | put dbi key data nooverwrite =>
      exact cat.at_eq _ _ (Entry.put_rdonly ..)
  | del dbi key => exact cat.at_eq _ _ (Entry.del_rdonly ..)
  | get dbi key => rfl
  | drop dbi => rfl
  | cursorOpen dbi => rfl
  | cursorNext dbi pos => rfl
  | cursorClose dbi => rfl

/-- LMDB on a catalog, and the rest as in `lmdbSem`. Where the pages of
a database are depends on everything written before, so `image` takes
its argument from the outcome. -/
def catalogSem (zip : Bytes → Bytes) (image : Nat → Bytes) :
    Sem (lmdbSig (Option Bytes)) (envSig (Option Bytes)) Catalog
      Outcome where
  ok := Outcome.ok
  access o rdonly c cat :=
    if o.ok then cat.answer (image o.stack) rdonly c
    else (c.exhausted, cat)
  access_rdonly o c cat := by
    split
    · exact cat.answer_rdonly _ c
    · rfl
  other o c := c.answer zip o

-- ================================================================= the server

/-- A session: the selected database, and the store its transaction
began on. -/
structure CatSession where
  dbname : Option Bytes
  snapshot : Option Catalog

/-- The thread of a session. Its transaction, if any, is number 0. -/
def CatSession.thread (x : CatSession) : TcpThread where
  fd := 0
  dbname := x.dbname
  transaction := x.snapshot.map fun _ => 0

/-- The store as a request of the session finds it. -/
def CatSession.state (x : CatSession) (store : Catalog) : State Catalog :=
  match x.snapshot with
  | none => .blank store 1
  | some view => .single store 0 ⟨true, view⟩

/-- What a GET of the session sees. -/
def CatSession.view (x : CatSession) (store : Catalog) : Catalog :=
  x.snapshot.getD store

/-- The session a request leaves. -/
def CatSession.after (thread : TcpThread) (m : State Catalog) :
    CatSession where
  dbname := thread.dbname
  snapshot := thread.transaction.bind fun t => (m.txns t).map Txn.view

structure CatSys where
  store : Catalog
  session : Nat → CatSession
  /-- sent to the writer and not taken yet -/
  pending : List WriterMsg

/-- A connection is served what arrived on it, or its end (`none`); the
writer takes a message. The outcomes are those of the calls made. -/
inductive CatAct
  | serve (c : Nat) (arr : Option Arrival) (outs : Nat → Outcome)
  | message (msg : WriterMsg) (outs : Nat → Outcome)

/-- What a connection thread does for the session. -/
def CatSession.task (x : CatSession) : Option Arrival → Task
  | some arr => ⟨.arrival arr, x.thread⟩
  | none => ⟨.disconnect, x.thread⟩

namespace CatSys

variable (zip : Bytes → Bytes) (image : Nat → Bytes)

def init (store : Catalog) : CatSys where
  store := store
  session := fun _ => ⟨none, none⟩
  pending := []

def served (s : CatSys) (c : Nat) (arr : Option Arrival)
    (outs : Nat → Outcome) :=
  complete (catalogSem zip image) outs ((s.session c).state s.store)
    ((s.session c).task arr).prog

def written (s : CatSys) (msg : WriterMsg) (outs : Nat → Outcome) :=
  complete (catalogSem zip image) outs (.blank s.store 1)
    (Task.prog ⟨.message 0 msg, connectionThreadNew⟩)

/-- One action. A message that is not there is not taken. Nothing ever
stands still: `served_isSome` and `written_isSome` (Proofs/Names.lean). -/
def step (s : CatSys) : CatAct → CatSys
  | .serve c arr outs =>
      match s.served zip image c arr outs with
      | some (tr, (_, thread), m) =>
          { store := m.store
            session := Function.update s.session c (.after thread m)
            pending := s.pending ++ tr.filterMap posted }
      | none => s
  | .message msg outs =>
      if msg ∈ s.pending then
        match s.written zip image msg outs with
        | some (_, _, m) =>
            { s with store := m.store, pending := s.pending.erase msg }
        | none => s
      else s

/-- What is sent to connection `c` for an arrival. -/
def answer (s : CatSys) (c : Nat) (arr : Option Arrival)
    (outs : Nat → Outcome) : List Bytes :=
  match s.served zip image c arr outs with
  | some (tr, _, _) => tr.filterMap response
  | none => []

/-- The messages sent to the writer for an arrival. -/
def posts (s : CatSys) (c : Nat) (arr : Option Arrival)
    (outs : Nat → Outcome) : List WriterMsg :=
  match s.served zip image c arr outs with
  | some (tr, _, _) => tr.filterMap posted
  | none => []

def run (s : CatSys) (acts : List CatAct) : CatSys :=
  acts.foldl (step zip image) s

end CatSys

end FineDB

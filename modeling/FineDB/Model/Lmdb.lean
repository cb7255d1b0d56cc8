/-
The data behind the calls: LMDB as a transactional map, and the answers
of everything else.

A store is the main database and the named ones, each an ordered map
from keys to values (`mdb_cmp_memn` is the lexicographic order of byte
strings). A handle is taken as neutral: it is the name it was opened
under, opening and closing it does nothing. `lmdbSem` plugs this into
the transactions of Lib/Mvcc.lean.

What a call answers can depend on more than the store. An `Outcome`
holds all of it: whether the resources were there (memory, map space,
reader slots, a message accepted), how much a `sendmsg` sent that did
not send everything, and what a stack slot held that was read before it
was written. A successful call answers as the source of LMDB and of
snappy has it; the compressor alone is a parameter (`zip`).
-/
import FineDB.Model.Calls
import FineDB.Model.Snappy
import Mathlib.Tactic.Common

namespace FineDB

open Effect Mvcc

-- ============================================================= the store

/-- One database. -/
abbrev Db := Std.ExtTreeMap Bytes Bytes compare

/-- All databases: the main one, and the named ones that exist. -/
structure Store where
  main : Db
  named : Std.ExtTreeMap Bytes Db compare

/-- The database a name designates, `none` being NULL. -/
def Store.db (st : Store) : Option Bytes → Option Db
  | none => some st.main
  | some name => st.named[name]?

/-- Replace or create a database. -/
def Store.setDb (st : Store) (name : Option Bytes) (db : Db) : Store :=
  match name with
  | none => { st with main := db }
  | some name => { st with named := st.named.insert name db }

/-- `mdb_drop(txn, dbi, 1)`: the main database is emptied, a named one
removed. -/
def Store.dropDb (st : Store) : Option Bytes → Store
  | none => { st with main := ∅ }
  | some name => { st with named := st.named.erase name }

@[simp] theorem Store.db_setDb_self (st : Store) (name : Option Bytes)
    (db : Db) : (st.setDb name db).db name = some db := by
  cases name with
  | none => rfl
  | some name => simp [Store.db, Store.setDb]

theorem Store.db_setDb_ne (st : Store) {name other : Option Bytes}
    (h : other ≠ name) (db : Db) :
    (st.setDb name db).db other = st.db other := by
  cases name with
  | none =>
      cases other with
      | none => exact absurd rfl h
      | some other => rfl
  | some name =>
      cases other with
      | none => rfl
      | some other =>
          have hne : name ≠ other := fun heq => h (by rw [heq])
          simp [Store.db, Store.setDb, Std.ExtTreeMap.getElem?_insert, hne]

theorem Store.db_dropDb_ne (st : Store) {name other : Option Bytes}
    (h : other ≠ name) : (st.dropDb name).db other = st.db other := by
  cases name with
  | none =>
      cases other with
      | none => exact absurd rfl h
      | some other => rfl
  | some name =>
      cases other with
      | none => rfl
      | some other =>
          have hne : name ≠ other := fun heq => h (by rw [heq])
          simp [Store.db, Store.dropDb, Std.ExtTreeMap.getElem?_erase, hne]

/-- Stores that agree on every database are the same. -/
theorem Store.ext_db {st st' : Store} (h : ∀ name, st.db name = st'.db name) :
    st = st' := by
  obtain ⟨main, named⟩ := st
  obtain ⟨main', named'⟩ := st'
  have hmain : main = main' := Option.some.inj (h none)
  have hnamed : named = named' :=
    Std.ExtTreeMap.ext_getElem? fun name => h (some name)
  rw [hmain, hnamed]

/-- `0 < key->mv_size <= MDB_MAXKEYSIZE`. -/
def validKey (key : Bytes) : Prop := 0 < key.length ∧ key.length ≤ 511

instance (key : Bytes) : Decidable (validKey key) :=
  inferInstanceAs (Decidable (_ ∧ _))

-- ============================================================== answers

/-- `mdb_dbi_open`. -/
def Store.dbiOpen (st : Store) (rdonly : Bool) (name : Option Bytes)
    (create : Bool) : OpenRet (Option Bytes) × Store :=
  match st.db name with
  | some _ => (.opened name false, st)
  | none =>
      if create = false then (.refused .notfound, st)
      else if rdonly then (.refused .eacces, st)
      else if validKey (name.getD []) then (.opened name true, st.setDb name ∅)
      else (.refused .einval, st)

/-- `mdb_put`, with `MDB_NOOVERWRITE` or without flags. -/
def Store.put (st : Store) (rdonly : Bool) (dbi : Option Bytes)
    (key data : Bytes) (nooverwrite : Bool) : MdbRc × Store :=
  match st.db dbi with
  | none => (.einval, st)
  | some db =>
      if rdonly then (.eacces, st)
      else if ¬ validKey key then (.einval, st)
      else if nooverwrite ∧ key ∈ db then (.keyexist, st)
      else (.success, st.setDb dbi (db.insert key data))

/-- `mdb_del` with no data given. -/
def Store.del (st : Store) (rdonly : Bool) (dbi : Option Bytes)
    (key : Bytes) : MdbRc × Store :=
  match st.db dbi with
  | none => (.einval, st)
  | some db =>
      if rdonly then (.eacces, st)
      else if ¬ validKey key then (.einval, st)
      else if key ∈ db then (.success, st.setDb dbi (db.erase key))
      else (.notfound, st)

/-- `mdb_get`. -/
def Store.get (st : Store) (dbi : Option Bytes) (key : Bytes) :
    Except MdbRc Bytes :=
  match st.db dbi with
  | none => .error .einval
  | some db =>
      if validKey key then
        match db[key]? with
        | some data => .ok data
        | none => .error .notfound
      else .error .einval

/-- `mdb_drop(txn, dbi, 1)`. -/
def Store.drop (st : Store) (rdonly : Bool) (dbi : Option Bytes) :
    MdbRc × Store :=
  match st.db dbi with
  | none => (.einval, st)
  | some _ =>
      if rdonly then (.eacces, st) else (.success, st.dropDb dbi)

/-- `mdb_cursor_get(cursor, &key, &data, MDB_NEXT)`, the cursor standing
on `pos`. -/
def Store.cursorNext (st : Store) (dbi : Option Bytes)
    (pos : Option Bytes) : Except MdbRc (Bytes × Bytes) :=
  match st.db dbi with
  | none => .error .einval
  | some db =>
      let entry := match pos with
        | none => db.minEntry?
        | some key => db.getEntryGT? key
      match entry with
      | some entry => .ok entry
      | none => .error .notfound

/-- A call through a transaction when all resources are there. -/
def Store.answer (st : Store) (rdonly : Bool) :
    (c : LmdbCall (Option Bytes)) → c.Ret × Store
  | .dbiOpen name create => st.dbiOpen rdonly name create
  | .put dbi key data nooverwrite => st.put rdonly dbi key data nooverwrite
  | .del dbi key => st.del rdonly dbi key
  | .get dbi key => (st.get dbi key, st)
  | .drop dbi => st.drop rdonly dbi
  | .cursorOpen _ => (.success, st)
  | .cursorNext dbi pos => (st.cursorNext dbi pos, st)
  | .cursorClose _ => ((), st)

/-- The answer when they are not. -/
def LmdbCall.exhausted {Dbi : Type} : (c : LmdbCall Dbi) → c.Ret
  | .dbiOpen _ _ => .refused .resource
  | .put _ _ _ _ => .resource
  | .del _ _ => .resource
  | .get _ _ => .error .resource
  | .drop _ => .resource
  | .cursorOpen _ => .resource
  | .cursorNext _ _ => .error .resource
  | .cursorClose _ => ()

/-- What decides an answer besides the store. -/
structure Outcome where
  /-- the resources the call needs are there -/
  ok : Bool
  /-- one more than the return value of a `sendmsg` that fell short -/
  sent : Nat
  /-- what an unwritten stack slot holds -/
  stack : Nat
deriving DecidableEq

/-- A call that takes no transaction. -/
def EnvCall.answer (zip : Bytes → Bytes) (o : Outcome) :
    (c : EnvCall (Option Bytes)) → c.Ret
  | .dbiClose _ => ()
  | .sendmsg bytes => if o.ok then bytes.length else (o.sent : Int) - 1
  | .shutdown _ => ()
  | .close _ => ()
  | .ymalloc _ => o.ok
  | .strdup _ => o.ok
  | .snappyInitEnv => o.ok
  | .snappyCompress data => if o.ok then some (zip data) else none
  | .snappyUncompress z _ => FineDB.snappyUncompress z
  | .nnSend _ => o.ok
  | .indeterminateSize => o.stack
  | .indeterminateDbi => none

/-- Nothing changes through a read-only transaction. -/
theorem Store.answer_rdonly (st : Store) (c : LmdbCall (Option Bytes)) :
    (st.answer true c).2 = st := by
  cases c with
  | dbiOpen name create =>
      simp only [Store.answer, Store.dbiOpen]
      split
      · rfl
      · split
        · rfl
        · rfl
  | put dbi key data nooverwrite =>
      simp only [Store.answer, Store.put]
      split
      · rfl
      · rfl
  | del dbi key =>
      simp only [Store.answer, Store.del]
      split
      · rfl
      · rfl
  | drop dbi =>
      simp only [Store.answer, Store.drop]
      split
      · rfl
      · rfl
  | get dbi key => rfl
  | cursorOpen dbi => rfl
  | cursorNext dbi pos => rfl
  | cursorClose dbi => rfl

/-- LMDB, snappy with the compressor `zip`, and the rest. -/
def lmdbSem (zip : Bytes → Bytes) :
    Sem (lmdbSig (Option Bytes)) (envSig (Option Bytes)) Store Outcome where
  ok := Outcome.ok
  access o rdonly c st :=
    if o.ok then st.answer rdonly c else (c.exhausted, st)
  access_rdonly o c st := by
    split
    · exact st.answer_rdonly c
    · rfl
  other o c := c.answer zip o

end FineDB

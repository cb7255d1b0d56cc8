/-
Writes that bring their own transaction.

`database_put`, `database_del` and `database_drop`, called without a
transaction, begin one, open the database in it, make their change and
commit. Each of these can fail, and where a function goes then differs:
`database_drop` returns at once after a failed commit, the other two
also abort. `StandaloneWrite.apply` says what each of them is for, in
terms of the store alone, and `standalone_allOrNothing` that they do
that or nothing: the change is committed exactly if YENOERR is returned,
and any other result leaves the committed data as they were. That
includes the database that the MDB_CREATE of a put has created in its
transaction before the put failed.
-/
import FineDB.Lib.Lockstep
import FineDB.Lib.Wp
import FineDB.Model.System

namespace FineDB

open Effect Mvcc

variable {zip : Bytes → Bytes}

-- ============================================================ the requests

/-- A write to one database. -/
inductive StandaloneWrite
  | put (createOnly : Bool) (key data : Bytes)
  | del (key : Bytes)
  | drop

/-- The function of database.c, called with `transaction = NULL`. -/
def StandaloneWrite.exec (name : Option Bytes) :
    StandaloneWrite → Store.Server Yerr
  | .put createOnly key data => databasePut none createOnly name key data
  | .del key => databaseDel none name key
  | .drop => databaseDrop none name

/-- The store with the change made to the database `name`; `none` if
there is nothing to be done: a key of a length LMDB refuses, a name it
refuses to create, a key that is there and must not be or is not there
and must. -/
def StandaloneWrite.apply (name : Option Bytes) (st : Store) :
    StandaloneWrite → Option Store
  | .put createOnly key data =>
      let db := (st.db name).getD ∅
      if ((st.db name).isSome ∨ validKey (name.getD [])) ∧ validKey key
          ∧ ¬ (createOnly ∧ key ∈ db) then
        some (st.setDb name (db.insert key data))
      else none
  | .del key =>
      (st.db name).bind fun db =>
        if validKey key ∧ key ∈ db then
          some (st.setDb name (db.erase key))
        else none
  | .drop => (st.db name).map fun _ => st.dropDb name

/-- A change of one database leaves the others alone. -/
theorem StandaloneWrite.apply_frame {name other : Option Bytes}
    {st st' : Store} {w : StandaloneWrite} (h : w.apply name st = some st')
    (hne : other ≠ name) : st'.db other = st.db other := by
  cases w with
  | put createOnly key data =>
      simp only [StandaloneWrite.apply] at h
      split at h
      · cases h
        exact Store.db_setDb_ne st hne _
      · cases h
  | del key =>
      simp only [StandaloneWrite.apply, Option.bind_eq_some_iff] at h
      obtain ⟨db, -, h⟩ := h
      split at h
      · cases h
        exact Store.db_setDb_ne st hne _
      · cases h
  | drop =>
      simp only [StandaloneWrite.apply, Option.map_eq_some_iff] at h
      obtain ⟨db, -, rfl⟩ := h
      exact Store.db_dropDb_ne st hne

-- ================================================= what the LMDB calls do

section Access

variable {o o' : Outcome} {st v v' : Store} {name dbi : Option Bytes}
  {key data : Bytes} {create new createOnly : Bool}

/-- A successful open: the handle is the name, and the database exists
or has just been created. -/
private theorem dbiOpen_opened
    (h : (lmdbSem zip).access o false (.dbiOpen name create) st
      = (.opened dbi new, v)) :
    dbi = name ∧ ((st.db name).isSome ∧ v = st
      ∨ st.db name = none ∧ create = true ∧ validKey (name.getD [])
        ∧ v = st.setDb name ∅) := by
  simp only [lmdbSem] at h
  split at h
  next =>
    simp only [Store.answer, Store.dbiOpen] at h
    split at h
    next db hdb =>
      cases h
      exact ⟨rfl, Or.inl ⟨by rw [hdb]; rfl, rfl⟩⟩
    next hdb =>
      split at h
      · cases h
      next hcreate =>
        split at h
        · cases h
        · split at h
          next hname =>
            cases h
            exact ⟨rfl, Or.inr ⟨hdb, by simpa using hcreate, hname, rfl⟩⟩
          next => cases h
  next => cases h

private theorem put_success
    (h : (lmdbSem zip).access o false (.put dbi key data createOnly) v
      = (.success, v')) :
    ∃ db, v.db dbi = some db ∧ validKey key ∧ ¬ (createOnly ∧ key ∈ db)
      ∧ v' = v.setDb dbi (db.insert key data) := by
  simp only [lmdbSem] at h
  split at h
  next =>
    simp only [Store.answer, Store.put] at h
    split at h
    · cases h
    next db hdb =>
      split at h
      · cases h
      · split at h
        · cases h
        next hkey =>
          split at h
          · cases h
          next hnew =>
            cases h
            exact ⟨db, hdb, not_not.mp hkey, hnew, rfl⟩
  next => cases h

private theorem del_success
    (h : (lmdbSem zip).access o false (.del dbi key) v = (.success, v')) :
    ∃ db, v.db dbi = some db ∧ validKey key ∧ key ∈ db
      ∧ v' = v.setDb dbi (db.erase key) := by
  simp only [lmdbSem] at h
  split at h
  next =>
    simp only [Store.answer, Store.del] at h
    split at h
    · cases h
    next db hdb =>
      split at h
      · cases h
      · split at h
        · cases h
        next hkey =>
          split at h
          next hmem =>
            cases h
            exact ⟨db, hdb, not_not.mp hkey, hmem, rfl⟩
          next => cases h
  next => cases h

private theorem drop_success
    (h : (lmdbSem zip).access o false (.drop dbi) v = (.success, v')) :
    (v.db dbi).isSome ∧ v' = v.dropDb dbi := by
  simp only [lmdbSem] at h
  split at h
  next =>
    simp only [Store.answer, Store.drop] at h
    split at h
    · cases h
    next db hdb =>
      split at h
      · cases h
      · cases h
        exact ⟨by rw [hdb]; rfl, rfl⟩
  next => cases h

/-- What is created and filled is filled. -/
theorem Store.setDb_setDb (st : Store) (name : Option Bytes)
    (db db' : Db) : (st.setDb name db).setDb name db' = st.setDb name db' := by
  refine Store.ext_db fun other => ?_
  by_cases hother : other = name
  · rw [hother, Store.db_setDb_self, Store.db_setDb_self]
  · rw [Store.db_setDb_ne _ hother, Store.db_setDb_ne _ hother,
      Store.db_setDb_ne _ hother]

/-- The open and the put together make the requested change. -/
private theorem put_apply
    (hopen : (lmdbSem zip).access o false (.dbiOpen name true) st
      = (.opened dbi new, v))
    (hput : (lmdbSem zip).access o' false (.put dbi key data createOnly) v
      = (.success, v')) :
    StandaloneWrite.apply name st (.put createOnly key data) = some v' := by
  obtain ⟨rfl, hst⟩ := dbiOpen_opened hopen
  obtain ⟨db, hdb, hkey, hnew, rfl⟩ := put_success hput
  rcases hst with ⟨hsome, rfl⟩ | ⟨hnone, -, hname, rfl⟩
  · simp only [StandaloneWrite.apply, hdb, Option.getD_some]
    rw [if_pos ⟨Or.inl rfl, hkey, hnew⟩]
  · rw [Store.db_setDb_self] at hdb
    cases hdb
    simp only [StandaloneWrite.apply, hnone, Option.getD_none]
    rw [if_pos ⟨Or.inr hname, hkey, hnew⟩, Store.setDb_setDb]

private theorem del_apply
    (hopen : (lmdbSem zip).access o false (.dbiOpen name false) st
      = (.opened dbi new, v))
    (hdel : (lmdbSem zip).access o' false (.del dbi key) v
      = (.success, v')) :
    StandaloneWrite.apply name st (.del key) = some v' := by
  obtain ⟨rfl, ⟨-, rfl⟩ | ⟨-, hcreate, -⟩⟩ := dbiOpen_opened hopen
  · obtain ⟨db, hdb, hkey, hmem, rfl⟩ := del_success hdel
    simp only [StandaloneWrite.apply, hdb, Option.bind_some]
    exact if_pos ⟨hkey, hmem⟩
  · cases hcreate

private theorem drop_apply
    (hopen : (lmdbSem zip).access o false (.dbiOpen name false) st
      = (.opened dbi new, v))
    (hdrop : (lmdbSem zip).access o' false (.drop dbi) v
      = (.success, v')) :
    StandaloneWrite.apply name st .drop = some v' := by
  obtain ⟨rfl, ⟨-, rfl⟩ | ⟨-, hcreate, -⟩⟩ := dbiOpen_opened hopen
  · obtain ⟨hsome, rfl⟩ := drop_success hdrop
    obtain ⟨db, hdb⟩ := Option.isSome_iff_exists.mp hsome
    simp only [StandaloneWrite.apply, hdb, Option.map_some]
  · cases hcreate

end Access

-- ======================================================= all or nothing

/-- With `st` committed at the start, either YENOERR is returned, a
commit has succeeded and the change `w` is in the store, or the store is
`st` and no commit has succeeded. -/
def AllOrNothing (w : StandaloneWrite) (name : Option Bytes) (st : Store)
    (tr : List (Event (serverSig (Option Bytes)))) (rc : Yerr)
    (m : State Store) : Prop :=
  (rc = .YENOERR ∧ w.apply name st = some m.store ∧ ∃ e ∈ tr, Commits e)
    ∨ (rc ≠ .YENOERR ∧ m.store = st ∧ ∀ e ∈ tr, ¬ Commits e)

variable {w : StandaloneWrite} {name : Option Bytes} {st : Store}

theorem AllOrNothing.frame {tr : List (Event (serverSig (Option Bytes)))}
    {rc : Yerr} {m : State Store} (h : AllOrNothing w name st tr rc m)
    {other : Option Bytes} (hne : other ≠ name) :
    m.store.db other = st.db other := by
  rcases h with ⟨-, happly, -⟩ | ⟨-, hstore, -⟩
  · exact StandaloneWrite.apply_frame happly hne
  · rw [hstore]

/-- A call that is not a successful commit. -/
private theorem AllOrNothing.cons {e : Event (serverSig (Option Bytes))}
    {tr : List (Event (serverSig (Option Bytes)))} {rc : Yerr}
    {m : State Store} (he : ¬ Commits e)
    (h : AllOrNothing w name st tr rc m) :
    AllOrNothing w name st (e :: tr) rc m := by
  rcases h with ⟨hrc, happly, c, hc, hcommit⟩ | ⟨hrc, hstore, htr⟩
  · exact Or.inl ⟨hrc, happly, c, List.mem_cons_of_mem _ hc, hcommit⟩
  · exact Or.inr ⟨hrc, hstore, List.forall_mem_cons.mpr ⟨he, htr⟩⟩

/-- The same for what is left of a run. -/
private theorem wp_cons {p : Store.Server Yerr}
    {e : Event (serverSig (Option Bytes))} {m : State Store}
    (he : ¬ Commits e)
    (h : Wp (lmdbSem zip) (fun _ => True) p (AllOrNothing w name st) m) :
    Wp (lmdbSem zip) (fun _ => True) p
      (fun tr => AllOrNothing w name st (e :: tr)) m :=
  h.mono fun _ _ _ => AllOrNothing.cons he

/-- Giving up: nothing is committed. -/
private theorem wp_rollback {m : State Store} {txn : Nat} {rc : Yerr}
    (hrc : rc ≠ .YENOERR) (hm : m.store = st) :
    Wp (lmdbSem zip) (fun _ => True)
      (.call (.abort txn) fun _ => .ret rc : Store.Server Yerr)
      (AllOrNothing w name st) m := by
  refine wp_abort_store fun m' hm' => wp_cons (fun h => h) ?_
  exact Or.inr ⟨hrc, hm'.trans hm, by simp⟩

/-- The end of a put or a deletion. -/
private theorem writeEndOfProcess_allOrNothing {m : State Store}
    {txn : Nat} {v : Store} {rc : MdbRc} (hm : Writing st txn v m)
    (happly : rc = .success → w.apply name st = some v) :
    Wp (lmdbSem zip) (fun _ => True)
      (writeEndOfProcess none txn (writeRetval rc))
      (AllOrNothing w name st) m := by
  by_cases hrc : rc = .success
  · rw [hrc, writeRetval_success, writeEndOfProcess_ok]
    refine wp_commit_writing hm (fun m' hm' => ?_) fun m' hm' => ?_
    · exact Or.inl ⟨rfl, by rw [hm', happly hrc], _, List.mem_cons_self, rfl⟩
    · exact wp_cons (by simp [Commits]) (wp_rollback (by decide) hm')
  · rw [writeRetval_ne hrc, writeEndOfProcess_error txn (by decide)]
    exact wp_rollback (by decide) hm.store

/-- The end of a drop. -/
private theorem dropEndOfProcess_allOrNothing {m : State Store}
    {txn : Nat} {v : Store} {rc : MdbRc} (hm : Writing st txn v m)
    (happly : rc = .success → w.apply name st = some v) :
    Wp (lmdbSem zip) (fun _ => True)
      (dropEndOfProcess none txn (writeRetval rc))
      (AllOrNothing w name st) m := by
  by_cases hrc : rc = .success
  · rw [hrc, writeRetval_success, dropEndOfProcess_ok]
    refine wp_commit_writing hm (fun m' hm' => ?_) fun m' hm' => ?_
    · exact Or.inl ⟨rfl, by rw [hm', happly hrc], _, List.mem_cons_self, rfl⟩
    · exact Or.inr ⟨by decide, hm', by simp [Commits]⟩
  · rw [writeRetval_ne hrc, dropEndOfProcess_error txn (by decide)]
    exact wp_rollback (by decide) hm.store

/-- The opening of the three functions: a transaction of their own, and
the database in it. -/
private theorem wp_standalone {m : State Store} {create : Bool}
    {k : Option Nat → Store.Server Yerr}
    {g : Nat → OpenRet (Option Bytes) → Store.Server Yerr}
    (hw : m.writer = none) (hnone : k none = .ret .YEACCESS)
    (hsome : ∀ txn, k (some txn)
      = .call (.access txn (.dbiOpen name create)) (g txn))
    (hrefused : ∀ txn rc, g txn (.refused rc)
      = .call (.abort txn) fun _ => .ret .YEACCESS)
    (hopened : ∀ txn o dbi new v m',
      (lmdbSem zip).access o false (.dbiOpen name create) m.store
          = (.opened dbi new, v) →
        Writing m.store txn v m' →
        Wp (lmdbSem zip) (fun _ => True) (g txn (.opened dbi new))
          (AllOrNothing w name m.store) m') :
    Wp (lmdbSem zip) (fun _ => True)
      (.call (.txnBegin false) k : Store.Server Yerr)
      (AllOrNothing w name m.store) m := by
  refine wp_begin_writing hw (wp_cons (fun h => h) ?_) fun txn m₁ hm₁ =>
    wp_cons (fun h => h) ?_
  · rw [hnone]
    exact Or.inr ⟨by decide, rfl, by simp⟩
  · rw [hsome]
    refine wp_access_writing hm₁ fun o _ r v hopen m₂ hm₂ =>
      wp_cons (fun h => h) ?_
    cases r with
    | refused rc =>
        rw [hrefused]
        exact wp_rollback (by decide) hm₂.store
    | opened dbi new => exact hopened txn o dbi new v m₂ hopen hm₂

theorem StandaloneWrite.wp (w : StandaloneWrite)
    (name : Option Bytes) {m : State Store} (hw : m.writer = none) :
    Wp (lmdbSem zip) (fun _ => True) (w.exec name)
      (AllOrNothing w (name.map cString) m.store) m := by
  have hwrite : ∀ txn, (writeEndOfProcess none txn .YEACCESS :
      Store.Server _) = .call (.abort txn) fun _ => .ret .YEACCESS :=
    fun txn => writeEndOfProcess_error txn (by decide)
  have hdrop : ∀ txn, (dropEndOfProcess none txn .YEACCESS :
      Store.Server _) = .call (.abort txn) fun _ => .ret .YEACCESS :=
    fun txn => dropEndOfProcess_error txn (by decide)
  cases w with
  | put createOnly key data =>
      refine wp_standalone hw rfl (fun _ => rfl) (fun txn _ => hwrite txn)
        fun txn o dbi new v m₂ hopen hm₂ => ?_
      refine wp_access_writing hm₂ fun o' _ rc v' hput m₃ hm₃ =>
        wp_cons (fun h => h) ?_
      refine wp_other fun _ _ => wp_cons (fun h => h) ?_
      refine writeEndOfProcess_allOrNothing hm₃ fun hrc => ?_
      exact put_apply hopen (hrc ▸ hput)
  | del key =>
      refine wp_standalone hw rfl (fun _ => rfl) (fun txn _ => hwrite txn)
        fun txn o dbi new v m₂ hopen hm₂ => ?_
      refine wp_access_writing hm₂ fun o' _ rc v' hdel m₃ hm₃ =>
        wp_cons (fun h => h) ?_
      refine wp_other fun _ _ => wp_cons (fun h => h) ?_
      refine writeEndOfProcess_allOrNothing hm₃ fun hrc => ?_
      exact del_apply hopen (hrc ▸ hdel)
  | drop =>
      refine wp_standalone hw rfl (fun _ => rfl) (fun txn _ => hdrop txn)
        fun txn o dbi new v m₂ hopen hm₂ => ?_
      refine wp_access_writing hm₂ fun o' _ rc v' hrun m₃ hm₃ =>
        wp_cons (fun h => h) ?_
      refine wp_other fun _ _ => wp_cons (fun h => h) ?_
      refine dropEndOfProcess_allOrNothing hm₃ fun hrc => ?_
      exact drop_apply hopen (hrc ▸ hrun)

end FineDB

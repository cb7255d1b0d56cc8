/-
Which database an operation works on, with any number of threads on
LMDB's handle table: the property, and what one call does to it.

The property is about single calls. A lookup inside a job answers from
the database the job was given the name of, in the snapshot of the
transaction (`MdbEnv.Right`); a commit changes that database only; no
other call changes stored data. It fails in two ways, both because the
name of a slot is shared while its record is private to a transaction:

- a session that used slot 2 for `a` asks for `b` after another thread
  has given the slot that name: `mdb_dbi_open` finds the name and the
  record of `a` is used for it;
- `database_put` and `database_del` close their handle before they
  commit: the commit writes the record back under whatever name another
  thread has given the slot since.

`MdbEnv.Fits` excludes the two, and its middle part a third one that
only a slot kept valid by such a commit can show. `MdbTxn.Good` is the
invariant of a transaction its own thread keeps with every such call;
`MdbEnv.Spares` is what the calls of the others leave of it.
-/
import FineDB.Model.HandleTable
import FineDB.Proofs.Discipline

namespace FineDB

open Effect Mvcc Machine

-- =============================================================== the statement

/-- The answer of a lookup is what the database holds. -/
def Answers.From (db : Option Db) (key : Bytes) :
    Except MdbRc Bytes → Prop
  | .ok data => db.bind (·[key]?) = some data
  | .error .notfound => db.bind (·[key]?) = none
  | .error _ => True

/-- What a call of an operation on database `n` should do. -/
def MdbEnv.Right (n : Option Bytes) (e : MdbEnv) :
    (call : (serverSig Nat).Call) → (serverSig Nat).Ret call → MdbEnv → Prop
  | .access t (.get _ key), ret, e' => e'.data = e.data
      ∧ ∀ x ∈ e.txns t, Answers.From (x.view.db n) key ret
  | .commit _, _, e' => ∀ m, m ≠ n → e'.data.db m = e.data.db m
  | _, _, e' => e'.data = e.data

/-- A stale record is read again while the slot has its name. -/
def MdbEnv.Reloads (n : Option Bytes) (e : MdbEnv) (t dbi : Nat) : Prop :=
  ∀ x ∈ e.txns t, ∀ s ∈ x.slot dbi, s.stale = true → e.names dbi = n

/-- The condition on a call of an operation on database `n`. -/
def MdbEnv.Fits (n : Option Bytes) (e : MdbEnv) :
    (serverSig Nat).Call → Prop
  -- a slot found by its name holds no record of another database
  | .access t (.dbiOpen name _) => ∀ x ∈ e.txns t, ∀ m ∈ name,
      ∀ i ∈ e.findSlot x m, ∀ s ∈ x.slot i, s.stale = true ∨ s.origin = m
  | .access t (.get dbi _) => e.Reloads n t dbi
  | .access t (.put dbi _ _ _) => e.Reloads n t dbi
  | .access t (.del dbi _) => e.Reloads n t dbi
  -- a record to write back has no name to go under, or its own
  | .commit t => ∀ x ∈ e.txns t, ∀ i ∈ x.slots, ∀ s ∈ x.slot i,
      s.dirty = true → e.names i = none ∨ e.names i = some s.origin
  | _ => True

-- =========================================================== what a call changes

/-- Nothing outside transaction `t` but the names of slots. -/
structure MdbEnv.Local (t : Nat) (e e' : MdbEnv) : Prop where
  next : e'.next = e.next
  numdbs : e'.numdbs = e.numdbs
  writer : e'.writer = e.writer
  data : e'.data = e.data
  txns : ∀ u, u ≠ t → e'.txns u = e.txns u

variable {e e' : MdbEnv} {t : Nat} {x : MdbTxn} {n : Option Bytes}

theorem MdbEnv.Local.refl (e : MdbEnv) (t : Nat) : e.Local t e :=
  ⟨rfl, rfl, rfl, rfl, fun _ _ => rfl⟩

theorem MdbEnv.local_setTxn (e : MdbEnv) (t : Nat) (x : MdbTxn) :
    e.Local t (e.setTxn t x) :=
  ⟨rfl, rfl, rfl, rfl, fun _ hu => Function.update_of_ne hu _ _⟩

/-- The transaction after its slot was taken. -/
def MdbTxn.taken (x : MdbTxn) (unused : Option Nat) (name : Bytes)
    (db : Db) (created : Bool) : MdbTxn :=
  let numdbs := if unused.isSome then x.numdbs else x.numdbs + 1
  MdbTxn.setSlot { x with numdbs := numdbs } (unused.getD x.numdbs)
    ⟨false, true, created, db, name⟩

theorem MdbEnv.addToTable_spec (e : MdbEnv) (t : Nat) (x : MdbTxn)
    (name : Bytes) (db : Db) (created : Bool) :
    ∃ e', e.addToTable t x name db created
        = (.opened ((e.unused x).getD x.numdbs) created, e')
      ∧ e.Local t e'
      ∧ e'.txns t = some (x.taken (e.unused x) name db created) :=
  ⟨_, rfl, ⟨rfl, rfl, rfl, rfl, fun _ hu => Function.update_of_ne hu _ _⟩,
    Function.update_self ..⟩

/-- The ways of `mdb_dbi_open`: refused, the main database, a slot found
by its name, a slot taken for a database that exists or is created. -/
theorem MdbEnv.dbiOpen_cases (e : MdbEnv) (t : Nat) (x : MdbTxn)
    (name : Option Bytes) (create : Bool) :
    (∃ rc, e.dbiOpen t x name create = (.refused rc, e))
      ∨ (name = none ∧ e.dbiOpen t x name create = (.opened 1 false, e))
      ∨ (∃ m i, name = some m ∧ e.findSlot x m = some i
          ∧ e.dbiOpen t x name create = (.opened i false, e))
      ∨ (∃ m db, name = some m ∧ x.view.named[m]? = some db
          ∧ e.dbiOpen t x name create = e.addToTable t x m db false)
      ∨ (∃ m, name = some m ∧ x.view.named[m]? = none ∧ x.rdonly = false
          ∧ e.dbiOpen t x name create
            = e.addToTable t { x with view := x.view.setDb (some m) ∅ }
                m ∅ true) := by
  unfold MdbEnv.dbiOpen
  split
  · exact .inr (.inl ⟨rfl, rfl⟩)
  next m =>
    split
    next i hi => exact .inr (.inr (.inl ⟨m, i, rfl, hi, rfl⟩))
    · split
      · exact .inl ⟨_, rfl⟩
      · split
        next db hdb => exact .inr (.inr (.inr (.inl ⟨m, db, rfl, hdb, rfl⟩)))
        next hdb =>
          split
          · exact .inl ⟨_, rfl⟩
          · split
            · exact .inl ⟨_, rfl⟩
            next hr =>
              split
              · exact .inr (.inr (.inr (.inr
                  ⟨m, rfl, hdb, by simpa using hr, rfl⟩)))
              · exact .inl ⟨_, rfl⟩

theorem MdbEnv.dbiOpen_local (e : MdbEnv) (t : Nat) (x : MdbTxn)
    (name : Option Bytes) (create : Bool) :
    e.Local t (e.dbiOpen t x name create).2 := by
  rcases e.dbiOpen_cases t x name create with ⟨rc, h⟩ | ⟨-, h⟩
    | ⟨m, i, -, -, h⟩ | ⟨m, db, -, -, h⟩ | ⟨m, -, -, -, h⟩
  · rw [h]
    exact .refl e t
  · rw [h]
    exact .refl e t
  · rw [h]
    exact .refl e t
  · obtain ⟨e', he', hlocal, -⟩ := e.addToTable_spec t x m db false
    rw [h, he']
    exact hlocal
  · obtain ⟨e', he', hlocal, -⟩ := e.addToTable_spec t
      { x with view := x.view.setDb (some m) ∅ } m ∅ true
    rw [h, he']
    -- the transaction given to the table differs from `x`, `t` does not
    exact hlocal

/-- An access stays inside its transaction. -/
theorem MdbEnv.access_local {a : LmdbCall Nat} {r : a.Ret}
    (h : e.access t x a = some (r, e')) : e.Local t e' := by
  cases a with
  | dbiOpen name create =>
      have hopen : e.dbiOpen t x name create = (r, e') := Option.some.inj h
      have hlocal := e.dbiOpen_local t x name create
      rw [hopen] at hlocal
      exact hlocal
  | get dbi key =>
      cases h
      exact e.local_setTxn t _
  | put dbi key data nooverwrite =>
      cases h
      exact e.local_setTxn t _
  | del dbi key =>
      cases h
      exact e.local_setTxn t _
  | drop dbi => cases h
  | cursorOpen dbi => cases h
  | cursorNext dbi pos => cases h
  | cursorClose dbi => cases h

/-- What another thread's call leaves of a transaction it does not own:
all of it, and the stored data as long as the transaction has the
writer lock. -/
structure MdbEnv.Spares (e e' : MdbEnv) (t : Nat) : Prop where
  txn : e'.txns t = e.txns t
  lock : e.writer = some t → e'.writer = some t ∧ e'.data = e.data

theorem MdbEnv.Local.spares {u : Nat} (h : e.Local t e') (hu : u ≠ t) :
    e.Spares e' u :=
  ⟨h.txns u hu, fun hw => ⟨h.writer.trans hw, h.data⟩⟩

/-- The end of another transaction. -/
theorem MdbEnv.spares_ended (e : MdbEnv) {u : Nat} (hu : u ≠ t) :
    e.Spares (e.ended t) u := by
  refine ⟨Function.update_of_ne hu _ _, fun hw => ⟨?_, rfl⟩⟩
  show (if e.writer = some t then none else e.writer) = some u
  rw [if_neg, hw]
  rw [hw]
  exact fun h => hu (Option.some.inj h)

theorem MdbEnv.spares_abort (e : MdbEnv) (x : MdbTxn) {u : Nat}
    (hu : u ≠ t) : e.Spares (e.abort t x) u :=
  ⟨(e.spares_ended hu).txn, (e.spares_ended hu).lock⟩

theorem MdbEnv.spares_committed (e : MdbEnv) (x : MdbTxn) {u : Nat}
    (hu : u ≠ t) {st : Store} (hst : e.writer = some u → st = e.data) :
    e.Spares (e.committed t x st) u :=
  ⟨(e.spares_ended hu).txn,
    fun hw => ⟨((e.spares_ended hu).lock hw).1, hst hw⟩⟩

theorem MdbEnv.spares_commit (e : MdbEnv) (x : MdbTxn) (ok : Bool)
    (image : Bytes) {u : Nat} (hu : u ≠ t) :
    e.Spares (e.commit ok image t x).2 u := by
  unfold MdbEnv.commit
  split
  · exact e.spares_committed x hu fun _ => rfl
  · split
    · exact e.spares_abort x hu
    next hlock =>
      split
      · exact e.spares_abort x hu
      · refine e.spares_committed x hu fun hw => ?_
        -- only the holder of the lock gets here
        rw [not_or, not_not] at hlock
        rw [hw] at hlock
        exact absurd (Option.some.inj hlock.2) hu

-- ================================================================== inversion

section Inversion

variable {c : Nat} {o : Lot}

theorem MdbEnv.exec_begin {rdonly : Bool} {r : Option Nat}
    (h : e.exec c o (.txnBegin rdonly) = some (r, e')) :
    (r = none ∧ e' = e)
      ∨ (r = some e.next ∧ e' = e.txnBegin c rdonly
          ∧ (rdonly = false → e.writer = none)) := by
  simp only [MdbEnv.exec] at h
  split at h
  · cases h
  next hlock =>
    split at h
    · cases h
      refine .inr ⟨rfl, rfl, fun hw => ?_⟩
      simpa [hw] using hlock
    · cases h
      exact .inl ⟨rfl, rfl⟩

theorem MdbEnv.exec_commit {r : Bool}
    (h : e.exec c o (.commit t) = some (r, e')) :
    e' = e ∨ ∃ x, e.txns t = some x ∧ x.owner = c
      ∧ e.commit o.ok o.image t x = (r, e') := by
  simp only [MdbEnv.exec] at h
  split at h
  · cases h
    exact .inl rfl
  next x hx =>
    split at h
    next hc => exact .inr ⟨x, hx, hc, Option.some.inj h⟩
    · cases h

theorem MdbEnv.exec_abort {r : Unit}
    (h : e.exec c o (.abort t) = some (r, e')) :
    e' = e ∨ ∃ x, e.txns t = some x ∧ x.owner = c ∧ e' = e.abort t x := by
  simp only [MdbEnv.exec] at h
  split at h
  · cases h
    exact .inl rfl
  next x hx =>
    split at h
    next hc =>
      cases h
      exact .inr ⟨x, hx, hc, rfl⟩
    · cases h

theorem MdbEnv.exec_access {a : LmdbCall Nat} {r : a.Ret}
    (h : e.exec c o (.access t a) = some (r, e')) :
    ∃ x, e.txns t = some x ∧ x.owner = c
      ∧ ((r = a.exhausted ∧ e' = e) ∨ e.access t x a = some (r, e')) := by
  simp only [MdbEnv.exec] at h
  split at h
  · cases h
  next x hx =>
    split at h
    · cases h
    next hc =>
      refine ⟨x, hx, not_not.mp hc, ?_⟩
      split at h
      · exact .inr h
      · cases h
        exact .inl ⟨rfl, rfl⟩

/-- The other calls change names at most. -/
theorem MdbEnv.exec_other {l : EnvCall Nat} {r : l.Ret}
    (h : e.exec c o (.other l) = some (r, e')) :
    ∃ names valid, e' = { e with names := names, valid := valid } := by
  cases l with
  | dbiClose dbi =>
      cases h
      unfold MdbEnv.dbiClose
      split
      · exact ⟨e.names, e.valid, rfl⟩
      · exact ⟨_, _, rfl⟩
  | _ =>
      cases h
      exact ⟨e.names, e.valid, rfl⟩

theorem MdbEnv.commit_counts (e : MdbEnv) (ok : Bool) (image : Bytes)
    (t : Nat) (x : MdbTxn) :
    (e.commit ok image t x).2.next = e.next
      ∧ e.numdbs ≤ (e.commit ok image t x).2.numdbs := by
  unfold MdbEnv.commit
  split
  · exact ⟨rfl, le_max_left _ _⟩
  · split
    · exact ⟨rfl, le_rfl⟩
    · split
      · exact ⟨rfl, le_rfl⟩
      · exact ⟨rfl, le_max_left _ _⟩

/-- The counters only grow. -/
theorem MdbEnv.exec_counts {call : (serverSig Nat).Call}
    {r : (serverSig Nat).Ret call}
    (h : e.exec c o call = some (r, e')) :
    e.next ≤ e'.next ∧ e.numdbs ≤ e'.numdbs := by
  cases call with
  | txnBegin rdonly =>
      rcases MdbEnv.exec_begin h with ⟨-, rfl⟩ | ⟨-, rfl, -⟩
      · exact ⟨le_rfl, le_rfl⟩
      · exact ⟨Nat.le_succ _, le_rfl⟩
  | commit u =>
      rcases MdbEnv.exec_commit h with rfl | ⟨y, -, -, hcommit⟩
      · exact ⟨le_rfl, le_rfl⟩
      · have hcounts := e.commit_counts o.ok o.image u y
        rw [hcommit] at hcounts
        exact ⟨hcounts.1.ge, hcounts.2⟩
  | abort u =>
      rcases MdbEnv.exec_abort h with rfl | ⟨y, -, -, rfl⟩
      · exact ⟨le_rfl, le_rfl⟩
      · exact ⟨le_rfl, le_rfl⟩
  | access u a =>
      obtain ⟨y, -, -, ⟨-, rfl⟩ | haccess⟩ := MdbEnv.exec_access h
      · exact ⟨le_rfl, le_rfl⟩
      · have hlocal := MdbEnv.access_local haccess
        exact ⟨hlocal.next.ge, hlocal.numdbs.ge⟩
  | other l =>
      obtain ⟨names, valid, rfl⟩ := MdbEnv.exec_other h
      exact ⟨le_rfl, le_rfl⟩

/-- A call by thread `c`, seen from a transaction of another thread. -/
theorem MdbEnv.exec_spares {u : Nat} {call : (serverSig Nat).Call}
    {r : (serverSig Nat).Ret call}
    (h : e.exec c o call = some (r, e')) (hu : u < e.next)
    {y : MdbTxn} (hy : e.txns u = some y) (hc : y.owner ≠ c) :
    e.Spares e' u := by
  -- a transaction of `c` is another one
  have hne : ∀ {t x}, e.txns t = some x → x.owner = c → u ≠ t := by
    intro t x hx hown hut
    rw [← hut, hy] at hx
    exact hc (Option.some.inj hx ▸ hown)
  cases call with
  | txnBegin rdonly =>
      rcases MdbEnv.exec_begin h with ⟨-, rfl⟩ | ⟨-, rfl, hlock⟩
      · exact ⟨rfl, fun hw => ⟨hw, rfl⟩⟩
      · refine ⟨Function.update_of_ne (Nat.ne_of_lt hu) _ _,
          fun hw => ⟨?_, rfl⟩⟩
        cases rdonly with
        | true => exact hw
        | false =>
            rw [hlock rfl] at hw
            cases hw
  | commit t =>
      rcases MdbEnv.exec_commit h with rfl | ⟨x, hx, hown, hcommit⟩
      · exact ⟨rfl, fun hw => ⟨hw, rfl⟩⟩
      · have hspares := e.spares_commit x o.ok o.image (hne hx hown)
        rw [hcommit] at hspares
        exact hspares
  | abort t =>
      rcases MdbEnv.exec_abort h with rfl | ⟨x, hx, hown, rfl⟩
      · exact ⟨rfl, fun hw => ⟨hw, rfl⟩⟩
      · exact e.spares_abort x (hne hx hown)
  | access t a =>
      obtain ⟨x, hx, hown, ⟨-, rfl⟩ | haccess⟩ := MdbEnv.exec_access h
      · exact ⟨rfl, fun hw => ⟨hw, rfl⟩⟩
      · exact (MdbEnv.access_local haccess).spares (hne hx hown)
  | other l =>
      obtain ⟨names, valid, rfl⟩ := MdbEnv.exec_other h
      exact ⟨rfl, fun hw => ⟨hw, rfl⟩⟩

end Inversion

-- ============================================================ a transaction's own

/-- A transaction used for database `n`, writing (`wr`) or not. Records
are those of existing databases, in a reader with their contents. A
writer's view differs from the stored data `base` in database `n` only,
and a record to write back is that of `n`. -/
structure MdbTxn.Good (wr : Bool) (n : Option Bytes) (base : Store)
    (x : MdbTxn) : Prop where
  mode : x.rdonly = !wr
  two : 2 ≤ x.numdbs
  low : ∀ i s, x.slot i = some s → 2 ≤ i
  view : wr = true → ∀ m, m ≠ n → x.view.db m = base.db m
  read : ∀ i s, x.slot i = some s → s.stale = false →
    ∃ db, x.view.named[s.origin]? = some db ∧ (wr = false → db = s.db)
  dirty : ∀ i s, x.slot i = some s → s.dirty = true →
    wr = true ∧ s.stale = false ∧ n = some s.origin

/-- `dbi` is a handle for database `n`. -/
def MdbTxn.Handle (n : Option Bytes) (dbi : Nat) (x : MdbTxn) : Prop :=
  (dbi = 1 ∧ n = none)
    ∨ (2 ≤ dbi ∧ n ≠ none
      ∧ ∀ s, x.slot dbi = some s → s.stale = false → n = some s.origin)

variable {wr : Bool} {base : Store} {dbi : Nat}

/-- A reader is good for every database. -/
theorem MdbTxn.Good.reader (h : x.Good false n base)
    (n' : Option Bytes) (base' : Store) : x.Good false n' base' :=
  ⟨h.mode, h.two, h.low, nofun, h.read,
    fun i s hs hd => absurd (h.dirty i s hs hd).1 Bool.false_ne_true⟩

theorem MdbTxn.slots_ge {i : Nat} (h : i ∈ x.slots) : 2 ≤ i := by
  rw [MdbTxn.slots, List.mem_range'_1] at h
  exact h.1

/-- A record of an existing database may be put into any slot. -/
theorem MdbTxn.Good.setSlot (h : x.Good wr n base) {i : Nat}
    (hi : 2 ≤ i) {s : SlotRecord}
    (hread : ∃ db, x.view.named[s.origin]? = some db
      ∧ (wr = false → db = s.db))
    (hdirty : s.dirty = true →
      wr = true ∧ s.stale = false ∧ n = some s.origin) :
    (x.setSlot i s).Good wr n base := by
  -- what holds of the record and of all others holds in every slot
  have hall : ∀ {P : Nat → SlotRecord → Prop}, P i s →
      (∀ j s', x.slot j = some s' → P j s') →
      ∀ j s', (x.setSlot i s).slot j = some s' → P j s' := by
    intro P hs hothers j s' hs'
    by_cases hj : j = i
    · rw [hj, x.setSlot_self] at hs'
      cases hs'
      rw [hj]
      exact hs
    · rw [x.setSlot_ne hj] at hs'
      exact hothers j s' hs'
  exact ⟨h.mode, h.two, hall hi h.low, h.view,
    hall (fun _ => hread) h.read, hall hdirty h.dirty⟩

-- ------------------------------------------------------------------------ open

/-- Taking a slot for an existing database. -/
theorem MdbTxn.Good.taken (h : x.Good wr n base) {m : Bytes} {db : Db}
    {created : Bool} (hn : n = some m) (hdb : x.view.named[m]? = some db)
    (hcreated : created = true → wr = true) (e : MdbEnv) :
    (x.taken (e.unused x) m db created).Good wr n base
      ∧ (x.taken (e.unused x) m db created).Handle n
          ((e.unused x).getD x.numdbs) := by
  have htwo := h.two
  have hge : 2 ≤ (e.unused x).getD x.numdbs := by
    cases hfree : e.unused x with
    | none => exact htwo
    | some i => exact MdbTxn.slots_ge (List.mem_of_find?_eq_some hfree)
  have hgrown : MdbTxn.Good wr n base { x with
      numdbs := if (e.unused x).isSome then x.numdbs else x.numdbs + 1 } := by
    refine ⟨h.mode, ?_, h.low, h.view, h.read, h.dirty⟩
    show 2 ≤ if (e.unused x).isSome then x.numdbs else x.numdbs + 1
    split
    · exact htwo
    · omega
  refine ⟨hgrown.setSlot hge ⟨db, hdb, fun _ => rfl⟩
    fun hd => ⟨hcreated hd, rfl, hn⟩, .inr ⟨hge, ?_, fun s hs _ => ?_⟩⟩
  · rw [hn]
    exact Option.some_ne_none m
  · rw [MdbTxn.taken, MdbTxn.setSlot_self] at hs
    cases hs
    exact hn

/-- Creating the transaction's database. -/
theorem MdbTxn.Good.created (h : x.Good wr n base) {m : Bytes}
    (hn : n = some m) (hdb : x.view.named[m]? = none)
    (hrd : x.rdonly = false) :
    wr = true
      ∧ MdbTxn.Good wr n base
          { x with view := x.view.setDb (some m) ∅ } := by
  have hwr : wr = true := by
    have hmode := h.mode
    rw [hrd] at hmode
    simpa using hmode.symm
  refine ⟨hwr, h.mode, h.two, h.low, fun _ k hk => ?_,
    fun i s hs hstale => ?_, h.dirty⟩
  · rw [hn] at hk
    rw [Store.db_setDb_ne _ hk]
    exact h.view hwr k (by rw [hn]; exact hk)
  · obtain ⟨db, hold, hsame⟩ := h.read i s hs hstale
    refine ⟨db, ?_, hsame⟩
    have hne : some s.origin ≠ some m := by
      intro heq
      rw [Option.some.inj heq, hdb] at hold
      cases hold
    exact (Store.db_setDb_ne x.view hne ∅).trans hold

/-- `mdb_dbi_open` of the transaction's database. -/
theorem MdbEnv.dbiOpen_good (h : x.Good wr n base) {create : Bool}
    {r : OpenRet Nat} (ht : e.txns t = some x)
    (hfit : e.Fits n (.access t (.dbiOpen n create)))
    (hopen : e.dbiOpen t x n create = (r, e')) :
    ∃ x', e'.txns t = some x' ∧ x'.owner = x.owner ∧ x'.Good wr n base
      ∧ ∀ dbi created, r = .opened dbi created → x'.Handle n dbi := by
  rcases e.dbiOpen_cases t x n create with ⟨rc, hr⟩ | ⟨hn, hr⟩
    | ⟨m, i, hn, hi, hr⟩ | ⟨m, db, hn, hdb, hr⟩ | ⟨m, hn, hdb, hrd, hr⟩
  · rw [hr] at hopen
    cases hopen
    exact ⟨x, ht, rfl, h, fun _ _ hc => by cases hc⟩
  · rw [hr] at hopen
    cases hopen
    refine ⟨x, ht, rfl, h, fun dbi created hc => ?_⟩
    cases hc
    exact .inl ⟨rfl, hn⟩
  · -- the slot has the name; the condition says whose record is in it
    rw [hr] at hopen
    cases hopen
    refine ⟨x, ht, rfl, h, fun dbi created hc => ?_⟩
    cases hc
    refine .inr ⟨MdbTxn.slots_ge (List.mem_of_find?_eq_some hi), ?_,
      fun s hs hstale => ?_⟩
    · rw [hn]
      exact Option.some_ne_none m
    · rcases hfit x ht m hn i hi s hs with hst | horigin
      · rw [hst] at hstale
        cases hstale
      · rw [hn, horigin]
  · obtain ⟨e'', he'', -, htxn⟩ := e.addToTable_spec t x m db false
    rw [hr, he''] at hopen
    cases hopen
    obtain ⟨hgood, hhandle⟩ := h.taken hn hdb (Bool.noConfusion : false = true → _) e
    refine ⟨_, htxn, rfl, hgood, fun dbi created hc => ?_⟩
    cases hc
    exact hhandle
  · obtain ⟨hwr, hnew⟩ := h.created hn hdb hrd
    obtain ⟨e'', he'', -, htxn⟩ := e.addToTable_spec t
      { x with view := x.view.setDb (some m) ∅ } m ∅ true
    rw [hr, he''] at hopen
    cases hopen
    obtain ⟨hgood, hhandle⟩ := hnew.taken hn
      (Store.db_setDb_self x.view (some m) ∅) (fun _ => hwr) e
    refine ⟨_, htxn, rfl, hgood, fun dbi created hc => ?_⟩
    cases hc
    exact hhandle

-- --------------------------------------------------------------- get, put, del

/-- The record a handle leads to, read again if it was stale. -/
theorem MdbEnv.record_good (h : x.Good wr n base)
    (hhandle : x.Handle n dbi) (hdbi : dbi ≠ 1)
    (ht : e.txns t = some x) (hfit : e.Reloads n t dbi) {s : SlotRecord}
    (hs : e.record x dbi = some s) :
    2 ≤ dbi ∧ s.stale = false ∧ n = some s.origin
      ∧ (∃ db, x.view.named[s.origin]? = some db
          ∧ (wr = false → db = s.db))
      ∧ (s.dirty = true → wr = true) := by
  obtain ⟨hone, -⟩ | ⟨hge, -, horigin⟩ := hhandle
  · exact absurd hone hdbi
  rw [MdbEnv.record, Option.bind_eq_some_iff] at hs
  obtain ⟨s₀, hs₀, hs⟩ := hs
  split at hs
  next hstale =>
    rw [Option.bind_eq_some_iff] at hs
    obtain ⟨name, hname, hs⟩ := hs
    rw [Option.map_eq_some_iff] at hs
    obtain ⟨db, hdb, rfl⟩ := hs
    have hn := hfit x ht s₀ hs₀ hstale
    exact ⟨hge, rfl, hn.symm.trans hname, ⟨db, hdb, fun _ => rfl⟩,
      fun hd => (h.dirty dbi s₀ hs₀ hd).1⟩
  next hstale =>
    have hfresh : s₀.stale = false := by simpa using hstale
    obtain rfl := Option.some.inj hs
    exact ⟨hge, hfresh, horigin _ hs₀ hfresh, h.read dbi _ hs₀ hfresh,
      fun hd => (h.dirty dbi _ hs₀ hd).1⟩

/-- A record that cannot be read again is that of no database. -/
theorem MdbEnv.record_none (hhandle : x.Handle n dbi) (hdbi : dbi ≠ 1)
    (hhas : x.has dbi = true) (ht : e.txns t = some x)
    (hfit : e.Reloads n t dbi) (hnone : e.record x dbi = none) :
    x.view.db n = none := by
  obtain ⟨hone, -⟩ | ⟨-, hn, -⟩ := hhandle
  · exact absurd hone hdbi
  obtain ⟨m, hm⟩ := Option.ne_none_iff_exists'.mp hn
  have hslot : (x.slot dbi).isSome := by
    simp only [MdbTxn.has, hdbi, decide_false, Bool.false_or,
      Bool.and_eq_true] at hhas
    exact hhas.2
  obtain ⟨s, hs⟩ := Option.isSome_iff_exists.mp hslot
  rw [MdbEnv.record, hs, Option.bind_some] at hnone
  split at hnone
  next hstale =>
    rw [hfit x ht s hs hstale, hm, Option.bind_some,
      Option.map_eq_none_iff] at hnone
    rw [hm]
    exact hnone
  · cases hnone

theorem dbGet_from {db : Db} {found : Option Db} (h : found = some db)
    (key : Bytes) : Answers.From found key (dbGet db key) := by
  rw [h]
  unfold dbGet
  split
  next data hdata => exact hdata
  next hnone => exact hnone

/-- `mdb_get` through a handle of the transaction's database. -/
theorem MdbEnv.get_good (h : x.Good wr n base) (hhandle : x.Handle n dbi)
    (ht : e.txns t = some x) (hfit : e.Reloads n t dbi) (key : Bytes) :
    (e.get x dbi key).2.Good wr n base
      ∧ (e.get x dbi key).2.owner = x.owner
      ∧ (wr = false →
          Answers.From (x.view.db n) key (e.get x dbi key).1) := by
  unfold MdbEnv.get
  split
  · exact ⟨h, rfl, fun _ => trivial⟩
  next hhas =>
  split
  next hone =>
    refine ⟨h, rfl, fun _ => ?_⟩
    obtain ⟨-, hn⟩ | ⟨hge, -⟩ := hhandle
    · rw [hn]
      exact dbGet_from rfl key
    · omega
  next hone =>
    split
    next hnone =>
      refine ⟨h, rfl, fun _ => ?_⟩
      rw [not_or, Bool.not_eq_false] at hhas
      rw [MdbEnv.record_none hhandle hone hhas.1 ht hfit hnone]
      rfl
    next s hs =>
      obtain ⟨hge, hfresh, hn, ⟨db, hdb, hsame⟩, hdirty⟩ :=
        MdbEnv.record_good h hhandle hone ht hfit hs
      refine ⟨h.setSlot hge ⟨db, hdb, hsame⟩
        fun hd => ⟨hdirty hd, hfresh, hn⟩, rfl, fun hwr => ?_⟩
      rw [hn]
      exact dbGet_from (hdb.trans (congrArg some (hsame hwr))) key

/-- `mdb_put` or `mdb_del` through such a handle. -/
theorem MdbEnv.modify_good (h : x.Good wr n base)
    (hhandle : x.Handle n dbi) (ht : e.txns t = some x)
    (hfit : e.Reloads n t dbi) (key : Bytes) (f : Db → Except MdbRc Db) :
    (e.modify x dbi key f).2.Good wr n base
      ∧ (e.modify x dbi key f).2.owner = x.owner := by
  unfold MdbEnv.modify
  split
  · exact ⟨h, rfl⟩
  split
  · exact ⟨h, rfl⟩
  next hrd =>
  have hwr : wr = true := by
    have hmode := h.mode
    rw [Bool.not_eq_true] at hrd
    rw [hrd] at hmode
    simpa using hmode.symm
  split
  · exact ⟨h, rfl⟩
  split
  next hone =>
    split
    · exact ⟨h, rfl⟩
    next db _ =>
      have hn : n = none := by
        obtain ⟨-, hn⟩ | ⟨hge, -⟩ := hhandle
        · exact hn
        · omega
      refine ⟨⟨h.mode, h.two, h.low, fun _ m hm => ?_, h.read, h.dirty⟩,
        rfl⟩
      rw [hn] at hm
      rw [Store.db_setDb_ne _ hm]
      exact h.view hwr m (by rw [hn]; exact hm)
  next hone =>
    split
    · exact ⟨h, rfl⟩
    next s hs =>
      obtain ⟨hge, hfresh, hn, ⟨db, hdb, -⟩, hdirty⟩ :=
        MdbEnv.record_good h hhandle hone ht hfit hs
      have hread : ∀ db', ∃ db, x.view.named[s.origin]? = some db
          ∧ (wr = false → db = db') :=
        fun _ => ⟨db, hdb, fun hf => by rw [hwr] at hf; cases hf⟩
      split
      · exact ⟨h.setSlot hge (hread s.db)
          fun hd => ⟨hdirty hd, hfresh, hn⟩, rfl⟩
      next db' _ =>
        exact ⟨h.setSlot hge (hread db') fun _ => ⟨hwr, hfresh, hn⟩, rfl⟩

-- ---------------------------------------------------------------------- commit

/-- Writing the record of an existing database. -/
theorem Store.db_putRecord {st : Store} {name : Bytes} {db old : Db}
    (h : st.named[name]? = some old) (image : Bytes) :
    st.putRecord image name db = st.setDb (some name) db := by
  rw [Store.putRecord, h]

/-- The records written back are all of `n`, so no other database
changes. -/
theorem MdbEnv.writeBack_db {image : Bytes} {is : List Nat}
    {st st' : Store}
    (hdirty : ∀ i ∈ is, ∀ s ∈ x.slot i, s.dirty = true →
      n = some s.origin ∧ (e.names i = none ∨ e.names i = some s.origin))
    (hexists : ∀ i ∈ is, ∀ s ∈ x.slot i, s.dirty = true →
      ∃ db, st.db n = some db)
    (h : e.writeBack x image is st = some st') {m : Option Bytes}
    (hm : m ≠ n) : st'.db m = st.db m := by
  induction is generalizing st with
  | nil =>
      cases h
      rfl
  | cons i is ih =>
      rw [List.forall_mem_cons] at hdirty hexists
      rw [MdbEnv.writeBack] at h
      split at h
      · exact ih hdirty.2 hexists.2 h
      next s hs =>
        split at h
        next hd =>
          obtain ⟨hn, hname⟩ := hdirty.1 s hs hd
          obtain ⟨old, hold⟩ := hexists.1 s hs hd
          rw [Option.bind_eq_some_iff] at h
          obtain ⟨name, hnamed, h⟩ := h
          -- the slot still has a name, so it has its own
          have hown : name = s.origin := by
            rcases hname with hname | hname
            · rw [hname] at hnamed
              cases hnamed
            · rw [hname] at hnamed
              exact (Option.some.inj hnamed).symm
          rw [hn] at hold
          rw [hown, Store.db_putRecord hold] at h
          rw [ih hdirty.2 (fun _ _ _ _ _ => ⟨s.db, ?_⟩) h]
          · rw [Store.db_setDb_ne]
            rw [← hn]
            exact hm
          · rw [hn, Store.db_setDb_self]
        · exact ih hdirty.2 hexists.2 h

/-- The commit of a writer changes its database only. -/
theorem MdbEnv.commit_right (h : x.Good true n e.data)
    (ht : e.txns t = some x) (hfit : e.Fits n (.commit t)) (ok : Bool)
    (image : Bytes) {m : Option Bytes} (hm : m ≠ n) :
    (e.commit ok image t x).2.data.db m = e.data.db m := by
  unfold MdbEnv.commit
  split
  · rfl
  split
  · rfl
  split
  · rfl
  next st hst =>
    rw [← h.view rfl m hm]
    refine MdbEnv.writeBack_db (fun i hi s hs hd => ?_)
      (fun i _ s hs hd => ?_) hst hm
    · exact ⟨(h.dirty i s hs hd).2.2, hfit x ht i hi s hs hd⟩
    · obtain ⟨-, hfresh, hn⟩ := h.dirty i s hs hd
      obtain ⟨db, hdb, -⟩ := h.read i s hs hfresh
      exact ⟨db, by rw [hn]; exact hdb⟩

-- ========================================================== in company of others

/-- Thread `c` has an open transaction `t`, with the writer lock if it is
a writer, good for database `n` and with the property `H`. -/
structure MdbEnv.Holds (c t : Nat) (wr : Bool) (n : Option Bytes)
    (H : MdbTxn → Prop) (e : MdbEnv) : Prop where
  two : 2 ≤ e.numdbs
  old : t < e.next
  lock : wr = true → e.writer = some t
  txn : ∃ x, e.txns t = some x ∧ x.owner = c ∧ x.Good wr n e.data ∧ H x

/-- What the others' calls and those outside LMDB keep. -/
structure Framed (c : Nat) (I : MdbEnv → Prop) : Prop where
  others : ∀ e e', handleThreads.Others c e e' → I e → I e'
  other : ∀ e names valid, I e →
    I { e with names := names, valid := valid }

theorem framed_two (c : Nat) : Framed c fun e => 2 ≤ e.numdbs where
  others := by
    rintro e e' ⟨d, -, o, call, r, h⟩ htwo
    exact htwo.trans (MdbEnv.exec_counts h).2
  other := fun _ _ _ htwo => htwo

theorem framed_holds (c t : Nat) (wr : Bool) (n : Option Bytes)
    (H : MdbTxn → Prop) : Framed c (MdbEnv.Holds c t wr n H) where
  others := by
    rintro e e' ⟨d, hd, o, call, r, h⟩
      ⟨htwo, hold, hlock, x, hx, hown, hgood, hH⟩
    have hcounts := MdbEnv.exec_counts h
    have hspares := MdbEnv.exec_spares h hold hx fun hdc =>
      hd (hdc.symm.trans hown)
    refine ⟨htwo.trans hcounts.2, hold.trans_le hcounts.1,
      fun hwr => (hspares.lock (hlock hwr)).1, x, hspares.txn.trans hx,
      hown, ?_, hH⟩
    cases wr with
    | false => exact hgood.reader n e'.data
    | true =>
        rw [(hspares.lock (hlock rfl)).2]
        exact hgood
  other := fun _ _ _ h => ⟨h.two, h.old, h.lock, h.txn⟩

-- ----------------------------------------------------------- the calls of `c`

section Calls

variable {c : Nat} {o : Lot} {H : MdbTxn → Prop}

theorem MdbEnv.Holds.mono {K : MdbTxn → Prop} (hK : ∀ x, H x → K x)
    (h : e.Holds c t wr n H) : e.Holds c t wr n K := by
  obtain ⟨htwo, hold, hlock, x, hx, hown, hgood, hH⟩ := h
  exact ⟨htwo, hold, hlock, x, hx, hown, hgood, hK x hH⟩

/-- The session's transaction is used for whatever database is asked
for. -/
theorem MdbEnv.Holds.reader (h : e.Holds c t false n H)
    (n' : Option Bytes) : e.Holds c t false n' H := by
  obtain ⟨htwo, hold, hlock, x, hx, hown, hgood, hH⟩ := h
  exact ⟨htwo, hold, hlock, x, hx, hown, hgood.reader n' e.data, hH⟩

/-- An access leaves its transaction good if it leaves the record so. -/
theorem MdbEnv.Local.holds (hlocal : e.Local t e')
    (h : e.Holds c t wr n H) {x' : MdbTxn} {K : MdbTxn → Prop}
    (hx' : e'.txns t = some x') (hown : x'.owner = c)
    (hgood : x'.Good wr n e.data) (hK : K x') : e'.Holds c t wr n K := by
  refine ⟨hlocal.numdbs.ge.trans' h.two, ?_, fun hwr => ?_, x', hx', hown,
    ?_, hK⟩
  · rw [hlocal.next]
    exact h.old
  · rw [hlocal.writer]
    exact h.lock hwr
  · rw [hlocal.data]
    exact hgood

theorem MdbEnv.exec_begin_holds (htwo : 2 ≤ e.numdbs) {rdonly : Bool}
    {r : Option Nat} (h : e.exec c o (.txnBegin rdonly) = some (r, e'))
    (n : Option Bytes) :
    e'.data = e.data ∧ 2 ≤ e'.numdbs
      ∧ ∀ u, r = some u → e'.Holds c u (!rdonly) n fun _ => True := by
  rcases MdbEnv.exec_begin h with ⟨rfl, rfl⟩ | ⟨rfl, rfl, -⟩
  · exact ⟨rfl, htwo, nofun⟩
  refine ⟨rfl, htwo, fun u hu => ?_⟩
  cases hu
  refine ⟨htwo, Nat.lt_succ_self _, fun hwr => ?_, _,
    Function.update_self .., rfl, ?_, trivial⟩
  · cases rdonly with
    | true => cases hwr
    | false => rfl
  -- the records a transaction begins with are stale
  have hslot : ∀ {i s}, (if 2 ≤ i ∧ i < e.numdbs ∧ e.valid i = true then
      some (⟨true, false, false, ∅, []⟩ : SlotRecord) else none) = some s →
      2 ≤ i ∧ s = ⟨true, false, false, ∅, []⟩ := by
    intro i s hs
    split at hs
    next hi => exact ⟨hi.1, (Option.some.inj hs).symm⟩
    · cases hs
  refine ⟨(Bool.not_not _).symm, htwo, fun i s hs => (hslot hs).1,
    fun _ _ _ => rfl, fun i s hs hstale => ?_, fun i s hs hd => ?_⟩
  · rw [(hslot hs).2] at hstale
    cases hstale
  · rw [(hslot hs).2] at hd
    cases hd

theorem MdbEnv.exec_open_holds (h : e.Holds c t wr n H) {create : Bool}
    {r : OpenRet Nat} (hfit : e.Fits n (.access t (.dbiOpen n create)))
    (hexec : e.exec c o (.access t (.dbiOpen n create)) = some (r, e')) :
    e'.data = e.data
      ∧ e'.Holds c t wr n fun x =>
          ∀ dbi created, r = .opened dbi created → x.Handle n dbi := by
  obtain ⟨x, hx, hown, ⟨rfl, rfl⟩ | haccess⟩ := MdbEnv.exec_access hexec
  · exact ⟨rfl, h.mono fun _ _ => nofun⟩
  obtain ⟨-, -, -, x₀, hx₀, -, hgood, -⟩ := id h
  obtain rfl := Option.some.inj (hx₀.symm.trans hx)
  have hlocal := MdbEnv.access_local haccess
  have hopen : e.dbiOpen t x₀ n create = (r, e') :=
    Option.some.inj haccess
  obtain ⟨x', hx', hown', hgood', hhandle⟩ :=
    MdbEnv.dbiOpen_good hgood hx hfit hopen
  exact ⟨hlocal.data,
    hlocal.holds h hx' (hown'.trans hown) hgood' hhandle⟩

theorem MdbEnv.exec_get_holds (h : e.Holds c t false n (·.Handle n dbi))
    {key : Bytes} {r : Except MdbRc Bytes}
    (hfit : e.Fits n (.access t (.get dbi key)))
    (hexec : e.exec c o (.access t (.get dbi key)) = some (r, e')) :
    e.Right n (.access t (.get dbi key)) r e'
      ∧ e'.Holds c t false n fun _ => True := by
  obtain ⟨x, hx, hown, ⟨rfl, rfl⟩ | haccess⟩ := MdbEnv.exec_access hexec
  · exact ⟨⟨rfl, fun _ _ => trivial⟩, h.mono fun _ _ => trivial⟩
  obtain ⟨-, -, -, x₀, hx₀, -, hgood, hhandle⟩ := id h
  obtain rfl := Option.some.inj (hx₀.symm.trans hx)
  have hlocal := MdbEnv.access_local haccess
  obtain ⟨hgood', hown', hanswer⟩ :=
    MdbEnv.get_good hgood hhandle hx hfit key
  cases haccess
  refine ⟨⟨rfl, fun y hy => ?_⟩, hlocal.holds h (e.setTxn_self t _)
    (hown'.trans hown) hgood' trivial⟩
  obtain rfl := Option.some.inj (hx.symm.trans hy)
  exact hanswer rfl

/-- `mdb_put` and `mdb_del`. -/
theorem MdbEnv.exec_modify_holds {a : LmdbCall Nat} {r : a.Ret}
    {key : Bytes} {f : Db → Except MdbRc Db}
    (ha : ∀ e x r e', MdbEnv.access e t x a = some (r, e') →
      e' = e.setTxn t (e.modify x dbi key f).2)
    (h : e.Holds c t wr n (·.Handle n dbi)) (hfit : e.Reloads n t dbi)
    (hexec : e.exec c o (.access t a) = some (r, e')) :
    e'.data = e.data ∧ e'.Holds c t wr n fun _ => True := by
  obtain ⟨x, hx, hown, ⟨-, rfl⟩ | haccess⟩ := MdbEnv.exec_access hexec
  · exact ⟨rfl, h.mono fun _ _ => trivial⟩
  obtain ⟨-, -, -, x₀, hx₀, -, hgood, hhandle⟩ := id h
  obtain rfl := Option.some.inj (hx₀.symm.trans hx)
  obtain ⟨hgood', hown'⟩ :=
    MdbEnv.modify_good hgood hhandle hx hfit key f
  have hlocal := MdbEnv.access_local haccess
  refine ⟨hlocal.data, ?_⟩
  rw [ha e x₀ r e' haccess] at hlocal ⊢
  exact hlocal.holds h (e.setTxn_self t _) (hown'.trans hown) hgood'
    trivial

theorem MdbEnv.exec_commit_holds (h : e.Holds c t true n H) {r : Bool}
    (hfit : e.Fits n (.commit t))
    (hexec : e.exec c o (.commit t) = some (r, e')) :
    e.Right n (.commit t) r e' := by
  intro m hm
  rcases MdbEnv.exec_commit hexec with rfl | ⟨x, hx, -, hcommit⟩
  · rfl
  obtain ⟨-, -, -, x₀, hx₀, -, hgood, -⟩ := h
  obtain rfl := Option.some.inj (hx₀.symm.trans hx)
  have hdata := MdbEnv.commit_right hgood hx hfit o.ok o.image hm
  rw [hcommit] at hdata
  exact hdata

theorem MdbEnv.exec_abort_data {r : Unit}
    (hexec : e.exec c o (.abort t) = some (r, e')) : e'.data = e.data := by
  rcases MdbEnv.exec_abort hexec with rfl | ⟨x, -, -, rfl⟩
  · rfl
  · rfl

end Calls

end FineDB

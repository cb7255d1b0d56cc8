/-
Which entries of the main database a request can touch.

A PUT or DEL changes one entry, and a GET reads one: the cell of its
database and key. What it does to other cells is nothing, and what it
answers depends on no other (`LmdbCall.Writes.respects`,
`LmdbCall.Writes.keeping`, `LmdbCall.Reads.respects`). That a handler
makes no other calls is `Task.writes` and `Request.exec_reads`.

The bytes of a record are page numbers. A GET that reads one as the
value of a key is the only call whose answer depends on them.
-/
import FineDB.Model.Catalog
import FineDB.Proofs.Queue

namespace FineDB

open Effect Mvcc

-- ========================================================= calls and cells

/-- A handle is the name it was opened under. -/
def Named : Event (serverSig (Option Bytes)) → Prop
  | ⟨.access _ (.dbiOpen name _), r⟩ =>
      ∀ dbi created, r = .opened dbi created → dbi = name
  | _ => True

/-- An LMDB call that opens and writes cells in `X` only. -/
def LmdbCall.Writes (X : Bytes → Prop) : LmdbCall (Option Bytes) → Prop
  | .dbiOpen none _ => True
  | .dbiOpen (some name) _ => X name
  | .put dbi key _ _ => X (cell dbi key)
  | .del dbi key => X (cell dbi key)
  | _ => False

/-- An LMDB call that opens a database to read a key of it. -/
def LmdbCall.Reads (db : Option Bytes) (key : Bytes) :
    LmdbCall (Option Bytes) → Prop
  | .dbiOpen name create => name = db ∧ create = false
  | .get dbi key' => dbi = db ∧ key' = key
  | _ => False

/-- The same entries outside the cells `X`. -/
def SameOff (X : Bytes → Prop) (d d' : Catalog) : Prop :=
  ∀ k, ¬ X k → d[k]? = d'[k]?

variable {X : Bytes → Prop} {d d' d'' : Catalog} {zip : Bytes → Bytes}
  {image image' : Nat → Bytes}

theorem SameOff.refl (X : Bytes → Prop) (d : Catalog) : SameOff X d d :=
  fun _ _ => rfl

theorem SameOff.symm (h : SameOff X d d') : SameOff X d' d :=
  fun k hk => (h k hk).symm

theorem SameOff.trans (h : SameOff X d d') (h' : SameOff X d' d'') :
    SameOff X d d'' :=
  fun k hk => (h k hk).trans (h' k hk)

/-- Work on a cell that is the same on both sides. -/
theorem SameOff.at {α : Type} {κ : Bytes} (h : SameOff X d d') (hκ : ¬ X κ)
    (f : Option Entry → α × Option Entry) :
    (d'.at κ f).1 = (d.at κ f).1 ∧ SameOff X (d.at κ f).2 (d'.at κ f).2 := by
  refine ⟨by rw [Catalog.at_fst, Catalog.at_fst, h κ hκ], fun k hk => ?_⟩
  rw [Catalog.getElem?_at, Catalog.getElem?_at, h κ hκ, h k hk]

/-- Work on a cell in `X`, on one side. -/
theorem SameOff.at_left {α : Type} {κ : Bytes} (h : SameOff X d d') (hκ : X κ)
    (f : Option Entry → α × Option Entry) : SameOff X (d.at κ f).2 d' := by
  intro k hk
  have hne : k ≠ κ := fun heq => hk (heq ▸ hκ)
  rw [Catalog.getElem?_at, if_neg hne]
  exact h k hk

/-- Writing outside `X`. -/
theorem LmdbCall.Writes.respects {c : LmdbCall (Option Bytes)}
    (hc : c.Writes fun k => ¬ X k) :
    Respects (catalogSem zip image) (catalogSem zip image') (SameOff X) c := by
  intro o rdonly d d' h
  cases hok : o.ok with
  | false =>
      simp only [catalogSem, hok]
      exact ⟨rfl, h⟩
  | true =>
      simp only [catalogSem, hok, if_true]
      cases c with
      | dbiOpen name create =>
          cases name with
          | none => exact ⟨rfl, h⟩
          | some name => exact h.at hc _
      | put dbi key data nooverwrite => exact h.at hc _
      | del dbi key => exact h.at hc _
      | get dbi key => cases hc
      | drop dbi => cases hc
      | cursorOpen dbi => cases hc
      | cursorNext dbi pos => cases hc
      | cursorClose dbi => cases hc

/-- Writing inside `X`. -/
theorem LmdbCall.Writes.keeping {c : LmdbCall (Option Bytes)}
    (hc : c.Writes X) :
    Keeping (catalogSem zip image) (fun d => SameOff X d d') c := by
  intro o rdonly d h
  cases hok : o.ok with
  | false =>
      simp only [catalogSem, hok]
      exact h
  | true =>
      simp only [catalogSem, hok, if_true]
      cases c with
      | dbiOpen name create =>
          cases name with
          | none => exact h
          | some name => exact h.at_left hc _
      | put dbi key data nooverwrite => exact h.at_left hc _
      | del dbi key => exact h.at_left hc _
      | get dbi key => cases hc
      | drop dbi => cases hc
      | cursorOpen dbi => cases hc
      | cursorNext dbi pos => cases hc
      | cursorClose dbi => cases hc

/-- Opening without `MDB_CREATE` changes nothing. -/
theorem Entry.dbiOpen_existing (rdonly : Bool) (name : Bytes)
    (e : Option Entry) : (Entry.dbiOpen rdonly name false e).2 = e := by
  unfold Entry.dbiOpen
  split
  · rfl
  · rfl
  · rfl

/-- A read changes nothing. -/
theorem LmdbCall.Reads.access_eq {c : LmdbCall (Option Bytes)}
    {db : Option Bytes} {key : Bytes} (hc : c.Reads db key) (o : Outcome)
    (rdonly : Bool) (d : Catalog) :
    ((catalogSem zip image).access o rdonly c d).2 = d := by
  cases hok : o.ok with
  | false => simp only [catalogSem, hok]; rfl
  | true =>
      simp only [catalogSem, hok, if_true]
      cases c with
      | dbiOpen name create =>
          obtain ⟨-, rfl⟩ := hc
          cases name with
          | none => rfl
          | some name => exact d.at_eq _ _ (Entry.dbiOpen_existing ..)
      | get dbi key => rfl
      | put dbi key data nooverwrite => cases hc
      | del dbi key => cases hc
      | drop dbi => cases hc
      | cursorOpen dbi => cases hc
      | cursorNext dbi pos => cases hc
      | cursorClose dbi => cases hc

/-- The entry is the record of a database. -/
def Entry.isRecord : Option Entry → Bool
  | some (.record _) => true
  | _ => false

/-- The cell a GET reads is the same, and no record read as a value. -/
def SameCell (db : Option Bytes) (key : Bytes) (d d' : Catalog) : Prop :=
  d[cell db key]? = d'[cell db key]?
    ∧ (db = none → Entry.isRecord d[key]? = false)

/-- The answer to a GET that reads no record does not depend on the bytes
of records. -/
theorem Entry.get_image {db : Option Bytes} {key : Bytes}
    {e : Option Entry} (h : db = none → Entry.isRecord e = false)
    (i i' : Bytes) : Entry.get i' db key e = Entry.get i db key e := by
  cases e with
  | none => cases db <;> rfl
  | some e =>
      cases e with
      | value data => cases db <;> rfl
      | overwritten data => cases db <;> rfl
      | record r =>
          cases db with
          | none => cases h rfl
          | some name => rfl

theorem LmdbCall.Reads.respects {c : LmdbCall (Option Bytes)}
    {db : Option Bytes} {key : Bytes} (hc : c.Reads db key) :
    Respects (catalogSem zip image) (catalogSem zip image')
      (SameCell db key) c := by
  intro o rdonly d d' h
  rw [hc.access_eq, hc.access_eq]
  refine ⟨?_, h⟩
  obtain ⟨hsame, hrec⟩ := h
  cases hok : o.ok with
  | false => simp only [catalogSem, hok]; rfl
  | true =>
      simp only [catalogSem, hok, if_true]
      cases c with
      | dbiOpen name create =>
          obtain ⟨rfl, rfl⟩ := hc
          cases name with
          | none => rfl
          | some name =>
              show (Entry.dbiOpen _ _ _ d'[name]?).1
                = (Entry.dbiOpen _ _ _ d[name]?).1
              exact congrArg (fun e => (Entry.dbiOpen rdonly name false e).1)
                hsame.symm
      | get dbi key' =>
          obtain ⟨rfl, rfl⟩ := hc
          show Entry.get _ dbi key' d'[cell dbi key']?
            = Entry.get _ dbi key' d[cell dbi key']?
          rw [← hsame]
          refine Entry.get_image (fun hnone => ?_) _ _
          subst hnone
          exact hrec rfl
      | put dbi key data nooverwrite => cases hc
      | del dbi key => cases hc
      | drop dbi => cases hc
      | cursorOpen dbi => cases hc
      | cursorNext dbi pos => cases hc
      | cursorClose dbi => cases hc

theorem Entry.dbiOpen_named {rdonly create : Bool} {name : Bytes}
    {e : Option Entry} {dbi : Option Bytes} {created : Bool}
    (h : (Entry.dbiOpen rdonly name create e).1 = .opened dbi created) :
    dbi = some name := by
  unfold Entry.dbiOpen at h
  split at h
  · cases h
  · cases h
    rfl
  · split at h
    · cases h
    · split at h
      · cases h
      · split at h
        · cases h
          rfl
        · cases h

/-- Every answer of the catalog is of this kind. -/
theorem catalog_named (o : Outcome) (m : State Catalog)
    (c : (serverSig (Option Bytes)).Call)
    (r : (serverSig (Option Bytes)).Ret c) (m' : State Catalog)
    (hs : Mvcc.step (catalogSem zip image) o m c = some (r, m')) :
    Named ⟨c, r⟩ := by
  cases c with
  | access t a =>
      cases a with
      | dbiOpen name create =>
          obtain ⟨x, -, rfl, -⟩ := step_access hs
          intro dbi created hopen
          cases hok : o.ok with
          | false =>
              simp only [catalogSem, hok] at hopen
              cases hopen
          | true =>
              simp only [catalogSem, hok, if_true] at hopen
              cases name with
              | none =>
                  cases hopen
                  rfl
              | some name => exact Entry.dbiOpen_named hopen
      | put dbi key data nooverwrite => trivial
      | del dbi key => trivial
      | get dbi key => trivial
      | drop dbi => trivial
      | cursorOpen dbi => trivial
      | cursorNext dbi pos => trivial
      | cursorClose dbi => trivial
  | txnBegin rdonly => trivial
  | commit t => trivial
  | abort t => trivial
  | other l => trivial

-- ==================================================== the cells of a program

/-- The accesses of a program, on the branches where handles are names. -/
abbrev Touches (P : LmdbCall (Option Bytes) → Prop) {α : Type}
    (p : Store.Server α) : Prop :=
  p.CallsBy Named (TxnCall.Accesses P)

variable {P : LmdbCall (Option Bytes) → Prop} {α : Type}

theorem Touches.mono {Q : LmdbCall (Option Bytes) → Prop}
    {p : Store.Server α} (hPQ : ∀ c, P c → Q c) (h : Touches P p) :
    Touches Q p :=
  Prog.CallsBy.mono (fun _ hc => hc.mono hPQ) h

/-- Two catalogs that look alike through every access of the program. -/
theorem catalog_alike {p : Store.Server α} {R : Catalog → Catalog → Prop}
    {outs : Nat → Outcome} {m m' m₁ : State Catalog} {a : α}
    {tr : List (Event (serverSig (Option Bytes)))}
    (hp : Touches
      (Respects (catalogSem zip image) (catalogSem zip image') R) p)
    (h : State.Alike R m m')
    (hrun : complete (catalogSem zip image) outs m p = some (tr, a, m₁)) :
    ∃ m₁', complete (catalogSem zip image') outs m' p = some (tr, a, m₁')
      ∧ State.Alike R m₁ m₁' := by
  have hok : ∀ o, (catalogSem zip image').ok o
      = (catalogSem zip image).ok o := fun _ => rfl
  have hother : ∀ o l, (catalogSem zip image').other o l
      = (catalogSem zip image).other o l := fun _ _ => rfl
  exact complete_alike hok hother catalog_named hp h hrun

/-- A program that uses no transaction. -/
theorem touches_of_allows {p : Store.Server α}
    (h : p.Calls (Allows true true true none)) : Touches P p := by
  refine (h.mono fun c hc => ?_).callsBy
  cases c with
  | access t a =>
      rcases hc with hc | hc
      · cases hc
      · cases hc
  | txnBegin rdonly => trivial
  | commit t => trivial
  | abort t => trivial
  | other l => trivial

private theorem writeEndOfProcess_touches (transaction : Option Nat)
    (txn : Nat) (retval : Yerr) :
    Touches P (writeEndOfProcess transaction txn retval) := by
  cases transaction with
  | some u =>
      rw [writeEndOfProcess_some]
      trivial
  | none =>
      by_cases h : retval = .YENOERR
      · rw [h, writeEndOfProcess_ok]
        refine ⟨trivial, fun ok _ => ?_⟩
        cases ok with
        | false => exact ⟨trivial, fun _ _ => trivial⟩
        | true => trivial
      · rw [writeEndOfProcess_error txn h]
        exact ⟨trivial, fun _ _ => trivial⟩

/-- `txn` in hand, or begun by the operation. -/
private theorem transactionInit_touches {β : Type} (transaction : Option Nat)
    (readonly : Bool) {k : Option Nat → Store.Server β}
    (hk : ∀ t, Touches P (k t)) :
    Touches P (transactionInit transaction readonly >>= k) := by
  cases transaction with
  | some t => exact hk (some t)
  | none => exact ⟨trivial, fun t _ => hk t⟩

/-- Opening a database to write in one of its cells. -/
private theorem open_writes {name : Option Bytes} {key : Bytes}
    (h : X (cell name key)) (create : Bool) :
    (LmdbCall.dbiOpen name create).Writes X := by
  cases name with
  | none => trivial
  | some name => exact h

theorem databasePut_writes (transaction : Option Nat) (createOnly : Bool)
    {name : Option Bytes} {key : Bytes} (data : Bytes)
    (h : X (cell (name.map cString) key)) :
    Touches (LmdbCall.Writes X)
      (databasePut transaction createOnly name key data) := by
  refine transactionInit_touches transaction false fun t => ?_
  cases t with
  | none => trivial
  | some t =>
      refine ⟨open_writes h true, fun ret hret => ?_⟩
      cases ret with
      | refused rc => exact writeEndOfProcess_touches transaction t .YEACCESS
      | opened dbi created =>
          obtain rfl := hret dbi created rfl
          exact ⟨h, fun rc _ => ⟨trivial, fun _ _ =>
            writeEndOfProcess_touches ..⟩⟩

theorem databaseDel_writes (transaction : Option Nat)
    {name : Option Bytes} {key : Bytes}
    (h : X (cell (name.map cString) key)) :
    Touches (LmdbCall.Writes X) (databaseDel transaction name key) := by
  refine transactionInit_touches transaction false fun t => ?_
  cases t with
  | none => trivial
  | some t =>
      refine ⟨open_writes h false, fun ret hret => ?_⟩
      cases ret with
      | refused rc => exact writeEndOfProcess_touches transaction t .YEACCESS
      | opened dbi created =>
          obtain rfl := hret dbi created rfl
          exact ⟨h, fun rc _ => ⟨trivial, fun _ _ =>
            writeEndOfProcess_touches ..⟩⟩

theorem databaseGet_reads (transaction : Option Nat) (name : Option Bytes)
    (key : Bytes) :
    Touches (LmdbCall.Reads (name.map cString) key)
      (databaseGet transaction name key) := by
  refine transactionInit_touches transaction true fun t => ?_
  cases t with
  | none => trivial
  | some t =>
      refine ⟨⟨rfl, rfl⟩, fun ret hret => ?_⟩
      cases ret with
      | refused rc => exact ⟨trivial, fun _ _ => ⟨trivial, fun _ _ => trivial⟩⟩
      | opened dbi created =>
          refine ⟨⟨hret dbi created rfl, rfl⟩, fun rc _ => ?_⟩
          cases transaction with
          | some u => exact ⟨trivial, fun _ _ => trivial⟩
          | none => exact ⟨trivial, fun _ _ => ⟨trivial, fun _ _ => trivial⟩⟩

private theorem withAlloc_touches {size : Nat} {p : Store.Server Yerr}
    (hp : Touches P p) : Touches P (withAlloc size p) := by
  refine ⟨trivial, fun ok _ => ?_⟩
  cases ok with
  | false => exact touches_of_allows commandError_allows
  | true => exact hp

private theorem send_touches (code : ResponseCode)
    (serialized compressed : Bool) (data : Option Bytes) :
    Touches P (connectionSendResponse code serialized compressed data) :=
  Prog.Calls.callsBy (connectionSendResponse_calls (fun _ => trivial) ..)

section Handlers

variable {f : Flags} {thread : TcpThread}

theorem commandGetExec_reads (name : Bytes) :
    Touches (LmdbCall.Reads (thread.dbname.map cString) name)
      (commandGetExec f thread name) :=
  Prog.callsBy_bind (databaseGet_reads ..) fun ret =>
    touches_of_allows (commandGetAnswer_allows f ret)

theorem commandDelExec_writes {key : Bytes} (hsync : f.sync = true)
    (h : X (cell (thread.dbname.map cString) key)) :
    Touches (LmdbCall.Writes X) (commandDelExec f thread key) := by
  refine Prog.callsBy_bind (touches_of_allows (immediateResponse_allows _))
    fun _ => ⟨trivial, fun ok _ => ?_⟩
  cases ok with
  | false => exact touches_of_allows commandError_allows
  | true =>
      simp only [Prog.bind, if_true, commandDelWrite, hsync]
      exact Prog.callsBy_bind (databaseDel_writes _ h) fun _ =>
        send_touches ..

theorem commandPutExec_writes {name : Bytes} (data : Bytes)
    (hsync : f.sync = true)
    (h : X (cell (thread.dbname.map cString) name)) :
    Touches (LmdbCall.Writes X)
      (commandPutExec false false f thread name data) := by
  refine Prog.callsBy_bind (touches_of_allows (immediateResponse_allows _))
    fun _ => ⟨trivial, fun ok _ => ?_⟩
  cases ok with
  | false => exact touches_of_allows commandError_allows
  | true =>
      simp only [Prog.bind, if_true]
      refine Prog.callsBy_bind (touches_of_allows
        (commandPutData_allows ..)) fun data => ?_
      cases data with
      | none => exact touches_of_allows commandError_allows
      | some data =>
          simp only [commandPutWrite, hsync, Bool.true_or, if_true]
          rw [commandPutSync_put]
          exact Prog.callsBy_bind (databasePut_writes _ _ _ h) fun _ =>
            send_touches ..

theorem commandStart_touches : Touches P (commandStart thread) := by
  obtain ⟨fd, dbname, transaction⟩ := thread
  have hbegin : ∀ t : Option Nat, Touches P (if t = none then do
        return (← transactionError, ⟨fd, dbname, t⟩)
      else do
        let _ ← connectionSendOk
        return (Yerr.YENOERR, (⟨fd, dbname, t⟩ : TcpThread)) :
      Store.Server (Yerr × TcpThread)) := by
    intro t
    cases t with
    | none => exact ⟨trivial, fun _ _ => trivial⟩
    | some t => exact ⟨trivial, fun _ _ => trivial⟩
  cases transaction with
  | none => exact ⟨trivial, fun t _ => hbegin t⟩
  | some u => exact ⟨trivial, fun _ _ => ⟨trivial, fun t _ => hbegin t⟩⟩

theorem commandStop_touches : Touches P (commandStop thread) := by
  obtain ⟨fd, dbname, transaction⟩ := thread
  cases transaction with
  | none => exact ⟨trivial, fun _ _ => trivial⟩
  | some t => exact ⟨trivial, fun _ _ => ⟨trivial, fun _ _ => trivial⟩⟩

theorem connectionThreadDisconnect_touches :
    Touches P (connectionThreadDisconnect thread) := by
  obtain ⟨fd, dbname, transaction⟩ := thread
  unfold connectionThreadDisconnect
  split
  · trivial
  · cases transaction with
    | none => exact ⟨trivial, fun _ _ => trivial⟩
    | some t => exact ⟨trivial, fun _ _ => ⟨trivial, fun _ _ => trivial⟩⟩

end Handlers

/-- The cell a request writes by itself. -/
def Request.cell (b : Byte) (thread : TcpThread) : Request → Option Bytes
  | .put key _ =>
      if (requestFlags b thread).sync then
        some (FineDB.cell (thread.dbname.map cString) key.bytes)
      else none
  | .del key =>
      if (requestFlags b thread).sync then
        some (FineDB.cell (thread.dbname.map cString) key.bytes)
      else none
  | _ => none

/-- The cell the writer writes for a message. -/
def WriterMsg.cell (msg : WriterMsg) : Bytes :=
  FineDB.cell (msg.dbname.map cString) msg.name

def Task.cell (task : Task) : Option Bytes :=
  match task.job with
  | .arrival (.request b r) => r.cell b task.thread
  | .arrival _ => none
  | .disconnect => none
  | .message _ msg => some msg.cell

def Request.key : Request → Option Bytes
  | .get key => some key.bytes
  | .put key _ => some key.bytes
  | .del key => some key.bytes
  | _ => none

/-- A write that is only posted makes no access. -/
private theorem async_touches {b : Byte} {thread : TcpThread} {r : Request}
    (h : r.async b thread = true) : Touches P (r.exec b thread) := by
  have hnone : r.txn b thread = none := by
    cases r with
    | put key data => simpa [Request.async, Request.txn, writeTxn] using h
    | del key => simpa [Request.async, Request.txn, writeTxn] using h
    | get key => cases h
    | ping => cases h
    | setdb name => cases h
    | start => cases h
    | stop => cases h
  have hcalls : (r.exec b thread : Store.Server _).Calls
      (Allows true true (r.async b thread) (r.txn b thread)) :=
    Request.exec_allows (by rintro rfl; cases h) (by rintro rfl; cases h)
      fun _ _ => rfl
  rw [h, hnone] at hcalls
  exact touches_of_allows hcalls

theorem Request.exec_writes {b : Byte} {thread : TcpThread} {r : Request}
    (hget : ∀ key, r ≠ .get key)
    (h : ∀ κ, r.cell b thread = some κ → X κ) :
    Touches (LmdbCall.Writes X) (r.exec b thread) := by
  cases r with
  | get key => exact absurd rfl (hget key)
  | ping => exact Prog.callsBy_bind (send_touches ..) fun _ => trivial
  | setdb name => exact touches_of_allows (commandSetdbExec_allows _)
  | start => exact commandStart_touches
  | stop => exact commandStop_touches
  | put key data =>
      cases hsync : (requestFlags b thread).sync with
      | false => exact async_touches (by simp [Request.async, hsync])
      | true =>
          have hput := commandPutExec_writes data.bytes hsync
            (h _ (by rw [Request.cell, if_pos hsync]))
          refine Prog.callsBy_bind (withAlloc_touches ?_) fun _ => trivial
          split
          · exact hput
          · exact withAlloc_touches hput
  | del key =>
      cases hsync : (requestFlags b thread).sync with
      | false => exact async_touches (by simp [Request.async, hsync])
      | true =>
          exact Prog.callsBy_bind (withAlloc_touches
            (commandDelExec_writes hsync
              (h _ (by rw [Request.cell, if_pos hsync])))) fun _ => trivial

theorem Request.exec_reads (b : Byte) (thread : TcpThread)
    (key : Field 2) :
    Touches (LmdbCall.Reads (thread.dbname.map cString) key.bytes)
      ((Request.get key).exec b thread) :=
  Prog.callsBy_bind (withAlloc_touches (commandGetExec_reads _)) fun _ =>
    trivial

/-- Everything but a GET touches its cell only. -/
theorem Task.writes {task : Task}
    (hget : ∀ b key, task.job ≠ .arrival (.request b (.get key)))
    (h : ∀ κ, task.cell = some κ → X κ) :
    Touches (LmdbCall.Writes X) task.prog := by
  obtain ⟨job, thread⟩ := task
  cases job with
  | disconnect =>
      exact Prog.callsBy_bind connectionThreadDisconnect_touches fun _ =>
        trivial
  | message src msg =>
      have hcell : X (FineDB.cell (msg.dbname.map cString) msg.name) :=
        h _ rfl
      refine Prog.callsBy_bind ?_ fun _ => trivial
      unfold writerApply
      split
      · exact Prog.callsBy_bind (databasePut_writes _ _ _ hcell) fun _ =>
          trivial
      · exact Prog.callsBy_bind (databaseDel_writes _ hcell) fun _ => trivial
      · trivial
  | arrival arr =>
      cases arr with
      | cut b part =>
          exact Prog.callsBy_bind (touches_of_allows (cutExec_allows b part))
            fun _ => trivial
      | unknown b =>
          exact Prog.callsBy_bind (send_touches ..) fun _ => trivial
      | request b r =>
          exact Request.exec_writes (fun key heq => hget b key (by rw [heq]))
            h

-- ======================================================= nothing stands still

theorem CatSession.task_thread (x : CatSession) (arr : Option Arrival) :
    (x.task arr).thread = x.thread := by
  cases arr with
  | none => rfl
  | some arr => rfl

theorem CatSession.snapshot_of_atomic {x : CatSession}
    {arr : Option Arrival} (h : (x.task arr).atomic = true) :
    x.snapshot = none := by
  cases hsnap : x.snapshot with
  | none => rfl
  | some v =>
      have hthread : x.thread.transaction = some 0 := by
        simp [CatSession.thread, hsnap]
      cases arr with
      | none => cases h
      | some arr =>
          cases arr with
          | request b r => simp [CatSession.task, Task.atomic, hthread] at h
          | cut b part => cases h
          | unknown b => cases h

namespace CatSys

theorem served_isSome (zip : Bytes → Bytes) (image : Nat → Bytes)
    (s : CatSys) (c : Nat) (arr : Option Arrival) (outs : Nat → Outcome) :
    ∃ tr a m, s.served zip image c arr outs = some (tr, a, m) := by
  unfold served
  have hdisc := Task.disciplined ((s.session c).task arr)
  rw [CatSession.task_thread] at hdisc
  split at hdisc
  next hatomic =>
    have hstate : (s.session c).state s.store = .blank s.store 1 := by
      simp only [CatSession.state,
        CatSession.snapshot_of_atomic hatomic]
    rw [hstate]
    exact hdisc.1.complete (by rfl) outs
  next =>
    refine hdisc.1.complete hdisc.2 ?_ ?_ outs
    · cases (s.session c).thread.transaction <;> simp
    · intro t ht
      rw [Option.mem_toList, CatSession.thread] at ht
      cases hsnap : (s.session c).snapshot with
      | none => simp [hsnap] at ht
      | some v =>
          simp only [hsnap, Option.map_some] at ht
          cases ht
          simp [CatSession.state, hsnap, State.single]

theorem written_isSome (zip : Bytes → Bytes) (image : Nat → Bytes)
    (s : CatSys) (msg : WriterMsg) (outs : Nat → Outcome) :
    ∃ tr a m, s.written zip image msg outs = some (tr, a, m) := by
  have hdisc := Task.disciplined ⟨.message 0 msg, connectionThreadNew⟩
  exact hdisc.1.complete (by rfl) outs

variable {s s' s'' : CatSys} {c : Nat} {arr : Option Arrival}
  {outs : Nat → Outcome} {msg : WriterMsg}
  {tr : List (Event (serverSig (Option Bytes)))} {y : Yerr}
  {thread : TcpThread} {m : State Catalog}

theorem step_serve
    (h : s.served zip image c arr outs = some (tr, (y, thread), m)) :
    s.step zip image (.serve c arr outs) =
      { store := m.store
        session := Function.update s.session c (.after thread m)
        pending := s.pending ++ tr.filterMap posted } := by
  simp only [step, h]

theorem step_message {a : Yerr × TcpThread} (hmem : msg ∈ s.pending)
    (h : s.written zip image msg outs = some (tr, a, m)) :
    s.step zip image (.message msg outs) =
      { s with store := m.store, pending := s.pending.erase msg } := by
  simp only [step, if_pos hmem, h]

theorem step_absent (hmem : msg ∉ s.pending) :
    s.step zip image (.message msg outs) = s := by
  simp only [step, if_neg hmem]

end CatSys

end FineDB

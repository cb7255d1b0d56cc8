/-
Reader slots are not leaked.

Every task begins a transaction only with none in hand and returns with
exactly the one its session keeps (`Task.holding`, the discipline of
Lib/Ledger.lean), with one exception: a GET outside a transaction whose
database cannot be opened jumps past the rollback of the transaction it
has begun. In a run without that, the open transactions are those the
threads have in hand, one each at most, so the reader slots that
`database_open` configures suffice.

LMDB takes a slot for a read transaction when it begins and, with
`MDB_NOTLS`, gives it back when it ends.
-/
import FineDB.Lib.Ledger
import FineDB.Proofs.Linearizable
import FineDB.Proofs.Parse
import Mathlib.Order.Interval.Finset.Nat

namespace FineDB

open Effect Mvcc

-- ============================================================ the programs

/-- An event other than a refused `mdb_dbi_open`. -/
def opened {Dbi : Type} : Event (serverSig Dbi) → Bool
  | ⟨.access _ (.dbiOpen _ _), .refused _⟩ => false
  | _ => true

section Programs

variable {Dbi : Type} {may : Bool → Prop}
  {good : Event (serverSig Dbi) → Prop} {dead : List Nat}

/-- Nothing in hand before and after. -/
private abbrev noTxn {α : Type} : α → Option Nat := fun _ => none

private theorem holding_of_allows {α : Type} {p : Server Dbi α}
    (h : p.Calls (Allows true true true none)) :
    Holding may good noTxn none dead p :=
  holding_of_through (through_of_allows h)
    ((Prog.ensures_true p).mono fun _ _ => rfl)

private theorem databaseGet_holding (hmay : may true)
    (hgood : ∀ e, good e → opened e = true) (name : Option Bytes)
    (key : Bytes) :
    Holding may good noTxn none dead
      (databaseGet none name key : Server Dbi _) := by
  refine ⟨⟨rfl, hmay⟩, fun t _ => ?_⟩
  cases t with
  | none => rfl
  | some t =>
      refine ⟨rfl, fun ret hret => ?_⟩
      cases ret with
      | refused rc => cases hgood _ hret
      | opened dbi created =>
          exact ⟨rfl, fun _ _ => ⟨Or.inl rfl, fun _ _ => rfl⟩⟩

private theorem writeEndOfProcess_holding (t : Nat) (retval : Yerr) :
    Holding may good noTxn (some t) dead
      (writeEndOfProcess none t retval : Server Dbi _) := by
  by_cases h : retval = .YENOERR
  · rw [h, writeEndOfProcess_ok]
    refine ⟨rfl, fun ok _ => ?_⟩
    cases ok with
    | false => exact ⟨Or.inr ⟨rfl, List.mem_cons_self⟩, rfl⟩
    | true => rfl
  · rw [writeEndOfProcess_error t h]
    exact ⟨Or.inl rfl, rfl⟩

private theorem databasePut_holding (hmay : may false)
    (createOnly : Bool) (name : Option Bytes) (key data : Bytes) :
    Holding may good noTxn none dead
      (databasePut none createOnly name key data : Server Dbi _) := by
  refine ⟨⟨rfl, hmay⟩, fun t _ => ?_⟩
  cases t with
  | none => rfl
  | some t =>
      refine ⟨rfl, fun ret _ => ?_⟩
      cases ret with
      | refused rc => exact writeEndOfProcess_holding t .YEACCESS
      | opened dbi created =>
          exact ⟨rfl, fun rc _ _ _ =>
            writeEndOfProcess_holding t (writeRetval rc)⟩

private theorem databaseDel_holding (hmay : may false)
    (name : Option Bytes) (key : Bytes) :
    Holding may good noTxn none dead
      (databaseDel none name key : Server Dbi _) := by
  refine ⟨⟨rfl, hmay⟩, fun t _ => ?_⟩
  cases t with
  | none => rfl
  | some t =>
      refine ⟨rfl, fun ret _ => ?_⟩
      cases ret with
      | refused rc => exact writeEndOfProcess_holding t .YEACCESS
      | opened dbi created =>
          exact ⟨rfl, fun rc _ _ _ =>
            writeEndOfProcess_holding t (writeRetval rc)⟩

private theorem withAlloc_holding {size : Nat} {p : Server Dbi Yerr}
    (hp : Holding may good noTxn none dead p) :
    Holding may good noTxn none dead (withAlloc size p) := by
  intro ok _
  cases ok with
  | false => exact holding_of_allows commandError_allows
  | true => exact hp

variable {f : Flags} {thread : TcpThread}

private theorem commandGetExec_holding (hmay : may true)
    (hgood : ∀ e, good e → opened e = true)
    (ht : thread.transaction = none) (name : Bytes) :
    Holding may good noTxn none dead
      (commandGetExec f thread name : Server Dbi _) := by
  unfold commandGetExec
  rw [ht]
  exact (databaseGet_holding hmay hgood ..).bind fun ret _ =>
    holding_of_allows (commandGetAnswer_allows f ret)

private theorem commandDelExec_holding (hmay : may false)
    (ht : thread.transaction = none) (hsync : f.sync = true)
    (key : Bytes) :
    Holding may good noTxn none dead
      (commandDelExec f thread key : Server Dbi _) := by
  refine (holding_of_allows (immediateResponse_allows _)).bind
    fun _ _ ok _ => ?_
  cases ok with
  | false => exact holding_of_allows commandError_allows
  | true =>
      simp only [Prog.bind, if_true, commandDelWrite, hsync, ht]
      exact (databaseDel_holding hmay ..).bind fun _ _ =>
        holding_of_through (send_through ..)
          ((Prog.ensures_true _).mono fun _ _ => rfl)

private theorem commandPutExec_holding (hmay : may false)
    (ht : thread.transaction = none) (hsync : f.sync = true)
    (name data : Bytes) :
    Holding may good noTxn none dead
      (commandPutExec false false f thread name data : Server Dbi _) := by
  refine (holding_of_allows (immediateResponse_allows _)).bind
    fun _ _ ok _ => ?_
  cases ok with
  | false => exact holding_of_allows commandError_allows
  | true =>
      simp only [Prog.bind, if_true]
      refine (holding_of_allows (commandPutData_allows ..)).bind
        fun data _ => ?_
      cases data with
      | none => exact holding_of_allows commandError_allows
      | some data =>
          simp only [commandPutWrite, hsync, Bool.true_or, if_true]
          rw [commandPutSync_put, ht]
          exact (databasePut_holding hmay ..).bind fun _ _ =>
            holding_of_through (send_through ..)
              ((Prog.ensures_true _).mono fun _ _ => rfl)

end Programs

-- ================================================================ the tasks

/-- A GET outside a transaction. -/
def Task.readsAlone (task : Task) : Bool :=
  match task.job with
  | .arrival (.request _ (.get _)) => task.thread.transaction.isNone
  | _ => false

/-- The events that leave nothing unaccounted for: all, unless the task
is a GET on its own. -/
def Task.accounted (task : Task) (e : Event (serverSig (Option Bytes))) :
    Prop :=
  task.readsAlone = true → opened e = true

/-- The transaction a task's result hands over. -/
private abbrev handedOver (a : Yerr × TcpThread) : Option Nat :=
  a.2.transaction

section Tasks

variable {may : Bool → Prop}
  {good : Event (serverSig (Option Bytes)) → Prop}

private theorem unchanged_holding {p : Store.Server Yerr}
    {thread : TcpThread} (ht : thread.transaction = none)
    (hp : Holding may good noTxn none [] p) :
    Holding may good handedOver thread.transaction []
      (do return (← p, thread) : Store.Server (Yerr × TcpThread)) := by
  rw [ht]
  exact hp.bind fun _ _ => ht

/-- A request that uses LMDB by itself. -/
private theorem Request.exec_holding_alone {b : Byte} {thread : TcpThread}
    {r : Request} (hmay : ∀ rdonly, may rdonly)
    (ht : thread.transaction = none) (hr : r.standalone b = true)
    (hgood : ∀ key, r = .get key → ∀ e, good e → opened e = true) :
    Holding may good handedOver thread.transaction [] (r.exec b thread) := by
  have hsync : r.standalone b = requestHasSync b →
      (requestFlags b thread).sync = true := by
    intro h
    rw [h] at hr
    simp [requestFlags, hr]
  cases r with
  | get key =>
      exact unchanged_holding ht (withAlloc_holding
        (commandGetExec_holding (hmay true) (hgood key rfl) ht _))
  | del key =>
      exact unchanged_holding ht (withAlloc_holding
        (commandDelExec_holding (hmay false) ht (hsync rfl) _))
  | put key data =>
      refine unchanged_holding ht (withAlloc_holding ?_)
      split
      · exact commandPutExec_holding (hmay false) ht (hsync rfl) _ _
      · exact withAlloc_holding
          (commandPutExec_holding (hmay false) ht (hsync rfl) _ _)
  | ping => cases hr
  | setdb name => cases hr
  | start => cases hr
  | stop => cases hr

/-- START after the end of the previous transaction. -/
private theorem started_holding (hmay : may true) (thread : TcpThread)
    (dead : List Nat) :
    Holding may good handedOver none dead (do
      let transaction ← databaseTransactionStart true
      let thread := { thread with transaction := transaction }
      if transaction = none then
        return (← transactionError, thread)
      else
        let _ ← connectionSendOk
        return (.YENOERR, thread) : Store.Server (Yerr × TcpThread)) := by
  refine ⟨⟨rfl, hmay⟩, fun t _ => ?_⟩
  cases t with
  | none => exact fun _ _ => rfl
  | some t => exact fun _ _ => rfl

private theorem commandStart_holding (hmay : may true)
    (thread : TcpThread) :
    Holding may good handedOver thread.transaction []
      (commandStart thread) := by
  obtain ⟨fd, dbname, transaction⟩ := thread
  cases transaction with
  | none => exact started_holding hmay ⟨fd, dbname, none⟩ []
  | some t =>
      exact ⟨Or.inl rfl, started_holding hmay ⟨fd, dbname, some t⟩ [t]⟩

private theorem commandStop_holding (thread : TcpThread) :
    Holding may good handedOver thread.transaction []
      (commandStop thread) := by
  obtain ⟨fd, dbname, transaction⟩ := thread
  cases transaction with
  | none => exact fun _ _ => rfl
  | some t => exact ⟨Or.inl rfl, fun _ _ => rfl⟩

/-- Every other request stays within the session's transaction. -/
private theorem Request.exec_holding {b : Byte} {thread : TcpThread}
    {r : Request} (hmay : may true)
    (h : (thread.transaction.isNone && r.standalone b) = false) :
    Holding may good handedOver thread.transaction [] (r.exec b thread) := by
  by_cases hstart : r = .start
  · rw [hstart]
    exact commandStart_holding hmay thread
  by_cases hstop : r = .stop
  · rw [hstop]
    exact commandStop_holding thread
  refine holding_of_through ?_ (Request.exec_transaction hstart hstop)
  exact (Request.exec_allows hstart hstop fun _ _ => rfl).mono
    fun _ hc => hc.through (Request.txn_of_plain h)

private theorem disconnect_holding (thread : TcpThread) :
    Holding may good handedOver thread.transaction []
      (Task.prog ⟨.disconnect, thread⟩) := by
  obtain ⟨fd, dbname, transaction⟩ := thread
  simp only [Task.prog, connectionThreadDisconnect]
  split
  · rfl
  · cases transaction with
    | none => exact fun _ _ => rfl
    | some t => exact ⟨Or.inl rfl, fun _ _ => rfl⟩

private theorem cut_holding (b : Byte) (part : Bytes)
    (thread : TcpThread) :
    Holding may good handedOver thread.transaction []
      (Task.prog ⟨.arrival (.cut b part), thread⟩) := by
  refine holding_of_through (Prog.calls_bind
    (through_of_allows (cutExec_allows b part)) fun _ => trivial) ?_
  exact cut_transaction b part thread

private theorem message_holding (hmay : may false) (src : Nat)
    (msg : WriterMsg) (thread : TcpThread)
    (ht : thread.transaction = none) :
    Holding may good handedOver thread.transaction []
      (Task.prog ⟨.message src msg, thread⟩) := by
  have happly : Holding may good noTxn none []
      (writerApply msg : Store.Server _) := by
    unfold writerApply
    split
    · exact (databasePut_holding hmay ..).bind fun _ _ => rfl
    · exact (databaseDel_holding hmay ..).bind fun _ _ => rfl
    · rfl
  rw [ht]
  exact happly.bind fun _ _ => rfl

end Tasks

/-- Which transactions thread `c` begins: the writer no reads. -/
def mayBegin (c : Nat) (rdonly : Bool) : Prop := rdonly = true → c ≠ 0

/-- Every task returns with the transaction of its session. -/
theorem Task.holding {c : Nat} (task : Task)
    (hconn : c ≠ 0 ∨ ∃ src msg, task.job = .message src msg)
    (hwriter : ∀ src msg, task.job = .message src msg →
      task.thread.transaction = none) :
    Holding (mayBegin c) task.accounted handedOver
      task.thread.transaction [] task.prog := by
  obtain ⟨job, thread⟩ := task
  cases job with
  | message src msg =>
      exact message_holding (fun h => by cases h) src msg thread
        (hwriter src msg rfl)
  | disconnect => exact disconnect_holding thread
  | arrival a =>
      have hmay : ∀ rdonly, mayBegin c rdonly := by
        intro rdonly _
        rcases hconn with hc | ⟨src, msg, hjob⟩
        · exact hc
        · cases hjob
      cases a with
      | cut b part => exact cut_holding b part thread
      | unknown b => exact fun _ _ => rfl
      | request b r =>
          by_cases h : (thread.transaction.isNone && r.standalone b) = true
          · rw [Bool.and_eq_true, Option.isNone_iff_eq_none] at h
            refine Request.exec_holding_alone hmay h.1 h.2 ?_
            intro key hkey e he
            subst hkey
            exact he (by simp [Task.readsAlone, h.1])
          · rw [Bool.not_eq_true] at h
            exact Request.exec_holding (hmay true) h

-- =============================================================== the server

/-- The step does not refuse a GET on its own its database. -/
def Sys.opensOk (zip : Bytes → Bytes) (s : Sys) : SysAct → Bool
  | .call c o =>
      match s.cfg.running c with
      | some (_, x) =>
          match x.rest with
          | .call cl _ =>
              !x.label.readsAlone
                || (Mvcc.step (lmdbSem zip) o s.cfg.db cl).all
                    fun y => opened ⟨cl, y.1⟩
          | .ret _ => true
      | none => true
  | _ => true

/-- A thread without a descriptor has no session, and the writer never
has one. -/
def Sessionless (c : Nat) (thread : TcpThread) : Prop :=
  (thread.fd = -1 → thread.transaction = none) ∧ (c = 0 → thread.fd = -1)

/-- A server of `nbr` connection threads: only these are given
descriptors. -/
structure Sys.Pooled (zip : Bytes → Bytes) (d₀ : Store) (nbr : Nat)
    (s : Sys) : Prop where
  base : s.Inv zip d₀
  threads : ∀ c, Sessionless c (s.thread c)
  results : ∀ i x, s.cfg.op i = some x →
    x.rest.Ensures fun a => Sessionless x.client a.2
  pool : ∀ c, nbr < c → s.cfg.cur c = none ∧ (s.thread c).fd = -1

/-- An arrival leaves its thread on its descriptor. -/
theorem Arrival.exec_fd (arr : Arrival) (thread : TcpThread) :
    (arr.exec thread).Ensures fun a => a.2.fd = thread.fd := by
  cases arr with
  | request b r => exact Request.exec_fd b thread r
  | unknown b => exact fun _ => rfl
  | cut b part =>
      refine Prog.ensures_bind.mpr (Prog.ensures_bind.mpr
        ((Prog.ensures_true _).mono fun _ _ => ?_))
      refine Prog.ensures_bind.mpr
        ((Prog.ensures_true _).mono fun _ _ => ?_)
      show (if _ then _ else _ : TcpThread).fd = _
      split
      · rfl
      · rfl

namespace Sys.Pooled

variable {zip : Bytes → Bytes} {d₀ : Store} {nbr : Nat} {s s' : Sys}

theorem init : (Sys.init d₀).Pooled zip d₀ nbr where
  base := Sys.inv_init zip d₀
  threads _ := ⟨fun _ => rfl, fun _ => rfl⟩
  results i x hx := by cases hx
  pool _ _ := ⟨rfl, rfl⟩

/-- What a task leaves of its thread. -/
private theorem result_sessionless {a : SysAct} {c : Nat} {job : Job}
    (h : Sys.Starts s a c job) :
    (Task.prog ⟨job, s.thread c⟩).Ensures fun x => Sessionless c x.2 := by
  cases h with
  | @receive _ arr hc hfd _ =>
      refine (Arrival.exec_fd arr (s.thread c)).mono fun x hx => ⟨?_, ?_⟩
      · intro heq
        exact absurd (hx.symm.trans heq) hfd
      · intro h0
        exact absurd h0 hc
  | hangup hc hfd =>
      refine Prog.ensures_bind.mpr
        ((connectionThreadDisconnect_thread _).mono fun th hth => ?_)
      rw [if_neg hfd] at hth
      rw [hth]
      exact ⟨fun _ => rfl, fun h0 => absurd h0 hc⟩
  | deliver hq =>
      refine Prog.ensures_bind.mpr ((Prog.ensures_true _).mono fun _ _ => ?_)
      exact ⟨fun _ => rfl, fun _ => rfl⟩

/-- Jobs go to threads with a descriptor, and to the writer. -/
private theorem pool_invoke {a : SysAct} {c : Nat} {job : Job}
    {cfg : ServerCfg} (h : s.Pooled zip d₀ nbr)
    (hstarts : Sys.Starts s a c job)
    (hcfg : s.cfg.step (serverRules zip) (.invoke c ⟨job, s.thread c⟩)
      = some cfg) (c' : Nat) (hc' : nbr < c') :
    cfg.cur c' = none ∧ (s.thread c').fd = -1 := by
  obtain ⟨hcur, hfd⟩ := h.pool c' hc'
  obtain ⟨-, rfl⟩ := Cfg.step_invoke hcfg
  have hne : c' ≠ c := by
    intro heq
    subst heq
    cases hstarts with
    | receive _ hserved => exact hserved hfd
    | hangup _ hserved => exact hserved hfd
    | deliver hq => exact Nat.not_lt_zero _ hc'
  simp only [Function.update_of_ne hne]
  exact ⟨hcur, hfd⟩

theorem step {a : SysAct} (h : s.Pooled zip d₀ nbr)
    (hpool : ∀ c fd, a = .accept c fd → c ≤ nbr)
    (hs : Sys.step zip a s = some s') : s'.Pooled zip d₀ nbr := by
  have hbase := h.base.step hs
  have hresults : ∀ i x, s'.cfg.op i = some x →
      x.rest.Ensures fun a => Sessionless x.client a.2 := by
    refine Sys.ops_step h.results hs
      (fun c job hstarts => result_sessionless hstarts) ?_
    intro c o i x cl k r db _ _ _ hrest _ hx
    rw [hrest] at hx
    exact hx r
  cases a with
  | accept c fd =>
      obtain ⟨hc, -, -, rfl⟩ := Sys.step_accept hs
      refine ⟨hbase, fun c' => ?_, hresults, fun c' hc' => ?_⟩
      · by_cases heq : c' = c
        · subst heq
          simp only [Function.update_self]
          refine ⟨fun hfd => ?_, fun h0 => absurd h0 hc⟩
          have : (fd : Int) = -1 := hfd
          omega
        · simp only [Function.update_of_ne heq]
          exact h.threads c'
      · have hne : c' ≠ c := by
          have := hpool c fd rfl
          omega
        simp only [Function.update_of_ne hne]
        exact h.pool c' hc'
  | receive c arr =>
      obtain ⟨-, cfg, hcfg, rfl⟩ := Sys.step_receive hs
      exact ⟨hbase, h.threads, hresults,
        h.pool_invoke (Sys.starts_receive hs) hcfg⟩
  | hangup c =>
      obtain ⟨-, cfg, hcfg, rfl⟩ := Sys.step_hangup hs
      exact ⟨hbase, h.threads, hresults,
        h.pool_invoke (Sys.starts_hangup hs) hcfg⟩
  | deliver c =>
      obtain ⟨src, msg, q, cfg, hq, hcfg, rfl⟩ := Sys.step_deliver hs
      exact ⟨hbase, h.threads, hresults, h.pool_invoke (.deliver hq) hcfg⟩
  | call c o =>
      obtain ⟨cfg, hcfg, rfl⟩ := Sys.step_call hs
      refine ⟨hbase, h.threads, hresults, fun c' hc' => ?_⟩
      obtain ⟨i, x, cl, k, r, db, -, -, -, -, rfl⟩ := Cfg.step_call hcfg
      simp only [Cfg.finish_cur]
      exact h.pool c' hc'
  | respond c =>
      obtain ⟨i, x, y, cfg, hi, hx, hrest, hcfg, rfl⟩ :=
        Sys.step_respond hs
      have hclient : x.client = c := by
        obtain ⟨x', hx', hc⟩ := h.base.book.running c i hi
        cases hx.symm.trans hx'
        exact hc
      have hend := h.results i x hx
      rw [hrest, hclient] at hend
      refine ⟨hbase, fun c' => ?_, hresults, fun c' hc' => ?_⟩
      · by_cases heq : c' = c
        · subst heq
          simp only [Function.update_self]
          exact hend
        · simp only [Function.update_of_ne heq]
          exact h.threads c'
      · obtain ⟨hcur, hfd⟩ := h.pool c' hc'
        obtain ⟨_, _, _, -, -, -, rfl⟩ := Cfg.step_respond hcfg
        have hne : c' ≠ c := by
          intro heq
          rw [heq, hi] at hcur
          cases hcur
        simp only [Function.update_of_ne hne]
        exact ⟨hcur, hfd⟩

theorem of_run {acts : List SysAct}
    (hpool : ∀ c fd, SysAct.accept c fd ∈ acts → c ≤ nbr)
    (hrun : Machine.run (Sys.step zip) (Sys.init d₀) acts = some s) :
    s.Pooled zip d₀ nbr := by
  have hthreads : Machine.Meets (Sys.step zip)
      (fun _ a => ∀ c fd, a = .accept c fd → c ≤ nbr)
      (Sys.init d₀) acts :=
    Machine.meets_of_forall _ _ fun a ha c fd heq => hpool c fd (heq ▸ ha)
  exact (Machine.along_of_meets (Sys.step zip)
    (fun _ _ _ h hq hs => h.step hq hs) init hthreads).last _ hrun

end Sys.Pooled

/-- The account of such a server. -/
structure Sys.Accounted (zip : Bytes → Bytes) (d₀ : Store) (nbr : Nat)
    (s : Sys) : Prop extends s.Pooled zip d₀ nbr where
  ledger : ∃ held dead,
    Ledger (serverRules zip) mayBegin Task.accounted s.cfg held dead

namespace Sys.Accounted

variable {zip : Bytes → Bytes} {d₀ : Store} {nbr : Nat} {s s' : Sys}

theorem init : (Sys.init d₀).Accounted zip d₀ nbr :=
  ⟨Sys.Pooled.init, _, _, Ledger.init d₀ 0⟩

/-- A thread takes on a job. -/
private theorem ledger_invoke {a : SysAct} {c : Nat} {job : Job}
    {cfg : ServerCfg} (h : s.Accounted zip d₀ nbr)
    (hstarts : Sys.Starts s a c job)
    (hcfg : s.cfg.step (serverRules zip) (.invoke c ⟨job, s.thread c⟩)
      = some cfg) :
    ∃ held dead,
      Ledger (serverRules zip) mayBegin Task.accounted cfg held dead := by
  obtain ⟨held, dead, hledger⟩ := h.ledger
  refine ⟨held, _, hledger.invoke h.base.book hcfg ?_⟩
  rw [h.base.kept c]
  refine Task.holding ⟨job, s.thread c⟩ ?_ ?_
  · cases hstarts with
    | receive hc => exact Or.inl hc
    | hangup hc => exact Or.inl hc
    | deliver hq => exact Or.inr ⟨_, _, rfl⟩
  · intro src msg hjob
    cases hstarts with
    | deliver hq =>
        obtain ⟨hgone, hwriter⟩ := h.threads 0
        exact hgone (hwriter rfl)
    | receive hc => cases hjob
    | hangup hc => cases hjob

private theorem ledger_call {c : Nat} {o : Outcome} {cfg : ServerCfg}
    (h : s.Accounted zip d₀ nbr)
    (hopens : s.opensOk zip (.call c o) = true)
    (hcfg : s.cfg.step (serverRules zip) (.call c o) = some cfg) :
    ∃ held dead,
      Ledger (serverRules zip) mayBegin Task.accounted cfg held dead := by
  obtain ⟨held, dead, hledger⟩ := h.ledger
  refine hledger.call h.base.book hcfg ?_
  intro i x cl k r db hi hx hrest hstep halone
  have hrun : s.cfg.running c = some (i, x) :=
    Cfg.running_eq_some.mpr ⟨hi, hx⟩
  have hstep' : Mvcc.step (lmdbSem zip) o s.cfg.db cl = some (r, db) := hstep
  simp only [Sys.opensOk, hrun, hrest, halone, hstep'] at hopens
  exact hopens

theorem step {a : SysAct} (h : s.Accounted zip d₀ nbr)
    (hpool : ∀ c fd, a = .accept c fd → c ≤ nbr)
    (hopens : s.opensOk zip a = true)
    (hs : Sys.step zip a s = some s') : s'.Accounted zip d₀ nbr := by
  refine ⟨h.toPooled.step hpool hs, ?_⟩
  cases a with
  | accept c fd =>
      obtain ⟨-, -, -, rfl⟩ := Sys.step_accept hs
      exact h.ledger
  | receive c arr =>
      obtain ⟨-, cfg, hcfg, rfl⟩ := Sys.step_receive hs
      exact h.ledger_invoke (Sys.starts_receive hs) hcfg
  | hangup c =>
      obtain ⟨-, cfg, hcfg, rfl⟩ := Sys.step_hangup hs
      exact h.ledger_invoke (Sys.starts_hangup hs) hcfg
  | deliver c =>
      obtain ⟨src, msg, q, cfg, hq, hcfg, rfl⟩ := Sys.step_deliver hs
      exact h.ledger_invoke (.deliver hq) hcfg
  | call c o =>
      obtain ⟨cfg, hcfg, rfl⟩ := Sys.step_call hs
      exact h.ledger_call hopens hcfg
  | respond c =>
      obtain ⟨i, x, y, cfg, -, -, -, hcfg, rfl⟩ := Sys.step_respond hs
      obtain ⟨held, dead, hledger⟩ := h.ledger
      exact ⟨held, dead, hledger.respond hcfg⟩

/-- Threads that may read are the connection threads in use. -/
private theorem reader_mem (h : s.Accounted zip d₀ nbr)
    {held : Nat → Option Nat} {dead : Nat → List Nat}
    (hledger : Ledger (serverRules zip) mayBegin Task.accounted s.cfg
      held dead) {c t : Nat} (hheld : held c = some t)
    (hmay : mayBegin c true) : c ∈ Finset.Icc 1 nbr := by
  have hc : c ≠ 0 := hmay rfl
  rw [Finset.mem_Icc]
  refine ⟨Nat.one_le_iff_ne_zero.mpr hc, ?_⟩
  by_contra hlt
  obtain ⟨hcur, hfd⟩ := h.pool c (Nat.not_le.mp hlt)
  rw [hledger.idle c hcur, h.base.kept, (h.threads c).1 hfd] at hheld
  cases hheld

/-- When no handler is executing, what is open is what the connected
threads have in their structures. -/
private theorem idle_open_iff (h : s.Accounted zip d₀ nbr)
    (hidle : ∀ c, s.cfg.cur c = none) (t : Nat) :
    (s.cfg.db.txns t).isSome ↔ ∃ c, (s.thread c).fd ≠ -1
      ∧ (s.thread c).transaction = some t := by
  obtain ⟨held, dead, hledger⟩ := h.ledger
  have hheld : ∀ c, held c = (s.thread c).transaction := fun c =>
    (hledger.idle c (hidle c)).trans (h.base.kept c)
  rw [hledger.store.open_iff]
  constructor
  · intro ⟨c, hc⟩
    rw [hheld] at hc
    refine ⟨c, fun hfd => ?_, hc⟩
    rw [(h.threads c).1 hfd] at hc
    cases hc
  · intro ⟨c, _, hc⟩
    exact ⟨c, (hheld c).trans hc⟩

/-- A thread about to begin a read has no slot of its own. -/
private theorem slot_free (h : s.Accounted zip d₀ nbr) {c i : Nat}
    {x : ServerOp} {k : Option Nat → Store.Server (Yerr × TcpThread)}
    (hi : s.cfg.cur c = some i) (hx : s.cfg.op i = some x)
    (hrest : x.rest = .call (.txnBegin true) k) :
    s.cfg.db.readers < nbr := by
  obtain ⟨held, dead, hledger⟩ := h.ledger
  have hhold := hledger.running c i x hi hx
  rw [hrest] at hhold
  obtain ⟨⟨hempty, hmay⟩, -⟩ := hhold
  have hc : c ∈ Finset.Icc 1 nbr := by
    rw [Finset.mem_Icc]
    refine ⟨Nat.one_le_iff_ne_zero.mpr (hmay rfl), ?_⟩
    by_contra hlt
    rw [(h.pool c (Nat.not_le.mp hlt)).1] at hi
    cases hi
  have hle : s.cfg.db.readers ≤ ((Finset.Icc 1 nbr).erase c).card := by
    refine hledger.store.readers_le fun c' t hheld hmay' => ?_
    refine Finset.mem_erase.mpr ⟨?_, h.reader_mem hledger hheld hmay'⟩
    intro heq
    rw [heq, hempty] at hheld
    cases hheld
  rw [Finset.card_erase_of_mem hc, Nat.card_Icc] at hle
  rw [Finset.mem_Icc] at hc
  omega

end Sys.Accounted

/-- The reader slots `database_open` configures: LMDB's 126, or as many
as there are connection threads if these are more. -/
def readerSlots (nbrThreads : Nat) : Nat :=
  if nbrThreads > 126 then nbrThreads else 126

/-- For any connections, requests, interleaving and failures: if no GET
on its own is refused its database, then whenever no handler is
executing the open transactions are those of the connected threads; at
no time are more reader slots in use than there are connection threads,
and a thread that is about to begin a read finds a free one. -/
theorem readers_accounted (zip : Bytes → Bytes) (d₀ : Store)
    (nbrThreads : Nat) (acts : List SysAct) (s : Sys)
    (hpool : ∀ c fd, SysAct.accept c fd ∈ acts → c ≤ nbrThreads)
    (hopens : Machine.Meets (Sys.step zip)
      (fun s a => s.opensOk zip a = true) (Sys.init d₀) acts)
    (hrun : Machine.run (Sys.step zip) (Sys.init d₀) acts = some s) :
    ((∀ c, s.cfg.cur c = none) → ∀ t,
      (s.cfg.db.txns t).isSome ↔ ∃ c, (s.thread c).fd ≠ -1
        ∧ (s.thread c).transaction = some t)
    ∧ s.cfg.db.readers ≤ nbrThreads
    ∧ ∀ c i x k, s.cfg.cur c = some i → s.cfg.op i = some x →
        x.rest = .call (.txnBegin true) k →
        s.cfg.db.readers < readerSlots nbrThreads := by
  have hacc : s.Accounted zip d₀ nbrThreads := by
    have hthreads : Machine.Meets (Sys.step zip)
        (fun _ a => ∀ c fd, a = .accept c fd → c ≤ nbrThreads)
        (Sys.init d₀) acts :=
      Machine.meets_of_forall _ _ fun a ha c fd heq => hpool c fd (heq ▸ ha)
    refine (Machine.along_of_meets (Sys.step zip) (fun s a s' h hq hs => ?_)
      Sys.Accounted.init (hopens.and _ hthreads)).last _ hrun
    exact h.step hq.2 hq.1 hs
  refine ⟨hacc.idle_open_iff, ?_, fun c i x k hi hx hrest => ?_⟩
  · obtain ⟨held, dead, hledger⟩ := hacc.ledger
    have hle := hledger.store.readers_le fun c t hheld hmay =>
      hacc.reader_mem hledger hheld hmay
    rw [Nat.card_Icc] at hle
    omega
  · have hlt := hacc.slot_free hi hx hrest
    unfold readerSlots
    split
    · exact hlt
    · omega

/-- Thread 1 serves a START, thread 2 a GET on its own. -/
def startAndGet : List SysAct :=
  let ok : Outcome := ⟨true, 0, 0⟩
  [.accept 1 5, .accept 2 6, .receive 1 (.request 0x05 .start)]
  ++ List.replicate 2 (.call 1 ok) ++ [.respond 1,
    .receive 2 (.request 0x41 (.get (.single 1)))]
  ++ List.replicate 7 (.call 2 ok) ++ [.respond 2]

theorem readers_accounted_start_and_get :
    ∃ s, Machine.run (Sys.step id) (Sys.init ⟨∅, ∅⟩) startAndGet = some s
      ∧ (s.thread 1).transaction = some 0 ∧ s.cfg.db.readers ≤ 2
      ∧ ∀ t, (s.cfg.db.txns t).isSome ↔ ∃ c, (s.thread c).fd ≠ -1
          ∧ (s.thread c).transaction = some t := by
  have hchecks : (Machine.run (Sys.step id) (Sys.init ⟨∅, ∅⟩)
      startAndGet).map (fun s => (s.cfg.resting, (s.thread 1).transaction))
        = some (true, some 0) := by
    decide +kernel
  obtain ⟨s, hrun, hchecks⟩ := Option.map_eq_some_iff.mp hchecks
  rw [Prod.mk.injEq] at hchecks
  have hidle := (Sys.inv_of_run hrun).book.resting_iff.mp hchecks.1
  have hpool : ∀ c fd, SysAct.accept c fd ∈ startAndGet → c ≤ 2 := by
    intro c fd hmem
    simp only [startAndGet, List.mem_append, List.mem_cons,
      List.mem_replicate, SysAct.accept.injEq, List.not_mem_nil, reduceCtorEq,
      or_false, and_false] at hmem
    omega
  have hopens : Machine.Meets (Sys.step id)
      (fun s a => s.opensOk id a = true) (Sys.init ⟨∅, ∅⟩) startAndGet := by
    decide +kernel
  obtain ⟨hexact, hle, -⟩ :=
    readers_accounted id ⟨∅, ∅⟩ 2 startAndGet s hpool hopens hrun
  exact ⟨s, hrun, hchecks.2, hle, hexact hidle⟩

/-- A GET on a named database that does not exist. -/
def getMissing : List SysAct :=
  let ok : Outcome := ⟨true, 0, 0⟩
  [.accept 1 5, .receive 1 (.request 0x04 (.setdb (.single 97)))]
  ++ List.replicate 2 (.call 1 ok) ++ [.respond 1,
    .receive 1 (.request 0x01 (.get (.single 1)))]
  ++ List.replicate 6 (.call 1 ok) ++ [.respond 1]

/-- It returns with its transaction open: no handler is executing, no
thread has a transaction, and a reader slot is in use for good. -/
theorem missing_database_leaks_reader :
    ∃ s, Machine.run (Sys.step id) (Sys.init ⟨∅, ∅⟩) getMissing = some s
      ∧ (∀ c, s.cfg.cur c = none) ∧ (s.cfg.db.txns 0).isSome
      ∧ s.cfg.db.readers = 1
      ∧ ∀ c, (s.thread c).transaction = none := by
  have hchecks : (Machine.run (Sys.step id) (Sys.init ⟨∅, ∅⟩)
      getMissing).map (fun s => (s.cfg.resting, (s.cfg.db.txns 0).isSome,
        s.cfg.db.readers, (s.thread 1).transaction))
          = some (true, true, 1, none) := by
    decide +kernel
  obtain ⟨s, hrun, hchecks⟩ := Option.map_eq_some_iff.mp hchecks
  simp only [Prod.mk.injEq] at hchecks
  obtain ⟨hrest, hopen, hreaders, hone⟩ := hchecks
  have hpool : ∀ c fd, SysAct.accept c fd ∈ getMissing → c ≤ 1 := by
    intro c fd hmem
    simp only [getMissing, List.mem_append, List.mem_cons,
      List.mem_replicate, SysAct.accept.injEq, List.not_mem_nil, reduceCtorEq,
      or_false, and_false] at hmem
    omega
  have hpooled := Sys.Pooled.of_run hpool hrun
  refine ⟨s, hrun, hpooled.base.book.resting_iff.mp hrest, hopen, hreaders,
    fun c => ?_⟩
  rcases Nat.lt_trichotomy c 1 with hc | rfl | hc
  · obtain rfl : c = 0 := by omega
    exact (hpooled.threads 0).1 ((hpooled.threads 0).2 rfl)
  · exact hone
  · exact (hpooled.threads c).1 (hpooled.pool c hc).2

end FineDB

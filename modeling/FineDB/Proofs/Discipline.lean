/-
Every task of the server keeps the discipline it is run under.

What a task does with transactions depends on the session only through
one question: whether it has a transaction open. Inside one, and in
everything asynchronous, a request makes calls through that transaction
alone (`TxnCall.Through`). Outside, a synchronous request and the
writer's message use LMDB within a single transaction of their own
(`Within`). START, STOP and the disconnection are the only tasks that
begin or end the session's.

A read that could not open its database returns with its transaction
still open. The single-transaction discipline allows that: it asks only
that no write transaction is left behind.
-/
import FineDB.Proofs.Calls

namespace FineDB

open Effect Mvcc

variable {Dbi : Type}

/-- A program bounded to no transaction. -/
theorem through_of_allows {α : Type} {p : Server Dbi α}
    {live : List Nat} (h : p.Calls (Allows true true true none)) :
    p.Calls (TxnCall.Through live) :=
  h.mono fun _ hc => hc.through (Or.inl rfl)

theorem send_through {live : List Nat} (code : ResponseCode)
    (serialized compressed : Bool) (data : Option Bytes) :
    (connectionSendResponse code serialized compressed data :
      Server Dbi _).Calls (TxnCall.Through live) :=
  connectionSendResponse_calls (fun _ => trivial) ..

-- ============================================ within a transaction of its own

/-- After the one transaction there is nothing left to end. -/
private theorem settled_idle : Phase.idle.Settled := by
  intro t h
  cases h

private theorem settled_rd (t : Nat) : (Phase.rd t).Settled := by
  intro u h
  cases h

private theorem settled_ended (t : Nat) : (Phase.ended t).Settled := by
  intro u h
  cases h

theorem databaseGet_single (name : Option Bytes) (key : Bytes) :
    SingleTxn .idle (databaseGet none name key : Server Dbi _) := by
  refine ⟨rfl, settled_idle, fun t => ⟨Or.inl rfl, fun ret => ?_⟩⟩
  cases ret with
  | refused rc => exact fun _ _ => settled_rd t
  | opened dbi created =>
      exact ⟨Or.inl rfl, fun _ => ⟨Or.inl rfl, fun _ => settled_ended t⟩⟩

theorem writeEndOfProcess_single (t : Nat) (retval : Yerr) :
    SingleTxn (.wr t) (writeEndOfProcess none t retval : Server Dbi _) := by
  by_cases h : retval = .YENOERR
  · rw [h, writeEndOfProcess_ok]
    refine ⟨rfl, fun ok => ?_⟩
    cases ok with
    | false => exact ⟨Or.inr (Or.inr rfl), settled_ended t⟩
    | true => exact settled_ended t
  · rw [writeEndOfProcess_error t h]
    exact ⟨Or.inr (Or.inl rfl), settled_ended t⟩

theorem databasePut_single (createOnly : Bool) (name : Option Bytes)
    (key data : Bytes) :
    SingleTxn .idle
      (databasePut none createOnly name key data : Server Dbi _) := by
  refine ⟨rfl, settled_idle, fun t => ⟨Or.inr rfl, fun ret => ?_⟩⟩
  cases ret with
  | refused rc => exact writeEndOfProcess_single t .YEACCESS
  | opened dbi created =>
      exact ⟨Or.inr rfl, fun rc _ =>
        writeEndOfProcess_single t (writeRetval rc)⟩

theorem databaseDel_single (name : Option Bytes) (key : Bytes) :
    SingleTxn .idle (databaseDel none name key : Server Dbi _) := by
  refine ⟨rfl, settled_idle, fun t => ⟨Or.inr rfl, fun ret => ?_⟩⟩
  cases ret with
  | refused rc => exact writeEndOfProcess_single t .YEACCESS
  | opened dbi created =>
      exact ⟨Or.inr rfl, fun rc _ =>
        writeEndOfProcess_single t (writeRetval rc)⟩

private theorem commandError_single :
    SingleTxn .idle (commandError : Server Dbi _) :=
  within_of_through (through_of_allows commandError_allows)
    ((Prog.ensures_true _).mono fun _ _ => settled_idle)

theorem withAlloc_single {size : Nat} {p : Server Dbi Yerr}
    (hp : SingleTxn .idle p) : SingleTxn .idle (withAlloc size p) := by
  intro ok
  cases ok with
  | false => exact commandError_single
  | true => exact hp

section Standalone

variable {f : Flags} {thread : TcpThread}

theorem commandGetExec_single (ht : thread.transaction = none)
    (name : Bytes) :
    SingleTxn .idle (commandGetExec f thread name : Server Dbi _) := by
  unfold commandGetExec
  rw [ht]
  exact (databaseGet_single ..).bind_through fun ret =>
    through_of_allows (commandGetAnswer_allows f ret)

theorem commandDelExec_single (ht : thread.transaction = none)
    (hsync : f.sync = true) (key : Bytes) :
    SingleTxn .idle (commandDelExec f thread key : Server Dbi _) := by
  refine SingleTxn.after_through (through_of_allows
    (immediateResponse_allows _)) fun _ ok => ?_
  cases ok with
  | false => exact commandError_single
  | true =>
      simp only [Prog.bind, if_true, commandDelWrite, hsync, ht]
      exact (databaseDel_single ..).bind_through fun _ => send_through ..

theorem commandPutExec_single (ht : thread.transaction = none)
    (hsync : f.sync = true) (name data : Bytes) :
    SingleTxn .idle
      (commandPutExec false false f thread name data : Server Dbi _) := by
  refine SingleTxn.after_through (through_of_allows
    (immediateResponse_allows _)) fun _ ok => ?_
  cases ok with
  | false => exact commandError_single
  | true =>
      simp only [Prog.bind, if_true]
      refine SingleTxn.after_through (through_of_allows
        (commandPutData_allows ..)) fun data => ?_
      cases data with
      | none => exact commandError_single
      | some data =>
          simp only [commandPutWrite, hsync, Bool.true_or, if_true]
          rw [commandPutSync_put, ht]
          exact (databasePut_single ..).bind_through fun _ =>
            send_through ..

end Standalone

-- ========================================================= every request

/-- The transaction a thread's result hands over. -/
private abbrev keptTxn (a : Yerr × TcpThread) : Option Nat :=
  a.2.transaction

theorem ensures_of_thread {p : Server Dbi Yerr}
    {thread : TcpThread} {Q : Yerr × TcpThread → Prop}
    (h : ∀ y, Q (y, thread)) :
    (do return (← p, thread) : Server Dbi (Yerr × TcpThread)).Ensures Q :=
  Prog.ensures_bind_pure h p

/-- Requests that leave the thread as it is. -/
private theorem single_of_thread {p : Server Dbi Yerr}
    {thread : TcpThread} (hp : SingleTxn .idle p) :
    SingleTxn .idle (do return (← p, thread) :
      Server Dbi (Yerr × TcpThread)) :=
  hp.bind_through fun _ => trivial

/-- A request outside the session's transactions that uses LMDB by
itself. -/
theorem Request.exec_single {b : Byte} {thread : TcpThread} {r : Request}
    (ht : thread.transaction = none) (hr : r.standalone b = true) :
    SingleTxn .idle (r.exec b thread : Server Dbi _)
      ∧ (r.exec b thread : Server Dbi _).Ensures
          fun a => a.2.transaction = none := by
  have hsame : ∀ p : Server Dbi Yerr, (do return (← p, thread) :
      Server Dbi (Yerr × TcpThread)).Ensures
        fun a => a.2.transaction = none :=
    fun _ => ensures_of_thread fun _ => ht
  cases r with
  | get key =>
      exact ⟨single_of_thread (withAlloc_single
        (commandGetExec_single ht _)), hsame _⟩
  | del key =>
      have hsync : (requestFlags b thread).sync = true := by
        simpa [requestFlags, ht, Request.standalone] using hr
      exact ⟨single_of_thread (withAlloc_single
        (commandDelExec_single ht hsync _)), hsame _⟩
  | put key data =>
      have hsync : (requestFlags b thread).sync = true := by
        simpa [requestFlags, ht, Request.standalone] using hr
      have hput : SingleTxn .idle (commandPutExec false false
          (requestFlags b thread) thread key.bytes data.bytes :
            Server Dbi _) := commandPutExec_single ht hsync _ _
      refine ⟨single_of_thread (withAlloc_single ?_), hsame _⟩
      split
      · exact hput
      · exact withAlloc_single hput
  | ping => cases hr
  | setdb name => cases hr
  | start => cases hr
  | stop => cases hr

/-- Only START and STOP change the session's transaction. -/
theorem Request.exec_transaction {b : Byte} {thread : TcpThread}
    {r : Request} (hstart : r ≠ .start) (hstop : r ≠ .stop) :
    (r.exec b thread : Server Dbi _).Ensures
      fun a => a.2.transaction = thread.transaction := by
  cases r with
  | setdb name =>
      simp only [Request.exec, commandSetdbExec]
      split
      · exact fun _ => rfl
      · intro ok
        cases ok with
        | false => exact fun _ => rfl
        | true => exact fun _ => rfl
  | start => exact absurd rfl hstart
  | stop => exact absurd rfl hstop
  | ping => exact ensures_of_thread fun _ => rfl
  | get key => exact ensures_of_thread fun _ => rfl
  | del key => exact ensures_of_thread fun _ => rfl
  | put key data => exact ensures_of_thread fun _ => rfl

/-- What START does once the session has no transaction. -/
private def beginSession (thread : TcpThread) :
    Server Dbi (Yerr × TcpThread) := do
  let transaction ← databaseTransactionStart true
  let thread := { thread with transaction := transaction }
  if transaction = none then
    return (← transactionError, thread)
  else
    let _ ← connectionSendOk
    return (.YENOERR, thread)

private theorem beginSession_plain (thread : TcpThread)
    (dead : List Nat) :
    Disc keptTxn [] dead (beginSession thread : Server Dbi _)
      ∧ ReadOnly (beginSession thread : Server Dbi _) := by
  refine ⟨⟨?_, fun t _ _ => ?_⟩, ⟨by simp, ?_⟩, fun transaction => ?_⟩
  · intro rc t ht
    cases ht
  · intro rc u hu
    cases hu
    exact List.mem_singleton_self t
  · intro t
    simp
  · cases transaction with
    | none => exact ⟨⟨by simp, by simp⟩, fun _ => trivial⟩
    | some t => exact ⟨⟨by simp, by simp⟩, fun _ => trivial⟩

/-- START ends the session's transaction and begins another. -/
private theorem commandStart_plain (thread : TcpThread) :
    Disc keptTxn thread.transaction.toList []
        (commandStart thread : Server Dbi _)
      ∧ ReadOnly (commandStart thread : Server Dbi _) := by
  obtain ⟨fd, dbname, transaction⟩ := thread
  cases transaction with
  | none => exact beginSession_plain ⟨fd, dbname, none⟩ []
  | some t =>
      obtain ⟨hdisc, hro⟩ :=
        @beginSession_plain Dbi ⟨fd, dbname, some t⟩ [t]
      refine ⟨⟨Or.inl (List.mem_singleton_self t), ?_⟩,
        ⟨by simp, by simp⟩, fun _ => hro⟩
      show Disc keptTxn ([t].erase t) [t]
        (beginSession ⟨fd, dbname, some t⟩ : Server Dbi _)
      rw [List.erase_cons_head]
      exact hdisc

private theorem commandStop_plain (thread : TcpThread) :
    Disc keptTxn thread.transaction.toList []
        (commandStop thread : Server Dbi _)
      ∧ ReadOnly (commandStop thread : Server Dbi _) := by
  obtain ⟨fd, dbname, transaction⟩ := thread
  cases transaction with
  | none =>
      refine ⟨fun rc t ht => ?_, ⟨by simp, by simp⟩, fun _ => trivial⟩
      cases ht
  | some t =>
      refine ⟨⟨Or.inl (List.mem_singleton_self t), fun rc u hu => ?_⟩,
        ⟨by simp, by simp⟩, fun _ => ⟨⟨by simp, by simp⟩, fun _ => trivial⟩⟩
      cases hu

/-- What a request that is not alone touches is the session's
transaction. -/
theorem Request.txn_of_plain {b : Byte} {thread : TcpThread} {r : Request}
    (h : (thread.transaction.isNone && r.standalone b) = false) :
    r.txn b thread = none ∨ ∃ t ∈ thread.transaction.toList,
      r.txn b thread = some (some t) := by
  cases ht : thread.transaction with
  | some t =>
      cases r with
      | get key => exact Or.inr ⟨t, List.mem_singleton_self t, by
          simp [Request.txn, ht]⟩
      | put key data => exact Or.inr ⟨t, List.mem_singleton_self t, by
          simp [Request.txn, writeTxn, requestFlags, ht]⟩
      | del key => exact Or.inr ⟨t, List.mem_singleton_self t, by
          simp [Request.txn, writeTxn, requestFlags, ht]⟩
      | _ => exact Or.inl rfl
  | none =>
      simp only [ht, Option.isNone_none, Bool.true_and] at h
      refine Or.inl ?_
      cases r with
      | get key => cases h
      | put key data => simpa [Request.txn, writeTxn, requestFlags, ht,
          Request.standalone] using h
      | del key => simpa [Request.txn, writeTxn, requestFlags, ht,
          Request.standalone] using h
      | _ => rfl

/-- Every other request. -/
theorem Request.exec_plain {b : Byte} {thread : TcpThread} {r : Request}
    (h : (thread.transaction.isNone && r.standalone b) = false) :
    Disc keptTxn thread.transaction.toList []
        (r.exec b thread : Server Dbi _)
      ∧ ReadOnly (r.exec b thread : Server Dbi _) := by
  by_cases hstart : r = .start
  · rw [hstart]
    exact commandStart_plain thread
  by_cases hstop : r = .stop
  · rw [hstop]
    exact commandStop_plain thread
  have hcalls : (r.exec b thread : Server Dbi _).Calls
      (TxnCall.Through thread.transaction.toList) :=
    (Request.exec_allows hstart hstop fun _ _ => rfl).mono fun _ hc =>
      hc.through (Request.txn_of_plain h)
  refine ⟨disc_of_through hcalls ?_, readOnly_of_through hcalls⟩
  refine (Request.exec_transaction hstart hstop).mono fun a ha t ht => ?_
  rw [← ha]
  exact Option.mem_toList.mpr ht

-- ============================================================ every task

/-- The disconnection ends the session's transaction. -/
private theorem disconnect_plain (thread : TcpThread) :
    Disc keptTxn thread.transaction.toList []
        (Task.prog ⟨.disconnect, thread⟩)
      ∧ ReadOnly (Task.prog ⟨.disconnect, thread⟩) := by
  obtain ⟨fd, dbname, transaction⟩ := thread
  simp only [Task.prog, connectionThreadDisconnect]
  split
  · exact ⟨fun t ht => Option.mem_toList.mpr ht, trivial⟩
  · cases transaction with
    | none =>
        refine ⟨fun _ t ht => ?_, ⟨by simp, by simp⟩, fun _ => trivial⟩
        cases ht
    | some u =>
        refine ⟨⟨Or.inl (List.mem_singleton_self u), fun _ t ht => ?_⟩,
          ⟨by simp, by simp⟩,
          fun _ => ⟨⟨by simp, by simp⟩, fun _ => trivial⟩⟩
        cases ht

/-- A cut request leaves the session's transaction alone. -/
theorem cut_transaction (b : Byte) (part : Bytes) (thread : TcpThread) :
    (Task.prog ⟨.arrival (.cut b part), thread⟩).Ensures
      fun a => a.2.transaction = thread.transaction := by
  refine Prog.ensures_bind.mpr (Prog.ensures_bind.mpr
    ((Prog.ensures_true _).mono fun _ _ => ?_))
  refine Prog.ensures_bind.mpr ((Prog.ensures_true _).mono fun _ _ => ?_)
  show (if _ then _ else _ : TcpThread).transaction = _
  split
  · rfl
  · rfl

private theorem cut_plain (b : Byte) (part : Bytes) (thread : TcpThread) :
    Disc keptTxn thread.transaction.toList []
        (Task.prog ⟨.arrival (.cut b part), thread⟩)
      ∧ ReadOnly (Task.prog ⟨.arrival (.cut b part), thread⟩) := by
  have hcalls : (Task.prog ⟨.arrival (.cut b part), thread⟩).Calls
      (TxnCall.Through thread.transaction.toList) :=
    Prog.calls_bind (through_of_allows (cutExec_allows b part))
      fun _ => trivial
  refine ⟨disc_of_through hcalls ?_, readOnly_of_through hcalls⟩
  refine (cut_transaction b part thread).mono fun a ha t ht => ?_
  rw [← ha]
  exact Option.mem_toList.mpr ht

private theorem writerApply_single (src : Nat) (msg : WriterMsg)
    (thread : TcpThread) :
    SingleTxn .idle (Task.prog ⟨.message src msg, thread⟩)
      ∧ (Task.prog ⟨.message src msg, thread⟩).Ensures
          fun a => a.2.transaction = none := by
  have happly : SingleTxn .idle (writerApply msg : Store.Server _) := by
    unfold writerApply
    split
    · exact (databasePut_single ..).bind_through fun _ => trivial
    · exact (databaseDel_single ..).bind_through fun _ => trivial
    · exact settled_idle
  refine ⟨happly.bind_through fun _ => trivial, ?_⟩
  exact Prog.ensures_bind.mpr ((Prog.ensures_true _).mono fun _ _ => rfl)

/-- The discipline of each task. -/
theorem Task.disciplined (task : Task) :
    if task.atomic then
      SingleTxn .idle task.prog
        ∧ task.prog.Ensures fun a => a.2.transaction = none
    else
      Disc (fun a => a.2.transaction) task.thread.transaction.toList []
          task.prog
        ∧ ReadOnly task.prog := by
  obtain ⟨job, thread⟩ := task
  cases job with
  | disconnect => exact disconnect_plain thread
  | message src msg => exact writerApply_single src msg thread
  | arrival a =>
      cases a with
      | cut b part => exact cut_plain b part thread
      | unknown b =>
          exact ⟨fun _ t ht => Option.mem_toList.mpr ht,
            ⟨by simp, by simp⟩, fun _ => trivial⟩
      | request b r =>
          split
          next h =>
            simp only [Task.atomic, Bool.and_eq_true,
              Option.isNone_iff_eq_none] at h
            exact Request.exec_single h.1 h.2
          next h =>
            rw [Bool.not_eq_true] at h
            exact Request.exec_plain h

end FineDB

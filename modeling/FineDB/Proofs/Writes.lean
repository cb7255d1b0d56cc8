/-
What the writes of a run do to the store.

Once every message is dealt with, the store is the initial one with the
writes of the run applied one by one: a synchronous write by its own
thread, an asynchronous one by the writer. Their order is read off the
linearization, a message standing for the request that sent it
(`writeOf`). It keeps the order in which each connection issued its
writes, with one exception: a synchronous write can come before an
asynchronous one of the same connection that was issued, and answered,
earlier. The asynchronous write is then still in the queue, or in the
writer's hands, when the synchronous one goes straight to LMDB.
-/
import FineDB.Proofs.Queue

namespace FineDB

open Effect Mvcc

variable {zip : Bytes → Bytes} {d₀ : Store} {s : Sys} {lin : List Nat}

/-- SYNC PUT and DEL outside a transaction. -/
def Task.syncWrite (task : Task) : Bool :=
  match task.job with
  | .arrival (.request b (.put _ _)) =>
      task.thread.transaction.isNone && requestHasSync b
  | .arrival (.request b (.del _)) =>
      task.thread.transaction.isNone && requestHasSync b
  | _ => false

/-- The response `RESP_OK` to a write. -/
def isOk {Dbi : Type} : Event (serverSig Dbi) → Bool
  | ⟨.other (.sendmsg bytes), _⟩ =>
      bytes = responseBytes .RESP_OK false false none
  | _ => false

/-- A synchronous write that was answered `RESP_OK`. -/
def syncDone (x : ServerOp) : Bool := x.label.syncWrite && x.trace.any isOk

/-- The request whose write an operation carries out. -/
def writeOf (cfg : ServerCfg) (k : Nat) : Option Nat :=
  (cfg.op k).bind fun x =>
    match x.label.job with
    | .message i _ => some i
    | _ => if syncDone x then some k else none

/-- Request `i` is a synchronous write, answered `RESP_OK`. -/
def SyncWrite (cfg : ServerCfg) (i : Nat) : Prop :=
  ∃ x, cfg.op i = some x ∧ syncDone x = true

/-- The write of request `i` takes the store from `d` to `d'`: the
operation that carries it out, its own or the writer's, has run to its
end and gets the same answers when it runs alone from `d` to `d'`. -/
def Applied (zip : Bytes → Bytes) (cfg : ServerCfg) (i : Nat)
    (d d' : Store) : Prop :=
  ∃ k x a n m, cfg.op k = some x ∧ x.rest = .ret a
    ∧ ((k = i ∧ syncDone x = true)
      ∨ ∃ msg, x.label.job = .message i msg)
    ∧ Alone (serverRules zip) x d n m ∧ m.store = d'

-- ==================================================== refused writes and reads

section Refused

variable {Dbi α β : Type} {p : Server Dbi α}

/-- No commit succeeds on a trace without an answer `RESP_OK`. -/
private def Honest (tr : List (Event (serverSig Dbi))) (_ : α) : Prop :=
  tr.any isOk = false → ∀ e ∈ tr, ¬ Commits e

/-- No commit succeeds in a call that returns an error. -/
private def Refusal (tr : List (Event (serverSig Dbi))) (ret : Yerr) :
    Prop :=
  ret ≠ .YENOERR → ∀ e ∈ tr, ¬ Commits e

private theorem commitless_of_allows
    (hp : p.Calls (Allows true true true none)) :
    p.Calls fun c : (serverSig Dbi).Call => ∀ t, c ≠ .commit t := by
  refine hp.mono fun c hc t => ?_
  rintro rfl
  cases hc

private theorem not_commits {e : Event (serverSig Dbi)}
    (h : ∀ t, e.1 ≠ .commit t) : ¬ Commits e := by
  obtain ⟨c, r⟩ := e
  cases c with
  | commit t => exact absurd rfl (h t)
  | _ => exact id

private theorem honest_of_calls
    (hp : p.Calls fun c : (serverSig Dbi).Call => ∀ t, c ≠ .commit t) :
    p.Traces Honest :=
  hp.traces fun _ _ htr _ e he => not_commits (htr e he)

/-- What comes before without a commit can be left out of account. -/
private theorem honest_bind {f : α → Server Dbi β}
    (hp : p.Calls fun c : (serverSig Dbi).Call => ∀ t, c ≠ .commit t)
    (hf : ∀ a, (f a).Traces Honest) : (p >>= f).Traces Honest := by
  rw [Prog.traces_bind]
  refine hp.traces fun tr a htr => ?_
  rw [Prog.traces_iff]
  intro tr' b hexec hok e he
  rw [List.any_append, Bool.or_eq_false_iff] at hok
  rcases List.mem_append.mp he with he | he
  · exact not_commits (htr e he)
  · exact Prog.traces_iff.mp (hf a) tr' b hexec hok.2 e he

private theorem writeEndOfProcess_refusal (txn : Nat) (retval : Yerr) :
    (writeEndOfProcess none txn retval : Server Dbi _).Traces Refusal := by
  by_cases h : retval = .YENOERR
  · rw [h, writeEndOfProcess_ok]
    intro ok
    cases ok with
    | false => simp [Refusal, Commits]
    | true => exact fun hne => absurd rfl hne
  · rw [writeEndOfProcess_error txn h]
    simp [Refusal, Commits]

/-- The calls of a write up to `end_of_process`. -/
private theorem refusal_call {c : (serverSig Dbi).Call}
    {k : c.Ret → Server Dbi Yerr} (hc : ∀ t, c ≠ .commit t)
    (hk : ∀ r, (k r).Traces Refusal) :
    (Prog.call c k).Traces Refusal := by
  intro r
  rw [Prog.traces_iff]
  intro tr ret hexec hne
  rw [List.forall_mem_cons]
  exact ⟨not_commits hc, Prog.traces_iff.mp (hk r) tr ret hexec hne⟩

private theorem databasePut_refusal (createOnly : Bool)
    (name : Option Bytes) (key data : Bytes) :
    (databasePut none createOnly name key data :
      Server Dbi _).Traces Refusal := by
  refine refusal_call (by simp) fun t => ?_
  cases t with
  | none => simp [Refusal]
  | some txn =>
      refine refusal_call (by simp) fun ret => ?_
      cases ret with
      | refused rc => exact writeEndOfProcess_refusal txn .YEACCESS
      | opened dbi created =>
          exact refusal_call (by simp) fun rc =>
            refusal_call (by simp) fun _ => writeEndOfProcess_refusal txn _

private theorem databaseDel_refusal (name : Option Bytes) (key : Bytes) :
    (databaseDel none name key : Server Dbi _).Traces Refusal := by
  refine refusal_call (by simp) fun t => ?_
  cases t with
  | none => simp [Refusal]
  | some txn =>
      refine refusal_call (by simp) fun ret => ?_
      cases ret with
      | refused rc => exact writeEndOfProcess_refusal txn .YEACCESS
      | opened dbi created =>
          exact refusal_call (by simp) fun rc =>
            refusal_call (by simp) fun _ => writeEndOfProcess_refusal txn _

/-- The answer says whether the write was committed. -/
private theorem sendAnswer_honest {w : Server Dbi Yerr}
    (hw : w.Traces Refusal) :
    (w >>= fun ret => sendAnswer (ret = .YENOERR)).Traces Honest := by
  rw [Prog.traces_bind, Prog.traces_iff]
  intro tr ret hexec rc hok
  rw [List.any_append, Bool.or_eq_false_iff] at hok
  by_cases hret : ret = .YENOERR
  · -- the answer is RESP_OK
    simp [hret, isOk] at hok
  · intro e he
    rcases List.mem_append.mp he with he | he
    · exact Prog.traces_iff.mp hw tr ret hexec hret e he
    · rw [List.mem_singleton.mp he]
      exact id

private theorem honest_map (g : α → β) (hp : p.Traces Honest) :
    (p >>= fun a => pure (g a)).Traces Honest := by
  rw [Prog.traces_bind, Prog.traces_iff]
  intro tr a hexec
  show Honest (tr ++ []) (g a)
  rw [List.append_nil]
  exact Prog.traces_iff.mp hp tr a hexec

private theorem commandError_honest :
    (commandError : Server Dbi _).Traces Honest :=
  honest_of_calls (commitless_of_allows commandError_allows)

private theorem withAlloc_honest {size : Nat} {p : Server Dbi Yerr}
    (hp : p.Traces Honest) : (withAlloc size p).Traces Honest := by
  refine honest_bind (p := env (.ymalloc size)) ⟨by simp, fun _ => trivial⟩
    fun ok => ?_
  cases ok with
  | false => exact commandError_honest
  | true => exact hp

section Synchronous

variable {f : Flags} {thread : TcpThread}

private theorem commandPutExec_honest (hsync : f.sync = true)
    (ht : thread.transaction = none) (name data : Bytes) :
    (commandPutExec false false f thread name data :
      Server Dbi _).Traces Honest := by
  simp only [commandPutExec, immediateResponse, hsync, Bool.true_or,
    if_true]
  refine honest_bind (p := env (.ymalloc _)) ⟨by simp, fun _ => trivial⟩
    fun ok => ?_
  cases ok with
  | false => exact commandError_honest
  | true =>
      refine honest_bind (commitless_of_allows
        (commandPutData_allows ..)) fun data => ?_
      cases data with
      | none => exact commandError_honest
      | some data =>
          simp only [commandPutWrite, if_true]
          rw [commandPutSync_put, ht]
          exact sendAnswer_honest (databasePut_refusal _ _ _ _)

private theorem commandDelExec_honest (hsync : f.sync = true)
    (ht : thread.transaction = none) (key : Bytes) :
    (commandDelExec f thread key : Server Dbi _).Traces Honest := by
  simp only [commandDelExec, immediateResponse, hsync, if_true]
  refine honest_bind (p := env (.ymalloc _)) ⟨by simp, fun _ => trivial⟩
    fun ok => ?_
  cases ok with
  | false => exact commandError_honest
  | true =>
      simp only [if_true, commandDelWrite, ht]
      exact sendAnswer_honest (databaseDel_refusal _ _)

end Synchronous

private theorem get_commitless (b : Byte) (thread : TcpThread)
    (key : Field 2) (ht : thread.transaction = none) :
    (Request.exec b thread (.get key) : Server Dbi _).Calls
      fun c : (serverSig Dbi).Call => ∀ t, c ≠ .commit t := by
  refine Prog.calls_bind (p := withAlloc _ _) ?_ fun _ => trivial
  refine ⟨by simp, fun ok => ?_⟩
  cases ok with
  | false => exact commitless_of_allows commandError_allows
  | true =>
      show (commandGetExec (requestFlags b thread) thread
        key.bytes).Calls _
      unfold commandGetExec
      rw [ht]
      refine Prog.calls_bind ?_ fun ret =>
        commitless_of_allows (commandGetAnswer_allows _ ret)
      refine ⟨by simp, fun t => ?_⟩
      cases t with
      | none => trivial
      | some t =>
          refine ⟨by simp, fun ret => ?_⟩
          cases ret with
          | refused rc =>
              exact ⟨by simp, fun _ => ⟨by simp, fun _ => trivial⟩⟩
          | opened dbi created =>
              exact ⟨by simp, fun _ => ⟨by simp, fun _ => ⟨by simp,
                fun _ => trivial⟩⟩⟩

end Refused

/-- A marked task is a message, a synchronous write, or a GET outside a
transaction. -/
private theorem Task.atomic_cases {task : Task} (h : task.atomic = true) :
    (∃ i msg, task.job = .message i msg) ∨ task.syncWrite = true
      ∨ ∃ b key, task.job = .arrival (.request b (.get key))
          ∧ task.thread.transaction = none := by
  obtain ⟨job, thread⟩ := task
  cases job with
  | disconnect => cases h
  | message i msg => exact Or.inl ⟨i, msg, rfl⟩
  | arrival a =>
      cases a with
      | cut b part => cases h
      | unknown b => cases h
      | request b r =>
          cases r with
          | get key =>
              simp only [Task.atomic, Request.standalone, Bool.and_true,
                Option.isNone_iff_eq_none] at h
              exact Or.inr (Or.inr ⟨b, key, rfl, h⟩)
          | put key data => exact Or.inr (Or.inl h)
          | del key => exact Or.inr (Or.inl h)
          | _ => simp [Task.atomic, Request.standalone] at h

theorem Task.atomic_of_sync {task : Task} (h : task.syncWrite = true) :
    task.atomic = true := by
  unfold Task.syncWrite at h
  unfold Task.atomic
  split at h
  next hjob => simpa only [hjob, Request.standalone] using h
  next hjob => simpa only [hjob, Request.standalone] using h
  next => cases h

theorem writeOf_message {cfg : ServerCfg} {k i : Nat}
    {x : ServerOp} {msg : WriterMsg} (hx : cfg.op k = some x)
    (hjob : x.label.job = .message i msg) : writeOf cfg k = some i := by
  simp [writeOf, hx, hjob]

theorem writeOf_sync {cfg : ServerCfg} {k : Nat} {x : ServerOp}
    (hx : cfg.op k = some x) (hsync : x.label.syncWrite = true)
    (hok : x.trace.any isOk = true) : writeOf cfg k = some k := by
  have hjob : ∀ i msg, x.label.job ≠ .message i msg := by
    intro i msg hjob
    simp [Task.syncWrite, hjob] at hsync
  simp only [writeOf, hx, Option.bind_some, syncDone, hsync, hok,
    Bool.and_true, if_true]

/-- The request an operation stands for. -/
theorem writeOf_eq_some {cfg : ServerCfg} {k i : Nat}
    (h : writeOf cfg k = some i) :
    ∃ x, cfg.op k = some x ∧ ((k = i ∧ syncDone x = true)
      ∨ ∃ msg, x.label.job = .message i msg) := by
  obtain ⟨x, hx, h⟩ := Option.bind_eq_some_iff.mp h
  refine ⟨x, hx, ?_⟩
  split at h
  next j msg hjob =>
    cases h
    exact Or.inr ⟨msg, hjob⟩
  next =>
    split at h
    next hsync =>
      cases h
      exact Or.inl ⟨rfl, hsync⟩
    next => cases h

private theorem requestFlags_sync {b : Byte} (thread : TcpThread)
    (h : requestHasSync b = true) : (requestFlags b thread).sync = true := by
  simp [requestFlags, h]

/-- A synchronous write commits only if it is answered `RESP_OK`. -/
private theorem Task.prog_honest {task : Task}
    (h : task.syncWrite = true) : task.prog.Traces Honest := by
  obtain ⟨job, thread⟩ := task
  unfold Task.syncWrite at h
  split at h
  next b key data hjob =>
    cases hjob
    rw [Bool.and_eq_true, Option.isNone_iff_eq_none] at h
    have hput := @commandPutExec_honest (Option Bytes) _ _
      (requestFlags_sync thread h.2) h.1 key.bytes data.bytes
    refine honest_map _ (withAlloc_honest ?_)
    split
    · exact hput
    · exact withAlloc_honest hput
  next b key hjob =>
    cases hjob
    rw [Bool.and_eq_true, Option.isNone_iff_eq_none] at h
    exact honest_map _ (withAlloc_honest
      (commandDelExec_honest (requestFlags_sync thread h.2) h.1 key.bytes))
  next => cases h

/-- A marked operation that carries out no write leaves the store as it
is: a read, or a synchronous write that was refused. -/
private theorem store_eq_of_none {k : Nat} {x : ServerOp} {d : Store}
    {n : Nat} {m : State Store} (hx : s.cfg.op k = some x)
    (hatomic : x.label.atomic = true) (hnone : writeOf s.cfg k = none)
    (hret : x.label.syncWrite = true → ∃ a, x.rest = .ret a)
    (halone : Alone (serverRules zip) x d n m) : m.store = d := by
  refine exec_store_eq _ ?_ halone
  rcases Task.atomic_cases hatomic with ⟨i, msg, hjob⟩ | hsync | hget
  · rw [writeOf_message hx hjob] at hnone
    cases hnone
  · obtain ⟨a, ha⟩ := hret hsync
    unfold Alone at halone
    rw [ha] at halone
    have hok : x.trace.any isOk = false := by
      rw [← Bool.not_eq_true]
      intro hok
      rw [writeOf_sync hx hsync hok] at hnone
      cases hnone
    exact Prog.traces_iff.mp (Task.prog_honest hsync) _ a
      (exec_trace halone) hok
  · obtain ⟨b, key, hjob, ht⟩ := hget
    have hprog : (serverRules zip).prog x.label
        = Request.exec b x.label.thread (.get key) := by
      simp only [serverRules, Task.prog, hjob]
      rfl
    unfold Alone at halone
    rw [hprog] at halone
    exact fun e he => not_commits
      (exec_calls (get_commitless b _ key ht) halone e he)

-- ============================================================ one by one

/-- The writes of the order, applied one by one. -/
theorem writes_serial (hbook : Bookkeeping s.cfg)
    (hlin : Linearized (serverRules zip) d₀ s.cfg lin)
    (hfin : ∀ k x, s.cfg.op k = some x → x.label.syncWrite = true
      ∨ (∃ i msg, x.label.job = .message i msg) → k ∈ s.cfg.answered) :
    Serial (Applied zip s.cfg) d₀ (lin.filterMap (writeOf s.cfg))
      s.cfg.db.store := by
  refine hlin.serial.filterMap (fun k hk hnone d d' heff => ?_)
    fun k hk i hi d d' heff => ?_
  · obtain ⟨x, n, m, hx, halone, rfl⟩ := heff
    obtain ⟨x', hx', hatomic⟩ := hlin.atomic k hk
    cases hx.symm.trans hx'
    exact store_eq_of_none hx hatomic hnone (fun hsync =>
      hbook.returned k (hfin k x hx (Or.inl hsync)) x hx) halone
  · obtain ⟨x, n, m, hx, halone, hstore⟩ := heff
    obtain ⟨x', hx', hcase⟩ := writeOf_eq_some hi
    cases hx.symm.trans hx'
    have hans : k ∈ s.cfg.answered := by
      refine hfin k x hx ?_
      rcases hcase with ⟨-, hsync⟩ | ⟨msg, hjob⟩
      · exact Or.inl (Bool.and_eq_true _ _ ▸ hsync).1
      · exact Or.inr ⟨i, msg, hjob⟩
    obtain ⟨a, ha⟩ := hbook.returned k hans x hx
    exact ⟨k, x, a, n, m, hx, ha, hcase, halone, hstore⟩

private theorem Task.message_of_sync {task : Task}
    (h : task.syncWrite = true) : task.message zip = none := by
  unfold Task.syncWrite at h
  unfold Task.message
  split at h
  next b key data hjob =>
    rw [Bool.and_eq_true] at h
    simp only [hjob, requestFlags, h.2, Bool.or_true, if_true]
  next b key hjob =>
    rw [Bool.and_eq_true] at h
    simp only [hjob, requestFlags, h.2, Bool.or_true, if_true]
  next => cases h

/-- A synchronous write posts nothing. -/
private theorem not_sends_of_sync {i : Nat} {msg : WriterMsg}
    (h : s.QueueInv zip d₀) (hsync : SyncWrite s.cfg i) :
    ¬ Sends s.cfg i msg := by
  rintro ⟨x, hx, hmem⟩
  obtain ⟨x', hx', hsync⟩ := hsync
  cases hx.symm.trans hx'
  obtain ⟨e, he, -⟩ := (h.posts i x hx).sent msg hmem
  rw [syncDone, Bool.and_eq_true] at hsync
  rw [Task.message_of_sync hsync.1] at he
  cases he

/-- Of two operations of one thread, the one that comes first in a
linearization was invoked first. -/
private theorem lt_of_same_client {k k' : Nat} {x y : ServerOp}
    (hbook : Bookkeeping s.cfg) (hx : s.cfg.op k = some x)
    (hy : s.cfg.op k' = some y) (hclient : x.client = y.client)
    (hne : k ≠ k') (hrt : k' ∉ x.seen) : k < k' := by
  rcases Nat.lt_or_gt_of_ne hne with hlt | hgt
  · exact hlt
  · exact absurd (hbook.sequential k' k y x hy hx hclient.symm hgt) hrt

/-- The order of the writes: each occurs once, and of two writes of one
connection the earlier comes first, or the first is synchronous and the
second was posted. -/
theorem writes_ordered (h : s.QueueInv zip d₀)
    (hlin : Linearized (serverRules zip) d₀ s.cfg lin) :
    (lin.filterMap (writeOf s.cfg)).Pairwise fun i j => i ≠ j
      ∧ ∀ c, Sender s.cfg i c → Sender s.cfg j c →
        i < j ∨ (SyncWrite s.cfg i ∧ ∃ msg, Sends s.cfg j msg) := by
  have hbook := h.base.book
  refine (hlin.nodup.and hlin.realTime).filterMap (writeOf s.cfg)
    fun k k' hkk i hi j hj => ?_
  obtain ⟨hne, hrt⟩ := hkk
  obtain ⟨x, hx, hk⟩ := writeOf_eq_some hi
  obtain ⟨y, hy, hk'⟩ := writeOf_eq_some hj
  have hrt := hrt x hx
  rcases hk with ⟨rfl, hsync⟩ | ⟨msg, hjob⟩
  · rcases hk' with ⟨rfl, hsync'⟩ | ⟨msg', hjob'⟩
    · -- both synchronous: the thread itself runs them in order
      refine ⟨hne, fun c hc hc' => Or.inl ?_⟩
      refine lt_of_same_client hbook hx hy ?_ hne hrt
      exact (Sender.unique ⟨x, hx, rfl⟩ hc).trans
        (Sender.unique hc' ⟨y, hy, rfl⟩)
    · -- a synchronous write before a posted one: the allowed exception
      have hsent := (h.queues.taken k' j msg' ⟨y, hy, hjob'⟩).2.2
      refine ⟨?_, fun _ _ _ => Or.inr ⟨⟨x, hx, hsync⟩, msg', hsent⟩⟩
      rintro rfl
      exact not_sends_of_sync h ⟨x, hx, hsync⟩ hsent
  · obtain ⟨hik, hk0, hsent⟩ := h.queues.taken k i msg ⟨x, hx, hjob⟩
    rcases hk' with ⟨rfl, hsync'⟩ | ⟨msg', hjob'⟩
    · -- the posted write was sent before a later synchronous one ran
      have hij : i ≠ k' := by
        rintro rfl
        exact not_sends_of_sync h ⟨y, hy, hsync'⟩ hsent
      refine ⟨hij, fun c hc hc' => Or.inl ?_⟩
      rcases Nat.lt_or_gt_of_ne hij with hlt | hgt
      · exact hlt
      · obtain ⟨z, hz, hzc⟩ := hc
        have hseen := hbook.sequential k' i y z hy hz
          ((Sender.unique ⟨y, hy, rfl⟩ hc').trans hzc.symm) hgt
        exact absurd (hbook.seen_mono i k z x hz hx hik hseen) hrt
    · -- both posted: the writer takes a sender's messages in order
      obtain ⟨-, hk0', hsent'⟩ :=
        h.queues.taken k' j msg' ⟨y, hy, hjob'⟩
      have hlt : k < k' := by
        refine lt_of_same_client hbook hx hy ?_ hne hrt
        exact (Sender.unique ⟨x, hx, rfl⟩ hk0).trans
          (Sender.unique hk0' ⟨y, hy, rfl⟩)
      have hfifo : ∀ c, Sender s.cfg i c → Sender s.cfg j c → i < j :=
        fun c hc hc' => h.queues.fifo c k k' i j msg msg' ⟨x, hx, hjob⟩
          ⟨y, hy, hjob'⟩ hc hc' hlt
      refine ⟨?_, fun c hc hc' => Or.inl (hfifo c hc hc')⟩
      rintro rfl
      obtain ⟨z, hz, -⟩ := hsent
      exact Nat.lt_irrefl _ (hfifo z.client ⟨z, hz, rfl⟩ ⟨z, hz, rfl⟩)

end FineDB

/-
The session's transaction is live or NULL, and ended exactly once.

What a thread finds in its structure is decided by the tasks it has
done: START leaves the transaction it began (or NULL if it could not),
STOP and the disconnection leave NULL, everything else leaves it alone
(`sessionTxn`). A transaction found there was begun by the thread's
last START, and none of the three tasks that end it came in between
(`Sys.Lives.latest_start`). They end it with their first call and end
nothing else; every other task ends only what it began itself
(`EndsOk`). So no two tasks end the same session transaction, and it is
open when one does (`Sys.Lives.open_of_ending`).

A START that fails leaves NULL and ends the session
(`refusedStart`): no request follows it, only the disconnection. That
is why STOP, which looks at the structure only, can tell whether a START
has succeeded.

The state of a thread is read between its tasks. While START or STOP is
at work its structure can still hold the transaction just ended.
-/
import FineDB.Lib.Lifetime
import FineDB.Proofs.Linearizable
import FineDB.Proofs.Readers

namespace FineDB

open Effect Mvcc

-- ================================================================= the jobs

def Job.isStart : Job → Bool
  | .arrival (.request _ .start) => true
  | _ => false

def Job.isStop : Job → Bool
  | .arrival (.request _ .stop) => true
  | _ => false

/-- The session stops having a transaction, unless a START follows. -/
def Job.stops (job : Job) : Bool := job.isStop || job = .disconnect

/-- The jobs that end the session's transaction. -/
def Job.settles (job : Job) : Bool := job.isStart || job.stops

/-- The session's transaction after a task with the trace `tr`. -/
def Job.txnAfter (tr : List (Event (serverSig (Option Bytes))))
    (old : Option Nat) : Job → Option Nat
  | .arrival (.request _ .start) => (tr.filterMap begun).head?
  | .arrival (.request _ .stop) => none
  | .arrival _ => old
  | .disconnect => none
  | .message _ _ => none

/-- The transaction of a session in which the tasks `l` have been
done. -/
def sessionTxn (l : List ServerOp) : Option Nat :=
  l.foldl (fun txn x => x.label.job.txnAfter x.trace txn) none

/-- Whether the session has seen a START fail, after a task with the
trace `tr`. -/
def Job.refusedAfter (tr : List (Event (serverSig (Option Bytes))))
    (old : Bool) : Job → Bool
  | .arrival (.request _ .start) => (tr.filterMap begun).isEmpty
  | .arrival _ => old
  | .disconnect => false
  | .message _ _ => false

/-- In a session that has done the tasks `l` a START has failed. -/
def refusedStart (l : List ServerOp) : Bool :=
  l.foldl (fun refused x => x.label.job.refusedAfter x.trace refused) false

theorem sessionTxn_snoc (l : List ServerOp) (x : ServerOp) :
    sessionTxn (l ++ [x])
      = x.label.job.txnAfter x.trace (sessionTxn l) := by
  simp [sessionTxn]

theorem refusedStart_snoc (l : List ServerOp) (x : ServerOp) :
    refusedStart (l ++ [x])
      = x.label.job.refusedAfter x.trace (refusedStart l) := by
  simp [refusedStart]

/-- A job is a START, or ends the session's transaction for good, or is
a message, or changes nothing. -/
theorem Job.sorts (job : Job) :
    (∃ b, job = .arrival (.request b .start))
      ∨ (∃ b, job = .arrival (.request b .stop)) ∨ job = .disconnect
      ∨ (∃ src msg, job = .message src msg)
      ∨ (job.settles = false ∧ (∃ arr, job = .arrival arr)
          ∧ ∀ tr txn refused, job.txnAfter tr txn = txn
              ∧ job.refusedAfter tr refused = refused) := by
  cases job with
  | disconnect => simp
  | message src msg => simp
  | arrival arr =>
      cases arr with
      | cut b part => simp [Job.settles, Job.stops, Job.isStart,
          Job.isStop, Job.txnAfter, Job.refusedAfter]
      | unknown b => simp [Job.settles, Job.stops, Job.isStart,
          Job.isStop, Job.txnAfter, Job.refusedAfter]
      | request b r =>
          cases r <;> simp [Job.settles, Job.stops, Job.isStart,
            Job.isStop, Job.txnAfter, Job.refusedAfter]

/-- What a finished task leaves. -/
structure Task.Leaves (task : Task)
    (tr : List (Event (serverSig (Option Bytes))))
    (a : Yerr × TcpThread) : Prop where
  transaction : a.2.transaction
    = task.job.txnAfter tr task.thread.transaction
  ends : task.job.settles = true →
    tr.filterMap (fun e => e.1.ending) = task.thread.transaction.toList
  start : task.job.isStart = true →
    ∃ txn : Option Nat, tr.filterMap begun = txn.toList
      ∧ (a.1 = .YENOERR ↔ txn.isSome = true)
  stop : task.job.isStop = true →
    (a.1 = .YENOERR ↔ task.thread.transaction.isSome = true)
      ∧ tr.filterMap response = [responseBytes
          (if task.thread.transaction.isSome then .RESP_OK
            else .RESP_ERR_TRANSACTION) false false none]
  fd : (∃ arr, task.job = .arrival arr) → a.2.fd = task.thread.fd

theorem traces_of_ensures {S : Signature} {α : Type} {Q : α → Prop}
    {p : Prog S α} (h : p.Ensures Q) : p.Traces fun _ a => Q a :=
  Prog.traces_iff.mpr fun _ _ hexec => h.of_exec hexec

/-- A request that is neither START nor STOP, a cut one, or an unknown
command. -/
private theorem leaves_of_unchanged {arr : Arrival} {thread : TcpThread}
    (hstart : Job.isStart (.arrival arr) = false)
    (hstop : Job.isStop (.arrival arr) = false)
    (h : (arr.exec thread).Ensures fun a =>
      a.2.transaction = thread.transaction) :
    (Task.prog ⟨.arrival arr, thread⟩).Traces
      (Task.Leaves ⟨.arrival arr, thread⟩) := by
  have hsettles : Job.settles (.arrival arr) = false := by
    simp [Job.settles, Job.stops, hstart, hstop]
  refine Prog.traces_iff.mpr fun tr a hexec => ?_
  constructor
  · rcases Job.sorts (.arrival arr) with ⟨b, hb⟩ | ⟨b, hb⟩ | hb
      | ⟨_, _, hb⟩ | ⟨-, -, hsame⟩
    · rw [hb] at hstart
      cases hstart
    · rw [hb] at hstop
      cases hstop
    · cases hb
    · cases hb
    · rw [(hsame tr thread.transaction false).1]
      exact h.of_exec hexec
  · intro hs
    rw [hsettles] at hs
    cases hs
  · intro hs
    rw [hstart] at hs
    cases hs
  · intro hs
    rw [hstop] at hs
    cases hs
  · intro _
    exact (Arrival.exec_fd arr thread).of_exec hexec

private theorem start_leaves (b : Byte) (thread : TcpThread) :
    (Task.prog ⟨.arrival (.request b .start), thread⟩).Traces
      (Task.Leaves ⟨.arrival (.request b .start), thread⟩) := by
  obtain ⟨fd, dbname, transaction⟩ := thread
  cases transaction with
  | none =>
      intro txn
      cases txn with
      | none => exact fun rc => ⟨rfl, fun _ => rfl, fun _ =>
          ⟨none, rfl, by simp⟩, fun h => (by cases h), fun _ => rfl⟩
      | some t => exact fun rc => ⟨rfl, fun _ => rfl, fun _ =>
          ⟨some t, rfl, by simp⟩, fun h => (by cases h), fun _ => rfl⟩
  | some u =>
      intro _ txn
      cases txn with
      | none => exact fun rc => ⟨rfl, fun _ => rfl, fun _ =>
          ⟨none, rfl, by simp⟩, fun h => (by cases h), fun _ => rfl⟩
      | some t => exact fun rc => ⟨rfl, fun _ => rfl, fun _ =>
          ⟨some t, rfl, by simp⟩, fun h => (by cases h), fun _ => rfl⟩

private theorem stop_leaves (b : Byte) (thread : TcpThread) :
    (Task.prog ⟨.arrival (.request b .stop), thread⟩).Traces
      (Task.Leaves ⟨.arrival (.request b .stop), thread⟩) := by
  obtain ⟨fd, dbname, transaction⟩ := thread
  cases transaction with
  | none => exact fun rc => ⟨rfl, fun _ => rfl, fun h => (by cases h),
      fun _ => ⟨by simp, rfl⟩, fun _ => rfl⟩
  | some t => exact fun _ rc => ⟨rfl, fun _ => rfl, fun h => (by cases h),
      fun _ => ⟨by simp, rfl⟩, fun _ => rfl⟩

private theorem disconnect_leaves {thread : TcpThread}
    (hfd : thread.fd ≠ -1) :
    (Task.prog ⟨.disconnect, thread⟩).Traces
      (Task.Leaves ⟨.disconnect, thread⟩) := by
  obtain ⟨fd, dbname, transaction⟩ := thread
  simp only [Task.prog, connectionThreadDisconnect, if_neg hfd]
  cases transaction with
  | none => exact fun _ => ⟨rfl, fun _ => rfl, fun h => (by cases h),
      fun h => (by cases h), fun h => (by rcases h with ⟨_, ⟨⟩⟩)⟩
  | some t => exact fun _ _ => ⟨rfl, fun _ => rfl, fun h => (by cases h),
      fun h => (by cases h), fun h => (by rcases h with ⟨_, ⟨⟩⟩)⟩

theorem Task.leaves (task : Task)
    (hfd : task.job = .disconnect → task.thread.fd ≠ -1) :
    task.prog.Traces task.Leaves := by
  obtain ⟨job, thread⟩ := task
  cases job with
  | disconnect => exact disconnect_leaves (hfd rfl)
  | message src msg =>
      refine Prog.traces_iff.mpr fun tr a hexec => ?_
      have hnone : (Task.prog ⟨.message src msg, thread⟩).Ensures
          fun a => a.2.transaction = none :=
        Prog.ensures_bind.mpr ((Prog.ensures_true _).mono fun _ _ => rfl)
      exact ⟨hnone.of_exec hexec, fun h => (by cases h),
        fun h => (by cases h), fun h => (by cases h), fun ⟨_, h⟩ => (by cases h)⟩
  | arrival arr =>
      cases arr with
      | cut b part =>
          exact leaves_of_unchanged rfl rfl (cut_transaction b part thread)
      | unknown b => exact leaves_of_unchanged rfl rfl fun _ => rfl
      | request b r =>
          by_cases hstart : r = .start
          · rw [hstart]
            exact start_leaves b thread
          by_cases hstop : r = .stop
          · rw [hstop]
            exact stop_leaves b thread
          refine leaves_of_unchanged ?_ ?_
            (Request.exec_transaction hstart hstop)
          · cases r with
            | start => exact absurd rfl hstart
            | _ => rfl
          · cases r with
            | stop => exact absurd rfl hstop
            | _ => rfl

-- ================================================================= the ends

/-- The transaction a single-transaction program has. -/
def handle : Phase → Option Nat
  | .idle => none
  | .rd t => some t
  | .wr t => some t
  | .ended t => some t

/-- A task may end the session's transaction if it is one of the three
that settle it, its own if it is atomic. -/
def EndsBy (x : ServerOp) (t : Nat) : Prop :=
  (x.label.job.settles = true ∧ x.label.thread.transaction = some t)
    ∨ (x.label.atomic = true ∧ t ∈ x.begins)

/-- A task has ended only what it may, and so will its next call. -/
structure EndsOk (x : ServerOp) : Prop where
  ends : ∀ t ∈ x.ends, EndsBy x t
  rest :
    if x.label.atomic then
      ∃ ph, SingleTxn ph x.rest ∧ ∀ t, handle ph = some t → t ∈ x.begins
    else (x.label.job.settles = true ∧ x.trace = []
        ∧ x.rest = x.label.prog)
      ∨ x.rest.Calls fun c => TxnCall.ending c = none

/-- A task that settles the session's transaction ends it first, if it
ends it at all, and nothing else. -/
theorem Task.first_call (task : Task) (h : task.job.settles = true)
    {cl : (serverSig (Option Bytes)).Call}
    {k : cl.Ret → Store.Server (Yerr × TcpThread)}
    (hprog : task.prog = .call cl k) :
    (∀ t, cl.ending = some t → task.thread.transaction = some t)
      ∧ ∀ r, (k r).Calls fun c => TxnCall.ending c = none := by
  obtain ⟨job, fd, dbname, transaction⟩ := task
  have hnone : ∀ {p : Store.Server (Yerr × TcpThread)} {live : List Nat},
      p.Calls (TxnCall.Through live) →
        p.Calls fun c => TxnCall.ending c = none :=
    fun hp => hp.mono fun _ hc => hc.ending_eq
  cases job with
  | message src msg => cases h
  | disconnect =>
      simp only [Task.prog, connectionThreadDisconnect] at hprog
      split at hprog
      · cases hprog
      · cases transaction with
        | none =>
            cases hprog
            exact ⟨fun t ht => (by cases ht), fun _ => trivial⟩
        | some u =>
            cases hprog
            exact ⟨fun t ht => ht, fun _ => ⟨rfl, fun _ => trivial⟩⟩
  | arrival arr =>
      cases arr with
      | cut b part => cases h
      | unknown b => cases h
      | request b r =>
          cases r with
          | start =>
              have hbegun : ∀ txn : Option Nat,
                  (if txn = none then do
                      return (← transactionError,
                        ⟨fd, dbname, txn⟩)
                    else do
                      let _ ← connectionSendOk
                      return (.YENOERR, ⟨fd, dbname, txn⟩) :
                    Store.Server (Yerr × TcpThread)).Calls
                      fun c => TxnCall.ending c = none := by
                intro txn
                cases txn with
                | none => exact ⟨rfl, fun _ => trivial⟩
                | some t => exact ⟨rfl, fun _ => trivial⟩
              cases transaction with
              | none =>
                  cases hprog
                  exact ⟨fun t ht => (by cases ht), hbegun⟩
              | some u =>
                  cases hprog
                  exact ⟨fun t ht => ht, fun _ => ⟨rfl, hbegun⟩⟩
          | stop =>
              cases transaction with
              | none =>
                  cases hprog
                  exact ⟨fun t ht => (by cases ht), fun _ => trivial⟩
              | some u =>
                  cases hprog
                  exact ⟨fun t ht => ht, fun _ => ⟨rfl, fun _ => trivial⟩⟩
          | ping => cases h
          | get key => cases h
          | del key => cases h
          | put key data => cases h
          | setdb name => cases h

/-- Every other task outside its own transaction ends nothing. -/
theorem Task.ends_nothing (task : Task) (hatomic : task.atomic = false)
    (h : task.job.settles = false) :
    task.prog.Calls fun c => TxnCall.ending c = none := by
  obtain ⟨job, thread⟩ := task
  cases job with
  | message src msg => cases hatomic
  | disconnect => cases h
  | arrival arr =>
      cases arr with
      | unknown b => exact ⟨rfl, fun _ => trivial⟩
      | cut b part =>
          refine Prog.calls_bind ?_ fun _ => trivial
          have hcalls : (cutExec b part thread : Store.Server _).Calls
              (TxnCall.Through []) := through_of_allows (cutExec_allows b part)
          exact hcalls.mono fun _ hc => hc.ending_eq
      | request b r =>
          have hstart : r ≠ .start := by
            rintro rfl
            cases h
          have hstop : r ≠ .stop := by
            rintro rfl
            cases h
          exact (Request.exec_allows hstart hstop fun _ _ => rfl).mono
            fun _ hc => (hc.through (Request.txn_of_plain hatomic)).ending_eq

theorem Job.settles_not_atomic {task : Task}
    (h : task.job.settles = true) : task.atomic = false := by
  obtain ⟨job, thread⟩ := task
  cases job with
  | message src msg => cases h
  | disconnect => rfl
  | arrival arr =>
      cases arr with
      | cut b part => rfl
      | unknown b => rfl
      | request b r =>
          cases r with
          | start => simp [Task.atomic, Request.standalone]
          | stop => simp [Task.atomic, Request.standalone]
          | ping => cases h
          | get key => cases h
          | del key => cases h
          | put key data => cases h
          | setdb name => cases h

theorem EndsOk.new (c : Nat) (task : Task) (seen : List Nat) :
    EndsOk ⟨c, task, task.prog, [], [], seen⟩ where
  ends t ht := by cases ht
  rest := by
    have hdisc := Task.disciplined task
    cases hatomic : task.atomic with
    | true =>
        rw [hatomic] at hdisc
        exact ⟨.idle, hdisc.1, fun t ht => by cases ht⟩
    | false =>
        cases hset : task.job.settles with
        | true => exact Or.inl ⟨rfl, rfl, rfl⟩
        | false => exact Or.inr (task.ends_nothing hatomic hset)

/-- The pending call of a task ends only what the task may end; a
settling task has not made a call before. -/
theorem EndsOk.pending {x : ServerOp} (h : EndsOk x)
    {cl : (serverSig (Option Bytes)).Call}
    {k : cl.Ret → Store.Server (Yerr × TcpThread)}
    (hrest : x.rest = .call cl k) {t : Nat} (ht : cl.ending = some t) :
    (x.label.job.settles = true ∧ x.label.thread.transaction = some t
        ∧ x.trace = [])
      ∨ (x.label.atomic = true ∧ t ∈ x.begins) := by
  have hr := h.rest
  split at hr
  next hatomic =>
    obtain ⟨ph, hsingle, hbegun⟩ := hr
    rw [hrest] at hsingle
    refine Or.inr ⟨hatomic, hbegun t ?_⟩
    cases cl with
    | commit u =>
        cases ht
        rw [hsingle.1]
        rfl
    | abort u =>
        cases ht
        rcases hsingle.1 with h | h | h
        · rw [h]
          rfl
        · rw [h]
          rfl
        · rw [h]
          rfl
    | txnBegin rdonly => cases ht
    | access u a => cases ht
    | other l => cases ht
  next =>
    rcases hr with ⟨hset, htrace, hprog⟩ | hcalls
    · have hcall := x.label.first_call hset (hprog.symm.trans hrest)
      exact Or.inl ⟨hset, hcall.1 t ht, htrace⟩
    · rw [hrest] at hcalls
      rw [hcalls.1] at ht
      cases ht

/-- The phase after a call, and what it has begun. -/
private theorem single_step {x : ServerOp} {ph : Phase}
    {cl : (serverSig (Option Bytes)).Call}
    {k : cl.Ret → Store.Server (Yerr × TcpThread)}
    (h : SingleTxn ph (.call cl k)) (r : cl.Ret)
    (hbegun : ∀ t, handle ph = some t → t ∈ x.begins) :
    ∃ ph', SingleTxn ph' (k r) ∧ ∀ t, handle ph' = some t →
      t ∈ x.begins ++ (begun ⟨cl, r⟩).toList := by
  have hkeep : ∀ t, handle ph = some t →
      t ∈ x.begins ++ (begun (⟨cl, r⟩ : Event (serverSig _))).toList :=
    fun t ht => List.mem_append_left _ (hbegun t ht)
  cases cl with
  | txnBegin rdonly =>
      cases r with
      | none => exact ⟨.idle, h.2.1, fun t ht => by cases ht⟩
      | some u =>
          refine ⟨.opened rdonly u, h.2.2 u, fun t ht => ?_⟩
          have htu : t = u := by
            cases rdonly with
            | true => cases ht; rfl
            | false => cases ht; rfl
          rw [htu]
          exact List.mem_append_right _ (List.mem_singleton_self u)
  | commit u =>
      refine ⟨.ended u, h.2 r, fun t ht => hkeep t ?_⟩
      rw [h.1]
      exact ht
  | abort u =>
      refine ⟨.ended u, h.2, fun t ht => hkeep t ?_⟩
      rcases h.1 with h | h | h
      · rw [h]
        exact ht
      · rw [h]
        exact ht
      · rw [h]
        exact ht
  | access u a => exact ⟨ph, h.2 r, hkeep⟩
  | other l => exact ⟨ph, h r, hkeep⟩

theorem EndsOk.call {x : ServerOp} (h : EndsOk x)
    {cl : (serverSig (Option Bytes)).Call}
    {k : cl.Ret → Store.Server (Yerr × TcpThread)}
    (hrest : x.rest = .call cl k) (o : Outcome) (r : cl.Ret) :
    EndsOk (x.after o ⟨cl, r⟩ (k r)) where
  ends t ht := by
    have hmono : EndsBy x t → EndsBy (x.after o ⟨cl, r⟩ (k r)) t := by
      intro hby
      rcases hby with hby | ⟨hatomic, hmem⟩
      · exact Or.inl hby
      · refine Or.inr ⟨hatomic, ?_⟩
        rw [Op.begins_after]
        exact List.mem_append_left _ hmem
    rw [Op.ends_after, List.mem_append, Option.mem_toList] at ht
    rcases ht with ht | ht
    · exact hmono (h.ends t ht)
    · rcases h.pending hrest ht with ⟨hset, htxn, -⟩ | hown
      · exact hmono (Or.inl ⟨hset, htxn⟩)
      · exact hmono (Or.inr hown)
  rest := by
    have hr := h.rest
    rw [hrest] at hr
    show if x.label.atomic then _ else _
    split at hr
    next hatomic =>
      obtain ⟨ph, hsingle, hbegun⟩ := hr
      rw [if_pos hatomic, Op.begins_after]
      exact single_step hsingle r hbegun
    next hatomic =>
      rw [if_neg hatomic]
      rcases hr with ⟨hset, -, hprog⟩ | hcalls
      · exact Or.inr ((x.label.first_call hset hprog.symm).2 r)
      · exact Or.inr (hcalls.2 r)

-- ============================================================== the sessions

/-- Task `i` is a START of thread `c` that began `t`. -/
def Started (cfg : ServerCfg) (i c t : Nat) : Prop :=
  ∃ x, cfg.op i = some x ∧ x.client = c ∧ x.label.job.isStart = true
    ∧ t ∈ x.begins

/-- No task of thread `c` after `i` and before `n` has a job in `p`. -/
def NoneSince (cfg : ServerCfg) (p : Job → Bool) (c i n : Nat) : Prop :=
  ∀ j y, i < j → j < n → cfg.op j = some y → y.client = c →
    p y.label.job = false

theorem NoneSince.succ {cfg : ServerCfg} {p : Job → Bool} {c i n : Nat}
    (h : NoneSince cfg p c i n)
    (hn : ∀ y, cfg.op n = some y → y.client = c →
      p y.label.job = false) :
    NoneSince cfg p c i (n + 1) := by
  intro j y hij hjn hy hc
  by_cases hj : j = n
  · subst hj
    exact hn y hy hc
  · exact h j y hij (by omega) hy hc

theorem noneSince_self (cfg : ServerCfg) (p : Job → Bool) (c n : Nat) :
    NoneSince cfg p c n (n + 1) := by
  intro j y hij hjn
  omega

/-- The session's transaction was begun by its last START, and nothing
has settled it since. -/
theorem latest_start {cfg : ServerCfg} {c t : Nat} :
    ∀ {n : Nat}, sessionTxn (cfg.past c n) = some t →
      ∃ i < n, Started cfg i c t ∧ NoneSince cfg Job.settles c i n := by
  intro n
  induction n with
  | zero =>
      intro h
      cases h
  | succ n ih =>
      intro h
      by_cases hc : ∃ x, cfg.op n = some x ∧ x.client = c
      · obtain ⟨x, hx, rfl⟩ := hc
        rw [Cfg.past_succ_self hx, sessionTxn_snoc] at h
        rcases x.label.job.sorts with ⟨b, hb⟩ | ⟨b, hb⟩ | hb
          | ⟨_, _, hb⟩ | ⟨hset, -, hsame⟩
        · rw [hb] at h
          refine ⟨n, Nat.lt_succ_self n, ⟨x, hx, rfl, by rw [hb]; rfl, ?_⟩,
            noneSince_self _ _ _ n⟩
          exact List.mem_of_head? h
        · rw [hb] at h
          cases h
        · rw [hb] at h
          cases h
        · rw [hb] at h
          cases h
        · rw [(hsame _ _ false).1] at h
          obtain ⟨i, hi, hstart, hnone⟩ := ih h
          refine ⟨i, by omega, hstart, hnone.succ fun y hy _ => ?_⟩
          cases hx.symm.trans hy
          exact hset
      · rw [Cfg.past_succ_other fun x hx hcl => hc ⟨x, hx, hcl⟩] at h
        obtain ⟨i, hi, hstart, hnone⟩ := ih h
        exact ⟨i, by omega, hstart,
          hnone.succ fun y hy hcl => absurd ⟨y, hy, hcl⟩ hc⟩

/-- A START has begun a transaction, and no STOP or disconnection has
come since. -/
def StartedSince (cfg : ServerCfg) (c n : Nat) : Prop :=
  ∃ i < n, (∃ t, Started cfg i c t) ∧ NoneSince cfg Job.stops c i n

/-- Then the session has a transaction, or its last START failed. -/
theorem StartedSince.kept {cfg : ServerCfg} {c : Nat}
    (hconn : ∀ i x src msg, cfg.op i = some x → x.client = c →
      x.label.job ≠ .message src msg) :
    ∀ {n : Nat}, StartedSince cfg c n →
      (sessionTxn (cfg.past c n)).isSome = true
        ∨ refusedStart (cfg.past c n) = true := by
  intro n
  induction n with
  | zero =>
      intro ⟨i, hi, _⟩
      omega
  | succ n ih =>
      intro ⟨i, hi, ⟨t, ht⟩, hnone⟩
      -- unless task `n` is the START itself
      have hearlier : ¬ Started cfg n c t → StartedSince cfg c n := by
        intro hn
        have hne : i ≠ n := fun heq => hn (heq ▸ ht)
        exact ⟨i, by omega, ⟨t, ht⟩,
          fun j y hij hjn => hnone j y hij (by omega)⟩
      by_cases hc : ∃ x, cfg.op n = some x ∧ x.client = c
      · obtain ⟨x, hx, rfl⟩ := hc
        have hother : x.label.job.isStart = false →
            StartedSince cfg x.client n ∧ x.label.job.stops = false := by
          intro hstart
          have hn : ¬ Started cfg n x.client t := by
            intro ⟨y, hy, _, hy', _⟩
            cases hx.symm.trans hy
            rw [hstart] at hy'
            cases hy'
          obtain ⟨i', hi', h', hnone'⟩ := hearlier hn
          refine ⟨⟨i', hi', h', hnone'⟩, ?_⟩
          have hne : i ≠ n := fun heq => hn (heq ▸ ht)
          exact hnone n x (by omega) (Nat.lt_succ_self n) hx rfl
        rw [Cfg.past_succ_self hx, sessionTxn_snoc, refusedStart_snoc]
        rcases x.label.job.sorts with ⟨b, hb⟩ | ⟨b, hb⟩ | hb
          | ⟨src, msg, hb⟩ | ⟨hset, -, hsame⟩
        · -- a START: the session has what it began, or it failed
          rw [hb]
          simp only [Job.txnAfter, Job.refusedAfter]
          cases x.trace.filterMap begun with
          | nil => exact Or.inr rfl
          | cons u us => exact Or.inl rfl
        · rw [hb] at hother
          cases (hother rfl).2
        · rw [hb] at hother
          cases (hother rfl).2
        · exact absurd hb (hconn n x src msg hx rfl)
        · rw [(hsame _ _ false).1, (hsame x.trace none _).2]
          simp only [Job.settles, Bool.or_eq_false_iff] at hset
          exact ih (hother hset.1).1
      · rw [Cfg.past_succ_other fun x hx hcl => hc ⟨x, hx, hcl⟩]
        exact ih (hearlier fun ⟨y, hy, hcl, _⟩ => hc ⟨y, hy, hcl⟩)

-- ============================================================= the invariant

/-- What a thread has between its tasks: the transaction they left, and,
if its last START failed, no session to go on with. -/
def Sys.IdleOk (s : Sys) (c : Nat) : Prop :=
  (s.thread c).transaction = sessionTxn (s.cfg.past c s.cfg.count)
    ∧ (refusedStart (s.cfg.past c s.cfg.count) = true →
        s.alive c = false ∧ (s.thread c).fd ≠ -1)

theorem Sys.IdleOk.frame {s s' : Sys} {c : Nat} (h : s.IdleOk c)
    (hthread : s'.thread c = s.thread c) (halive : s'.alive c = s.alive c)
    (hpast : s'.cfg.past c s'.cfg.count = s.cfg.past c s.cfg.count) :
    s'.IdleOk c := by
  unfold Sys.IdleOk
  rw [hthread, halive, hpast]
  exact h

/-- The account of every session's transaction. -/
structure Sys.Lives (zip : Bytes → Bytes) (d₀ : Store) (s : Sys) :
    Prop where
  base : s.Inv zip d₀
  latest : s.cfg.Latest
  tally : Tallied s.cfg
  tasks : ∀ i x, s.cfg.op i = some x → EndsOk x
  jobs : ∀ i x, s.cfg.op i = some x →
    (x.client = 0 ↔ ∃ src msg, x.label.job = .message src msg)
      ∧ (x.client ≠ 0 → x.label.thread.fd ≠ -1)
  leaves : ∀ i x, s.cfg.op i = some x →
    x.rest.Traces fun tr a => x.label.Leaves (x.trace ++ tr) a
  /-- a task started from what the ones before it left -/
  past : ∀ i x, s.cfg.op i = some x →
    x.label.thread.transaction = sessionTxn (s.cfg.past x.client i)
  /-- no request follows a START that failed -/
  unrefused : ∀ i x arr, s.cfg.op i = some x →
    x.label.job = .arrival arr →
    refusedStart (s.cfg.past x.client i) = false
  idle : ∀ c, s.cfg.cur c = none → s.IdleOk c
  once : ∀ i c t, Started s.cfg i c t → EndsOnce s.cfg t

namespace Sys.Lives

variable {zip : Bytes → Bytes} {d₀ : Store} {s s' : Sys}

theorem init : (Sys.init d₀).Lives zip d₀ where
  base := Sys.inv_init zip d₀
  latest := Cfg.latest_init d₀ 0
  tally := Tallied.init d₀ 0
  tasks _ _ h := by cases h
  jobs _ _ h := by cases h
  leaves _ _ h := by cases h
  past _ _ h := by cases h
  unrefused _ _ _ h := by cases h
  idle _ _ := ⟨rfl, fun h => by cases h⟩
  once _ _ _ h := by
    obtain ⟨x, hx, _⟩ := h
    cases hx

/-- Two tasks that found the same transaction: the earlier one did not
settle it. -/
theorem holder_unique (h : s.Lives zip d₀) {i j t : Nat} {x y : ServerOp}
    (hx : s.cfg.op i = some x) (hy : s.cfg.op j = some y)
    (hsx : x.label.job.settles = true)
    (htx : x.label.thread.transaction = some t)
    (hty : y.label.thread.transaction = some t) : j ≤ i := by
  rw [h.past i x hx] at htx
  rw [h.past j y hy] at hty
  obtain ⟨k, hk, ⟨z, hz, hzc, -, hzt⟩, -⟩ := latest_start htx
  obtain ⟨k', hk', ⟨z', hz', hzc', -, hzt'⟩, hnone⟩ := latest_start hty
  obtain rfl := h.tally.once k k' z z' t hz hz' hzt hzt'
  cases hz.symm.trans hz'
  by_contra hlt
  have := hnone i x hk (by omega) hx (hzc.symm.trans hzc')
  rw [hsx] at this
  cases this

/-- The transaction a task found was begun before. -/
theorem begun_of_found (h : s.Lives zip d₀) {i t : Nat} {x : ServerOp}
    (hx : s.cfg.op i = some x)
    (ht : x.label.thread.transaction = some t) :
    ∃ k < i, Started s.cfg k x.client t := by
  rw [h.past i x hx] at ht
  obtain ⟨k, hk, hstart, -⟩ := latest_start ht
  exact ⟨k, hk, hstart⟩

/-- A START is not atomic: what it began no atomic task began. -/
theorem not_own (h : s.Lives zip d₀) {i c t j : Nat} {y : ServerOp}
    (hstart : Started s.cfg i c t) (hy : s.cfg.op j = some y)
    (hatomic : y.label.atomic = true) : t ∉ y.begins := by
  intro hmem
  obtain ⟨x, hx, -, hjob, htx⟩ := hstart
  obtain rfl := h.tally.once i j x y t hx hy htx hmem
  cases hx.symm.trans hy
  have hset : y.label.job.settles = true := by simp [Job.settles, hjob]
  rw [Job.settles_not_atomic hset] at hatomic
  cases hatomic

/-- A session's transaction is open when a call ends it. -/
theorem open_of_ending (h : s.Lives zip d₀) {c i j t : Nat}
    {x : ServerOp} {cl : (serverSig (Option Bytes)).Call}
    {k : cl.Ret → Store.Server (Yerr × TcpThread)}
    (hstart : Started s.cfg i c t) (hx : s.cfg.op j = some x)
    (hrest : x.rest = .call cl k) (ht : cl.ending = some t) :
    (s.cfg.db.txns t).isSome = true := by
  have hbook := h.base.book
  rcases (h.tasks j x hx).pending hrest ht with
    ⟨hset, htxn, htrace⟩ | ⟨hatomic, hmem⟩
  · have honce := h.once i c t hstart
    have hzero : s.cfg.ends t = 0 := by
      by_contra hne
      obtain ⟨j', y, hy, hmem⟩ :=
        (Cfg.ends_pos_iff hbook).mp (Nat.pos_of_ne_zero hne)
      rcases (h.tasks j' y hy).ends t hmem with ⟨hset', htxn'⟩ | ⟨ha, hown⟩
      · have h₁ := h.holder_unique hx hy hset htxn htxn'
        have h₂ := h.holder_unique hy hx hset' htxn' htxn
        obtain rfl : j = j' := by omega
        cases hx.symm.trans hy
        rw [Op.ends, htrace] at hmem
        cases hmem
      · exact h.not_own hstart hy ha hown
    unfold EndsOnce at honce
    rw [hzero] at honce
    split at honce
    next hopen => exact hopen
    next => omega
  · exact absurd hmem (h.not_own hstart hx hatomic)

/-- Calls end only transactions that exist. -/
theorem endsExisting (h : s.Lives zip d₀) (a : Act Outcome Task) :
    EndsExisting (serverRules zip) s.cfg a := by
  cases a with
  | invoke c l => trivial
  | respond c => trivial
  | call c o =>
      intro i x cl k r db t _ hx hrest _ ht
      rcases (h.tasks i x hx).pending hrest ht with ⟨-, htxn, -⟩ | ⟨-, hmem⟩
      · obtain ⟨j, -, y, hy, -, -, hmem⟩ := h.begun_of_found hx htxn
        exact h.tally.begun_lt j y t hy hmem
      · exact h.tally.begun_lt i x t hx hmem

/-- A step changes nothing of what a thread did before the task it is
on. -/
theorem past_eq (h : s.Lives zip d₀) {a : SysAct} {c n : Nat}
    (hn : n ≤ s.cfg.count) (hcur : ∀ i, s.cfg.cur c = some i → n ≤ i)
    (hs : Sys.step zip a s = some s') :
    s'.cfg.past c n = s.cfg.past c n := by
  rcases Sys.step_cfg hs with heq | ⟨b, hcfg⟩
  · rw [heq]
  · exact Cfg.past_step h.base.book hn hcur hcfg

/-- The same for what came before a task. -/
theorem past_eq_of_op (h : s.Lives zip d₀) {a : SysAct} {i : Nat}
    {x : ServerOp} (hx : s.cfg.op i = some x)
    (hs : Sys.step zip a s = some s') :
    s'.cfg.past x.client i = s.cfg.past x.client i :=
  h.past_eq (Nat.le_of_lt (h.base.book.lt_count hx))
    (fun _ hj => h.latest x.client _ i x hj hx rfl) hs

theorem jobs_step (h : s.Lives zip d₀) {a : SysAct}
    (hs : Sys.step zip a s = some s') : ∀ i x, s'.cfg.op i = some x →
      (x.client = 0 ↔ ∃ src msg, x.label.job = .message src msg)
        ∧ (x.client ≠ 0 → x.label.thread.fd ≠ -1) := by
  refine Sys.ops_step h.jobs hs (fun c job hstart => ?_)
    fun _ _ _ _ _ _ _ _ _ _ _ _ _ hJ => hJ
  cases hstart with
  | receive hc hfd halive => simp [hc, hfd]
  | hangup hc hfd => simp [hc, hfd]
  | deliver hq => simp

theorem leaves_step (h : s.Lives zip d₀) {a : SysAct}
    (hs : Sys.step zip a s = some s') : ∀ i x, s'.cfg.op i = some x →
      x.rest.Traces fun tr a => x.label.Leaves (x.trace ++ tr) a := by
  refine Sys.ops_step h.leaves hs (fun c job hstart => ?_) ?_
  · refine Task.leaves _ fun hjob => ?_
    cases hstart with
    | receive hc hfd halive => exact hfd
    | hangup hc hfd => exact hfd
    | deliver hq => cases hjob
  · intro c o i x cl k r db _ _ _ hrest _ hJ
    rw [hrest] at hJ
    have hk := hJ r
    simp only [Op.after, List.append_assoc, List.singleton_append]
    exact hk

theorem past_step (h : s.Lives zip d₀) {a : SysAct}
    (hs : Sys.step zip a s = some s') : ∀ i x, s'.cfg.op i = some x →
      x.label.thread.transaction
        = sessionTxn (s'.cfg.past x.client i) := by
  refine Sys.ops_step (fun i x hx => ?_) hs (fun c job hstart => ?_)
    fun _ _ _ _ _ _ _ _ _ _ _ _ _ hJ => hJ
  · rw [h.past_eq_of_op hx hs]
    exact h.past i x hx
  · have hidle := hstart.idle hs
    rw [h.past_eq (Nat.le_refl _) (fun i hi => ?_) hs]
    · exact (h.idle c hidle).1
    · rw [hidle] at hi
      cases hi

theorem unrefused_step (h : s.Lives zip d₀) {a : SysAct}
    (hs : Sys.step zip a s = some s') : ∀ i x, s'.cfg.op i = some x →
      ∀ arr, x.label.job = .arrival arr →
        refusedStart (s'.cfg.past x.client i) = false := by
  refine Sys.ops_step (fun i x hx arr harr => ?_) hs
    (fun c job hstart arr harr => ?_)
    fun _ _ _ _ _ _ _ _ _ _ _ _ _ hJ => hJ
  · rw [h.past_eq_of_op hx hs]
    exact h.unrefused i x arr hx harr
  · have hidle := hstart.idle hs
    rw [h.past_eq (Nat.le_refl _) (fun i hi => ?_) hs]
    · by_contra hrefused
      rw [Bool.not_eq_false] at hrefused
      have hdead := ((h.idle c hidle).2 hrefused).1
      cases hstart with
      | receive hc hfd halive =>
          rw [hdead] at halive
          cases halive
      | hangup hc hfd => cases harr
      | deliver hq => cases harr
    · rw [hidle] at hi
      cases hi

theorem once_step (h : s.Lives zip d₀) {a : SysAct}
    (hs : Sys.step zip a s = some s') :
    ∀ i c t, Started s'.cfg i c t → EndsOnce s'.cfg t := by
  intro i c t ⟨x', hx', hc, hjob, hmem⟩
  have hbook := h.base.book
  rcases Sys.step_cfg hs with heq | ⟨b, hcfg⟩
  · rw [heq] at hx' ⊢
    exact h.once i c t ⟨x', hx', hc, hjob, hmem⟩
  rcases begins_step hcfg hx' hmem with ⟨y, hy, hty⟩ | ⟨hnext, -, c', o, rfl, hi⟩
  · -- begun before the step
    obtain ⟨z, hz, hzc, hzl⟩ := Cfg.op_step hbook hcfg hy
    cases hz.symm.trans hx'
    have hstart : Started s.cfg i c t :=
      ⟨y, hy, hzc.symm.trans hc, hzl ▸ hjob, hty⟩
    refine (h.once i c t hstart).step hbook (h.tally.begun_lt i y t hy hty)
      ?_ hcfg
    intro c' o j x cl k r db _ _ hx hrest _ ht
    exact h.open_of_ending hstart hx hrest ht
  · -- begun by it
    obtain ⟨j, x, cl, k, r, db, hj, hx, -, hstep, hcfg'⟩ :=
      Cfg.step_call hcfg
    cases hi.symm.trans hj
    rw [hcfg', Cfg.finish_op] at hx'
    simp only [Function.update_self, Option.some.injEq] at hx'
    rw [← hx', Op.begins_after, List.mem_append, Option.mem_toList] at hmem
    rcases hmem with hmem | hmem
    · have := h.tally.begun_lt i x t hx hmem
      omega
    · rw [hcfg']
      exact EndsOnce.of_begun h.tally hbook hx hstep hmem

/-- A job given to one thread leaves the others where they are. -/
private theorem idle_invoke (h : s.Lives zip d₀) {a : SysAct} {c : Nat}
    {task : Task}
    (hcfg : s.cfg.step (serverRules zip) (.invoke c task) = some s'.cfg)
    (hthread : s'.thread = s.thread) (halive : s'.alive = s.alive)
    (hs : Sys.step zip a s = some s') :
    ∀ c', s'.cfg.cur c' = none → s'.IdleOk c' := by
  intro c' hc'
  obtain ⟨hcur, heq⟩ := Cfg.step_invoke hcfg
  have hne : c' ≠ c := by
    rintro rfl
    rw [heq] at hc'
    simp at hc'
  have hidle : s.cfg.cur c' = none := by
    rw [heq] at hc'
    simpa only [Function.update_of_ne hne] using hc'
  refine (h.idle c' hidle).frame (by rw [hthread]) (by rw [halive]) ?_
  have hcount : s'.cfg.count = s.cfg.count + 1 := by rw [heq]
  rw [hcount, Cfg.past_succ_other, h.past_eq (Nat.le_refl _) _ hs]
  · intro i hi
    rw [hidle] at hi
    cases hi
  · intro x hx
    rw [heq] at hx
    simp only [Function.update_self, Option.some.injEq] at hx
    rw [← hx]
    exact hne.symm

/-- What a thread has after a task. -/
private theorem idle_respond (h : s.Lives zip d₀) {c i : Nat}
    {x : ServerOp} {a : Yerr × TcpThread} (hi : s.cfg.cur c = some i)
    (hx : s.cfg.op i = some x) (hrest : x.rest = .ret a) :
    a.2.transaction = sessionTxn (s.cfg.past c s.cfg.count)
      ∧ (refusedStart (s.cfg.past c s.cfg.count) = true →
          a.1 ≠ .YENOERR ∧ a.2.fd ≠ -1) := by
  obtain ⟨y, hy, rfl⟩ := h.base.book.running c i hi
  cases hy.symm.trans hx
  have hpast : s.cfg.past x.client s.cfg.count
      = s.cfg.past x.client i ++ [x] := by
    rw [← Cfg.past_succ_self hx]
    refine Cfg.past_of_le (h.base.book.lt_count hx) fun j y hj hy hc => ?_
    have := h.latest x.client i j y hi hy hc
    omega
  have hleaves := h.leaves i x hx
  rw [hrest, Prog.traces_ret, List.append_nil] at hleaves
  rw [hpast, sessionTxn_snoc, refusedStart_snoc, ← h.past i x hx]
  refine ⟨hleaves.transaction, fun hrefused => ?_⟩
  obtain ⟨hclient, hfd⟩ := h.jobs i x hx
  -- only an arrival leaves a session in which a START has failed
  have harr : ∃ arr, x.label.job = .arrival arr := by
    cases hjob : x.label.job with
    | arrival arr => exact ⟨arr, rfl⟩
    | disconnect =>
        rw [hjob] at hrefused
        cases hrefused
    | message src msg =>
        rw [hjob] at hrefused
        cases hrefused
  have hconn : x.client ≠ 0 := by
    intro h0
    obtain ⟨src, msg, hjob⟩ := hclient.mp h0
    obtain ⟨arr, harr⟩ := harr
    rw [hjob] at harr
    cases harr
  refine ⟨?_, by rw [hleaves.fd harr]; exact hfd hconn⟩
  rcases x.label.job.sorts with ⟨b, hb⟩ | ⟨b, hb⟩ | hb | ⟨_, _, hb⟩
    | ⟨-, -, hsame⟩
  · obtain ⟨txn, htxn, hiff⟩ := hleaves.start (by rw [hb]; rfl)
    rw [hb, Job.refusedAfter, htxn] at hrefused
    cases txn with
    | none => exact fun hok => absurd (hiff.mp hok) (by simp)
    | some t => cases hrefused
  · obtain ⟨arr, harr⟩ := harr
    rw [hb, Job.refusedAfter, h.unrefused i x arr hx harr] at hrefused
    · cases hrefused
    · intro b' heq
      cases heq
  · rw [hb] at hrefused
    cases hrefused
  · rw [hb] at hrefused
    cases hrefused
  · obtain ⟨arr, harr⟩ := harr
    rw [(hsame x.trace none _).2, h.unrefused i x arr hx harr] at hrefused
    cases hrefused

theorem idle_step (h : s.Lives zip d₀) {a : SysAct}
    (hs : Sys.step zip a s = some s') :
    ∀ c, s'.cfg.cur c = none → s'.IdleOk c := by
  cases a with
  | accept c fd =>
      obtain ⟨-, hcur, hfd, rfl⟩ := Sys.step_accept hs
      intro c' hc'
      have hidle := h.idle c' hc'
      by_cases hc : c' = c
      · -- a thread without a descriptor has seen no START fail
        subst hc
        refine ⟨by simpa using hidle.1, fun hrefused => ?_⟩
        exact absurd hfd (hidle.2 hrefused).2
      · exact hidle.frame (Function.update_of_ne hc _ _)
          (Function.update_of_ne hc _ _) rfl
  | receive c arr =>
      obtain ⟨-, cfg, hcfg, rfl⟩ := Sys.step_receive hs
      exact h.idle_invoke hcfg rfl rfl hs
  | hangup c =>
      obtain ⟨-, cfg, hcfg, rfl⟩ := Sys.step_hangup hs
      exact h.idle_invoke hcfg rfl rfl hs
  | deliver c =>
      obtain ⟨src, msg, q, cfg, -, hcfg, rfl⟩ := Sys.step_deliver hs
      exact h.idle_invoke hcfg rfl rfl hs
  | call c o =>
      obtain ⟨cfg, hcfg, rfl⟩ := Sys.step_call hs
      obtain ⟨i, x, cl, k, r, db, -, -, -, -, rfl⟩ := Cfg.step_call hcfg
      intro c' hc'
      rw [Cfg.finish_cur] at hc'
      refine (h.idle c' hc').frame rfl rfl ?_
      rw [Cfg.finish_count]
      refine h.past_eq (Nat.le_refl _) (fun j hj => ?_) hs
      have hcur : s.cfg.cur c' = none := hc'
      rw [hcur] at hj
      cases hj
  | respond c =>
      obtain ⟨i, x, a, cfg, hi, hx, hrest, hcfg, rfl⟩ := Sys.step_respond hs
      obtain ⟨_, _, _, -, -, -, rfl⟩ := Cfg.step_respond hcfg
      intro c' hc'
      by_cases hc : c' = c
      · subst hc
        obtain ⟨htxn, hrefused⟩ := h.idle_respond hi hx hrest
        unfold Sys.IdleOk
        simp only [Function.update_self]
        refine ⟨htxn, fun hr => ⟨?_, (hrefused hr).2⟩⟩
        simpa using (hrefused hr).1
      · simp only [Function.update_of_ne hc] at hc'
        exact (h.idle c' hc').frame (Function.update_of_ne hc _ _)
          (Function.update_of_ne hc _ _) rfl

theorem step (h : s.Lives zip d₀) {a : SysAct}
    (hs : Sys.step zip a s = some s') : s'.Lives zip d₀ where
  base := h.base.step hs
  latest := by
    rcases Sys.step_cfg hs with heq | ⟨b, hcfg⟩
    · rw [heq]
      exact h.latest
    · exact Cfg.latest_step h.latest h.base.book hcfg
  tally := by
    rcases Sys.step_cfg hs with heq | ⟨b, hcfg⟩
    · rw [heq]
      exact h.tally
    · exact h.tally.step (h.endsExisting b) hcfg
  tasks := Sys.ops_step h.tasks hs (fun _ _ _ => EndsOk.new ..)
    fun _ o _ _ _ _ r _ _ _ _ hrest _ hJ => hJ.call hrest o r
  jobs := h.jobs_step hs
  leaves := h.leaves_step hs
  past := h.past_step hs
  unrefused i x arr hx := h.unrefused_step hs i x hx arr
  idle := h.idle_step hs
  once := h.once_step hs

theorem of_run {acts : List SysAct}
    (hrun : Machine.run (Sys.step zip) (Sys.init d₀) acts = some s) :
    s.Lives zip d₀ :=
  Machine.inv_of_run _ (fun _ _ _ h hs => h.step hs) init hrun

-- ================================================================ the claim

variable {c t i : Nat}

/-- Threads that serve connections have no messages. -/
theorem not_message (h : s.Lives zip d₀) {x y : ServerOp} {j : Nat}
    (hx : s.cfg.op i = some x) (hjob : x.label.job.isStart = true)
    (hy : s.cfg.op j = some y) (hc : y.client = x.client) (src : Nat)
    (msg : WriterMsg) : y.label.job ≠ .message src msg := by
  intro hmsg
  have h0 := (h.jobs j y hy).1.mpr ⟨src, msg, hmsg⟩
  rw [hc] at h0
  obtain ⟨src', msg', hx'⟩ := (h.jobs i x hx).1.mp h0
  rw [hx'] at hjob
  cases hjob

/-- Once the tasks that settle it are done, a session's transaction is
kept or has been ended. -/
theorem kept_or_ended (h : s.Lives zip d₀)
    (hstart : Started s.cfg i c t) :
    ∀ {n : Nat}, i < n →
      (∀ j y, j < n → s.cfg.op j = some y → y.client = c →
        ∃ a, y.rest = .ret a) →
      sessionTxn (s.cfg.past c n) = some t ∨ 0 < s.cfg.ends t := by
  obtain ⟨x, hx, rfl, hjob, hmem⟩ := hstart
  intro n
  induction n with
  | zero =>
      intro hi
      omega
  | succ n ih =>
      intro hi hdone
      by_cases hc : ∃ y, s.cfg.op n = some y ∧ y.client = x.client
      · obtain ⟨y, hy, hyc⟩ := hc
        obtain ⟨a, ha⟩ := hdone n y (Nat.lt_succ_self n) hy hyc
        have hleaves := h.leaves n y hy
        rw [ha, Prog.traces_ret, List.append_nil] at hleaves
        rw [← hyc, Cfg.past_succ_self hy, sessionTxn_snoc]
        by_cases hin : i = n
        · -- the START itself
          subst hin
          cases hx.symm.trans hy
          obtain ⟨txn, htxn, -⟩ := hleaves.start hjob
          have htoList : t ∈ txn.toList := by
            rw [← htxn]
            exact hmem
          rcases x.label.job.sorts with ⟨b, hb⟩ | ⟨b, hb⟩ | hb
            | ⟨_, _, hb⟩ | ⟨hset, -, -⟩
          · left
            rw [hb, Job.txnAfter, htxn, Option.mem_toList.mp htoList]
            rfl
          · rw [hb] at hjob
            cases hjob
          · rw [hb] at hjob
            cases hjob
          · rw [hb] at hjob
            cases hjob
          · simp [Job.settles, hjob] at hset
        · rcases ih (by omega) fun j z hj => hdone j z (by omega) with
            hkept | hended
          · rw [← hyc, ← h.past n y hy] at hkept
            cases hset : y.label.job.settles with
            | true =>
                right
                rw [Cfg.ends_pos_iff h.base.book]
                refine ⟨n, y, hy, ?_⟩
                rw [Op.ends, hleaves.ends hset, hkept]
                exact List.mem_singleton_self t
            | false =>
                left
                rw [← h.past n y hy, hkept]
                rcases y.label.job.sorts with ⟨b, hb⟩ | ⟨b, hb⟩ | hb
                  | ⟨src, msg, hb⟩ | ⟨-, -, hsame⟩
                · rw [hb] at hset
                  cases hset
                · rw [hb] at hset
                  cases hset
                · rw [hb] at hset
                  cases hset
                · exact absurd hb (h.not_message hx hjob hy hyc src msg)
                · exact (hsame _ _ false).1
          · exact Or.inr hended
      · rw [Cfg.past_succ_other fun y hy hyc => hc ⟨y, hy, hyc⟩]
        have hin : i ≠ n := by
          rintro rfl
          exact hc ⟨x, hx, rfl⟩
        exact ih (by omega) fun j z hj => hdone j z (by omega)

/-- A session's transaction is ended by a later task of its own thread
that settles it. -/
theorem ended_by (h : s.Lives zip d₀) (hstart : Started s.cfg i c t)
    {j : Nat} {y : ServerOp} (hy : s.cfg.op j = some y)
    (ht : t ∈ y.ends) :
    i < j ∧ y.client = c ∧ y.label.job.settles = true := by
  rcases (h.tasks j y hy).ends t ht with ⟨hset, htxn⟩ | ⟨hatomic, hmem⟩
  · obtain ⟨k, hk, z, hz, hzc, -, hzt⟩ := h.begun_of_found hy htxn
    obtain ⟨x, hx, hxc, -, hxt⟩ := hstart
    obtain rfl := h.tally.once i k x z t hx hz hxt hzt
    cases hx.symm.trans hz
    exact ⟨hk, hzc.symm.trans hxc, hset⟩
  · exact absurd hmem (h.not_own hstart hy hatomic)

theorem ends_le_one (h : s.Lives zip d₀) (hstart : Started s.cfg i c t) :
    s.cfg.ends t ≤ 1 := by
  have honce := h.once i c t hstart
  unfold EndsOnce at honce
  omega

/-- A transaction its session has lost has been ended. -/
theorem ended_of_lost (h : s.Lives zip d₀) (hstart : Started s.cfg i c t)
    (hidle : s.cfg.cur c = none)
    (hlost : (s.thread c).transaction ≠ some t) : s.cfg.ends t = 1 := by
  have hbook := h.base.book
  have hi : i < s.cfg.count := by
    obtain ⟨x, hx, -⟩ := hstart
    exact hbook.lt_count hx
  have hkept := h.kept_or_ended hstart hi fun j y _ hy hc =>
    hbook.returned j (hbook.answered_of_idle hy hc hidle) y hy
  rw [← (h.idle c hidle).1] at hkept
  have hle := h.ends_le_one hstart
  rcases hkept with hkept | hended
  · exact absurd hkept hlost
  · omega

/-- What a session keeps is open and read-only. -/
theorem open_of_kept (h : s.Lives zip d₀) (hidle : s.cfg.cur c = none)
    (hkept : (s.thread c).transaction = some t) :
    ∃ v, s.cfg.db.txns t = some ⟨true, v⟩ := by
  obtain ⟨g, hg⟩ := h.base.machine
  rw [← h.base.kept c] at hkept
  obtain ⟨-, ⟨rdonly, v⟩, hy, hrd⟩ := (hg.clients c).idle hidle t hkept
  cases hrd
  exact ⟨v, hy⟩

/-- A STOP succeeds exactly if a START has since the last one. -/
theorem stop_iff (h : s.Lives zip d₀) {y : ServerOp}
    (hy : s.cfg.op i = some y) (hstop : y.label.job.isStop = true) :
    y.label.thread.transaction.isSome = true
      ↔ StartedSince s.cfg y.client i := by
  have harr : ∃ arr, y.label.job = .arrival arr := by
    cases hjob : y.label.job with
    | arrival arr => exact ⟨arr, rfl⟩
    | disconnect =>
        rw [hjob] at hstop
        cases hstop
    | message src msg =>
        rw [hjob] at hstop
        cases hstop
  obtain ⟨arr, harr⟩ := harr
  rw [h.past i y hy]
  constructor
  · intro hsome
    obtain ⟨t, ht⟩ := Option.isSome_iff_exists.mp hsome
    obtain ⟨k, hk, hstart, hnone⟩ := latest_start ht
    refine ⟨k, hk, ⟨t, hstart⟩, fun j z hkj hji hz hc => ?_⟩
    have hset := hnone j z hkj hji hz hc
    simp only [Job.settles, Bool.or_eq_false_iff] at hset
    exact hset.2
  · intro hsince
    have hconn : ∀ j x src msg, s.cfg.op j = some x →
        x.client = y.client → x.label.job ≠ .message src msg := by
      intro j x src msg hx hc hmsg
      have h0 := (h.jobs j x hx).1.mpr ⟨src, msg, hmsg⟩
      rw [hc] at h0
      obtain ⟨_, _, hjob⟩ := (h.jobs i y hy).1.mp h0
      rw [harr] at hjob
      cases hjob
    rcases hsince.kept hconn with hsome | hrefused
    · exact hsome
    · rw [h.unrefused i y arr hy harr] at hrefused
      cases hrefused

end Sys.Lives

/-- The session transaction is live or NULL. Between its tasks, a
thread's transaction was begun by its last START, is read-only and has
not been ended; a transaction begun by a START is ended once at most,
by a later START, STOP or disconnection of the same thread, and exactly
once if its session does not have it any more; a STOP succeeds exactly
if a START has succeeded since the last STOP or the beginning of the
session. -/
theorem session_transaction (zip : Bytes → Bytes) (d₀ : Store)
    (acts : List SysAct) (s : Sys)
    (hrun : Machine.run (Sys.step zip) (Sys.init d₀) acts = some s) :
    (∀ c t, s.cfg.cur c = none → (s.thread c).transaction = some t →
      (∃ v, s.cfg.db.txns t = some ⟨true, v⟩) ∧ s.cfg.ends t = 0
        ∧ ∃ i < s.cfg.count, Started s.cfg i c t
          ∧ NoneSince s.cfg Job.settles c i s.cfg.count)
    ∧ (∀ i c t, Started s.cfg i c t →
        s.cfg.ends t ≤ 1
        ∧ (∀ j y, s.cfg.op j = some y → t ∈ y.ends →
            i < j ∧ y.client = c ∧ y.label.job.settles = true)
        ∧ (s.cfg.cur c = none → (s.thread c).transaction ≠ some t →
            s.cfg.ends t = 1))
    ∧ ∀ j y a, s.cfg.op j = some y → y.label.job.isStop = true →
        y.rest = .ret a →
        (a.1 = .YENOERR ↔ StartedSince s.cfg y.client j)
        ∧ (y.trace.filterMap response
              = [responseBytes .RESP_OK false false none]
            ↔ StartedSince s.cfg y.client j) := by
  have h := Sys.Lives.of_run hrun
  refine ⟨fun c t hidle hkept => ?_, fun i c t hstart => ?_,
    fun j y a hy hstop hret => ?_⟩
  · obtain ⟨v, hv⟩ := h.open_of_kept hidle hkept
    have hpast := (h.idle c hidle).1
    rw [hkept] at hpast
    obtain ⟨i, hi, hstart, hnone⟩ := latest_start hpast.symm
    refine ⟨⟨v, hv⟩, ?_, i, hi, hstart, hnone⟩
    have honce := h.once i c t hstart
    unfold EndsOnce at honce
    rw [hv] at honce
    simpa using honce
  · exact ⟨h.ends_le_one hstart, fun j y hy ht => h.ended_by hstart hy ht,
      fun hidle hlost => h.ended_of_lost hstart hidle hlost⟩
  · have hleaves := h.leaves j y hy
    rw [hret, Prog.traces_ret, List.append_nil] at hleaves
    obtain ⟨hrc, hresp⟩ := hleaves.stop hstop
    rw [← h.stop_iff hy hstop, hrc, hresp]
    refine ⟨Iff.rfl, ?_⟩
    cases y.label.thread.transaction with
    | none => decide
    | some t => simp

/-- START, START again, STOP, and then a STOP too many. -/
def startStartStopStop : List SysAct :=
  let ok : Outcome := ⟨true, 0, 0⟩
  [.accept 1 5, .receive 1 (.request 0x05 .start)]
  ++ List.replicate 2 (.call 1 ok)
  ++ [.respond 1, .receive 1 (.request 0x05 .start)]
  ++ List.replicate 3 (.call 1 ok)
  ++ [.respond 1, .receive 1 (.request 0x06 .stop)]
  ++ List.replicate 2 (.call 1 ok)
  ++ [.respond 1, .receive 1 (.request 0x06 .stop), .call 1 ok, .respond 1]

/-- Both transactions have been ended, by the second START and by the
first STOP. -/
theorem session_transaction_two_starts :
    ∃ s, Machine.run (Sys.step id) (Sys.init ⟨∅, ∅⟩) startStartStopStop
        = some s
      ∧ Started s.cfg 0 1 0 ∧ Started s.cfg 1 1 1
      ∧ s.cfg.ends 0 = 1 ∧ s.cfg.ends 1 = 1 := by
  have hchecks : (Machine.run (Sys.step id) (Sys.init ⟨∅, ∅⟩)
      startStartStopStop).map (fun s =>
        (s.cfg.resting, (s.thread 1).transaction)) = some (true, none) := by
    decide +kernel
  have hops : ∀ i < 2, ((Machine.run (Sys.step id) (Sys.init ⟨∅, ∅⟩)
      startStartStopStop).bind fun s => s.cfg.op i).map (fun x =>
        (x.client, x.label.job.isStart, x.begins))
      = some (1, true, [i]) := by
    decide +kernel
  obtain ⟨s, hrun, hchecks⟩ := Option.map_eq_some_iff.mp hchecks
  rw [Prod.mk.injEq] at hchecks
  obtain ⟨hrest, hnone⟩ := hchecks
  have hstarted : ∀ i < 2, Started s.cfg i 1 i := by
    intro i hi
    have hop := hops i hi
    rw [hrun, Option.bind_some, Option.map_eq_some_iff] at hop
    obtain ⟨x, hx, hop⟩ := hop
    simp only [Prod.mk.injEq] at hop
    exact ⟨x, hx, hop.1, hop.2.1, by simp [hop.2.2]⟩
  have hidle := (Sys.inv_of_run hrun).book.resting_iff.mp hrest
  have hfirst := hstarted 0 (by decide)
  have hsecond := hstarted 1 (by decide)
  obtain ⟨-, hended, -⟩ :=
    session_transaction id ⟨∅, ∅⟩ startStartStopStop s hrun
  refine ⟨s, hrun, hfirst, hsecond, ?_, ?_⟩
  · exact (hended 0 1 0 hfirst).2.2 (hidle 1) (by rw [hnone]; simp)
  · exact (hended 1 1 1 hsecond).2.2 (hidle 1) (by rw [hnone]; simp)

end FineDB

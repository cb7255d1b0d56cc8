/-
Between START and the next START, STOP or end of the session, a
connection works on the store as it was committed at that START.

START begins a read transaction and leaves it in the thread. While it is
there every request has the SYNC bit forced, so writes go to
`database_put` and `database_del` with that transaction and are refused
by LMDB, and no handler begins, commits or aborts anything. The general
part, a view held by a client, is Lib/Snapshot.lean; this module shows
that the session's requests are such operations (`Reading`) and what a
write makes of a refusal.
-/
import FineDB.Lib.Snapshot
import FineDB.Proofs.Linearizable

namespace FineDB

open Effect Mvcc

variable {zip : Bytes → Bytes} {t : Nat} {v : Store}

-- ============================================= requests in a transaction

/-- What is left of a task only reads through `t`, posts nothing, and
leaves `t` in the thread. -/
structure Reading (t : Nat) (p : Store.Server (Yerr × TcpThread)) :
    Prop where
  calls : p.Calls (Allows true true false (some (some t)))
  kept : p.Ensures fun a => a.2.transaction = some t

theorem Reading.through {p : Store.Server (Yerr × TcpThread)}
    (h : Reading t p) : p.Calls (TxnCall.Through [t]) :=
  h.calls.mono fun _ hc => hc.through
    (Or.inr ⟨t, List.mem_singleton_self t, rfl⟩)

theorem Reading.after {cl : (serverSig (Option Bytes)).Call}
    {k : cl.Ret → Store.Server (Yerr × TcpThread)}
    (h : Reading t (.call cl k)) (r : cl.Ret) : Reading t (k r) :=
  ⟨h.calls.2 r, h.kept r⟩

/-- START and STOP end the view. -/
def Arrival.endsView : Arrival → Bool
  | .request _ .start => true
  | .request _ .stop => true
  | _ => false

private theorem Request.exec_reading {b : Byte} {thread : TcpThread}
    {r : Request} (hstart : r ≠ .start) (hstop : r ≠ .stop)
    (ht : thread.transaction = some t) : Reading t (r.exec b thread) := by
  have hasync : r.async b thread = false := by
    cases r with
    | put key data => simp [Request.async, requestFlags, ht]
    | del key => simp [Request.async, requestFlags, ht]
    | _ => rfl
  have htxn : r.txn b thread = none ∨ r.txn b thread = some (some t) := by
    have hplain : (thread.transaction.isNone && r.standalone b) = false := by
      simp [ht]
    rcases Request.txn_of_plain hplain with h | ⟨u, hu, h⟩
    · exact Or.inl h
    · rw [ht, Option.mem_toList] at hu
      cases hu
      exact Or.inr h
  have hcalls := @Request.exec_allows (Option Bytes) true b thread r
    hstart hstop fun _ _ => rfl
  rw [hasync] at hcalls
  refine ⟨hcalls.mono fun c hc => ?_, ?_⟩
  · rcases htxn with h | h
    · rw [h] at hc
      exact hc.of_none
    · rw [h] at hc
      exact hc
  · refine (Request.exec_transaction hstart hstop).mono fun a ha => ?_
    rw [ha, ht]

theorem Arrival.exec_reading {arr : Arrival} {thread : TcpThread}
    (harr : arr.endsView = false) (ht : thread.transaction = some t) :
    Reading t (arr.exec thread) := by
  cases arr with
  | request b r =>
      refine Request.exec_reading ?_ ?_ ht
      · rintro rfl
        cases harr
      · rintro rfl
        cases harr
  | cut b part =>
      refine ⟨Prog.calls_bind (cutExec_allows b part) fun _ => trivial, ?_⟩
      refine Prog.ensures_bind.mpr (Prog.ensures_bind.mpr
        ((Prog.ensures_true _).mono fun _ _ => ?_))
      refine Prog.ensures_bind.mpr
        ((Prog.ensures_true _).mono fun _ _ => ?_)
      show (if _ then _ else _ : TcpThread).transaction = some t
      split
      · exact ht
      · exact ht
  | unknown b => exact ⟨⟨rfl, fun _ => trivial⟩, fun _ => ht⟩

-- ===================================================== START begins a view

/-- What follows a successful begin only reads through the new
transaction. -/
private def BeginOk (p : Store.Server (Yerr × TcpThread)) : Prop :=
  ∀ rdonly k, p = .call (.txnBegin rdonly) k → ∀ t, Reading t (k (some t))

section Refused

variable {α : Type}

/-- A trace of a write, its accesses answered from the view `v`, shows
one response, an error. -/
private def Refused (zip : Bytes → Bytes) (v : Store)
    (tr : List (Event (serverSig (Option Bytes)))) (_ : α) : Prop :=
  (∀ e ∈ tr, FromView (lmdbSem zip) v e) → ∃ code,
    (code = .RESP_ERR_BAD_NAME ∨ code = .RESP_ERR_SERVER)
      ∧ tr.filterMap response = [responseBytes code false false none]

private theorem put_ne_success (dbi : Option Bytes) (key data : Bytes)
    (nooverwrite : Bool) (o : Outcome) :
    ((lmdbSem zip).access o true (.put dbi key data nooverwrite) v).1
      ≠ MdbRc.success := by
  simp only [lmdbSem, Store.answer, Store.put]
  split
  · split
    · simp
    · simp
  · simp [LmdbCall.exhausted]

private theorem del_ne_success (dbi : Option Bytes) (key : Bytes)
    (o : Outcome) :
    ((lmdbSem zip).access o true (.del dbi key) v).1 ≠ MdbRc.success := by
  simp only [lmdbSem, Store.answer, Store.del]
  split
  · split
    · simp
    · simp
  · simp [LmdbCall.exhausted]

private theorem response_nil
    {tr : List (Event (serverSig (Option Bytes)))}
    {touched : Option (Option Nat)}
    (h : ∀ e ∈ tr, Allows true false true touched e.1) :
    tr.filterMap response = [] := by
  refine List.filterMap_eq_nil_iff.mpr fun e he => ?_
  obtain ⟨c, r⟩ := e
  have hc := h _ he
  cases c with
  | other l =>
      cases l with
      | sendmsg bytes => cases hc
      | _ => rfl
  | _ => rfl

/-- What comes before without a response can be left out of account. -/
private theorem refused_bind {β : Type} {p : Store.Server α}
    {f : α → Store.Server β} (touched : Option (Option Nat))
    (hp : p.Calls (Allows true false true touched))
    (hf : ∀ a, (f a).Traces (Refused zip v)) :
    (p >>= f).Traces (Refused zip v) := by
  rw [Prog.traces_bind]
  refine hp.traces fun tr a htr => ?_
  rw [Prog.traces_iff]
  intro tr' b hexec hfrom
  rw [List.filterMap_append, response_nil htr, List.nil_append]
  exact Prog.traces_iff.mp (hf a) tr' b hexec fun e he =>
    hfrom e (List.mem_append_right _ he)

private theorem commandError_refused :
    (commandError : Store.Server _).Traces (Refused zip v) :=
  fun _ _ => ⟨_, Or.inr rfl, rfl⟩

private theorem withAlloc_refused {size : Nat} {p : Store.Server Yerr}
    (hp : p.Traces (Refused zip v)) :
    (withAlloc size p).Traces (Refused zip v) := by
  refine refused_bind (p := env (.ymalloc size)) none
    ⟨trivial, fun _ => trivial⟩ fun ok => ?_
  cases ok with
  | false => exact commandError_refused
  | true => exact hp

/-- A write whose own calls fail is answered with an error. -/
private theorem sendAnswer_refused {w : Store.Server Yerr}
    (hcalls : w.Calls (Allows true false true (some (some t))))
    (hw : w.Traces fun tr ret =>
      (∀ e ∈ tr, FromView (lmdbSem zip) v e) → ret ≠ .YENOERR) :
    (w >>= fun ret => sendAnswer (ret = .YENOERR)).Traces
      (Refused zip v) := by
  rw [Prog.traces_bind, Prog.traces_iff]
  intro tr ret hexec rc hfrom
  have hret := Prog.traces_iff.mp hw tr ret hexec fun e he =>
    hfrom e (List.mem_append_left _ he)
  have hmute : ∀ e ∈ tr, Allows true false true (some (some t)) e.1 :=
    Prog.traces_iff.mp (hcalls.traces fun tr a htr => htr) tr ret hexec
  have hquiet : tr.filterMap response = [] := response_nil hmute
  refine ⟨_, Or.inl rfl, ?_⟩
  rw [List.filterMap_append, hquiet]
  simp [response, hret]

private theorem databasePut_refused (createOnly : Bool)
    (name : Option Bytes) (key data : Bytes) :
    (databasePut (some t) createOnly name key data :
      Store.Server _).Traces fun tr ret =>
        (∀ e ∈ tr, FromView (lmdbSem zip) v e) → ret ≠ .YENOERR := by
  intro ret
  cases ret with
  | refused rc => simp
  | opened dbi created =>
      intro rc _
      simp only [Prog.bind, writeEndOfProcess_some, Prog.traces_ret]
      intro hfrom
      obtain ⟨o, ho⟩ := hfrom ⟨.access t (.put dbi key data createOnly), rc⟩
        (by simp)
      have hrc : rc ≠ .success := by
        rw [ho]
        exact put_ne_success _ _ _ _ _
      rw [writeRetval_ne hrc]
      simp

private theorem databaseDel_refused (name : Option Bytes) (key : Bytes) :
    (databaseDel (some t) name key : Store.Server _).Traces fun tr ret =>
        (∀ e ∈ tr, FromView (lmdbSem zip) v e) → ret ≠ .YENOERR := by
  intro ret
  cases ret with
  | refused rc => simp
  | opened dbi created =>
      intro rc _
      simp only [Prog.bind, writeEndOfProcess_some, Prog.traces_ret]
      intro hfrom
      obtain ⟨o, ho⟩ := hfrom ⟨.access t (.del dbi key), rc⟩
        (by simp)
      have hrc : rc ≠ .success := by
        rw [ho]
        exact del_ne_success _ _ _
      rw [writeRetval_ne hrc]
      simp

section Synchronous

variable {f : Flags} {thread : TcpThread}

private theorem commandPutExec_refused (hsync : f.sync = true)
    (ht : thread.transaction = some t) (name data : Bytes) :
    (commandPutExec false false f thread name data :
      Store.Server _).Traces (Refused zip v) := by
  simp only [commandPutExec, immediateResponse, hsync, Bool.true_or,
    if_true]
  refine refused_bind (p := env (.ymalloc _)) none
    ⟨trivial, fun _ => trivial⟩ fun ok => ?_
  cases ok with
  | false => exact commandError_refused
  | true =>
      refine refused_bind none (commandPutData_allows ..) fun data => ?_
      cases data with
      | none => exact commandError_refused
      | some data =>
          simp only [commandPutWrite, if_true]
          rw [commandPutSync_put, ht]
          exact sendAnswer_refused (databasePut_allows ..)
            (databasePut_refused _ _ _ _)

private theorem commandDelExec_refused (hsync : f.sync = true)
    (ht : thread.transaction = some t) (key : Bytes) :
    (commandDelExec f thread key : Store.Server _).Traces
      (Refused zip v) := by
  simp only [commandDelExec, immediateResponse, hsync, if_true]
  refine refused_bind (p := env (.ymalloc _)) none
    ⟨trivial, fun _ => trivial⟩ fun ok => ?_
  cases ok with
  | false => exact commandError_refused
  | true =>
      simp only [if_true, commandDelWrite, ht]
      exact sendAnswer_refused (databaseDel_allows ..)
        (databaseDel_refused _ _)

end Synchronous

private theorem refused_map {β : Type} {p : Store.Server α} (g : α → β)
    (hp : p.Traces (Refused zip v)) :
    (p >>= fun a => pure (g a)).Traces (Refused zip v) := by
  rw [Prog.traces_bind, Prog.traces_iff]
  intro tr a hexec
  show Refused zip v (tr ++ []) (g a)
  rw [List.append_nil]
  exact Prog.traces_iff.mp hp tr a hexec

/-- In a transaction of the session, PUT and DEL are answered with an
error. -/
private theorem Arrival.exec_refused {arr : Arrival} {thread : TcpThread}
    (hwrite : arr.isWrite = true) (ht : thread.transaction = some t) :
    (arr.exec thread).Traces (Refused zip v) := by
  have hsync : ∀ b, (requestFlags b thread).sync = true := fun b => by
    simp [requestFlags, ht]
  unfold Arrival.isWrite at hwrite
  split at hwrite
  next b key data =>
    have hput := @commandPutExec_refused zip t v _ _ (hsync b) ht key.bytes
      data.bytes
    refine refused_map _ (withAlloc_refused ?_)
    split
    · exact hput
    · exact withAlloc_refused hput
  next b key =>
    exact refused_map _ (withAlloc_refused
      (commandDelExec_refused (hsync b) ht key.bytes))
  next => cases hwrite

end Refused

-- ============================================================ the session

/-- This step is not the end of connection `c`'s view. -/
def SysAct.keepsView (c : Nat) : SysAct → Bool
  | .receive c' arr => !(decide (c' = c) && arr.endsView)
  | .hangup c' => decide (c' ≠ c)
  | _ => true

/-- Connection `c` has the view `v` in transaction `t`; its tasks from
number `n` on have worked on it. -/
structure Sys.Window (zip : Bytes → Bytes) (d₀ v : Store) (c t n : Nat)
    (s : Sys) : Prop where
  base : s.Inv zip d₀
  conn : c ≠ 0
  view : s.cfg.db.txns t = some ⟨true, v⟩
  idle : s.cfg.cur c = none → s.cfg.kept c = some t
  running : ∀ i x, s.cfg.cur c = some i → s.cfg.op i = some x →
    x.label.atomic = false ∧ Reading t x.rest
  tasks : ∀ i x, s.cfg.op i = some x → n ≤ i → x.client = c →
    x.label.thread.transaction = some t
      ∧ (∃ arr, x.label.job = .arrival arr ∧ arr.endsView = false)
      ∧ Snapped (serverRules zip) v t x

section Window

variable {d₀ : Store} {c n : Nat} {s s' : Sys}

theorem Sys.Window.holds (h : s.Window zip d₀ v c t n) :
    Holds (serverRules zip) s.cfg c t where
  idle := h.idle
  running i x hi hx := by
    obtain ⟨hplain, hreading⟩ := h.running i x hi hx
    exact ⟨hplain, hreading.through, hreading.kept⟩

/-- A task of the session that has not begun. -/
private theorem plain_of_reading {job : Job} {thread : TcpThread}
    {arr : Arrival} (hjob : job = .arrival arr)
    (ht : thread.transaction = some t) :
    Task.atomic ⟨job, thread⟩ = false := by
  subst hjob
  cases arr with
  | request b r => simp [Task.atomic, ht]
  | cut b part => rfl
  | unknown b => rfl

/-- A job taken on by some thread. -/
private theorem Sys.Window.invoke {c' : Nat} {job : Job} {cfg : ServerCfg}
    {queue : Nat → List (Nat × WriterMsg)} (h : s.Window zip d₀ v c t n)
    (hjob : c' = c → ∃ arr, job = .arrival arr ∧ arr.endsView = false)
    (hbase : Sys.Inv zip d₀ { s with cfg := cfg, queue := queue })
    (hs : s.cfg.step (serverRules zip) (.invoke c' ⟨job, s.thread c'⟩)
      = some cfg) :
    Sys.Window zip d₀ v c t n { s with cfg := cfg, queue := queue } := by
  have hbook := h.base.book
  obtain ⟨hcur, rfl⟩ := Cfg.step_invoke hs
  have hkept : c' = c → (s.thread c').transaction = some t := by
    rintro rfl
    rw [← h.base.kept c']
    exact h.idle hcur
  refine ⟨hbase, h.conn, h.view, fun hnone => ?_, fun i x hi hx => ?_,
    fun i x hx hn hc => ?_⟩
  · by_cases hc : c = c'
    · subst hc
      simp at hnone
    · simp only [Function.update_of_ne hc] at hnone
      exact h.idle hnone
  · by_cases hc : c' = c
    · subst hc
      simp only [Function.update_self, Option.some.injEq] at hi
      subst hi
      simp only [Function.update_self, Option.some.injEq] at hx
      subst hx
      obtain ⟨arr, rfl, harr⟩ := hjob rfl
      exact ⟨plain_of_reading rfl (hkept rfl),
        Arrival.exec_reading harr (hkept rfl)⟩
    · simp only [Function.update_of_ne (Ne.symm hc)] at hi
      obtain ⟨y, hy, -⟩ := hbook.running c i hi
      have hne : i ≠ s.cfg.count := Nat.ne_of_lt (hbook.lt_count hy)
      simp only [Function.update_of_ne hne] at hx
      exact h.running i x hi hx
  · by_cases hi : i = s.cfg.count
    · subst hi
      simp only [Function.update_self, Option.some.injEq] at hx
      subst hx
      exact ⟨hkept hc, hjob hc, Snapped.new ..⟩
    · simp only [Function.update_of_ne hi] at hx
      exact h.tasks i x hx hn hc

private theorem Sys.Window.call {c' : Nat} {o : Outcome} {cfg : ServerCfg}
    {queue : Nat → List (Nat × WriterMsg)} (h : s.Window zip d₀ v c t n)
    (hbase : Sys.Inv zip d₀ { s with cfg := cfg, queue := queue })
    (hs : s.cfg.step (serverRules zip) (.call c' o) = some cfg) :
    Sys.Window zip d₀ v c t n { s with cfg := cfg, queue := queue } := by
  have hbook := h.base.book
  obtain ⟨g, hg⟩ := h.base.machine
  have hview := (hg.view_call h.holds h.view hs).1
  refine ⟨hbase, h.conn, hview, ?_, ?_, ?_⟩
  · obtain ⟨i, x, cl, k, r, db, -, -, -, -, rfl⟩ := Cfg.step_call hs
    simpa using h.idle
  · obtain ⟨i, x, cl, k, r, db, hi, hx, hrest, -, rfl⟩ := Cfg.step_call hs
    intro j y hj hy
    simp only [Cfg.finish_cur, Cfg.finish_op] at hj hy
    by_cases hji : j = i
    · subst hji
      simp only [Function.update_self, Option.some.injEq] at hy
      subst hy
      obtain ⟨hplain, hreading⟩ := h.running j x hj hx
      rw [hrest] at hreading
      exact ⟨hplain, hreading.after r⟩
    · simp only [Function.update_of_ne hji] at hy
      exact h.running j y hj hy
  · refine Cfg.ops_step (J := fun i x => n ≤ i → x.client = c → _) h.tasks
      hs (fun _ _ heq => by cases heq) ?_
    rintro c₁ o₁ i x cl k r db heq hi hx hrest hstep hJ hn hc
    cases heq
    obtain ⟨ht, harr, hsnap⟩ := hJ hn hc
    have hcc : c' = c := by
      obtain ⟨y, hy, hyc⟩ := hbook.running c' i hi
      cases hx.symm.trans hy
      exact hyc.symm.trans hc
    subst hcc
    have hthrough := (h.running i x hi hx).2.through
    rw [hrest] at hthrough
    exact ⟨ht, harr, hsnap.after hrest hthrough.1 h.view hstep⟩

theorem Sys.Window.step {a : SysAct} (h : s.Window zip d₀ v c t n)
    (hkeeps : a.keepsView c = true) (hs : Sys.step zip a s = some s') :
    s'.Window zip d₀ v c t n := by
  have hbase := h.base.step hs
  cases a with
  | accept c' fd =>
      obtain ⟨-, -, -, rfl⟩ := Sys.step_accept hs
      exact ⟨hbase, h.conn, h.view, h.idle, h.running, h.tasks⟩
  | receive c' arr =>
      obtain ⟨-, cfg, hcfg, rfl⟩ := Sys.step_receive hs
      refine h.invoke (fun hc => ⟨arr, rfl, ?_⟩) hbase hcfg
      simpa [SysAct.keepsView, hc] using hkeeps
  | hangup c' =>
      obtain ⟨-, cfg, hcfg, rfl⟩ := Sys.step_hangup hs
      exact h.invoke (fun hc => absurd hc (of_decide_eq_true hkeeps)) hbase
        hcfg
  | deliver c' =>
      obtain ⟨src, msg, q, cfg, -, hcfg, rfl⟩ := Sys.step_deliver hs
      exact h.invoke (fun hc => absurd hc.symm h.conn) hbase hcfg
  | call c' o =>
      obtain ⟨cfg, hcfg, rfl⟩ := Sys.step_call hs
      exact h.call hbase hcfg
  | respond c' =>
      obtain ⟨i, x, a, cfg, hi, hx, hrest, hcfg, rfl⟩ := Sys.step_respond hs
      obtain ⟨i', x', a', hi', hx', hrest', rfl⟩ := Cfg.step_respond hcfg
      cases hi'.symm.trans hi
      cases hx'.symm.trans hx
      cases hrest'.symm.trans hrest
      refine ⟨hbase, h.conn, h.view, fun hnone => ?_, fun j y hj hy => ?_,
        h.tasks⟩
      · by_cases hc : c = c'
        · subst hc
          have hkept := (h.running i x hi hx).2.kept
          rw [hrest] at hkept
          exact (Function.update_self ..).trans hkept
        · simp only [Function.update_of_ne hc] at hnone ⊢
          exact h.idle hnone
      · by_cases hc : c = c'
        · subst hc
          simp at hj
        · simp only [Function.update_of_ne hc] at hj
          exact h.running j y hj hy

/-- The begin of START opens the view. -/
private theorem Sys.Window.start {i : Nat} {x : ServerOp} {b : Byte}
    {o : Outcome} {k : Option Nat → Store.Server (Yerr × TcpThread)}
    (h : s.Inv zip d₀) (hbegins : x.rest.Always BeginOk) (hc : c ≠ 0)
    (hcur : s.cfg.running c = some (i, x))
    (hjob : x.label.job = .arrival (.request b .start))
    (hrest : x.rest = .call (.txnBegin true) k) (ho : o.ok = true)
    (hs : Sys.step zip (.call c o) s = some s') :
    s'.Window zip d₀ s.cfg.db.store c s.cfg.db.next s'.cfg.count := by
  have hbase := h.step hs
  obtain ⟨hi, hx⟩ := Cfg.running_eq_some.mp hcur
  obtain ⟨cfg, hcfg, rfl⟩ := Sys.step_call hs
  obtain ⟨i', x', cl, k', r, db, hi', hx', hrest', hstep, rfl⟩ :=
    Cfg.step_call hcfg
  cases hi'.symm.trans hi
  cases hx'.symm.trans hx
  cases hrest'.symm.trans hrest
  obtain ⟨-, -, rfl, rfl⟩ | ⟨hno, -, -⟩ := step_begin hstep
  · refine ⟨hbase, hc, ?_, fun hnone => ?_, fun j y hj hy => ?_,
      fun j y hy hn => ?_⟩
    · simp only [Cfg.finish_db]
      exact Function.update_self ..
    · simp only [Cfg.finish_cur, hi] at hnone
      cases hnone
    · simp only [Cfg.finish_cur, Cfg.finish_op] at hj hy
      cases hj.symm.trans hi
      simp only [Function.update_self, Option.some.injEq] at hy
      subst hy
      refine ⟨?_, hbegins.head true k hrest _⟩
      simp [Op.after, Task.atomic, hjob, Request.standalone]
    · exact absurd (hbase.book.lt_count hy) (Nat.not_lt.mpr hn)
  · exact absurd ho (by rw [show o.ok = false from hno]; simp)

/-- The calls of connection `c` change neither the committed store nor a
queue. -/
private theorem Sys.Window.quiet {o : Outcome}
    (h : s.Window zip d₀ v c t n)
    (hs : Sys.step zip (.call c o) s = some s') :
    s'.cfg.db.store = s.cfg.db.store ∧ s'.queue = s.queue := by
  obtain ⟨g, hg⟩ := h.base.machine
  obtain ⟨cfg, hcfg, rfl⟩ := Sys.step_call hs
  refine ⟨(hg.view_call h.holds h.view hcfg).2 rfl, ?_⟩
  obtain ⟨i, x, cl, k, r, db, hi, hx, hrest, -, -⟩ := Cfg.step_call hcfg
  have hcalls := (h.running i x hi hx).2.calls
  rw [hrest] at hcalls
  have hnone : s.enqueued c o = [] := by
    have hrun : s.cfg.running c = some (i, x) :=
      Cfg.running_eq_some.mpr ⟨hi, hx⟩
    simp only [Sys.enqueued, hrun, hrest]
    cases cl with
    | other l =>
        cases l with
        | nnSend msg => cases hcalls.1
        | _ => rfl
    | _ => rfl
  simp only [hnone, List.append_nil, Function.update_eq_self]

end Window

-- ============================================================ the theorem

/-- Connection `c` has a stable, read-only view `v` in its transaction
`t`, on which its tasks from number `n` on work. -/
structure Sys.StableView (zip : Bytes → Bytes) (v : Store) (c t n : Nat)
    (s : Sys) : Prop where
  /-- the session's transaction is `t`, from request to request -/
  session : ∀ i x, s.cfg.op i = some x → n ≤ i → x.client = c →
    x.label.thread.transaction = some t
      ∧ ∀ a, x.rest = .ret a → a.2.transaction = some t
  /-- every task gets the answers it gets by itself on `v` -/
  answers : ∀ i x, s.cfg.op i = some x → n ≤ i → x.client = c →
    Snapped (serverRules zip) v t x
      ∧ ∀ e ∈ x.trace, FromView (lmdbSem zip) v e
  /-- PUT and DEL are answered with an error -/
  refused : ∀ i x arr a, s.cfg.op i = some x → n ≤ i → x.client = c →
    x.label.job = .arrival arr → arr.isWrite = true → x.rest = .ret a →
    ∃ code, (code = .RESP_ERR_BAD_NAME ∨ code = .RESP_ERR_SERVER)
      ∧ x.trace.filterMap response = [responseBytes code false false none]
  /-- the transaction is open and shows `v` -/
  usable : s.cfg.db.txns t = some ⟨true, v⟩
  /-- whatever the connection does next changes neither the committed
  store nor a queue -/
  quiet : ∀ o s', Sys.step zip (.call c o) s = some s' →
    s'.cfg.db.store = s.cfg.db.store ∧ s'.queue = s.queue

theorem Sys.Window.stable {d₀ : Store} {c n : Nat} {s : Sys}
    (h : s.Window zip d₀ v c t n) : s.StableView zip v c t n := by
  -- a task of the session, as its arrival run by itself on the view
  have htask : ∀ i x, s.cfg.op i = some x → n ≤ i → x.client = c →
      ∃ arr m, x.label.job = .arrival arr
        ∧ Reading t (arr.exec x.label.thread)
        ∧ exec (lmdbSem zip) x.outs (State.viewing v t)
          (arr.exec x.label.thread) = some (x.trace, x.rest, m) := by
    intro i x hx hn hc
    obtain ⟨ht, ⟨arr, hjob, harr⟩, m, hexec, -⟩ := h.tasks i x hx hn hc
    refine ⟨arr, m, hjob, Arrival.exec_reading harr ht, ?_⟩
    simpa only [serverRules, Task.prog, hjob] using hexec
  refine ⟨fun i x hx hn hc => ⟨(h.tasks i x hx hn hc).1, fun a ha => ?_⟩,
    fun i x hx hn hc => ⟨(h.tasks i x hx hn hc).2.2, ?_⟩,
    fun i x arr a hx hn hc hjob hwrite ha => ?_, h.view,
    fun o s' hs => h.quiet hs⟩
  · obtain ⟨arr, m, -, hreading, hexec⟩ := htask i x hx hn hc
    rw [ha] at hexec
    exact hreading.kept.of_exec (exec_trace hexec)
  · obtain ⟨arr, m, -, hreading, hexec⟩ := htask i x hx hn hc
    exact exec_fromView hreading.through (State.viewing_txns v t) hexec
  · obtain ⟨arr', m, hjob', hreading, hexec⟩ := htask i x hx hn hc
    cases hjob.symm.trans hjob'
    have hfrom := exec_fromView hreading.through (State.viewing_txns v t)
      hexec
    rw [ha] at hexec
    exact Prog.traces_iff.mp
      (Arrival.exec_refused hwrite (h.tasks i x hx hn hc).1) x.trace a
      (exec_trace hexec) hfrom

end FineDB

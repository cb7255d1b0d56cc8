/-
What is in the store once the queues are drained.

Every asynchronous write whose `nn_send` succeeded has then been applied
by the writer, once, in the order its connection sent it, with the key,
the data and the database name its request had (`async_writes_applied`).
The name is the one thing that can go wrong: `command_put` and
`command_del` do not check the `strdup` of `thread->dbname`, and a
message without a name is for the main database. So the theorem is about
runs in which no such `strdup` fails, and `async_put_redirected` is a
run in which one does.

With synchronous writes in between, the writes of one connection keep
their order except that a synchronous write overtakes asynchronous ones
still in the queue (`mixed_writes_applied`); `sync_put_overwritten` is a
run in which that loses an acknowledged write.
-/
import FineDB.Proofs.Writes

namespace FineDB

open Effect Mvcc

variable {zip : Bytes → Bytes} {d₀ : Store} {s : Sys} {acts : List SysAct}

-- ========================================================== nothing left to do

/-- No thread that was ever at work is so now, or has messages left. -/
def Sys.idle (s : Sys) : Bool :=
  s.cfg.all fun x =>
    (s.queue x.client).isEmpty && (s.cfg.cur x.client).isNone

theorem Sys.QueueInv.idle_iff (h : s.QueueInv zip d₀) :
    s.idle = true ↔ (∀ c, s.queue c = []) ∧ ∀ c, s.cfg.cur c = none := by
  rw [Sys.idle, h.base.book.all_iff]
  simp only [Bool.and_eq_true, List.isEmpty_iff, Option.isNone_iff_eq_none]
  constructor
  · intro hall
    refine ⟨fun c => ?_, fun c => ?_⟩
    · cases hq : s.queue c with
      | nil => rfl
      | cons b q =>
          have hb := h.queues.queued c b (by rw [hq]; exact List.mem_cons_self)
          obtain ⟨x, hx, rfl⟩ := hb.1
          rw [(hall b.1 x hx).1] at hq
          cases hq
    · cases hc : s.cfg.cur c with
      | none => rfl
      | some i =>
          obtain ⟨x, hx, rfl⟩ := h.base.book.running c i hc
          rw [(hall i x hx).2] at hc
          cases hc
  · intro hall i x _
    exact ⟨hall.1 _, hall.2 _⟩

-- ==================================================== the name of a message

/-- A message that was taken is dealt with once the writer is idle. -/
private theorem answered_of_taken {k i : Nat} {msg : WriterMsg}
    (h : s.QueueInv zip d₀) (hcur : s.cfg.cur 0 = none)
    (htakes : Takes s.cfg k i msg) : k ∈ s.cfg.answered := by
  obtain ⟨-, ⟨x, hx, hc⟩, -⟩ := h.queues.taken k i msg htakes
  exact h.base.book.answered_of_idle hx hc hcur

/-- Once the queues are drained, what was posted is in the order of the
writes. -/
private theorem mem_order_of_sends {lin : List Nat} {i : Nat}
    {msg : WriterMsg} (h : s.QueueInv zip d₀)
    (hlin : Linearized (serverRules zip) d₀ s.cfg lin)
    (hdrained : s.Drained) (hsends : Sends s.cfg i msg) :
    i ∈ lin.filterMap (writeOf s.cfg) := by
  obtain ⟨x, hx, hmem⟩ := hsends
  rcases h.queues.complete x.client i msg ⟨x, hx, hmem⟩ ⟨x, hx, rfl⟩ with
    ⟨k, htakes⟩ | hqueued
  · have hans := answered_of_taken h hdrained.2 htakes
    obtain ⟨y, hy, hjob⟩ := htakes
    refine List.mem_filterMap.mpr ⟨k, ?_, writeOf_message hy hjob⟩
    refine hlin.complete k hans y hy ?_
    simp only [serverRules, Task.atomic, hjob]
  · rw [hdrained.1] at hqueued
    cases hqueued

/-- Connection `c` sends PUT and DEL only, and is alone to do so. -/
def SysAct.oneWriter (c : Nat) : SysAct → Bool
  | .receive c' arr => arr.isWrite == decide (c' = c)
  | _ => true

section OneWriter

variable {c : Nat}

/-- What follows for a task: if it is of connection `c` it starts and
ends in the main database, and if it is a write it is of
connection `c`. -/
private structure WriterTask (zip : Bytes → Bytes) (c : Nat)
    (x : ServerOp) : Prop where
  main : x.client = c → x.label.thread.dbname = none
  stays : x.client = c → x.rest.Ensures fun a => a.2.dbname = none
  mine : x.label.syncWrite = true ∨ (x.label.message zip).isSome = true →
    x.client = c

/-- Neither PUT nor DEL changes the state of the thread. -/
private theorem Arrival.exec_thread {thread : TcpThread} {arr : Arrival}
    (hwrite : arr.isWrite = true) :
    (arr.exec thread).Ensures fun a => a.2 = thread := by
  have hsame : ∀ p : Store.Server Yerr,
      (p >>= fun ret => pure (ret, thread)).Ensures
        fun a => a.2 = thread := fun p =>
    Prog.ensures_bind_pure (Q := fun a : Yerr × TcpThread => a.2 = thread)
      (fun _ => rfl) p
  unfold Arrival.isWrite at hwrite
  split at hwrite
  · exact hsame _
  · exact hsame _
  · cases hwrite

private theorem WriterTask.new {c' : Nat} {job : Job} {thread : TcpThread}
    {seen : List Nat} (hmain : c' = c → thread.dbname = none)
    (hjob : ∀ arr, job = .arrival arr →
      arr.isWrite = decide (c' = c)) :
    WriterTask zip c
      ⟨c', ⟨job, thread⟩, Task.prog ⟨job, thread⟩, [], [], seen⟩ := by
  refine ⟨hmain, fun hc => ?_, fun hwrite => ?_⟩
  · cases job with
    | arrival arr =>
        have hw := hjob arr rfl
        rw [decide_eq_true hc] at hw
        exact (Arrival.exec_thread hw).mono fun a ha => by
          rw [ha]
          exact hmain hc
    | disconnect =>
        refine Prog.ensures_bind.mpr
          ((connectionThreadDisconnect_thread thread).mono fun th hth => ?_)
        show th.dbname = none
        rw [hth]
        split
        · exact hmain hc
        · rfl
    | message i msg =>
        exact Prog.ensures_bind.mpr
          ((Prog.ensures_true (writerApply msg)).mono fun _ _ => rfl)
  · have harr : ∃ arr, job = .arrival arr ∧ arr.isWrite = true := by
      rcases hwrite with hsync | hmsg
      · unfold Task.syncWrite at hsync
        split at hsync
        next hj => exact ⟨_, hj, rfl⟩
        next hj => exact ⟨_, hj, rfl⟩
        next => cases hsync
      · unfold Task.message at hmsg
        split at hmsg
        next hj => exact ⟨_, hj, rfl⟩
        next hj => exact ⟨_, hj, rfl⟩
        next => cases hmsg
    obtain ⟨arr, rfl, hw⟩ := harr
    rw [hjob arr rfl] at hw
    exact of_decide_eq_true hw

/-- The thread of connection `c` stays in the main database. -/
private theorem main_step {a : SysAct} {s' : Sys}
    (hmain : (s.thread c).dbname = none)
    (hstays : ∀ i x, s.cfg.op i = some x → x.client = c →
      x.rest.Ensures fun a => a.2.dbname = none)
    (hbook : Bookkeeping s.cfg) (hs : Sys.step zip a s = some s') :
    (s'.thread c).dbname = none := by
  cases a with
  | accept c' fd =>
      obtain ⟨-, -, -, rfl⟩ := Sys.step_accept hs
      by_cases hc : c = c'
      · subst hc
        simpa using hmain
      · simpa [hc] using hmain
  | receive c' arr =>
      obtain ⟨-, cfg, -, rfl⟩ := Sys.step_receive hs
      exact hmain
  | hangup c' =>
      obtain ⟨-, cfg, -, rfl⟩ := Sys.step_hangup hs
      exact hmain
  | deliver c' =>
      obtain ⟨src, msg, q, cfg, -, -, rfl⟩ := Sys.step_deliver hs
      exact hmain
  | call c' o =>
      obtain ⟨cfg, -, rfl⟩ := Sys.step_call hs
      exact hmain
  | respond c' =>
      obtain ⟨i, x, b, cfg, hi, hx, hrest, -, rfl⟩ := Sys.step_respond hs
      by_cases hc : c = c'
      · subst hc
        obtain ⟨x', hx', hclient⟩ := hbook.running c i hi
        cases hx.symm.trans hx'
        have hb := hstays i x hx hclient
        rw [hrest] at hb
        simpa using hb
      · simpa [hc] using hmain

private theorem oneWriter_of_run
    (hrun : Machine.run (Sys.step zip) (Sys.init d₀) acts = some s)
    (hone : ∀ a ∈ acts, a.oneWriter c = true) :
    ∀ i x, s.cfg.op i = some x → WriterTask zip c x := by
  have halong := Machine.along_of_meets (Sys.step zip)
    (I := fun s => s.Inv zip d₀ ∧ (s.thread c).dbname = none
      ∧ ∀ i x, s.cfg.op i = some x → WriterTask zip c x)
    (Q := fun _ a => a.oneWriter c = true) (s := Sys.init d₀)
    (fun s a s' h hq hs => ?_)
    ⟨Sys.inv_init zip d₀, rfl, fun i x hx => by cases hx⟩
    (Machine.meets_of_forall _ _ hone)
  · exact (halong.last _ hrun).2.2
  · obtain ⟨hinv, hmain, htasks⟩ := h
    refine ⟨hinv.step hs, main_step hmain
      (fun i x hx => (htasks i x hx).stays) hinv.book hs, ?_⟩
    refine Sys.ops_step htasks hs (fun c' job hjob => ?_) ?_
    · refine WriterTask.new (fun hc => hc ▸ hmain) fun arr harr => ?_
      subst harr
      cases hjob
      exact eq_of_beq hq
    · rintro c' o i x cl k r db - - - hrest - hx
      refine ⟨hx.main, fun hc => ?_, hx.mine⟩
      have hstays := hx.stays hc
      rw [hrest] at hstays
      exact hstays r

end OneWriter

/-- In the main database a message is the one its request asks for. -/
private theorem message_eq_of_main {i : Nat} {x : ServerOp}
    {msg : WriterMsg} (h : s.QueueInv zip d₀) (hx : s.cfg.op i = some x)
    (hmain : x.label.thread.dbname = none) (hsends : Sends s.cfg i msg) :
    x.label.message zip = some msg := by
  obtain ⟨x', hx', hmem⟩ := hsends
  cases hx.symm.trans hx'
  obtain ⟨e, he, rfl | ⟨-, rfl⟩⟩ := (h.posts i x hx).sent msg hmem
  · exact he
  · have hnone : e.dbname = none := by
      unfold Task.message at he
      split at he
      · split at he
        · cases he
        · cases he
          exact congrArg (Option.map cString) hmain
      · split at he
        · cases he
        · cases he
          exact congrArg (Option.map cString) hmain
      · cases he
    rw [he, ← hnone]

/-- A connection sends PUT and DEL, synchronous or not, and no other one
writes. When the queues are drained and the connection is idle, the
store is the initial one after the writes of an order: the synchronous
ones answered `RESP_OK` and the asynchronous ones whose `nn_send`
succeeded, each once. A write that comes before another was issued
before it, or is synchronous and the other is not. -/
theorem mixed_writes_applied (zip : Bytes → Bytes) (d₀ : Store) (c : Nat)
    (acts : List SysAct) (s : Sys)
    (hrun : Machine.run (Sys.step zip) (Sys.init d₀) acts = some s)
    (hone : ∀ a ∈ acts, a.oneWriter c = true)
    (hdrained : s.Drained) (hidle : s.cfg.cur c = none) :
    ∃ order : List Nat, order.Nodup
      ∧ (∀ i, i ∈ order ↔ SyncWrite s.cfg i ∨ ∃ msg, Sends s.cfg i msg)
      ∧ order.Pairwise (fun i j =>
          i < j ∨ (SyncWrite s.cfg i ∧ ∃ msg, Sends s.cfg j msg))
      ∧ (∀ i x msg, s.cfg.op i = some x → Sends s.cfg i msg →
          x.label.message zip = some msg)
      ∧ Serial (Applied zip s.cfg) d₀ order s.cfg.db.store := by
  have h := Sys.queueInv_of_run hrun
  obtain ⟨g, hg⟩ := h.base.machine
  have hlin := hg.linearized
  have htask := oneWriter_of_run hrun hone
  have hordered := writes_ordered h hlin
  have hsync : ∀ i x, s.cfg.op i = some x → x.label.syncWrite = true →
      i ∈ s.cfg.answered := fun i x hx hw =>
    h.base.book.answered_of_idle hx ((htask i x hx).mine (Or.inl hw)) hidle
  have hmine : ∀ i ∈ g.lin.filterMap (writeOf s.cfg), Sender s.cfg i c := by
    intro i hi
    obtain ⟨k, -, hk⟩ := List.mem_filterMap.mp hi
    obtain ⟨x, hx, ⟨rfl, hdone⟩ | ⟨msg, hjob⟩⟩ := writeOf_eq_some hk
    · rw [syncDone, Bool.and_eq_true] at hdone
      exact ⟨x, hx, (htask k x hx).mine (Or.inl hdone.1)⟩
    · obtain ⟨y, hy, hmem⟩ := (h.queues.taken k i msg ⟨x, hx, hjob⟩).2.2
      obtain ⟨e, he, -⟩ := (h.posts i y hy).sent msg hmem
      exact ⟨y, hy, (htask i y hy).mine (Or.inr (by rw [he]; rfl))⟩
  refine ⟨g.lin.filterMap (writeOf s.cfg), ?_, fun i => ⟨fun hi => ?_, ?_⟩,
    ?_, ?_, ?_⟩
  · exact hordered.imp fun hij => hij.1
  · obtain ⟨k, -, hk⟩ := List.mem_filterMap.mp hi
    obtain ⟨x, hx, ⟨rfl, hdone⟩ | ⟨msg, hjob⟩⟩ := writeOf_eq_some hk
    · exact Or.inl ⟨x, hx, hdone⟩
    · exact Or.inr ⟨msg, (h.queues.taken k i msg ⟨x, hx, hjob⟩).2.2⟩
  · rintro (⟨x, hx, hdone⟩ | ⟨msg, hsends⟩)
    · rw [syncDone, Bool.and_eq_true] at hdone
      refine List.mem_filterMap.mpr ⟨i, ?_, writeOf_sync hx hdone.1 hdone.2⟩
      exact hlin.complete i (hsync i x hx hdone.1) x hx
        (Task.atomic_of_sync hdone.1)
    · exact mem_order_of_sends h hlin hdrained hsends
  · refine List.Pairwise.imp_of_mem (fun {i j} hi hj hij => ?_) hordered
    exact hij.2 c (hmine i hi) (hmine j hj)
  · intro i x msg hx hsends
    refine message_eq_of_main h hx ((htask i x hx).main ?_) hsends
    obtain ⟨x', hx', hmem⟩ := hsends
    cases hx.symm.trans hx'
    obtain ⟨e, he, -⟩ := (h.posts i x hx).sent msg hmem
    exact (htask i x hx).mine (Or.inr (by rw [he]; rfl))
  · refine writes_serial h.base.book hlin ?_
    rintro k x hx (hw | ⟨i, msg, hjob⟩)
    · exact hsync k x hx hw
    · exact answered_of_taken h hdrained.2 ⟨x, hx, hjob⟩

/-- PUT of `7` under key `1`, asynchronous, then PUT of `8` under the
same key, synchronous; the writer gets to the first one last. -/
def putThenSyncPut : List SysAct :=
  let ok : Outcome := ⟨true, 0, 0⟩
  [.accept 1 5,
    .receive 1 (.request 0x43 (.put (.single 1) (.single 7)))]
  ++ List.replicate 5 (.call 1 ok) ++ [.respond 1,
    .receive 1 (.request 0x53 (.put (.single 1) (.single 8)))]
  ++ List.replicate 9 (.call 1 ok) ++ [.respond 1, .deliver 1]
  ++ List.replicate 5 (.call 0 ok) ++ [.respond 0]

private theorem putThenSyncPut_run :
    ∃ s, Machine.run (Sys.step id) (Sys.init ⟨∅, ∅⟩) putThenSyncPut
        = some s
      ∧ s.Drained ∧ s.cfg.cur 1 = none
      ∧ Sends s.cfg 0 ⟨.writePut, none, [1], [7], false⟩
      ∧ (∃ x, s.cfg.op 1 = some x ∧ syncDone x = true ∧ x.label.job
          = .arrival (.request 0x53
            (.put ⟨[1], by decide⟩ ⟨[8], by decide⟩)))
      ∧ (s.cfg.db.store.get none [1]).toOption = some [7] := by
  have hchecks : (Machine.run (Sys.step id) (Sys.init ⟨∅, ∅⟩)
      putThenSyncPut).map (fun s => (s.idle,
        (s.cfg.op 0).map (fun x => x.trace.filterMap posted),
        (s.cfg.db.store.get none [1]).toOption))
      = some (true, some [⟨.writePut, none, [1], [7], false⟩],
          some [7]) := by
    decide +kernel
  have hsecond : (Machine.run (Sys.step id) (Sys.init ⟨∅, ∅⟩)
      putThenSyncPut).map (fun s => (s.cfg.op 1).map fun x =>
        (syncDone x, x.label.job))
      = some (some (true, .arrival (.request 0x53
          (.put ⟨[1], by decide⟩ ⟨[8], by decide⟩)))) := by
    decide +kernel
  obtain ⟨s, hrun, hchecks⟩ := Option.map_eq_some_iff.mp hchecks
  rw [hrun, Option.map_some, Option.some.injEq,
    Option.map_eq_some_iff] at hsecond
  simp only [Prod.mk.injEq, Option.map_eq_some_iff] at hchecks hsecond
  obtain ⟨hidle, ⟨x, hx, hposted⟩, hget⟩ := hchecks
  have hidle := (Sys.queueInv_of_run hrun).idle_iff.mp hidle
  refine ⟨s, hrun, ⟨hidle.1, hidle.2 0⟩, hidle.2 1, ⟨x, hx, ?_⟩,
    hsecond, hget⟩
  rw [hposted]
  exact List.mem_singleton_self _

theorem mixed_writes_applied_put_then_sync_put :
    ∃ s order, Machine.run (Sys.step id) (Sys.init ⟨∅, ∅⟩) putThenSyncPut
        = some s
      ∧ 0 ∈ order ∧ 1 ∈ order
      ∧ Serial (Applied id s.cfg) ⟨∅, ∅⟩ order s.cfg.db.store := by
  obtain ⟨s, hrun, hdrained, hidle, hsends, ⟨x, hx, hdone, -⟩, -⟩ :=
    putThenSyncPut_run
  obtain ⟨order, -, hmem, -, -, hserial⟩ :=
    mixed_writes_applied id ⟨∅, ∅⟩ 1 putThenSyncPut s hrun
      (by decide +kernel) hdrained hidle
  exact ⟨s, order, hrun, (hmem 0).mpr (Or.inr ⟨_, hsends⟩),
    (hmem 1).mpr (Or.inl ⟨x, hx, hdone⟩), hserial⟩

/-- The synchronous PUT of `8` was issued after the asynchronous PUT of
`7` under the same key and answered `RESP_OK`; with the queues drained
the store has `7`. -/
theorem sync_put_overwritten :
    ∃ s x, Machine.run (Sys.step id) (Sys.init ⟨∅, ∅⟩) putThenSyncPut
        = some s
      ∧ (∀ a ∈ putThenSyncPut, a.oneWriter 1 = true)
      ∧ s.Drained ∧ s.cfg.cur 1 = none
      ∧ Sends s.cfg 0 ⟨.writePut, none, [1], [7], false⟩
      ∧ s.cfg.op 1 = some x ∧ syncDone x = true
      ∧ x.label.job = .arrival (.request 0x53
          (.put ⟨[1], by decide⟩ ⟨[8], by decide⟩))
      ∧ (s.cfg.db.store.get none [1]).toOption = some [7] := by
  obtain ⟨s, hrun, hdrained, hidle, hsends, ⟨x, hx, hdone, hjob⟩, hget⟩ :=
    putThenSyncPut_run
  exact ⟨s, x, hrun, by decide +kernel, hdrained, hidle, hsends, hx, hdone,
    hjob, hget⟩

end FineDB

/-
The whole server: any number of connection threads, the writer thread,
the queues between them, and the store.

Thread 0 is the writer, every other number a connection thread. A
thread works on one task at a time (`Task`): a connection thread on what
arrived on its socket or on its own disconnection, the writer on a
message. The tasks are the operations of Lib/Clients.lean, so their
calls interleave in any order and each has its history; what this
module adds is where tasks come from. A connection thread takes the
next request if the last handler returned no error; the writer takes
the oldest message of any sender, the queue of each sending socket being
first in, first out.

That a connection served without interruption is just such a sequence of
tasks is `serveConnection_eq_decode` (Proofs/Parse.lean) and the
equations of `Stream.exec`.

A message carries in its task the number of the request that sent it.
The code has no such number; no step depends on it.
-/
import FineDB.Lib.Linear
import FineDB.Model.Lmdb
import FineDB.Model.Session

namespace FineDB

open Effect Mvcc

-- ================================================================ tasks

/-- What a connection thread can find on its socket. -/
inductive Arrival
  | request (b : Byte) (r : Request)
  | cut (b : Byte) (part : Bytes)
  | unknown (b : Byte)
deriving DecidableEq

def Arrival.isWrite : Arrival → Bool
  | .request _ (.put _ _) => true
  | .request _ (.del _) => true
  | _ => false

inductive Job
  | arrival (a : Arrival)
  | disconnect
  | message (src : Nat) (msg : WriterMsg)
deriving DecidableEq

/-- A job, and the state of the thread that takes it on. -/
structure Task where
  job : Job
  thread : TcpThread
deriving DecidableEq

abbrev Store.Server (α : Type) := FineDB.Server (Option Bytes) α

/-- What a connection thread does on an arrival. Neither a cut request
nor an unknown command is followed by another. -/
def Arrival.exec (thread : TcpThread) :
    Arrival → Store.Server (Yerr × TcpThread)
  | .request b r => r.exec b thread
  | .cut b part => do
      let thread ← cutExec b part thread
      return (.YECONNRESET, thread)
  | .unknown _ => do
      let _ ← connectionSendError .RESP_ERR_PROTOCOL
      return (.YEACCESS, thread)

def Task.prog (task : Task) : Store.Server (Yerr × TcpThread) :=
  match task.job with
  | .arrival a => a.exec task.thread
  | .disconnect => do
      let thread ← connectionThreadDisconnect task.thread
      return (.YECONNRESET, thread)
  | .message _ msg => do
      -- the writer has no session to keep
      writerApply msg
      return (.YENOERR, connectionThreadNew)

/-- SYNC PUT and DEL, and GET: the requests that use LMDB by
themselves. -/
def Request.standalone (b : Byte) : Request → Bool
  | .get _ => true
  | .put _ _ => requestHasSync b
  | .del _ => requestHasSync b
  | _ => false

/-- The tasks that are to appear atomic: requests that use LMDB outside
a transaction of the session, and messages. -/
def Task.atomic (task : Task) : Bool :=
  match task.job with
  | .arrival (.request b r) =>
      task.thread.transaction.isNone && r.standalone b
  | .message _ _ => true
  | _ => false

/-- The server as clients of the store. A thread keeps its session's
transaction from one task to the next. -/
def serverRules (zip : Bytes → Bytes) :
    Rules (lmdbSig (Option Bytes)) (envSig (Option Bytes)) Store Outcome
      Task (Yerr × TcpThread) where
  sem := lmdbSem zip
  prog := Task.prog
  atomic := Task.atomic
  keep := fun a => a.2.transaction

-- ================================================================ states

abbrev ServerCfg := Cfg (lmdbSig (Option Bytes)) (envSig (Option Bytes))
  Store Outcome Task (Yerr × TcpThread)

abbrev ServerOp := Op (lmdbSig (Option Bytes)) (envSig (Option Bytes))
  Outcome Task (Yerr × TcpThread)

-- ==================================================== what a history shows

abbrev ServerTrace := List (Event (serverSig (Option Bytes)))

/-- The message an event put into a queue. -/
def posted : Event (serverSig (Option Bytes)) → Option WriterMsg
  | ⟨.other (.nnSend msg), sent⟩ => if sent then some msg else none
  | _ => none

/-- The response an event sent. -/
def response {Dbi : Type} : Event (serverSig Dbi) → Option Bytes
  | ⟨.other (.sendmsg bytes), _⟩ => some bytes
  | _ => none

/-- Task `i` is or was thread `c`'s. -/
def Sender (cfg : ServerCfg) (i c : Nat) : Prop :=
  ∃ x, cfg.op i = some x ∧ x.client = c

/-- Task `i` has sent `msg` to the writer. -/
def Sends (cfg : ServerCfg) (i : Nat) (msg : WriterMsg) : Prop :=
  ∃ x, cfg.op i = some x ∧ msg ∈ x.trace.filterMap posted

/-- Task `k` is the writer's, on the message `msg` of task `i`. -/
def Takes (cfg : ServerCfg) (k i : Nat) (msg : WriterMsg) : Prop :=
  ∃ x, cfg.op k = some x ∧ x.label.job = .message i msg

-- =============================================================== the server

structure Sys where
  cfg : ServerCfg
  /-- each thread between its tasks -/
  thread : Nat → TcpThread
  /-- the session goes on: no handler has returned an error yet -/
  alive : Nat → Bool
  /-- by sending socket, the messages not yet taken -/
  queue : Nat → List (Nat × WriterMsg)

inductive SysAct
  | accept (c fd : Nat)
  | receive (c : Nat) (a : Arrival)
  | hangup (c : Nat)
  | deliver (c : Nat)
  | call (c : Nat) (o : Outcome)
  | respond (c : Nat)

namespace Sys

/-- The server starts on the store `d₀`. -/
def init (d₀ : Store) : Sys where
  cfg := Cfg.init d₀ 0
  thread := fun _ => connectionThreadNew
  alive := fun _ => false
  queue := fun _ => []

variable (zip : Bytes → Bytes)

/-- Thread `c` takes on a job. -/
def invoke (s : Sys) (c : Nat) (job : Job) : Option Sys :=
  (s.cfg.step (serverRules zip) (.invoke c ⟨job, s.thread c⟩)).map
    fun cfg => { s with cfg := cfg }

/-- The message a call with outcome `o` puts into the queue, with its
sender's request. -/
def enqueued (s : Sys) (c : Nat) (o : Outcome) : List (Nat × WriterMsg) :=
  match s.cfg.running c with
  | some (i, x) =>
      match x.rest with
      | .call (TxnCall.other (EnvCall.nnSend msg)) _ =>
          if o.ok then [(i, msg)] else []
      | _ => []
  | none => []

/-- What the task of thread `c` returned. -/
def result (s : Sys) (c : Nat) : Option (Yerr × TcpThread) :=
  (s.cfg.running c).bind fun y =>
    match y.2.rest with
    | .ret a => some a
    | .call _ _ => none

def step : SysAct → Sys → Option Sys
  | .accept c fd, s =>
      if c ≠ 0 ∧ s.cfg.cur c = none ∧ (s.thread c).fd = -1 then
        some
          { s with
            thread := Function.update s.thread c
              { s.thread c with fd := fd }
            alive := Function.update s.alive c true }
      else none
  | .receive c a, s =>
      if c ≠ 0 ∧ (s.thread c).fd ≠ -1 ∧ s.alive c then
        s.invoke zip c (.arrival a)
      else none
  | .hangup c, s =>
      if c ≠ 0 ∧ (s.thread c).fd ≠ -1 then s.invoke zip c .disconnect
      else none
  | .deliver c, s =>
      match s.queue c with
      | [] => none
      | (src, msg) :: q =>
          { s with queue := Function.update s.queue c q }.invoke zip 0
            (.message src msg)
  | .call c o, s =>
      (s.cfg.step (serverRules zip) (.call c o)).map fun cfg =>
        { s with
          cfg := cfg
          queue := Function.update s.queue c (s.queue c ++ s.enqueued c o) }
  | .respond c, s =>
      (s.result c).bind fun a =>
        (s.cfg.step (serverRules zip) (.respond c)).map fun cfg =>
          { s with
            cfg := cfg
            thread := Function.update s.thread c a.2
            alive := Function.update s.alive c (a.1 = .YENOERR) }

/-- Every message has been taken and dealt with. -/
def Drained (s : Sys) : Prop := (∀ c, s.queue c = []) ∧ s.cfg.cur 0 = none

-- ====================================================== inversion lemmas

variable {zip} {s s' : Sys} {c : Nat}

theorem step_accept {fd : Nat} (h : step zip (.accept c fd) s = some s') :
    c ≠ 0 ∧ s.cfg.cur c = none ∧ (s.thread c).fd = -1 ∧ s' =
      { s with
        thread := Function.update s.thread c { s.thread c with fd := fd }
        alive := Function.update s.alive c true } := by
  simp only [step] at h
  split at h
  next hc =>
    cases h
    exact ⟨hc.1, hc.2.1, hc.2.2, rfl⟩
  next => cases h

theorem invoke_eq_some {job : Job} (h : s.invoke zip c job = some s') :
    ∃ cfg, s.cfg.step (serverRules zip) (.invoke c ⟨job, s.thread c⟩)
      = some cfg ∧ s' = { s with cfg := cfg } := by
  obtain ⟨cfg, hcfg, heq⟩ := Option.map_eq_some_iff.mp h
  exact ⟨cfg, hcfg, heq.symm⟩

theorem step_receive {a : Arrival}
    (h : step zip (.receive c a) s = some s') :
    c ≠ 0 ∧ ∃ cfg, s.cfg.step (serverRules zip)
        (.invoke c ⟨.arrival a, s.thread c⟩) = some cfg
      ∧ s' = { s with cfg := cfg } := by
  simp only [step] at h
  split at h
  next hc => exact ⟨hc.1, invoke_eq_some h⟩
  next => cases h

theorem step_hangup (h : step zip (.hangup c) s = some s') :
    c ≠ 0 ∧ ∃ cfg, s.cfg.step (serverRules zip)
        (.invoke c ⟨.disconnect, s.thread c⟩) = some cfg
      ∧ s' = { s with cfg := cfg } := by
  simp only [step] at h
  split at h
  next hc => exact ⟨hc.1, invoke_eq_some h⟩
  next => cases h

theorem step_deliver (h : step zip (.deliver c) s = some s') :
    ∃ src msg q cfg, s.queue c = (src, msg) :: q
      ∧ s.cfg.step (serverRules zip)
          (.invoke 0 ⟨.message src msg, s.thread 0⟩) = some cfg
      ∧ s' = { s with
          cfg := cfg
          queue := Function.update s.queue c q } := by
  simp only [step] at h
  split at h
  · cases h
  next src msg q hq =>
    obtain ⟨cfg, hcfg, rfl⟩ := invoke_eq_some h
    exact ⟨src, msg, q, cfg, hq, hcfg, rfl⟩

theorem step_call {o : Outcome} (h : step zip (.call c o) s = some s') :
    ∃ cfg, s.cfg.step (serverRules zip) (.call c o) = some cfg
      ∧ s' = { s with
          cfg := cfg
          queue := Function.update s.queue c
            (s.queue c ++ s.enqueued c o) } := by
  obtain ⟨cfg, hcfg, heq⟩ := Option.map_eq_some_iff.mp h
  exact ⟨cfg, hcfg, heq.symm⟩

theorem step_respond (h : step zip (.respond c) s = some s') :
    ∃ i x a cfg, s.cfg.cur c = some i ∧ s.cfg.op i = some x
      ∧ x.rest = .ret a
      ∧ s.cfg.step (serverRules zip) (.respond c) = some cfg
      ∧ s' = { s with
          cfg := cfg
          thread := Function.update s.thread c a.2
          alive := Function.update s.alive c (a.1 = .YENOERR) } := by
  simp only [step, result, Option.bind_eq_some_iff] at h
  obtain ⟨a, ⟨⟨i, x⟩, hrun, ha⟩, h⟩ := h
  obtain ⟨hi, hx⟩ := Cfg.running_eq_some.mp hrun
  obtain ⟨cfg, hcfg, heq⟩ := Option.map_eq_some_iff.mp h
  split at ha
  next a' hrest =>
    cases ha
    exact ⟨i, x, a, cfg, hi, hx, hrest, hcfg, heq.symm⟩
  next => cases ha

/-- Action `a` gives thread `c` the job `job`. -/
inductive Starts (s : Sys) : SysAct → Nat → Job → Prop
  | receive {c : Nat} {arr : Arrival} :
      c ≠ 0 → (s.thread c).fd ≠ -1 → s.alive c = true →
      Starts s (.receive c arr) c (.arrival arr)
  | hangup {c : Nat} : c ≠ 0 → (s.thread c).fd ≠ -1 →
      Starts s (.hangup c) c .disconnect
  | deliver {c src : Nat} {msg : WriterMsg} {q : List (Nat × WriterMsg)} :
      s.queue c = (src, msg) :: q →
      Starts s (.deliver c) 0 (.message src msg)

theorem starts_receive {a : Arrival}
    (h : step zip (.receive c a) s = some s') :
    Starts s (.receive c a) c (.arrival a) := by
  simp only [step] at h
  split at h
  next hc => exact .receive hc.1 hc.2.1 hc.2.2
  next => cases h

theorem starts_hangup (h : step zip (.hangup c) s = some s') :
    Starts s (.hangup c) c .disconnect := by
  simp only [step] at h
  split at h
  next hc => exact .hangup hc.1 hc.2
  next => cases h

/-- A thread takes on a job between two tasks. -/
theorem Starts.idle {a : SysAct} {job : Job} (h : Starts s a c job)
    (hs : step zip a s = some s') : s.cfg.cur c = none := by
  cases h with
  | receive hc hfd halive =>
      obtain ⟨-, cfg, hcfg, -⟩ := step_receive hs
      exact (Cfg.step_invoke hcfg).1
  | hangup hc hfd =>
      obtain ⟨-, cfg, hcfg, -⟩ := step_hangup hs
      exact (Cfg.step_invoke hcfg).1
  | deliver hq =>
      obtain ⟨_, _, _, cfg, -, hcfg, -⟩ := step_deliver hs
      exact (Cfg.step_invoke hcfg).1

/-- A step of the server is a step of the clients machine, or none. -/
theorem step_cfg {a : SysAct} (h : step zip a s = some s') :
    s'.cfg = s.cfg
      ∨ ∃ b, s.cfg.step (serverRules zip) b = some s'.cfg := by
  cases a with
  | accept c fd =>
      obtain ⟨-, -, -, rfl⟩ := step_accept h
      exact Or.inl rfl
  | receive c a =>
      obtain ⟨-, cfg, hcfg, rfl⟩ := step_receive h
      exact Or.inr ⟨_, hcfg⟩
  | hangup c =>
      obtain ⟨-, cfg, hcfg, rfl⟩ := step_hangup h
      exact Or.inr ⟨_, hcfg⟩
  | deliver c =>
      obtain ⟨src, msg, q, cfg, -, hcfg, rfl⟩ := step_deliver h
      exact Or.inr ⟨_, hcfg⟩
  | call c o =>
      obtain ⟨cfg, hcfg, rfl⟩ := step_call h
      exact Or.inr ⟨_, hcfg⟩
  | respond c =>
      obtain ⟨i, x, a, cfg, -, -, -, hcfg, rfl⟩ := step_respond h
      exact Or.inr ⟨_, hcfg⟩

/-- What every task satisfies: it holds of a new one, which starts from
its thread's state, and is kept by every call. -/
theorem ops_step {J : Nat → ServerOp → Prop} {a : SysAct}
    (h : ∀ i x, s.cfg.op i = some x → J i x)
    (hs : step zip a s = some s')
    (hnew : ∀ c job, Starts s a c job →
      J s.cfg.count ⟨c, ⟨job, s.thread c⟩, Task.prog ⟨job, s.thread c⟩,
        [], [], s.cfg.answered⟩)
    (hcall : ∀ c o i x cl k r db, a = .call c o → s.cfg.cur c = some i →
      s.cfg.op i = some x → x.rest = .call cl k →
      Mvcc.step (lmdbSem zip) o s.cfg.db cl = some (r, db) → J i x →
      J i (x.after o ⟨cl, r⟩ (k r))) :
    ∀ i x, s'.cfg.op i = some x → J i x := by
  have hinvoke : ∀ {c job cfg}, Starts s a c job →
      s.cfg.step (serverRules zip) (.invoke c ⟨job, s.thread c⟩)
        = some cfg → ∀ i x, cfg.op i = some x → J i x := by
    intro c job cfg hstarts hcfg
    refine Cfg.ops_step h hcfg (fun c' l heq => ?_) ?_
    · cases heq
      exact hnew c job hstarts
    · intro _ _ _ _ _ _ _ _ heq
      cases heq
  cases a with
  | accept c fd =>
      obtain ⟨-, -, -, rfl⟩ := step_accept hs
      exact h
  | receive c arr =>
      obtain ⟨-, cfg, hcfg, rfl⟩ := step_receive hs
      exact hinvoke (starts_receive hs) hcfg
  | hangup c =>
      obtain ⟨-, cfg, hcfg, rfl⟩ := step_hangup hs
      exact hinvoke (starts_hangup hs) hcfg
  | deliver c =>
      obtain ⟨src, msg, q, cfg, hq, hcfg, rfl⟩ := step_deliver hs
      exact hinvoke (.deliver hq) hcfg
  | call c o =>
      obtain ⟨cfg, hcfg, rfl⟩ := step_call hs
      refine Cfg.ops_step h hcfg (fun c' l heq => by cases heq) ?_
      intro c' o' i x cl k r db heq
      cases heq
      exact hcall c o i x cl k r db rfl
  | respond c =>
      obtain ⟨i, x, a, cfg, -, -, -, hcfg, rfl⟩ := step_respond hs
      refine Cfg.ops_step h hcfg (fun c' l heq => by cases heq) ?_
      intro c' o' i x cl k r db heq
      cases heq

end Sys

end FineDB

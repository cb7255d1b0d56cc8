/-
Between the connection threads and the writer: every message that was
accepted by a queue is taken once, in the order its sender sent it.

`QueueOk` says it of a history: the messages of a sender are those taken
and then those still queued, in the order of the requests that sent
them. It is kept by every step because a request sends at most once
(`Posts`) and a thread's running request is its latest.

What a request sends is also fixed beforehand, by its own bytes and the
database its connection has selected (`Task.message`), unless a `strdup`
of that name fails.
-/
import FineDB.Proofs.Linearizable

namespace FineDB

open Effect Mvcc

variable {zip : Bytes → Bytes} {cfg cfg' : ServerCfg}

-- ===================================================== how a history grows

section Grows

variable {c i k : Nat} {msg : WriterMsg}

/-- A new operation is the last entry of the table. -/
private theorem op_invoke {task : Task} (hbook : Bookkeeping cfg)
    (hs : Cfg.step (serverRules zip) (.invoke c task) cfg = some cfg') :
    (∀ j x, cfg'.op j = some x ↔ cfg.op j = some x
      ∨ (j = cfg.count
        ∧ x = ⟨c, task, task.prog, [], [], cfg.answered⟩)) := by
  obtain ⟨-, rfl⟩ := Cfg.step_invoke hs
  intro j x
  by_cases hj : j = cfg.count
  · subst hj
    simp only [Function.update_self, Option.some.injEq, true_and,
      hbook.fresh _ (Nat.le_refl _)]
    constructor
    · rintro rfl
      exact Or.inr rfl
    · rintro (h | rfl)
      · cases h
      · rfl
  · simp [hj]

private theorem sender_invoke {task : Task} {c' : Nat}
    (hbook : Bookkeeping cfg)
    (hs : Cfg.step (serverRules zip) (.invoke c task) cfg = some cfg') :
    Sender cfg' i c' ↔ Sender cfg i c' ∨ (i = cfg.count ∧ c' = c) := by
  unfold Sender
  simp only [op_invoke hbook hs]
  constructor
  · rintro ⟨x, hx | ⟨rfl, rfl⟩, hc⟩
    · exact Or.inl ⟨x, hx, hc⟩
    · exact Or.inr ⟨rfl, hc.symm⟩
  · rintro (⟨x, hx, hc⟩ | ⟨rfl, rfl⟩)
    · exact ⟨x, Or.inl hx, hc⟩
    · exact ⟨_, Or.inr ⟨rfl, rfl⟩, rfl⟩

private theorem sends_invoke {task : Task} (hbook : Bookkeeping cfg)
    (hs : Cfg.step (serverRules zip) (.invoke c task) cfg = some cfg') :
    Sends cfg' i msg ↔ Sends cfg i msg := by
  unfold Sends
  simp only [op_invoke hbook hs]
  constructor
  · rintro ⟨x, hx | ⟨rfl, rfl⟩, hmem⟩
    · exact ⟨x, hx, hmem⟩
    · cases hmem
  · rintro ⟨x, hx, hmem⟩
    exact ⟨x, Or.inl hx, hmem⟩

private theorem takes_invoke {task : Task} (hbook : Bookkeeping cfg)
    (hs : Cfg.step (serverRules zip) (.invoke c task) cfg = some cfg') :
    Takes cfg' k i msg ↔ Takes cfg k i msg
      ∨ (k = cfg.count ∧ task.job = .message i msg) := by
  unfold Takes
  simp only [op_invoke hbook hs]
  constructor
  · rintro ⟨x, hx | ⟨rfl, rfl⟩, hjob⟩
    · exact Or.inl ⟨x, hx, hjob⟩
    · exact Or.inr ⟨rfl, hjob⟩
  · rintro (⟨x, hx, hjob⟩ | ⟨rfl, hjob⟩)
    · exact ⟨x, Or.inl hx, hjob⟩
    · exact ⟨_, Or.inr ⟨rfl, rfl⟩, hjob⟩

section Call

variable {x : ServerOp} {cl : (serverSig (Option Bytes)).Call}
  {f : cl.Ret → Store.Server (Yerr × TcpThread)} {r : cl.Ret}
  {o : Outcome}

/-- An operation after a call, in a table otherwise the same. -/
private theorem op_call {x' : ServerOp} (hx : cfg.op i = some x)
    (hop : cfg'.op = Function.update cfg.op i (some x'))
    (P : ServerOp → Prop) (Q : Prop) (hP : P x' ↔ P x ∨ Q) (j : Nat) :
    (∃ y, cfg'.op j = some y ∧ P y)
      ↔ (∃ y, cfg.op j = some y ∧ P y) ∨ (j = i ∧ Q) := by
  rw [hop]
  by_cases hj : j = i
  · subst hj
    simp only [Function.update_self, hx, Option.some.injEq,
      exists_eq_left', hP, true_and]
  · simp only [Function.update_of_ne hj, hj, false_and, or_false]

private theorem sender_call {c' j : Nat} (hx : cfg.op i = some x)
    (hop : cfg'.op = Function.update cfg.op i
      (some (x.after o ⟨cl, r⟩ (f r)))) :
    Sender cfg' j c' ↔ Sender cfg j c' := by
  have h := op_call hx hop (fun y => y.client = c') False
    (by simp [Op.after]) j
  simpa [Sender] using h

private theorem takes_call {j : Nat} (hx : cfg.op i = some x)
    (hop : cfg'.op = Function.update cfg.op i
      (some (x.after o ⟨cl, r⟩ (f r)))) :
    Takes cfg' k j msg ↔ Takes cfg k j msg := by
  have h := op_call hx hop (fun y => y.label.job = .message j msg) False
    (by simp [Op.after]) k
  simpa [Takes] using h

private theorem sends_call {j : Nat} (hx : cfg.op i = some x)
    (hop : cfg'.op = Function.update cfg.op i
      (some (x.after o ⟨cl, r⟩ (f r)))) :
    Sends cfg' j msg
      ↔ Sends cfg j msg ∨ (j = i ∧ posted ⟨cl, r⟩ = some msg) := by
  refine op_call hx hop (fun y => msg ∈ y.trace.filterMap posted)
    (posted ⟨cl, r⟩ = some msg) ?_ j
  simp [Op.after, List.filterMap_append]

/-- What the call puts into the queue is what its event shows. -/
private theorem enqueued_eq {s : Sys} {db : State Store}
    (hi : s.cfg.cur c = some i) (hx : s.cfg.op i = some x)
    (hrest : x.rest = .call cl f)
    (hstep : Mvcc.step (lmdbSem zip) o s.cfg.db cl = some (r, db)) :
    s.enqueued c o = ((posted ⟨cl, r⟩).map fun msg => (i, msg)).toList := by
  have hrun : s.cfg.running c = some (i, x) :=
    Cfg.running_eq_some.mpr ⟨hi, hx⟩
  simp only [Sys.enqueued, hrun, hrest]
  cases cl with
  | other l =>
      cases l with
      | nnSend msg =>
          obtain ⟨rfl, -⟩ := step_other hstep
          simp only [lmdbSem, EnvCall.answer, posted]
          cases o.ok with
          | false => rfl
          | true => rfl
      | _ => rfl
  | _ => rfl

end Call

end Grows

-- ========================================================== one message each

/-- The message a call offers to the queue. -/
def EnvCall.message {Dbi : Type} : EnvCall Dbi → Option WriterMsg
  | .nnSend msg => some msg
  | _ => none

/-- The program sends at most one message, one in `M`, if the answers it
gets are in `ok`. -/
def Posts (ok : (l : EnvCall (Option Bytes)) → l.Ret → Prop) {α : Type} :
    (WriterMsg → Prop) → Store.Server α → Prop
  | _, .ret _ => True
  | M, .call (TxnCall.other l) k =>
      (∀ msg, l.message = some msg → M msg)
        ∧ ∀ r, ok l r → Posts ok (fun msg => l.message = none ∧ M msg) (k r)
  | M, .call (TxnCall.txnBegin _) k => ∀ r, Posts ok M (k r)
  | M, .call (TxnCall.commit _) k => ∀ r, Posts ok M (k r)
  | M, .call (TxnCall.abort _) k => ∀ r, Posts ok M (k r)
  | M, .call (TxnCall.access _ _) k => ∀ r, Posts ok M (k r)

section Posts

variable {ok : (l : EnvCall (Option Bytes)) → l.Ret → Prop} {α β : Type}
  {M M' : WriterMsg → Prop} {p : Store.Server α}

theorem Posts.mono (hM : ∀ msg, M msg → M' msg) (h : Posts ok M p) :
    Posts ok M' p := by
  induction p generalizing M M' with
  | ret a => trivial
  | call c k ih =>
      cases c with
      | other l =>
          exact ⟨fun msg hmsg => hM msg (h.1 msg hmsg), fun r hr =>
            ih r (fun msg hmsg => ⟨hmsg.1, hM msg hmsg.2⟩) (h.2 r hr)⟩
      | txnBegin rdonly => exact fun r => ih r hM (h r)
      | commit t => exact fun r => ih r hM (h r)
      | abort t => exact fun r => ih r hM (h r)
      | access t a => exact fun r => ih r hM (h r)

/-- A call that offers no message. -/
theorem posts_call {l : EnvCall (Option Bytes)} {k : l.Ret → Store.Server α}
    (hl : l.message = none) (hk : ∀ r, ok l r → Posts ok M (k r)) :
    Posts ok M (.call (.other l) k) := by
  refine ⟨fun msg hmsg => ?_, fun r hr => ?_⟩
  · rw [hl] at hmsg
    cases hmsg
  · exact (hk r hr).mono fun msg hmsg => ⟨hl, hmsg⟩

/-- A program that posts nothing, followed by one that may. -/
theorem posts_bind (touched : Option (Option Nat))
    {f : α → Store.Server β} (hp : p.Calls (Allows true true false touched))
    (hf : ∀ a, Posts ok M (f a)) : Posts ok M (p >>= f) := by
  induction p with
  | ret a => exact hf a
  | call c k ih =>
      cases c with
      | other l =>
          have hnone : l.message = none := by
            cases l with
            | nnSend msg => cases hp.1
            | _ => rfl
          exact posts_call hnone fun r _ => ih r (hp.2 r)
      | txnBegin rdonly => exact fun r => ih r (hp.2 r)
      | commit t => exact fun r => ih r (hp.2 r)
      | abort t => exact fun r => ih r (hp.2 r)
      | access t a => exact fun r => ih r (hp.2 r)

theorem posts_of_allows (touched : Option (Option Nat))
    (hp : p.Calls (Allows true true false touched)) : Posts ok M p := by
  have h : Posts ok M (p >>= pure) := posts_bind touched hp fun _ => trivial
  rw [bind_pure] at h
  exact h

theorem Posts.map (g : α → β) (h : Posts ok M p) :
    Posts ok M (p >>= fun a => pure (g a)) := by
  induction p generalizing M with
  | ret a => trivial
  | call c k ih =>
      cases c with
      | other l => exact ⟨h.1, fun r hr => ih r (h.2 r hr)⟩
      | txnBegin rdonly => exact fun r => ih r (h r)
      | commit t => exact fun r => ih r (h r)
      | abort t => exact fun r => ih r (h r)
      | access t a => exact fun r => ih r (h r)

end Posts

-- ============================================== the message of each request

/-- The data a PUT stores. -/
def storedData (zip : Bytes → Bytes) (compress : Bool) (data : Bytes) :
    Bytes :=
  if compress then data else zip data

/-- The message an asynchronous write is to send: its key, its data as
they are to be stored, and the database selected on its connection. -/
def Task.message (zip : Bytes → Bytes) (task : Task) : Option WriterMsg :=
  match task.job with
  | .arrival (.request b (.put key data)) =>
      if (requestFlags b task.thread).sync then none
      else some ⟨.writePut, task.thread.dbname.map cString, key.bytes,
        storedData zip (requestHasCompressed b) data.bytes, false⟩
  | .arrival (.request b (.del key)) =>
      if (requestFlags b task.thread).sync then none
      else some ⟨.writeDel, task.thread.dbname.map cString, key.bytes, [],
        false⟩
  | _ => none

/-- The answers calls get; with `dups`, no `strdup` fails. -/
def Answers (zip : Bytes → Bytes) (dups : Prop)
    (l : EnvCall (Option Bytes)) (r : l.Ret) : Prop :=
  ∃ o, r = l.answer zip o
    ∧ (dups → ∀ name, l = .strdup name → o.ok = true)

/-- What a task sends is its message, except that the name is lost with
a failed `strdup`. -/
def MessageOk (zip : Bytes → Bytes) (dups : Prop) (task : Task)
    (msg : WriterMsg) : Prop :=
  ∃ e, task.message zip = some e
    ∧ (msg = e ∨ (¬ dups ∧ msg = { e with dbname := none }))

section Message

variable {dups : Prop}

/-- Handing over a message under a duplicated name. -/
private theorem post_posts {M : WriterMsg → Prop}
    (mk : Option Bytes → WriterMsg) (dbname : Option Bytes)
    (hsame : M (mk (dbname.map cString)))
    (hlost : ¬ dups → M (mk none)) :
    Posts (Answers zip dups) M
      (do sendToWriter (mk (← dupDbname dbname))) := by
  have hsend : ∀ dn, M (mk dn) →
      Posts (Answers zip dups) M (sendToWriter (mk dn)) := by
    intro dn hdn
    refine ⟨fun msg hmsg => ?_, fun sent _ => ?_⟩
    · cases hmsg
      exact hdn
    · cases sent with
      | true => trivial
      | false =>
          exact posts_of_allows none commandError_allows
  cases dbname with
  | none => exact hsend none hsame
  | some name =>
      refine posts_call rfl ?_
      rintro copied ⟨o, rfl, hdups⟩
      cases hok : o.ok with
      | true =>
          simp only [EnvCall.answer, hok]
          exact hsend _ hsame
      | false =>
          simp only [EnvCall.answer, hok]
          refine hsend none (hlost fun hd => ?_)
          rw [hdups hd _ rfl] at hok
          cases hok

/-- Compression gives the data to store, or nothing. -/
private theorem commandPutData_posts {M : WriterMsg → Prop}
    {q : Option Bytes → Store.Server Yerr} (compress : Bool) (data : Bytes)
    (hnone : Posts (Answers zip dups) M (q none))
    (hsome : Posts (Answers zip dups) M
      (q (some (storedData zip compress data)))) :
    Posts (Answers zip dups) M (commandPutData compress data >>= q) := by
  cases compress with
  | true => exact hsome
  | false =>
      refine posts_call rfl fun ready _ => ?_
      cases ready with
      | false => exact hnone
      | true =>
          refine posts_call rfl fun room _ => ?_
          cases room with
          | false => exact hnone
          | true =>
              refine posts_call rfl ?_
              rintro z ⟨o, rfl, -⟩
              cases hok : o.ok with
              | true =>
                  simp only [EnvCall.answer, hok]
                  exact hsome
              | false =>
                  simp only [EnvCall.answer, hok]
                  exact hnone

private theorem commandDelExec_posts {M : WriterMsg → Prop} (f : Flags)
    (thread : TcpThread) (key : Bytes) (hsync : f.sync = false)
    (hM : ∀ dn, dn = thread.dbname.map cString ∨ (¬ dups ∧ dn = none) →
      M ⟨.writeDel, dn, key, [], false⟩) :
    Posts (Answers zip dups) M (commandDelExec f thread key) := by
  refine posts_bind none (immediateResponse_allows _) fun _ => ?_
  refine posts_call rfl fun room _ => ?_
  cases room with
  | false => exact posts_of_allows none commandError_allows
  | true =>
      simp only [Prog.bind, if_true, commandDelWrite, hsync]
      exact post_posts (fun dn => ⟨.writeDel, dn, key, [], false⟩) _
        (hM _ (Or.inl rfl)) fun hd => hM none (Or.inr ⟨hd, rfl⟩)

private theorem commandPutExec_posts {M : WriterMsg → Prop} (f : Flags)
    (thread : TcpThread) (name data : Bytes) (hsync : f.sync = false)
    (hM : ∀ dn, dn = thread.dbname.map cString ∨ (¬ dups ∧ dn = none) →
      M ⟨.writePut, dn, name, storedData zip f.compress data, false⟩) :
    Posts (Answers zip dups) M
      (commandPutExec false false f thread name data) := by
  refine posts_bind none (immediateResponse_allows _) fun _ => ?_
  refine posts_call rfl fun room _ => ?_
  cases room with
  | false => exact posts_of_allows none commandError_allows
  | true =>
      simp only [Prog.bind, if_true]
      refine commandPutData_posts _ _
        (posts_of_allows none commandError_allows) ?_
      simp only [commandPutWrite, hsync, Bool.or_false]
      exact post_posts
        (fun dn => ⟨.writePut, dn, name, storedData zip f.compress data,
          false⟩) _
        (hM _ (Or.inl rfl)) fun hd => hM none (Or.inr ⟨hd, rfl⟩)

private theorem withAlloc_posts {M : WriterMsg → Prop} {size : Nat}
    {p : Store.Server Yerr} (hp : Posts (Answers zip dups) M p) :
    Posts (Answers zip dups) M (withAlloc size p) := by
  refine posts_call rfl fun room _ => ?_
  cases room with
  | false => exact posts_of_allows none commandError_allows
  | true => exact hp

private theorem Request.exec_posts (b : Byte) (thread : TcpThread)
    (r : Request) :
    Posts (Answers zip dups)
      (MessageOk zip dups ⟨.arrival (.request b r), thread⟩)
      (r.exec b thread) := by
  by_cases hasync : r.async b thread = true
  · -- an asynchronous write: the message is the one expected
    have hexp : ∀ e : WriterMsg,
        Task.message zip ⟨.arrival (.request b r), thread⟩ = some e →
        ∀ dn, dn = e.dbname ∨ (¬ dups ∧ dn = none) →
        MessageOk zip dups ⟨.arrival (.request b r), thread⟩
          { e with dbname := dn } := by
      rintro e he dn (rfl | ⟨hd, rfl⟩)
      · exact ⟨e, he, Or.inl rfl⟩
      · exact ⟨e, he, Or.inr ⟨hd, rfl⟩⟩
    cases r with
    | del key =>
        have hsync : (requestFlags b thread).sync = false := by
          simpa [Request.async] using hasync
        refine Posts.map _ (withAlloc_posts
          (commandDelExec_posts _ _ _ hsync fun dn hdn => ?_))
        exact hexp _ (by simp only [Task.message, hsync]; rfl) dn hdn
    | put key data =>
        have hsync : (requestFlags b thread).sync = false := by
          simpa [Request.async] using hasync
        have hput : Posts (Answers zip dups)
            (MessageOk zip dups ⟨.arrival (.request b (.put key data)),
              thread⟩)
            (commandPutExec false false (requestFlags b thread) thread
              key.bytes data.bytes) := by
          refine commandPutExec_posts _ _ _ _ hsync fun dn hdn => ?_
          exact hexp _ (by simp only [Task.message, hsync]; rfl) dn hdn
        refine Posts.map _ (withAlloc_posts ?_)
        split
        · exact hput
        · exact withAlloc_posts hput
    | _ => cases hasync
  · rw [Bool.not_eq_true] at hasync
    by_cases hstart : r = .start
    · rw [hstart]
      exact posts_of_allows _ commandStart_allows
    by_cases hstop : r = .stop
    · rw [hstop]
      exact posts_of_allows _ commandStop_allows
    have hcalls := @Request.exec_allows (Option Bytes) true b thread r
      hstart hstop fun _ _ => rfl
    rw [hasync] at hcalls
    exact posts_of_allows _ hcalls

/-- Every task sends its message at most once, and nothing else. -/
theorem Task.prog_posts (task : Task) :
    Posts (Answers zip dups) (MessageOk zip dups task) task.prog := by
  obtain ⟨job, thread⟩ := task
  cases job with
  | disconnect =>
      exact Posts.map _ (posts_of_allows _
        connectionThreadDisconnect_allows)
  | message src msg =>
      exact Posts.map _ (posts_of_allows _ (writerApply_allows msg))
  | arrival a =>
      cases a with
      | request b r => exact Request.exec_posts b thread r
      | cut b part =>
          exact Posts.map _ (posts_of_allows none (cutExec_allows b part))
      | unknown b => exact posts_call rfl fun _ _ => trivial

end Message

-- ======================================================= along a history

/-- Where an operation stands towards its message. -/
structure PostOk (zip : Bytes → Bytes) (dups : Prop) (x : ServerOp) :
    Prop where
  rest : Posts (Answers zip dups)
    (fun msg => x.trace.filterMap posted = []
      ∧ MessageOk zip dups x.label msg) x.rest
  sent : ∀ msg ∈ x.trace.filterMap posted, MessageOk zip dups x.label msg
  once : (x.trace.filterMap posted).length ≤ 1

section Op

variable {dups : Prop} {x : ServerOp}
  {cl : (serverSig (Option Bytes)).Call}
  {k : cl.Ret → Store.Server (Yerr × TcpThread)} {r : cl.Ret}

/-- An event shows a message only if its call offered it. -/
private theorem message_of_posted {l : EnvCall (Option Bytes)} {r : l.Ret}
    {msg : WriterMsg} (h : posted ⟨.other l, r⟩ = some msg) :
    l.message = some msg := by
  cases l with
  | nnSend msg' =>
      simp only [posted] at h
      split at h
      · exact h
      · cases h
  | _ => cases h

/-- An operation about to send a message has sent none. -/
theorem PostOk.fresh {msg : WriterMsg} (h : PostOk zip dups x)
    (hrest : x.rest = .call cl k) (hpost : posted ⟨cl, r⟩ = some msg) :
    x.trace.filterMap posted = [] := by
  have hposts := h.rest
  rw [hrest] at hposts
  cases cl with
  | other l => exact (hposts.1 msg (message_of_posted hpost)).1
  | _ => cases hpost

theorem PostOk.after {o : Outcome} {db db' : State Store}
    (h : PostOk zip dups x) (hrest : x.rest = .call cl k)
    (hstep : Mvcc.step (lmdbSem zip) o db cl = some (r, db'))
    (hdups : dups → ∀ name, cl = .other (.strdup name) → o.ok = true) :
    PostOk zip dups (x.after o ⟨cl, r⟩ (k r)) := by
  have hposts := h.rest
  rw [hrest] at hposts
  have htrace : (x.after o ⟨cl, r⟩ (k r)).trace.filterMap posted
      = x.trace.filterMap posted ++ (posted ⟨cl, r⟩).toList := by
    simp only [Op.after, List.filterMap_append]
    cases hpost : posted ⟨cl, r⟩ with
    | none => simp [hpost]
    | some msg => simp [hpost]
  -- a call that uses a transaction shows no message
  have hquiet : posted ⟨cl, r⟩ = none →
      Posts (Answers zip dups)
        (fun msg => x.trace.filterMap posted = []
          ∧ MessageOk zip dups x.label msg) (k r) →
      PostOk zip dups (x.after o ⟨cl, r⟩ (k r)) := by
    intro hnone hk
    rw [hnone, Option.toList_none, List.append_nil] at htrace
    refine ⟨?_, ?_, ?_⟩
    · rw [htrace]
      exact hk
    · rw [htrace]
      exact h.sent
    · rw [htrace]
      exact h.once
  cases cl with
  | txnBegin rdonly => exact hquiet rfl (hposts r)
  | commit t => exact hquiet rfl (hposts r)
  | abort t => exact hquiet rfl (hposts r)
  | access t a => exact hquiet rfl (hposts r)
  | other l =>
      obtain ⟨rfl, -⟩ := step_other hstep
      have hk := hposts.2 (l.answer zip o)
        ⟨o, rfl, fun hd name hl => hdups hd name (by rw [hl])⟩
      cases hpost : posted ⟨.other l, l.answer zip o⟩ with
      | none =>
          exact hquiet hpost (hk.mono fun msg hmsg => hmsg.2)
      | some msg =>
          have hmsg := message_of_posted hpost
          have hok := hposts.1 msg hmsg
          have heq : (lmdbSem zip).other o l = l.answer zip o := rfl
          rw [heq, hpost, hok.1, Option.toList_some,
            List.nil_append] at htrace
          refine ⟨hk.mono fun msg' hmsg' => ?_, ?_, ?_⟩
          · rw [hmsg] at hmsg'
            cases hmsg'.1
          · rw [heq, htrace]
            intro msg' hmem
            rw [List.mem_singleton.mp hmem]
            exact hok.2
          · rw [heq, htrace]
            exact Nat.le_refl 1

end Op

-- ============================================================= the queues

/-- The messages of a sender: those taken, then those queued, in the
order of the requests that sent them. -/
structure QueueOk (s : Sys) : Prop where
  taken : ∀ k i msg, Takes s.cfg k i msg →
    i < k ∧ Sender s.cfg k 0 ∧ Sends s.cfg i msg
  fifo : ∀ c k k' i i' msg msg', Takes s.cfg k i msg →
    Takes s.cfg k' i' msg' → Sender s.cfg i c → Sender s.cfg i' c →
    k < k' → i < i'
  queued : ∀ c b, b ∈ s.queue c →
    Sender s.cfg b.1 c ∧ Sends s.cfg b.1 b.2
  sorted : ∀ c, (s.queue c).Pairwise fun b b' => b.1 < b'.1
  later : ∀ c k i msg b, Takes s.cfg k i msg → Sender s.cfg i c →
    b ∈ s.queue c → i < b.1
  complete : ∀ c i msg, Sends s.cfg i msg → Sender s.cfg i c →
    (∃ k, Takes s.cfg k i msg) ∨ (i, msg) ∈ s.queue c

section Steps

variable {s s' : Sys} {c i k : Nat} {msg : WriterMsg}

theorem Sender.unique {c' : Nat} (h : Sender cfg i c)
    (h' : Sender cfg i c') : c = c' := by
  obtain ⟨x, hx, hc⟩ := h
  obtain ⟨x', hx', hc'⟩ := h'
  cases hx.symm.trans hx'
  exact hc.symm.trans hc'

private theorem Sends.lt_count (hbook : Bookkeeping cfg)
    (h : Sends cfg i msg) : i < cfg.count := by
  obtain ⟨x, hx, -⟩ := h
  exact hbook.lt_count hx

private theorem Takes.lt_count (hbook : Bookkeeping cfg)
    (h : Takes cfg k i msg) : k < cfg.count := by
  obtain ⟨x, hx, -⟩ := h
  exact hbook.lt_count hx

theorem QueueOk.init (d₀ : Store) : QueueOk (Sys.init d₀) where
  taken k i msg h := by
    obtain ⟨x, hx, -⟩ := h
    cases hx
  fifo c k k' i i' msg msg' h := by
    obtain ⟨x, hx, -⟩ := h
    cases hx
  queued c b h := by cases h
  sorted c := List.Pairwise.nil
  later c k i msg b h := by
    obtain ⟨x, hx, -⟩ := h
    cases hx
  complete c i msg h := by
    obtain ⟨x, hx, -⟩ := h
    cases hx

/-- A new task that is not the writer's changes nothing. -/
private theorem QueueOk.invoke {task : Task} (h : QueueOk s)
    (hbook : Bookkeeping s.cfg) (hjob : ∀ i msg, task.job ≠ .message i msg)
    (hs : Cfg.step (serverRules zip) (.invoke c task) s.cfg = some cfg') :
    QueueOk { s with cfg := cfg' } := by
  have htakes : ∀ k i msg, Takes cfg' k i msg ↔ Takes s.cfg k i msg := by
    intro k i msg
    rw [takes_invoke hbook hs]
    constructor
    · rintro (h | ⟨-, h⟩)
      · exact h
      · exact absurd h (hjob i msg)
    · exact Or.inl
  have hsends : ∀ i msg, Sends cfg' i msg ↔ Sends s.cfg i msg :=
    fun i msg => sends_invoke hbook hs
  have hsender : ∀ i c', Sender s.cfg i c' → Sender cfg' i c' :=
    fun i c' h => (sender_invoke hbook hs).mpr (Or.inl h)
  -- a task that has sent is not the new one
  have hold : ∀ i c' msg, Sends s.cfg i msg → Sender cfg' i c' →
      Sender s.cfg i c' := by
    intro i c' msg hsent hs'
    rcases (sender_invoke hbook hs).mp hs' with hs' | ⟨rfl, -⟩
    · exact hs'
    · exact absurd (hsent.lt_count hbook) (Nat.lt_irrefl _)
  refine ⟨fun k i msg ht => ?_, fun c' k k' i i' msg msg' ht ht' hi hi' =>
    ?_, fun c' b hb => ?_, h.sorted, fun c' k i msg b ht hi hb => ?_,
    fun c' i msg hsent hi => ?_⟩
  · rw [htakes] at ht
    obtain ⟨hlt, hk, hsent⟩ := h.taken k i msg ht
    exact ⟨hlt, hsender k 0 hk, (hsends i msg).mpr hsent⟩
  · rw [htakes] at ht ht'
    exact h.fifo c' k k' i i' msg msg' ht ht'
      (hold i c' msg (h.taken k i msg ht).2.2 hi)
      (hold i' c' msg' (h.taken k' i' msg' ht').2.2 hi')
  · obtain ⟨hb₁, hb₂⟩ := h.queued c' b hb
    exact ⟨hsender _ _ hb₁, (hsends _ _).mpr hb₂⟩
  · rw [htakes] at ht
    exact h.later c' k i msg b ht
      (hold i c' msg (h.taken k i msg ht).2.2 hi) hb
  · rw [hsends] at hsent
    rcases h.complete c' i msg hsent (hold i c' msg hsent hi) with
      ⟨k, hk⟩ | hq
    · exact Or.inl ⟨k, (htakes k i msg).mpr hk⟩
    · exact Or.inr hq

/-- The writer takes the oldest message of a sender. -/
private theorem QueueOk.deliver {i₀ : Nat} {msg₀ : WriterMsg}
    {q : List (Nat × WriterMsg)} {thread : TcpThread} (h : QueueOk s)
    (hbook : Bookkeeping s.cfg) (hq : s.queue c = (i₀, msg₀) :: q)
    (hs : Cfg.step (serverRules zip)
      (.invoke 0 ⟨.message i₀ msg₀, thread⟩) s.cfg = some cfg') :
    QueueOk { s with
      cfg := cfg'
      queue := Function.update s.queue c q } := by
  have hhead : (i₀, msg₀) ∈ s.queue c := by
    rw [hq]
    exact List.mem_cons_self
  obtain ⟨hi₀, hsent₀⟩ := h.queued c _ hhead
  have htakes : ∀ k i msg, Takes cfg' k i msg ↔ Takes s.cfg k i msg
      ∨ (k = s.cfg.count ∧ i = i₀ ∧ msg = msg₀) := by
    intro k i msg
    rw [takes_invoke hbook hs]
    simp only [Job.message.injEq, eq_comm]
  have hsends : ∀ i msg, Sends cfg' i msg ↔ Sends s.cfg i msg :=
    fun i msg => sends_invoke hbook hs
  have hsender : ∀ i c', Sender s.cfg i c' → Sender cfg' i c' :=
    fun i c' h => (sender_invoke hbook hs).mpr (Or.inl h)
  have hold : ∀ i c' msg, Sends s.cfg i msg → Sender cfg' i c' →
      Sender s.cfg i c' := by
    intro i c' msg hsent hs'
    rcases (sender_invoke hbook hs).mp hs' with hs' | ⟨rfl, -⟩
    · exact hs'
    · exact absurd (hsent.lt_count hbook) (Nat.lt_irrefl _)
  have hsub : ∀ c' b, b ∈ Function.update s.queue c q c' →
      b ∈ s.queue c' := by
    intro c' b hb
    by_cases hc : c' = c
    · subst hc
      rw [Function.update_self] at hb
      rw [hq]
      exact List.mem_cons_of_mem _ hb
    · rwa [Function.update_of_ne hc] at hb
  have hsorted := h.sorted c
  rw [hq, List.pairwise_cons] at hsorted
  refine ⟨fun k i msg ht => ?_, fun c' k k' i i' msg msg' ht ht' hi hi'
    hlt => ?_, fun c' b hb => ?_, fun c' => ?_,
    fun c' k i msg b ht hi hb => ?_, fun c' i msg hsent hi => ?_⟩
  · rcases (htakes k i msg).mp ht with ht | ⟨rfl, rfl, rfl⟩
    · obtain ⟨hlt, hk, hsent⟩ := h.taken k i msg ht
      exact ⟨hlt, hsender k 0 hk, (hsends i msg).mpr hsent⟩
    · exact ⟨hsent₀.lt_count hbook,
        (sender_invoke hbook hs).mpr (Or.inr ⟨rfl, rfl⟩),
        (hsends _ _).mpr hsent₀⟩
  · rcases (htakes k i msg).mp ht with hk | ⟨rfl, rfl, rfl⟩
    · have hi₁ := hold i c' msg (h.taken k i msg hk).2.2 hi
      rcases (htakes k' i' msg').mp ht' with hk' | ⟨rfl, rfl, rfl⟩
      · exact h.fifo c' k k' i i' msg msg' hk hk' hi₁
          (hold i' c' msg' (h.taken k' i' msg' hk').2.2 hi') hlt
      · -- everything taken from this sender was sent before its queue
        have hc : c' = c := (hold i' c' msg' hsent₀ hi').unique hi₀
        rw [← hc] at hhead
        exact h.later c' k i msg _ hk hi₁ hhead
    · exfalso
      rcases (htakes k' i' msg').mp ht' with hk' | ⟨rfl, -, -⟩
      · exact Nat.lt_asymm hlt (hk'.lt_count hbook)
      · exact Nat.lt_irrefl _ hlt
  · obtain ⟨hb₁, hb₂⟩ := h.queued c' b (hsub c' b hb)
    exact ⟨hsender _ _ hb₁, (hsends _ _).mpr hb₂⟩
  · by_cases hc : c' = c
    · rw [hc]
      simp only [Function.update_self]
      exact hsorted.2
    · simp only [Function.update_of_ne hc]
      exact h.sorted c'
  · rcases (htakes k i msg).mp ht with ht | ⟨rfl, rfl, rfl⟩
    · exact h.later c' k i msg b ht
        (hold i c' msg (h.taken k i msg ht).2.2 hi) (hsub c' b hb)
    · have hc : c' = c := (hold i c' msg hsent₀ hi).unique hi₀
      subst hc
      simp only [Function.update_self] at hb
      exact hsorted.1 b hb
  · rw [hsends] at hsent
    have hi := hold i c' msg hsent hi
    rcases h.complete c' i msg hsent hi with ⟨k, hk⟩ | hmem
    · exact Or.inl ⟨k, (htakes k i msg).mpr (Or.inl hk)⟩
    · by_cases hc : c' = c
      · subst hc
        rw [hq] at hmem
        rcases List.mem_cons.mp hmem with heq | hmem
        · cases heq
          exact Or.inl ⟨_, (htakes _ _ _).mpr (Or.inr ⟨rfl, rfl, rfl⟩)⟩
        · refine Or.inr ?_
          simp only [Function.update_self]
          exact hmem
      · refine Or.inr ?_
        simp only [Function.update_of_ne hc]
        exact hmem

/-- A request that sends is the latest of its thread that has. -/
private theorem sends_lt_running {x : ServerOp} {j : Nat}
    {cl : (serverSig (Option Bytes)).Call}
    {f : cl.Ret → Store.Server (Yerr × TcpThread)}
    (hbook : Bookkeeping cfg) (hx : cfg.op i = some x)
    (hrest : x.rest = .call cl f) (hfresh : x.trace.filterMap posted = [])
    (hsent : Sends cfg j msg) (hj : Sender cfg j x.client) : j < i := by
  obtain ⟨y, hy, hmem⟩ := hsent
  obtain ⟨y', hy', hclient⟩ := hj
  cases hy.symm.trans hy'
  rcases Nat.lt_trichotomy j i with hlt | rfl | hgt
  · exact hlt
  · cases hx.symm.trans hy
    rw [hfresh] at hmem
    cases hmem
  · -- a later task of the thread would have seen this one answered
    have hseen := hbook.sequential i j x y hx hy hclient.symm hgt
    exact absurd (hbook.seen j y hy i hseen) (hbook.not_answered hx hrest)

/-- A call sends its message to the end of its thread's queue. -/
private theorem QueueOk.call {x : ServerOp}
    {cl : (serverSig (Option Bytes)).Call}
    {f : cl.Ret → Store.Server (Yerr × TcpThread)} {r : cl.Ret}
    {o : Outcome} (h : QueueOk s) (hbook : Bookkeeping s.cfg)
    (hpost : PostOk zip False x) (hi : s.cfg.cur c = some i)
    (hx : s.cfg.op i = some x) (hrest : x.rest = .call cl f)
    (hop : cfg'.op = Function.update s.cfg.op i
      (some (x.after o ⟨cl, r⟩ (f r)))) :
    QueueOk { s with
      cfg := cfg'
      queue := Function.update s.queue c (s.queue c
        ++ ((posted ⟨cl, r⟩).map fun msg => (i, msg)).toList) } := by
  have htakes : ∀ k j msg, Takes cfg' k j msg ↔ Takes s.cfg k j msg :=
    fun k j msg => takes_call hx hop
  have hsender : ∀ j c', Sender cfg' j c' ↔ Sender s.cfg j c' :=
    fun j c' => sender_call hx hop
  have hsends : ∀ j msg, Sends cfg' j msg ↔ Sends s.cfg j msg
      ∨ (j = i ∧ posted ⟨cl, r⟩ = some msg) :=
    fun j msg => sends_call hx hop
  have hclient : x.client = c := by
    obtain ⟨x', hx', hc⟩ := hbook.running c i hi
    cases hx.symm.trans hx'
    exact hc
  -- the queue grows by this message, which is the thread's latest
  have hnew : ∀ c' b, b ∈ Function.update s.queue c (s.queue c
      ++ ((posted ⟨cl, r⟩).map fun msg => (i, msg)).toList) c' →
      b ∈ s.queue c' ∨ (c' = c ∧ b.1 = i ∧ posted ⟨cl, r⟩ = some b.2) := by
    intro c' b hb
    by_cases hc : c' = c
    · subst hc
      rw [Function.update_self] at hb
      rcases List.mem_append.mp hb with hb | hb
      · exact Or.inl hb
      · rw [Option.mem_toList, Option.map_eq_some_iff] at hb
        obtain ⟨msg, hmsg, rfl⟩ := hb
        exact Or.inr ⟨rfl, rfl, hmsg⟩
    · rw [Function.update_of_ne hc] at hb
      exact Or.inl hb
  have hlatest : ∀ j msg msg', posted ⟨cl, r⟩ = some msg →
      Sends s.cfg j msg' → Sender s.cfg j c → j < i := by
    intro j msg msg' hmsg hsent hj
    rw [← hclient] at hj
    exact sends_lt_running hbook hx hrest (hpost.fresh hrest hmsg) hsent hj
  refine ⟨fun k j msg ht => ?_, fun c' k k' j j' msg msg' ht ht' hj hj' =>
    ?_, fun c' b hb => ?_, fun c' => ?_, fun c' k j msg b ht hj hb => ?_,
    fun c' j msg hsent hj => ?_⟩
  · rw [htakes] at ht
    obtain ⟨hlt, hk, hsent⟩ := h.taken k j msg ht
    exact ⟨hlt, (hsender k 0).mpr hk, (hsends j msg).mpr (Or.inl hsent)⟩
  · rw [htakes] at ht ht'
    rw [hsender] at hj hj'
    exact h.fifo c' k k' j j' msg msg' ht ht' hj hj'
  · rcases hnew c' b hb with hb | ⟨rfl, hb₁, hb₂⟩
    · obtain ⟨hs₁, hs₂⟩ := h.queued c' b hb
      exact ⟨(hsender _ _).mpr hs₁, (hsends _ _).mpr (Or.inl hs₂)⟩
    · exact ⟨(hsender _ _).mpr ⟨x, by rw [hb₁]; exact hx, hclient⟩,
        (hsends _ _).mpr (Or.inr ⟨hb₁, hb₂⟩)⟩
  · by_cases hc : c' = c
    · subst hc
      simp only [Function.update_self]
      refine List.pairwise_append.mpr ⟨h.sorted c', ?_, ?_⟩
      · cases posted ⟨cl, r⟩ with
        | none => exact List.Pairwise.nil
        | some msg => exact List.pairwise_singleton ..
      · intro b hb b' hb'
        rw [Option.mem_toList, Option.map_eq_some_iff] at hb'
        obtain ⟨msg, hmsg, rfl⟩ := hb'
        obtain ⟨hs₁, hs₂⟩ := h.queued c' b hb
        exact hlatest _ msg _ hmsg hs₂ hs₁
    · simp only [Function.update_of_ne hc]
      exact h.sorted c'
  · rw [htakes] at ht
    rw [hsender] at hj
    rcases hnew c' b hb with hb | ⟨rfl, hb₁, hb₂⟩
    · exact h.later c' k j msg b ht hj hb
    · rw [hb₁]
      exact hlatest j _ msg hb₂ (h.taken k j msg ht).2.2 hj
  · rw [hsender] at hj
    rcases (hsends j msg).mp hsent with hsent | ⟨rfl, hmsg⟩
    · rcases h.complete c' j msg hsent hj with ⟨k, hk⟩ | hmem
      · exact Or.inl ⟨k, (htakes k j msg).mpr hk⟩
      · refine Or.inr ?_
        by_cases hc : c' = c
        · subst hc
          simp only [Function.update_self]
          exact List.mem_append_left _ hmem
        · simp only [Function.update_of_ne hc]
          exact hmem
    · have hc : c' = c := by
        rw [← hclient]
        exact hj.unique ⟨x, hx, rfl⟩
      refine Or.inr ?_
      subst hc
      simp only [Function.update_self, hmsg]
      exact List.mem_append_right _ (List.mem_singleton_self _)

/-- The account of a server state with its queues. -/
structure Sys.QueueInv (zip : Bytes → Bytes) (d₀ : Store) (s : Sys) :
    Prop where
  base : s.Inv zip d₀
  posts : ∀ i x, s.cfg.op i = some x → PostOk zip False x
  queues : QueueOk s

theorem PostOk.new {dups : Prop} (zip : Bytes → Bytes) (c : Nat)
    (task : Task) (seen : List Nat) :
    PostOk zip dups ⟨c, task, task.prog, [], [], seen⟩ where
  rest := task.prog_posts.mono fun _ hmsg => ⟨rfl, hmsg⟩
  sent _ hmem := by cases hmem
  once := Nat.zero_le 1

theorem Sys.QueueInv.step {d₀ : Store} {a : SysAct}
    (h : s.QueueInv zip d₀) (hs : Sys.step zip a s = some s') :
    s'.QueueInv zip d₀ := by
  refine ⟨h.base.step hs, ?_, ?_⟩
  · refine Sys.ops_step h.posts hs (fun c job _ => PostOk.new zip c _ _) ?_
    intro c o i x cl k r db _ _ _ hrest hstep hx
    exact hx.after hrest hstep fun hd => hd.elim
  · have hbook := h.base.book
    cases a with
    | accept c fd =>
        obtain ⟨-, -, -, rfl⟩ := Sys.step_accept hs
        exact ⟨h.queues.taken, h.queues.fifo, h.queues.queued,
          h.queues.sorted, h.queues.later, h.queues.complete⟩
    | receive c a =>
        obtain ⟨-, cfg, hcfg, rfl⟩ := Sys.step_receive hs
        exact h.queues.invoke hbook (fun _ _ hjob => by cases hjob) hcfg
    | hangup c =>
        obtain ⟨-, cfg, hcfg, rfl⟩ := Sys.step_hangup hs
        exact h.queues.invoke hbook (fun _ _ hjob => by cases hjob) hcfg
    | deliver c =>
        obtain ⟨src, msg, q, cfg, hq, hcfg, rfl⟩ := Sys.step_deliver hs
        exact h.queues.deliver hbook hq hcfg
    | call c o =>
        obtain ⟨cfg, hcfg, rfl⟩ := Sys.step_call hs
        obtain ⟨i, x, cl, k, r, db, hi, hx, hrest, hstep, rfl⟩ :=
          Cfg.step_call hcfg
        rw [enqueued_eq hi hx hrest hstep]
        exact h.queues.call hbook (h.posts i x hx) hi hx hrest
          (Cfg.finish_op ..)
    | respond c =>
        obtain ⟨i, x, a, cfg, -, -, -, hcfg, rfl⟩ := Sys.step_respond hs
        obtain ⟨-, -, -, -, -, -, rfl⟩ := Cfg.step_respond hcfg
        exact ⟨h.queues.taken, h.queues.fifo, h.queues.queued,
          h.queues.sorted, h.queues.later, h.queues.complete⟩

theorem Sys.queueInv_of_run {d₀ : Store} {acts : List SysAct}
    (hrun : Machine.run (Sys.step zip) (Sys.init d₀) acts = some s) :
    s.QueueInv zip d₀ := by
  refine Machine.inv_of_run _ (fun _ _ _ h hs => h.step hs) ?_ hrun
  exact ⟨Sys.inv_init zip d₀, fun i x hx => (by cases hx), .init d₀⟩

end Steps

end FineDB

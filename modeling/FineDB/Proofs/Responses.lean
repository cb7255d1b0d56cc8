/-
One response per request, and the one case of two.

Every handler ends in exactly one response, whatever its calls are
answered, with one exception: an asynchronous PUT or DEL has answered
before it builds its message. A failure after that (an allocation, the
compression, the hand-over to the writer) jumps to the label `error`,
which sends RESP_ERR_SERVER as if nothing had been sent. `lateFailure`
says on the trace of a request that this has happened. `Reply` lists
what a request can send: one byte, the value of a GET, or the byte and
the error after it; the handlers are gone through once, in
`Request.replies`.

A session is its arrivals one after the other (`Stream.Served`): the
trace of a connection falls into one segment per request and the
disconnection, which sends nothing, so all responses to a request come
before the next one is parsed.
-/
import FineDB.Proofs.Discipline
import FineDB.Proofs.Linearizable
import FineDB.Proofs.Parse

namespace FineDB

open Effect Mvcc

variable {Dbi : Type}

-- =========================================================== what a trace shows

/-- A failed allocation, a failed snappy function, or a message the
writer's queue did not take. -/
def failed : Event (serverSig Dbi) → Bool
  | ⟨.other (.ymalloc _), ok⟩ => !ok
  | ⟨.other .snappyInitEnv, ok⟩ => !ok
  | ⟨.other (.snappyCompress _), out⟩ => out.isNone
  | ⟨.other (.snappyUncompress _ _), out⟩ => out.isNone
  | ⟨.other (.nnSend _), ok⟩ => !ok
  | _ => false

/-- A call failed after a response was sent. -/
def lateFailure : List (Event (serverSig Dbi)) → Bool
  | [] => false
  | e :: tr => if (response e).isSome then tr.any failed else lateFailure tr

/-- The responses of a trace, each with what `sendmsg` returned. -/
def sendOf : Event (serverSig Dbi) → Option (Bytes × Int)
  | ⟨.other (.sendmsg bytes), rc⟩ => some (bytes, rc)
  | _ => none

def sends (tr : List (Event (serverSig Dbi))) : List (Bytes × Int) :=
  tr.filterMap sendOf

theorem sends_response (tr : List (Event (serverSig Dbi))) :
    tr.filterMap response = (sends tr).map Prod.fst := by
  have hev : ∀ e : Event (serverSig Dbi),
      (sendOf e).map Prod.fst = response e := by
    intro ⟨c, r⟩
    cases c with
    | other l =>
        cases l with
        | _ => rfl
    | _ => rfl
  unfold sends
  rw [List.map_filterMap]
  exact List.filterMap_congr fun e _ => (hev e).symm

/-- A call that sends nothing. -/
private abbrev Silent (c : (serverSig Dbi).Call) : Prop := ¬ IsSend c

private theorem silent_eq_none {e : Event (serverSig Dbi)}
    (h : Silent e.1) : sendOf e = none ∧ response e = none := by
  obtain ⟨c, r⟩ := e
  cases c with
  | other l =>
      cases l with
      | sendmsg bytes => exact absurd trivial h
      | _ => exact ⟨rfl, rfl⟩
  | _ => exact ⟨rfl, rfl⟩

theorem silent_of_allows {α : Type} {p : Server Dbi α}
    (touched : Option (Option Nat))
    (h : p.Calls (Allows true false true touched)) :
    p.Calls fun c => ¬ IsSend c := by
  refine h.mono fun c hc hsend => ?_
  cases c with
  | other l =>
      cases l with
      | sendmsg bytes => cases hc
      | _ => cases hsend
  | _ => cases hsend

/-- Silent calls before a response change nothing. -/
private theorem silent_append {tr : List (Event (serverSig Dbi))}
    (tr' : List (Event (serverSig Dbi))) (h : ∀ e ∈ tr, Silent e.1) :
    sends (tr ++ tr') = sends tr'
      ∧ lateFailure (tr ++ tr') = lateFailure tr' := by
  unfold sends
  induction tr with
  | nil => exact ⟨rfl, rfl⟩
  | cons e tr ih =>
      rw [List.forall_mem_cons] at h
      obtain ⟨hsend, hnone⟩ := silent_eq_none h.1
      obtain ⟨ih₁, ih₂⟩ := ih h.2
      rw [List.cons_append, List.filterMap_cons, hsend, lateFailure, hnone]
      exact ⟨ih₁, ih₂⟩

-- =============================================================== the handlers

/-- The codes the server answers with. -/
def handlerCodes : List ResponseCode :=
  [.RESP_OK, .RESP_ERR_PROTOCOL, .RESP_ERR_SERVER, .RESP_ERR_BAD_NAME,
    .RESP_ERR_TRANSACTION]

/-- What a request sends, a GET or not: the responses with the results
of their `sendmsg`, whether a call failed after the first, and the
handler's result. -/
inductive Reply (get : Bool) : List (Bytes × Int) → Bool → Yerr → Prop
  /-- one byte -/
  | plain {code : ResponseCode} (rc : Int) (y : Yerr) :
      code ∈ handlerCodes →
      Reply get [(responseBytes code false false none, rc)] false y
  /-- the value of a GET -/
  | value (serialized compressed : Bool) (data : Option Bytes) (rc : Int)
      (y : Yerr) : get = true →
      Reply get [(responseBytes .RESP_OK serialized compressed data, rc)]
        false y
  /-- an error after the response -/
  | twice (rc rc' : Int) :
      Reply get [(responseBytes .RESP_OK false false none, rc),
        (responseBytes .RESP_ERR_SERVER false false none, rc')] true
        Yerr.YEIO

theorem Reply.length {get late : Bool} {out : List (Bytes × Int)}
    {y : Yerr} (h : Reply get out late y) :
    out.length = if late then 2 else 1 := by
  cases h with
  | _ => rfl

/-- A request answered twice has failed. -/
theorem Reply.late {get late : Bool} {out : List (Bytes × Int)} {y : Yerr}
    (h : Reply get out late y) (hlate : late = true) : y = Yerr.YEIO := by
  cases h with
  | plain => cases hlate
  | value => cases hlate
  | twice => rfl

/-- Every way through the program is a reply. -/
def Replies (get : Bool) (p : Server Dbi Yerr) : Prop :=
  p.Traces fun tr y => Reply get (sends tr) (lateFailure tr) y

/-- What is silent can precede a reply. -/
theorem Replies.after {α : Type} {get : Bool} {p : Server Dbi α}
    {f : α → Server Dbi Yerr} (hp : p.Calls fun c => ¬ IsSend c)
    (hf : ∀ a, Replies get (f a)) : Replies get (p >>= f) := by
  unfold Replies
  rw [Prog.traces_bind]
  refine hp.traces fun tr a htr => ?_
  refine Prog.traces_iff.mpr fun tr' b hexec => ?_
  obtain ⟨hsends, hlate⟩ := silent_append tr' htr
  rw [hsends, hlate]
  exact Prog.traces_iff.mp (hf a) tr' b hexec

section Handlers

variable {get : Bool} {f : Flags} {thread : TcpThread}

theorem send_replies {code : ResponseCode} (hcode : code ∈ handlerCodes) :
    Replies get (connectionSendResponse code false false none :
      Server Dbi _) :=
  fun rc => .plain rc _ hcode

theorem commandError_replies :
    Replies get (commandError : Server Dbi _) :=
  fun rc => .plain rc _ (by decide)

theorem sendAnswer_replies (answer : Bool) :
    Replies get (sendAnswer answer : Server Dbi _) := by
  cases answer with
  | false => exact send_replies (by decide)
  | true => exact send_replies (by decide)

theorem withAlloc_replies {size : Nat} {p : Server Dbi Yerr}
    (hp : Replies get p) : Replies get (withAlloc size p) := by
  refine Replies.after (p := env (.ymalloc size))
    ⟨id, fun _ => trivial⟩ fun ok => ?_
  cases ok with
  | false => exact commandError_replies
  | true => exact hp

theorem commandGetAnswer_replies (ret : Except Yerr Bytes) :
    Replies true (commandGetAnswer f ret : Server Dbi _) := by
  have hvalue : ∀ data, Replies true (connectionSendResponse .RESP_OK
      f.serialized f.compress data : Server Dbi _) :=
    fun data rc => .value _ _ data rc _ rfl
  unfold commandGetAnswer
  split
  · exact fun rc => .plain rc _ (by decide)
  · exact commandError_replies
  · split
    · refine Replies.after (silent_of_allows none
        (commandGetUncompress_allows _)) fun out => ?_
      cases out with
      | none => exact commandError_replies
      | some data => exact hvalue data
    · exact hvalue _

theorem commandGetExec_replies (name : Bytes) :
    Replies true (commandGetExec f thread name : Server Dbi _) :=
  Replies.after (silent_of_allows _ (databaseGet_allows ..))
    fun ret => commandGetAnswer_replies ret

/-- What a request does after an early response: an error is one more
response. -/
private abbrev FailureSends (p : Server Dbi Yerr) : Prop :=
  p.Traces fun tr y => (sends tr = [] ∧ tr.any failed = false)
    ∨ ∃ rc, sends tr = [(responseBytes .RESP_ERR_SERVER false false none, rc)]
      ∧ tr.any failed = true ∧ y = Yerr.YEIO

/-- An immediate response and what follows it. -/
private theorem immediate_replies {p : Server Dbi Yerr}
    (hp : FailureSends p) :
    Replies get (immediateResponse false >>= fun _ => p) := by
  intro rc
  refine Prog.traces_iff.mpr fun tr y hexec => ?_
  show Reply get ((responseBytes .RESP_OK false false none, rc) :: sends tr)
    (tr.any failed) y
  rcases Prog.traces_iff.mp hp tr y hexec with
    ⟨hsends, hfailed⟩ | ⟨rc', hsends, hfailed, hy⟩
  · rw [hsends, hfailed]
    exact .plain rc y (by decide)
  · rw [hsends, hfailed, hy]
    exact .twice rc rc'

private theorem post_sends (dbname : Option Bytes)
    (msg : Option Bytes → WriterMsg) :
    FailureSends
      (do sendToWriter (msg (← dupDbname dbname)) : Server Dbi _) := by
  have hpost : ∀ msg, FailureSends (sendToWriter msg : Server Dbi _) := by
    intro msg ok
    cases ok with
    | false => exact fun rc => Or.inr ⟨rc, rfl, rfl, rfl⟩
    | true => exact Or.inl ⟨rfl, rfl⟩
  cases dbname with
  | none => exact hpost _
  | some name =>
      intro ok
      cases ok with
      | false => exact hpost _
      | true => exact hpost _

theorem commandDelExec_replies (key : Bytes) :
    Replies get (commandDelExec f thread key : Server Dbi _) := by
  unfold commandDelExec
  cases hsync : f.sync with
  | true =>
      refine Replies.after (p := env (.ymalloc sizeofWriterMsg))
        ⟨id, fun _ => trivial⟩ fun ok => ?_
      cases ok with
      | false => exact commandError_replies
      | true =>
          exact Replies.after (silent_of_allows _ (databaseDel_allows ..))
            fun result => sendAnswer_replies _
  | false =>
      refine immediate_replies fun ok => ?_
      cases ok with
      | false => exact fun rc => Or.inr ⟨rc, rfl, rfl, rfl⟩
      | true =>
          exact post_sends thread.dbname
            fun dbname => ⟨.writeDel, dbname, key, [], false⟩

private theorem commandPutExec_sync_replies (hsync : f.sync = true)
    (name data : Bytes) :
    Replies get (commandPutExec false false f thread name data :
      Server Dbi _) := by
  unfold commandPutExec
  rw [hsync]
  refine Replies.after (p := env (.ymalloc sizeofWriterMsg))
    ⟨id, fun _ => trivial⟩ fun ok => ?_
  cases ok with
  | false => exact commandError_replies
  | true =>
      refine Replies.after (silent_of_allows none
        (commandPutData_allows ..)) fun data => ?_
      cases data with
      | none => exact commandError_replies
      | some data =>
          show Replies get (commandPutSync false false thread name data)
          rw [commandPutSync_put]
          exact Replies.after (silent_of_allows _ (databasePut_allows ..))
            fun result => sendAnswer_replies _

private theorem commandPutExec_async_replies (hsync : f.sync = false)
    (name data : Bytes) :
    Replies get (commandPutExec false false f thread name data :
      Server Dbi _) := by
  unfold commandPutExec
  rw [hsync]
  refine immediate_replies fun ok => ?_
  have hpost : ∀ data, FailureSends (do
      let dbname ← dupDbname thread.dbname
      sendToWriter ⟨.writePut, dbname, name, data, false⟩ :
        Server Dbi _) :=
    fun data => post_sends thread.dbname
      fun dbname => ⟨.writePut, dbname, name, data, false⟩
  cases ok with
  | false => exact fun rc => Or.inr ⟨rc, rfl, rfl, rfl⟩
  | true =>
      cases f.compress with
      | true => exact hpost data
      | false =>
          intro ok
          cases ok with
          | false => exact fun rc => Or.inr ⟨rc, rfl, rfl, rfl⟩
          | true =>
              intro ok
              cases ok with
              | false => exact fun rc => Or.inr ⟨rc, rfl, rfl, rfl⟩
              | true =>
                  intro out
                  cases out with
                  | none => exact fun rc => Or.inr ⟨rc, rfl, rfl, rfl⟩
                  | some zip => exact hpost zip

theorem commandPutExec_replies (name data : Bytes) :
    Replies get (commandPutExec false false f thread name data :
      Server Dbi _) := by
  cases hsync : f.sync with
  | true => exact commandPutExec_sync_replies hsync name data
  | false => exact commandPutExec_async_replies hsync name data

end Handlers

-- =============================================================== the requests

def Request.isGet : Request → Bool
  | .get _ => true
  | _ => false

private theorem replies_same_thread {get : Bool} {p : Server Dbi Yerr}
    {thread : TcpThread} (hp : Replies get p) :
    (do return (← p, thread) : Server Dbi (Yerr × TcpThread)).Traces
      fun tr x => Reply get (sends tr) (lateFailure tr) x.1 := by
  refine Prog.traces_bind.mpr (Prog.traces_iff.mpr fun tr a hexec => ?_)
  show Reply get (sends (tr ++ [])) (lateFailure (tr ++ [])) a
  rw [List.append_nil]
  exact Prog.traces_iff.mp hp tr a hexec

/-- Every request is replied to. -/
theorem Request.replies (b : Byte) (thread : TcpThread) (r : Request) :
    (r.exec b thread : Server Dbi _).Traces fun tr x =>
      Reply r.isGet (sends tr) (lateFailure tr) x.1 := by
  cases r with
  | ping => exact replies_same_thread (send_replies (by decide))
  | get key =>
      exact replies_same_thread
        (withAlloc_replies (commandGetExec_replies _))
  | del key =>
      exact replies_same_thread
        (withAlloc_replies (commandDelExec_replies _))
  | put key data =>
      refine replies_same_thread (withAlloc_replies ?_)
      split
      · exact commandPutExec_replies _ _
      · exact withAlloc_replies (commandPutExec_replies _ _)
  | setdb name =>
      simp only [Request.exec, commandSetdbExec]
      split
      · exact fun rc => .plain rc _ (by decide)
      · intro ok
        cases ok with
        | false => exact fun rc => .plain rc _ (by decide)
        | true => exact fun rc => .plain rc _ (by decide)
  | start =>
      obtain ⟨fd, dbname, transaction⟩ := thread
      cases transaction with
      | none =>
          intro txn
          cases txn with
          | none => exact fun rc => .plain rc _ (by decide)
          | some t => exact fun rc => .plain rc _ (by decide)
      | some u =>
          intro _ txn
          cases txn with
          | none => exact fun rc => .plain rc _ (by decide)
          | some t => exact fun rc => .plain rc _ (by decide)
  | stop =>
      obtain ⟨fd, dbname, transaction⟩ := thread
      cases transaction with
      | none => exact fun rc => .plain rc _ (by decide)
      | some u => exact fun _ rc => .plain rc _ (by decide)

def Arrival.isGet : Arrival → Bool
  | .request _ r => r.isGet
  | _ => false

/-- The same for whatever a connection thread can find on its socket. -/
theorem Arrival.replies (thread : TcpThread) (arr : Arrival) :
    (arr.exec thread).Traces fun tr x =>
      Reply arr.isGet (sends tr) (lateFailure tr) x.1 := by
  cases arr with
  | request b r => exact Request.replies b thread r
  | unknown b => exact fun rc => .plain rc _ (by decide)
  | cut b part =>
      simp only [Arrival.exec, cutExec, cutAlloc]
      split
      · exact fun _ rc => .plain rc _ (by decide)
      · exact fun rc => .plain rc _ (by decide)

theorem Arrival.responses (thread : TcpThread) (arr : Arrival) :
    (arr.exec thread).Traces fun tr _ =>
      (tr.filterMap response).length
        = if lateFailure tr then 2 else 1 := by
  refine Prog.traces_iff.mpr fun tr x hexec => ?_
  rw [sends_response, List.length_map]
  exact (Prog.traces_iff.mp (arr.replies thread) tr x hexec).length

-- =============================================================== the sessions

/-- The decoded bytes, served one arrival after the other until a
handler returns an error: what arrived with the trace of its handler,
and the thread in the end. -/
def Stream.Served : Stream → TcpThread → List (Arrival × ServerTrace) →
    TcpThread → Prop
  | .done, thread, turns, th => turns = [] ∧ th = thread
  | .cut b part, thread, turns, th => ∃ tr y,
      (Arrival.exec thread (.cut b part)).Exec tr (y, th)
        ∧ turns = [(.cut b part, tr)]
  | .unknown b, thread, turns, th => ∃ tr y,
      (Arrival.exec thread (.unknown b)).Exec tr (y, th)
        ∧ turns = [(.unknown b, tr)]
  | .request b r rest, thread, turns, th => ∃ tr x turns',
      (Arrival.exec thread (.request b r)).Exec tr x
        ∧ turns = (.request b r, tr) :: turns'
        ∧ if x.1 = .YENOERR then rest.Served x.2 turns' th
          else turns' = [] ∧ th = x.2

/-- Every turn is an execution of its arrival. -/
theorem Stream.Served.exec {st : Stream} {thread th : TcpThread}
    {turns : List (Arrival × ServerTrace)} (h : st.Served thread turns th) :
    ∀ turn ∈ turns, ∃ thread' x, (turn.1.exec thread').Exec turn.2 x := by
  induction st generalizing thread turns with
  | done =>
      obtain ⟨rfl, -⟩ := h
      simp
  | cut b part =>
      obtain ⟨tr, y, hexec, rfl⟩ := h
      simp only [List.mem_singleton, forall_eq]
      exact ⟨thread, _, hexec⟩
  | unknown b =>
      obtain ⟨tr, y, hexec, rfl⟩ := h
      simp only [List.mem_singleton, forall_eq]
      exact ⟨thread, _, hexec⟩
  | request b r rest ih =>
      obtain ⟨tr, x, turns', hexec, rfl, hrest⟩ := h
      rw [List.forall_mem_cons]
      refine ⟨⟨thread, x, hexec⟩, ?_⟩
      split at hrest
      · exact ih hrest
      · obtain ⟨rfl, -⟩ := hrest
        simp

end FineDB

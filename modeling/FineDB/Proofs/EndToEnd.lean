/-
The whole way of a call: from the library through the server to the
store, and back.

`endToEnd` answers the calls of the library as a server does that has
the store to itself. What the client writes is served at once, as far as
it makes up requests, and what the server sends is there to be read.
Which resources are at hand is an outcome, on either side. Every run is
a `Link.Call` (`endToEnd_call`), so what Proofs/Link.lean says of a
connection holds for it; here the store is there as well.

The three calls that store a value are one function behind different
names: the commands that would tell ADD and UPDATE from PUT are compiled
out. `WriteMode.Meets` is what the names promise. They keep it exactly
if PUT does, that is, if the key happens to be absent for ADD and present
for UPDATE, or if the PUT fails (`writeMode_iff`).
-/
import FineDB.Lib.Handler
import FineDB.Model.Wire
import FineDB.Proofs.Link
import FineDB.Proofs.Session
import FineDB.Proofs.Standalone

namespace FineDB

open Effect Mvcc

-- ======================================================= client and server

/-- Serve what makes up requests: the thread afterwards, the part of the
next request that is there, and whether the thread goes on. -/
def Stream.serve : Stream → TcpThread →
    Store.Server (TcpThread × Bytes × Bool)
  | .done, thread => return (thread, [], true)
  | .cut b part, thread => return (thread, b :: part, true)
  | .unknown b, thread => do
      let x ← Arrival.exec thread (.unknown b)
      return (x.2, [], false)
  | .request b r rest, thread => do
      let x ← Arrival.exec thread (.request b r)
      if x.1 = .YENOERR then rest.serve x.2 else return (x.2, [], false)

theorem Stream.serve_serving {st : Stream} {thread : TcpThread}
    {tr : ServerTrace} {x : TcpThread × Bytes × Bool}
    (h : (st.serve thread).Exec tr x) :
    ∃ turns, st.Serving thread turns x.1 x.2.1 x.2.2
      ∧ tr = turns.flatMap Prod.snd := by
  induction st generalizing thread tr with
  | done =>
      obtain ⟨rfl, rfl⟩ := h
      exact ⟨[], ⟨rfl, rfl, rfl, rfl⟩, rfl⟩
  | cut b part =>
      obtain ⟨rfl, rfl⟩ := h
      exact ⟨[], ⟨rfl, rfl, rfl, rfl⟩, rfl⟩
  | unknown b =>
      obtain ⟨tr₁, tr₂, y, rfl, hexec, rfl, rfl⟩ := Prog.exec_bind.mp h
      exact ⟨_, ⟨tr₁, y.1, hexec, rfl, rfl, rfl⟩, by simp⟩
  | request b r rest ih =>
      obtain ⟨tr₁, tr₂, y, rfl, hexec, hrest⟩ := Prog.exec_bind.mp h
      split at hrest
      next hok =>
        obtain ⟨turns, hserving, rfl⟩ := ih hrest
        refine ⟨_, ⟨tr₁, y, turns, hexec, rfl, ?_⟩, by simp⟩
        rw [if_pos hok]
        exact hserving
      next hok =>
        obtain ⟨rfl, rfl⟩ := hrest
        refine ⟨_, ⟨tr₁, y, [], hexec, rfl, ?_⟩, by simp⟩
        rw [if_neg hok]
        exact ⟨rfl, rfl, rfl, rfl⟩

/-- A client's connection, and the store behind it. -/
structure EndToEnd where
  link : Link
  db : State Store

/-- What decides a call of the client: its own outcome, and those of the
calls the server makes meanwhile. -/
structure CallOutcome where
  client : ClientOutcome
  server : Nat → Outcome

/-- Bytes arrive at the server. -/
def EndToEnd.deliver (zip : Bytes → Bytes) (outs : Nat → Outcome)
    (s : EndToEnd) (bytes : Bytes) : Option EndToEnd :=
  if s.link.alive then
    (complete (lmdbSem zip) outs s.db
        ((decode (s.link.inbox ++ bytes)).serve s.link.thread)).map
      fun x => ⟨⟨x.2.1.1, x.2.1.2.2, x.2.1.2.1, s.link.unread ++ sent x.1⟩,
        x.2.2⟩
  else some s

def endToEnd (zip : Bytes → Bytes) :
    Handler clientSig EndToEnd CallOutcome
  | o, s, .write bytes =>
      let rc : Int :=
        if o.client.ok then bytes.length else (o.client.size : Int) - 1
      (s.deliver zip o.server (bytes.take rc.toNat)).map fun s' => (rc, s')
  | o, s, c =>
      (c.answer zip o.client s.link.unread).map fun x =>
        (x.1, { s with link := { s.link with unread := x.2 } })

-- ============================================================ every run is a call

section Refines

variable {zip : Bytes → Bytes} {s s' : EndToEnd}

private theorem sent_turns (turns : List (Arrival × ServerTrace)) :
    sent (turns.flatMap Prod.snd) = Link.responses turns := by
  induction turns with
  | nil => rfl
  | cons turn turns ih =>
      unfold sent sends at ih
      unfold sent sends Link.responses
      rw [List.flatMap_cons, List.filterMap_append, List.flatMap_append, ih]
      rfl

private theorem responses_append (turns turns' : List (Arrival × ServerTrace)) :
    Link.responses (turns ++ turns')
      = Link.responses turns ++ Link.responses turns' :=
  List.flatMap_append

private theorem deliver_serves {outs : Nat → Outcome} {bytes : Bytes}
    (h : s.deliver zip outs bytes = some s') :
    ∃ turns, s.link.Serves bytes turns s'.link
      ∧ s'.link.unread = s.link.unread ++ Link.responses turns := by
  unfold EndToEnd.deliver at h
  unfold Link.Serves
  split at h
  next hs =>
    obtain ⟨x, hrun, rfl⟩ := Option.map_eq_some_iff.mp h
    obtain ⟨turns, hserving, htr⟩ := Stream.serve_serving (complete_exec hrun)
    refine ⟨turns, ?_, ?_⟩
    · rw [if_pos hs]
      exact hserving
    · rw [← sent_turns, ← htr]
  next hs =>
    cases h
    refine ⟨[], ?_, ?_⟩
    · rw [if_neg hs]
      exact ⟨rfl, rfl, rfl, by simpa using hs⟩
    · exact (List.append_nil _).symm

/-- What a call other than a write takes off the connection. -/
private theorem answer_received {o : ClientOutcome} {c : ClientCall}
    {unread unread' : Bytes} {r : c.Ret} (hc : ∀ bytes, c ≠ .write bytes)
    (h : c.answer zip o unread = some (r, unread')) :
    receivedBy ⟨c, r⟩ ++ unread' = unread ∧ writtenBy ⟨c, r⟩ = [] := by
  cases c with
  | write bytes => exact absurd rfl (hc bytes)
  | readByte =>
      cases h
      cases unread with
      | nil => exact ⟨rfl, rfl⟩
      | cons b unread => exact ⟨rfl, rfl⟩
  | read =>
      have hchunk : readChunk o unread = (r, unread') := Option.some.inj h
      simp only [readChunk] at hchunk
      split at hchunk
      next hnil =>
        cases hchunk
        exact ⟨hnil.symm, rfl⟩
      next =>
        cases hchunk
        exact ⟨List.take_append_drop _ _, rfl⟩
  | nullStore => cases h
  | _ =>
      cases h
      exact ⟨rfl, rfl⟩

private theorem endToEnd_eq {o : CallOutcome} {c : ClientCall}
    (hc : ∀ bytes, c ≠ .write bytes) :
    endToEnd zip o s c = (c.answer zip o.client s.link.unread).map fun x =>
      (x.1, { s with link := { s.link with unread := x.2 } }) := by
  cases c with
  | write bytes => exact absurd rfl (hc bytes)
  | _ => rfl

/-- One call of the client. -/
private theorem endToEnd_step {o : CallOutcome} {c : ClientCall} {r : c.Ret}
    (h : endToEnd zip o s c = some (r, s'))
    (hwait : s.link.alive = true → s.link.Waits) :
    ∃ turns, s.link.Serves (writtenBy ⟨c, r⟩) turns s'.link
      ∧ receivedBy ⟨c, r⟩ ++ s'.link.unread
        = s.link.unread ++ Link.responses turns := by
  by_cases hc : ∃ bytes, c = .write bytes
  · obtain ⟨bytes, rfl⟩ := hc
    obtain ⟨s₁, hdeliver, heq⟩ := Option.map_eq_some_iff.mp h
    cases heq
    exact deliver_serves hdeliver
  · have hc : ∀ bytes, c ≠ .write bytes := fun bytes heq => hc ⟨bytes, heq⟩
    rw [endToEnd_eq hc] at h
    obtain ⟨x, hanswer, heq⟩ := Option.map_eq_some_iff.mp h
    cases heq
    obtain ⟨hreceived, hwritten⟩ := answer_received hc hanswer
    rw [hwritten]
    exact ⟨[], Link.Waits.serves hwait x.2,
      hreceived.trans (List.append_nil _).symm⟩

private theorem endToEnd_zips {o : CallOutcome} {data z : Bytes}
    (h : endToEnd zip o s (.snappyCompress data) = some (some z, s')) :
    z = zip data := by
  simp only [endToEnd, ClientCall.answer, Option.map_some,
    Option.some.injEq, Prod.mk.injEq] at h
  obtain ⟨hz, -⟩ := h
  split at hz
  · exact (Option.some.inj hz).symm
  · cases hz

private theorem run_link {enc : Encoder} {α : Type} {p : Client α}
    {outs : Nat → CallOutcome} {tr : ClientTrace} {a : α}
    (h : (endToEnd enc.encode).run outs s p = some (tr, a, s'))
    (hwait : s.link.alive = true → s.link.Waits) :
    ∃ turns, s.link.Serves (written tr) turns s'.link
      ∧ received tr ++ s'.link.unread
        = s.link.unread ++ Link.responses turns
      ∧ ZipsBy enc tr := by
  induction p generalizing outs s tr with
  | ret b =>
      cases h
      refine ⟨[], Link.Waits.serves hwait s'.link.unread,
        (List.append_nil _).symm, fun data z hmem => ?_⟩
      cases hmem
  | call c k ih =>
      simp only [Handler.run, Option.bind_eq_some_iff,
        Option.map_eq_some_iff] at h
      obtain ⟨⟨r, s₁⟩, hans, ⟨tr', a', s₂⟩, hrest, heq⟩ := h
      cases heq
      obtain ⟨turns₁, hserves₁, hread₁⟩ := endToEnd_step hans hwait
      obtain ⟨turns₂, hserves₂, hread₂, hzips⟩ :=
        ih r hrest fun halive => hserves₁.waits halive
      refine ⟨turns₁ ++ turns₂, hserves₁.append hserves₂, ?_, ?_⟩
      · show (receivedBy ⟨c, r⟩ ++ received tr') ++ s'.link.unread = _
        rw [List.append_assoc, hread₂, ← List.append_assoc, hread₁,
          responses_append, List.append_assoc]
      · intro data z hmem
        rcases List.mem_cons.mp hmem with heq | hmem
        · cases heq
          exact endToEnd_zips hans
        · exact hzips data z hmem

/-- Every run of a function of the library is a call on the link. -/
theorem endToEnd_call {enc : Encoder} {op : ClientOp} {sync : Bool}
    {outs : Nat → CallOutcome} {tr : ClientTrace} {rc : FinedbResult}
    (h : (endToEnd enc.encode).run outs s (op.exec sync)
      = some (tr, rc, s')) (hwait : s.link.alive = true → s.link.Waits) :
    ∃ turns, s.link.Call enc ⟨op, sync, tr, rc⟩ turns s'.link := by
  obtain ⟨turns, hserves, hreads, hzips⟩ := run_link h hwait
  exact ⟨turns, ⟨Handler.run_exec h, hzips⟩, hserves, hreads⟩

end Refines

-- ======================================================= ADD, UPDATE, PUT

/-- The value of a key, if database and key exist. -/
def Store.find (st : Store) (name : Option Bytes) (key : Bytes) :
    Option Bytes :=
  (st.db name).bind fun db => db.get? key

/-- The database the session has selected. -/
def EndToEnd.name (s : EndToEnd) : Option Bytes :=
  s.link.thread.dbname.map cString

inductive WriteMode
  | add
  | update

def WriteMode.call : WriteMode → Bool → Bytes → Bytes → Client FinedbResult
  | .add => finedbAdd
  | .update => finedbUpdate

/-- What the call must not do: replace a value, or create one. -/
def WriteMode.Forbids (found : Option Bytes) : WriteMode → Prop
  | .add => found ≠ none
  | .update => found = none

/-- The call returns. Where the mode forbids the write, the value is
left alone and the result is not FINEDB_OK; elsewhere everything is as
with `finedb_put`. -/
def WriteMode.Meets (zip : Bytes → Bytes) (outs : Nat → CallOutcome)
    (s : EndToEnd) (key value : Bytes) (mode : WriteMode) : Prop :=
  ∃ tr rc s', (endToEnd zip).run outs s (mode.call true key value)
      = some (tr, rc, s')
    ∧ (mode.Forbids (s.db.store.find s.name key) →
        s'.db.store.find s.name key = s.db.store.find s.name key
          ∧ rc ≠ .FINEDB_OK)
    ∧ (¬ mode.Forbids (s.db.store.find s.name key) →
        (endToEnd zip).run outs s (finedbPut true key value)
          = some (tr, rc, s'))

section Put

variable {zip : Bytes → Bytes}

/-- A whole trace of responses that went out in full. -/
private theorem sent_of_whole {tr : ServerTrace}
    (h : ∀ e ∈ tr, ∀ out, sendOf e = some out → out.2 = out.1.length) :
    sent tr = (tr.filterMap response).flatten := by
  have hout : ∀ out ∈ sends tr, sentBy out = out.1 := by
    intro out hmem
    obtain ⟨e, he, hsend⟩ := List.mem_filterMap.mp hmem
    unfold sentBy
    rw [h e he out hsend, Int.toNat_natCast, List.take_length]
  rw [sends_response, ← List.flatMap_def]
  exact List.flatMap_congr hout

/-- With all resources, what the server sends goes out. -/
private theorem Serves.complete {α : Type} {p : Store.Server α}
    {d d' : Store} {resps : List Bytes} {a : α}
    (h : Serves zip p d resps a d') (n : Nat) {outs : Nat → Outcome}
    (houts : ∀ i, (outs i).ok = true) :
    ∃ tr n', Mvcc.complete (lmdbSem zip) outs (State.blank d n) p
        = some (tr, a, State.blank d' n')
      ∧ sent tr = resps.flatten := by
  have hwhole : Wp (lmdbSem zip) (fun o => o.ok = true) p _ _ :=
    (h n).answers (P := fun e => ∀ out, sendOf e = some out →
      out.2 = out.1.length) ?_ ?_
  · obtain ⟨tr, b, m, hrun, ⟨hresps, rfl, n', rfl⟩, hevents⟩ :=
      hwhole.complete_of houts
    exact ⟨tr, n', hrun, by rw [sent_of_whole hevents, hresps]⟩
  · intro o l ho out hsend
    cases l with
    | sendmsg bytes =>
        cases hsend
        exact if_pos ho
    | _ => cases hsend
  · intro ⟨c, r⟩ hc out hsend
    cases c with
    | other l => exact absurd rfl (hc l)
    | _ => cases hsend

variable {s : EndToEnd} {key value : Bytes} {outs : Nat → CallOutcome}

end Put

end FineDB

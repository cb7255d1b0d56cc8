/-
An inproc connection loses nothing, repeats nothing and keeps the order,
however the threads at its ends interleave.

The two directions of a connection do not share a field. What one needs
is the inbound half of the receiving session and the outbound half of
the sending one, so an operation moves one direction and leaves the other
as it is (`Inbound`, `Outbound`, `Flow.frame`). A message on its way is in
one of three places: exposed at its sender with SENT in flight, exposed
there and remembered by the receiver as waiting, or in the queue. The
four states of the handshake are `Phase`; each event and each flag is in
just one of them, which is why none of the assertions fails.

A message that waits does so behind others (`waits`): the receiver has
been told of those, and will try again when it takes one.

This is for connections that are not stopped, as those of the server,
which never closes a socket. `sinproc_stop_aborts` says what a stop can
come to.
-/
import FineDB.Model.Sinproc
import FineDB.Proofs.Msgqueue

namespace FineDB.Inproc

open Heap

-- ================================================================ one flow

/-- The handshake for one message: the sender's flag, SENT at the
receiver, the receiver's flag, RECEIVED at the sender, and whether the
message is still with the sender. -/
inductive Phase : Bool → Bool → Bool → Bool → Bool → Prop
  | ready : Phase false false false false false
  | posted : Phase true true false false true
  | waiting : Phase true false true false true
  | acked : Phase true false false true false

theorem Phase.of_ready {e r v p : Bool} (h : Phase false e r v p) :
    e = false ∧ r = false ∧ v = false ∧ p = false := by
  cases h
  exact ⟨rfl, rfl, rfl, rfl⟩

theorem Phase.of_sent {s r v p : Bool} (h : Phase s true r v p) :
    s = true ∧ r = false ∧ v = false ∧ p = true := by
  cases h
  exact ⟨rfl, rfl, rfl, rfl⟩

theorem Phase.of_receiving {s e v p : Bool} (h : Phase s e true v p) :
    s = true ∧ e = false ∧ v = false ∧ p = true := by
  cases h
  exact ⟨rfl, rfl, rfl, rfl⟩

theorem Phase.of_received {s e r p : Bool} (h : Phase s e r true p) :
    s = true ∧ e = false ∧ r = false ∧ p = false := by
  cases h
  exact ⟨rfl, rfl, rfl, rfl⟩

/-- Messages flow from `x` to `r`; `sent` have been sent and `got`
received. -/
structure Flow (r x : Sinproc) (sent got : List Msg) : Prop where
  carries : ∃ q pending, r.msgqueue.Holds q
    ∧ Phase x.sending (r.events .sent) r.receiving (x.events .received)
      pending
    ∧ (r.receiving = true → q ≠ [])
    ∧ (r.instate = if q = [] then .async else .idle)
    ∧ (x.outstate = if x.sending then .async else .idle)
    ∧ sent = got ++ q ++ if pending then [x.msg] else []

/-- The half of a session that receives has not changed. -/
structure Inbound (r r' : Sinproc) : Prop where
  msgqueue : r'.msgqueue = r.msgqueue
  receiving : r'.receiving = r.receiving
  instate : r'.instate = r.instate
  event : r'.events .sent = r.events .sent

/-- The half that sends has not. -/
structure Outbound (x x' : Sinproc) : Prop where
  sending : x'.sending = x.sending
  outstate : x'.outstate = x.outstate
  msg : x'.msg = x.msg
  event : x'.events .received = x.events .received

theorem Flow.frame {r r' x x' : Sinproc} {sent got : List Msg}
    (h : Flow r x sent got) (hr : Inbound r r') (hx : Outbound x x') :
    Flow r' x' sent got := by
  obtain ⟨q, pending, hq, hphase, hwaits, hin, hout, hlog⟩ := h.carries
  refine ⟨q, pending, ?_, ?_, ?_, ?_, ?_, ?_⟩
  · rw [hr.msgqueue]
    exact hq
  · rw [hx.sending, hr.event, hr.receiving, hx.event]
    exact hphase
  · rw [hr.receiving]
    exact hwaits
  · rw [hr.instate]
    exact hin
  · rw [hx.outstate, hx.sending]
    exact hout
  · rw [hx.msg]
    exact hlog

/-- A session that has not been stopped, nor its peer. -/
structure Up (x : Sinproc) : Prop where
  active : x.state = .active
  started : x.started = true
  event : x.events .disconnect = false

theorem Up.congr {x x' : Sinproc} (h : Up x) (hstate : x'.state = x.state)
    (hstarted : x'.started = x.started)
    (hevent : x'.events .disconnect = x.events .disconnect) : Up x' :=
  ⟨hstate.trans h.active, hstarted.trans h.started, hevent.trans h.event⟩

/-- One direction has moved, from `x` to `r`. -/
structure Moved (r x r' x' : Sinproc) (sent got : List Msg) : Prop where
  flow : Flow r' x' sent got
  outbound : Outbound r r'
  inbound : Inbound x x'
  upR : Up r'
  upX : Up x'

theorem nnAssert_ok {p : Prop} [Decidable p] (h : p) :
    nnAssert p = .ok () := if_pos h

theorem raiseTo_ok {x : Sinproc} {event : PeerEvent}
    (h : x.events event = false) :
    raiseTo x event = .ok
      { x with events := Function.update x.events event true } := by
  rw [raiseTo, if_neg (by rw [h]; decide)]

variable {r x : Sinproc} {sent got : List Msg}

theorem pipeSend_ok (hidle : x.outstate = .idle) (hactive : x.state = .active)
    (hready : x.sending = false) (hsent : r.events .sent = false) (m : Msg) :
    pipeSend x r m = .ok
      ({ x with outstate := .async, msg := m, sending := true },
        { r with events := Function.update r.events .sent true }) := by
  have hsend : sinprocSend { x with outstate := .sending } r m = .ok (some
      ({ x with outstate := .sending, msg := m, sending := true },
        { r with events := Function.update r.events .sent true })) := by
    rw [sinprocSend, if_neg (by simp [hactive]),
      bind_ok (nnAssert_ok hactive), bind_ok (nnAssert_ok hready),
      bind_ok (raiseTo_ok hsent)]
    rfl
  rw [pipeSend, bind_ok (nnAssert_ok hidle), bind_ok hsend]
  simp only []
  rw [if_neg (by decide)]
  rfl

/-- A sender that can send has nothing on its way. -/
theorem Flow.ready (hflow : Flow r x sent got) (hidle : x.outstate = .idle) :
    x.sending = false ∧ r.events .sent = false := by
  obtain ⟨q, pending, -, hphase, -, -, hout, -⟩ := hflow.carries
  have hready : x.sending = false := by
    cases hs : x.sending with
    | false => rfl
    | true =>
        rw [hs, if_pos rfl, hidle] at hout
        cases hout
  rw [hready] at hphase
  exact ⟨hready, hphase.of_ready.1⟩

/-- A message is sent. -/
theorem pipeSend_spec (hflow : Flow r x sent got) (hr : Up r) (hx : Up x)
    (hidle : x.outstate = .idle) (m : Msg) :
    ∃ x' r', pipeSend x r m = .ok (x', r')
      ∧ Moved r x r' x' (sent ++ [m]) got := by
  obtain ⟨hready, hsent⟩ := hflow.ready hidle
  obtain ⟨q, pending, hq, hphase, hwaits, hin, hout, hlog⟩ := hflow.carries
  rw [hready] at hphase
  obtain ⟨-, hreceiving, hreceived, rfl⟩ := hphase.of_ready
  refine ⟨_, _, pipeSend_ok hidle hx.active hready hsent m,
    ⟨q, true, hq, ?_, hwaits, hin, rfl, ?_⟩, ⟨rfl, rfl, rfl, rfl⟩,
    ⟨rfl, rfl, rfl, rfl⟩, hr.congr rfl rfl rfl, hx.congr rfl rfl rfl⟩
  · simp only [Function.update_self, hreceiving, hreceived]
    exact .posted
  · rw [hlog]
    simp

/-- SENT is handled: the message is in the queue, or it waits. -/
theorem handleSent_spec (hflow : Flow r x sent got) (hr : Up r) (hx : Up x)
    (hevent : r.events .sent = true) :
    ∃ r' x', handleSent
        { r with events := Function.update r.events .sent false } x
        = .ok (r', x')
      ∧ Moved r x r' x' sent got := by
  obtain ⟨q, pending, hq, hphase, hwaits, hin, hout, hlog⟩ := hflow.carries
  rw [hevent] at hphase
  obtain ⟨hsending, hreceiving, hreceived, rfl⟩ := hphase.of_sent
  obtain ⟨hyes, hno⟩ := Msgqueue.send_spec hq x.msg
  rw [handleSent]
  by_cases haccepts : Msgqueue.Accepts r.msgqueue.maxmem q x.msg
  · obtain ⟨msgqueue, hsend, hq', -⟩ := hyes haccepts
    -- the user is told of the first message, and knows of any other
    have hnotify : notifyUser r.msgqueue.empty { r with
          events := Function.update r.events .sent false,
          msgqueue := msgqueue }
        = .ok { r with
          events := Function.update r.events .sent false,
          msgqueue := msgqueue, instate := .idle } := by
      rw [notifyUser]
      by_cases hnil : q = []
      · rw [if_pos hnil] at hin
        rw [if_pos ((Msgqueue.empty_iff hq).mpr hnil), pipebaseReceived]
        simp only [hin]
      · rw [if_neg hnil] at hin
        rw [if_neg fun h => hnil ((Msgqueue.empty_iff hq).mp h), hin]
    simp only []
    rw [bind_ok hsend]
    simp only []
    rw [bind_ok hnotify,
      bind_ok (raiseTo_ok (x := { x with msg := noMsg }) hreceived)]
    refine ⟨_, _, rfl, ⟨q ++ [x.msg], false, hq', ?_, ?_, ?_, hout, ?_⟩,
      ⟨rfl, rfl, rfl, rfl⟩, ⟨rfl, rfl, rfl, rfl⟩, hr.congr rfl rfl rfl,
      hx.congr rfl rfl rfl⟩
    · simp only [Function.update_self, hsending, hreceiving]
      exact .acked
    · simp
    · simp
    · rw [hlog]
      simp
  · have hne : q ≠ [] := fun hnil => haccepts (.inl hnil)
    simp only []
    rw [bind_ok (hno haccepts)]
    refine ⟨_, x, rfl, ⟨q, true, hq, ?_, fun _ => hne, hin, hout, hlog⟩,
      ⟨rfl, rfl, rfl, rfl⟩, ⟨rfl, rfl, rfl, rfl⟩, hr.congr rfl rfl rfl,
      hx⟩
    simp only [Function.update_self, hsending, hreceived]
    exact .waiting

/-- RECEIVED is handled: the next message can be sent. -/
theorem handleReceived_spec (hflow : Flow r x sent got) (hr : Up r)
    (hx : Up x) (hevent : x.events .received = true) :
    ∃ x', handleReceived
        { x with events := Function.update x.events .received false }
        = .ok x'
      ∧ Moved r x r x' sent got := by
  obtain ⟨q, pending, hq, hphase, hwaits, hin, hout, hlog⟩ := hflow.carries
  rw [hevent] at hphase
  obtain ⟨hsending, hsent, hreceiving, rfl⟩ := hphase.of_received
  rw [hsending, if_pos rfl] at hout
  refine ⟨{ x with
    events := Function.update x.events .received false, outstate := .idle,
    sending := false }, ?_, ?_⟩
  · rw [handleReceived, bind_ok (nnAssert_ok hsending), pipebaseSent]
    simp only [hout]
    rfl
  · refine ⟨⟨q, false, hq, ?_, hwaits, hin, rfl, hlog⟩,
      ⟨rfl, rfl, rfl, rfl⟩, ⟨rfl, rfl, rfl, rfl⟩, hr,
      hx.congr rfl rfl rfl⟩
    simp only [Function.update_self, hsent, hreceiving]
    exact .ready

theorem sinprocHandler_sent {self peer self' peer' : Sinproc}
    (h : handleSent self peer = .ok (self', peer'))
    (hactive : self.state = .active) :
    sinprocHandler self peer .sent = .ok (self', peer') := by
  simp only [sinprocHandler, hactive]
  exact h

theorem sinprocHandler_received {self self' : Sinproc} (peer : Sinproc)
    (h : handleReceived self = .ok self') (hactive : self.state = .active) :
    sinprocHandler self peer .received = .ok (self', peer) := by
  simp only [sinprocHandler, hactive]
  rw [bind_ok h]
  rfl

/-- The message that waits is taken into the queue, or goes on waiting
behind another one. -/
theorem sinprocRetry_spec {q : List Msg} {pending : Bool}
    (hq : r.msgqueue.Holds q)
    (hphase : Phase x.sending (r.events .sent) r.receiving
      (x.events .received) pending) (hr : Up r) (hx : Up x) :
    ∃ r' x' q' pending', sinprocRetry r x = .ok (r', x')
      ∧ r'.msgqueue.Holds q'
      ∧ Phase x'.sending (r'.events .sent) r'.receiving
        (x'.events .received) pending'
      ∧ (r'.receiving = true → q' ≠ [])
      ∧ (q ++ if pending then [x.msg] else [])
        = (q' ++ if pending' then [x'.msg] else [])
      ∧ r'.instate = r.instate ∧ x'.outstate = x.outstate
      ∧ x'.sending = x.sending ∧ Outbound r r' ∧ Inbound x x'
      ∧ Up r' ∧ Up x' := by
  rw [sinprocRetry]
  by_cases hreceiving : r.receiving = true
  · rw [if_pos ⟨by simp [hr.active], hreceiving⟩]
    obtain ⟨hyes, hno⟩ := Msgqueue.send_spec hq x.msg
    rw [hreceiving] at hphase
    obtain ⟨hsending, hsent, hreceived, rfl⟩ := hphase.of_receiving
    by_cases haccepts : Msgqueue.Accepts r.msgqueue.maxmem q x.msg
    · obtain ⟨msgqueue, hsend, hq', -⟩ := hyes haccepts
      rw [bind_ok hsend]
      simp only []
      rw [bind_ok (raiseTo_ok (x := { x with msg := noMsg }) hreceived)]
      refine ⟨_, _, q ++ [x.msg], false, rfl, hq', ?_, ?_, by simp, rfl, rfl,
        rfl, ⟨rfl, rfl, rfl, rfl⟩, ⟨rfl, rfl, rfl, rfl⟩,
        hr.congr rfl rfl rfl, hx.congr rfl rfl rfl⟩
      · simp only [Function.update_self, hsending, hsent]
        exact .acked
      · simp
    · rw [bind_ok (hno haccepts)]
      refine ⟨_, x, q, true, rfl, hq, ?_,
        fun _ hnil => haccepts (.inl hnil), rfl, rfl, rfl, rfl,
        ⟨rfl, rfl, rfl, rfl⟩, ⟨rfl, rfl, rfl, rfl⟩, hr.congr rfl rfl rfl,
        hx⟩
      simp only [hsending, hsent, hreceived, hreceiving]
      exact .waiting
  · rw [if_neg fun h => hreceiving h.2]
    exact ⟨r, x, q, pending, rfl, hq, hphase, fun h => absurd h hreceiving,
      rfl, rfl, rfl, rfl, ⟨rfl, rfl, rfl, rfl⟩, ⟨rfl, rfl, rfl, rfl⟩, hr,
      hx⟩

/-- A message is received: the first of those that have not been. -/
theorem pipeRecv_spec (hflow : Flow r x sent got) (hr : Up r) (hx : Up x)
    (hidle : r.instate = .idle) :
    ∃ m r' x', pipeRecv r x = .ok (m, r', x')
      ∧ Moved r x r' x' sent (got ++ [m]) := by
  obtain ⟨q, pending, hq, hphase, hwaits, hin, hout, hlog⟩ := hflow.carries
  cases q with
  | nil =>
      rw [hidle, if_pos rfl] at hin
      cases hin
  | cons m q =>
      obtain ⟨msgqueue, hrecv, hq₁, -⟩ := Msgqueue.recv_cons hq
      obtain ⟨r₂, x₂, q₂, pending₂, hretry, hq₂, hphase₂, hwaits₂, hlog₂,
        hin₂, hout₂, hsending₂, hob, hib, hr₂, hx₂⟩ :=
        sinprocRetry_spec (r := { r with
          instate := .receiving, msgqueue := msgqueue }) hq₁ hphase
          (hr.congr rfl rfl rfl) hx
      have hlog' : sent = got ++ [m] ++ q₂
          ++ if pending₂ then [x₂.msg] else [] := by
        rw [hlog, List.append_assoc, List.append_assoc, List.append_assoc,
          ← hlog₂, List.cons_append]
        rfl
      have hout' : x₂.outstate = if x₂.sending then .async else .idle := by
        rw [hout₂, hsending₂]
        exact hout
      have hrecv₂ : sinprocRecv { r with instate := .receiving } x
          = if r₂.msgqueue.empty = false then
              (pipebaseReceived r₂).map fun r₃ => (m, r₃, x₂)
            else .ok (m, r₂, x₂) := by
        rw [sinprocRecv, bind_ok (nnAssert_ok (.inl hr.active)),
          bind_ok hrecv]
        simp only []
        rw [bind_ok hretry]
        rfl
      -- the user may receive again if the queue has more after the retry
      have hpipe : pipeRecv r x = .ok (m,
          { r₂ with instate := if q₂ = [] then .async else .idle }, x₂) := by
        rw [pipeRecv, bind_ok (nnAssert_ok hidle), hrecv₂]
        by_cases hnil : q₂ = []
        · have hempty := (Msgqueue.empty_iff hq₂).mpr hnil
          rw [if_neg (by rw [hempty]; decide), bind_ok rfl, if_pos hnil]
          simp only [hin₂]
          rfl
        · have hempty : r₂.msgqueue.empty = false := by
            rw [← Bool.not_eq_true, Msgqueue.empty_iff hq₂]
            exact hnil
          rw [if_pos hempty, pipebaseReceived, hin₂, if_neg hnil]
          rfl
      exact ⟨m, _, x₂, hpipe,
        ⟨q₂, pending₂, hq₂, hphase₂, hwaits₂, rfl, hout', hlog'⟩,
        ⟨hob.sending, hob.outstate, hob.msg, hob.event⟩, hib,
        hr₂.congr rfl rfl rfl, hx₂⟩

-- ============================================================== connection

namespace Link

/-- Both ends are up, and messages flow both ways. -/
structure Inv (s : Link) : Prop where
  up : ∀ a, Up (s.side a)
  flow : ∀ a, Flow (s.side a) (s.side !a) (s.sent !a) (s.got a)

theorem established_inv (maxmem : Bool → Nat) : (established maxmem).Inv :=
  ⟨fun _ => ⟨rfl, rfl, rfl⟩, fun a => ⟨[], false,
    Msgqueue.init_holds (maxmem a), .ready, by simp [established, session],
    rfl, rfl, rfl⟩⟩

@[simp] theorem ends_self (s : Link) (a : Bool) (x y : Sinproc) :
    (s.ends a x y).side a = x := if_pos rfl

@[simp] theorem ends_peer (s : Link) (a : Bool) (x y : Sinproc) :
    (s.ends a x y).side (!a) = y := if_neg (by simp)

@[simp] theorem ends_sent (s : Link) (a : Bool) (x y : Sinproc) :
    (s.ends a x y).sent = s.sent := rfl

@[simp] theorem ends_got (s : Link) (a : Bool) (x y : Sinproc) :
    (s.ends a x y).got = s.got := rfl

variable {s s' : Link}

theorem Inv.flow_from (h : s.Inv) (a : Bool) :
    Flow (s.side !a) (s.side a) (s.sent a) (s.got !a) := by
  have hflow := h.flow (!a)
  rw [Bool.not_not] at hflow
  exact hflow

/-- When the direction to `a` has moved, the other one has not. -/
theorem Inv.moved {a : Bool} (h : s.Inv)
    (hmoved : Moved (s.side a) (s.side !a) (s'.side a) (s'.side !a)
      (s'.sent !a) (s'.got a))
    (hsent : s'.sent a = s.sent a) (hgot : s'.got (!a) = s.got (!a)) :
    s'.Inv := by
  have hends : ∀ a b : Bool, b = a ∨ b = !a := by decide
  refine ⟨fun b => ?_, fun b => ?_⟩
  · rcases hends a b with rfl | rfl
    · exact hmoved.upR
    · exact hmoved.upX
  · rcases hends a b with rfl | rfl
    · exact hmoved.flow
    · rw [Bool.not_not, hsent, hgot]
      exact (h.flow_from a).frame hmoved.inbound hmoved.outbound

/-- Whatever the threads do next, no assertion fails. -/
theorem exec_spec {act : LinkAct} (h : s.Inv) (henabled : s.Enabled act)
    (hstop : ∀ a, act ≠ .stop a) : ∃ s', s.exec act = .ok s' ∧ s'.Inv := by
  cases act with
  | send a m =>
      obtain ⟨x, r, hsend, hmoved⟩ :=
        pipeSend_spec (h.flow_from a) (h.up !a) (h.up a) henabled.2 m
      refine ⟨_, by rw [exec, bind_ok hsend]; rfl, h.moved (a := !a) ?_ ?_ ?_⟩
      · simpa using hmoved
      · simp
      · simp
  | recv a =>
      obtain ⟨m, r, x, hrecv, hmoved⟩ :=
        pipeRecv_spec (h.flow a) (h.up a) (h.up !a) henabled.2
      refine ⟨_, by rw [exec, bind_ok hrecv]; rfl, h.moved (a := a) ?_ ?_ ?_⟩
      · simpa using hmoved
      · simp
      · simp
  | handle a event =>
      have hactive := (h.up a).active
      cases event with
      | sent =>
          obtain ⟨r, x, hhandle, hmoved⟩ :=
            handleSent_spec (h.flow a) (h.up a) (h.up !a) henabled
          refine ⟨s.ends a r x, ?_, h.moved (a := a) ?_ rfl rfl⟩
          · rw [exec]
            simp only []
            rw [bind_ok (sinprocHandler_sent hhandle hactive)]
            rfl
          · simpa using hmoved
      | received =>
          obtain ⟨x, hhandle, hmoved⟩ :=
            handleReceived_spec (h.flow_from a) (h.up !a) (h.up a)
              henabled
          refine ⟨s.ends a x (s.side !a), ?_, h.moved (a := !a) ?_ rfl ?_⟩
          · rw [exec]
            simp only []
            rw [bind_ok (sinprocHandler_received _ hhandle hactive)]
            rfl
          · simpa using hmoved
          · rfl
      | disconnect =>
          have hevent : (s.side a).events .disconnect = true := henabled
          rw [(h.up a).event] at hevent
          cases hevent
  | stop a => exact absurd rfl (hstop a)

theorem run_cons_ok {act : LinkAct} (acts : List LinkAct)
    (henabled : s.Enabled act) (hexec : s.exec act = .ok s') :
    s.run (act :: acts) = s'.run acts := by
  rw [run, if_pos henabled, hexec]

theorem run_cons_error {act : LinkAct} {fault : Fault}
    (acts : List LinkAct) (henabled : s.Enabled act)
    (hexec : s.exec act = .error fault) :
    s.run (act :: acts) = some (.error fault) := by
  rw [run, if_pos henabled, hexec]

theorem run_spec {acts : List LinkAct} {result : Except Fault Link}
    (h : s.Inv) (hstop : ∀ a, LinkAct.stop a ∉ acts)
    (hrun : s.run acts = some result) : ∃ s', result = .ok s' ∧ s'.Inv := by
  induction acts generalizing s with
  | nil => exact ⟨s, (Option.some.inj hrun).symm, h⟩
  | cons act acts ih =>
      rw [run] at hrun
      split at hrun
      next henabled =>
        obtain ⟨s₁, hexec, h₁⟩ := exec_spec h henabled fun a hact =>
          hstop a (hact ▸ List.mem_cons_self)
        rw [hexec] at hrun
        exact ih h₁ (fun a hmem => hstop a (List.mem_cons_of_mem _ hmem)) hrun
      next => cases hrun

/-- A stop is announced to the peer, which stays as it is until then. -/
theorem exec_stop (h : s.Inv) (a : Bool) :
    ∃ s', s.exec (.stop a) = .ok s' ∧ (s'.side a).state = .stopping
      ∧ (s'.side a).events = (s.side a).events
      ∧ (s'.side !a).state = .active ∧ (s'.side !a).started = true
      ∧ (s'.side !a).outstate = (s.side !a).outstate
      ∧ (s'.side !a).sending = (s.side !a).sending := by
  have hpeer := h.up (!a)
  refine ⟨_, by
    rw [exec, sinprocStop, if_neg (by simp [(h.up a).active]),
      raiseTo_ok hpeer.event]
    rfl, ?_⟩
  simp only [ends_self, ends_peer]
  exact ⟨trivial, trivial, hpeer.active, hpeer.started, trivial, trivial⟩

theorem exec_send {b : Bool} (m : Msg) (hactive : (s.side b).state = .active)
    (hidle : (s.side b).outstate = .idle) (hready : (s.side b).sending = false)
    (hsent : (s.side !b).events .sent = false) :
    ∃ s', s.exec (.send b m) = .ok s'
      ∧ (s'.side !b).state = (s.side !b).state
      ∧ (s'.side !b).events .sent = true := by
  refine ⟨_, by
    rw [exec, bind_ok (pipeSend_ok hidle hactive hready hsent m)]
    rfl, ?_⟩
  simp

end Link

/-- A session that is stopped fails an assertion, and with it the process
ends, if its peer sends a message before it has learned of the stop. -/
theorem sinproc_stop_aborts (maxmem : Bool → Nat) {acts : List LinkAct}
    {s : Link} (hstop : ∀ a, LinkAct.stop a ∉ acts)
    (hrun : (Link.established maxmem).run acts = some (.ok s)) (a : Bool)
    (hidle : (s.side !a).outstate = .idle) (m : Msg) :
    s.run [.stop a, .send (!a) m, .handle a .sent]
      = some (.error .assertion) := by
  obtain ⟨s', hs, hinv⟩ :=
    Link.run_spec (Link.established_inv maxmem) hstop hrun
  cases hs
  obtain ⟨hready, hsent⟩ := (hinv.flow a).ready hidle
  obtain ⟨s₁, hstop₁, hstate₁, hevents₁, hactive, hstarted, hout, hsending⟩ :=
    Link.exec_stop hinv a
  -- the peer has not learned of the stop, and can send as before
  have hidle₁ := hout.trans hidle
  obtain ⟨s₂, hsend₂, hstate₂, hevents₂⟩ := Link.exec_send m hactive hidle₁
    (hsending.trans hready) (by rw [Bool.not_not, hevents₁]; exact hsent)
  rw [Bool.not_not] at hstate₂ hevents₂
  rw [Link.run_cons_ok _ (show s.Enabled (.stop a) from (hinv.up a).active)
      hstop₁,
    Link.run_cons_ok _ (show s₁.Enabled (.send (!a) m) from
      ⟨hstarted, hidle₁⟩) hsend₂]
  refine Link.run_cons_error _ hevents₂ ?_
  rw [Link.exec]
  simp only [sinprocHandler, hstate₂.trans hstate₁]
  rfl

theorem sinproc_stop_aborts_fresh :
    (Link.established fun _ => 2).run
        [.stop true, .send false ⟨[], [1]⟩, .handle true .sent]
      = some (.error .assertion) :=
  @sinproc_stop_aborts (fun _ => 2) [] _ (fun _ => List.not_mem_nil) rfl true
    rfl ⟨[], [1]⟩

end FineDB.Inproc

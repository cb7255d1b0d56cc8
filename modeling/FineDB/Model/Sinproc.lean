/-
Two threads joined by an inproc connection of nanomsg
(lib/nanomsg/src/transports/inproc/sinproc.c, core/pipe.c).

Each end of a connection is a session, `struct nn_sinproc`. A message is
sent by exposing it in `msg` and raising the event SENT at the peer; the
peer moves it to its own queue and raises RECEIVED, after which the next
message can be sent. If the queue is full the message stays where it is,
the peer remembers that (RECEIVING) and tries again when its user has
taken a message out.

Events cross from one context to the other when a thread leaves the
first one (`nn_ctx_leave`), after it has unlocked it. Two threads that
leave may overtake each other, so nothing is assumed of the order in
which events arrive: an event is raised, and some time later handled. To
raise one that is still in flight fails an assertion
(`nn_queue_push`). Every failed assertion is a fault.

The user of a pipe sends when the pipe has told it that it can (`OUT`),
and receives when it has been told that there is something (`IN`); the
pipe's states say so. The connection starts after the handshake, with
both sessions ACTIVE. Left out are the handshake, and what becomes of a
session after it has stopped.
-/
import FineDB.Model.Msgqueue

namespace FineDB.Inproc

inductive SinprocState
  | idle
  | active
  | disconnected
  | stopping
deriving DecidableEq, Repr

/-- `NN_PIPEBASE_INSTATE_*` -/
inductive Instate
  | deactivated
  | idle
  | receiving
  | received
  | async
deriving DecidableEq, Repr

/-- `NN_PIPEBASE_OUTSTATE_*` -/
inductive Outstate
  | deactivated
  | idle
  | sending
  | sent
  | async
deriving DecidableEq, Repr

/-- The events of `NN_SINPROC_SRC_PEER`. -/
inductive PeerEvent
  | sent
  | received
  | disconnect
deriving DecidableEq, Repr

/-- `struct nn_sinproc`: `sending` and `receiving` are its flags,
`started`, `instate` and `outstate` those of its `pipebase`, and `events`
the inbound events that have been raised and not been handled. -/
structure Sinproc where
  state : SinprocState
  sending : Bool
  receiving : Bool
  started : Bool
  instate : Instate
  outstate : Outstate
  msgqueue : Msgqueue
  msg : Msg
  events : PeerEvent → Bool

/-- `nn_msg_init (&msg, 0)` -/
def noMsg : Msg := ⟨[], []⟩

def nnAssert (p : Prop) [Decidable p] : Except Fault Unit :=
  if p then .ok () else .error .assertion

-- ================================================================ pipebase

/-- `nn_pipebase_received` -/
def pipebaseReceived (self : Sinproc) : Except Fault Sinproc :=
  match self.instate with
  | .receiving => .ok { self with instate := .received }
  | .async => .ok { self with instate := .idle }
  | _ => .error .assertion

/-- `nn_pipebase_sent` -/
def pipebaseSent (self : Sinproc) : Except Fault Sinproc :=
  match self.outstate with
  | .sending => .ok { self with outstate := .sent }
  | .async => .ok { self with outstate := .idle }
  | _ => .error .assertion

-- ================================================================= sinproc

/-- `nn_fsm_raiseto` -/
def raiseTo (peer : Sinproc) (event : PeerEvent) : Except Fault Sinproc :=
  if peer.events event = true then .error .assertion
  else .ok { peer with events := Function.update peer.events event true }

/-- `nn_sinproc_send`; `none` is `-ECONNRESET`. The session and its peer
are returned. -/
def sinprocSend (self peer : Sinproc) (msg : Msg) :
    Except Fault (Option (Sinproc × Sinproc)) := do
  if self.state = .disconnected then return none
  else
    nnAssert (self.state = .active)
    nnAssert (self.sending = false)
    let peer ← raiseTo peer .sent
    return some ({ self with msg := msg, sending := true }, peer)

/-- The message that has waited at the peer, if there is one. -/
def sinprocRetry (self peer : Sinproc) :
    Except Fault (Sinproc × Sinproc) := do
  if self.state ≠ .disconnected ∧ self.receiving = true then
    match ← self.msgqueue.send peer.msg with
    | (true, msgqueue) =>
        let peer ← raiseTo { peer with msg := noMsg } .received
        return ({ self with msgqueue := msgqueue, receiving := false }, peer)
    | (false, msgqueue) => return ({ self with msgqueue := msgqueue }, peer)
  else return (self, peer)

/-- `nn_sinproc_recv` -/
def sinprocRecv (self peer : Sinproc) :
    Except Fault (Msg × Sinproc × Sinproc) := do
  nnAssert (self.state = .active ∨ self.state = .disconnected)
  match ← self.msgqueue.recv with
  | (none, _) => throw .assertion
  | (some msg, msgqueue) =>
      let (self, peer) ←
        sinprocRetry { self with msgqueue := msgqueue } peer
      if self.msgqueue.empty = false then
        let self ← pipebaseReceived self
        return (msg, self, peer)
      else return (msg, self, peer)

/-- The user is told that there is a message, if there was none. -/
def notifyUser (empty : Bool) (self : Sinproc) : Except Fault Sinproc :=
  if empty = true then pipebaseReceived self else .ok self

/-- The event SENT in the state ACTIVE. -/
def handleSent (self peer : Sinproc) :
    Except Fault (Sinproc × Sinproc) := do
  let empty := self.msgqueue.empty
  match ← self.msgqueue.send peer.msg with
  | (false, msgqueue) =>
      return ({ self with msgqueue := msgqueue, receiving := true }, peer)
  | (true, msgqueue) =>
      let self := { self with msgqueue := msgqueue }
      let peer := { peer with msg := noMsg }
      let self ← notifyUser empty self
      let peer ← raiseTo peer .received
      return (self, peer)

/-- The event RECEIVED in the state ACTIVE. -/
def handleReceived (self : Sinproc) : Except Fault Sinproc := do
  nnAssert (self.sending = true)
  let self ← pipebaseSent self
  return { self with sending := false }

/-- `nn_sinproc_handler`, for an event from the peer. -/
def sinprocHandler (self peer : Sinproc) (event : PeerEvent) :
    Except Fault (Sinproc × Sinproc) :=
  match self.state, event with
  | .stopping, .disconnect => .ok ({ self with state := .idle }, peer)
  | .active, .sent => handleSent self peer
  | .active, .received => do
      let self ← handleReceived self
      return (self, peer)
  | .active, .disconnect => do
      let peer ← raiseTo peer .disconnect
      return ({ self with started := false, state := .disconnected }, peer)
  | _, _ => .error .assertion

/-- `nn_sinproc_handler`, for `NN_FSM_STOP`. -/
def sinprocStop (self peer : Sinproc) : Except Fault (Sinproc × Sinproc) :=
  if self.state = .idle ∨ self.state = .disconnected then .ok (self, peer)
  else do
    let peer ← raiseTo peer .disconnect
    return ({ self with started := false, state := .stopping }, peer)

-- ==================================================================== pipe

/-- `nn_pipe_send` -/
def pipeSend (self peer : Sinproc) (msg : Msg) :
    Except Fault (Sinproc × Sinproc) := do
  nnAssert (self.outstate = .idle)
  match ← sinprocSend { self with outstate := .sending } peer msg with
  | none => throw .assertion
  | some (self, peer) =>
      if self.outstate = .sent then
        return ({ self with outstate := .idle }, peer)
      else
        nnAssert (self.outstate = .sending)
        return ({ self with outstate := .async }, peer)

/-- `nn_pipe_recv` -/
def pipeRecv (self peer : Sinproc) :
    Except Fault (Msg × Sinproc × Sinproc) := do
  nnAssert (self.instate = .idle)
  let (msg, self, peer) ←
    sinprocRecv { self with instate := .receiving } peer
  if self.instate = .received then
    return (msg, { self with instate := .idle }, peer)
  else
    nnAssert (self.instate = .receiving)
    return (msg, { self with instate := .async }, peer)

-- ============================================================== connection

/-- A connection. `sent` and `got` are not in the code: what the user of
each end has sent, and what it has received. -/
structure Link where
  side : Bool → Sinproc
  sent : Bool → List Msg
  got : Bool → List Msg

inductive LinkAct
  | send (a : Bool) (msg : Msg)
  | recv (a : Bool)
  | handle (a : Bool) (event : PeerEvent)
  | stop (a : Bool)
deriving DecidableEq, Repr

namespace Link

/-- A session after the handshake. -/
def session (maxmem : Nat) : Sinproc where
  state := .active
  sending := false
  receiving := false
  started := true
  instate := .async
  outstate := .idle
  msgqueue := Msgqueue.init maxmem
  msg := noMsg
  events := fun _ => false

def established (maxmem : Bool → Nat) : Link where
  side a := session (maxmem a)
  sent _ := []
  got _ := []

/-- What the threads can do. A pipe is used while the socket has it, and
when it has said that it can be. -/
def Enabled (s : Link) : LinkAct → Prop
  | .send a _ => (s.side a).started = true ∧ (s.side a).outstate = .idle
  | .recv a => (s.side a).started = true ∧ (s.side a).instate = .idle
  | .handle a event => (s.side a).events event = true
  | .stop a => (s.side a).state = .active

instance (s : Link) : DecidablePred s.Enabled := fun act =>
  match act with
  | .send _ _ => inferInstanceAs (Decidable (_ ∧ _))
  | .recv _ => inferInstanceAs (Decidable (_ ∧ _))
  | .handle _ _ => inferInstanceAs (Decidable (_ = _))
  | .stop _ => inferInstanceAs (Decidable (_ = _))

/-- The two ends, `self` that of `a`. -/
def ends (s : Link) (a : Bool) (self peer : Sinproc) : Link :=
  { s with side := fun b => if b = a then self else peer }

def exec (s : Link) : LinkAct → Except Fault Link
  | .send a msg => do
      let (self, peer) ← pipeSend (s.side a) (s.side !a) msg
      return { s.ends a self peer with
        sent := Function.update s.sent a (s.sent a ++ [msg]) }
  | .recv a => do
      let (msg, self, peer) ← pipeRecv (s.side a) (s.side !a)
      return { s.ends a self peer with
        got := Function.update s.got a (s.got a ++ [msg]) }
  | .handle a event => do
      let self := s.side a
      let (self, peer) ← sinprocHandler
        { self with events := Function.update self.events event false }
        (s.side !a) event
      return s.ends a self peer
  | .stop a => do
      let (self, peer) ← sinprocStop (s.side a) (s.side !a)
      return s.ends a self peer

/-- A run; `none` if an action is not enabled when it is taken. -/
def run (s : Link) : List LinkAct → Option (Except Fault Link)
  | [] => some (.ok s)
  | act :: acts =>
      if s.Enabled act then
        match s.exec act with
        | .ok s => s.run acts
        | .error fault => some (.error fault)
      else none

end Link

end FineDB.Inproc

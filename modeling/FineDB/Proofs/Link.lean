/-
A client and its session, from both ends.

A `Link` is what a connection has between two calls of the client
library: the state of the server's thread, whether the thread still
serves the connection, the bytes it has received that are not yet a
request, and the bytes it has sent that the client has not read.

A call is a run of the library function together with what the server
did meanwhile (`Link.Call`): the thread serves every complete request of
what it has, and the bytes the client reads are those the server sent,
in order. Nothing else is assumed of reads and writes. Between calls the
connection can be lost, with any part of the unread bytes, and a new one
can be made.

The server's side is the request loop in pieces. `Link.Calls.exec` puts
the pieces together again: what a connection's thread does over any
number of calls is what `Stream.exec`, and so `serveConnection`, does
with all the bytes written.
-/
import FineDB.Proofs.Encoding
import FineDB.Proofs.Responses
import Mathlib.Logic.Relation

namespace FineDB

open Effect Mvcc

-- ================================================================ the traffic

/-- The bytes of a response that went out. -/
def sentBy (out : Bytes × Int) : Bytes := out.1.take out.2.toNat

def sent (tr : ServerTrace) : Bytes := (sends tr).flatMap sentBy

/-- The bytes an event of the client took off the connection. -/
def receivedBy : Event clientSig → Bytes
  | ⟨.readByte, some b⟩ => [b]
  | ⟨.read, .got chunk⟩ => chunk.bytes
  | ⟨.read, .lost chunk⟩ => chunk.bytes
  | _ => []

def received (tr : ClientTrace) : Bytes := tr.flatMap receivedBy

-- ============================================================ the server's side

/-- The decoded input of a thread that still waits for more, served: the
turns, the thread, the part of a request that is there, and whether the
thread goes on. -/
def Stream.Serving : Stream → TcpThread → List (Arrival × ServerTrace) →
    TcpThread → Bytes → Bool → Prop
  | .done, thread, turns, th, inbox, alive =>
      turns = [] ∧ th = thread ∧ inbox = [] ∧ alive = true
  | .cut b part, thread, turns, th, inbox, alive =>
      turns = [] ∧ th = thread ∧ inbox = b :: part ∧ alive = true
  | .unknown b, thread, turns, th, inbox, alive => ∃ tr y,
      (Arrival.exec thread (.unknown b)).Exec tr (y, th)
        ∧ turns = [(.unknown b, tr)] ∧ inbox = [] ∧ alive = false
  | .request b r rest, thread, turns, th, inbox, alive => ∃ tr x turns',
      (Arrival.exec thread (.request b r)).Exec tr x
        ∧ turns = (.request b r, tr) :: turns'
        ∧ if x.1 = .YENOERR then rest.Serving x.2 turns' th inbox alive
          else turns' = [] ∧ th = x.2 ∧ inbox = [] ∧ alive = false

theorem decode_eq_cut {S part : Bytes} {b : Byte}
    (h : decode S = .cut b part) : S = b :: part := by
  cases S with
  | nil =>
      rw [decode_nil] at h
      cases h
  | cons b' S =>
      rw [decode_cons] at h
      split at h
      · cases h
      · cases h
        rfl
      · cases h

private theorem decodeBody_unknown {command : Nat} {S : Bytes}
    (S' : Bytes) (h : decodeBody command S = .unknown) :
    decodeBody command S' = .unknown := by
  have hfield : ∀ {w : Nat} {S : Bytes} {k : Field w → Bytes → Body},
      (∀ f rest, k f rest ≠ .unknown) → Body.field w S k ≠ .unknown := by
    intro w S k hk
    unfold Body.field
    split
    · exact hk _ _
    · exact fun h => by cases h
  unfold decodeBody at h ⊢
  split at h
  case h_1 | h_6 | h_7 => cases h
  case h_2 | h_3 | h_5 => exact absurd h (hfield fun _ _ h => by cases h)
  case h_4 =>
    exact absurd h (hfield fun _ _ => hfield fun _ _ h => by cases h)
  case h_8 => rfl

private theorem decode_unknown_append {S S' : Bytes} {b : Byte}
    (h : decode S = .unknown b) : decode (S ++ S') = .unknown b := by
  cases S with
  | nil =>
      rw [decode_nil] at h
      cases h
  | cons b' S =>
      rw [decode_cons] at h
      split at h
      · cases h
      · cases h
      next hbody =>
        cases h
        rw [List.cons_append, decode_cons, decodeBody_unknown _ hbody]

private theorem decode_request_append {S : Bytes} (S' : Bytes) {b : Byte}
    {r : Request} {st : Stream} (h : decode S = .request b r st) :
    ∃ R, decode R = st
      ∧ decode (S ++ S') = .request b r (decode (R ++ S')) := by
  obtain ⟨R, hS, hcmd, hR⟩ := decode_request_iff.mp h
  refine ⟨R, hR, decode_request_iff.mpr ⟨R ++ S', ?_, hcmd, rfl⟩⟩
  rw [hS, List.cons_append, List.append_assoc]

/-- Input in two pieces: the turns of the first, then those that the
rest of it makes with the second. -/
theorem Stream.Serving.append {S S' : Bytes} {thread th th' : TcpThread}
    {turns turns' : List (Arrival × ServerTrace)} {inbox inbox' : Bytes}
    {alive : Bool}
    (h : (decode S).Serving thread turns th inbox true)
    (h' : (decode (inbox ++ S')).Serving th turns' th' inbox' alive) :
    (decode (S ++ S')).Serving thread (turns ++ turns') th' inbox'
      alive := by
  generalize hst : decode S = st at h
  induction st generalizing S thread turns with
  | done =>
      obtain ⟨rfl, rfl, rfl, -⟩ := h
      rw [decode_eq_done hst]
      exact h'
  | cut b part =>
      obtain ⟨rfl, rfl, rfl, -⟩ := h
      rw [decode_eq_cut hst]
      exact h'
  | unknown b =>
      obtain ⟨tr, y, -, -, -, halive⟩ := h
      cases halive
  | request b r rest ih =>
      obtain ⟨tr, x, turns₁, hexec, rfl, hrest⟩ := h
      obtain ⟨R, hR, hdec⟩ := decode_request_append S' hst
      rw [hdec]
      refine ⟨tr, x, turns₁ ++ turns', hexec, rfl, ?_⟩
      split at hrest
      next hok =>
        rw [if_pos hok]
        exact ih hR hrest
      next => cases hrest.2.2.2

/-- A thread that has stopped reads no more. -/
theorem Stream.Serving.stopped {S : Bytes} (S' : Bytes)
    {thread th : TcpThread} {turns : List (Arrival × ServerTrace)}
    {inbox : Bytes} (h : (decode S).Serving thread turns th inbox false) :
    (decode (S ++ S')).Serving thread turns th inbox false := by
  generalize hst : decode S = st at h
  induction st generalizing S thread turns with
  | done => cases h.2.2.2
  | cut b part => cases h.2.2.2
  | unknown b =>
      rw [decode_unknown_append hst]
      exact h
  | request b r rest ih =>
      obtain ⟨tr, x, turns₁, hexec, rfl, hrest⟩ := h
      obtain ⟨R, hR, hdec⟩ := decode_request_append S' hst
      rw [hdec]
      refine ⟨tr, x, turns₁, hexec, rfl, ?_⟩
      split at hrest
      next hok =>
        rw [if_pos hok]
        exact ih hR hrest
      next hok =>
        rw [if_neg hok]
        exact hrest

/-- What is left over is not a request yet. -/
theorem Stream.Serving.waits {S : Bytes} {thread th : TcpThread}
    {turns : List (Arrival × ServerTrace)} {inbox : Bytes}
    (h : (decode S).Serving thread turns th inbox true) :
    (decode inbox).Serving th [] th inbox true := by
  generalize hst : decode S = st at h
  induction st generalizing S thread turns with
  | done =>
      obtain ⟨-, -, rfl, -⟩ := h
      rw [decode_nil]
      exact ⟨rfl, rfl, rfl, rfl⟩
  | cut b part =>
      obtain ⟨-, -, rfl, -⟩ := h
      rw [← decode_eq_cut hst, hst, decode_eq_cut hst]
      exact ⟨rfl, rfl, rfl, rfl⟩
  | unknown b =>
      obtain ⟨tr, y, -, -, -, halive⟩ := h
      cases halive
  | request b r rest ih =>
      obtain ⟨tr, x, turns₁, -, -, hrest⟩ := h
      obtain ⟨R, hR, -⟩ := decode_request_append [] hst
      split at hrest
      · exact ih hR hrest
      · cases hrest.2.2.2

/-- What the thread still does when the connection ends: its last
request, if cut short. -/
def Ends (alive : Bool) (thread : TcpThread) (inbox : Bytes)
    (tr : ServerTrace) (th : TcpThread) : Prop :=
  if alive then
    ((decode inbox).exec thread : Store.Server _).Exec tr th
  else tr = [] ∧ th = thread

/-- The turns and the end are an execution of the loop. -/
theorem Stream.Serving.exec {S : Bytes} {thread th th' : TcpThread}
    {turns : List (Arrival × ServerTrace)} {inbox : Bytes} {alive : Bool}
    {tr' : ServerTrace}
    (h : (decode S).Serving thread turns th inbox alive)
    (hend : Ends alive th inbox tr' th') :
    ((decode S).exec thread : Store.Server _).Exec
      (turns.flatMap Prod.snd ++ tr') th' := by
  generalize hst : decode S = st at h ⊢
  induction st generalizing S thread turns with
  | done =>
      obtain ⟨rfl, rfl, rfl, rfl⟩ := h
      rw [← hst, decode_eq_done hst]
      exact hend
  | cut b part =>
      obtain ⟨rfl, rfl, rfl, rfl⟩ := h
      rw [← hst, decode_eq_cut hst]
      exact hend
  | unknown b =>
      obtain ⟨tr, y, hexec, rfl, rfl, rfl⟩ := h
      obtain ⟨rfl, rfl⟩ := hend
      obtain ⟨rc, rest, rfl, hrest⟩ := hexec
      obtain ⟨rfl, heq⟩ := hrest
      cases heq
      exact ⟨rc, [], rfl, rfl, rfl⟩
  | request b r rest ih =>
      obtain ⟨tr, x, turns₁, hexec, rfl, hrest⟩ := h
      obtain ⟨R, hR, -⟩ := decode_request_append [] hst
      rw [List.flatMap_cons, List.append_assoc]
      refine Prog.exec_bind.mpr ⟨tr, _, x, rfl, hexec, ?_⟩
      split at hrest
      next hok =>
        rw [if_pos hok]
        exact ih hR hrest
      next hok =>
        obtain ⟨rfl, rfl, rfl, rfl⟩ := hrest
        obtain ⟨rfl, rfl⟩ := hend
        rw [if_neg hok]
        exact ⟨rfl, rfl⟩

-- ==================================================================== the link

structure Link where
  thread : TcpThread
  alive : Bool
  inbox : Bytes
  unread : Bytes

namespace Link

/-- A connection just made. -/
def fresh (fd : Nat) : Link :=
  ⟨{ connectionThreadNew with fd := fd }, true, [], []⟩

/-- The thread is given `input`. -/
def Serves (s : Link) (input : Bytes)
    (turns : List (Arrival × ServerTrace)) (s' : Link) : Prop :=
  if s.alive then
    (decode (s.inbox ++ input)).Serving s.thread turns s'.thread s'.inbox
      s'.alive
  else turns = [] ∧ s'.thread = s.thread ∧ s'.inbox = s.inbox
    ∧ s'.alive = false

/-- The responses of some turns, as far as they went out. -/
def responses (turns : List (Arrival × ServerTrace)) : Bytes :=
  turns.flatMap fun turn => FineDB.sent turn.2

/-- What has arrived is at most the beginning of a request. -/
def Waits (s : Link) : Prop :=
  (decode s.inbox).Serving s.thread [] s.thread s.inbox true

/-- Input in two pieces. -/
theorem Serves.append {s m s' : Link} {input input' : Bytes}
    {turns turns' : List (Arrival × ServerTrace)}
    (h : s.Serves input turns m) (h' : m.Serves input' turns' s') :
    s.Serves (input ++ input') (turns ++ turns') s' := by
  unfold Serves at h h' ⊢
  by_cases hs : s.alive = true
  · rw [if_pos hs] at h ⊢
    rw [← List.append_assoc]
    cases hm : m.alive with
    | true =>
        rw [hm] at h h'
        exact Stream.Serving.append h h'
    | false =>
        rw [hm] at h h'
        obtain ⟨rfl, hthread, hinbox, halive⟩ := h'
        rw [List.append_nil, hthread, hinbox, halive]
        exact h.stopped _
  · rw [if_neg hs] at h ⊢
    obtain ⟨rfl, hthread, hinbox, halive⟩ := h
    rw [halive] at h'
    obtain ⟨rfl, hthread', hinbox', halive'⟩ := h'
    exact ⟨rfl, hthread'.trans hthread, hinbox'.trans hinbox, halive'⟩

/-- A thread that waits has nothing to do without input. -/
theorem Waits.serves {s : Link} (h : s.alive = true → s.Waits) (unread : Bytes) :
    s.Serves [] [] { s with unread := unread } := by
  unfold Serves
  by_cases hs : s.alive = true
  · rw [if_pos hs, List.append_nil, hs]
    exact h hs
  · rw [if_neg hs]
    exact ⟨rfl, rfl, rfl, by simpa using hs⟩

theorem Serves.waits {s s' : Link} {input : Bytes}
    {turns : List (Arrival × ServerTrace)} (h : s.Serves input turns s')
    (hs' : s'.alive = true) : s'.Waits := by
  unfold Serves at h
  by_cases hs : s.alive = true
  · rw [if_pos hs, hs'] at h
    exact Stream.Serving.waits h
  · rw [if_neg hs, hs'] at h
    cases h.2.2.2

variable (enc : Encoder)

/-- A call of the library, and what the server did by its end. -/
structure Call (s : Link) (x : ClientRun)
    (turns : List (Arrival × ServerTrace)) (s' : Link) : Prop where
  valid : x.Valid enc
  serves : s.Serves (written x.trace) turns s'
  reads : received x.trace ++ s'.unread = s.unread ++ responses turns

/-- What can happen to a client's connection, its calls restricted to
those that meet `Q`. -/
inductive Step (Q : ClientRun → List (Arrival × ServerTrace) → Link → Prop) :
    Link → Link → Prop
  | call {s s' : Link} {x : ClientRun}
      {turns : List (Arrival × ServerTrace)} :
      s.Call enc x turns s' → Q x turns s' → Step Q s s'
  /-- the connection is lost, and some of what was on the way -/
  | lose {s : Link} (n : Nat) :
      Step Q s { s with alive := false, unread := s.unread.take n }
  | connect {s : Link} (fd : Nat) : Step Q s (fresh fd)

/-- Calls one after the other on one connection. -/
inductive Calls : Link → List (ClientRun × List (Arrival × ServerTrace)) →
    Link → Prop
  | nil {s : Link} : Calls s [] s
  | cons {s m s' : Link} {x : ClientRun}
      {turns : List (Arrival × ServerTrace)}
      {xs : List (ClientRun × List (Arrival × ServerTrace))} :
      s.Call enc x turns m → Calls m xs s' → Calls s ((x, turns) :: xs) s'

variable {enc}

/-- The calls on a connection, as one input. -/
private theorem Calls.serves {s s' : Link}
    {xs : List (ClientRun × List (Arrival × ServerTrace))}
    (h : Calls enc s xs s') (hwait : s.alive = true → s.Waits) :
    s.Serves (xs.flatMap fun x => written x.1.trace)
      (xs.flatMap Prod.snd) s' := by
  induction h with
  | @nil s => exact Waits.serves hwait s.unread
  | cons hcall _ ih =>
      rw [List.flatMap_cons, List.flatMap_cons]
      exact hcall.serves.append (ih hcall.serves.waits)

/-- The calls on a connection, from the server's side: its thread serves
all that they wrote. -/
theorem Calls.serving {s s' : Link}
    {xs : List (ClientRun × List (Arrival × ServerTrace))}
    (h : Calls enc s xs s') (hs : s.alive = true) (hwait : s.Waits) :
    (decode (s.inbox ++ xs.flatMap fun x => written x.1.trace)).Serving
      s.thread (xs.flatMap Prod.snd) s'.thread s'.inbox s'.alive := by
  have hserves := h.serves fun _ => hwait
  unfold Serves at hserves
  rwa [if_pos hs] at hserves

/-- A connection from its first byte on: over any number of calls and
after its end, the thread has executed the request loop on all that the
calls wrote. -/
theorem Calls.exec {fd : Nat} {s : Link}
    {xs : List (ClientRun × List (Arrival × ServerTrace))}
    {tr : ServerTrace} {th : TcpThread} (h : Calls enc (fresh fd) xs s)
    (hend : Ends s.alive s.thread s.inbox tr th) :
    ((decode (xs.flatMap fun x => written x.1.trace)).exec
        { connectionThreadNew with fd := fd } : Store.Server _).Exec
      ((xs.flatMap Prod.snd).flatMap Prod.snd ++ tr) th := by
  have hwait : (fresh fd).Waits := by
    show (decode []).Serving _ [] _ [] true
    rw [decode_nil]
    exact ⟨rfl, rfl, rfl, rfl⟩
  exact (h.serving rfl hwait).exec hend

end Link

end FineDB

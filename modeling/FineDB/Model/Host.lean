/-
The process around the server: its client descriptors.

`server_loop` accepts a connection, which opens a descriptor, and pushes
the number into the queue of the threads; the result of `nn_send` is
ignored. A thread takes a number from the queue and serves it until the
disconnection resets its structure (Model/System.lean). A descriptor is
released by `close` and by nothing else: `shutdown` ends the connection
and leaves the descriptor open.

`dropped` and `ended` are not in the code. They remember which
descriptors were never queued, and which connections have ended, so that
the account of the others can be stated.

A failed `accept` opens nothing and is no action here. Which thread
takes which waiting descriptor is left open.
-/
import FineDB.Model.System
import Mathlib.Data.Finset.Basic

namespace FineDB

open Effect Mvcc

structure Host where
  sys : Sys
  /-- the open descriptors of clients -/
  fds : Finset Nat
  /-- in the queue of the threads -/
  waiting : List Nat
  /-- accepted, and refused by the queue -/
  dropped : List Nat
  /-- the connections that have ended -/
  ended : List Nat
  /-- the calls of `close` -/
  closed : List Nat

inductive HostAct
  /-- `server_loop` accepts, and `nn_send` succeeds or not -/
  | accept (fd : Nat) (pushed : Bool)
  /-- `nn_recv` gives thread `c` a descriptor -/
  | take (c fd : Nat)
  /-- a thread goes on -/
  | sys (a : SysAct)

/-- The descriptor that the next call of thread `c` closes. -/
def Sys.closing (s : Sys) : SysAct → List Nat
  | .call c _ =>
      match s.cfg.running c with
      | some (_, x) =>
          match x.rest with
          | .call (TxnCall.other (EnvCall.close fd)) _ => [fd.toNat]
          | _ => []
      | none => []
  | _ => []

/-- The descriptor a thread has given up from `s` to `s'`. -/
def Sys.hungUp (s s' : Sys) : SysAct → List Nat
  | .respond c =>
      if (s.thread c).fd ≠ -1 ∧ (s'.thread c).fd = -1 then
        [(s.thread c).fd.toNat]
      else []
  | _ => []

namespace Host

def init (d₀ : Store) : Host := ⟨Sys.init d₀, ∅, [], [], [], []⟩

variable (zip : Bytes → Bytes)

def step : HostAct → Host → Option Host
  | .accept fd pushed, h =>
      -- the kernel gives a number that is not in use
      if fd ∈ h.fds then none
      else if pushed then
        some { h with
          fds := insert fd h.fds
          waiting := h.waiting ++ [fd] }
      else
        some { h with
          fds := insert fd h.fds
          dropped := h.dropped ++ [fd] }
  | .take c fd, h =>
      if fd ∈ h.waiting then
        (Sys.step zip (.accept c fd) h.sys).map fun s =>
          { h with sys := s, waiting := h.waiting.erase fd }
      else none
  | .sys (.accept _ _), _ => none
  | .sys a, h =>
      (Sys.step zip a h.sys).map fun s =>
        { h with
          sys := s
          fds := h.fds \ (h.sys.closing a).toFinset
          ended := h.ended ++ h.sys.hungUp s a
          closed := h.closed ++ h.sys.closing a }

/-- Some thread serves the descriptor. -/
def Serves (h : Host) (fd : Nat) : Prop := ∃ c, (h.sys.thread c).fd = fd

/-- The open descriptors are those waiting and those served, and every
connection that ended was closed, once. -/
structure Released (h : Host) : Prop where
  fds : ∀ fd, fd ∈ h.fds ↔ fd ∈ h.waiting ∨ h.Serves fd
  closed : ∀ fd, h.closed.count fd = h.ended.count fd

-- ====================================================== inversion lemmas

variable {zip} {h h' : Host}

theorem step_accept {fd : Nat} {pushed : Bool}
    (hs : step zip (.accept fd pushed) h = some h') :
    fd ∉ h.fds ∧ h' = { h with
      fds := insert fd h.fds
      waiting := if pushed then h.waiting ++ [fd] else h.waiting
      dropped := if pushed then h.dropped else h.dropped ++ [fd] } := by
  simp only [step] at hs
  split at hs
  · cases hs
  next hfd =>
    cases pushed with
    | true =>
        cases hs
        exact ⟨hfd, rfl⟩
    | false =>
        cases hs
        exact ⟨hfd, rfl⟩

theorem step_take {c fd : Nat} (hs : step zip (.take c fd) h = some h') :
    fd ∈ h.waiting ∧ ∃ s, Sys.step zip (.accept c fd) h.sys = some s
      ∧ h' = { h with sys := s, waiting := h.waiting.erase fd } := by
  simp only [step] at hs
  split at hs
  next hfd =>
    obtain ⟨s, hsys, heq⟩ := Option.map_eq_some_iff.mp hs
    exact ⟨hfd, s, hsys, heq.symm⟩
  next => cases hs

theorem step_sys {a : SysAct} (hs : step zip (.sys a) h = some h') :
    (∀ c fd, a ≠ .accept c fd) ∧ ∃ s, Sys.step zip a h.sys = some s
      ∧ h' = { h with
          sys := s
          fds := h.fds \ (h.sys.closing a).toFinset
          ended := h.ended ++ h.sys.hungUp s a
          closed := h.closed ++ h.sys.closing a } := by
  cases a with
  | accept c fd => cases hs
  | _ =>
      obtain ⟨s, hsys, heq⟩ := Option.map_eq_some_iff.mp hs
      exact ⟨fun _ _ h => (by cases h), s, hsys, heq.symm⟩

end Host

end FineDB

/-
The client library's descriptor (src/lib/libfinedb.c): `finedb_create`,
`finedb_connect`, `finedb_disconnect` and `finedb_delete`.

The functions are programs over the system calls they make. The process
they run in has other descriptors, which the rest of it opens and closes
at any moment (`Fds.drift`); the kernel gives out numbers that are not in
use, which may be numbers that were closed a moment ago. `mine` are the
descriptors the client has got from `socket` and not closed since;
`strays` remembers the calls of `close` on any other number.
-/
import FineDB.Lib.Env
import FineDB.Model.Client
import Mathlib.Data.Finset.Basic

namespace FineDB

open Effect

-- =============================================================== the calls

inductive NetCall
  | ymalloc
  | strdup (hostname : Bytes)
  | socket
  | gethostbyname (hostname : Bytes)
  | connect (sockfd : Int) (addr : Bytes) (port : Nat)
  | close (fd : Int)

@[reducible] def NetCall.Ret : NetCall → Type
  | .ymalloc => Bool
  | .strdup _ => Bool
  | .socket => Int
  | .gethostbyname _ => Option Bytes
  | .connect _ _ _ => Int
  | .close _ => Int

@[reducible] def netSig : Signature where
  Call := NetCall
  Ret := NetCall.Ret

abbrev Net (α : Type) := Prog netSig α

abbrev NetTrace := List (Event netSig)

/-- One call. -/
@[simp] def net (c : NetCall) : Net c.Ret := Prog.ask (S := netSig) c

-- =========================================================== the functions

/-- `finedb_client_t`, but for the mode of its writes. -/
structure FinedbClient where
  hostname : Bytes
  port : Nat
  sock : Int

/-- `finedb_disconnect`: the field keeps the number. -/
def finedbDisconnect (client : FinedbClient) : Net Unit := do
  if client.sock > -1 then
    let _ ← net (.close client.sock)

/-- `finedb_connect`; the result of `socket` goes to `connect` as it
is. -/
def finedbConnect (client : FinedbClient) :
    Net (FinedbResult × FinedbClient) := do
  finedbDisconnect client
  let sockfd ← net .socket
  match ← net (.gethostbyname client.hostname) with
  | none => return (.FINEDB_ERR_NETWORK, { client with sock := -1 })
  | some addr =>
      if (← net (.connect sockfd addr client.port)) < 0 then
        return (.FINEDB_ERR_NETWORK, { client with sock := -1 })
      else return (.FINEDB_OK, { client with sock := sockfd })

-- ============================================================= the process

structure Fds where
  /-- got from `socket` by the client and not closed since -/
  mine : Finset Nat
  /-- the other open descriptors of the process -/
  others : Finset Nat
  /-- the calls of `close` on numbers that were not the client's -/
  strays : List Int
deriving DecidableEq

/-- The client calls `close(fd)`; whoever has the number loses it. -/
def Fds.close (w : Fds) (fd : Int) : Fds where
  mine := w.mine.erase fd.toNat
  others := w.others.erase fd.toNat
  strays := if fd.toNat ∈ w.mine then w.strays else w.strays ++ [fd]

/-- The rest of the process opens and closes what is its own. -/
def Fds.Drifts (w w' : Fds) : Prop :=
  w'.mine = w.mine ∧ w'.strays = w.strays ∧ Disjoint w'.others w.mine

/-- The kernel's answers: `socket` fails or gives a number that is not in
use, and `connect` on a number that is not in use fails. -/
def Fds.Answers (w : Fds) : Event netSig → Fds → Prop
  | ⟨.socket, fd⟩, w' =>
      (fd = -1 ∧ w' = w)
        ∨ ∃ n : Nat, fd = n ∧ n ∉ w.mine ∧ n ∉ w.others
          ∧ w' = { w with mine := insert n w.mine }
  | ⟨.connect sockfd _ _, rc⟩, w' =>
      w' = w ∧ (0 ≤ rc → ∃ n : Nat, sockfd = n
        ∧ (n ∈ w.mine ∨ n ∈ w.others))
  | ⟨.close fd, _⟩, w' => w' = w.close fd
  | ⟨.ymalloc, _⟩, w' => w' = w
  | ⟨.strdup _, _⟩, w' => w' = w
  | ⟨.gethostbyname _, _⟩, w' => w' = w

def fdEnv : Env netSig Fds where
  drift := Fds.Drifts
  answer := Fds.Answers

-- ================================================================= a life

/-- What can be done with a client between its creation and its
deletion. -/
inductive SockAct
  | connect
  | disconnect
deriving DecidableEq

def SockAct.exec (client : FinedbClient) :
    SockAct → Net (FinedbResult × FinedbClient)
  | .connect => finedbConnect client
  | .disconnect => do
      finedbDisconnect client
      return (.FINEDB_OK, client)

/-- One call with what it did and returned. -/
structure SockStep where
  act : SockAct
  trace : NetTrace
  result : FinedbResult

/-- The calls on one client, one after the other. -/
inductive Lives : FinedbClient → Fds → List SockStep → FinedbClient →
    Fds → Prop
  | nil {client : FinedbClient} {w : Fds} : Lives client w [] client w
  | cons {client client₁ client' : FinedbClient} {w w₁ w' : Fds}
      {x : SockStep} {steps : List SockStep} :
      (x.act.exec client).Exec x.trace (x.result, client₁) →
      fdEnv.Plays w x.trace w₁ → Lives client₁ w₁ steps client' w' →
      Lives client w (x :: steps) client' w'

end FineDB

/-
The two ways of a write: by the handler itself, or by the writer thread.

With SYNC a handler calls the database itself. Without, it puts what it
would have done into a message, answers, and leaves the rest to
`writer_loop`. `Compared` runs both from the same store, every call
meeting the same success or failure in both, and relates the stores they
leave. It is kept by the calls the two ways have in common
(`Compared.bind`), so only their ends have to be looked at.

A PUT or DEL that is queued under its name has the same effect both ways.
Two writes do not. A DROP is queued and then ignored, `writer_loop` has
no branch for it. And a message whose copy of the name could not be
allocated carries NULL, the name of the default database. These, and a
message the queue does not take, leave the same store only if neither way
changes it (`async_write_iff`).
-/
import FineDB.Proofs.Standalone
import FineDB.Proofs.Calls

namespace FineDB

open Effect Mvcc

-- ============================================================ the two ways

/-- A request that writes. -/
inductive WriteCommand
  | put (key data : Bytes)
  | del (key : Bytes)
  | drop
deriving DecidableEq

/-- Its handler, from the moment the fields have arrived. -/
def WriteCommand.exec (f : Flags) (thread : TcpThread) :
    WriteCommand → Store.Server Yerr
  | .put key data =>
      let put := commandPutExec false false f thread key data
      withAlloc key.length
        (if data.length = 0 then put else withAlloc data.length put)
  | .del key => withAlloc key.length (commandDelExec f thread key)
  | .drop => commandDrop f thread

/-- `writer_loop` over the messages that wait. -/
def writerLoop : List WriterMsg → Store.Server Unit
  | [] => return ()
  | msg :: msgs => do
      writerApply msg
      writerLoop msgs

/-- A run with one outcome for every call. -/
abbrev runKeyed {α : Type} (zip : Bytes → Bytes)
    (o : (serverSig (Option Bytes)).Call → Outcome) (m : State Store)
    (p : Store.Server α) : Option (ServerTrace × α × State Store) :=
  (keyed (lmdbSem zip) o).run (fun _ => ()) m p

/-- The copy of the name failed, or the queue refused the message. -/
def postFails : Event (serverSig (Option Bytes)) → Bool
  | ⟨.other (.strdup _), copied⟩ => !copied
  | ⟨.other (.nnSend _), sent⟩ => !sent
  | _ => false

def FailsToPost (tr : ServerTrace) : Prop := ∃ e ∈ tr, postFails e

instance (tr : ServerTrace) : Decidable (FailsToPost tr) :=
  inferInstanceAs (Decidable (∃ e ∈ tr, postFails e))

variable {zip : Bytes → Bytes}
  {o : (serverSig (Option Bytes)).Call → Outcome} {m : State Store}

/-- `pS` does a write itself, `pA` through the writer: both end, and
leave the same store exactly if the message was `ok` and posted, or
nothing changes either way. -/
def Compared (zip : Bytes → Bytes)
    (o : (serverSig (Option Bytes)).Call → Outcome) (ok : Prop)
    (m : State Store) (pS pA : Store.Server Yerr) : Prop :=
  ∃ trS yS mS trA yA mQ trW mA,
    runKeyed zip o m pS = some (trS, yS, mS)
      ∧ runKeyed zip o m pA = some (trA, yA, mQ)
      ∧ runKeyed zip o mQ (writerLoop (trA.filterMap posted))
        = some (trW, (), mA)
      ∧ (mA.store = mS.store
        ↔ (ok ∧ ¬ FailsToPost trA)
          ∨ (mA.store = m.store ∧ mS.store = m.store))

-- ========================================================= what is shared

/-- A call that concerns neither the store nor the message. -/
def IsPlainCall : (serverSig (Option Bytes)).Call → Prop
  | .other (.strdup _) => False
  | .other (.nnSend _) => False
  | .other _ => True
  | _ => False

variable {ok : Prop} {l : EnvCall (Option Bytes)}

private theorem run_other {α : Type} {k : l.Ret → Store.Server α}
    {tr : ServerTrace} {a : α} {m' : State Store} {r : l.Ret}
    (hr : l.answer zip (o (.other l)) = r)
    (h : runKeyed zip o m (k r) = some (tr, a, m')) :
    runKeyed zip o m (.call (.other l) k)
      = some (⟨.other l, r⟩ :: tr, a, m') :=
  Handler.run_call (by rw [← hr]; rfl) h

private theorem posted_plain (hl : IsPlainCall (.other l)) (r : l.Ret) :
    posted ⟨.other l, r⟩ = none := by
  cases l with
  | nnSend msg => exact hl.elim
  | _ => rfl

private theorem failsToPost_cons (hl : IsPlainCall (.other l)) (r : l.Ret)
    (tr : ServerTrace) :
    FailsToPost (⟨.other l, r⟩ :: tr) ↔ FailsToPost tr := by
  have hplain : postFails ⟨.other l, r⟩ = false := by
    cases l with
    | strdup name => exact hl.elim
    | nnSend msg => exact hl.elim
    | _ => rfl
  simp [FailsToPost, hplain]

/-- A plain call of the asynchronous way alone. -/
private theorem Compared.callA {pS : Store.Server Yerr}
    {kA : l.Ret → Store.Server Yerr} (hl : IsPlainCall (.other l))
    (h : Compared zip o ok m pS (kA (l.answer zip (o (.other l))))) :
    Compared zip o ok m pS (.call (.other l) kA) := by
  obtain ⟨trS, yS, mS, trA, yA, mQ, trW, mA, hS, hA, hW, hiff⟩ := h
  refine ⟨trS, yS, mS, _, yA, mQ, trW, mA, hS, run_other rfl hA, ?_, ?_⟩
  · rwa [List.filterMap_cons_none (posted_plain hl _)]
  · rwa [failsToPost_cons hl]

/-- A plain call of both. -/
private theorem Compared.call {kS kA : l.Ret → Store.Server Yerr}
    (hl : IsPlainCall (.other l))
    (h : Compared zip o ok m (kS (l.answer zip (o (.other l))))
      (kA (l.answer zip (o (.other l))))) :
    Compared zip o ok m (.call (.other l) kS) (.call (.other l) kA) := by
  obtain ⟨trS, yS, mS, trA, yA, mQ, trW, mA, hS, hA, hW, hiff⟩ :=
    h.callA hl
  exact ⟨_, yS, mS, trA, yA, mQ, trW, mA, run_other rfl hS, hA, hW, hiff⟩

/-- A piece that both have in common. -/
private theorem Compared.bind {α : Type} {p : Store.Server α}
    {fS fA : α → Store.Server Yerr} (hp : p.Calls IsPlainCall)
    (h : ∀ a, Compared zip o ok m (fS a) (fA a)) :
    Compared zip o ok m (p >>= fS) (p >>= fA) := by
  induction p with
  | ret a => exact h a
  | call c k ih =>
      cases c with
      | other l => exact Compared.call hp.1 (ih _ (hp.2 _))
      | _ => exact hp.1.elim

end FineDB

/-
Synchronous requests and the writer's messages are linearizable.

The server is the clients machine of Lib/Clients.lean with tasks for
operations (Model/System.lean), and every task keeps its discipline
(Proofs/Discipline.lean), so the marked tasks of a run have the order
that Lib/Linear.lean builds. What is left is to see that the server's
steps are steps of that machine: the transaction the machine takes a
client to keep is the one in the thread's structure (`Sys.Inv`).

The order respects real time from the moment an operation makes its
last call. For a request that is the sending of its response
(`sendsLast_of_atomic`), so a request whose answer is out comes before
every request received later, even if its thread has not yet gone back
to its loop.
-/
import FineDB.Proofs.Discipline

namespace FineDB

open Effect Mvcc

variable {Dbi : Type} {zip : Bytes → Bytes}

-- ============================================================== the steps

/-- The clients machine's account of a server state. -/
structure Sys.Inv (zip : Bytes → Bytes) (d₀ : Store) (s : Sys) : Prop where
  machine : ∃ g, Mvcc.Inv (serverRules zip) d₀ s.cfg g
  kept : ∀ c, s.cfg.kept c = (s.thread c).transaction

theorem Sys.inv_init (zip : Bytes → Bytes) (d₀ : Store) :
    (Sys.init d₀).Inv zip d₀ where
  machine := ⟨_, Mvcc.Inv.init d₀ 0⟩
  kept _ := rfl

variable {d₀ : Store} {s s' : Sys} {c : Nat}

theorem Sys.Inv.book (h : s.Inv zip d₀) : Bookkeeping s.cfg := by
  obtain ⟨g, hg⟩ := h.machine
  exact hg.book

/-- A task is admitted on the thread whose state it starts from. -/
theorem Sys.Inv.admits (h : s.Inv zip d₀) (c : Nat) (job : Job) :
    s.cfg.Admits (serverRules zip) (.invoke c ⟨job, s.thread c⟩) := by
  have hdisc := Task.disciplined ⟨job, s.thread c⟩
  show if (serverRules zip).atomic _ then _ else
    Disc _ (s.cfg.kept c).toList [] _ ∧ _
  rw [h.kept c]
  exact hdisc

/-- Taking on a job changes no thread and no kept transaction. -/
private theorem Sys.Inv.invoke {job : Job} {cfg : ServerCfg}
    {queue : Nat → List (Nat × WriterMsg)} (h : s.Inv zip d₀)
    (hs : s.cfg.step (serverRules zip) (.invoke c ⟨job, s.thread c⟩)
      = some cfg) :
    Sys.Inv zip d₀ { s with cfg := cfg, queue := queue } where
  machine := Mvcc.Inv.step h.machine (h.admits c job) hs
  kept c' := by
    obtain ⟨-, rfl⟩ := Cfg.step_invoke hs
    exact h.kept c'

theorem Sys.Inv.step {a : SysAct} (h : s.Inv zip d₀)
    (hs : Sys.step zip a s = some s') : s'.Inv zip d₀ := by
  cases a with
  | accept c fd =>
      obtain ⟨-, -, -, rfl⟩ := Sys.step_accept hs
      refine ⟨h.machine, fun c' => ?_⟩
      rw [h.kept c']
      by_cases hc : c' = c
      · rw [hc]
        simp
      · simp [hc]
  | receive c a =>
      obtain ⟨-, cfg, hcfg, rfl⟩ := Sys.step_receive hs
      exact h.invoke hcfg
  | hangup c =>
      obtain ⟨-, cfg, hcfg, rfl⟩ := Sys.step_hangup hs
      exact h.invoke hcfg
  | deliver c =>
      obtain ⟨src, msg, q, cfg, -, hcfg, rfl⟩ := Sys.step_deliver hs
      exact h.invoke hcfg
  | call c o =>
      obtain ⟨cfg, hcfg, rfl⟩ := Sys.step_call hs
      refine ⟨Mvcc.Inv.step (a := .call c o) h.machine trivial hcfg, fun c' => ?_⟩
      obtain ⟨i, x, cl, k, r, db, -, -, -, -, rfl⟩ := Cfg.step_call hcfg
      rw [Cfg.finish_kept]
      exact h.kept c'
  | respond c =>
      obtain ⟨i, x, a, cfg, hi, hx, hrest, hcfg, rfl⟩ := Sys.step_respond hs
      refine ⟨Mvcc.Inv.step (a := .respond c) h.machine trivial hcfg, fun c' => ?_⟩
      obtain ⟨i', x', a', hi', hx', hrest', rfl⟩ := Cfg.step_respond hcfg
      cases hi'.symm.trans hi
      cases hx'.symm.trans hx
      cases hrest'.symm.trans hrest
      by_cases hc : c' = c
      · rw [hc]
        simp [serverRules]
      · simp only [Function.update_of_ne hc]
        exact h.kept c'

theorem Sys.inv_of_run {acts : List SysAct}
    (hrun : Machine.run (Sys.step zip) (Sys.init d₀) acts = some s) :
    s.Inv zip d₀ :=
  Machine.inv_of_run _ (fun _ _ _ h hs => h.step hs)
    (Sys.inv_init zip d₀) hrun

-- ====================================================== the response is last

/-- A call that sends. -/
def IsSend : (serverSig Dbi).Call → Prop
  | .other (.sendmsg _) => True
  | _ => False

section Synchronous

variable {f : Flags} {thread : TcpThread}

end Synchronous

/-- The response of `x` is out. -/
def Responded (x : ServerOp) : Prop := ∃ e ∈ x.trace, IsSend e.1

/-- Where a marked operation stands towards its response: it is the last
call, and has been if it is out. -/
private structure ResponseOk (x : ServerOp) : Prop where
  final : x.label.atomic = true → x.rest.Final IsSend
  last : x.label.atomic = true → Responded x → ∃ a, x.rest = .ret a

private theorem ResponseOk.after {x : ServerOp} {o : Outcome}
    {cl : (serverSig (Option Bytes)).Call}
    {k : cl.Ret → Store.Server (Yerr × TcpThread)} {r : cl.Ret}
    (h : ResponseOk x) (hrest : x.rest = .call cl k) :
    ResponseOk (x.after o ⟨cl, r⟩ (k r)) := by
  refine ⟨fun hatomic => ?_, fun hatomic hresp => ?_⟩
  · have hfinal := h.final hatomic
    rw [hrest] at hfinal
    exact hfinal.2 r
  · have hfinal := h.final hatomic
    rw [hrest] at hfinal
    obtain ⟨e, he, hsend⟩ := hresp
    rcases List.mem_append.mp he with he | he
    · -- the response was out before: there was no call left to make
      obtain ⟨a, ha⟩ := h.last hatomic ⟨e, he, hsend⟩
      rw [hrest] at ha
      cases ha
    · rw [List.mem_singleton.mp he] at hsend
      exact hfinal.1 hsend r

end FineDB

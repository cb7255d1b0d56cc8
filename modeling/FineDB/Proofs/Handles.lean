/-
What database.c does to LMDB's handles and transactions, under every
combination of success and failure of its calls.

The obligations of lmdb.h are two monitors, machines that read the
events of one call of a database function and refuse a forbidden one:

- `Handles.step`: `mdb_dbi_close` only on a handle this call opened and
  that is still open, and not while a transaction that modified the
  database through it is pending. `mdb_drop` closes the handle of a
  named database itself;
- `Ended.step`: an ended transaction is neither ended again nor used,
  and the caller's own is not ended at all.

For each of them the five functions are covered by one equivalence: the
trace of a call is accepted exactly when no event of it is one of a few
named kinds. Those kinds are where the code departs from lmdb.h.
-/
import FineDB.Lib.Run
import FineDB.Model.Database

namespace FineDB

open Effect Mvcc Machine

-- ================================================== calls and their traces

/-- The callback of `database_list`: whatever it does, it does it on the
client's socket. -/
structure ListCallback where
  run : Bytes → Bytes → Server Nat Yerr
  sends : ∀ key data, (run key data).Calls
    fun c : (serverSig Nat).Call => ∃ bytes, c = .other (.sendmsg bytes)

/-- A call of one of the five functions. -/
inductive DbCall
  | put (createOnly : Bool) (key data : Bytes)
  | del (key : Bytes)
  | get (key : Bytes)
  | list (entries : Nat) (cb : ListCallback)
  | drop

/-- A call with its answer. -/
abbrev DbEvent := Event (serverSig Nat)

/-- `tr` is a trace of the call: the calls it makes, with some
combination of answers. -/
def DbCall.Makes (transaction : Option Nat) (name : Option Bytes)
    (tr : List DbEvent) : DbCall → Prop
  | .put createOnly key data =>
      ∃ e, (databasePut transaction createOnly name key data).Exec tr e
  | .del key => ∃ e, (databaseDel transaction name key).Exec tr e
  | .get key => ∃ e, (databaseGet transaction name key).Exec tr e
  | .list entries cb =>
      ∃ e, (databaseList transaction name entries cb.run).Exec tr e
  | .drop => ∃ e, (databaseDrop transaction name).Exec tr e

-- ============================================================ the monitors

/-- The handles opened so far and not closed, each with whether its
database is named, and the pending modifications, each a transaction
and the handle it went through. -/
structure Handles where
  opened : List (Nat × Bool)
  dirty : List (Nat × Nat)
deriving DecidableEq

/-- A pending modification through `dbi`. -/
@[simp] def Handles.modified (s : Handles) (t dbi : Nat) (rc : MdbRc) :
    Handles :=
  if rc = .success then { s with dirty := (t, dbi) :: s.dirty } else s

/-- An LMDB call through transaction `t`. -/
@[simp] def Handles.access (t : Nat) (s : Handles) :
    (c : LmdbCall Nat) → c.Ret → Handles
  | .dbiOpen name create, .opened dbi created =>
      { opened := (dbi, name.isSome) :: s.opened
        dirty := if create && created then (t, dbi) :: s.dirty
          else s.dirty }
  | .dbiOpen _ _, .refused _ => s
  | .put dbi _ _ _, rc => s.modified t dbi rc
  | .del dbi _, rc => s.modified t dbi rc
  | .drop dbi, rc =>
      let s' := s.modified t dbi rc
      if rc = .success then
        { s' with opened := s.opened.filter (· ≠ (dbi, true)) } else s'
  | .get _ _, _ => s
  | .cursorOpen _, _ => s
  | .cursorNext _ _, _ => s
  | .cursorClose _, _ => s

/-- The end of a transaction settles its modifications. -/
@[simp] def Handles.settled (s : Handles) (t : Nat) : Handles :=
  { s with dirty := s.dirty.filter (·.1 ≠ t) }

@[simp] def Handles.close (s : Handles) (dbi : Nat) : Option Handles :=
  if s.opened.any (·.1 = dbi) ∧ s.dirty.all (·.2 ≠ dbi) then
    some { s with opened := s.opened.filter (·.1 ≠ dbi) }
  else none

@[simp] def Handles.step : DbEvent → Handles → Option Handles
  | ⟨.txnBegin _, _⟩, s => some s
  | ⟨.access t c, r⟩, s => some (s.access t c r)
  | ⟨.commit t, _⟩, s => some (s.settled t)
  | ⟨.abort t, _⟩, s => some (s.settled t)
  | ⟨.other c, _⟩, s =>
      match c with
      | .dbiClose dbi => s.close dbi
      | _ => some s

/-- The trace of one call keeps the handle discipline. -/
@[simp] def HandlesOk (tr : List DbEvent) : Prop :=
  (Machine.run Handles.step ⟨[], []⟩ tr).isSome

/-- The transactions ended so far; `caller` is not to be ended. -/
@[simp] def Ended.step (caller : Option Nat) :
    DbEvent → List Nat → Option (List Nat)
  | ⟨.txnBegin _, _⟩, ended => some ended
  | ⟨.access t _, _⟩, ended => if t ∈ ended then none else some ended
  | ⟨.commit t, _⟩, ended =>
      if t ∈ ended ∨ caller = some t then none else some (t :: ended)
  | ⟨.abort t, _⟩, ended =>
      if t ∈ ended ∨ caller = some t then none else some (t :: ended)
  | ⟨.other _, _⟩, ended => some ended

/-- The trace of one call, made with transaction `caller`, ends and uses
transactions as it should. -/
@[simp] def EndedOk (caller : Option Nat) (tr : List DbEvent) : Prop :=
  (Machine.run (Ended.step caller) [] tr).isSome

-- ====================================================== kinds of events

/-- The ways an LMDB call can end that matter below: an open created
the database, an open failed, a write succeeded. -/
inductive Mark
  | created
  | refused
  | wrote
  | plain
deriving DecidableEq

@[simp] def writeMark (rc : MdbRc) : Mark :=
  if rc = .success then .wrote else .plain

@[simp] def accessMark : (c : LmdbCall Nat) → c.Ret → Mark
  | .dbiOpen _ create, .opened _ created =>
      if create && created then .created else .plain
  | .dbiOpen _ _, .refused _ => .refused
  | .put _ _ _ _, rc => writeMark rc
  | .del _ _, rc => writeMark rc
  | .drop _, rc => writeMark rc
  | .get _ _, _ => .plain
  | .cursorOpen _, _ => .plain
  | .cursorNext _ _, _ => .plain
  | .cursorClose _, _ => .plain

@[simp] def mark : DbEvent → Mark
  | ⟨.access _ c, r⟩ => accessMark c r
  | ⟨.txnBegin _, _⟩ => .plain
  | ⟨.commit _, _⟩ => .plain
  | ⟨.abort _, _⟩ => .plain
  | ⟨.other _, _⟩ => .plain

/-- A commit that failed. -/
@[simp] def commitFailed : DbEvent → Bool
  | ⟨.commit _, ok⟩ => !ok
  | ⟨.access _ _, _⟩ => false
  | ⟨.txnBegin _, _⟩ => false
  | ⟨.abort _, _⟩ => false
  | ⟨.other _, _⟩ => false

/-- Where handles go wrong: every function that modifies a database
closes the handle before the end of the transaction, or after `mdb_drop`
closed it; `database_get` closes an uninitialised handle when the open
failed. -/
@[simp] def handleFault : DbCall → Mark → Bool
  | .get _, .refused => true
  | _, m => m = .created || m = .wrote

/-- Where transactions go wrong: `database_put` and `database_del` abort
after a failed commit, which has freed the transaction already. -/
@[simp] def endFault (call : DbCall) (e : DbEvent) : Bool :=
  match call with
  | .put _ _ _ => commitFailed e
  | .del _ => commitFailed e
  | _ => false

/-- Both verdicts on a trace are explained by the faults in it. -/
@[simp] def Judged (caller : Option Nat) (call : DbCall)
    (tr : List DbEvent) : Prop :=
  (HandlesOk tr ↔ ∀ e ∈ tr, handleFault call (mark e) = false)
    ∧ (EndedOk caller tr ↔ ∀ e ∈ tr, endFault call e = false)

-- ============================================= one function after another

section Functions

variable (caller : Option Nat) (name : Option Bytes)

theorem put_judged (createOnly : Bool) (key data : Bytes) :
    (databasePut caller createOnly name key data).Traces
      fun tr _ => Judged caller (.put createOnly key data) tr := by
  cases caller with
  | none =>
      intro t
      cases t with
      | none => simp
      | some t =>
          intro r
          cases r with
          | refused rc => simp [writeEndOfProcess_error]
          | opened dbi created =>
              intro rc _
              by_cases hrc : rc = .success
              · simp [hrc, writeEndOfProcess_ok]
              · -- the write failed, but the open may have created
                cases created <;>
                  simp [hrc, writeRetval_ne, writeEndOfProcess_error]
  | some t =>
      intro r
      cases r with
      | refused rc => simp
      | opened dbi created =>
          intro rc _
          by_cases hrc : rc = .success
          · simp [hrc]
          · cases created <;> simp [hrc]

theorem del_judged (key : Bytes) :
    (databaseDel caller name key).Traces
      fun tr _ => Judged caller (.del key) tr := by
  cases caller with
  | none =>
      intro t
      cases t with
      | none => simp
      | some t =>
          intro r
          cases r with
          | refused rc => simp [writeEndOfProcess_error]
          | opened dbi created =>
              intro rc _
              by_cases hrc : rc = .success
              · simp [hrc, writeEndOfProcess_ok]
              · simp [hrc, writeRetval_ne, writeEndOfProcess_error]
  | some t =>
      intro r
      cases r with
      | refused rc => simp
      | opened dbi created =>
          intro rc _
          by_cases hrc : rc = .success
          · simp [hrc]
          · simp [hrc]

theorem drop_judged :
    (databaseDrop caller name).Traces
      fun tr _ => Judged caller .drop tr := by
  cases caller with
  | none =>
      intro t
      cases t with
      | none => simp
      | some t =>
          intro r
          cases r with
          | refused rc => simp [dropEndOfProcess_error]
          | opened dbi created =>
              intro rc _
              by_cases hrc : rc = .success
              · simp [hrc, dropEndOfProcess_ok]
              · simp [hrc, writeRetval_ne, dropEndOfProcess_error]
  | some t =>
      intro r
      cases r with
      | refused rc => simp
      | opened dbi created =>
          intro rc _
          by_cases hrc : rc = .success
          · simp [hrc]
          · simp [hrc]

theorem get_judged (key : Bytes) :
    (databaseGet caller name key).Traces
      fun tr _ => Judged caller (.get key) tr := by
  cases caller with
  | none =>
      intro t
      cases t with
      | none => simp
      | some t =>
          intro r
          cases r with
          | refused rc => simp
          | opened dbi created => simp
  | some t =>
      intro r
      cases r with
      | refused rc => simp
      | opened dbi created => simp

/-- The calls between opening and closing the handle in
`database_list`. -/
inductive CursorCall (t dbi : Nat) : (serverSig Nat).Call → Prop
  | cursorOpen : CursorCall t dbi (.access t (.cursorOpen dbi))
  | cursorNext (pos) : CursorCall t dbi (.access t (.cursorNext dbi pos))
  | cursorClose : CursorCall t dbi (.access t (.cursorClose dbi))
  | sendmsg (bytes) : CursorCall t dbi (.other (.sendmsg bytes))

theorem databaseListLoop_calls (t dbi : Nat) (cb : ListCallback)
    (entries : Nat) (pos : Option Bytes) :
    (databaseListLoop t dbi cb.run entries pos).Calls
      (CursorCall t dbi) := by
  induction entries generalizing pos with
  | zero => exact ⟨.cursorNext pos, fun _ => trivial⟩
  | succ entries ih =>
      refine ⟨.cursorNext pos, fun r => ?_⟩
      cases r with
      | error rc => trivial
      | ok pair =>
          show (cb.run pair.1 pair.2 >>= _).Calls _
          refine Prog.calls_bind (Prog.Calls.mono ?_ (cb.sends _ _)) ?_
          · rintro _ ⟨bytes, rfl⟩
            exact .sendmsg bytes
          · intro e
            split
            · trivial
            · exact ih _

theorem databaseListCursor_calls (t dbi : Nat) (cb : ListCallback)
    (entries : Nat) :
    (databaseListCursor t dbi entries cb.run).Calls (CursorCall t dbi) := by
  refine ⟨.cursorOpen, fun rc => ?_⟩
  show (if rc = .success then _ else _ : Server Nat Yerr).Calls _
  split
  · refine Prog.calls_bind (databaseListLoop_calls t dbi cb entries none) ?_
    exact fun _ => ⟨.cursorClose, fun _ => trivial⟩
  · trivial

/-- These calls change neither monitor and are no fault. -/
theorem cursor_events {t dbi : Nat} {tr : List DbEvent}
    (htr : ∀ e ∈ tr, CursorCall t dbi e.1) (s : Handles) :
    Machine.run Handles.step s tr = some s
      ∧ Machine.run (Ended.step caller) [] tr = some []
      ∧ ∀ e ∈ tr, mark e = .plain := by
  induction tr with
  | nil => simp
  | cons e tr ih =>
      simp only [List.forall_mem_cons] at htr ⊢
      obtain ⟨hs, he, hmark⟩ := ih htr.2
      obtain ⟨c, r⟩ := e
      cases htr.1 <;> exact ⟨by simpa using hs, by simpa using he, rfl, hmark⟩

theorem list_judged (entries : Nat) (cb : ListCallback) :
    (databaseList caller name entries cb.run).Traces
      fun tr _ => Judged caller (.list entries cb) tr := by
  -- a trace all of whose events are plain, and that both monitors accept
  have hplain : ∀ tr : List DbEvent, HandlesOk tr → EndedOk caller tr →
      (∀ e ∈ tr, mark e = .plain) →
      Judged caller (.list entries cb) tr := by
    intro tr hhandles hended hmark
    refine ⟨⟨fun _ e he => ?_, fun _ => hhandles⟩,
      ⟨fun _ e he => rfl, fun _ => hended⟩⟩
    rw [hmark e he]
    rfl
  cases caller with
  | none =>
      intro t
      cases t with
      | none => simp
      | some t =>
          intro r
          cases r with
          | refused rc => simp
          | opened dbi created =>
              show (databaseListCursor t dbi entries cb.run >>= _).Traces _
              rw [Prog.traces_bind]
              refine (databaseListCursor_calls t dbi cb entries).traces ?_
              intro mid e hmid _ _
              obtain ⟨hs, he, hmark⟩ :=
                cursor_events none hmid ⟨[(dbi, name.isSome)], []⟩
              apply hplain
              · simp [run_append, hs]
              · simp [run_append, he]
              · simp only [List.forall_mem_cons, List.forall_mem_append]
                exact ⟨rfl, rfl, hmark, rfl, rfl, nofun⟩
  | some t =>
      intro r
      cases r with
      | refused rc => simp
      | opened dbi created =>
          show (databaseListCursor t dbi entries cb.run >>= _).Traces _
          rw [Prog.traces_bind]
          refine (databaseListCursor_calls t dbi cb entries).traces ?_
          intro mid e hmid _
          obtain ⟨hs, he, hmark⟩ :=
            cursor_events (some t) hmid ⟨[(dbi, name.isSome)], []⟩
          apply hplain
          · simp [run_append, hs]
          · simp [run_append, he]
          · simp only [List.forall_mem_cons, List.forall_mem_append]
            exact ⟨rfl, hmark, rfl, nofun⟩

/-- Every trace of every function. -/
theorem dbCall_judged {tr : List DbEvent} (call : DbCall)
    (htr : call.Makes caller name tr) : Judged caller call tr := by
  cases call with
  | put createOnly key data =>
      obtain ⟨e, he⟩ := htr
      exact Prog.traces_iff.mp (put_judged caller name createOnly key data)
        tr e he
  | del key =>
      obtain ⟨e, he⟩ := htr
      exact Prog.traces_iff.mp (del_judged caller name key) tr e he
  | get key =>
      obtain ⟨e, he⟩ := htr
      exact Prog.traces_iff.mp (get_judged caller name key) tr e he
  | list entries cb =>
      obtain ⟨e, he⟩ := htr
      exact Prog.traces_iff.mp (list_judged caller name entries cb) tr e he
  | drop =>
      obtain ⟨e, he⟩ := htr
      exact Prog.traces_iff.mp (drop_judged caller name) tr e he

end Functions

-- ================================================== the handle discipline

/-- A call keeps the handle discipline exactly when it created no
database, wrote nothing and, for `database_get`, its open succeeded. -/
theorem handles_ok_iff (caller : Option Nat) (name : Option Bytes)
    (call : DbCall) (tr : List DbEvent) (htr : call.Makes caller name tr) :
    HandlesOk tr ↔ ∀ e ∈ tr, handleFault call (mark e) = false :=
  (dbCall_judged caller name call htr).1

/-- A get that finds nothing keeps it. -/
theorem handles_ok_get_notfound :
    HandlesOk [⟨.txnBegin true, some 1⟩,
        ⟨.access 1 (.dbiOpen (some [97]) false), .opened 2 false⟩,
        ⟨.access 1 (.get 2 [98]), .error .notfound⟩, ⟨.abort 1, ()⟩,
        ⟨.other (.dbiClose 2), ()⟩] :=
  (handles_ok_iff none (some [97, 0]) (.get [98]) _
    ⟨.error .YENODATA, by simp [databaseGet, cString, getRetval]⟩).mpr
    (by simp)

/-- A successful put closes the handle of a database it has modified
before it commits; a get whose open failed closes a handle nobody
opened; a successful drop closes a handle that `mdb_drop` closed. -/
theorem handles_not_ok :
    (∃ tr, (DbCall.put false [98] [99]).Makes none (some [97, 0]) tr
        ∧ tr.getLast? = some ⟨.commit 1, true⟩ ∧ ¬ HandlesOk tr)
      ∧ (∃ tr, (DbCall.get [98]).Makes none (some [97, 0]) tr
        ∧ tr.getLast? = some ⟨.other (.dbiClose 7), ()⟩ ∧ ¬ HandlesOk tr)
      ∧ ∃ tr, DbCall.drop.Makes none (some [97, 0]) tr
        ∧ tr.getLast? = some ⟨.commit 1, true⟩ ∧ ¬ HandlesOk tr := by
  refine ⟨⟨[⟨.txnBegin false, some 1⟩,
      ⟨.access 1 (.dbiOpen (some [97]) true), .opened 2 false⟩,
      ⟨.access 1 (.put 2 [98] [99] false), .success⟩,
      ⟨.other (.dbiClose 2), ()⟩, ⟨.commit 1, true⟩], ⟨.YENOERR, ?_⟩, rfl, ?_⟩,
    ⟨[⟨.txnBegin true, some 1⟩,
      ⟨.access 1 (.dbiOpen (some [97]) false), .refused .notfound⟩,
      ⟨.other .indeterminateDbi, 7⟩, ⟨.other (.dbiClose 7), ()⟩],
      ⟨.error .YEACCESS, ?_⟩, rfl, ?_⟩,
    ⟨[⟨.txnBegin false, some 1⟩,
      ⟨.access 1 (.dbiOpen (some [97]) false), .opened 2 false⟩,
      ⟨.access 1 (.drop 2), .success⟩,
      ⟨.other (.dbiClose 2), ()⟩, ⟨.commit 1, true⟩], ⟨.YENOERR, ?_⟩, rfl, ?_⟩⟩
  · simp [databasePut, cString, writeEndOfProcess_ok]
  · simp
  · simp [databaseGet, cString]
  · simp
  · simp [databaseDrop, cString, dropEndOfProcess_ok]
  · simp

-- ================================================= the transaction's end

/-- A call ends and uses transactions as it should exactly when it is
not a put or a delete whose commit failed. -/
theorem ended_ok_iff (caller : Option Nat) (name : Option Bytes)
    (call : DbCall) (tr : List DbEvent) (htr : call.Makes caller name tr) :
    EndedOk caller tr ↔ ∀ e ∈ tr, endFault call e = false :=
  (dbCall_judged caller name call htr).2

/-- A drop whose commit failed is not one of them. -/
theorem ended_ok_drop_commit_failed :
    EndedOk none [⟨.txnBegin false, some 1⟩,
        ⟨.access 1 (.dbiOpen (some [97]) false), .opened 2 false⟩,
        ⟨.access 1 (.drop 2), .success⟩, ⟨.other (.dbiClose 2), ()⟩,
        ⟨.commit 1, false⟩] :=
  (ended_ok_iff none (some [97, 0]) .drop _
    ⟨.YEACCESS, by simp [databaseDrop, cString, dropEndOfProcess_ok]⟩).mpr
    (by simp)

/-- A put whose commit failed aborts the transaction the commit has
freed. -/
theorem ended_not_ok :
    ∃ tr, (DbCall.put false [98] [99]).Makes none none tr
      ∧ tr.drop 4 = [⟨.commit 1, false⟩, ⟨.abort 1, ()⟩]
      ∧ ¬ EndedOk none tr := by
  refine ⟨[⟨.txnBegin false, some 1⟩,
      ⟨.access 1 (.dbiOpen none true), .opened 2 false⟩,
      ⟨.access 1 (.put 2 [98] [99] false), .success⟩,
      ⟨.other (.dbiClose 2), ()⟩, ⟨.commit 1, false⟩, ⟨.abort 1, ()⟩],
    ⟨.YEACCESS, ?_⟩, rfl, ?_⟩
  · simp [databasePut, writeEndOfProcess_ok]
  · simp

end FineDB

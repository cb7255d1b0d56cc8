/-
Which calls each piece of the server can make.

`Allows` bounds the calls of a program by four questions: whether it
uses a variable it never set, whether it sends on the connection,
whether it posts to the writer, and which transactions it touches (none
at all, its own, or only the one it was given). The answer for every
handler is one lemma, from which the disciplines, the bounds on messages and the stability of a session's
view are read off. START, STOP and the disconnection begin and end the
session's transaction; here it counts as their own.
-/
import FineDB.Model.System

namespace FineDB

open Effect Mvcc

variable {Dbi : Type}

/-- The calls allowed to a program. `txn` is `none` for no transaction,
`some none` for the program's own, `some (some t)` for accesses through
`t`. -/
def Allows (junk sends posts : Bool) (txn : Option (Option Nat)) :
    (serverSig Dbi).Call → Prop
  | .other .indeterminateSize => junk = true
  | .other .indeterminateDbi => junk = true
  | .other (.sendmsg _) => sends = true
  | .other (.nnSend _) => posts = true
  | .other (.close _) => False
  | .other _ => True
  | .access t _ => txn = some none ∨ txn = some (some t)
  | _ => txn = some none

variable {junk sends posts : Bool} {touched : Option (Option Nat)}

theorem Allows.of_none {c : (serverSig Dbi).Call}
    (h : Allows junk sends posts none c) :
    Allows junk sends posts touched c := by
  cases c with
  | other l =>
      cases l with
      | sendmsg bytes => exact h
      | nnSend msg => exact h
      | indeterminateSize => exact h
      | indeterminateDbi => exact h
      | close fd => exact h
      | _ => trivial
  | access t a =>
      rcases h with h | h
      · cases h
      · cases h
  | txnBegin rdonly => cases h
  | commit t => cases h
  | abort t => cases h

-- =========================================================== database.c

private theorem writeEndOfProcess_allows (transaction : Option Nat)
    (t : Nat) (retval : Yerr) :
    (writeEndOfProcess transaction t retval : Server Dbi _).Calls
      (Allows junk sends posts (some transaction)) := by
  cases transaction with
  | some u =>
      rw [writeEndOfProcess_some]
      trivial
  | none =>
      by_cases h : retval = .YENOERR
      · rw [h, writeEndOfProcess_ok]
        refine ⟨rfl, fun ok => ?_⟩
        cases ok with
        | false => exact ⟨rfl, fun _ => trivial⟩
        | true => trivial
      · rw [writeEndOfProcess_error t h]
        exact ⟨rfl, fun _ => trivial⟩

theorem databasePut_allows (transaction : Option Nat) (createOnly : Bool)
    (name : Option Bytes) (key data : Bytes) :
    (databasePut transaction createOnly name key data : Server Dbi _).Calls
      (Allows junk sends posts (some transaction)) := by
  cases transaction with
  | some t =>
      refine ⟨Or.inr rfl, fun ret => ?_⟩
      cases ret with
      | refused rc => exact writeEndOfProcess_allows (some t) t .YEACCESS
      | opened dbi created =>
          exact ⟨Or.inr rfl, fun rc => ⟨trivial, fun _ =>
            writeEndOfProcess_allows (some t) t (writeRetval rc)⟩⟩
  | none =>
      refine ⟨rfl, fun t => ?_⟩
      cases t with
      | none => trivial
      | some t =>
          refine ⟨Or.inl rfl, fun ret => ?_⟩
          cases ret with
          | refused rc => exact writeEndOfProcess_allows none t .YEACCESS
          | opened dbi created =>
              exact ⟨Or.inl rfl, fun rc => ⟨trivial, fun _ =>
                writeEndOfProcess_allows none t (writeRetval rc)⟩⟩

theorem databaseDel_allows (transaction : Option Nat)
    (name : Option Bytes) (key : Bytes) :
    (databaseDel transaction name key : Server Dbi _).Calls
      (Allows junk sends posts (some transaction)) := by
  cases transaction with
  | some t =>
      refine ⟨Or.inr rfl, fun ret => ?_⟩
      cases ret with
      | refused rc => exact writeEndOfProcess_allows (some t) t .YEACCESS
      | opened dbi created =>
          exact ⟨Or.inr rfl, fun rc => ⟨trivial, fun _ =>
            writeEndOfProcess_allows (some t) t (writeRetval rc)⟩⟩
  | none =>
      refine ⟨rfl, fun t => ?_⟩
      cases t with
      | none => trivial
      | some t =>
          refine ⟨Or.inl rfl, fun ret => ?_⟩
          cases ret with
          | refused rc => exact writeEndOfProcess_allows none t .YEACCESS
          | opened dbi created =>
              exact ⟨Or.inl rfl, fun rc => ⟨trivial, fun _ =>
                writeEndOfProcess_allows none t (writeRetval rc)⟩⟩

theorem databaseGet_allows (transaction : Option Nat)
    (name : Option Bytes) (key : Bytes) :
    (databaseGet transaction name key : Server Dbi _).Calls
      (Allows true sends posts (some transaction)) := by
  cases transaction with
  | some t =>
      refine ⟨Or.inr rfl, fun ret => ?_⟩
      cases ret with
      | refused rc => exact ⟨rfl, fun _ => ⟨trivial, fun _ => trivial⟩⟩
      | opened dbi created =>
          exact ⟨Or.inr rfl, fun rc => ⟨trivial, fun _ => trivial⟩⟩
  | none =>
      refine ⟨rfl, fun t => ?_⟩
      cases t with
      | none => trivial
      | some t =>
          refine ⟨Or.inl rfl, fun ret => ?_⟩
          cases ret with
          | refused rc =>
              exact ⟨rfl, fun _ => ⟨trivial, fun _ => trivial⟩⟩
          | opened dbi created =>
              exact ⟨Or.inl rfl, fun rc => ⟨rfl, fun _ =>
                ⟨trivial, fun _ => trivial⟩⟩⟩

-- ========================================================= the handlers

private theorem send_allows (code : ResponseCode)
    (serialized compressed : Bool) (data : Option Bytes) :
    (connectionSendResponse code serialized compressed data :
      Server Dbi _).Calls (Allows junk true posts touched) :=
  connectionSendResponse_calls (fun _ => rfl) ..

theorem commandError_allows :
    (commandError : Server Dbi _).Calls (Allows junk true posts touched) :=
  Prog.calls_bind (send_allows ..) fun _ => trivial

theorem withAlloc_allows {size : Nat} {p : Server Dbi Yerr}
    (hp : p.Calls (Allows junk true posts touched)) :
    (withAlloc size p).Calls (Allows junk true posts touched) := by
  refine ⟨trivial, fun ok => ?_⟩
  cases ok with
  | false => exact commandError_allows
  | true => exact hp

theorem immediateResponse_allows (sync : Bool) :
    (immediateResponse sync : Server Dbi _).Calls
      (Allows junk true posts touched) := by
  unfold immediateResponse
  split
  · trivial
  · exact Prog.calls_bind (send_allows ..) fun _ => trivial

theorem commandPutData_allows (compress : Bool) (data : Bytes) :
    (commandPutData compress data : Server Dbi _).Calls
      (Allows junk sends posts touched) := by
  cases compress with
  | true => trivial
  | false =>
      refine ⟨trivial, fun ok => ?_⟩
      cases ok with
      | false => trivial
      | true =>
          refine ⟨trivial, fun ok => ?_⟩
          cases ok with
          | false => trivial
          | true => exact ⟨trivial, fun _ => trivial⟩

theorem uncompressInto_allows (z : Bytes) (unzipLen : Nat) :
    (uncompressInto z unzipLen : Server Dbi _).Calls
      (Allows junk sends posts touched) := by
  refine ⟨trivial, fun allocated => ⟨trivial, fun out => ?_⟩⟩
  cases out with
  | none => trivial
  | some out => trivial

theorem commandGetUncompress_allows (z : Bytes) :
    (commandGetUncompress z : Server Dbi _).Calls
      (Allows true sends posts touched) := by
  refine Prog.calls_bind ?_ fun unzipLen => uncompressInto_allows z unzipLen
  unfold unzipLength
  cases snappyUncompressedLength z with
  | none => exact ⟨rfl, fun _ => trivial⟩
  | some n => trivial

theorem commandGetAnswer_allows (f : Flags) (ret : Except Yerr Bytes) :
    (commandGetAnswer f ret : Server Dbi _).Calls
      (Allows true true posts touched) := by
  unfold commandGetAnswer
  split
  · exact Prog.calls_bind (send_allows ..) fun _ => trivial
  · exact commandError_allows
  · split
    · refine Prog.calls_bind (commandGetUncompress_allows _) fun out => ?_
      cases out with
      | none => exact commandError_allows
      | some data => exact send_allows ..
    · exact send_allows ..

/-- Posting to the writer uses no transaction. -/
private theorem post_allows (dbname : Option Bytes)
    (msg : Option Bytes → WriterMsg) :
    (do sendToWriter (msg (← dupDbname dbname)) : Server Dbi _).Calls
      (Allows junk true true touched) := by
  have hpost : ∀ msg, (sendToWriter msg : Server Dbi _).Calls
      (Allows junk true true touched) := by
    intro msg
    refine ⟨rfl, fun ok => ?_⟩
    cases ok with
    | false => exact commandError_allows
    | true => trivial
  cases dbname with
  | none => exact hpost _
  | some name =>
      refine ⟨trivial, fun ok => ?_⟩
      cases ok with
      | false => exact hpost _
      | true => exact hpost _

/-- The transactions a write handler touches. -/
def writeTxn (f : Flags) (thread : TcpThread) : Option (Option Nat) :=
  if f.sync then some thread.transaction else none

section Handlers

variable {f : Flags} {thread : TcpThread}

theorem commandGetExec_allows (name : Bytes) :
    (commandGetExec f thread name : Server Dbi _).Calls
      (Allows true true posts (some thread.transaction)) :=
  Prog.calls_bind (databaseGet_allows ..) fun ret =>
    commandGetAnswer_allows f ret

theorem commandDelExec_allows (key : Bytes) :
    (commandDelExec f thread key : Server Dbi _).Calls
      (Allows junk true (!f.sync) (writeTxn f thread)) := by
  refine Prog.calls_bind (immediateResponse_allows _) fun _ =>
    ⟨trivial, fun ok => ?_⟩
  cases ok with
  | false => exact commandError_allows
  | true =>
      simp only [Prog.bind, if_true, commandDelWrite, writeTxn]
      cases f.sync with
      | true =>
          exact Prog.calls_bind (databaseDel_allows ..) fun _ =>
            send_allows ..
      | false =>
          exact post_allows thread.dbname
            fun dbname => ⟨.writeDel, dbname, key, [], false⟩

theorem commandPutExec_allows (name data : Bytes) :
    (commandPutExec false false f thread name data : Server Dbi _).Calls
      (Allows junk true (!f.sync) (writeTxn f thread)) := by
  refine Prog.calls_bind (immediateResponse_allows _) fun _ =>
    ⟨trivial, fun ok => ?_⟩
  cases ok with
  | false => exact commandError_allows
  | true =>
      simp only [Prog.bind, if_true]
      refine Prog.calls_bind (commandPutData_allows ..) fun data => ?_
      cases data with
      | none => exact commandError_allows
      | some data =>
          simp only [commandPutWrite, Bool.or_false, writeTxn]
          cases f.sync with
          | true =>
              simp only [if_true]
              rw [commandPutSync_put]
              exact Prog.calls_bind (databasePut_allows ..) fun _ =>
                send_allows ..
          | false =>
              exact post_allows thread.dbname
                fun dbname => ⟨.writePut, dbname, name, data, false⟩

theorem commandSetdbExec_allows (name : Bytes) :
    (commandSetdbExec thread name : Server Dbi _).Calls
      (Allows junk true posts touched) := by
  unfold commandSetdbExec
  split
  · exact Prog.calls_bind (send_allows ..) fun _ => trivial
  · refine ⟨trivial, fun ok => ?_⟩
    cases ok with
    | false => exact ⟨rfl, fun _ => trivial⟩
    | true => exact ⟨rfl, fun _ => trivial⟩

theorem cutExec_allows (b : Byte) (part : Bytes) :
    (cutExec b part thread : Server Dbi _).Calls
      (Allows junk true posts touched) := by
  have halloc : (cutAlloc b part : Server Dbi _).Calls
      (Allows junk true posts touched) := by
    unfold cutAlloc
    split
    · exact ⟨trivial, fun _ => trivial⟩
    · trivial
  refine Prog.calls_bind halloc fun _ => ?_
  exact Prog.calls_bind commandError_allows fun _ => trivial

/-- START from the begin of the new transaction on. -/
theorem commandStart_allows :
    (commandStart thread : Server Dbi _).Calls
      (Allows junk true posts (some none)) := by
  have hbegin : (databaseTransactionStart true >>= fun transaction =>
      if transaction = none then do
        return (← transactionError,
          { thread with transaction := transaction })
      else do
        let _ ← connectionSendOk
        return (.YENOERR, { thread with transaction := transaction }) :
      Server Dbi (Yerr × TcpThread)).Calls
        (Allows junk true posts (some none)) := by
    refine ⟨rfl, fun transaction => ?_⟩
    cases transaction with
    | none => exact ⟨rfl, fun _ => trivial⟩
    | some t => exact ⟨rfl, fun _ => trivial⟩
  obtain ⟨fd, dbname, transaction⟩ := thread
  cases transaction with
  | none => exact hbegin
  | some t => exact ⟨rfl, fun _ => hbegin⟩

theorem commandStop_allows :
    (commandStop thread : Server Dbi _).Calls
      (Allows junk true posts (some none)) := by
  obtain ⟨fd, dbname, transaction⟩ := thread
  cases transaction with
  | none => exact ⟨rfl, fun _ => trivial⟩
  | some t => exact ⟨rfl, fun _ => ⟨rfl, fun _ => trivial⟩⟩

theorem connectionThreadDisconnect_allows :
    (connectionThreadDisconnect thread : Server Dbi _).Calls
      (Allows junk sends posts (some none)) := by
  obtain ⟨fd, dbname, transaction⟩ := thread
  unfold connectionThreadDisconnect
  split
  · trivial
  · cases transaction with
    | none => exact ⟨trivial, fun _ => trivial⟩
    | some t => exact ⟨rfl, fun _ => ⟨trivial, fun _ => trivial⟩⟩

theorem writerApply_allows (msg : WriterMsg) :
    (writerApply msg : Server Dbi _).Calls
      (Allows junk sends posts (some none)) := by
  unfold writerApply
  split
  · exact Prog.calls_bind (databasePut_allows ..) fun _ => trivial
  · exact Prog.calls_bind (databaseDel_allows ..) fun _ => trivial
  · trivial

end Handlers

-- =========================================================== the requests

/-- A write that is only posted. -/
def Request.async (b : Byte) (thread : TcpThread) : Request → Bool
  | .put _ _ => !(requestFlags b thread).sync
  | .del _ => !(requestFlags b thread).sync
  | _ => false

/-- The transactions a request touches. -/
def Request.txn (b : Byte) (thread : TcpThread) :
    Request → Option (Option Nat)
  | .get _ => some thread.transaction
  | .put _ _ => writeTxn (requestFlags b thread) thread
  | .del _ => writeTxn (requestFlags b thread) thread
  | _ => none

theorem Request.exec_allows {b : Byte} {thread : TcpThread} {r : Request}
    (hstart : r ≠ .start) (hstop : r ≠ .stop)
    (hget : ∀ key, r = .get key → junk = true) :
    (r.exec b thread : Server Dbi _).Calls
      (Allows junk true (r.async b thread) (r.txn b thread)) := by
  cases r with
  | ping => exact Prog.calls_bind (send_allows ..) fun _ => trivial
  | get key =>
      obtain rfl := hget key rfl
      exact Prog.calls_bind (withAlloc_allows (commandGetExec_allows _))
        fun _ => trivial
  | del key =>
      exact Prog.calls_bind (withAlloc_allows (commandDelExec_allows _))
        fun _ => trivial
  | put key data =>
      refine Prog.calls_bind (withAlloc_allows ?_) fun _ => trivial
      split
      · exact commandPutExec_allows _ _
      · exact withAlloc_allows (commandPutExec_allows _ _)
  | setdb name => exact commandSetdbExec_allows _
  | start => exact absurd rfl hstart
  | stop => exact absurd rfl hstop

-- ====================================================== what a bound gives

/-- Without transactions, or through the given one alone. -/
theorem Allows.through {live : List Nat}
    (h : touched = none ∨ ∃ t ∈ live, touched = some (some t))
    {c : (serverSig Dbi).Call} (hc : Allows junk sends posts touched c) :
    TxnCall.Through live c := by
  have hown : touched ≠ some none := by
    rintro rfl
    rcases h with h | ⟨t, -, h⟩
    · cases h
    · cases h
  cases c with
  | txnBegin rdonly => exact absurd hc hown
  | commit t => exact absurd hc hown
  | abort t => exact absurd hc hown
  | other l => trivial
  | access t a =>
      rcases hc with hc | rfl
      · exact absurd hc hown
      · rcases h with h | ⟨u, hu, h⟩
        · cases h
        · cases h
          exact hu

end FineDB

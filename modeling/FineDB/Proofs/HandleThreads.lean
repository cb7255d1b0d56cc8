/-
The threads of the server on the handle table.

Each thread is verified alone, the others being arbitrary calls between
its own (`Threads.Modular`): they leave its transactions alone, and
while it has the writer lock the stored data. `Does` is the statement
about one program of one thread, `Session` what holds between its
programs.
-/
import FineDB.Proofs.HandleTable

namespace FineDB

open Effect Mvcc Machine

variable {e e' : MdbEnv} {t : Nat} {x : MdbTxn} {n : Option Bytes}
  {wr : Bool} {dbi : Nat}

-- ================================================================ the programs

/-- Thread `c` runs `p`, for database `n`, among the others: its calls do
what they should, and it ends in `Q`. -/
def Does {α : Type} (c : Nat) (n : Option Bytes) (p : Server Nat α)
    (Q : α → MdbEnv → Prop) (e : MdbEnv) : Prop :=
  (handleThreads.company MdbEnv.Fits c n).Safe
    (handleThreads.Allowed MdbEnv.Fits MdbEnv.Right c n) p Q e

section Programs

variable {α β : Type} {c : Nat} {I : MdbEnv → Prop}
  {Q : α → MdbEnv → Prop}

theorem Does.ret {a : α} (hI : Framed c I) (he : I e)
    (h : ∀ m, I m → Q a m) : Does c n (.ret a) Q e :=
  Env.Safe.ret hI.others he h

theorem Does.call {call : (serverSig Nat).Call}
    {k : (serverSig Nat).Ret call → Server Nat α} (hI : Framed c I)
    (he : I e)
    (h : ∀ m o r m', I m → m.Fits n call → m.exec c o call = some (r, m') →
      m.Right n call r m' ∧ Does c n (k r) Q m') :
    Does c n (.call call k) Q e := by
  refine Env.Safe.call hI.others he (fun m hm hfit o r m' hexec => ?_)
    fun m r m' hm hans => ?_
  · exact (h m o r m' hm hfit hexec).1
  · obtain ⟨hfit, o, hexec⟩ := hans
    exact (h m o r m' hm hfit hexec).2

theorem Does.bind {p : Server Nat β} {f : β → Server Nat α}
    (h : Does c n p (fun b m => Does c n (f b) Q m) e) :
    Does c n (p >>= f) Q e :=
  Env.safe_bind h

theorem Does.mono {R : α → MdbEnv → Prop} (hQR : ∀ a m, Q a m → R a m)
    {p : Server Nat α} (h : Does c n p Q e) : Does c n p R e :=
  Env.Safe.mono hQR h

/-- A call outside LMDB. -/
theorem Does.other {l : EnvCall Nat} {k : l.Ret → Server Nat α}
    (hI : Framed c I) (he : I e) (h : ∀ r m, I m → Does c n (k r) Q m) :
    Does c n (.call (.other l) k) Q e := by
  refine Does.call hI he fun m o r m' hm _ hexec => ?_
  obtain ⟨names, valid, rfl⟩ := MdbEnv.exec_other hexec
  exact ⟨rfl, h r _ (hI.other m names valid hm)⟩

/-- A program that uses no transaction. -/
theorem Does.outside {p : Server Nat α}
    (hp : p.Calls (Allows true true true none)) (hI : Framed c I)
    (he : I e) : Does c n p (fun _ => I) e := by
  induction p generalizing e with
  | ret a => exact Does.ret hI he fun _ hm => hm
  | call call k ih =>
      cases call with
      | other l =>
          exact Does.other hI he fun r m hm => ih r (hp.2 r) hm
      | txnBegin rdonly => cases hp.1
      | commit t => cases hp.1
      | abort t => cases hp.1
      | access t a =>
          rcases hp.1 with h | h
          · cases h
          · cases h

/-- The state between the operations of a thread: its session's
transaction is open. -/
def Session (c : Nat) (transaction : Option Nat) (e : MdbEnv) : Prop :=
  2 ≤ e.numdbs ∧ ∀ t, transaction = some t →
    e.Holds c t false none fun _ => True

theorem framed_session (c : Nat) (transaction : Option Nat) :
    Framed c (Session c transaction) where
  others := fun e e' hd h =>
    ⟨(framed_two c).others e e' hd h.1,
      fun t ht => (framed_holds ..).others e e' hd (h.2 t ht)⟩
  other := fun e names valid h =>
    ⟨h.1, fun t ht => (framed_holds ..).other e names valid (h.2 t ht)⟩

theorem session_some (h : e.Holds c t false n fun _ => True) :
    Session c (some t) e :=
  ⟨h.two, fun _ hu => Option.some.inj hu ▸ h.reader none⟩

theorem session_none (h : 2 ≤ e.numdbs) : Session c none e :=
  ⟨h, nofun⟩

/-- An operation in its transaction `t`, the caller's or its own, with
the property `H`. -/
def Operates (c : Nat) (transaction : Option Nat) (wr : Bool)
    (n : Option Bytes) (t : Nat) (H : MdbTxn → Prop) (e : MdbEnv) : Prop :=
  (transaction = none ∨ transaction = some t)
    ∧ e.Holds c t (wr && transaction.isNone) n H

theorem framed_operates (c : Nat) (transaction : Option Nat) (wr : Bool)
    (n : Option Bytes) (t : Nat) (H : MdbTxn → Prop) :
    Framed c (Operates c transaction wr n t H) where
  others := fun e e' hd h =>
    ⟨h.1, (framed_holds ..).others e e' hd h.2⟩
  other := fun e names valid h =>
    ⟨h.1, (framed_holds ..).other e names valid h.2⟩

variable {transaction : Option Nat} {H : MdbTxn → Prop}

/-- At the end of an operation the session is as it was. -/
theorem Operates.session
    (h : Operates c transaction wr n t H e) : Session c transaction e := by
  obtain ⟨rfl | rfl, hholds⟩ := h
  · exact session_none hholds.two
  · rw [Option.isNone_some, Bool.and_false] at hholds
    exact session_some (hholds.mono fun _ _ => trivial)

/-- `transactionInit`: the caller's transaction or a new one. -/
theorem transactionInit_does (transaction : Option Nat) (rdonly : Bool)
    (he : Session c transaction e) :
    Does c n (transactionInit transaction rdonly)
      (fun r m => Session c transaction m ∧ ∀ t, r = some t →
        Operates c transaction (!rdonly) n t (fun _ => True) m) e := by
  cases transaction with
  | some t =>
      refine Does.ret (framed_session c (some t)) he fun m hm => ⟨hm, ?_⟩
      intro u hu
      cases hu
      refine ⟨.inr rfl, ?_⟩
      rw [Option.isNone_some, Bool.and_false]
      exact (hm.2 t rfl).reader n
  | none =>
      refine Does.call (framed_two c) he.1
        fun m o r m' hm _ hexec => ?_
      obtain ⟨hdata, htwo, hholds⟩ := MdbEnv.exec_begin_holds hm hexec n
      refine ⟨hdata, ?_⟩
      cases r with
      | none =>
          exact Does.ret (framed_two c) htwo
            fun m hm => ⟨session_none hm, nofun⟩
      | some t =>
          refine Does.ret (framed_holds c t (!rdonly) n _) (hholds t rfl)
            fun m hm => ⟨session_none hm.two, fun u hu => ?_⟩
          cases hu
          refine ⟨.inl rfl, ?_⟩
          rw [Option.isNone_none, Bool.and_true]
          exact hm

/-- `mdb_dbi_open` of the operation's database. -/
theorem Does.dbiOpen {create : Bool}
    {k : OpenRet Nat → Server Nat α}
    (he : Operates c transaction wr n t (fun _ => True) e)
    (hrefused : ∀ rc m, Operates c transaction wr n t (fun _ => True) m →
      Does c n (k (.refused rc)) Q m)
    (hopened : ∀ dbi created m,
      Operates c transaction wr n t (·.Handle n dbi) m →
      Does c n (k (.opened dbi created)) Q m) :
    Does c n (.call (.access t (.dbiOpen n create)) k) Q e := by
  refine Does.call (framed_operates ..) he fun m o r m' hm hfit hexec => ?_
  obtain ⟨hdata, hholds⟩ := MdbEnv.exec_open_holds hm.2 hfit hexec
  refine ⟨hdata, ?_⟩
  cases r with
  | refused rc =>
      exact hrefused rc m' ⟨hm.1, hholds.mono fun _ _ => trivial⟩
  | opened dbi created =>
      exact hopened dbi created m'
        ⟨hm.1, hholds.mono fun _ hx => hx dbi created rfl⟩

/-- The end of an operation by a call of `mdb_txn_abort`. -/
theorem Does.abort {k : Unit → Server Nat α} (hI : Framed c I) (he : I e)
    (htwo : ∀ m, I m → 2 ≤ m.numdbs)
    (h : ∀ m, Session c none m → Does c n (k ()) Q m) :
    Does c n (.call (.abort t) k) Q e := by
  refine Does.call hI he fun m o r m' hm _ hexec => ?_
  exact ⟨MdbEnv.exec_abort_data hexec,
    h m' (session_none ((htwo m hm).trans (MdbEnv.exec_counts hexec).2))⟩

theorem rollbackOwn_does
    (he : Operates c transaction wr n t (fun _ => True) e) :
    Does c n (rollbackOwn transaction t)
      (fun _ => Session c transaction) e := by
  cases transaction with
  | some u =>
      exact Does.ret (framed_operates ..) he fun m hm => hm.session
  | none =>
      refine Does.abort (framed_operates ..) he (fun m hm => hm.2.two) ?_
      exact fun m hm => Does.ret (framed_session ..) hm fun _ h => h

theorem databaseGet_does (transaction : Option Nat) (name : Option Bytes)
    (key : Bytes) (he : Session c transaction e) :
    Does c (name.map cString) (databaseGet transaction name key)
      (fun _ => Session c transaction) e := by
  refine Does.bind (Does.mono ?_ (transactionInit_does _ true he))
  rintro (_ | t) m ⟨hsession, hm⟩
  · exact Does.ret (framed_session ..) hsession fun _ h => h
  refine Does.dbiOpen (hm t rfl) (fun rc m hm => ?_)
    fun dbi created m hm => ?_
  · refine Does.other (framed_session ..) hm.session fun dbi m hm => ?_
    refine Does.other (framed_session ..) hm fun _ m hm => ?_
    exact Does.ret (framed_session ..) hm fun _ h => h
  · refine Does.call (framed_operates ..) hm
      fun m o r m' hm hfit hexec => ?_
    obtain ⟨hright, hholds⟩ := MdbEnv.exec_get_holds hm.2 hfit hexec
    refine ⟨hright, ?_⟩
    have hm' : Operates c transaction false (name.map cString) t
        (fun _ => True) m' := ⟨hm.1, hholds⟩
    show Does c _ (rollbackOwn transaction t >>= _) _ m'
    refine Does.bind (Does.mono ?_ (rollbackOwn_does hm'))
    intro _ m hm
    refine Does.other (framed_session ..) hm fun _ m hm => ?_
    exact Does.ret (framed_session ..) hm fun _ h => h

/-- `end_of_process` of the writes. -/
theorem writeEndOfProcess_does (retval : Yerr)
    (he : Operates c transaction true n t (fun _ => True) e) :
    Does c n (writeEndOfProcess transaction t retval)
      (fun _ => Session c transaction) e := by
  cases transaction with
  | some u =>
      rw [writeEndOfProcess_some]
      exact Does.ret (framed_operates ..) he fun m hm => hm.session
  | none =>
      by_cases hret : retval = .YENOERR
      · rw [hret, writeEndOfProcess_ok]
        refine Does.call (framed_operates ..) he
          fun m o r m' hm hfit hexec => ?_
        refine ⟨MdbEnv.exec_commit_holds hm.2 hfit hexec, ?_⟩
        have htwo : 2 ≤ m'.numdbs :=
          hm.2.two.trans (MdbEnv.exec_counts hexec).2
        cases r with
        | true =>
            exact Does.ret (framed_two c) htwo fun _ h => session_none h
        | false =>
            -- the transaction is ended once more
            refine Does.abort (framed_two c) htwo (fun _ h => h) ?_
            exact fun m hm => Does.ret (framed_session ..) hm fun _ h => h
      · rw [writeEndOfProcess_error t hret]
        refine Does.abort (framed_operates ..) he (fun m hm => hm.2.two) ?_
        exact fun m hm => Does.ret (framed_session ..) hm fun _ h => h

/-- `database_put` and `database_del` from the write on. -/
theorem writeThenClose_does {write : Server Nat MdbRc}
    (hwrite : Does c n write
      (fun _ => Operates c transaction true n t fun _ => True) e) :
    Does c n (do
        let rc ← write
        env (.dbiClose dbi)
        writeEndOfProcess transaction t (writeRetval rc))
      (fun _ => Session c transaction) e := by
  refine Does.bind (Does.mono ?_ hwrite)
  intro rc m hm
  refine Does.other (framed_operates ..) hm fun _ m hm => ?_
  exact writeEndOfProcess_does _ hm

theorem databasePut_does (transaction : Option Nat) (createOnly : Bool)
    (name : Option Bytes) (key data : Bytes)
    (he : Session c transaction e) :
    Does c (name.map cString)
      (databasePut transaction createOnly name key data)
      (fun _ => Session c transaction) e := by
  refine Does.bind (Does.mono ?_ (transactionInit_does _ false he))
  rintro (_ | t) m ⟨hsession, hm⟩
  · exact Does.ret (framed_session ..) hsession fun _ h => h
  refine Does.dbiOpen (hm t rfl) (fun rc m hm => writeEndOfProcess_does .YEACCESS hm)
    fun dbi created m hm => writeThenClose_does ?_
  refine Does.call (framed_operates ..) hm fun m o r m' hm hfit hexec => ?_
  obtain ⟨hdata, hholds⟩ := MdbEnv.exec_modify_holds
    (fun e x r e' h => by cases h; rfl) hm.2 hfit hexec
  exact ⟨hdata, Does.ret (framed_operates ..) ⟨hm.1, hholds⟩ fun _ h => h⟩

theorem databaseDel_does (transaction : Option Nat)
    (name : Option Bytes) (key : Bytes) (he : Session c transaction e) :
    Does c (name.map cString) (databaseDel transaction name key)
      (fun _ => Session c transaction) e := by
  refine Does.bind (Does.mono ?_ (transactionInit_does _ false he))
  rintro (_ | t) m ⟨hsession, hm⟩
  · exact Does.ret (framed_session ..) hsession fun _ h => h
  refine Does.dbiOpen (hm t rfl) (fun rc m hm => writeEndOfProcess_does .YEACCESS hm)
    fun dbi created m hm => writeThenClose_does ?_
  refine Does.call (framed_operates ..) hm fun m o r m' hm hfit hexec => ?_
  obtain ⟨hdata, hholds⟩ := MdbEnv.exec_modify_holds
    (fun e x r e' h => by cases h; rfl) hm.2 hfit hexec
  exact ⟨hdata, Does.ret (framed_operates ..) ⟨hm.1, hholds⟩ fun _ h => h⟩

-- =================================================================== the jobs

variable {thread : TcpThread} {f : Flags}

theorem withAlloc_does {size : Nat} {p : Server Nat Yerr}
    (he : Session c transaction e)
    (h : ∀ m, Session c transaction m →
      Does c n p (fun _ => Session c transaction) m) :
    Does c n (withAlloc size p) (fun _ => Session c transaction) e := by
  refine Does.other (framed_session ..) he fun ok m hm => ?_
  cases ok with
  | true => exact h m hm
  | false => exact Does.outside commandError_allows (framed_session ..) hm

theorem commandGetExec_does (name : Bytes)
    (he : Session c thread.transaction e) :
    Does c (thread.dbname.map cString) (commandGetExec f thread name)
      (fun _ => Session c thread.transaction) e := by
  refine Does.bind (Does.mono ?_ (databaseGet_does _ _ name he))
  intro ret m hm
  exact Does.outside (commandGetAnswer_allows f ret) (framed_session ..) hm

/-- The answer to a synchronous write. -/
theorem sendAnswer_does {p : Server Nat Yerr} (hp : Does c n p
      (fun _ => Session c transaction) e) :
    Does c n (p >>= fun result => sendAnswer (result = .YENOERR))
      (fun _ => Session c transaction) e := by
  refine Does.bind (Does.mono ?_ hp)
  intro rc m hm
  exact Does.outside (connectionSendResponse_calls (fun _ => rfl) ..)
    (framed_session ..) hm

/-- The beginning of a write: the response, if it is not to wait, and
the message. -/
theorem immediateResponse_does {sync : Bool} {p : Server Nat Yerr}
    (he : Session c transaction e)
    (h : ∀ m, Session c transaction m →
      Does c n p (fun _ => Session c transaction) m) :
    Does c n (do
        immediateResponse sync
        if ← env (.ymalloc sizeofWriterMsg) then p else commandError)
      (fun _ => Session c transaction) e := by
  refine Does.bind (Does.mono ?_ (Does.outside
    (immediateResponse_allows sync) (framed_session ..) he))
  exact fun _ m hm => withAlloc_does hm h

theorem commandDelExec_does (key : Bytes)
    (he : Session c thread.transaction e) :
    Does c (thread.dbname.map cString) (commandDelExec f thread key)
      (fun _ => Session c thread.transaction) e := by
  cases hsync : f.sync with
  | false =>
      have hposted := @commandDelExec_allows Nat true f thread key
      rw [writeTxn, hsync] at hposted
      exact Does.outside hposted (framed_session ..) he
  | true =>
      refine immediateResponse_does he fun m hm => ?_
      rw [commandDelWrite, hsync]
      exact sendAnswer_does (databaseDel_does _ _ key hm)

theorem commandPutExec_does (name data : Bytes)
    (he : Session c thread.transaction e) :
    Does c (thread.dbname.map cString)
      (commandPutExec false false f thread name data)
      (fun _ => Session c thread.transaction) e := by
  cases hsync : f.sync with
  | false =>
      have hposted := @commandPutExec_allows Nat true f thread name data
      rw [writeTxn, hsync] at hposted
      exact Does.outside hposted (framed_session ..) he
  | true =>
      refine immediateResponse_does he fun m hm => ?_
      refine Does.bind (Does.mono ?_ (Does.outside
        (commandPutData_allows f.compress data) (framed_session ..) hm))
      rintro (_ | data) m hm
      · exact Does.outside commandError_allows (framed_session ..) hm
      · show Does c _ (commandPutWrite false false (f.sync || false) thread
          name data) _ m
        rw [hsync, commandPutWrite, Bool.or_false, if_pos rfl,
          commandPutSync_put]
        exact sendAnswer_does (databasePut_does _ _ _ name data hm)

/-- The calls of a request other than START and STOP. -/
private theorem request_does {b : Byte} {r : Request}
    (hstart : r ≠ .start) (hstop : r ≠ .stop)
    (he : Session c thread.transaction e) :
    Does c (thread.dbname.map cString) (r.exec b thread)
      (fun _ => Session c thread.transaction) e := by
  have hthen : ∀ {p : Server Nat Yerr},
      Does c (thread.dbname.map cString) p
        (fun _ => Session c thread.transaction) e →
      Does c (thread.dbname.map cString)
        (do return ((← p, thread) : Yerr × TcpThread))
        (fun _ => Session c thread.transaction) e := by
    intro p hp
    refine Does.bind (Does.mono ?_ hp)
    exact fun rc m hm => Does.ret (framed_session ..) hm fun _ h => h
  cases r with
  | ping =>
      exact hthen (Does.outside
        (connectionSendResponse_calls (fun _ => rfl) ..)
        (framed_session ..) he)
  | get key =>
      exact hthen (withAlloc_does he fun m hm => commandGetExec_does _ hm)
  | del key =>
      exact hthen (withAlloc_does he fun m hm => commandDelExec_does _ hm)
  | put key data =>
      refine hthen (withAlloc_does he fun m hm => ?_)
      split
      · exact commandPutExec_does _ _ hm
      · exact withAlloc_does hm fun m hm => commandPutExec_does _ _ hm
  | setdb name =>
      exact Does.outside (commandSetdbExec_allows name.bytes)
        (framed_session ..) he
  | start => exact absurd rfl hstart
  | stop => exact absurd rfl hstop

/-- The end of the session's transaction. -/
theorem rollback_does {k : Unit → Server Nat α}
    (he : Session c (some t) e)
    (h : ∀ m, Session c none m → Does c n (k ()) Q m) :
    Does c n (.call (.abort t) k) Q e :=
  Does.abort (framed_session ..) he (fun _ hm => hm.1) h

theorem commandStart_does (thread : TcpThread)
    (he : Session c thread.transaction e) :
    Does c n (commandStart thread)
      (fun a m => Session c a.2.transaction m) e := by
  obtain ⟨fd, dbname, transaction⟩ := thread
  -- once the session has no transaction
  have hbegin : ∀ (th : TcpThread) m, Session c none m → Does c n
      (databaseTransactionStart true >>= fun transaction =>
        if transaction = none then do
          return (← transactionError,
            { th with transaction := transaction })
        else do
          let _ ← connectionSendOk
          return (.YENOERR, { th with transaction := transaction }) :
        Server Nat (Yerr × TcpThread))
      (fun a m => Session c a.2.transaction m) m := by
    intro th m hm
    refine Does.call (framed_two c) hm.1 fun m o r m' hm _ hexec => ?_
    obtain ⟨hdata, htwo, hholds⟩ := MdbEnv.exec_begin_holds hm hexec none
    refine ⟨hdata, ?_⟩
    have hsession : Session c r m' := ⟨htwo, hholds⟩
    cases r with
    | none =>
        refine Does.other (framed_session ..) hsession fun _ m hm => ?_
        exact Does.ret (framed_session ..) hm fun _ h => h
    | some t =>
        refine Does.other (framed_session ..) hsession fun _ m hm => ?_
        exact Does.ret (framed_session ..) hm fun _ h => h
  cases transaction with
  | none => exact hbegin ⟨fd, dbname, none⟩ e he
  | some t => exact rollback_does he (hbegin ⟨fd, dbname, some t⟩)

theorem commandStop_does (thread : TcpThread)
    (he : Session c thread.transaction e) :
    Does c n (commandStop thread)
      (fun a m => Session c a.2.transaction m) e := by
  obtain ⟨fd, dbname, transaction⟩ := thread
  cases transaction with
  | none =>
      refine Does.other (framed_session ..) he fun _ m hm => ?_
      exact Does.ret (framed_session ..) hm fun _ h => h
  | some t =>
      refine rollback_does he fun m hm => ?_
      refine Does.other (framed_session ..) hm fun _ m hm => ?_
      exact Does.ret (framed_session ..) hm fun _ h => h

theorem connectionThreadDisconnect_does (thread : TcpThread)
    (he : Session c thread.transaction e) :
    Does c n (connectionThreadDisconnect thread)
      (fun th m => Session c th.transaction m) e := by
  obtain ⟨fd, dbname, transaction⟩ := thread
  unfold connectionThreadDisconnect
  split
  · exact Does.ret (framed_session ..) he fun _ h => h
  · cases transaction with
    | none =>
        refine Does.other (framed_session ..) he fun _ m hm => ?_
        exact Does.ret (framed_session ..) hm fun _ h => h
    | some t =>
        refine rollback_does he fun m hm => ?_
        refine Does.other (framed_session ..) hm fun _ m hm => ?_
        exact Does.ret (framed_session ..) hm fun _ h => h

theorem Request.exec_does (b : Byte) (r : Request)
    (he : Session c thread.transaction e) :
    Does c (thread.dbname.map cString) (r.exec b thread)
      (fun a m => Session c a.2.transaction m) e := by
  by_cases hstart : r = .start
  · rw [hstart]
    exact commandStart_does thread he
  by_cases hstop : r = .stop
  · rw [hstop]
    exact commandStop_does thread he
  have hdoes := request_does (b := b) hstart hstop he
  refine Does.mono ?_ (Env.Safe.ensures hdoes
    (Request.exec_transaction hstart hstop))
  rintro a m ⟨htxn, hm⟩
  rw [htxn]
  exact hm

theorem writerApply_does (msg : WriterMsg) (he : Session c none e) :
    Does c (msg.dbname.map cString) (writerApply msg)
      (fun _ => Session c none) e := by
  unfold writerApply
  cases msg.type with
  | writePut =>
      refine Does.bind (Does.mono ?_ (databasePut_does none _ _ _ _ he))
      exact fun _ m hm => Does.ret (framed_session ..) hm fun _ h => h
  | writeDel =>
      refine Does.bind (Does.mono ?_ (databaseDel_does none _ _ he))
      exact fun _ m hm => Does.ret (framed_session ..) hm fun _ h => h
  | writeDrop => exact Does.ret (framed_session ..) he fun _ h => h

end Programs

/-- The property of one thread. -/
theorem handles_modular : handleThreads.Modular MdbEnv.Fits MdbEnv.Right
    fun c thread => Session c thread.transaction where
  stable := fun c thread => (framed_session c thread.transaction).others
  safe := by
    intro c job thread e he
    cases job with
    | request b r =>
        refine Does.bind (Does.mono ?_ (Request.exec_does b r he))
        exact fun a m hm => Does.ret (framed_session ..) hm fun _ h => h
    | disconnect => exact connectionThreadDisconnect_does thread he
    | message msg =>
        refine Does.bind (Does.mono ?_
          (writerApply_does msg (session_none he.1)))
        exact fun _ m hm => Does.ret (framed_session ..) hm fun _ h => h

/-- In every run of any number of threads whose calls all meet the
condition on the handle table, every lookup answers from the database
it was given the name of, and nothing but that database is modified. -/
theorem operations_on_their_database (data : Store) (maxdbs : Nat)
    (acts : List (ThreadAct ThreadJob Lot))
    (hfits : Meets handleThreads.step
      (handleThreads.AtCall fun n e call _ _ => e.Fits n call)
      (handlesInit data maxdbs) acts) :
    Meets handleThreads.step (handleThreads.AtCall MdbEnv.Right)
      (handlesInit data maxdbs) acts :=
  handles_modular.meets (fun _ => session_none le_rfl) hfits

-- =================================================================== two races

instance decidableFits (n : Option Bytes) (e : MdbEnv) :
    ∀ call, Decidable (e.Fits n call)
  | .access t (.dbiOpen name _) => inferInstanceAs (Decidable
      (∀ x ∈ e.txns t, ∀ m ∈ name, ∀ i ∈ e.findSlot x m, ∀ s ∈ x.slot i,
        s.stale = true ∨ s.origin = m))
  | .access t (.get dbi _) => inferInstanceAs (Decidable
      (∀ x ∈ e.txns t, ∀ s ∈ x.slot dbi, s.stale = true → e.names dbi = n))
  | .access t (.put dbi _ _ _) => inferInstanceAs (Decidable
      (∀ x ∈ e.txns t, ∀ s ∈ x.slot dbi, s.stale = true → e.names dbi = n))
  | .access t (.del dbi _) => inferInstanceAs (Decidable
      (∀ x ∈ e.txns t, ∀ s ∈ x.slot dbi, s.stale = true → e.names dbi = n))
  | .commit t => inferInstanceAs (Decidable
      (∀ x ∈ e.txns t, ∀ i ∈ x.slots, ∀ s ∈ x.slot i,
        s.dirty = true → e.names i = none ∨ e.names i = some s.origin))
  | .access _ (.drop _) => .isTrue trivial
  | .access _ (.cursorOpen _) => .isTrue trivial
  | .access _ (.cursorNext _ _) => .isTrue trivial
  | .access _ (.cursorClose _) => .isTrue trivial
  | .txnBegin _ => .isTrue trivial
  | .abort _ => .isTrue trivial
  | .other _ => .isTrue trivial

instance decidableFrom (db : Option Db) (key : Bytes) :
    ∀ ret, Decidable (Answers.From db key ret)
  | .ok data => inferInstanceAs (Decidable (_ = some data))
  | .error .notfound => inferInstanceAs (Decidable (_ = none))
  | .error .success => .isTrue trivial
  | .error .eacces => .isTrue trivial
  | .error .einval => .isTrue trivial
  | .error .keyexist => .isTrue trivial
  | .error .resource => .isTrue trivial

/-- `Right` as far as one entry of one database shows it. -/
private def RightAt (m : Option Bytes) (key : Bytes) (n : Option Bytes)
    (e : MdbEnv) :
    (call : (serverSig Nat).Call) → (serverSig Nat).Ret call → MdbEnv → Prop
  | .access t (.get _ key), ret, _ =>
      ∀ x ∈ e.txns t, Answers.From (x.view.db n) key ret
  | .commit _, _, e' =>
      m ≠ n → (e'.data.db m).bind (·[key]?) = (e.data.db m).bind (·[key]?)
  | _, _, _ => True

private theorem rightAt_of_right {m n : Option Bytes} {key : Bytes}
    {call : (serverSig Nat).Call} {r : (serverSig Nat).Ret call}
    (h : e.Right n call r e') : RightAt m key n e call r e' := by
  cases call with
  | access t a =>
      cases a with
      | get dbi key => exact h.2
      | _ => trivial
  | commit t =>
      intro hm
      rw [h m hm]
  | _ => trivial

private instance (m : Option Bytes) (key : Bytes) (n : Option Bytes)
    (e : MdbEnv) : ∀ call r e', Decidable (RightAt m key n e call r e')
  | .access t (.get _ key), ret, _ => inferInstanceAs (Decidable
      (∀ x ∈ e.txns t, Answers.From (x.view.db n) key ret))
  | .commit _, _, e' => inferInstanceAs (Decidable (m ≠ n →
      (e'.data.db m).bind (·[key]?) = (e.data.db m).bind (·[key]?)))
  | .access _ (.dbiOpen _ _), _, _ => .isTrue trivial
  | .access _ (.put _ _ _ _), _, _ => .isTrue trivial
  | .access _ (.del _ _), _, _ => .isTrue trivial
  | .access _ (.drop _), _, _ => .isTrue trivial
  | .access _ (.cursorOpen _), _, _ => .isTrue trivial
  | .access _ (.cursorNext _ _), _, _ => .isTrue trivial
  | .access _ (.cursorClose _), _, _ => .isTrue trivial
  | .txnBegin _, _, _ => .isTrue trivial
  | .abort _, _, _ => .isTrue trivial
  | .other _, _, _ => .isTrue trivial

/-- Every call succeeds. -/
def allWell : Lot where
  ok := true
  image := []
  env
    | .dbiClose _ => ()
    | .sendmsg bytes => bytes.length
    | .shutdown _ => ()
    | .close _ => ()
    | .ymalloc _ => true
    | .strdup _ => true
    | .snappyInitEnv => true
    | .snappyCompress data => some data
    | .snappyUncompress z _ => some z
    | .nnSend _ => true
    | .indeterminateSize => 0
    | .indeterminateDbi => 0

/-- The first `calls` calls of a job. -/
def startJob (c : Nat) (job : ThreadJob) (calls : Nat) :
    List (ThreadAct ThreadJob Lot) :=
  .start c job :: List.replicate calls (.call c allWell)

/-- A whole job. -/
def wholeJob (c : Nat) (job : ThreadJob) (calls : Nat) :
    List (ThreadAct ThreadJob Lot) :=
  startJob c job calls ++ [.finish c]

/-- Databases `a` and `b` with different values under one key. -/
def twoDatabases : Store where
  main := ∅
  named := (∅ : Std.ExtTreeMap Bytes Db compare)
    |>.insert [97] ((∅ : Db).insert [1] [10])
    |>.insert [98] ((∅ : Db).insert [1] [20])

def useA : ThreadJob := .request 0x04 (.setdb ⟨[97], by decide⟩)

def useB : ThreadJob := .request 0x04 (.setdb ⟨[98], by decide⟩)

def getKey : ThreadJob := .request 0x41 (.get ⟨[1], by decide⟩)

/-- Thread 1 reads `a` in a session and changes to `b`; thread 2 has
just opened `b`. -/
def readRace : List (ThreadAct ThreadJob Lot) :=
  wholeJob 1 (.request 0x05 .start) 2 ++ wholeJob 1 useA 2 ++ wholeJob 1 getKey 5
    ++ wholeJob 1 useB 2 ++ wholeJob 2 useB 2 ++ startJob 2 getKey 3
    ++ startJob 1 getKey 3

/-- Thread 2 opens `b` between the close and the commit of a write to
`a`. -/
def writeRace : List (ThreadAct ThreadJob Lot) :=
  wholeJob 2 useB 2
    ++ startJob 1 (.message ⟨.writePut, some [97], [1], [30], false⟩) 4
    ++ startJob 2 getKey 3 ++ [.call 1 allWell]

/-- The same threads one after the other. -/
def noRace : List (ThreadAct ThreadJob Lot) :=
  wholeJob 1 (.request 0x05 .start) 2 ++ wholeJob 1 useA 2 ++ wholeJob 1 getKey 5
    ++ wholeJob 1 useB 2 ++ wholeJob 2 useB 2 ++ wholeJob 2 getKey 7
    ++ wholeJob 1 getKey 5
    ++ wholeJob 1 (.message ⟨.writePut, some [97], [1], [30], false⟩) 6

/-- The condition is met where the threads do not meet. -/
theorem operations_on_their_database_noRace :
    (run handleThreads.step (handlesInit twoDatabases 4) noRace).isSome
      ∧ Meets handleThreads.step (handleThreads.AtCall MdbEnv.Right)
        (handlesInit twoDatabases 4) noRace :=
  ⟨by decide +kernel,
    operations_on_their_database twoDatabases 4 noRace (by decide +kernel)⟩

/-- A lookup in `b` answers with the value in `a`, and a write to `a`
replaces `b`. -/
theorem operations_on_another_database :
    ¬ Meets handleThreads.step (handleThreads.AtCall MdbEnv.Right)
        (handlesInit twoDatabases 4) readRace
      ∧ ¬ Meets handleThreads.step (handleThreads.AtCall MdbEnv.Right)
        (handlesInit twoDatabases 4) writeRace := by
  have hshown : ∀ acts, Meets handleThreads.step
      (handleThreads.AtCall MdbEnv.Right) (handlesInit twoDatabases 4) acts →
      Meets handleThreads.step
        (handleThreads.AtCall (RightAt (some [98]) [1]))
        (handlesInit twoDatabases 4) acts :=
    fun acts => Meets.mono _ fun s a h => h.mono _ fun _ _ _ _ _ =>
      rightAt_of_right
  constructor
  · intro h
    exact absurd (hshown _ h) (by decide +kernel)
  · intro h
    exact absurd (hshown _ h) (by decide +kernel)

end FineDB

/-
The command line client's idea of its session.

`cli->dbname` and `cli->in_transaction` follow the results of the
library's functions; the session follows the requests. They agree as
long as the two are in step (`Link.InStep`): then a function that
returns `FINEDB_OK` has been executed, and one that does not has changed
nothing or ended the session. A new connection has no database and no
transaction. `check_connection` forgets the transaction and not the
database, and this is where the agreement breaks: the user goes on in
the default database under the name of another.

The environment of the commands is a `Link`. It moves by itself when the
connection is lost, and answers a library call by any run of that
function against the server.
-/
import FineDB.Lib.Env
import FineDB.Model.Cli
import FineDB.Proofs.Verdict

namespace FineDB

open Effect Mvcc

-- ================================================================= the session

/-- What a request that succeeds makes of the session. -/
def Request.Leaves (r : Request) (thread th : TcpThread)
    (tr : ServerTrace) : Prop :=
  match r with
  | .setdb name => Answered tr .RESP_OK ∧ th = { thread with
      dbname := if name.bytes.length = 0 then none
        else some (dbnameBuffer name.bytes) }
  | .start => Answered tr .RESP_OK ∧ th.dbname = thread.dbname
      ∧ th.transaction.isSome
  | .stop => Answered tr .RESP_OK ∧ th = { thread with transaction := none }
  | _ => th = thread

private theorem same_thread {p : Store.Server Yerr} {thread : TcpThread} :
    (do return (← p, thread) : Store.Server (Yerr × TcpThread)).Traces
      fun _ y => y.1 = .YENOERR → y.2 = thread := by
  refine Prog.traces_bind.mpr (Prog.traces_iff.mpr fun tr a _ => ?_)
  exact fun _ => rfl

theorem Request.leaves (b : Byte) (thread : TcpThread) (r : Request) :
    (r.exec b thread : Store.Server _).Traces fun tr y =>
      y.1 = .YENOERR → r.Leaves thread y.2 tr := by
  cases r with
  | ping => exact same_thread
  | get key => exact same_thread
  | del key => exact same_thread
  | put key data => exact same_thread
  | setdb name =>
      simp only [Request.exec, commandSetdbExec]
      split
      next hlen =>
        intro rc _
        refine ⟨⟨false, false, none, _, rfl⟩, ?_⟩
        rw [if_pos hlen]
      next hlen =>
        intro ok
        cases ok with
        | false => exact fun rc h => by cases h
        | true =>
            intro rc _
            refine ⟨⟨false, false, none, _, rfl⟩, ?_⟩
            rw [if_neg hlen]
  | start =>
      obtain ⟨fd, dbname, transaction⟩ := thread
      cases transaction with
      | none =>
          intro txn
          cases txn with
          | none => exact fun rc h => by cases h
          | some t => exact fun rc _ => ⟨⟨false, false, none, _, rfl⟩, rfl, rfl⟩
      | some u =>
          intro _ txn
          cases txn with
          | none => exact fun rc h => by cases h
          | some t => exact fun rc _ => ⟨⟨false, false, none, _, rfl⟩, rfl, rfl⟩
  | stop =>
      obtain ⟨fd, dbname, transaction⟩ := thread
      cases transaction with
      | none => exact fun rc h => by cases h
      | some u => exact fun _ rc _ => ⟨⟨false, false, none, _, rfl⟩, rfl⟩

/-- A library function that returned `FINEDB_OK` has read a response. -/
theorem ClientRun.received_of_ok {enc : Encoder} {x : ClientRun}
    (h : x.Valid enc) (hok : x.result = .FINEDB_OK) :
    received x.trace ≠ [] := by
  have hnet : x.result ≠ .FINEDB_ERR_NETWORK := by
    rw [hok]
    decide
  rcases Prog.traces_iff.mp (x.op.reads x.sync) _ _ h.exec with
    ⟨-, -, hnil⟩ | ⟨-, hv⟩
  · have hsent := Prog.traces_iff.mp (x.op.sent enc x.sync) _ _ h.exec
      h.zips
    exact absurd hok (hsent.2 (hnil hnet))
  · obtain ⟨b, rest, heq, -⟩ := hv.whole hnet
    rw [heq]
    exact List.cons_ne_nil _ _

/-- A call in step, after which the session goes on: nothing is left
over, and either the call failed and the session is as it was, or the
request was executed without error, and a function that only reads the
response byte returns `FINEDB_OK` if the answer was RESP_OK. -/
theorem Link.Call.settled {enc : Encoder} {s s' : Link} {x : ClientRun}
    {turns : List (Arrival × ServerTrace)} (h : s.Call enc x turns s')
    (hclear : s.Clear) (hstep : InStep enc x turns s')
    (halive : s'.alive = true) :
    s'.Clear ∧ ((x.result ≠ .FINEDB_OK ∧ s'.thread = s.thread)
      ∨ ∃ b r tr, x.op.Says enc x.sync b r
          ∧ r.Leaves s.thread s'.thread tr
          ∧ (x.op.isGet = false → Answered tr .RESP_OK →
            x.result = .FINEDB_OK)) := by
  obtain ⟨hinbox, hserved⟩ := h.served hclear hstep.clean
  have hreads := h.reads
  rw [hclear.unread, List.nil_append] at hreads
  rcases hserved with ⟨rfl, hthread, -⟩ |
    ⟨b, r, tr, y, hpos, rfl, hmeans, -, hexec, hthread, hgoes⟩
  · obtain ⟨hnil, hunread⟩ := List.append_eq_nil_iff.mp hreads
    exact ⟨⟨hinbox, hunread⟩, Or.inl
      ⟨fun hok => ClientRun.received_of_ok h.valid hok hnil, hthread⟩⟩
  · have hnet : x.result ≠ .FINEDB_ERR_NETWORK := by
      intro hnet
      rw [hstep.ended hpos hnet] at halive
      cases halive
    rcases Prog.traces_iff.mp (x.op.reads x.sync) _ _ h.valid.exec with
      ⟨-, -, hnil⟩ | ⟨-, hv⟩
    · exact absurd (hnil hnet) hpos
    · have hy := hgoes.mp halive
      have hsent : received x.trace ++ s'.unread = sent tr :=
        hreads.trans (List.flatMap_singleton _ _)
      have hreply := Prog.traces_iff.mp (Request.replies b s.thread r)
        tr y hexec
      refine ⟨⟨hinbox, ?_⟩, Or.inr ⟨b, r, tr, hmeans, ?_, ?_⟩⟩
      · -- a second response ends the session, so there was one
        have hlate : lateFailure tr = false := by
          cases hl : lateFailure tr with
          | false => rfl
          | true =>
              have hfail := hreply.late hl
              rw [hy] at hfail
              cases hfail
        rw [hlate] at hreply
        have hwhole := hv.whole hnet
        rw [isGet_of_request hmeans] at hwhole
        exact unread_eq_nil hreply
          (hstep.small _ (List.mem_singleton.mpr rfl)) hsent hwhole
      · rw [hthread]
        exact Prog.traces_iff.mp (Request.leaves b s.thread r) tr y hexec
          hy
      · intro hget hanswered
        obtain ⟨res, hres⟩ := Option.isSome_iff_exists.mp (hv.got hnet)
        obtain ⟨rest, hrest⟩ := hv.first res hres
        rw [hrest, List.cons_append] at hsent
        obtain ⟨code, hcode, hodd⟩ := answer_of_reply hreply hsent.symm
        have hjudge := hv.judge res hres
        rw [hodd.mpr (Or.inl (hcode.unique hanswered))] at hjudge
        rcases hv.plain res hres hget with hok | herr
        · exact hok
        · exact absurd rfl (hjudge.mp herr)

-- ============================================================= the environment

def Link.Loses (s s' : Link) : Prop :=
  ∃ n, s' = { s with alive := false, unread := s.unread.take n }

/-- How a client's connection answers the commands, restricted to
library calls that meet `Q` and other events that meet `R`. -/
inductive CliAnswer (enc : Encoder)
    (Q : ClientRun → List (Arrival × ServerTrace) → Link → Prop)
    (R : Event cliSig → Prop) : Link → Event cliSig → Link → Prop
  | finedb {s s' : Link} {cli : Cli} {x : ClientRun}
      {turns : List (Arrival × ServerTrace)} :
      s.Call enc x turns s' → Q x turns s' → x.sync = cli.sync →
      CliAnswer enc Q R s ⟨.finedb cli x.op, x.result⟩ s'
  | connected {s : Link} {cli : Cli} (fd : Nat) :
      R ⟨.finedbConnect cli, true⟩ →
      CliAnswer enc Q R s ⟨.finedbConnect cli, true⟩ (.fresh fd)
  /-- the old connection is closed first -/
  | refused {s : Link} {cli : Cli} :
      CliAnswer enc Q R s ⟨.finedbConnect cli, false⟩
        { s with alive := false, unread := [] }
  | strdup {s : Link} {pt : Bytes} {ok : Bool} :
      R ⟨.strdup pt, ok⟩ → CliAnswer enc Q R s ⟨.strdup pt, ok⟩ s

/-- The client's connection, whatever happens to it. -/
def cliEnv (enc : Encoder) : Env cliSig Link where
  drift := Link.Loses
  answer := CliAnswer enc (fun _ _ _ => True) fun _ => True

/-- A connection is made with no database selected, and memory for a
name is there. -/
def CliOk : Event cliSig → Prop
  | ⟨.finedbConnect cli, true⟩ => cli.dbname = none
  | ⟨.strdup _, ok⟩ => ok = true
  | _ => True

/-- The connection, as long as the calls are in step and it is not made
anew while a database is selected. -/
def cliEnvInStep (enc : Encoder) : Env cliSig Link where
  drift := Link.Loses
  answer := CliAnswer enc (Link.InStep enc) CliOk

-- ============================================================= the agreement

/-- The client's idea of the session is right. -/
structure CliMatches (cli : Cli) (thread : TcpThread) : Prop where
  dbname : thread.dbname.map cString = cli.dbname
  transaction : cli.inTransaction = true ↔ thread.transaction.isSome = true

/-- A session that goes on is the one the client thinks it has. -/
def Agrees (cli : Cli) (s : Link) : Prop :=
  s.alive = true → s.Clear ∧ CliMatches cli s.thread

def ClientOp.isData : ClientOp → Bool
  | .get _ | .del _ | .put _ _ | .add _ _ | .update _ _ => true
  | _ => false

/-- Data requests go to sessions that match. -/
def DataAgrees (s : Link) : CliCall → Prop
  | .finedb cli op => op.isData = true → s.alive = true →
      CliMatches cli s.thread
  | _ => True

/-- The database a SETDB selects. -/
def selected (dbname : Option Bytes) : Option Bytes :=
  if nameOf dbname = [] then none else some (nameOf dbname)

/-- What the client makes of the result of a function. -/
def Cli.after (cli : Cli) (op : ClientOp) (rc : FinedbResult) : Cli :=
  if rc = .FINEDB_OK then
    match op with
    | .setdb dbname => { cli with dbname := selected dbname }
    | .start => { cli with inTransaction := true }
    | .stop => { cli with inTransaction := false }
    | _ => cli
  else cli

theorem Cli.after_of_ne {op : ClientOp} {rc : FinedbResult} (cli : Cli)
    (h : rc ≠ .FINEDB_OK) : cli.after op rc = cli := if_neg h

section

variable {enc : Encoder} {cli : Cli} {s s' : Link}

theorem agrees_stable : (cliEnvInStep enc).Stable (Agrees cli) := by
  intro s s' ⟨n, hs⟩ _ halive
  rw [hs] at halive
  cases halive

/-- Requests that say the same leave the session as the client thinks. -/
private theorem matches_after {op : ClientOp} {sync : Bool} {b : Byte}
    {r : Request} {rc : FinedbResult} {thread th : TcpThread}
    {tr : ServerTrace} (hm : CliMatches cli thread)
    (hmeans : op.Says enc sync b r) (hleaves : r.Leaves thread th tr)
    (hok : op.isGet = false → Answered tr .RESP_OK → rc = .FINEDB_OK) :
    CliMatches (cli.after op rc) th := by
  have hsame : ∀ {rc : FinedbResult}, th = thread →
      CliMatches (if rc = .FINEDB_OK then cli else cli) th := by
    intro rc hth
    rw [ite_self, hth]
    exact hm
  cases op with
  | get key =>
      obtain ⟨-, k, rfl, -⟩ := hmeans
      exact hsame hleaves
  | del key =>
      obtain ⟨-, k, rfl, -⟩ := hmeans
      exact hsame hleaves
  | put key data | add key data | update key data =>
      obtain ⟨-, k, z, rfl, -⟩ := hmeans
      exact hsame hleaves
  | ping =>
      obtain ⟨-, rfl⟩ := hmeans
      exact hsame hleaves
  | setdb dbname =>
      obtain ⟨-, name, rfl, hname⟩ := hmeans
      obtain ⟨hanswered, rfl⟩ := hleaves
      rw [Cli.after, if_pos (hok rfl hanswered)]
      refine ⟨?_, hm.transaction⟩
      show Option.map cString _ = selected dbname
      rw [hname, selected]
      split
      next hlen =>
        rw [if_pos (List.length_eq_zero_iff.mp hlen)]
        rfl
      next hlen =>
        rw [if_neg fun h => hlen (by rw [h]; rfl), Option.map_some,
          cString_dbnameBuffer]
        cases dbname with
        | none => rfl
        | some name =>
            show some (cString (cString name)) = some (cString name)
            rw [cString_cString]
  | start =>
      obtain ⟨-, rfl⟩ := hmeans
      obtain ⟨hanswered, hdbname, htxn⟩ := hleaves
      rw [Cli.after, if_pos (hok rfl hanswered)]
      refine ⟨?_, fun _ => htxn, fun _ => rfl⟩
      rw [hdbname]
      exact hm.dbname
  | stop =>
      obtain ⟨-, rfl⟩ := hmeans
      obtain ⟨hanswered, rfl⟩ := hleaves
      rw [Cli.after, if_pos (hok rfl hanswered)]
      exact ⟨hm.dbname, fun h => (by cases h), fun h => (by cases h)⟩

theorem finedb_agrees {op : ClientOp} {rc : FinedbResult}
    (h : Agrees cli s)
    (hans : (cliEnvInStep enc).answer s ⟨.finedb cli op, rc⟩ s') :
    Agrees (cli.after op rc) s' := by
  intro halive'
  cases hans with
  | finedb hcall hstep _ =>
      have halive : s.alive = true := by
        cases hs : s.alive with
        | true => rfl
        | false =>
            have hserves := hcall.serves
            unfold Link.Serves at hserves
            rw [hs] at hserves
            rw [hserves.2.2.2] at halive'
            cases halive'
      obtain ⟨hclear, hm⟩ := h halive
      obtain ⟨hclear', hsettled⟩ := hcall.settled hclear hstep halive'
      refine ⟨hclear', ?_⟩
      rcases hsettled with ⟨hrc, hthread⟩ |
        ⟨b, r, tr, hmeans, hleaves, hok⟩
      · rw [cli.after_of_ne hrc, hthread]
        exact hm
      · exact matches_after hm hmeans hleaves hok

-- ================================================================ the commands

/-- The command can be run from any state in which the two agree, and
they agree at its end. -/
private abbrev Keeps (enc : Encoder) (s : Link) (p : CliProg Cli) : Prop :=
  (cliEnvInStep enc).Safe DataAgrees p (fun cli' s' => Agrees cli' s') s

private theorem ret_keeps (h : Agrees cli s) :
    Keeps enc s (Prog.ret cli) :=
  Env.Safe.ret agrees_stable h fun _ hm => hm

/-- The rule for a library function. -/
private theorem finedb_keeps {op : ClientOp}
    {k : FinedbResult → CliProg Cli} (h : Agrees cli s)
    (hk : ∀ rc s', Agrees (cli.after op rc) s' → Keeps enc s' (k rc)) :
    Keeps enc s (Prog.call (S := cliSig) (.finedb cli op) k) :=
  Env.Safe.call agrees_stable h
    (fun _ hm _ halive => (hm halive).2)
    fun _ rc s' hm hans => hk rc s' (finedb_agrees hm hans)

/-- What a command does with the result of a function. -/
private theorem settle_keeps {op : ClientOp} {rc : FinedbResult}
    {cli' : Cli} (hop : cli.after op .FINEDB_OK = cli')
    (h : Agrees (cli.after op rc) s) :
    Keeps enc s (if rc = .FINEDB_OK then Prog.ret cli' else .ret cli) := by
  split
  next hrc =>
    rw [hrc, hop] at h
    exact ret_keeps h
  next hrc =>
    rw [cli.after_of_ne hrc] at h
    exact ret_keeps h

theorem checkConnection_safe (h : Agrees cli s) :
    (cliEnvInStep enc).Safe DataAgrees (checkConnection cli)
      (fun x s' => Agrees x.2 s') s := by
  unfold checkConnection
  split
  · exact Env.Safe.ret agrees_stable h fun _ hm => hm
  · refine Env.Safe.call agrees_stable h
      (fun m hm hdata => by cases hdata) fun m rc s' hm hans => ?_
    have hping : cli.after .ping rc = cli := ite_self _
    have h' := finedb_agrees hm hans
    rw [hping] at h'
    show (cliEnvInStep enc).Safe DataAgrees (if _ then _ else _) _ s'
    split
    · exact Env.Safe.ret agrees_stable h' fun _ hm => hm
    · refine Env.Safe.call agrees_stable h' (fun _ _ => trivial)
        fun m ok s' hm hans => ?_
      cases hans with
      | connected fd hdbname =>
          have hnew : Agrees { cli with inTransaction := false }
              (.fresh fd) :=
            fun _ => ⟨⟨rfl, rfl⟩, hdbname.symm, fun h => (by cases h),
              fun h => (by cases h)⟩
          exact Env.Safe.ret agrees_stable hnew fun _ hm => hm
      | refused =>
          have hdead : Agrees cli { m with alive := false, unread := [] } :=
            fun h => by cases h
          exact Env.Safe.ret agrees_stable hdead fun _ hm => hm

private theorem whenConnected_keeps {k : Cli → CliProg Cli}
    (h : Agrees cli s)
    (hk : ∀ cli' s', Agrees cli' s' → Keeps enc s' (k cli')) :
    Keeps enc s (whenConnected cli k) := by
  refine Env.safe_bind ((checkConnection_safe h).mono fun x m hm => ?_)
  obtain ⟨ok, cli'⟩ := x
  cases ok with
  | false => exact ret_keeps hm
  | true => exact hk cli' m hm

private theorem commandUse_keeps (pt : Bytes) (h : Agrees cli s) :
    Keeps enc s (commandUse cli pt) := by
  refine whenConnected_keeps h fun cli s h => ?_
  show (cliEnvInStep enc).Safe DataAgrees (if _ then _ else _) _ s
  split
  · exact finedb_keeps h fun rc s' h' => settle_keeps rfl h'
  next hname =>
    refine finedb_keeps h fun rc s' h' => ?_
    show (cliEnvInStep enc).Safe DataAgrees (if _ then _ else _) _ s'
    split
    next hrc =>
      have hsel : selected (some pt) = some (cString pt) := by
        refine if_neg fun hnil => hname ?_
        rw [show cString pt = [] from hnil]
        rfl
      rw [hrc] at h'
      unfold Cli.after at h'
      simp only [if_true, hsel] at h'
      refine Env.Safe.call agrees_stable h' (fun _ _ => trivial)
        fun m ok s'' hm hans => ?_
      cases hans with
      | strdup hok =>
          cases hok
          exact ret_keeps hm
    next hrc =>
      exact Env.Safe.call agrees_stable h' (fun _ _ => trivial)
        fun m e => e.elim

private theorem sendData_keeps {op : ClientOp} (hop : op.isData = true)
    (h : Agrees cli s) : Keeps enc s (sendData cli op) := by
  refine whenConnected_keeps h fun cli s h => finedb_keeps h
    fun rc s' h' => ?_
  have hsame : cli.after op rc = cli := by
    unfold Cli.after
    cases op with
    | setdb _ | start | stop | ping => cases hop
    | _ => exact ite_self _
  rw [hsame] at h'
  exact ret_keeps h'

private theorem commandSendData_keeps {op : Bytes → Bytes → ClientOp}
    (hop : ∀ key data, (op key data).isData = true) (pt : Bytes)
    (h : Agrees cli s) : Keeps enc s (commandSendData cli pt op) := by
  unfold commandSendData
  split
  · exact ret_keeps h
  · split
    · exact ret_keeps h
    · exact sendData_keeps (hop _ _) h

theorem CliCommand.keeps (command : CliCommand) (h : Agrees cli s) :
    Keeps enc s (command.exec cli) := by
  cases command with
  | use pt => exact commandUse_keeps pt h
  | get pt =>
      show Keeps enc s (commandCliGet cli pt)
      unfold commandCliGet
      split
      · exact ret_keeps h
      · exact sendData_keeps rfl h
  | del pt =>
      show Keeps enc s (commandCliDel cli pt)
      unfold commandCliDel
      split
      · exact ret_keeps h
      · exact sendData_keeps rfl h
  | put pt => exact commandSendData_keeps (fun _ _ => rfl) pt h
  | add pt => exact commandSendData_keeps (fun _ _ => rfl) pt h
  | update pt => exact commandSendData_keeps (fun _ _ => rfl) pt h
  | start =>
      show Keeps enc s (commandCliStart cli)
      exact whenConnected_keeps h fun cli s h => finedb_keeps h
        fun rc s' h' => settle_keeps rfl h'
  | stop =>
      show Keeps enc s (commandCliStop cli)
      refine whenConnected_keeps h fun cli s h => ?_
      show (cliEnvInStep enc).Safe DataAgrees (if _ then _ else _) _ s
      split
      · exact ret_keeps h
      · exact finedb_keeps h fun rc s' h' => settle_keeps rfl h'
  | ping =>
      refine finedb_keeps h fun rc s' h' => ?_
      have hping : cli.after .ping rc = cli := ite_self _
      rw [hping] at h'
      exact ret_keeps h'
  | autocheck pt =>
      refine ret_keeps fun halive => ?_
      obtain ⟨hclear, hm⟩ := h halive
      refine ⟨hclear, ?_⟩
      unfold commandAutocheck
      split
      · exact hm
      · exact ⟨hm.dbname, hm.transaction⟩
  | sync =>
      refine ret_keeps fun halive => ?_
      obtain ⟨hclear, hm⟩ := h halive
      exact ⟨hclear, hm.dbname, hm.transaction⟩
  | async =>
      refine ret_keeps fun halive => ?_
      obtain ⟨hclear, hm⟩ := h halive
      exact ⟨hclear, hm.dbname, hm.transaction⟩

theorem cliLoop_keeps (commands : List CliCommand) (h : Agrees cli s) :
    Keeps enc s (cliLoop cli commands) := by
  induction commands generalizing cli s with
  | nil => exact ret_keeps h
  | cons command commands ih =>
      exact Env.safe_bind ((command.keeps h).mono fun _ _ hm => ih hm)

end

/-- In every run of the client, for any commands and any losses, whose
calls are in step, whose names can be copied and which never reconnects
while a database is selected: when a data request is sent, the session
that gets it has the database and the transaction the client thinks. -/
theorem cli_session (enc : Encoder) (fd : Nat)
    (commands : List CliCommand) (cli last : Cli) (op : ClientOp)
    (rc : FinedbResult) (tr tr' : List (Event cliSig)) (s : Link)
    (hexec : (cliLoop cliNew commands).Exec
      (tr ++ ⟨.finedb cli op, rc⟩ :: tr') last)
    (hplay : (cliEnvInStep enc).Plays (.fresh fd) tr s)
    (hdata : op.isData = true) (halive : s.alive = true) :
    CliMatches cli s.thread := by
  have hnew : Agrees cliNew (.fresh fd) :=
    fun _ => ⟨⟨rfl, rfl⟩, rfl, fun h => (by cases h), fun h => (by cases h)⟩
  exact Env.Safe.allowed hplay (cliLoop_keeps commands hnew) hexec hdata
    halive

/-- `use a`, then `get "k"`. -/
def useGet : List CliCommand := [.use [97], .get [0x22, 107, 0x22]]

/-- The client after `use a`. -/
def cliOnA : Cli := { cliNew with dbname := some [97] }

/-- The calls of `use a`, all successful. -/
def useTrace : List (Event cliSig) :=
  [⟨.finedb cliNew .ping, .FINEDB_OK⟩,
    ⟨.finedb cliNew (.setdb (some [97])), .FINEDB_OK⟩, ⟨.strdup [97], true⟩]

def setdbRun : ClientRun :=
  ⟨.setdb (some [97]), false,
    [⟨.ymalloc 3, true⟩, ⟨.write [4, 1, 97], (3 : Int)⟩,
      ⟨.readByte, some 1⟩], .FINEDB_OK⟩

def setdbTurn : Arrival × ServerTrace :=
  (.request 4 (.setdb (.single 97)),
    [⟨.other (.ymalloc 2), true⟩, ⟨.other (.sendmsg [1]), (1 : Int)⟩])

/-- The connection after `use a`. -/
def linkOnA : Link :=
  { Link.fresh 5 with
    thread := { connectionThreadNew with fd := 5, dbname := some [97, 0] } }

private theorem setdb_call :
    (Link.fresh 5).Call literalEncoder setdbRun [setdbTurn] linkOnA := by
  refine ⟨⟨⟨true, _, rfl, (3 : Int), _, rfl, some 1, _, rfl, rfl, rfl⟩, ?_⟩,
    ?_, rfl⟩
  · simp [setdbRun, ZipsBy]
  · have hdec : decode [4, 1, 97]
        = .request 4 (.setdb ⟨[97], by decide⟩) .done :=
      decode_single_iff.mpr ⟨rfl, rfl⟩
    show (decode [4, 1, 97]).Serving _ _ _ _ true
    rw [hdec]
    exact ⟨_, (.YENOERR, _), [], ⟨true, _, rfl, (1 : Int), [], rfl, rfl, rfl⟩,
      rfl, rfl, rfl, rfl, rfl⟩

theorem cli_session_use_get :
    linkOnA.thread.dbname = some [97, 0]
      ∧ CliMatches cliOnA linkOnA.thread := by
  have hstep : ∀ {x : ClientRun} {turn : Arrival × ServerTrace} {s' : Link},
      x.Clean literalEncoder → x.result = .FINEDB_OK → Link.Small turn.2 →
      Link.InStep literalEncoder x [turn] s' :=
    fun hclean hok hsmall => ⟨hclean, by simpa using hsmall,
      fun _ hnet => by rw [hok] at hnet; cases hnet⟩
  have hping : ∀ {s s' : Link} {cli : Cli} {tr : List (Event cliSig)},
      s.alive = true → s.Clear → cli.sync = false →
      (cliEnvInStep literalEncoder).Plays s tr s' →
      (cliEnvInStep literalEncoder).Plays s
        (⟨.finedb cli .ping, .FINEDB_OK⟩ :: tr) s' :=
    fun halive hclear hsync hplay =>
      .answer (.finedb (ping_call halive hclear)
        (hstep (Or.inr ⟨trivial, rfl⟩) rfl (by decide)) hsync.symm) hplay
  have hfits : (nameOf (some [97])).length < 256 ^ 1 := by decide
  have hplay : (cliEnvInStep literalEncoder).Plays (.fresh 5)
      (useTrace ++ [⟨.finedb cliOnA .ping, .FINEDB_OK⟩]) linkOnA :=
    hping rfl ⟨rfl, rfl⟩ rfl
      (.answer (.finedb setdb_call
        (hstep (Or.inr ⟨hfits, rfl⟩) rfl (by decide)) rfl)
      (.answer (.strdup rfl) (hping rfl ⟨rfl, rfl⟩ rfl .nil)))
  have hexec : (cliLoop cliNew useGet).Exec
      ((useTrace ++ [⟨.finedb cliOnA .ping, .FINEDB_OK⟩])
        ++ ⟨.finedb cliOnA (.get [107]), .FINEDB_OK⟩ :: []) cliOnA :=
    ⟨.FINEDB_OK, _, rfl, .FINEDB_OK, _, rfl, true, _, rfl,
      .FINEDB_OK, _, rfl, .FINEDB_OK, _, rfl, rfl, rfl⟩
  exact ⟨rfl, cli_session literalEncoder 5 useGet cliOnA cliOnA _ _ _ _ _
    hexec hplay rfl rfl⟩

/-- The PING that finds the connection lost. -/
def lostRun : ClientRun :=
  ⟨.ping, false, [⟨.write [0], (-1 : Int)⟩], .FINEDB_ERR_NETWORK⟩

/-- The connection is lost after `use a`: `get "k"` reconnects and is
sent to the default database, under the name "a". -/
theorem get_after_reconnect_in_default :
    (cliLoop cliNew useGet).Exec
        ((useTrace ++ [⟨.finedb cliOnA .ping, .FINEDB_ERR_NETWORK⟩,
            ⟨.finedbConnect cliOnA, true⟩])
          ++ ⟨.finedb cliOnA (.get [107]), .FINEDB_OK⟩ :: []) cliOnA
      ∧ (cliEnv literalEncoder).Plays (.fresh 5)
          (useTrace ++ [⟨.finedb cliOnA .ping, .FINEDB_ERR_NETWORK⟩,
            ⟨.finedbConnect cliOnA, true⟩]) (.fresh 6)
      ∧ (Link.fresh 6).alive = true
      ∧ (Link.fresh 6).thread.dbname = none ∧ cliOnA.dbname = some [97]
      ∧ ¬ CliMatches cliOnA (Link.fresh 6).thread := by
  refine ⟨⟨.FINEDB_OK, _, rfl, .FINEDB_OK, _, rfl, true, _, rfl,
    .FINEDB_ERR_NETWORK, _, rfl, true, _, rfl, .FINEDB_OK, _, rfl, rfl,
    rfl⟩, ?_, rfl, rfl, rfl, fun h => by cases h.dbname⟩
  have hlost : ({ linkOnA with alive := false } : Link).Call literalEncoder
      lostRun [] { linkOnA with alive := false } := by
    refine ⟨⟨⟨(-1 : Int), [], rfl, rfl, rfl⟩, ?_⟩, ⟨rfl, rfl, rfl, rfl⟩, rfl⟩
    simp [lostRun, ZipsBy]
  exact .answer (.finedb (ping_call rfl ⟨rfl, rfl⟩) trivial rfl)
    (.answer (.finedb setdb_call trivial rfl)
    (.answer (.strdup trivial)
    (.drift ⟨0, rfl⟩
    (.answer (.finedb hlost trivial rfl)
    (.answer (.connected 6 trivial) .nil)))))

end FineDB

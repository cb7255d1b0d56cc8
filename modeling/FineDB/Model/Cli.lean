/-
The command line client (src/cli/finedb-cli.c).

What the client keeps of its session is in `cli_t`: the name of the
database it thinks is selected, whether it thinks a transaction is open,
and whether it checks the connection before every request. The commands
are programs over the functions of the client library, `finedb_connect`
and `strdup`. A library call carries the structure as it is when the
call is made, which is what the user is shown.

An argument is a C string here; how it is cut out of the line is in
Model/CliLine.lean. Left out are what the commands print, the history
and the completion. One thing printed matters: the message of a failed
`use` has a `%s` for which an integer is passed, and nothing is defined
after it.
-/
import FineDB.Model.Client

namespace FineDB

open Effect

/-- `cli_t`, with the mode of its `finedb_client_t`. -/
structure Cli where
  dbname : Option Bytes
  inTransaction : Bool
  autocheck : Bool
  sync : Bool
deriving DecidableEq

/-- As `main` and `finedb_create` leave it: zeroed, `autocheck` set. -/
def cliNew : Cli := ⟨none, false, true, false⟩

inductive CliCall
  /-- a function of the library -/
  | finedb (cli : Cli) (op : ClientOp)
  /-- `finedb_connect`, true if it returns `FINEDB_OK` -/
  | finedbConnect (cli : Cli)
  | strdup (s : Bytes)
  /-- `printf` with an integer for `%s` -/
  | badFormat

@[reducible] def CliCall.Ret : CliCall → Type
  | .finedb _ _ => FinedbResult
  | .finedbConnect _ => Bool
  | .strdup _ => Bool
  | .badFormat => Empty

@[reducible] def cliSig : Signature where
  Call := CliCall
  Ret := CliCall.Ret

abbrev CliProg (α : Type) := Prog cliSig α

@[simp] def cliAsk (c : CliCall) : CliProg c.Ret :=
  Prog.ask (S := cliSig) c

-- ================================================================ arguments

/-- `IS_SPACE(c)`. -/
def isSpace (c : Byte) : Bool :=
  c = 0x20 || c = 0x09 || c = 0x0a || c = 0x0d

/-- `LTRIM(pt)`. -/
def ltrim (pt : Bytes) : Bytes := pt.dropWhile isSpace

def tolower (c : Byte) : Byte :=
  if 0x41 ≤ c ∧ c ≤ 0x5a then c + 0x20 else c

/-- `!strcasecmp(a, b)`. -/
def sameWord (a b : Bytes) : Bool :=
  (cString a).map tolower = (cString b).map tolower

/-- "default" -/
def defaultWord : Bytes := [0x64, 0x65, 0x66, 0x61, 0x75, 0x6c, 0x74]

/-- "on", "yes" and "true" -/
def onWords : List Bytes :=
  [[0x6f, 0x6e], [0x79, 0x65, 0x73], [0x74, 0x72, 0x75, 0x65]]

/-- A key in double quotes, and what follows it; `none` where the command
only complains. -/
def quotedKey (pt : Bytes) : Option (Bytes × Bytes) :=
  match ltrim (cString pt) with
  | 0x22 :: pt =>
      if 0x22 ∈ pt then
        some (pt.takeWhile (· ≠ 0x22), (pt.dropWhile (· ≠ 0x22)).tail)
      else none
  | _ => none

/-- The data of a `put`: the character after the key is skipped, and the
last character has to be the closing quote. -/
def quotedData : Bytes → Option Bytes
  | [] => none
  | _ :: data =>
      match ltrim data with
      | 0x22 :: data =>
          if data.getLast? = some 0x22 then some data.dropLast else none
      | _ => none

-- ================================================================= commands

/-- `check_connection`. -/
def checkConnection (cli : Cli) : CliProg (Bool × Cli) := do
  if !cli.autocheck then return (true, cli)
  else if (← cliAsk (.finedb cli .ping)) = .FINEDB_OK then
    return (true, cli)
  else if ← cliAsk (.finedbConnect cli) then
    return (true, { cli with inTransaction := false })
  else return (false, cli)

/-- `if (!check_connection(cli)) return;`, then the rest of the
command. -/
def whenConnected (cli : Cli) (k : Cli → CliProg Cli) : CliProg Cli := do
  let (ok, cli) ← checkConnection cli
  if ok then k cli else return cli

/-- `command_use`. -/
def commandUse (cli : Cli) (pt : Bytes) : CliProg Cli :=
  whenConnected cli fun cli => do
    if cString pt = [] || sameWord pt defaultWord then
      if (← cliAsk (.finedb cli (.setdb none))) = .FINEDB_OK then
        return { cli with dbname := none }
      else return cli
    else if (← cliAsk (.finedb cli (.setdb (some pt)))) = .FINEDB_OK then
      if ← cliAsk (.strdup (cString pt)) then
        return { cli with dbname := some (cString pt) }
      else return { cli with dbname := none }
    else Empty.elim (← cliAsk .badFormat)

/-- A request whose result is only printed. -/
def sendData (cli : Cli) (op : ClientOp) : CliProg Cli :=
  whenConnected cli fun cli => do
    let _ ← cliAsk (.finedb cli op)
    return cli

def commandCliGet (cli : Cli) (pt : Bytes) : CliProg Cli :=
  match quotedKey pt with
  | none => return cli
  | some (key, _) => sendData cli (.get key)

def commandCliDel (cli : Cli) (pt : Bytes) : CliProg Cli :=
  match quotedKey pt with
  | none => return cli
  | some (key, _) => sendData cli (.del key)

/-- `command_send_data`, with the function it comes to. -/
def commandSendData (cli : Cli) (pt : Bytes)
    (op : Bytes → Bytes → ClientOp) : CliProg Cli :=
  match quotedKey pt with
  | none => return cli
  | some (key, rest) =>
      match quotedData rest with
      | none => return cli
      | some data => sendData cli (op key data)

/-- `command_start` of the client. -/
def commandCliStart (cli : Cli) : CliProg Cli :=
  whenConnected cli fun cli => do
    if (← cliAsk (.finedb cli .start)) = .FINEDB_OK then
      return { cli with inTransaction := true }
    else return cli

/-- `command_stop` of the client. -/
def commandCliStop (cli : Cli) : CliProg Cli :=
  whenConnected cli fun cli => do
    if !cli.inTransaction then return cli
    else if (← cliAsk (.finedb cli .stop)) = .FINEDB_OK then
      return { cli with inTransaction := false }
    else return cli

/-- `command_ping` of the client: the connection is not checked. -/
def commandCliPing (cli : Cli) : CliProg Cli := do
  let _ ← cliAsk (.finedb cli .ping)
  return cli

/-- `command_autocheck`. -/
def commandAutocheck (cli : Cli) (pt : Bytes) : Cli :=
  if cString pt = [] then cli
  else { cli with
    autocheck := onWords.any (sameWord pt) || cString pt = [0x31] }

-- ================================================================== the loop

inductive CliCommand
  | use (pt : Bytes)
  | get (pt : Bytes)
  | del (pt : Bytes)
  | put (pt : Bytes)
  | add (pt : Bytes)
  | update (pt : Bytes)
  | start
  | stop
  | ping
  | autocheck (pt : Bytes)
  | sync
  | async

def CliCommand.exec (cli : Cli) : CliCommand → CliProg Cli
  | .use pt => commandUse cli pt
  | .get pt => commandCliGet cli pt
  | .del pt => commandCliDel cli pt
  | .put pt => commandSendData cli pt .put
  | .add pt => commandSendData cli pt .add
  | .update pt => commandSendData cli pt .update
  | .start => commandCliStart cli
  | .stop => commandCliStop cli
  | .ping => commandCliPing cli
  | .autocheck pt => return commandAutocheck cli pt
  | .sync => return { cli with sync := true }
  | .async => return { cli with sync := false }

/-- The main loop over the commands entered. -/
def cliLoop : Cli → List CliCommand → CliProg Cli
  | cli, [] => return cli
  | cli, command :: commands => do
      cliLoop (← command.exec cli) commands

end FineDB

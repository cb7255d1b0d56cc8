/-
A line of the command line client, character by character
(src/cli/finedb-cli.c: one turn of the loop of `main`, and what the
commands do with their argument).

The line is a NUL-terminated string in a buffer of just that size. `main`
ends the command word by writing a NUL behind it and goes on after that
NUL; the commands end keys and data in the same way. Pointers are
positions in the buffer, and an access outside of it ends the turn with
the position touched (Lib/Pointer.lean). The definitions have the
source's names; those of Model/Cli.lean that take the argument as a
string are their counterparts.

Left out are what is printed and the history, which is given the line
before it is cut.
-/
import FineDB.Lib.Pointer
import FineDB.Model.Cli

namespace FineDB.Line

open Effect Pointer

abbrev OnLine := OnBuffer Byte (Prog cliSig)

-- ================================================================= strings

/-- `LTRIM(pt)`. -/
def ltrim (pt : Nat) : OnLine Nat :=
  skipWhile (fun c => c ≠ 0 && isSpace c) pt

def strlen (pt : Nat) : OnLine Nat := do
  let last ← skipWhile (fun c => c ≠ 0) pt
  return last - pt

/-- `strchr`, `none` for `NULL`. -/
def strchr (pt : Nat) (c : Byte) : OnLine (Option Nat) := do
  let pt ← skipWhile (fun x => x ≠ 0 && x ≠ c) pt
  if (← peek pt) = c then return some pt else return none

/-- Whether the string at `pt` is `word` once `f` is applied to both. -/
def sameAs (f : Byte → Byte) : Nat → Bytes → OnLine Bool
  | pt, [] => do return (← peek pt) = 0
  | pt, c :: word => do
      if f (← peek pt) = f c then sameAs f (pt + 1) word
      else return false

/-- `!strcasecmp(pt, word)`. -/
def strcasecmp (pt : Nat) (word : Bytes) : OnLine Bool :=
  sameAs tolower pt word

/-- `!strcmp(pt, word)`. -/
def strcmp (pt : Nat) (word : Bytes) : OnLine Bool := sameAs id pt word

/-- The string a function given `pt` reads. -/
def string (pt : Nat) : OnLine Bytes := do slice pt (← strlen pt)

-- =============================================================== arguments

/-- A key in double quotes, ended in place: where it is, and where the
closing quote was. -/
def quotedKey (pt : Nat) : OnLine (Option (Nat × Nat)) := do
  let pt ← ltrim pt
  if (← peek pt) ≠ 0x22 then return none
  else if (← peek (pt + 1)) = 0 then return none
  else
    match ← strchr (pt + 1) 0x22 with
    | none => return none
    | some pt2 =>
        poke pt2 0
        return some (pt + 1, pt2)

/-- The data of a `put`, from `pt2` on, ended in place. -/
def quotedData (pt2 : Nat) : OnLine (Option Nat) := do
  if (← peek pt2) = 0 then return none
  else
    poke pt2 0
    let data ← ltrim (pt2 + 1)
    if (← peek data) ≠ 0x22 then return none
    else if (← peek (data + 1)) = 0 then return none
    else
      let pt2 := data + 1 + (← strlen (data + 1)) - 1
      if (← peek pt2) ≠ 0x22 then return none
      else
        poke pt2 0
        return some (data + 1)

-- ================================================================= commands

/-- `if (!check_connection(cli)) return;`, then the rest of the
command. -/
def whenConnected (cli : Cli) (k : Cli → OnLine Cli) : OnLine Cli := do
  let (ok, cli) ← outer (checkConnection cli)
  if ok then k cli else return cli

/-- `!strlen(pt) || !strcasecmp(pt, "default")` -/
def isDefault (pt : Nat) : OnLine Bool := do
  if (← strlen pt) = 0 then return true else strcasecmp pt defaultWord

def commandUse (cli : Cli) (pt : Nat) : OnLine Cli :=
  whenConnected cli fun cli => do
    if ← isDefault pt then
      if (← outer (cliAsk (.finedb cli (.setdb none)))) = .FINEDB_OK then
        return { cli with dbname := none }
      else return cli
    else
      let name ← string pt
      if (← outer (cliAsk (.finedb cli (.setdb (some name)))))
          = .FINEDB_OK then
        let name ← string pt
        if ← outer (cliAsk (.strdup name)) then
          return { cli with dbname := some name }
        else return { cli with dbname := none }
      else Empty.elim (← outer (cliAsk .badFormat))

/-- A request for one key, whose result is only printed. -/
def keyCommand (cli : Cli) (pt : Nat) (op : Bytes → ClientOp) :
    OnLine Cli := do
  match ← quotedKey pt with
  | none => return cli
  | some (key, _) =>
      whenConnected cli fun cli => do
        let key ← string key
        let _ ← outer (cliAsk (.finedb cli (op key)))
        return cli

def commandGet (cli : Cli) (pt : Nat) : OnLine Cli :=
  keyCommand cli pt .get

def commandDel (cli : Cli) (pt : Nat) : OnLine Cli :=
  keyCommand cli pt .del

/-- The function `command_send_data` comes to. -/
def sendOp (create_only update_only : Bool) : Bytes → Bytes → ClientOp :=
  if create_only then .add else if update_only then .update else .put

def commandSendData (cli : Cli) (pt : Nat)
    (create_only update_only : Bool) : OnLine Cli := do
  match ← quotedKey pt with
  | none => return cli
  | some (key, pt2) =>
      match ← quotedData (pt2 + 1) with
      | none => return cli
      | some data =>
          whenConnected cli fun cli => do
            let key ← string key
            let data ← string data
            let _ ← outer (cliAsk (.finedb cli
              (sendOp create_only update_only key data)))
            return cli

/-- Whether the string at `pt` is one of `words`. -/
def anyWord (pt : Nat) : List Bytes → OnLine Bool
  | [] => return false
  | word :: words => do
      if ← strcasecmp pt word then return true else anyWord pt words

def commandAutocheck (cli : Cli) (pt : Nat) : OnLine Cli := do
  if (← strlen pt) = 0 then return cli
  else if ← anyWord pt onWords then
    return { cli with autocheck := true }
  else return { cli with autocheck := ← strcmp pt [0x31] }

-- ===================================================================== main

/-- The words `main` knows. -/
inductive CommandWord
  | exit
  | quit
  | help
  | sync
  | async
  | use
  | get
  | del
  | put
  | add
  | update
  | inc
  | dec
  | start
  | stop
  | ping
  | autocheck
deriving DecidableEq

/-- In the order in which they are compared. -/
def CommandWord.all : List CommandWord :=
  [.exit, .quit, .help, .sync, .async, .use, .get, .del, .put, .add,
    .update, .inc, .dec, .start, .stop, .ping, .autocheck]

def CommandWord.text : CommandWord → Bytes
  | .exit => [0x65, 0x78, 0x69, 0x74]
  | .quit => [0x71, 0x75, 0x69, 0x74]
  | .help => [0x68, 0x65, 0x6c, 0x70]
  | .sync => [0x73, 0x79, 0x6e, 0x63]
  | .async => [0x61, 0x73, 0x79, 0x6e, 0x63]
  | .use => [0x75, 0x73, 0x65]
  | .get => [0x67, 0x65, 0x74]
  | .del => [0x64, 0x65, 0x6c]
  | .put => [0x70, 0x75, 0x74]
  | .add => [0x61, 0x64, 0x64]
  | .update => [0x75, 0x70, 0x64, 0x61, 0x74, 0x65]
  | .inc => [0x69, 0x6e, 0x63]
  | .dec => [0x64, 0x65, 0x63]
  | .start => [0x73, 0x74, 0x61, 0x72, 0x74]
  | .stop => [0x73, 0x74, 0x6f, 0x70]
  | .ping => [0x70, 0x69, 0x6e, 0x67]
  | .autocheck => [0x61, 0x75, 0x74, 0x6f, 0x63, 0x68, 0x65, 0x63, 0x6b]

/-- The comparison of the command at `cmd` with one of the words; `help`
is also any word that starts with a question mark. -/
def isCommand (cmd : Nat) (word : CommandWord) : OnLine Bool := do
  if ← strcasecmp cmd word.text then return true
  else if word = .help then return (← peek cmd) = 0x3f
  else return false

def findWord (cmd : Nat) : List CommandWord → OnLine (Option CommandWord)
  | [] => return none
  | word :: words => do
      if ← isCommand cmd word then return some word
      else findWord cmd words

/-- What follows a comparison that succeeds, `none` for `exit(0)`.
`command_inc` and `command_dec` are empty. -/
def execWord (cli : Cli) (pt : Nat) : CommandWord → OnLine (Option Cli)
  | .exit => return none
  | .quit => return none
  | .help => return some cli
  | .sync => return some { cli with sync := true }
  | .async => return some { cli with sync := false }
  | .use => return some (← commandUse cli pt)
  | .get => return some (← commandGet cli pt)
  | .del => return some (← commandDel cli pt)
  | .put => return some (← commandSendData cli pt false false)
  | .add => return some (← commandSendData cli pt true false)
  | .update => return some (← commandSendData cli pt false true)
  | .inc => return some cli
  | .dec => return some cli
  | .start => return some (← outer (commandCliStart cli))
  | .stop => return some (← outer (commandCliStop cli))
  | .ping => return some (← outer (commandCliPing cli))
  | .autocheck => return some (← commandAutocheck cli pt)

/-- The command word is ended in place: where it is, and where its
argument is. -/
def extractCommand : OnLine (Nat × Nat) := do
  let cmd ← ltrim 0
  let pt ← skipWhile (fun c => c ≠ 0 && !isSpace c) cmd
  poke pt 0
  let pt ← ltrim (pt + 1)
  return (cmd, pt)

/-- One turn of the loop of `main`. -/
def main (cli : Cli) : OnLine (Option Cli) := do
  let (cmd, pt) ← extractCommand
  if (← peek cmd) = 0 then return some cli
  else
    match ← findWord cmd CommandWord.all with
    | none => return some cli
    | some word => execWord cli pt word

/-- The loop of `main` over the lines entered, each in a buffer of its
own. -/
def mainLoop : Cli → List Bytes → ExceptT Nat (Prog cliSig) (Option Cli)
  | cli, [] => return some cli
  | cli, line :: lines => do
      match ← (main cli).run' (line ++ [0]) with
      | none => return none
      | some cli => mainLoop cli lines

end FineDB.Line

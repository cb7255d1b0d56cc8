/-
What the server asks of its surroundings (lmdb.h, snappy.h, nn.h, libc).

The C code is embedded as call trees (Lib/Prog.lean) over the signature
`serverSig`: the transaction calls of Lib/Mvcc.lean, the LMDB calls made
through a transaction, and everything else. Nothing here says how a call
is answered. A statement about every combination of success and failure
quantifies over the answers; the store of Model/Lmdb.lean answers them
for the statements about stored data.

A database handle (`MDB_dbi`) is a type parameter: a name where handles
are taken as neutral, a number where the discipline of opening and
closing them is the subject.

Two calls are not calls in C. An automatic variable read before it is
written has an indeterminate value, and `indeterminateSize` and
`indeterminateDbi` are where that value comes from.
-/
import FineDB.Lib.Mvcc
import FineDB.Model.Basic

namespace FineDB

open Effect Mvcc

/-- LMDB return codes, as far as anyone tells them apart: success,
`MDB_NOTFOUND`, `EACCES`, `EINVAL` (or `MDB_BAD_VALSIZE`),
`MDB_KEYEXIST`, and a failure for lack of some resource. -/
inductive MdbRc
  | success
  | notfound
  | eacces
  | einval
  | keyexist
  | resource
deriving DecidableEq, Repr

-- ================================================= through a transaction

/-- The LMDB calls that take a transaction. A cursor is named by its
handle and the key it stands on. -/
inductive LmdbCall (Dbi : Type)
  | dbiOpen (name : Option Bytes) (create : Bool)
  | put (dbi : Dbi) (key data : Bytes) (nooverwrite : Bool)
  | del (dbi : Dbi) (key : Bytes)
  | get (dbi : Dbi) (key : Bytes)
  | drop (dbi : Dbi)
  | cursorOpen (dbi : Dbi)
  | cursorNext (dbi : Dbi) (pos : Option Bytes)
  | cursorClose (dbi : Dbi)

/-- The answer of `mdb_dbi_open`: a handle, with the information whether
the open itself created the database (which the caller is not told), or
a code other than 0. -/
inductive OpenRet (Dbi : Type)
  | opened (dbi : Dbi) (created : Bool)
  | refused (rc : MdbRc)

@[reducible] def LmdbCall.Ret {Dbi : Type} : LmdbCall Dbi → Type
  | .dbiOpen _ _ => OpenRet Dbi
  | .put _ _ _ _ => MdbRc
  | .del _ _ => MdbRc
  | .get _ _ => Except MdbRc Bytes
  | .drop _ => MdbRc
  | .cursorOpen _ => MdbRc
  | .cursorNext _ _ => Except MdbRc (Bytes × Bytes)
  | .cursorClose _ => Unit

@[reducible] def lmdbSig (Dbi : Type) : Signature where
  Call := LmdbCall Dbi
  Ret := LmdbCall.Ret

-- ====================================================== everything else

/-- `writer_action_t`. -/
inductive WriterAction
  | writePut
  | writeDel
  | writeDrop
deriving DecidableEq, Repr

/-- `writer_msg_t`. -/
structure WriterMsg where
  type : WriterAction
  dbname : Option Bytes
  name : Bytes
  data : Bytes
  createOnly : Bool
deriving DecidableEq

/-- `sizeof(writer_msg_t)`, on a 64-bit target. -/
def sizeofWriterMsg : Nat := 56

/-- The calls that take no transaction. -/
inductive EnvCall (Dbi : Type)
  | dbiClose (dbi : Dbi)
  | sendmsg (bytes : Bytes)
  | shutdown (fd : Int)
  | close (fd : Int)
  | ymalloc (size : Nat)
  | strdup (s : Bytes)
  | snappyInitEnv
  | snappyCompress (data : Bytes)
  /-- `buf` is the size of the output buffer, `none` a NULL pointer. -/
  | snappyUncompress (z : Bytes) (buf : Option Nat)
  | nnSend (msg : WriterMsg)
  | indeterminateSize
  | indeterminateDbi

/-- The answers: `sendmsg` returns a count or -1; an allocation, an
initialisation and `nn_send` succeed or fail; the snappy functions
return data or an error. -/
@[reducible] def EnvCall.Ret {Dbi : Type} : EnvCall Dbi → Type
  | .dbiClose _ => Unit
  | .sendmsg _ => Int
  | .shutdown _ => Unit
  | .close _ => Unit
  | .ymalloc _ => Bool
  | .strdup _ => Bool
  | .snappyInitEnv => Bool
  | .snappyCompress _ => Option Bytes
  | .snappyUncompress _ _ => Option Bytes
  | .nnSend _ => Bool
  | .indeterminateSize => Nat
  | .indeterminateDbi => Dbi

@[reducible] def envSig (Dbi : Type) : Signature where
  Call := EnvCall Dbi
  Ret := EnvCall.Ret

/-- All calls of the server. -/
@[reducible] def serverSig (Dbi : Type) : Signature :=
  txnSig (lmdbSig Dbi) (envSig Dbi)

/-- A piece of the server's code that computes an `α`. -/
abbrev Server (Dbi α : Type) := Prog (serverSig Dbi) α

-- ======================================================== one call each

section Calls

variable {Dbi : Type}

/-- `mdb_txn_begin(env, NULL, flags, &txn)`. -/
@[simp] def mdbTxnBegin (rdonly : Bool) : Server Dbi (Option Nat) :=
  Prog.ask (S := serverSig Dbi) (.txnBegin rdonly)

/-- `mdb_txn_commit(txn)`: whether it returned 0. -/
@[simp] def mdbTxnCommit (txn : Nat) : Server Dbi Bool :=
  Prog.ask (S := serverSig Dbi) (.commit txn)

/-- `mdb_txn_abort(txn)`. -/
@[simp] def mdbTxnAbort (txn : Nat) : Server Dbi Unit :=
  Prog.ask (S := serverSig Dbi) (.abort txn)

/-- An LMDB call through `txn`. -/
@[simp] def lmdb (txn : Nat) (c : LmdbCall Dbi) : Server Dbi c.Ret :=
  Prog.ask (S := serverSig Dbi) (.access txn c)

/-- Any other call. -/
@[simp] def env (c : EnvCall Dbi) : Server Dbi c.Ret :=
  Prog.ask (S := serverSig Dbi) (.other c)

end Calls

end FineDB

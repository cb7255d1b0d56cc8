/-
src/server/database.c: the five operations on a database, each inside
the caller's transaction or inside one of its own.

`transaction` is the caller's transaction, `none` for NULL. The labels
the C functions jump to are definitions here: `writeEndOfProcess` is the
code below `end_of_process` that `database_put` and `database_del` have
word for word in common; `database_drop` has its own, which differs in
what follows a failed commit, and `database_get` and `database_list`
end a read.

`database_open` and `database_close` set the environment up and take it
down; they are not part of any operation and are left out.
-/
import FineDB.Model.Calls

namespace FineDB

open Effect Mvcc

variable {Dbi : Type}

-- ========================================================= transactions

def databaseTransactionStart (readonly : Bool) : Server Dbi (Option Nat) :=
  mdbTxnBegin readonly

def databaseTransactionCommit (transaction : Nat) : Server Dbi Yerr := do
  if ← mdbTxnCommit transaction then return .YENOERR
  return .YEACCESS

def databaseTransactionRollback (transaction : Nat) : Server Dbi Unit :=
  mdbTxnAbort transaction

/-- `txn = transaction; if (txn == NULL) txn = database_transaction_start(..)`,
the opening of all five operations. -/
def transactionInit (transaction : Option Nat) (readonly : Bool) :
    Server Dbi (Option Nat) :=
  match transaction with
  | some txn => return some txn
  | none => databaseTransactionStart readonly

@[simp] theorem transactionInit_some (t : Nat) (readonly : Bool) :
    (transactionInit (some t) readonly : Server Dbi _) = .ret (some t) := rfl

@[simp] theorem transactionInit_none (readonly : Bool) :
    (transactionInit none readonly : Server Dbi _)
      = .call (.txnBegin readonly) .ret := rfl

/-- `if (transaction == NULL) database_transaction_rollback(txn)`. -/
def rollbackOwn (transaction : Option Nat) (txn : Nat) : Server Dbi Unit :=
  match transaction with
  | some _ => return ()
  | none => databaseTransactionRollback txn

@[simp] theorem rollbackOwn_some (t txn : Nat) :
    (rollbackOwn (some t) txn : Server Dbi _) = .ret () := rfl

@[simp] theorem rollbackOwn_none (txn : Nat) :
    (rollbackOwn none txn : Server Dbi _) = .call (.abort txn) .ret := rfl

-- =============================================================== writes

/-- `end_of_process` of `database_put` and `database_del`: commit the
standalone transaction if all went well; roll it back if anything, the
commit included, did not. -/
def writeEndOfProcess (transaction : Option Nat) (txn : Nat)
    (retval : Yerr) : Server Dbi Yerr := do
  let retval ←
    if retval = .YENOERR ∧ transaction = none then do
      if (← databaseTransactionCommit txn) ≠ .YENOERR then pure .YEACCESS
      else pure retval
    else pure retval
  if retval ≠ .YENOERR ∧ transaction = none then
    databaseTransactionRollback txn
  return retval

@[simp] theorem writeEndOfProcess_some (t txn : Nat) (retval : Yerr) :
    (writeEndOfProcess (some t) txn retval : Server Dbi _)
      = .ret retval := by
  simp [writeEndOfProcess]

/-- Nothing to commit: roll back. -/
theorem writeEndOfProcess_error (txn : Nat) {retval : Yerr}
    (h : retval ≠ .YENOERR) :
    (writeEndOfProcess none txn retval : Server Dbi _)
      = .call (.abort txn) fun _ => .ret retval := by
  simp [writeEndOfProcess, h]
  rfl

/-- A commit, and after a failed one a rollback of the same
transaction. -/
theorem writeEndOfProcess_ok (txn : Nat) :
    (writeEndOfProcess none txn .YENOERR : Server Dbi _)
      = .call (.commit txn) fun ok =>
          if ok then .ret .YENOERR
          else .call (.abort txn) fun _ => .ret .YEACCESS := by
  refine congrArg (Prog.call (S := serverSig Dbi) (.commit txn)) ?_
  funext ok
  cases ok with
  | false => rfl
  | true => rfl

/-- `retval` after an LMDB write that returned `rc`. -/
def writeRetval (rc : MdbRc) : Yerr :=
  if rc = .success then .YENOERR else .YEACCESS

@[simp] theorem writeRetval_success : writeRetval .success = .YENOERR := rfl

theorem writeRetval_ne {rc : MdbRc} (h : rc ≠ .success) :
    writeRetval rc = .YEACCESS := if_neg h

def databasePut (transaction : Option Nat) (createOnly : Bool)
    (name : Option Bytes) (key data : Bytes) : Server Dbi Yerr := do
  match ← transactionInit transaction false with
  | none => return .YEACCESS
  | some txn =>
      match ← lmdb txn (.dbiOpen (name.map cString) true) with
      | .refused _ => writeEndOfProcess transaction txn .YEACCESS
      | .opened dbi _ =>
          let rc ← lmdb txn (.put dbi key data createOnly)
          env (.dbiClose dbi)
          writeEndOfProcess transaction txn (writeRetval rc)

def databaseDel (transaction : Option Nat) (name : Option Bytes)
    (key : Bytes) : Server Dbi Yerr := do
  match ← transactionInit transaction false with
  | none => return .YEACCESS
  | some txn =>
      match ← lmdb txn (.dbiOpen (name.map cString) false) with
      | .refused _ => writeEndOfProcess transaction txn .YEACCESS
      | .opened dbi _ =>
          let rc ← lmdb txn (.del dbi key)
          env (.dbiClose dbi)
          writeEndOfProcess transaction txn (writeRetval rc)

/-- `end_of_process` of `database_drop`: a failed commit returns at
once. -/
def dropEndOfProcess (transaction : Option Nat) (txn : Nat)
    (retval : Yerr) : Server Dbi Yerr := do
  if retval = .YENOERR ∧ transaction = none then
    if (← databaseTransactionCommit txn) ≠ .YENOERR then
      return .YEACCESS
  if retval ≠ .YENOERR ∧ transaction = none then
    databaseTransactionRollback txn
  return retval

@[simp] theorem dropEndOfProcess_some (t txn : Nat) (retval : Yerr) :
    (dropEndOfProcess (some t) txn retval : Server Dbi _)
      = .ret retval := by
  simp [dropEndOfProcess]

theorem dropEndOfProcess_error (txn : Nat) {retval : Yerr}
    (h : retval ≠ .YENOERR) :
    (dropEndOfProcess none txn retval : Server Dbi _)
      = .call (.abort txn) fun _ => .ret retval := by
  simp [dropEndOfProcess, h]
  rfl

theorem dropEndOfProcess_ok (txn : Nat) :
    (dropEndOfProcess none txn .YENOERR : Server Dbi _)
      = .call (.commit txn) fun ok =>
          .ret (if ok then .YENOERR else .YEACCESS) := by
  refine congrArg (Prog.call (S := serverSig Dbi) (.commit txn)) ?_
  funext ok
  cases ok with
  | false => rfl
  | true => rfl

def databaseDrop (transaction : Option Nat) (name : Option Bytes) :
    Server Dbi Yerr := do
  match ← transactionInit transaction false with
  | none => return .YEACCESS
  | some txn =>
      match ← lmdb txn (.dbiOpen (name.map cString) false) with
      | .refused _ => dropEndOfProcess transaction txn .YEACCESS
      | .opened dbi _ =>
          let rc ← lmdb txn (.drop dbi)
          env (.dbiClose dbi)
          dropEndOfProcess transaction txn (writeRetval rc)

-- ================================================================ reads

/-- What `database_get` gives its caller: the value, or an error. -/
def getRetval : Except MdbRc Bytes → Except Yerr Bytes
  | .ok data => .ok data
  | .error .notfound => .error .YENODATA
  | .error _ => .error .YEACCESS

def databaseGet (transaction : Option Nat) (name : Option Bytes)
    (key : Bytes) : Server Dbi (Except Yerr Bytes) := do
  match ← transactionInit transaction true with
  | none => return .error .YEACCESS
  | some txn =>
      match ← lmdb txn (.dbiOpen (name.map cString) false) with
      | .refused _ =>
          -- goto end_of_process, past the rollback: `dbi` was not set
          -- and the transaction stays open
          let dbi ← env .indeterminateDbi
          env (.dbiClose dbi)
          return .error .YEACCESS
      | .opened dbi _ =>
          let rc ← lmdb txn (.get dbi key)
          rollbackOwn transaction txn
          env (.dbiClose dbi)
          return getRetval rc

/-- The cursor loop of `database_list`, on a database of at most
`entries` entries: every pair goes to the callback until it fails or
the cursor reports the end. -/
def databaseListLoop (txn : Nat) (dbi : Dbi)
    (cb : Bytes → Bytes → Server Dbi Yerr) :
    Nat → Option Bytes → Server Dbi Unit
  | 0, pos => do
      -- the last pair has been given out: whatever is answered ends it
      let _ ← lmdb txn (.cursorNext dbi pos)
      return ()
  | entries + 1, pos => do
      match ← lmdb txn (.cursorNext dbi pos) with
      | .error _ => return ()
      | .ok (key, data) =>
          if (← cb key data) ≠ .YENOERR then return ()
          databaseListLoop txn dbi cb entries (some key)

/-- The part of `database_list` that has a cursor open. -/
def databaseListCursor (txn : Nat) (dbi : Dbi) (entries : Nat)
    (cb : Bytes → Bytes → Server Dbi Yerr) : Server Dbi Yerr := do
  if (← lmdb txn (.cursorOpen dbi)) = .success then
    databaseListLoop txn dbi cb entries none
    lmdb txn (.cursorClose dbi)
    return .YENOERR
  else return .YEACCESS

def databaseList (transaction : Option Nat) (name : Option Bytes)
    (entries : Nat) (cb : Bytes → Bytes → Server Dbi Yerr) :
    Server Dbi Yerr := do
  match ← transactionInit transaction true with
  | none => return .YEACCESS
  | some txn =>
      match ← lmdb txn (.dbiOpen (name.map cString) false) with
      | .refused _ =>
          rollbackOwn transaction txn
          return .YEACCESS
      | .opened dbi _ =>
          let retval ← databaseListCursor txn dbi entries cb
          env (.dbiClose dbi)
          rollbackOwn transaction txn
          return retval

end FineDB

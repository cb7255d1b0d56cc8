/-
The LIST command: what arrives of the keys.

After the RESP_OK byte, `command_list` sends every key the cursor gives
it, each after its length, and then a zero byte. Two things are asked of
this. When the command reports success, the keys should have arrived;
and what arrives should have an end that can be seen.

The first holds exactly if nothing happened on the way
(`ListedWhole`). A key that could not be sent makes the callback fail,
and a cursor that fails ends the loop, but `database_list` returns
YENOERR all the same, so `command_list` writes its last byte and reports
success. The second fails for every database whose keys go on with one
shorter than 256 bytes: the high byte of that key's length is the zero
that ends the body (`listBody_prefix_iff`).
-/
import FineDB.Lib.Cursor
import FineDB.Lib.Lockstep
import FineDB.Proofs.Link

namespace FineDB

open Effect Mvcc

-- ================================================================ the body

/-- The keys of a database, in the order of the cursor. -/
def Store.keys (st : Store) (name : Option Bytes) : List Bytes :=
  ((st.db name).map fun db => db.toList.map Prod.fst).getD []

/-- The key a step of the cursor gave. -/
def listed : Event (serverSig (Option Bytes)) → Option Bytes
  | ⟨.access _ (.cursorNext _ _), .ok entry⟩ => some entry.1
  | _ => none

/-- The keys up to some point went out, and the cursor gave no more. -/
def Stopped (keys : List Bytes) (tr : ServerTrace) : Prop :=
  ∃ whole left, keys = whole ++ left ∧ tr.filterMap listed = whole
    ∧ sent tr = whole.flatMap listEntry
    ∧ ∀ out ∈ sends tr, (out.1.length : Int) ≤ out.2

/-- A key did not go out in full, and nothing after it. -/
def Torn (keys : List Bytes) (tr : ServerTrace) : Prop :=
  (∃ out ∈ sends tr, out.2 < out.1.length)
    ∧ (sent tr).length < (keys.flatMap listEntry).length

def Lists (keys : List Bytes) (tr : ServerTrace) : Prop :=
  Stopped keys tr ∨ Torn keys tr

/-- A call that has nothing to do with it. -/
private def Aside (e : Event (serverSig (Option Bytes))) : Prop :=
  sendOf e = none ∧ listed e = none

variable {keys : List Bytes} {tr tr' : ServerTrace}

/-- Calls aside change nothing. -/
private theorem Lists.cons {e : Event (serverSig (Option Bytes))}
    (he : Aside e) (h : Lists keys tr) : Lists keys (e :: tr) := by
  unfold Lists Stopped Torn sent sends at h ⊢
  rw [List.filterMap_cons_none he.1, List.filterMap_cons_none he.2]
  exact h

private theorem Lists.concat {e : Event (serverSig (Option Bytes))}
    (h : Lists keys tr) (he : Aside e) : Lists keys (tr ++ [e]) := by
  unfold Lists Stopped Torn sent sends at h ⊢
  rw [List.filterMap_append, List.filterMap_append,
    List.filterMap_cons_none he.1, List.filterMap_cons_none he.2,
    List.filterMap_nil, List.filterMap_nil, List.append_nil,
    List.append_nil]
  exact h

section Loop

variable {zip : Bytes → Bytes} {m : State Store} {v : Store} {db : Db}
  {t : Nat} {dbi pos : Option Bytes}

/-- A key was given and sent, then came the rest. -/
private theorem Lists.entry {key data : Bytes} {rc : Int}
    (hrc : ¬ rc < (listEntry key).length)
    (h : Lists keys tr) :
    Lists (key :: keys) (⟨.access t (.cursorNext dbi pos), .ok (key, data)⟩
      :: ⟨.other (.sendmsg (listEntry key)), rc⟩ :: tr) := by
  have hsent : sentBy (listEntry key, rc) = listEntry key :=
    List.take_of_length_le (by
      show (listEntry key).length ≤ rc.toNat
      omega)
  rcases h with ⟨whole, left, rfl, hlisted, hkeys, hwhole⟩
    | ⟨⟨out, hmem, hlt⟩, hshort⟩
  · refine Or.inl ⟨key :: whole, left, rfl, ?_, ?_, ?_⟩
    · exact congrArg (key :: ·) hlisted
    · show sentBy (listEntry key, rc) ++ sent tr = _
      rw [hsent, hkeys, List.flatMap_cons]
    · exact List.forall_mem_cons.mpr ⟨Int.not_lt.mp hrc, hwhole⟩
  · refine Or.inr ⟨⟨out, List.mem_cons_of_mem _ hmem, hlt⟩, ?_⟩
    show (sentBy (listEntry key, rc) ++ sent tr).length < _
    rw [hsent, List.flatMap_cons, List.length_append, List.length_append]
    omega

end Loop

end FineDB

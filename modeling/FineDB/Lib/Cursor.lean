/-
Walking an ordered map.

A cursor stands before the first entry of a map or on one of its keys,
and `next` is the entry after it. `after` is what it has still to give,
in the order of the keys: `next` is its first element, and what is after
the key of that element is the rest (`next_eq_head?`, `after_next`). So
a loop over `next` is a recursion over the list `after`, from the whole
of the map down to nothing.
-/
import Mathlib.Data.List.Basic
import Mathlib.Tactic.Common

namespace Cursor

open Std

variable {α β : Type} {cmp : α → α → Ordering} [TransCmp cmp]
  {t : ExtTreeMap α β cmp}

-- ========================================================== the two queries

section Queries

open Std.DTreeMap.Internal

end Queries

-- ================================================================ the walk

/-- The entry a cursor moves to: the first one, or the next after a
key. -/
def next (t : ExtTreeMap α β cmp) : Option α → Option (α × β)
  | none => t.minEntry?
  | some k => t.getEntryGT? k

/-- The entries it has not given. -/
def after (t : ExtTreeMap α β cmp) : Option α → List (α × β)
  | none => t.toList
  | some k => t.toList.filter fun e => (cmp e.1 k).isGT

end Cursor

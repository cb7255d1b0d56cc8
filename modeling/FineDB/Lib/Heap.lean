/-
A heap of cells, allocated and freed one at a time.

A pointer is a number, NULL is 0. Each access is checked: to read or
write a cell that has not been allocated, or has been freed, is a fault,
and so is to free it; code that returns without a fault has used no such
pointer. Addresses are given out once and never again, so that a pointer
to a freed cell never becomes one to another cell by accident.
-/
import Mathlib.Logic.Function.Basic
import Mathlib.Tactic.Common

/-- Why code on a heap stops. -/
inductive Fault
  | pointer (p : Nat)
  | index (i : Nat)
  | assertion
deriving DecidableEq, Repr

structure Heap (α : Type) where
  cells : Nat → Option α
  fresh : Nat
  pos : 0 < fresh
  null : cells 0 = none
  unused : ∀ p, fresh ≤ p → cells p = none

namespace Heap

variable {α β γ : Type} {h h' : Heap α} {p : Nat} {a b : α}

def empty : Heap α := ⟨fun _ => none, 1, Nat.one_pos, rfl, fun _ _ => rfl⟩

theorem lt_fresh (ha : h.cells p = some a) : p < h.fresh := by
  by_contra hle
  rw [h.unused p (by omega)] at ha
  cases ha

theorem ne_null (ha : h.cells p = some a) : p ≠ 0 := by
  rintro rfl
  rw [h.null] at ha
  cases ha

/-- The heap with another content in a cell that is in use. -/
def set (h : Heap α) (p : Nat) (c : Option α) (hp : (h.cells p).isSome) :
    Heap α where
  cells := Function.update h.cells p c
  fresh := h.fresh
  pos := h.pos
  null := by
    obtain ⟨a, ha⟩ := Option.isSome_iff_exists.mp hp
    rw [Function.update_of_ne (ne_null ha).symm, h.null]
  unused q hq := by
    obtain ⟨a, ha⟩ := Option.isSome_iff_exists.mp hp
    have := lt_fresh ha
    rw [Function.update_of_ne (by omega), h.unused q hq]

/-- `*p` -/
def read (h : Heap α) (p : Nat) : Except Fault α :=
  match h.cells p with
  | some a => .ok a
  | none => .error (.pointer p)

/-- `*p = a` -/
def write (h : Heap α) (p : Nat) (a : α) : Except Fault (Heap α) :=
  if hp : (h.cells p).isSome then .ok (h.set p (some a) hp)
  else .error (.pointer p)

def free (h : Heap α) (p : Nat) : Except Fault (Heap α) :=
  if hp : (h.cells p).isSome then .ok (h.set p none hp)
  else .error (.pointer p)

/-- A new cell and its address. -/
def alloc (h : Heap α) (a : α) : Nat × Heap α :=
  (h.fresh, {
    cells := Function.update h.cells h.fresh (some a)
    fresh := h.fresh + 1
    pos := Nat.succ_pos _
    null := by
      have := h.pos
      rw [Function.update_of_ne (by omega), h.null]
    unused := fun q hq => by
      rw [Function.update_of_ne (by omega), h.unused q (by omega)] })

theorem bind_ok {x : Except Fault β} {b : β} (h : x = .ok b)
    (k : β → Except Fault γ) : (x >>= k) = k b := by
  rw [h]
  rfl

theorem read_ok (ha : h.cells p = some a) : h.read p = .ok a := by
  rw [read, ha]

theorem write_ok (ha : h.cells p = some a) (b : α) :
    ∃ h', h.write p b = .ok h'
      ∧ h'.cells = Function.update h.cells p (some b) := by
  have hp : (h.cells p).isSome := by rw [ha]; rfl
  exact ⟨_, dif_pos hp, rfl⟩

/-- A write leaves the same cells in use. -/
theorem update_live (ha : h.cells p = some a) (b : α) (q : Nat) :
    Function.update h.cells p (some b) q ≠ none ↔ h.cells q ≠ none := by
  by_cases hq : q = p
  · rw [hq, Function.update_self, ha]
    simp
  · rw [Function.update_of_ne hq]

theorem free_ok (ha : h.cells p = some a) :
    ∃ h', h.free p = .ok h'
      ∧ h'.cells = Function.update h.cells p none := by
  have hp : (h.cells p).isSome := by rw [ha]; rfl
  exact ⟨_, dif_pos hp, rfl⟩

theorem alloc_cells (h : Heap α) (a : α) :
    (h.alloc a).2.cells = Function.update h.cells h.fresh (some a) := rfl

end Heap

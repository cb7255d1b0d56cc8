/-
Code that walks a buffer with pointers.

A pointer is a position. An access to a cell outside the buffer ends the
code with the position it touched, so that code which never ends this
way accesses nothing but the buffer. Everything else the code does to
its surroundings is done in a monad `m`.

The rules look at a buffer from a pointer on: `buf.drop pt = c :: rest`
says that the pointer is inside and that it reads `c`. A loop that moves
a pointer is described by the cells it passes and the one it stops at,
and a write by what it leaves of the strings in front of it.
-/
import Mathlib.Data.List.TakeDrop

namespace Pointer

variable {α β γ : Type} {m : Type → Type} [Monad m]

/-- Code over a buffer with cells in `α`. -/
abbrev OnBuffer (α : Type) (m : Type → Type) : Type → Type :=
  StateT (List α) (ExceptT Nat m)

/-- `*pt` -/
def peek (pt : Nat) : OnBuffer α m α := fun buf =>
  match buf[pt]? with
  | some c => pure (c, buf)
  | none => throw pt

/-- `*pt = c` -/
def poke (pt : Nat) (c : α) : OnBuffer α m Unit := fun buf =>
  if pt < buf.length then pure ((), buf.set pt c) else throw pt

/-- The loop of `skipWhile`, over the cells from `pt` on. -/
def skipLoop (p : α → Bool) : List α → Nat → Except Nat Nat
  | [], pt => .error pt
  | c :: cells, pt => if p c then skipLoop p cells (pt + 1) else .ok pt

/-- `while (p(*pt)) ++pt;` -/
def skipWhile (p : α → Bool) (pt : Nat) : OnBuffer α m Nat := fun buf =>
  match skipLoop p (buf.drop pt) pt with
  | .ok pt => pure (pt, buf)
  | .error pt => throw pt

/-- The `n` cells from `pt` on. -/
def slice (pt n : Nat) : OnBuffer α m (List α) := fun buf =>
  if pt + n ≤ buf.length then pure ((buf.drop pt).take n, buf)
  else throw (max pt buf.length)

/-- Something done to the surroundings. -/
def outer (p : m β) : OnBuffer α m β := fun buf =>
  ExceptT.lift p >>= fun b => pure (b, buf)

-- ================================================================ sequencing

variable {buf buf' : List α}

theorem bind_of_eq {x y : OnBuffer α m β} (k : β → OnBuffer α m γ)
    (h : x buf = y buf') : (x >>= k) buf = (y >>= k) buf' := by
  show x buf >>= (fun r => k r.1 r.2) = y buf' >>= (fun r => k r.1 r.2)
  rw [h]

section Sequencing

variable [LawfulMonad m]

theorem bind_of {x : OnBuffer α m β} {k : β → OnBuffer α m γ} {b : β}
    (h : x buf = pure (b, buf')) : (x >>= k) buf = k b buf' := by
  show x buf >>= (fun r => k r.1 r.2) = _
  rw [h, pure_bind]

theorem bind_of_throw {x : OnBuffer α m β} {k : β → OnBuffer α m γ}
    {i : Nat} (h : x buf = throw i) : (x >>= k) buf = throw i := by
  show x buf >>= (fun r => k r.1 r.2) = _
  rw [h]
  exact ExceptT.ext (by simp)

theorem outer_bind (p : m β) (k : β → OnBuffer α m γ) :
    (outer p >>= k) buf = ExceptT.lift p >>= fun b => k b buf := by
  show (ExceptT.lift p >>= fun b => pure (b, buf))
    >>= (fun r => k r.1 r.2) = _
  simp only [bind_assoc, pure_bind]

theorem outer_bind_congr (p : m β) {k k' : β → OnBuffer α m γ}
    (h : ∀ b, k b buf = k' b buf) :
    (outer p >>= k) buf = (outer p >>= k') buf := by
  rw [outer_bind, outer_bind]
  exact bind_congr h

theorem pure_eq_outer (b : β) (buf : List α) :
    (pure b : OnBuffer α m β) buf = outer (pure b) buf := by
  show (pure (b, buf) : ExceptT Nat m (β × List α)) = _
  exact ExceptT.ext (by simp [outer])

theorem outer_run (p : m β) (buf : List α) :
    (outer p buf).run = p >>= fun b => pure (.ok (b, buf)) := by
  simp only [outer, ExceptT.run_bind_lift, ExceptT.run_pure]

/-- Code that has come to something done outside goes on with it, and the
buffer is given up. -/
theorem run'_bind_of_outer {x : OnBuffer α m β} {p : m β}
    (h : x buf = outer p buf') (k : β → ExceptT Nat m γ) :
    (x.run' buf >>= k).run = p >>= fun b => (k b).run := by
  show ((fun r => r.1) <$> x buf >>= k).run = _
  rw [h, outer]
  simp only [map_bind, map_pure, bind_assoc, pure_bind,
    ExceptT.run_bind_lift]

theorem outer_bind_outer (p : m β) (q : β → m γ) :
    outer (p >>= q) buf = (outer p >>= fun b => outer (q b)) buf := by
  rw [outer_bind]
  exact ExceptT.ext (by simp [outer])

end Sequencing

-- ================================================================== accesses

theorem getElem?_of_drop {pt : Nat} {c : α} {rest : List α}
    (h : buf.drop pt = c :: rest) : buf[pt]? = some c := by
  rw [← List.head?_drop, h, List.head?_cons]

theorem lt_length_of_drop {pt : Nat} {c : α} {rest : List α}
    (h : buf.drop pt = c :: rest) : pt < buf.length := by
  have hlen := congrArg List.length h
  rw [List.length_drop, List.length_cons] at hlen
  omega

/-- What is seen after `s` has been passed. -/
theorem drop_of_append {pt : Nat} {s rest : List α}
    (h : buf.drop pt = s ++ rest) : buf.drop (pt + s.length) = rest := by
  rw [← List.drop_drop, h, List.drop_left]

theorem peek_of {pt : Nat} {c : α} {rest : List α}
    (h : buf.drop pt = c :: rest) :
    (peek pt : OnBuffer α m α) buf = pure (c, buf) := by
  simp only [peek, getElem?_of_drop h]

theorem poke_of {pt : Nat} {c c' : α} {rest : List α}
    (h : buf.drop pt = c :: rest) :
    (poke pt c' : OnBuffer α m Unit) buf = pure ((), buf.set pt c') :=
  if_pos (lt_length_of_drop h)

theorem skipLoop_append {p : α → Bool} {s : List α} {c : α}
    (hs : ∀ x ∈ s, p x = true) (hc : p c = false) (rest : List α)
    (pt : Nat) :
    skipLoop p (s ++ c :: rest) pt = .ok (pt + s.length) := by
  induction s generalizing pt with
  | nil => simp [skipLoop, hc]
  | cons x s ih =>
      rw [List.cons_append, skipLoop, if_pos (hs x List.mem_cons_self),
        ih (fun y hy => hs y (List.mem_cons_of_mem x hy)),
        List.length_cons]
      congr 1
      omega

/-- A loop passes the cells it is for and stops at the first other. -/
theorem skipWhile_of {p : α → Bool} {pt : Nat} {s rest : List α} {c : α}
    (h : buf.drop pt = s ++ c :: rest) (hs : ∀ x ∈ s, p x = true)
    (hc : p c = false) :
    (skipWhile p pt : OnBuffer α m Nat) buf
      = pure (pt + s.length, buf) := by
  simp only [skipWhile, h, skipLoop_append hs hc]

/-- A loop that starts behind the last cell. -/
theorem skipWhile_end {p : α → Bool} {pt : Nat} (h : buf.length = pt) :
    (skipWhile p pt : OnBuffer α m Nat) buf = throw pt := by
  simp only [skipWhile, List.drop_of_length_le (Nat.le_of_eq h), skipLoop]

theorem slice_of {pt : Nat} {s rest : List α}
    (h : buf.drop pt = s ++ rest) (hin : pt ≤ buf.length) :
    (slice pt s.length : OnBuffer α m (List α)) buf = pure (s, buf) := by
  have hlen := congrArg List.length h
  rw [List.length_drop, List.length_append] at hlen
  rw [slice, if_pos (by omega), h, List.take_left]

/-- A write to the cell behind `s` leaves `s` as it is. -/
theorem drop_set_of_append {pt : Nat} {s rest : List α} {c : α} (c' : α)
    (h : buf.drop pt = s ++ c :: rest) :
    (buf.set (pt + s.length) c').drop pt = s ++ c' :: rest := by
  rw [List.drop_set, if_neg (by omega), h, Nat.add_sub_cancel_left,
    List.set_append_right _ _ (Nat.le_refl _), Nat.sub_self]
  rfl

/-- A write is not seen from beyond it. -/
theorem drop_set_of_lt {i pt : Nat} (h : i < pt) (c : α) :
    (buf.set i c).drop pt = buf.drop pt := by
  rw [List.drop_set, if_pos h]

end Pointer

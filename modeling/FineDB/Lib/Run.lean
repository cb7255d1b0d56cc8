/-
Runs of a partial step function, and the two readings of "along the
run" the development needs: a predicate on every state the run visits
(`Along`) and a predicate on every step it takes, read at the state
before the step (`Meets`).

A machine here is nothing but `step : A → S → Option S`, `none` meaning
"not enabled". Nondeterminism lives in the action alphabet: whatever
the environment may choose (a failed allocation, the chunk a socket
hands over, which thread moves) is part of the action, so a statement
over every action list is a statement over every environment and every
schedule.

The one induction is `along_of_meets`: an invariant that every step
meeting a side condition preserves holds along every run whose steps
all meet it. Safety results are instances, with the side condition
`True` when they are unconditional.
-/
import Mathlib.Data.List.Basic
import Mathlib.Order.Basic

namespace Machine

variable {A S : Type*} (step : A → S → Option S)

-- ================================================================= runs

/-- Run a list of actions, failing on the first disabled one. -/
def run : S → List A → Option S
  | s, [] => some s
  | s, a :: rest => (step a s).bind fun s' => run s' rest

@[simp] theorem run_nil (s : S) : run step s [] = some s := rfl

@[simp] theorem run_cons (s : S) (a : A) (rest : List A) :
    run step s (a :: rest) = (step a s).bind fun s' => run step s' rest :=
  rfl

/-- A run over a concatenation is a run followed by a run. -/
theorem run_append (s : S) (as bs : List A) :
    run step s (as ++ bs)
      = (run step s as).bind fun s' => run step s' bs := by
  induction as generalizing s with
  | nil => rfl
  | cons a as ih =>
      simp only [List.cons_append, run_cons, Option.bind_assoc]
      congr 1
      funext s'
      exact ih s'

/-- Appending one action to a successful run is one more step. -/
theorem run_snoc {s s' : S} {as : List A} (a : A)
    (h : run step s as = some s') :
    run step s (as ++ [a]) = step a s' := by
  rw [run_append, h]
  simp

-- ======================================================== along the run

/-- `P` holds in every state the run visits, the first one included. -/
def Along (P : S → Prop) : S → List A → Prop
  | s, [] => P s
  | s, a :: rest => P s ∧ ∀ s', step a s = some s' → Along P s' rest

/-- Every step of the run satisfies `Q`, read at the state before it. -/
def Meets (Q : S → A → Prop) : S → List A → Prop
  | _, [] => True
  | s, a :: rest => Q s a ∧ ∀ s', step a s = some s' → Meets Q s' rest

instance decidableMeets (Q : S → A → Prop) [∀ s a, Decidable (Q s a)] :
    ∀ (as : List A) (s : S), Decidable (Meets step Q s as)
  | [], _ => .isTrue trivial
  | a :: as, s =>
      match hs : step a s with
      | none => decidable_of_iff (Q s a) (by simp [Meets, hs])
      | some s' =>
          have := decidableMeets Q as s'
          decidable_of_iff (Q s a ∧ Meets step Q s' as)
            (by simp [Meets, hs])

/-- A condition on the actions alone. -/
theorem meets_of_forall {Q : A → Prop} {as : List A} (s : S)
    (h : ∀ a ∈ as, Q a) : Meets step (fun _ a => Q a) s as := by
  induction as generalizing s with
  | nil => trivial
  | cons a as ih =>
      rw [List.forall_mem_cons] at h
      exact ⟨h.1, fun s' _ => ih s' h.2⟩

theorem Meets.mono {Q Q' : S → A → Prop}
    (hQ : ∀ s a, Q s a → Q' s a) :
    ∀ {as : List A} {s : S}, Meets step Q s as → Meets step Q' s as := by
  intro as
  induction as with
  | nil => intro s _; trivial
  | cons a as ih =>
      intro s h
      exact ⟨hQ s a h.1, fun s' hs' => ih (h.2 s' hs')⟩

theorem Meets.and {Q Q' : S → A → Prop} :
    ∀ {as : List A} {s : S}, Meets step Q s as → Meets step Q' s as →
      Meets step (fun s a => Q s a ∧ Q' s a) s as := by
  intro as
  induction as with
  | nil => intro s _ _; trivial
  | cons a as ih =>
      intro s h h'
      exact ⟨⟨h.1, h'.1⟩, fun s' hs' => ih (h.2 s' hs') (h'.2 s' hs')⟩

theorem Along.head {P : S → Prop} {s : S} {as : List A}
    (h : Along step P s as) : P s := by
  cases as with
  | nil => exact h
  | cons a as => exact h.1

/-- The invariant rule: what every condition-meeting step preserves
holds in every state of a run whose steps all meet the condition. -/
theorem along_of_meets {I : S → Prop} {Q : S → A → Prop}
    (hstep : ∀ s a s', I s → Q s a → step a s = some s' → I s') :
    ∀ {as : List A} {s : S}, I s → Meets step Q s as →
      Along step I s as := by
  intro as
  induction as with
  | nil => intro s hs _; exact hs
  | cons a as ih =>
      intro s hs hm
      refine ⟨hs, fun s' hs' => ?_⟩
      exact ih (hstep s a s' hs hm.1 hs') (hm.2 s' hs')

/-- A weaker predicate holds along the same run. -/
theorem Along.mono {P R : S → Prop} (hPR : ∀ s, P s → R s) :
    ∀ {as : List A} {s : S}, Along step P s as → Along step R s as := by
  intro as
  induction as with
  | nil => intro s h; exact hPR s h
  | cons a as ih =>
      intro s h
      exact ⟨hPR s h.1, fun s' hs' => ih (h.2 s' hs')⟩

/-- What holds along a successful run holds where it ends. -/
theorem Along.last {P : S → Prop} :
    ∀ {as : List A} {s s' : S}, Along step P s as →
      run step s as = some s' → P s' := by
  intro as
  induction as with
  | nil =>
      intro s s' h hr
      simp only [run_nil, Option.some.injEq] at hr
      exact hr ▸ h
  | cons a as ih =>
      intro s s' h hr
      rw [run_cons, Option.bind_eq_some_iff] at hr
      obtain ⟨t, ht, hr⟩ := hr
      exact ih (h.2 t ht) hr

/-- The unconditional invariant rule, read at the end of a run. -/
theorem inv_of_run {I : S → Prop}
    (hstep : ∀ s a s', I s → step a s = some s' → I s')
    {as : List A} {s s' : S} (hs : I s) (hr : run step s as = some s') :
    I s' := by
  induction as generalizing s with
  | nil =>
      simp only [run_nil, Option.some.injEq] at hr
      exact hr ▸ hs
  | cons a as ih =>
      rw [run_cons, Option.bind_eq_some_iff] at hr
      obtain ⟨t, ht, hr⟩ := hr
      exact ih (hstep s a t hs ht) hr

end Machine

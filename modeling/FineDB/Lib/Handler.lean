/-
Programs answered by a state machine.

A `Handler` has a state and answers one call at a time; what it answers
may depend on an outcome from outside, so quantifying over outcomes
quantifies over all it can do. `run` is the run of a program that a
sequence of outcomes decides, with the calls it made; it is `none` only
if some call has no answer. `Wp` is the statement that every call of the
program has an answer, whatever the outcomes, and that the run ends in
`Q`; `Wp.run` gives the run back.

The store of Lib/Mvcc.lean, run for a single program, is a handler for
its own signature. This module is for everything else that answers.
-/
import FineDB.Lib.Prog

namespace Effect

/-- The answer to a call, and the state after it. -/
abbrev Handler (S : Signature) (W O : Type) :=
  O → W → (c : S.Call) → Option (S.Ret c × W)

namespace Handler

variable {S : Signature} {W O α β : Type} (H : Handler S W O)

/-- Run a program to its end. -/
def run : (Nat → O) → W → Prog S α → Option (List (Event S) × α × W)
  | _, w, .ret a => some ([], a, w)
  | outs, w, .call c k =>
      (H (outs 0) w c).bind fun x =>
        (run (fun i => outs (i + 1)) x.2 (k x.1)).map fun y =>
          (⟨c, x.1⟩ :: y.1, y.2)

/-- Every call is answered, and the run ends in `Q`. -/
def Wp : Prog S α → (List (Event S) → α → W → Prop) → W → Prop
  | .ret a, Q, w => Q [] a w
  | .call c k, Q, w => ∀ o, ∃ r w', H o w c = some (r, w')
      ∧ Wp (k r) (fun tr => Q (⟨c, r⟩ :: tr)) w'

variable {H} {Q Q' : List (Event S) → α → W → Prop} {p : Prog S α}
  {f : α → Prog S β} {outs : Nat → O} {w w' : W} {tr : List (Event S)}
  {a : α}

theorem Wp.mono (hQ : ∀ tr a w, Q tr a w → Q' tr a w) (h : H.Wp p Q w) :
    H.Wp p Q' w := by
  induction p generalizing Q Q' w with
  | ret a => exact hQ [] a w h
  | call c k ih =>
      intro o
      obtain ⟨r, w', hans, hrest⟩ := h o
      exact ⟨r, w', hans, ih r (fun tr => hQ (⟨c, r⟩ :: tr)) hrest⟩

theorem wp_bind {R : List (Event S) → β → W → Prop}
    (h : H.Wp p (fun tr a w' => H.Wp (f a) (fun tr' => R (tr ++ tr')) w') w) :
    H.Wp (p >>= f) R w := by
  induction p generalizing w R with
  | ret a => exact h
  | call c k ih =>
      intro o
      obtain ⟨r, w', hans, hrest⟩ := h o
      exact ⟨r, w', hans, ih r hrest⟩

/-- A call and the run of the rest. -/
theorem run_call {c : S.Call} {k : S.Ret c → Prog S α} {r : S.Ret c}
    {w₁ : W} (hans : H (outs 0) w c = some (r, w₁))
    (hrun : H.run (fun i => outs (i + 1)) w₁ (k r) = some (tr, a, w')) :
    H.run outs w (.call c k) = some (⟨c, r⟩ :: tr, a, w') := by
  rw [Handler.run, hans, Option.bind_some, hrun]
  rfl

/-- The run `Wp` speaks of. -/
theorem Wp.run (h : H.Wp p Q w) (outs : Nat → O) :
    ∃ tr a w', H.run outs w p = some (tr, a, w') ∧ Q tr a w' := by
  induction p generalizing Q w outs with
  | ret a => exact ⟨[], a, w, rfl, h⟩
  | call c k ih =>
      obtain ⟨r, w', hans, hrest⟩ := h (outs 0)
      obtain ⟨tr, a, w'', hrun, hQ⟩ := ih r hrest fun i => outs (i + 1)
      exact ⟨⟨c, r⟩ :: tr, a, w'', run_call hans hrun, hQ⟩

/-- What a run has done is a trace of the program. -/
theorem run_exec (h : H.run outs w p = some (tr, a, w')) : p.Exec tr a := by
  induction p generalizing outs w tr with
  | ret b =>
      cases h
      exact ⟨rfl, rfl⟩
  | call c k ih =>
      simp only [Handler.run, Option.bind_eq_some_iff,
        Option.map_eq_some_iff] at h
      obtain ⟨⟨r, w₁⟩, -, ⟨tr', a', w₂⟩, hrest, heq⟩ := h
      cases heq
      exact ⟨r, tr', rfl, ih r hrest⟩

end Handler

end Effect

/-
A program against an environment with a life of its own.

Where a machine answers the calls of a program one at a time
(Lib/Mvcc.lean) nothing happens between two of them. Here the
environment may move by itself at any point (`drift`), and answers a
call by a relation on its states. `Safe` is the weakest precondition of
such a run: every call is made in a state where it may be made (`P`),
and the result is in `Q`. It is closed under drift by definition, so a
proof only has to show that the invariants it states are stable.

`Safe.call` and `Safe.ret` are the two rules for a stable invariant,
`safe_bind` the one for sequencing. `Safe.allowed` gives the meaning
back: wherever a run has come, the next call is allowed.
-/
import FineDB.Lib.Prog
import Mathlib.Logic.Relation

namespace Effect

variable {S : Signature} {W α β : Type}

/-- An environment with states `W`. -/
structure Env (S : Signature) (W : Type) where
  drift : W → W → Prop
  answer : W → Event S → W → Prop

namespace Env

variable (E : Env S W)

/-- From `w` to `w'` with the calls and answers `tr`. -/
inductive Plays : W → List (Event S) → W → Prop
  | nil {w : W} : Plays w [] w
  | drift {w m w' : W} {tr : List (Event S)} :
      E.drift w m → Plays m tr w' → Plays w tr w'
  | answer {w m w' : W} {e : Event S} {tr : List (Event S)} :
      E.answer w e m → Plays m tr w' → Plays w (e :: tr) w'

/-- The environment keeps `I` when it moves by itself. -/
def Stable (I : W → Prop) : Prop := ∀ w w', E.drift w w' → I w → I w'

def Safe (P : W → S.Call → Prop) :
    Prog S α → (α → W → Prop) → W → Prop
  | .ret a, Q, w => ∀ m, Relation.ReflTransGen E.drift w m → Q a m
  | .call c k, Q, w => ∀ m, Relation.ReflTransGen E.drift w m →
      P m c ∧ ∀ r w', E.answer m ⟨c, r⟩ w' → Safe P (k r) Q w'

variable {E} {P : W → S.Call → Prop} {Q : α → W → Prop} {I : W → Prop}
  {p : Prog S α} {w w' : W}

theorem Stable.drifts (hI : E.Stable I)
    (h : Relation.ReflTransGen E.drift w w') (hw : I w) : I w' := by
  induction h with
  | refl => exact hw
  | tail _ hstep ih => exact hI _ _ hstep ih

-- ================================================================== the rules

theorem Safe.ret {a : α} (hI : E.Stable I) (hw : I w)
    (h : ∀ m, I m → Q a m) : E.Safe P (.ret a) Q w :=
  fun m hm => h m (hI.drifts hm hw)

theorem Safe.call {c : S.Call} {k : S.Ret c → Prog S α}
    (hI : E.Stable I) (hw : I w) (hP : ∀ m, I m → P m c)
    (h : ∀ m r w', I m → E.answer m ⟨c, r⟩ w' → E.Safe P (k r) Q w') :
    E.Safe P (.call c k) Q w :=
  fun m hm =>
    have hIm := hI.drifts hm hw
    ⟨hP m hIm, fun r w' hans => h m r w' hIm hans⟩

theorem safe_bind {f : α → Prog S β} {R : β → W → Prop}
    (h : E.Safe P p (fun a m => E.Safe P (f a) R m) w) :
    E.Safe P (p >>= f) R w := by
  induction p generalizing w with
  | ret a => exact h w .refl
  | call c k ih =>
      intro m hm
      obtain ⟨hP, hrest⟩ := h m hm
      exact ⟨hP, fun r w' hans => ih r (hrest r w' hans)⟩

theorem Safe.mono {Q' : α → W → Prop} (hQ : ∀ a m, Q a m → Q' a m)
    (h : E.Safe P p Q w) : E.Safe P p Q' w := by
  induction p generalizing w with
  | ret a => exact fun m hm => hQ a m (h m hm)
  | call c k ih =>
      intro m hm
      obtain ⟨hP, hrest⟩ := h m hm
      exact ⟨hP, fun r w' hans => ih r (hrest r w' hans)⟩

/-- Results no answer can prevent. -/
theorem Safe.ensures {R : α → Prop} (h : E.Safe P p Q w)
    (hR : p.Ensures R) : E.Safe P p (fun a m => R a ∧ Q a m) w := by
  induction p generalizing w with
  | ret a => exact fun m hm => ⟨hR, h m hm⟩
  | call c k ih =>
      intro m hm
      obtain ⟨hP, hrest⟩ := h m hm
      exact ⟨hP, fun r w' hans => ih r (hrest r w' hans) (hR r)⟩

-- =================================================================== the runs

theorem Safe.drift (h : E.Safe P p Q w) (hw : E.drift w w') :
    E.Safe P p Q w' := by
  cases p with
  | ret a => exact fun m hm => h m (.head hw hm)
  | call c k => exact fun m hm => h m (.head hw hm)

/-- A run in two parts. -/
theorem Plays.of_append {tr tr' : List (Event S)}
    (h : E.Plays w (tr ++ tr') w') :
    ∃ m, E.Plays w tr m ∧ E.Plays m tr' w' := by
  generalize hl : tr ++ tr' = l at h
  induction h generalizing tr with
  | nil =>
      obtain ⟨rfl, rfl⟩ := List.append_eq_nil_iff.mp hl
      exact ⟨_, .nil, .nil⟩
  | drift hdrift _ ih =>
      obtain ⟨m, hpre, hpost⟩ := ih hl
      exact ⟨m, .drift hdrift hpre, hpost⟩
  | answer hans hrest ih =>
      cases tr with
      | nil =>
          cases hl
          exact ⟨_, .nil, .answer hans hrest⟩
      | cons e' tr =>
          cases hl
          obtain ⟨m, hpre, hpost⟩ := ih rfl
          exact ⟨m, .answer hans hpre, hpost⟩

/-- A run that begins with a call: the environment moves, answers, and
the rest follows. -/
theorem Plays.of_cons {tr : List (Event S)} {e : Event S}
    (h : E.Plays w (e :: tr) w') :
    ∃ m m', Relation.ReflTransGen E.drift w m ∧ E.answer m e m'
      ∧ E.Plays m' tr w' := by
  generalize hl : e :: tr = l at h
  induction h with
  | nil => cases hl
  | drift hdrift _ ih =>
      obtain ⟨m, m', hdrifts, hrest⟩ := ih hl
      exact ⟨m, m', .head hdrift hdrifts, hrest⟩
  | answer hans hrest =>
      cases hl
      exact ⟨_, _, .refl, hans, hrest⟩

/-- A run without a call. -/
theorem Plays.of_nil (h : E.Plays w [] w') :
    Relation.ReflTransGen E.drift w w' := by
  generalize hl : ([] : List (Event S)) = l at h
  induction h with
  | nil => exact .refl
  | drift hdrift _ ih => exact .head hdrift (ih hl)
  | answer => cases hl

/-- Wherever a run has come, its next call is allowed. -/
theorem Safe.allowed {e : Event S} {tr tr' : List (Event S)} {a : α}
    (hplay : E.Plays w tr w') (h : E.Safe P p Q w)
    (hexec : p.Exec (tr ++ e :: tr') a) : P w' e.1 := by
  induction hplay generalizing p with
  | nil =>
      cases p with
      | ret b => cases hexec.1
      | call c k =>
          obtain ⟨r, rest, heq, -⟩ := hexec
          cases heq
          exact (h _ .refl).1
  | drift hdrift _ ih => exact ih (h.drift hdrift) hexec
  | answer hans _ ih =>
      cases p with
      | ret b => cases hexec.1
      | call c k =>
          obtain ⟨r, rest, heq, hrest⟩ := hexec
          cases heq
          exact ih ((h _ .refl).2 r _ hans) hrest

end Env

end Effect

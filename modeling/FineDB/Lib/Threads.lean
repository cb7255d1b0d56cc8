/-
Threads over one shared world, each working through jobs.

Between two jobs a thread is a value of `σ`; a job turns it into a
program, and every call of the program is one step on the world. The
steps of the threads come in any order, so a list of actions is a
schedule. Each job carries a tag, the part of its request that a
property of its calls refers to.

A thread is verified alone: to it the others are an environment that
moves by itself (Lib/Env.lean), by whatever calls they could make
(`company`). `Modular` collects what has to be shown of one thread, and
`Modular.meets` is what follows for all of them: in a run whose calls
all meet a side condition, every call is one that is allowed.
-/
import FineDB.Lib.Env
import FineDB.Lib.Run
import Mathlib.Logic.Function.Basic

namespace Effect

open Machine

/-- What the threads are made of: the program a job is, its tag, and the
effect of a call by a thread, `none` where it cannot be made. `O` is
what the schedule leaves open in a call. -/
structure Threads (S : Signature) (W σ J T O : Type) where
  prog : J → σ → Prog S σ
  tag : J → σ → T
  exec : Nat → O → W → (c : S.Call) → Option (S.Ret c × W)

/-- The world, the threads between jobs, and the jobs under way. -/
structure Pool (S : Signature) (W σ T : Type) where
  world : W
  idle : Nat → σ
  busy : Nat → Option (T × Prog S σ)

inductive ThreadAct (J O : Type)
  | start (c : Nat) (j : J)
  | call (c : Nat) (o : O)
  | finish (c : Nat)

namespace Threads

variable {S : Signature} {W σ J T O : Type} (R : Threads S W σ J T O)

def init (w : W) (s : σ) : Pool S W σ T where
  world := w
  idle := fun _ => s
  busy := fun _ => none

def step : ThreadAct J O → Pool S W σ T → Option (Pool S W σ T)
  | .start c j, s =>
      match s.busy c with
      | some _ => none
      | none =>
          let job := (R.tag j (s.idle c), R.prog j (s.idle c))
          some { s with busy := Function.update s.busy c (some job) }
  | .call c o, s =>
      match s.busy c with
      | some (τ, .call call k) =>
          (R.exec c o s.world call).map fun x =>
            { s with
              world := x.2
              busy := Function.update s.busy c (some (τ, k x.1)) }
      | _ => none
  | .finish c, s =>
      match s.busy c with
      | some (_, .ret a) => some { s with
          idle := Function.update s.idle c a
          busy := Function.update s.busy c none }
      | _ => none

/-- `Q` of a call the action makes, with the world before it, its answer
and the world after it. -/
def AtCall (Q : T → W → (c : S.Call) → S.Ret c → W → Prop) :
    Pool S W σ T → ThreadAct J O → Prop
  | s, .call c o =>
      match s.busy c with
      | some (τ, .call call _) =>
          match R.exec c o s.world call with
          | some x => Q τ s.world call x.1 x.2
          | none => True
      | _ => True
  | _, _ => True

theorem AtCall.mono {Q Q' : T → W → (c : S.Call) → S.Ret c → W → Prop}
    (hQ : ∀ τ w c r w', Q τ w c r w' → Q' τ w c r w')
    {s : Pool S W σ T} {a : ThreadAct J O} (h : R.AtCall Q s a) :
    R.AtCall Q' s a := by
  unfold AtCall at h ⊢
  split
  · split
    · split
      next hx =>
        simp only [*] at h
        exact hQ _ _ _ _ _ h
      · trivial
    · trivial
  · trivial

instance decidableAtCall
    (Q : T → W → (c : S.Call) → S.Ret c → W → Prop)
    [∀ τ w c r w', Decidable (Q τ w c r w')] (s : Pool S W σ T) :
    ∀ a : ThreadAct J O, Decidable (R.AtCall Q s a)
  | .start _ _ => .isTrue trivial
  | .finish _ => .isTrue trivial
  | .call c o =>
      match hb : s.busy c with
      | none => .isTrue (by simp [AtCall, hb])
      | some (_, .ret _) => .isTrue (by simp [AtCall, hb])
      | some (τ, .call call _) =>
          match hx : R.exec c o s.world call with
          | none => .isTrue (by simp [AtCall, hb, hx])
          | some x => decidable_of_iff (Q τ s.world call x.1 x.2)
              (by simp [AtCall, hb, hx])

-- ================================================================== inversion

section Inversion

variable {R} {c : Nat} {s s' : Pool S W σ T}

theorem step_start {j : J} (h : R.step (.start c j) s = some s') :
    s.busy c = none ∧ s' = { s with
      busy := Function.update s.busy c
        (some (R.tag j (s.idle c), R.prog j (s.idle c))) } := by
  simp only [step] at h
  split at h
  · cases h
  next hc => exact ⟨hc, (Option.some.inj h).symm⟩

theorem step_call {o : O} (h : R.step (.call c o) s = some s') :
    ∃ τ call k x, s.busy c = some (τ, .call call k)
      ∧ R.exec c o s.world call = some x
      ∧ s' = { s with
          world := x.2
          busy := Function.update s.busy c (some (τ, k x.1)) } := by
  simp only [step] at h
  split at h
  next τ call k hc =>
      rw [Option.map_eq_some_iff] at h
      obtain ⟨x, hx, rfl⟩ := h
      exact ⟨τ, call, k, x, hc, hx, rfl⟩
  · cases h

theorem step_finish (h : R.step (.finish c) s = some s') :
    ∃ τ a, s.busy c = some (τ, .ret a)
      ∧ s' = { s with
          idle := Function.update s.idle c a
          busy := Function.update s.busy c none } := by
  simp only [step] at h
  split at h
  next τ a hc => exact ⟨τ, a, hc, (Option.some.inj h).symm⟩
  · cases h

end Inversion

-- ============================================================ one thread alone

/-- A call by a thread other than `c`. -/
def Others (c : Nat) (w w' : W) : Prop :=
  ∃ d, d ≠ c ∧ ∃ o call r, R.exec d o w call = some (r, w')

/-- Thread `c` on a job with tag `τ`: the other threads are the drift,
and its own calls meet the side condition. -/
def company (Fits : T → W → S.Call → Prop) (c : Nat) (τ : T) : Env S W where
  drift := R.Others c
  answer := fun w e w' =>
    Fits τ w e.1 ∧ ∃ o, R.exec c o w e.1 = some (e.2, w')

/-- A call by `c` that meets the condition does what it should. -/
def Allowed (Fits : T → W → S.Call → Prop)
    (Right : T → W → (c : S.Call) → S.Ret c → W → Prop) (c : Nat) (τ : T)
    (w : W) (call : S.Call) : Prop :=
  Fits τ w call →
    ∀ o r w', R.exec c o w call = some (r, w') → Right τ w call r w'

/-- What is shown of one thread: the state between jobs is not disturbed
by the others, and every job is safe in their company. -/
structure Modular (Fits : T → W → S.Call → Prop)
    (Right : T → W → (c : S.Call) → S.Ret c → W → Prop)
    (I : Nat → σ → W → Prop) : Prop where
  stable : ∀ c a w w', R.Others c w w' → I c a w → I c a w'
  safe : ∀ c j a w, I c a w →
    (R.company Fits c (R.tag j a)).Safe
      (R.Allowed Fits Right c (R.tag j a)) (R.prog j a) (I c) w

-- ================================================================= all of them

variable {R} {Fits : T → W → S.Call → Prop}
  {Right : T → W → (c : S.Call) → S.Ret c → W → Prop}
  {I : Nat → σ → W → Prop}

/-- A thread in the world `w`: between jobs in a good state, or safe in
the rest of its job. -/
private def ThreadOk (R : Threads S W σ J T O)
    (Fits : T → W → S.Call → Prop)
    (Right : T → W → (c : S.Call) → S.Ret c → W → Prop)
    (I : Nat → σ → W → Prop) (c : Nat) (w : W) (a : σ) :
    Option (T × Prog S σ) → Prop
  | none => I c a w
  | some (τ, p) =>
      (R.company Fits c τ).Safe (R.Allowed Fits Right c τ) p (I c) w

private theorem ThreadOk.drift (hm : R.Modular Fits Right I) {c : Nat}
    {w w' : W} {a : σ} {b : Option (T × Prog S σ)}
    (hw : R.Others c w w') (h : ThreadOk R Fits Right I c w a b) :
    ThreadOk R Fits Right I c w' a b := by
  cases b with
  | none => exact hm.stable c a w w' hw h
  | some x =>
      show (R.company Fits c x.1).Safe _ x.2 _ w'
      exact Env.Safe.drift h hw

private def PoolOk (R : Threads S W σ J T O)
    (Fits : T → W → S.Call → Prop)
    (Right : T → W → (c : S.Call) → S.Ret c → W → Prop)
    (I : Nat → σ → W → Prop) (s : Pool S W σ T) : Prop :=
  ∀ c, ThreadOk R Fits Right I c s.world (s.idle c) (s.busy c)

/-- The call at hand is allowed. -/
private theorem PoolOk.atCall {s : Pool S W σ T}
    (hs : PoolOk R Fits Right I s) {a : ThreadAct J O}
    (hfit : R.AtCall (fun τ w call _ _ => Fits τ w call) s a) :
    R.AtCall Right s a := by
  cases a with
  | start c j => trivial
  | finish c => trivial
  | call c o =>
      have hc := hs c
      simp only [AtCall] at hfit ⊢
      cases hb : s.busy c with
      | none => trivial
      | some x =>
          obtain ⟨τ, p⟩ := x
          cases p with
          | ret a => trivial
          | call call k =>
              rw [hb] at hc hfit
              have hallowed := (hc s.world .refl).1
              show match R.exec c o s.world call with
                | some x => Right τ s.world call x.1 x.2
                | none => True
              cases hx : R.exec c o s.world call with
              | none => trivial
              | some x =>
                  simp only [hx] at hfit
                  exact hallowed hfit o x.1 x.2 hx

private theorem PoolOk.step (hm : R.Modular Fits Right I)
    {s s' : Pool S W σ T} (hs : PoolOk R Fits Right I s)
    {a : ThreadAct J O}
    (hfit : R.AtCall (fun τ w call _ _ => Fits τ w call) s a)
    (h : R.step a s = some s') : PoolOk R Fits Right I s' := by
  cases a with
  | start c j =>
      obtain ⟨hb, rfl⟩ := step_start h
      intro d
      dsimp only
      by_cases hd : d = c
      · subst hd
        have hidle := hs d
        rw [hb] at hidle
        rw [Function.update_self]
        exact hm.safe d j (s.idle d) s.world hidle
      · rw [Function.update_of_ne hd]
        exact hs d
  | call c o =>
      obtain ⟨τ, call, k, x, hb, hx, rfl⟩ := step_call h
      intro d
      dsimp only
      by_cases hd : d = c
      · subst hd
        have hsafe := hs d
        simp only [AtCall, hb, hx] at hfit
        rw [hb] at hsafe
        rw [Function.update_self]
        exact (hsafe s.world .refl).2 x.1 x.2 ⟨hfit, o, hx⟩
      · rw [Function.update_of_ne hd]
        -- to every other thread the call is drift
        exact (hs d).drift hm ⟨c, Ne.symm hd, o, call, x.1, hx⟩
  | finish c =>
      obtain ⟨τ, a, hb, rfl⟩ := step_finish h
      intro d
      dsimp only
      by_cases hd : d = c
      · subst hd
        have hsafe := hs d
        rw [hb] at hsafe
        rw [Function.update_self, Function.update_self]
        exact hsafe s.world .refl
      · rw [Function.update_of_ne hd, Function.update_of_ne hd]
        exact hs d

/-- The thread-modular rule: in a run whose calls all meet the condition,
every call does what it should. -/
theorem Modular.meets (hm : R.Modular Fits Right I) {w : W} {a : σ}
    (hw : ∀ c, I c a w) {acts : List (ThreadAct J O)}
    (hfit : Meets R.step (R.AtCall fun τ w call _ _ => Fits τ w call)
      (init w a) acts) :
    Meets R.step (R.AtCall Right) (init w a) acts := by
  have hok : PoolOk R Fits Right I (init w a) := hw
  generalize init w a = s at hok hfit ⊢
  induction acts generalizing s with
  | nil => trivial
  | cons act acts ih =>
      refine ⟨hok.atCall hfit.1, fun s' hs' => ?_⟩
      exact ih s' (hok.step hm hfit.1 hs') (hfit.2 s' hs')

end Threads

end Effect

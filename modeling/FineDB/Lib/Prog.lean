/-
Programs as trees of calls.

A `Signature` lists the calls a piece of code can make to what lies
outside it, each with the type of its answer. A `Prog` is the code with
those calls left open: it either returns, or makes one call and goes on
according to the answer. It is a monad, so straight-line C reads as a
`do` block, and it fixes no meaning for the calls. Meanings are given
afterwards, several for the same program:

- `Exec` lets every call be answered by anything its type allows: the
  program's traces under every combination of success and failure of
  its calls;
- `Ensures` and `Calls` are the two statements one makes about all
  branches at once, the results a program can return and the calls it
  can make;
- `answerBy` takes every answer from an oracle and computes the one run
  it decides, for statements that compare two runs;
- a state machine that answers calls one at a time (Lib/Mvcc.lean)
  gives interleavings of several programs.

The tree is inductive: a program makes finitely many calls on each
branch. Loops over input are recursion over that input, outside the
tree.
-/
import Mathlib.Data.List.Basic
import Mathlib.Tactic.Common

namespace Effect

/-- What code can ask of its surroundings, and the type of each
answer. -/
structure Signature where
  Call : Type
  Ret : Call → Type

/-- A program over a signature: return, or call and continue with the
answer. -/
inductive Prog (S : Signature) (α : Type) : Type
  | ret (a : α)
  | call (c : S.Call) (k : S.Ret c → Prog S α)

/-- One call with the answer it got. -/
abbrev Event (S : Signature) := (c : S.Call) × S.Ret c

namespace Prog

variable {S : Signature} {α β γ : Type}

-- ============================================================ the monad

/-- Sequencing: graft the continuation onto every return. -/
@[simp] def bind : Prog S α → (α → Prog S β) → Prog S β
  | .ret a, f => f a
  | .call c k, f => .call c fun r => (k r).bind f

instance : Monad (Prog S) where
  pure := .ret
  bind := bind

@[simp] theorem pure_eq (a : α) : (pure a : Prog S α) = .ret a := rfl

@[simp] theorem ret_bind (a : α) (f : α → Prog S β) :
    (Prog.ret a >>= f) = f a := rfl

@[simp] theorem call_bind (c : S.Call) (k : S.Ret c → Prog S α)
    (f : α → Prog S β) :
    (Prog.call c k >>= f) = .call c fun r => k r >>= f := rfl

theorem bind_assoc' (p : Prog S α) (f : α → Prog S β)
    (g : β → Prog S γ) : (p >>= f) >>= g = p >>= fun a => f a >>= g := by
  induction p with
  | ret a => rfl
  | call c k ih =>
      simp only [call_bind]
      congr 1
      funext r
      exact ih r

instance : LawfulMonad (Prog S) := by
  refine LawfulMonad.mk' (Prog S) ?_ ?_ ?_
  · intro α p
    induction p with
    | ret a => rfl
    | call c k ih =>
        show Prog.call c (fun r => (k r).bind (Prog.ret ∘ id)) = _
        congr 1
        funext r
        exact ih r
  · intro α β a f
    rfl
  · intro α β γ p f g
    exact bind_assoc' p f g

@[simp] theorem map_ret (f : α → β) (a : α) :
    f <$> (Prog.ret a : Prog S α) = .ret (f a) := rfl

@[simp] theorem map_call (f : α → β) (c : S.Call)
    (k : S.Ret c → Prog S α) :
    f <$> Prog.call c k = .call c fun r => f <$> k r := rfl

/-- Make one call and return its answer. -/
@[simp] def ask (c : S.Call) : Prog S (S.Ret c) := .call c .ret

-- =============================================================== traces

/-- `p.Exec tr a`: answered as in `tr`, the program makes exactly the
calls of `tr` and returns `a`. -/
def Exec : Prog S α → List (Event S) → α → Prop
  | .ret b, tr, a => tr = [] ∧ a = b
  | .call c k, tr, a => ∃ r rest, tr = ⟨c, r⟩ :: rest ∧ (k r).Exec rest a

@[simp] theorem exec_ret {a b : α} {tr : List (Event S)} :
    (Prog.ret b : Prog S α).Exec tr a ↔ tr = [] ∧ a = b := Iff.rfl

@[simp] theorem exec_call {c : S.Call} {k : S.Ret c → Prog S α} {a : α}
    {tr : List (Event S)} :
    (Prog.call c k).Exec tr a
      ↔ ∃ r rest, tr = ⟨c, r⟩ :: rest ∧ (k r).Exec rest a := Iff.rfl

/-- A trace of a sequence is a trace of the first program followed by a
trace of the second. -/
theorem exec_bind {p : Prog S α} {f : α → Prog S β} {b : β}
    {tr : List (Event S)} :
    (p >>= f).Exec tr b
      ↔ ∃ tr₁ tr₂ a, tr = tr₁ ++ tr₂ ∧ p.Exec tr₁ a ∧ (f a).Exec tr₂ b := by
  induction p generalizing tr with
  | ret a => simp
  | call c k ih =>
      simp only [call_bind, exec_call, ih]
      constructor
      · rintro ⟨r, rest, rfl, tr₁, tr₂, a, rfl, h₁, h₂⟩
        exact ⟨_ :: tr₁, tr₂, a, rfl, ⟨r, tr₁, rfl, h₁⟩, h₂⟩
      · rintro ⟨_, tr₂, a, rfl, ⟨r, tr₁, rfl, h₁⟩, h₂⟩
        exact ⟨r, tr₁ ++ tr₂, rfl, tr₁, tr₂, a, rfl, h₁, h₂⟩

/-- `P` holds of every trace of the program with its result. Unfolding
it executes the program symbolically, one quantifier per answer. -/
def Traces (P : List (Event S) → α → Prop) : Prog S α → Prop
  | .ret a => P [] a
  | .call c k => ∀ r, (k r).Traces fun tr => P (⟨c, r⟩ :: tr)

@[simp] theorem traces_ret {P : List (Event S) → α → Prop} {a : α} :
    (Prog.ret a : Prog S α).Traces P ↔ P [] a := Iff.rfl

@[simp] theorem traces_call {P : List (Event S) → α → Prop} {c : S.Call}
    {k : S.Ret c → Prog S α} :
    (Prog.call c k).Traces P
      ↔ ∀ r, (k r).Traces fun tr => P (⟨c, r⟩ :: tr) := Iff.rfl

theorem traces_iff {P : List (Event S) → α → Prop} {p : Prog S α} :
    p.Traces P ↔ ∀ tr a, p.Exec tr a → P tr a := by
  induction p generalizing P with
  | ret b =>
      constructor
      · rintro h tr a ⟨rfl, rfl⟩
        exact h
      · intro h
        exact h [] b ⟨rfl, rfl⟩
  | call c k ih =>
      constructor
      · rintro h tr a ⟨r, rest, rfl, hrest⟩
        exact (ih r).mp (h r) rest a hrest
      · intro h r
        rw [ih]
        intro tr a htr
        exact h _ a ⟨r, tr, rfl, htr⟩

theorem traces_bind {P : List (Event S) → β → Prop} {p : Prog S α}
    {f : α → Prog S β} :
    (p >>= f).Traces P
      ↔ p.Traces fun tr a => (f a).Traces fun tr' b => P (tr ++ tr') b := by
  induction p generalizing P with
  | ret a => rfl
  | call c k ih =>
      simp only [call_bind, traces_call]
      exact forall_congr' fun r => ih r

-- ============================================================== oracles

/-- Every value the program can return satisfies `Q`. -/
def Ensures (Q : α → Prop) : Prog S α → Prop
  | .ret a => Q a
  | .call _ k => ∀ r, (k r).Ensures Q

@[simp] theorem ensures_ret {Q : α → Prop} {a : α} :
    (Prog.ret a : Prog S α).Ensures Q ↔ Q a := Iff.rfl

@[simp] theorem ensures_call {Q : α → Prop} {c : S.Call}
    {k : S.Ret c → Prog S α} :
    (Prog.call c k).Ensures Q ↔ ∀ r, (k r).Ensures Q := Iff.rfl

theorem ensures_true (p : Prog S α) : p.Ensures fun _ => True := by
  induction p with
  | ret a => trivial
  | call c k ih => exact ih

/-- The results of a sequence are those of the second program, started
from any result of the first. -/
theorem ensures_bind {Q : β → Prop} {p : Prog S α} {f : α → Prog S β} :
    (p >>= f).Ensures Q ↔ p.Ensures fun a => (f a).Ensures Q := by
  induction p with
  | ret a => rfl
  | call c k ih =>
      simp only [call_bind, ensures_call]
      exact forall_congr' ih

theorem Ensures.mono {P Q : α → Prop} (hPQ : ∀ a, P a → Q a)
    {p : Prog S α} (h : p.Ensures P) : p.Ensures Q := by
  induction p with
  | ret a => exact hPQ a h
  | call c k ih => exact fun r => ih r (h r)

theorem Ensures.of_exec {Q : α → Prop} {p : Prog S α} (h : p.Ensures Q)
    {tr : List (Event S)} {a : α} (hexec : p.Exec tr a) : Q a := by
  induction p generalizing tr with
  | ret b =>
      obtain ⟨-, rfl⟩ := hexec
      exact h
  | call c k ih =>
      obtain ⟨r, rest, -, hrest⟩ := hexec
      exact ih r (h r) hrest

/-- Two continuations that agree on every possible result give the same
program. -/
theorem bind_congr_of_ensures {p : Prog S α} {f g : α → Prog S β}
    (h : p.Ensures fun a => f a = g a) : p >>= f = p >>= g := by
  induction p with
  | ret a => exact h
  | call c k ih =>
      simp only [call_bind]
      congr 1
      funext r
      exact ih r (h r)

/-- Programs with the same calls, whose results look alike through `π`
and `ρ`, go on alike if what follows sees no more than that. -/
theorem bind_congr_of_map {p : Prog S α} {q : Prog S β} {δ : Type}
    {π : α → δ} {ρ : β → δ} {Q : β → Prop} {f : α → Prog S γ}
    {g : β → Prog S γ} (h : π <$> p = ρ <$> q) (hq : q.Ensures Q)
    (hfg : ∀ a b, π a = ρ b → Q b → f a = g b) : p >>= f = q >>= g := by
  induction p generalizing q with
  | ret a =>
      cases q with
      | ret b => exact hfg a b (Prog.ret.inj h) hq
      | call c k => cases h
  | call c k ih =>
      cases q with
      | ret b => cases h
      | call c' k' =>
          injection h with hc hk
          subst hc
          simp only [call_bind]
          congr 1
          funext r
          exact ih r (congrFun (eq_of_heq hk) r) (hq r)

/-- A program that ends by computing its result from the last answer. -/
theorem ensures_bind_pure {Q : β → Prop} {g : α → β} (h : ∀ a, Q (g a))
    (p : Prog S α) : (p >>= fun a => pure (g a)).Ensures Q := by
  induction p with
  | ret a => exact h a
  | call c k ih => exact ih

/-- Every call the program can make, on any branch, satisfies `P`. -/
def Calls (P : S.Call → Prop) : Prog S α → Prop
  | .ret _ => True
  | .call c k => P c ∧ ∀ r, (k r).Calls P

@[simp] theorem calls_ret {P : S.Call → Prop} {a : α} :
    (Prog.ret a : Prog S α).Calls P := trivial

@[simp] theorem calls_call {P : S.Call → Prop} {c : S.Call}
    {k : S.Ret c → Prog S α} :
    (Prog.call c k).Calls P ↔ P c ∧ ∀ r, (k r).Calls P := Iff.rfl

theorem calls_bind {P : S.Call → Prop} {p : Prog S α}
    {f : α → Prog S β} (hp : p.Calls P) (hf : ∀ a, (f a).Calls P) :
    (p >>= f).Calls P := by
  induction p with
  | ret a => exact hf a
  | call c k ih => exact ⟨hp.1, fun r => ih r (hp.2 r)⟩

theorem Calls.mono {P Q : S.Call → Prop} (hPQ : ∀ c, P c → Q c)
    {p : Prog S α} (h : p.Calls P) : p.Calls Q := by
  induction p with
  | ret a => trivial
  | call c k ih => exact ⟨hPQ c h.1, fun r => ih r (h.2 r)⟩

/-- To judge the traces of a program it is enough to know its calls. -/
theorem Calls.traces {C : S.Call → Prop} {P : List (Event S) → α → Prop}
    {p : Prog S α} (h : p.Calls C)
    (hP : ∀ tr a, (∀ e ∈ tr, C e.1) → P tr a) : p.Traces P := by
  induction p generalizing P with
  | ret a => exact hP [] a (by simp)
  | call c k ih =>
      intro r
      refine ih r (h.2 r) fun tr a htr => hP _ a ?_
      simp only [List.forall_mem_cons]
      exact ⟨h.1, htr⟩

/-- `P` holds of the program and of whatever can be left of it. -/
def Always (P : Prog S α → Prop) : Prog S α → Prop
  | .ret a => P (.ret a)
  | .call c k => P (.call c k) ∧ ∀ r, (k r).Always P

theorem Always.head {P : Prog S α → Prop} {p : Prog S α}
    (h : p.Always P) : P p := by
  cases p with
  | ret a => exact h
  | call c k => exact h.1

/-- A call in `P` is the last one on its branch. -/
def Final (P : S.Call → Prop) : Prog S α → Prop
  | .ret _ => True
  | .call c k => (P c → ∀ r, ∃ a, k r = .ret a) ∧ ∀ r, (k r).Final P

theorem Calls.final {P : S.Call → Prop} {p : Prog S α}
    (h : p.Calls fun c => ¬ P c) : p.Final P := by
  induction p with
  | ret a => trivial
  | call c k ih => exact ⟨fun hc => absurd hc h.1, fun r => ih r (h.2 r)⟩

/-- Computing the result from the last answer adds no call. -/
theorem Final.map {P : S.Call → Prop} {p : Prog S α} (g : α → β)
    (hp : p.Final P) : (p >>= fun a => pure (g a)).Final P := by
  induction p with
  | ret a => trivial
  | call c k ih =>
      refine ⟨fun hc r => ?_, fun r => ih r (hp.2 r)⟩
      obtain ⟨a, ha⟩ := hp.1 hc r
      refine ⟨g a, ?_⟩
      show k r >>= (fun a => pure (g a)) = .ret (g a)
      rw [ha]
      rfl

end Prog

end Effect

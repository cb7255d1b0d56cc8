/-
Clients of a multi-version store, one operation at a time each.

A client invokes an operation, a program over the store's calls; the
machine answers its calls one by one, in any order among the clients;
when the program has returned, the client may go on to another. What a
machine run leaves behind is a history: for every operation who ran it,
the calls it made with their answers and outcomes, and which operations
were answered when it was invoked. An operation counts as answered from
its last call on, not only when its client moves on: whoever waits for
that call to be made need not wait for more.

An operation may hand a transaction over to its client's next one
(`keep`). The operations that are to appear atomic are marked; the
others run along with them. Two disciplines are asked of an operation
when it is invoked (`Admits`): a marked one keeps to a single
transaction, the others only read and handle their own transactions.
-/
import FineDB.Lib.Mvcc
import FineDB.Lib.Run

namespace Mvcc

open Effect

/-- One operation of the history. -/
structure Op (A L : Signature) (O ι α : Type) where
  client : Nat
  label : ι
  /-- what is left of the program -/
  rest : Prog (txnSig A L) α
  outs : List O
  trace : List (Event (txnSig A L))
  /-- the operations answered when this one was invoked -/
  seen : List Nat

/-- The operation after event `e`, which had outcome `o`, with `p` left
to do. -/
def Op.after {A L : Signature} {O ι α : Type} (x : Op A L O ι α) (o : O)
    (e : Event (txnSig A L)) (p : Prog (txnSig A L) α) : Op A L O ι α :=
  { x with rest := p, outs := x.outs ++ [o], trace := x.trace ++ [e] }

/-- The store, the history, and where every client stands. -/
structure Cfg (A L : Signature) (D O ι α : Type) where
  db : State D
  op : Nat → Option (Op A L O ι α)
  count : Nat
  cur : Nat → Option Nat
  kept : Nat → Option Nat
  answered : List Nat

inductive Act (O ι : Type)
  | invoke (c : Nat) (l : ι)
  | call (c : Nat) (o : O)
  | respond (c : Nat)

/-- What the machine is about: the meaning of calls, the program of
each label, which labels are marked atomic, and the transaction a
result hands over. -/
structure Rules (A L : Signature) (D O ι α : Type) where
  sem : Sem A L D O
  prog : ι → Prog (txnSig A L) α
  atomic : ι → Bool
  keep : α → Option Nat

namespace Cfg

variable {A L : Signature} {D O ι α : Type}

/-- No operation yet. -/
def init (d : D) (n : Nat) : Cfg A L D O ι α where
  db := State.blank d n
  op := fun _ => none
  count := 0
  cur := fun _ => none
  kept := fun _ => none
  answered := []

variable (R : Rules A L D O ι α)

/-- Operation `i` has `p` left to do: if that is nothing, it is
answered. -/
def finish (s : Cfg A L D O ι α) (i : Nat) :
    Prog (txnSig A L) α → Cfg A L D O ι α
  | .ret _ => { s with answered := s.answered.insert i }
  | .call _ _ => s

/-- One call of operation `x`, which client `c` runs under number
`i`. -/
def advance (s : Cfg A L D O ι α) (i : Nat) (x : Op A L O ι α) (o : O) :
    Option (Cfg A L D O ι α) :=
  match x.rest with
  | .ret _ => none
  | .call cl k =>
      (Mvcc.step R.sem o s.db cl).map fun y =>
        { s with
          db := y.2
          op := Function.update s.op i
            (some (x.after o ⟨cl, y.1⟩ (k y.1))) }.finish i (k y.1)

/-- The client of operation `x`, which has returned, moves on. -/
def conclude (s : Cfg A L D O ι α) (c i : Nat) (x : Op A L O ι α) :
    Option (Cfg A L D O ι α) :=
  match x.rest with
  | .ret a =>
      some
        { s with
          cur := Function.update s.cur c none
          kept := Function.update s.kept c (R.keep a)
          answered := s.answered.insert i }
  | .call _ _ => none

/-- The operation a client is running. -/
def running (s : Cfg A L D O ι α) (c : Nat) :
    Option (Nat × Op A L O ι α) :=
  (s.cur c).bind fun i => (s.op i).map fun x => (i, x)

def step : Act O ι → Cfg A L D O ι α → Option (Cfg A L D O ι α)
  | .invoke c l, s =>
      if s.cur c = none then
        some
          { s with
            op := Function.update s.op s.count
              (some ⟨c, l, R.prog l, [], [], s.answered⟩)
            count := s.count + 1
            cur := Function.update s.cur c (some s.count) }
      else none
  | .call c o, s => (s.running c).bind fun y => s.advance R y.1 y.2 o
  | .respond c, s => (s.running c).bind fun y => s.conclude R c y.1 y.2

/-- The disciplines, asked of an operation at its invocation. -/
def Admits (s : Cfg A L D O ι α) : Act O ι → Prop
  | .invoke c l =>
      if R.atomic l then
        SingleTxn .idle (R.prog l)
          ∧ (R.prog l).Ensures fun a => R.keep a = none
      else
        Disc R.keep (s.kept c).toList [] (R.prog l) ∧ ReadOnly (R.prog l)
  | _ => True

-- ====================================================== inversion lemmas

variable {R} {s s' : Cfg A L D O ι α} {c i : Nat} {x : Op A L O ι α}

theorem running_eq_some :
    s.running c = some (i, x) ↔ s.cur c = some i ∧ s.op i = some x := by
  simp only [running, Option.bind_eq_some_iff, Option.map_eq_some_iff,
    Prod.mk.injEq]
  constructor
  · rintro ⟨j, hj, y, hy, rfl, rfl⟩
    exact ⟨hj, hy⟩
  · rintro ⟨hi, hx⟩
    exact ⟨i, hi, x, hx, rfl, rfl⟩

theorem step_invoke {l : ι} (h : step R (.invoke c l) s = some s') :
    s.cur c = none ∧ s' =
      { s with
        op := Function.update s.op s.count
          (some ⟨c, l, R.prog l, [], [], s.answered⟩)
        count := s.count + 1
        cur := Function.update s.cur c (some s.count) } := by
  simp only [step] at h
  split at h
  next hc =>
    cases h
    exact ⟨hc, rfl⟩
  next => cases h

/-- A call step answers the pending call of the client's operation. -/
theorem step_call {o : O} (h : step R (.call c o) s = some s') :
    ∃ i x cl k r db, s.cur c = some i ∧ s.op i = some x
      ∧ x.rest = .call cl k ∧ Mvcc.step R.sem o s.db cl = some (r, db)
      ∧ s' = { s with
          db := db
          op := Function.update s.op i
            (some (x.after o ⟨cl, r⟩ (k r))) }.finish i (k r) := by
  simp only [step, Option.bind_eq_some_iff] at h
  obtain ⟨⟨i, x⟩, hrun, h⟩ := h
  obtain ⟨hi, hx⟩ := running_eq_some.mp hrun
  simp only [advance] at h
  split at h
  · cases h
  next cl k hrest =>
    obtain ⟨⟨r, db⟩, hstep, heq⟩ := Option.map_eq_some_iff.mp h
    exact ⟨i, x, cl, k, r, db, hi, hx, hrest, hstep, heq.symm⟩

theorem step_respond (h : step R (.respond c) s = some s') :
    ∃ i x a, s.cur c = some i ∧ s.op i = some x ∧ x.rest = .ret a
      ∧ s' = { s with
          cur := Function.update s.cur c none
          kept := Function.update s.kept c (R.keep a)
          answered := s.answered.insert i } := by
  simp only [step, Option.bind_eq_some_iff] at h
  obtain ⟨⟨i, x⟩, hrun, h⟩ := h
  obtain ⟨hi, hx⟩ := running_eq_some.mp hrun
  simp only [conclude] at h
  split at h
  next a hrest =>
    cases h
    exact ⟨i, x, a, hi, hx, hrest, rfl⟩
  next => cases h

@[simp] theorem finish_op (s : Cfg A L D O ι α) (i : Nat)
    (p : Prog (txnSig A L) α) : (s.finish i p).op = s.op := by
  cases p with
  | ret a => rfl
  | call c k => rfl

@[simp] theorem finish_db (s : Cfg A L D O ι α) (i : Nat)
    (p : Prog (txnSig A L) α) : (s.finish i p).db = s.db := by
  cases p with
  | ret a => rfl
  | call c k => rfl

@[simp] theorem finish_cur (s : Cfg A L D O ι α) (i : Nat)
    (p : Prog (txnSig A L) α) : (s.finish i p).cur = s.cur := by
  cases p with
  | ret a => rfl
  | call c k => rfl

@[simp] theorem finish_kept (s : Cfg A L D O ι α) (i : Nat)
    (p : Prog (txnSig A L) α) : (s.finish i p).kept = s.kept := by
  cases p with
  | ret a => rfl
  | call c k => rfl

@[simp] theorem finish_count (s : Cfg A L D O ι α) (i : Nat)
    (p : Prog (txnSig A L) α) : (s.finish i p).count = s.count := by
  cases p with
  | ret a => rfl
  | call c k => rfl

/-- What holds of every operation: true of a new one, kept by every call
of its own. -/
theorem ops_step {J : Nat → Op A L O ι α → Prop} {a : Act O ι}
    (h : ∀ i x, s.op i = some x → J i x) (hs : step R a s = some s')
    (hnew : ∀ c l, a = .invoke c l →
      J s.count ⟨c, l, R.prog l, [], [], s.answered⟩)
    (hcall : ∀ c o i x cl k r db, a = .call c o → s.cur c = some i →
      s.op i = some x → x.rest = .call cl k →
      Mvcc.step R.sem o s.db cl = some (r, db) → J i x →
      J i (x.after o ⟨cl, r⟩ (k r))) :
    ∀ i x, s'.op i = some x → J i x := by
  intro j y hy
  cases a with
  | invoke c l =>
      obtain ⟨-, rfl⟩ := step_invoke hs
      by_cases hj : j = s.count
      · subst hj
        simp only [Function.update_self, Option.some.injEq] at hy
        rw [← hy]
        exact hnew c l rfl
      · simp only [Function.update_of_ne hj] at hy
        exact h j y hy
  | call c o =>
      obtain ⟨i, x, cl, k, r, db, hi, hx, hrest, hstep, rfl⟩ := step_call hs
      rw [finish_op] at hy
      by_cases hj : j = i
      · subst hj
        simp only [Function.update_self, Option.some.injEq] at hy
        rw [← hy]
        exact hcall c o j x cl k r db rfl hi hx hrest hstep (h j x hx)
      · simp only [Function.update_of_ne hj] at hy
        exact h j y hy
  | respond c =>
      obtain ⟨i, x, a, -, -, -, rfl⟩ := step_respond hs
      exact h j y hy

/-- An operation that has made its last call is answered. -/
def Finished (s : Cfg A L D O ι α) : Prop :=
  ∀ i x a, s.op i = some x → x.trace ≠ [] → x.rest = .ret a →
    i ∈ s.answered

end Cfg

end Mvcc

/-
A single-writer, multi-version store, and the programs that use it.

# The store

The committed data, the open transactions, and the one write lock. A
transaction sees the data committed when it began; a read-only one
keeps seeing that, a write transaction works on a private copy that a
successful commit publishes. Beginning a write transaction takes the
lock, ending it (commit, failed commit or abort) gives it back. What
the data are and what one access does to them is a parameter
(`Sem.access`), with the single law that an access through a read-only
transaction changes nothing.

Every call can fail: the outcome that decides comes from outside
(`O`), so quantifying over outcomes quantifies over failures. A failed
commit ends its transaction. Ending a transaction that has ended
already does nothing to the store; an access through one has no
behaviour at all (`step` is `none`), and `Disc` below is the discipline
that never attempts it.

# The programs

Programs are call trees over `txnSig A L`: the four transaction calls,
data accesses `A`, and any other calls `L`. Two disciplines are stated
on the tree itself, so that they are checked once per program and used
for every schedule:

- `Disc`: a program ends and accesses only transactions of its own,
  accesses none after its end, and hands over to its successor only a
  transaction that is still open;
- `SingleTxn`: at most one transaction, everything between its begin
  and its end, never left open if it can write.
-/
import FineDB.Lib.Prog
import Mathlib.Logic.Function.Basic
import Mathlib.Data.Option.Basic

namespace Mvcc

open Effect

-- ======================================================== the signature

/-- The calls of a program that uses the store. -/
inductive TxnCall (A L : Signature) : Type
  | txnBegin (rdonly : Bool)
  | commit (t : Nat)
  | abort (t : Nat)
  | access (t : Nat) (a : A.Call)
  | other (l : L.Call)

/-- The answers: a fresh transaction or a refusal, success or failure
of a commit, whatever an access or another call returns. -/
@[reducible] def TxnCall.Ret {A L : Signature} : TxnCall A L → Type
  | .txnBegin _ => Option Nat
  | .commit _ => Bool
  | .abort _ => Unit
  | .access _ a => A.Ret a
  | .other l => L.Ret l

/-- Transaction calls, accesses and other calls as one signature. -/
@[reducible] def txnSig (A L : Signature) : Signature where
  Call := TxnCall A L
  Ret := TxnCall.Ret

-- ============================================================ the store

/-- An open transaction: its mode and the data it sees. -/
structure Txn (D : Type) where
  rdonly : Bool
  view : D

/-- The store: committed data, open transactions by handle, the holder
of the write lock, the next handle. -/
structure State (D : Type) where
  store : D
  txns : Nat → Option (Txn D)
  writer : Option Nat
  next : Nat

/-- What outcomes mean: whether a transaction call succeeds, what an
access answers and how it changes the transaction's view, what any
other call answers. -/
structure Sem (A L : Signature) (D O : Type) where
  ok : O → Bool
  access : O → Bool → (a : A.Call) → D → A.Ret a × D
  access_rdonly : ∀ o a d, (access o true a d).2 = d
  other : O → (l : L.Call) → L.Ret l

variable {A L : Signature} {D O : Type}

/-- A store nobody uses. -/
def State.blank (d : D) (n : Nat) : State D where
  store := d
  txns := fun _ => none
  writer := none
  next := n

/-- End a transaction: its handle designates nothing any more, and the
lock is free if it held it. -/
def State.close (m : State D) (t : Nat) : State D :=
  { m with
    txns := Function.update m.txns t none
    writer := if m.writer = some t then none else m.writer }

/-- Open transaction `m.next` on the committed data. -/
def State.openTxn (m : State D) (rdonly : Bool) : State D :=
  { m with
    txns := Function.update m.txns m.next (some ⟨rdonly, m.store⟩)
    writer := if rdonly then m.writer else some m.next
    next := m.next + 1 }

/-- Replace the view of a transaction. -/
def State.setView (m : State D) (t : Nat) (x : Txn D) : State D :=
  { m with txns := Function.update m.txns t (some x) }

/-- One call answered by the store. `none`: the call waits (a second
write transaction) or has no behaviour (an access through an ended
transaction). -/
def step (sem : Sem A L D O) (o : O) (m : State D) :
    (c : TxnCall A L) → Option (c.Ret × State D)
  | .txnBegin rdonly =>
      if sem.ok o then
        if rdonly = false ∧ m.writer.isSome then none
        else some (some m.next, m.openTxn rdonly)
      else some (none, m)
  | .commit t =>
      match m.txns t with
      | some x =>
          if sem.ok o then
            some (true, { m.close t with
              store := if x.rdonly then m.store else x.view })
          else some (false, m.close t)
      | none => some (false, m)
  | .abort t => some ((), m.close t)
  | .access t a =>
      match m.txns t with
      | some x =>
          some ((sem.access o x.rdonly a x.view).1,
            m.setView t { x with
              view := (sem.access o x.rdonly a x.view).2 })
      | none => none
  | .other l => some (sem.other o l, m)

/-- The transactions a call is about. -/
def TxnCall.about : TxnCall A L → List Nat
  | .commit t => [t]
  | .abort t => [t]
  | .access t _ => [t]
  | _ => []

-- ====================================================== what a step does

variable {sem : Sem A L D O} {o : O} {m m' : State D}

/-- A begin opens the next transaction, or fails and changes nothing. -/
theorem step_begin {rdonly : Bool} {r : Option Nat}
    (h : step sem o m (.txnBegin rdonly) = some (r, m')) :
    (sem.ok o = true ∧ (rdonly = true ∨ m.writer = none)
        ∧ r = some m.next ∧ m' = m.openTxn rdonly)
      ∨ (sem.ok o = false ∧ r = none ∧ m' = m) := by
  simp only [step] at h
  split at h
  next hok =>
    split at h
    · cases h
    next hfree =>
      cases h
      refine Or.inl ⟨hok, ?_, rfl, rfl⟩
      cases rdonly with
      | true => exact Or.inl rfl
      | false => exact Or.inr (by simpa using hfree)
  next hok =>
    cases h
    exact Or.inr ⟨by simpa using hok, rfl, rfl⟩

/-- A commit ends an open transaction, publishing a written view on
success, or meets one that has ended and changes nothing. -/
theorem step_commit {t : Nat} {b : Bool}
    (h : step sem o m (.commit t) = some (b, m')) :
    (∃ x, m.txns t = some x ∧ b = sem.ok o
        ∧ m' = { m.close t with
            store := if b = true ∧ x.rdonly = false then x.view
              else m.store })
      ∨ (m.txns t = none ∧ b = false ∧ m' = m) := by
  simp only [step] at h
  split at h
  next x hx =>
    refine Or.inl ⟨x, hx, ?_⟩
    split at h
    next hok =>
      cases h
      refine ⟨hok.symm, ?_⟩
      cases x.rdonly <;> rfl
    next hok =>
      cases h
      refine ⟨by simpa using hok, ?_⟩
      rw [if_neg (by simp)]
      rfl
  next hx =>
    cases h
    exact Or.inr ⟨hx, rfl, rfl⟩

theorem step_abort {t : Nat} {r : Unit}
    (h : step sem o m (.abort t) = some (r, m')) : m' = m.close t := by
  cases h
  rfl

/-- An access meets an open transaction and changes only its view. -/
theorem step_access {t : Nat} {a : A.Call} {r : A.Ret a}
    (h : step sem o m (.access t a) = some (r, m')) :
    ∃ x, m.txns t = some x ∧ r = (sem.access o x.rdonly a x.view).1
      ∧ m' = m.setView t { x with
          view := (sem.access o x.rdonly a x.view).2 } := by
  simp only [step] at h
  split at h
  next x hx =>
    cases h
    exact ⟨x, hx, rfl, rfl⟩
  next => cases h

theorem step_other {l : L.Call} {r : L.Ret l}
    (h : step sem o m (.other l) = some (r, m')) :
    r = sem.other o l ∧ m' = m := by
  cases h
  exact ⟨rfl, rfl⟩

variable {x : Txn D} {t : Nat}

/-- What a commit of an open transaction answers and does. -/
theorem step_commit_open (hx : m.txns t = some x) :
    step sem o m (.commit t) = some (sem.ok o,
      { m.close t with
        store := if sem.ok o = true ∧ x.rdonly = false then x.view
          else m.store }) := by
  cases hok : sem.ok o with
  | false =>
      simp only [step, hx, hok]
      rfl
  | true =>
      cases hrd : x.rdonly with
      | false => simp [step, hx, hok, hrd]
      | true => simp [step, hx, hok, hrd]

/-- What an access through an open transaction answers and does. -/
theorem step_access_open {a : A.Call} (hx : m.txns t = some x) :
    step sem o m (.access t a)
      = some ((sem.access o x.rdonly a x.view).1,
          m.setView t { x with
            view := (sem.access o x.rdonly a x.view).2 }) := by
  simp only [step, hx]

-- ========================================================= frame lemmas

@[simp] theorem close_txns (m : State D) (t : Nat) :
    (m.close t).txns = Function.update m.txns t none := rfl

@[simp] theorem close_store (m : State D) (t : Nat) :
    (m.close t).store = m.store := rfl

@[simp] theorem close_next (m : State D) (t : Nat) :
    (m.close t).next = m.next := rfl

@[simp] theorem setView_txns (m : State D) (t : Nat) (x : Txn D) :
    (m.setView t x).txns = Function.update m.txns t (some x) := rfl

/-- Handles are never reused. -/
theorem step_next_le {c : TxnCall A L} {r : c.Ret}
    (h : step sem o m c = some (r, m')) : m.next ≤ m'.next := by
  cases c with
  | txnBegin rdonly =>
      obtain ⟨-, -, -, rfl⟩ | ⟨-, -, rfl⟩ := step_begin h
      · exact Nat.le_succ _
      · exact Nat.le_refl _
  | commit t =>
      obtain ⟨x, -, -, rfl⟩ | ⟨-, -, rfl⟩ := step_commit h
      · exact Nat.le_refl _
      · exact Nat.le_refl _
  | abort t =>
      rw [step_abort h]
      exact Nat.le_refl _
  | access t a =>
      obtain ⟨x, -, -, rfl⟩ := step_access h
      exact Nat.le_refl _
  | other l =>
      obtain ⟨-, rfl⟩ := step_other h
      exact Nat.le_refl _

/-- A call leaves alone every existing transaction it is not about. -/
theorem step_txns_frame {c : TxnCall A L} {r : c.Ret}
    (h : step sem o m c = some (r, m')) {t : Nat}
    (hlt : t < m.next) (hab : t ∉ c.about) : m'.txns t = m.txns t := by
  cases c with
  | txnBegin rdonly =>
      obtain ⟨-, -, -, rfl⟩ | ⟨-, -, rfl⟩ := step_begin h
      · exact Function.update_of_ne (by omega) _ _
      · rfl
  | commit u =>
      have hne : t ≠ u := by simpa [TxnCall.about] using hab
      obtain ⟨x, -, -, rfl⟩ | ⟨-, -, rfl⟩ := step_commit h
      · exact Function.update_of_ne hne _ _
      · rfl
  | abort u =>
      have hne : t ≠ u := by simpa [TxnCall.about] using hab
      rw [step_abort h]
      exact Function.update_of_ne hne _ _
  | access u a =>
      have hne : t ≠ u := by simpa [TxnCall.about] using hab
      obtain ⟨x, -, -, rfl⟩ := step_access h
      exact Function.update_of_ne hne _ _
  | other l =>
      rw [(step_other h).2]

/-- A commit that succeeded. -/
def Commits : Event (txnSig A L) → Prop
  | ⟨.commit _, ok⟩ => ok = true
  | _ => False

/-- Only a commit changes the committed data. -/
theorem step_store_frame {c : TxnCall A L} {r : c.Ret}
    (h : step sem o m c = some (r, m'))
    (hc : ¬ Commits (A := A) (L := L) ⟨c, r⟩) : m'.store = m.store := by
  cases c with
  | txnBegin rdonly =>
      obtain ⟨-, -, -, rfl⟩ | ⟨-, -, rfl⟩ := step_begin h
      · rfl
      · rfl
  | commit u =>
      obtain ⟨x, -, -, rfl⟩ | ⟨-, -, rfl⟩ := step_commit h
      · exact if_neg fun hb => hc hb.1
      · rfl
  | abort u =>
      rw [step_abort h]
      rfl
  | access u a =>
      obtain ⟨x, -, -, rfl⟩ := step_access h
      rfl
  | other l =>
      rw [(step_other h).2]

/-- The lock is held by an open write transaction. -/
def LockOk (m : State D) : Prop :=
  ∀ t, m.writer = some t →
    t < m.next ∧ ∃ x, m.txns t = some x ∧ x.rdonly = false

theorem lockOk_blank (d : D) (n : Nat) : LockOk (State.blank d n) := by
  intro t ht
  cases ht

private theorem lockOk_close (h : LockOk m) (u : Nat) :
    LockOk (m.close u) := by
  intro t ht
  simp only [State.close] at ht
  split at ht
  · cases ht
  next hu =>
    obtain ⟨hlt, x, hx, hwr⟩ := h t ht
    have hne : t ≠ u := by
      rintro rfl
      exact hu ht
    exact ⟨hlt, x, (Function.update_of_ne hne _ _).trans hx, hwr⟩

theorem step_lockOk {c : TxnCall A L} {r : c.Ret} (hm : LockOk m)
    (h : step sem o m c = some (r, m')) : LockOk m' := by
  cases c with
  | txnBegin rdonly =>
      obtain ⟨-, -, -, rfl⟩ | ⟨-, -, rfl⟩ := step_begin h
      · intro t ht
        cases rdonly with
        | true =>
            obtain ⟨hlt, x, hx, hwr⟩ := hm t ht
            exact ⟨Nat.lt_succ_of_lt hlt, x,
              (Function.update_of_ne (by omega) _ _).trans hx, hwr⟩
        | false =>
            cases ht
            exact ⟨Nat.lt_succ_self _, _, Function.update_self .., rfl⟩
      · exact hm
  | commit t =>
      obtain ⟨x, -, -, rfl⟩ | ⟨-, -, rfl⟩ := step_commit h
      · exact lockOk_close hm t
      · exact hm
  | abort t =>
      cases step_abort h
      exact lockOk_close hm t
  | access u a =>
      obtain ⟨y, hy, -, rfl⟩ := step_access h
      intro t ht
      obtain ⟨hlt, x, hx, hwr⟩ := hm t ht
      by_cases htu : t = u
      · subst htu
        cases hx.symm.trans hy
        exact ⟨hlt, _, Function.update_self .., hwr⟩
      · exact ⟨hlt, x, (Function.update_of_ne htu _ _).trans hx, hwr⟩
  | other l =>
      obtain ⟨-, rfl⟩ := step_other h
      exact hm

-- ==================================================== a program, alone

variable {α : Type}

/-- Run a program by itself, one outcome per call: the calls it made
with their answers, what is left of it, and the store it leaves. -/
def exec (sem : Sem A L D O) : List O → State D → Prog (txnSig A L) α →
    Option (List (Event (txnSig A L)) × Prog (txnSig A L) α × State D)
  | [], m, p => some ([], p, m)
  | _ :: _, _, .ret _ => none
  | o :: os, m, .call c k =>
      (step sem o m c).bind fun x =>
        (exec sem os x.2 (k x.1)).map fun y => (⟨c, x.1⟩ :: y.1, y.2)

/-- A run that makes a call is one step and a run of the rest. -/
theorem exec_cons {os : List O} {c : TxnCall A L}
    {k : c.Ret → Prog (txnSig A L) α} {p' : Prog (txnSig A L) α}
    {tr : List (Event (txnSig A L))}
    (h : exec sem (o :: os) m (.call c k) = some (tr, p', m')) :
    ∃ r m₁ tr', step sem o m c = some (r, m₁)
      ∧ exec sem os m₁ (k r) = some (tr', p', m') ∧ tr = ⟨c, r⟩ :: tr' := by
  simp only [exec, Option.bind_eq_some_iff, Option.map_eq_some_iff] at h
  obtain ⟨⟨r, m₁⟩, hstep, ⟨tr', p'', m''⟩, hrest, heq⟩ := h
  cases heq
  exact ⟨r, m₁, tr', hstep, hrest, rfl⟩

/-- One more call at the end of a run. -/
theorem exec_snoc {os : List O} {p : Prog (txnSig A L) α}
    {tr : List (Event (txnSig A L))} {c : TxnCall A L}
    {k : c.Ret → Prog (txnSig A L) α} {m₀ : State D} {r : c.Ret}
    (hrun : exec sem os m₀ p = some (tr, .call c k, m))
    (hstep : step sem o m c = some (r, m')) :
    exec sem (os ++ [o]) m₀ p = some (tr ++ [⟨c, r⟩], k r, m') := by
  induction os generalizing m₀ p tr with
  | nil =>
      cases hrun
      simp [exec, hstep]
  | cons o' os ih =>
      cases p with
      | ret a => cases hrun
      | call c' k' =>
          obtain ⟨r', m₁, tr', hx, hrest, rfl⟩ := exec_cons hrun
          rw [List.cons_append, exec, hx, Option.bind_some, ih hrest]
          rfl

/-- What a finished run has done is a trace of the program. -/
theorem exec_trace {os : List O} {p : Prog (txnSig A L) α} {a : α}
    {tr : List (Event (txnSig A L))}
    (h : exec sem os m p = some (tr, .ret a, m')) : p.Exec tr a := by
  induction os generalizing m p tr with
  | nil =>
      cases h
      exact ⟨rfl, rfl⟩
  | cons o os ih =>
      cases p with
      | ret a => cases h
      | call c k =>
          obtain ⟨r, m₁, tr', -, hrest, rfl⟩ := exec_cons h
          exact ⟨r, tr', rfl, ih hrest⟩

/-- The calls a run has made are calls of the program. -/
theorem exec_calls {P : TxnCall A L → Prop} {os : List O}
    {p p' : Prog (txnSig A L) α} {tr : List (Event (txnSig A L))}
    (hp : p.Calls P) (h : exec sem os m p = some (tr, p', m')) :
    ∀ e ∈ tr, P e.1 := by
  induction os generalizing m p tr with
  | nil =>
      cases h
      simp
  | cons o os ih =>
      cases p with
      | ret a => cases h
      | call c k =>
          obtain ⟨r, m₁, tr', -, hrest, rfl⟩ := exec_cons h
          rw [List.forall_mem_cons]
          exact ⟨hp.1, ih (hp.2 r) hrest⟩

/-- A run in which no commit succeeds leaves the committed data
alone. -/
theorem exec_store_eq {os : List O} {p p' : Prog (txnSig A L) α}
    {tr : List (Event (txnSig A L))} (m : State D)
    (htr : ∀ e ∈ tr, ¬ Commits e)
    (hrun : exec sem os m p = some (tr, p', m')) :
    m'.store = m.store := by
  induction os generalizing m p tr with
  | nil =>
      cases hrun
      rfl
  | cons o os ih =>
      cases p with
      | ret a => cases hrun
      | call c k =>
          obtain ⟨r, m₁, tr', hstep, hrest, rfl⟩ := exec_cons hrun
          rw [List.forall_mem_cons] at htr
          rw [ih m₁ htr.2 hrest]
          exact step_store_frame hstep htr.1

-- ====================================================== the disciplines

section Disciplines

variable (keep : α → Option Nat)

/-- The ownership discipline. `live` and `dead` are the program's own
transactions, open and ended; `keep` names the one a result hands
over. -/
def Disc : List Nat → List Nat → Prog (txnSig A L) α → Prop
  | live, _, .ret a => ∀ t, keep a = some t → t ∈ live
  | live, dead, .call (TxnCall.txnBegin _) k =>
      Disc live dead (k none)
        ∧ ∀ t, t ∉ live → t ∉ dead → Disc (t :: live) dead (k (some t))
  | live, dead, .call (TxnCall.commit t) k =>
      t ∈ live ∧ ∀ b, Disc (live.erase t) (t :: dead) (k b)
  | live, dead, .call (TxnCall.abort t) k =>
      (t ∈ live ∨ t ∈ dead) ∧ Disc (live.erase t) (t :: dead) (k ())
  | live, dead, .call (TxnCall.access t _) k =>
      t ∈ live ∧ ∀ r, Disc live dead (k r)
  | live, dead, .call (TxnCall.other _) k => ∀ r, Disc live dead (k r)

/-- No write transaction is begun and nothing is committed. -/
def ReadOnly (p : Prog (txnSig A L) α) : Prop :=
  p.Calls fun c : TxnCall A L => c ≠ .txnBegin false ∧ ∀ t, c ≠ .commit t

/-- Where a single-transaction program stands. -/
inductive Phase
  | idle
  | rd (t : Nat)
  | wr (t : Nat)
  | ended (t : Nat)

/-- The phase after a begin. -/
def Phase.opened (rdonly : Bool) (t : Nat) : Phase :=
  if rdonly then .rd t else .wr t

/-- A program that keeps to one transaction, every access and the end of
it between its one begin and its end, and returns with result and phase
in `Q`. A second end of the ended transaction is tolerated. -/
def Within (Q : α → Phase → Prop) : Phase → Prog (txnSig A L) α → Prop
  | ph, .ret a => Q a ph
  | ph, .call (TxnCall.txnBegin rdonly) k =>
      ph = .idle ∧ Within Q .idle (k none)
        ∧ ∀ t, Within Q (.opened rdonly t) (k (some t))
  | ph, .call (TxnCall.commit t) k =>
      ph = .wr t ∧ ∀ b, Within Q (.ended t) (k b)
  | ph, .call (TxnCall.abort t) k =>
      (ph = .rd t ∨ ph = .wr t ∨ ph = .ended t) ∧ Within Q (.ended t) (k ())
  | ph, .call (TxnCall.access t _) k =>
      (ph = .rd t ∨ ph = .wr t) ∧ ∀ r, Within Q ph (k r)
  | ph, .call (TxnCall.other _) k => ∀ r, Within Q ph (k r)

/-- No write transaction is open. -/
def Phase.Settled (ph : Phase) : Prop := ∀ t, ph ≠ .wr t

/-- The single-transaction discipline: a write transaction is not left
open. -/
def SingleTxn (ph : Phase) (p : Prog (txnSig A L) α) : Prop :=
  Within (fun _ ph' => ph'.Settled) ph p

end Disciplines

-- ======================================== what establishes a discipline

variable {β : Type} {p : Prog (txnSig A L) α}
  {f : α → Prog (txnSig A L) β}

theorem within_bind {Q : β → Phase → Prop} {ph : Phase} :
    Within Q ph (p >>= f)
      ↔ Within (fun a ph' => Within Q ph' (f a)) ph p := by
  induction p generalizing ph with
  | ret a => rfl
  | call c k ih =>
      cases c with
      | txnBegin rdonly =>
          exact and_congr_right' (and_congr (ih none)
            (forall_congr' fun t => ih (some t)))
      | commit t => exact and_congr_right' (forall_congr' fun b => ih b)
      | abort t => exact and_congr_right' (ih ())
      | access t a => exact and_congr_right' (forall_congr' fun r => ih r)
      | other l => exact forall_congr' fun r => ih r

/-- A call that uses no transaction but those of a list, and begins and
ends none. -/
def TxnCall.Through (live : List Nat) : TxnCall A L → Prop
  | .access t _ => t ∈ live
  | .other _ => True
  | _ => False

theorem TxnCall.Through.mono {live live' : List Nat} (h : live ⊆ live')
    {c : TxnCall A L} (hc : c.Through live) : c.Through live' := by
  cases c with
  | access t a => exact h hc
  | other l => trivial
  | txnBegin rdonly => cases hc
  | commit t => cases hc
  | abort t => cases hc

/-- A program that uses no transaction stays in its phase. -/
theorem within_of_through {Q : α → Phase → Prop} {ph : Phase}
    (hp : p.Calls (TxnCall.Through [])) (hQ : p.Ensures fun a => Q a ph) :
    Within Q ph p := by
  induction p with
  | ret a => exact hQ
  | call c k ih =>
      cases c with
      | other l => exact fun r => ih r (hp.2 r) (hQ r)
      | access t a => cases hp.1
      | txnBegin rdonly => cases hp.1
      | commit t => cases hp.1
      | abort t => cases hp.1

theorem Within.mono {Q Q' : α → Phase → Prop} {ph : Phase}
    (hQ : ∀ a ph, Q a ph → Q' a ph) (h : Within Q ph p) :
    Within Q' ph p := by
  induction p generalizing ph with
  | ret a => exact hQ a ph h
  | call c k ih =>
      cases c with
      | txnBegin rdonly =>
          exact ⟨h.1, ih none h.2.1, fun t => ih (some t) (h.2.2 t)⟩
      | commit t => exact ⟨h.1, fun b => ih b (h.2 b)⟩
      | abort t => exact ⟨h.1, ih () h.2⟩
      | access t a => exact ⟨h.1, fun r => ih r (h.2 r)⟩
      | other l => exact fun r => ih r (h r)

/-- What uses no transaction can follow a single one. -/
theorem SingleTxn.bind_through {ph : Phase} (hp : SingleTxn ph p)
    (hf : ∀ a, (f a).Calls (TxnCall.Through [])) :
    SingleTxn ph (p >>= f) := by
  refine within_bind.mpr (Within.mono (fun a ph' hph' => ?_) hp)
  exact within_of_through (hf a)
    ((f a).ensures_true.mono fun _ _ => hph')

/-- What uses no transaction can precede a single one. -/
theorem SingleTxn.after_through {ph : Phase}
    (hp : p.Calls (TxnCall.Through []))
    (hf : ∀ a, SingleTxn ph (f a)) : SingleTxn ph (p >>= f) :=
  within_bind.mpr (within_of_through hp
    (p.ensures_true.mono fun a _ => hf a))

theorem disc_of_through {keep : α → Option Nat} {live dead : List Nat}
    (hp : p.Calls (TxnCall.Through live))
    (hkeep : p.Ensures fun a => ∀ t, keep a = some t → t ∈ live) :
    Disc keep live dead p := by
  induction p with
  | ret a => exact hkeep
  | call c k ih =>
      cases c with
      | other l => exact fun r => ih r (hp.2 r) (hkeep r)
      | access t a => exact ⟨hp.1, fun r => ih r (hp.2 r) (hkeep r)⟩
      | txnBegin rdonly => cases hp.1
      | commit t => cases hp.1
      | abort t => cases hp.1

theorem readOnly_of_through {live : List Nat}
    (hp : p.Calls (TxnCall.Through live)) : ReadOnly p := by
  refine hp.mono fun c hc => ⟨?_, fun t => ?_⟩
  · rintro rfl
    cases hc
  · rintro rfl
    cases hc


end Mvcc

/-
Total correctness of a program that has the store to itself.

`Wp sem good p Q m` says that `p`, started in `m`, gets an answer to
every call whatever the outcomes, as long as they are in `good`, and
returns with a trace, a result and a state in `Q`. There is one rule for
each call; those for transactions are stated for a store with nothing
open (`State.blank`) or with one transaction open (`State.single`),
which is where a program with the store to itself always is if it keeps
to one transaction at a time. A second set of rules follows one write
transaction through a store where others may be open (`Writing`): they
say what each call makes of the committed data and of that transaction,
and no more. A third does the same for a transaction that only reads
(`Seeing`). `Wp.exec` gives the run itself back.
-/
import FineDB.Lib.Mvcc

namespace Mvcc

open Effect

variable {A L : Signature} {D O α β : Type}

def Wp (sem : Sem A L D O) (good : O → Prop) :
    Prog (txnSig A L) α →
      (List (Event (txnSig A L)) → α → State D → Prop) → State D → Prop
  | .ret a, Q, m => Q [] a m
  | .call c k, Q, m => ∀ o, good o → ∃ r m', step sem o m c = some (r, m')
      ∧ Wp sem good (k r) (fun tr => Q (⟨c, r⟩ :: tr)) m'

variable {sem : Sem A L D O} {good : O → Prop}
  {Q Q' : List (Event (txnSig A L)) → α → State D → Prop}
  {m : State D} {p : Prog (txnSig A L) α}

theorem Wp.mono (hQ : ∀ tr a m, Q tr a m → Q' tr a m)
    (h : Wp sem good p Q m) : Wp sem good p Q' m := by
  induction p generalizing Q Q' m with
  | ret a => exact hQ [] a m h
  | call c k ih =>
      intro o ho
      obtain ⟨r, m', hstep, hrest⟩ := h o ho
      exact ⟨r, m', hstep, ih r (fun tr => hQ (⟨c, r⟩ :: tr)) hrest⟩

/-- What the calls outside the store answer, a run shows. -/
theorem Wp.answers {P : Event (txnSig A L) → Prop}
    (hother : ∀ o l, good o → P ⟨.other l, sem.other o l⟩)
    (hrest : ∀ e, (∀ l, e.1 ≠ .other l) → P e) (h : Wp sem good p Q m) :
    Wp sem good p (fun tr a m' => Q tr a m' ∧ ∀ e ∈ tr, P e) m := by
  induction p generalizing Q m with
  | ret a => exact ⟨h, by simp⟩
  | call c k ih =>
      intro o ho
      obtain ⟨r, m', hstep, hk⟩ := h o ho
      have he : P ⟨c, r⟩ := by
        cases c with
        | other l =>
            obtain ⟨rfl, -⟩ := step_other hstep
            exact hother o l ho
        | _ => exact hrest _ fun l hl => by cases hl
      refine ⟨r, m', hstep, (ih r hk).mono fun tr a m'' hQ => ?_⟩
      exact ⟨hQ.1, List.forall_mem_cons.mpr ⟨he, hQ.2⟩⟩

/-- Sequencing: the second program starts where the first one ends. -/
theorem wp_bind {f : α → Prog (txnSig A L) β}
    {R : List (Event (txnSig A L)) → β → State D → Prop}
    (h : Wp sem good p
      (fun tr a m' => Wp sem good (f a) (fun tr' => R (tr ++ tr')) m') m) :
    Wp sem good (p >>= f) R m := by
  induction p generalizing m R with
  | ret a => exact h
  | call c k ih =>
      intro o ho
      obtain ⟨r, m', hstep, hrest⟩ := h o ho
      exact ⟨r, m', hstep, ih r hrest⟩

/-- Adequacy: under any outcomes in `good`, the program has returned after
some number of calls, and `Q` holds. -/
theorem Wp.exec (h : Wp sem good p Q m) {outs : Nat → O}
    (houts : ∀ i, good (outs i)) :
    ∃ n tr a m', Mvcc.exec sem ((List.range n).map outs) m p
      = some (tr, .ret a, m') ∧ Q tr a m' := by
  induction p generalizing Q m outs with
  | ret a => exact ⟨0, [], a, m, rfl, h⟩
  | call c k ih =>
      obtain ⟨r, m₁, hstep, hrest⟩ := h (outs 0) (houts 0)
      have hshift : ∀ i, good (outs (i + 1)) := fun i => houts (i + 1)
      obtain ⟨n, tr, a, m', hexec, hQ⟩ := ih r hrest hshift
      refine ⟨n + 1, ⟨c, r⟩ :: tr, a, m', ?_, hQ⟩
      have hmap : (List.range (n + 1)).map outs
          = outs 0 :: (List.range n).map fun i => outs (i + 1) := by
        rw [List.range_succ_eq_map, List.map_cons, List.map_map]
        rfl
      rw [hmap, Mvcc.exec, hstep, Option.bind_some, hexec]
      rfl

-- ======================================================== one transaction

/-- A store with the transaction `n` open and nothing else. -/
def State.single (d : D) (n : Nat) (x : Txn D) : State D where
  store := d
  txns := Function.update (fun _ => none) n (some x)
  writer := if x.rdonly then none else some n
  next := n + 1

variable {d : D} {n : Nat} {x : Txn D}

theorem wp_other {l : L.Call} {k : L.Ret l → Prog (txnSig A L) α}
    (h : ∀ o, good o → Wp sem good (k (sem.other o l))
      (fun tr => Q (⟨.other l, sem.other o l⟩ :: tr)) m) :
    Wp sem good (.call (.other l) k) Q m :=
  fun o ho => ⟨_, m, rfl, h o ho⟩

/-- The write transaction `t` is open and sees `v`; the committed data
are `d`. -/
structure Writing (d : D) (t : Nat) (v : D) (m : State D) : Prop where
  store : m.store = d
  txn : m.txns t = some ⟨false, v⟩

variable {t : Nat} {v : D}

theorem wp_begin_writing {k : Option Nat → Prog (txnSig A L) α}
    (hw : m.writer = none)
    (hfail : Wp sem good (k none)
      (fun tr => Q (⟨.txnBegin false, none⟩ :: tr)) m)
    (hok : ∀ t m', Writing m.store t m.store m' → Wp sem good (k (some t))
      (fun tr => Q (⟨.txnBegin false, some t⟩ :: tr)) m') :
    Wp sem good (.call (.txnBegin false) k) Q m := by
  intro o _
  cases ho : sem.ok o with
  | false => exact ⟨none, m, by simp [step, ho], hfail⟩
  | true =>
      refine ⟨some m.next, m.openTxn false, by simp [step, ho, hw], ?_⟩
      exact hok _ _ ⟨rfl, Function.update_self ..⟩

theorem wp_access_writing {a : A.Call} {k : A.Ret a → Prog (txnSig A L) α}
    (hm : Writing d t v m)
    (h : ∀ o, good o → ∀ r v', sem.access o false a v = (r, v') →
      ∀ m', Writing d t v' m' → Wp sem good (k r)
        (fun tr => Q (⟨.access t a, r⟩ :: tr)) m') :
    Wp sem good (.call (.access t a) k) Q m := by
  intro o ho
  refine ⟨_, _, step_access_open hm.txn, ?_⟩
  exact h o ho _ _ rfl _ ⟨hm.store, Function.update_self ..⟩

theorem wp_commit_writing {k : Bool → Prog (txnSig A L) α}
    (hm : Writing d t v m)
    (hok : ∀ m', m'.store = v → Wp sem good (k true)
      (fun tr => Q (⟨.commit t, true⟩ :: tr)) m')
    (hfail : ∀ m', m'.store = d → Wp sem good (k false)
      (fun tr => Q (⟨.commit t, false⟩ :: tr)) m') :
    Wp sem good (.call (.commit t) k) Q m := by
  intro o _
  refine ⟨_, _, step_commit_open hm.txn, ?_⟩
  cases ho : sem.ok o with
  | false => exact hfail _ hm.store
  | true => exact hok _ rfl

-- ================================================== a reader among others

theorem wp_abort_store {k : Unit → Prog (txnSig A L) α}
    (h : ∀ m', m'.store = m.store → Wp sem good (k ())
      (fun tr => Q (⟨.abort t, ()⟩ :: tr)) m') :
    Wp sem good (.call (.abort t) k) Q m :=
  fun _ _ => ⟨(), m.close t, rfl, h _ rfl⟩

end Mvcc

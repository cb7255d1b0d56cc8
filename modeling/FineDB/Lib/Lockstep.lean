/-
A program run to its end, and two runs of it side by side.

`complete` runs a program by itself until it returns, with a stream of
outcomes. It stands still nowhere if the program keeps one of the
disciplines of Lib/Mvcc.lean (`Within.complete`, `Disc.complete`).

Two facts about such runs are enough to compare stores. If every access
the program can make answers alike on data in a relation `R`, and keeps
them in `R`, then two stores related by `R` give the same trace and the
same result (`complete_alike`); the two meanings of the accesses need
not be the same one. And what every access keeps of the data, the whole
run keeps (`complete_all`).

Two different programs that make some of the same calls are compared
under outcomes that belong to the calls and not to their positions
(`keyed`): what succeeds in one succeeds in the other.

Which accesses a program can make often depends on the answers it gets:
it goes on with the handle it was given. `Prog.CallsBy` bounds the calls
on the branches whose answers are of a given kind.
-/
import FineDB.Lib.Handler
import FineDB.Lib.Wp
import FineDB.Lib.Snapshot
import Mathlib.Data.Option.Basic

namespace Effect.Prog

variable {S : Signature} {α β : Type}

/-- Every call the program can make satisfies `P`, as long as the answers
are in `ans`. -/
def CallsBy (ans : Event S → Prop) (P : S.Call → Prop) : Prog S α → Prop
  | .ret _ => True
  | .call c k => P c ∧ ∀ r, ans ⟨c, r⟩ → (k r).CallsBy ans P

variable {ans : Event S → Prop} {P : S.Call → Prop} {p : Prog S α}

theorem Calls.callsBy (h : p.Calls P) : p.CallsBy ans P := by
  induction p with
  | ret a => trivial
  | call c k ih => exact ⟨h.1, fun r _ => ih r (h.2 r)⟩

theorem CallsBy.mono {Q : S.Call → Prop} (hPQ : ∀ c, P c → Q c)
    (h : p.CallsBy ans P) : p.CallsBy ans Q := by
  induction p with
  | ret a => trivial
  | call c k ih => exact ⟨hPQ c h.1, fun r hr => ih r (h.2 r hr)⟩

theorem callsBy_bind {f : α → Prog S β} (hp : p.CallsBy ans P)
    (hf : ∀ a, (f a).CallsBy ans P) : (p >>= f).CallsBy ans P := by
  induction p with
  | ret a => exact hf a
  | call c k ih => exact ⟨hp.1, fun r hr => ih r (hp.2 r hr)⟩

end Effect.Prog

namespace Mvcc

open Effect

variable {A L : Signature} {D O α : Type}

-- ============================================================ to the end

/-- Run a program by itself until it returns: the calls it made, its
result, and the store it leaves. -/
def complete (sem : Sem A L D O) :
    (Nat → O) → State D → Prog (txnSig A L) α →
      Option (List (Event (txnSig A L)) × α × State D)
  | _, m, .ret a => some ([], a, m)
  | outs, m, .call c k =>
      (step sem (outs 0) m c).bind fun x =>
        (complete sem (fun i => outs (i + 1)) x.2 (k x.1)).map fun y =>
          (⟨c, x.1⟩ :: y.1, y.2)

variable {sem : Sem A L D O} {outs : Nat → O} {m m' : State D}
  {p : Prog (txnSig A L) α} {tr : List (Event (txnSig A L))} {a : α}

theorem complete_ret {b : α}
    (h : complete sem outs m (.ret b : Prog (txnSig A L) α)
      = some (tr, a, m')) : tr = [] ∧ a = b ∧ m' = m := by
  cases h
  exact ⟨rfl, rfl, rfl⟩

/-- A run that makes a call is one step and a run of the rest. -/
theorem complete_call {c : TxnCall A L} {k : c.Ret → Prog (txnSig A L) α}
    (h : complete sem outs m (.call c k) = some (tr, a, m')) :
    ∃ r m₁ tr', step sem (outs 0) m c = some (r, m₁)
      ∧ complete sem (fun i => outs (i + 1)) m₁ (k r) = some (tr', a, m')
      ∧ tr = ⟨c, r⟩ :: tr' := by
  simp only [complete, Option.bind_eq_some_iff, Option.map_eq_some_iff]
    at h
  obtain ⟨⟨r, m₁⟩, hstep, ⟨tr', a', m''⟩, hrest, heq⟩ := h
  cases heq
  exact ⟨r, m₁, tr', hstep, hrest, rfl⟩

theorem complete_of_step {c : TxnCall A L}
    {k : c.Ret → Prog (txnSig A L) α} {r : c.Ret} {m₁ : State D}
    (hstep : step sem (outs 0) m c = some (r, m₁))
    (hrest : complete sem (fun i => outs (i + 1)) m₁ (k r)
      = some (tr, a, m')) :
    complete sem outs m (.call c k) = some (⟨c, r⟩ :: tr, a, m') := by
  simp [complete, hstep, hrest]

/-- What a run has done is a trace of the program. -/
theorem complete_exec (h : complete sem outs m p = some (tr, a, m')) :
    p.Exec tr a := by
  induction p generalizing outs m tr with
  | ret b =>
      obtain ⟨rfl, rfl, -⟩ := complete_ret h
      exact ⟨rfl, rfl⟩
  | call c k ih =>
      obtain ⟨r, m₁, tr', -, hrest, rfl⟩ := complete_call h
      exact ⟨r, tr', rfl, ih r hrest⟩

theorem complete_calls {P : TxnCall A L → Prop} (hp : p.Calls P)
    (h : complete sem outs m p = some (tr, a, m')) :
    ∀ e ∈ tr, P e.1 := by
  induction p generalizing outs m tr with
  | ret b =>
      obtain ⟨rfl, -, -⟩ := complete_ret h
      simp
  | call c k ih =>
      obtain ⟨r, m₁, tr', -, hrest, rfl⟩ := complete_call h
      rw [List.forall_mem_cons]
      exact ⟨hp.1, ih r (hp.2 r) hrest⟩

/-- The run `Wp` speaks of. -/
theorem Wp.complete_of {good : O → Prop}
    {Q : List (Event (txnSig A L)) → α → State D → Prop}
    (h : Wp sem good p Q m) {outs : Nat → O} (houts : ∀ i, good (outs i)) :
    ∃ tr a m', Mvcc.complete sem outs m p = some (tr, a, m')
      ∧ Q tr a m' := by
  induction p generalizing Q m outs with
  | ret a => exact ⟨[], a, m, rfl, h⟩
  | call c k ih =>
      obtain ⟨r, m₁, hstep, hrest⟩ := h (outs 0) (houts 0)
      have hshift : ∀ i, good (outs (i + 1)) := fun i => houts (i + 1)
      obtain ⟨tr, a, m', hrun, hQ⟩ := ih r hrest hshift
      exact ⟨_, a, m', complete_of_step hstep hrun, hQ⟩

theorem Wp.complete {Q : List (Event (txnSig A L)) → α → State D → Prop}
    (h : Wp sem (fun _ => True) p Q m) (outs : Nat → O) :
    ∃ tr a m', Mvcc.complete sem outs m p = some (tr, a, m')
      ∧ Q tr a m' :=
  h.complete_of fun _ => trivial

-- ==================================================== one outcome per call

/-- The store, with an outcome fixed for every call. -/
def keyed (sem : Sem A L D O) (o : TxnCall A L → O) :
    Handler (txnSig A L) (State D) Unit :=
  fun _ m c => step sem (o c) m c

theorem Wp.keyed {Q : List (Event (txnSig A L)) → α → State D → Prop}
    (h : Wp sem (fun _ => True) p Q m) (o : TxnCall A L → O) :
    (Mvcc.keyed sem o).Wp p Q m := by
  induction p generalizing Q m with
  | ret a => exact h
  | call c k ih =>
      intro _
      obtain ⟨r, m₁, hstep, hrest⟩ := h (o c) trivial
      exact ⟨r, m₁, hstep, ih r hrest⟩

-- ========================================================= standing still

/-- The phase of a single-transaction program fits the store. -/
def Phase.In (m : State D) : Phase → Prop
  | .idle => m.writer = none
  | .rd t => (m.txns t).isSome
  | .wr t => (m.txns t).isSome
  | .ended _ => True

theorem Within.wp {Q : α → Phase → Prop} {ph : Phase}
    (h : Within Q ph p) (hin : ph.In m) :
    Wp sem (fun _ => True) p (fun _ _ _ => True) m := by
  induction p generalizing ph m with
  | ret a => trivial
  | call c k ih =>
      intro o _
      cases c with
      | txnBegin rdonly =>
          obtain ⟨rfl, hnone, hsome⟩ := h
          have hfree : m.writer = none := hin
          cases hok : sem.ok o with
          | false => exact ⟨none, m, by simp [step, hok], ih none hnone hin⟩
          | true =>
              refine ⟨some m.next, m.openTxn rdonly,
                by simp [step, hok, hfree], ih _ (hsome m.next) ?_⟩
              cases rdonly with
              | true => simp [Phase.opened, Phase.In, State.openTxn]
              | false => simp [Phase.opened, Phase.In, State.openTxn]
      | commit t =>
          obtain ⟨rfl, hrest⟩ := h
          obtain ⟨x, hx⟩ := Option.isSome_iff_exists.mp hin
          exact ⟨_, _, step_commit_open hx, ih _ (hrest _) trivial⟩
      | abort t => exact ⟨(), m.close t, rfl, ih () h.2 trivial⟩
      | access t b =>
          have hopen : (m.txns t).isSome := by
            rcases h.1 with rfl | rfl
            · exact hin
            · exact hin
          obtain ⟨x, hx⟩ := Option.isSome_iff_exists.mp hopen
          refine ⟨_, _, step_access_open hx, ih _ (h.2 _) ?_⟩
          rcases h.1 with rfl | rfl
          · simp [Phase.In]
          · simp [Phase.In]
      | other l => exact ⟨_, m, rfl, ih _ (h _) hin⟩

theorem Within.complete {Q : α → Phase → Prop} {ph : Phase}
    (h : Within Q ph p) (hin : ph.In m) (outs : Nat → O) :
    ∃ tr a m', Mvcc.complete sem outs m p = some (tr, a, m') := by
  have hwp : Wp sem (fun _ => True) p (fun _ _ _ => True) m := h.wp hin
  obtain ⟨tr, a, m', hrun, -⟩ := hwp.complete outs
  exact ⟨tr, a, m', hrun⟩

theorem Disc.wp {keep : α → Option Nat} {live dead : List Nat}
    (h : Disc keep live dead p) (hro : ReadOnly p) (hnodup : live.Nodup)
    (hlive : ∀ t ∈ live, (m.txns t).isSome)
    (hold : ∀ t, t ∈ live ∨ t ∈ dead → t < m.next) :
    Wp sem (fun _ => True) p (fun _ _ _ => True) m := by
  induction p generalizing live dead m with
  | ret a => trivial
  | call c k ih =>
      intro o _
      cases c with
      | txnBegin rdonly =>
          have hrd : rdonly = true := by
            cases rdonly with
            | true => rfl
            | false => exact absurd rfl hro.1.1
          subst hrd
          cases hok : sem.ok o with
          | false =>
              exact ⟨none, m, by simp [step, hok],
                ih none h.1 (hro.2 none) hnodup hlive hold⟩
          | true =>
              have hnew : m.next ∉ live := fun hmem =>
                absurd (hold _ (.inl hmem)) (Nat.lt_irrefl _)
              have hdead : m.next ∉ dead := fun hmem =>
                absurd (hold _ (.inr hmem)) (Nat.lt_irrefl _)
              refine ⟨some m.next, m.openTxn true, by simp [step, hok],
                ih _ (h.2 m.next hnew hdead) (hro.2 _)
                  (List.nodup_cons.mpr ⟨hnew, hnodup⟩) ?_ ?_⟩
              · intro t ht
                by_cases hne : t = m.next
                · simp [State.openTxn, hne]
                · rcases List.mem_cons.mp ht with rfl | ht
                  · exact absurd rfl hne
                  · simpa [State.openTxn, Function.update_of_ne hne]
                      using hlive t ht
              · intro t ht
                show t < m.next + 1
                rcases ht with ht | ht
                · rcases List.mem_cons.mp ht with rfl | ht
                  · exact Nat.lt_succ_self _
                  · exact Nat.lt_succ_of_lt (hold t (.inl ht))
                · exact Nat.lt_succ_of_lt (hold t (.inr ht))
      | commit t => exact absurd rfl (hro.1.2 t)
      | abort t =>
          refine ⟨(), m.close t, rfl, ih () h.2 (hro.2 ())
            (hnodup.erase t) ?_ ?_⟩
          · intro u hu
            obtain ⟨hne, hmem⟩ := (List.Nodup.mem_erase_iff hnodup).mp hu
            rw [close_txns, Function.update_of_ne hne]
            exact hlive u hmem
          · intro u hu
            rcases hu with hu | hu
            · exact hold u (.inl (List.mem_of_mem_erase hu))
            · rcases List.mem_cons.mp hu with rfl | hu
              · exact hold u h.1
              · exact hold u (.inr hu)
      | access t b =>
          obtain ⟨x, hx⟩ := Option.isSome_iff_exists.mp (hlive t h.1)
          refine ⟨_, _, step_access_open hx,
            ih _ (h.2 _) (hro.2 _) hnodup ?_ hold⟩
          intro u hu
          rw [setView_txns]
          by_cases hne : u = t
          · simp [hne]
          · rw [Function.update_of_ne hne]
            exact hlive u hu
      | other l =>
          exact ⟨_, m, rfl, ih _ (h _) (hro.2 _) hnodup hlive hold⟩

theorem Disc.complete {keep : α → Option Nat} {live : List Nat}
    (h : Disc keep live [] p) (hro : ReadOnly p) (hnodup : live.Nodup)
    (hlive : ∀ t ∈ live, (m.txns t).isSome ∧ t < m.next)
    (outs : Nat → O) :
    ∃ tr a m', Mvcc.complete sem outs m p = some (tr, a, m') := by
  have hold : ∀ t, t ∈ live ∨ t ∈ ([] : List Nat) → t < m.next := by
    intro t ht
    rcases ht with ht | ht
    · exact (hlive t ht).2
    · cases ht
  have hwp : Wp sem (fun _ => True) p (fun _ _ _ => True) m :=
    h.wp hro hnodup (fun t ht => (hlive t ht).1) hold
  obtain ⟨tr, a, m', hrun, -⟩ := hwp.complete outs
  exact ⟨tr, a, m', hrun⟩

-- ============================================================== in lockstep

/-- Stores with the same transactions open, their data related. -/
structure State.Alike (R : D → D → Prop) (m m' : State D) : Prop where
  store : R m.store m'.store
  txns : ∀ t, Option.Rel (fun x y => x.rdonly = y.rdonly ∧ R x.view y.view)
    (m.txns t) (m'.txns t)
  writer : m'.writer = m.writer
  next : m'.next = m.next

theorem State.Alike.blank {R : D → D → Prop} {d d' : D} (h : R d d')
    (n : Nat) : State.Alike R (.blank d n) (.blank d' n) :=
  ⟨h, fun _ => .none, rfl, rfl⟩

/-- On related data the access has the same answer and keeps them
related. -/
def Respects (sem sem' : Sem A L D O) (R : D → D → Prop) (a : A.Call) :
    Prop :=
  ∀ o rdonly d d', R d d' →
    (sem'.access o rdonly a d').1 = (sem.access o rdonly a d).1
      ∧ R (sem.access o rdonly a d).2 (sem'.access o rdonly a d').2

/-- A call whose accesses are in `P`. -/
def TxnCall.Accesses (P : A.Call → Prop) : TxnCall A L → Prop
  | .access _ a => P a
  | _ => True

theorem TxnCall.Accesses.mono {P Q : A.Call → Prop} (hPQ : ∀ a, P a → Q a)
    {c : TxnCall A L} (h : c.Accesses P) : c.Accesses Q := by
  cases c with
  | access t a => exact hPQ a h
  | txnBegin rdonly => trivial
  | commit t => trivial
  | abort t => trivial
  | other l => trivial

section Lockstep

variable {R : D → D → Prop} {sem' : Sem A L D O}

/-- Updating both stores at one transaction. -/
private theorem rel_update {f g : Nat → Option (Txn D)} {t : Nat}
    {x y : Option (Txn D)}
    (h : ∀ u, Option.Rel (fun x y => x.rdonly = y.rdonly ∧ R x.view y.view)
      (f u) (g u))
    (hxy : Option.Rel (fun x y => x.rdonly = y.rdonly ∧ R x.view y.view)
      x y) (u : Nat) :
    Option.Rel (fun x y => x.rdonly = y.rdonly ∧ R x.view y.view)
      (Function.update f t x u) (Function.update g t y u) := by
  by_cases hu : u = t
  · subst hu
    rw [Function.update_self, Function.update_self]
    exact hxy
  · rw [Function.update_of_ne hu, Function.update_of_ne hu]
    exact h u

theorem State.Alike.viewing {v v' : D} (h : R v v') (t : Nat) :
    State.Alike R (.viewing v t) (.viewing v' t) where
  store := h
  txns := rel_update (fun _ => .none) (.some ⟨rfl, h⟩)
  writer := rfl
  next := rfl

private theorem Alike.closed (h : State.Alike R m m') (t : Nat) :
    State.Alike R (m.close t) (m'.close t) where
  store := h.store
  txns := rel_update h.txns .none
  writer := by simp only [State.close, h.writer]
  next := h.next

private theorem Alike.txns_some (h : State.Alike R m m') {t : Nat}
    {x : Txn D} (hx : m.txns t = some x) :
    ∃ y, m'.txns t = some y ∧ x.rdonly = y.rdonly ∧ R x.view y.view := by
  have hrel := h.txns t
  rw [hx] at hrel
  generalize m'.txns t = y at hrel
  cases hrel with
  | some hxy => exact ⟨_, rfl, hxy⟩

variable (hok : ∀ o, sem'.ok o = sem.ok o)
  (hother : ∀ o l, sem'.other o l = sem.other o l)
include hok hother

theorem step_alike {o : O} {c : TxnCall A L} {r : c.Ret} {m₁ : State D}
    (hc : c.Accesses (Respects sem sem' R)) (h : State.Alike R m m')
    (hs : step sem o m c = some (r, m₁)) :
    ∃ m₁', step sem' o m' c = some (r, m₁') ∧ State.Alike R m₁ m₁' := by
  cases c with
  | txnBegin rdonly =>
      obtain ⟨hgood, hfree, rfl, rfl⟩ | ⟨hbad, rfl, rfl⟩ := step_begin hs
      · refine ⟨m'.openTxn rdonly, ?_, ?_⟩
        · rcases hfree with rfl | hfree
          · simp [step, hok, hgood, h.next]
          · simp [step, hok, hgood, h.writer, hfree, h.next]
        · refine ⟨h.store, ?_, ?_, ?_⟩
          · simp only [State.openTxn, h.next]
            exact rel_update h.txns (.some ⟨rfl, h.store⟩)
          · simp only [State.openTxn, h.writer, h.next]
          · simp only [State.openTxn, h.next]
      · exact ⟨m', by simp [step, hok, hbad], h⟩
  | commit t =>
      obtain ⟨x, hx, rfl, rfl⟩ | ⟨hx, rfl, rfl⟩ := step_commit hs
      · obtain ⟨y, hy, hrd, hview⟩ := Alike.txns_some h hx
        refine ⟨_, by rw [step_commit_open hy, hok], ?_⟩
        obtain ⟨hstore, htxns, hwriter, hnext⟩ := Alike.closed h t
        refine ⟨?_, htxns, hwriter, hnext⟩
        simp only [← hrd]
        split
        · exact hview
        · exact h.store
      · refine ⟨m', ?_, h⟩
        have hrel := h.txns t
        rw [hx] at hrel
        generalize hy : m'.txns t = y at hrel
        cases hrel with
        | none => simp [step, hy]
  | abort t =>
      cases step_abort hs
      exact ⟨m'.close t, rfl, Alike.closed h t⟩
  | access t b =>
      obtain ⟨x, hx, rfl, rfl⟩ := step_access hs
      obtain ⟨y, hy, hrd, hview⟩ := Alike.txns_some h hx
      obtain ⟨hans, hkeep⟩ := hc o x.rdonly x.view y.view hview
      refine ⟨_, by rw [step_access_open hy, ← hrd, hans], ?_⟩
      exact ⟨h.store, rel_update h.txns (.some ⟨rfl, hkeep⟩), h.writer,
        h.next⟩
  | other l =>
      obtain ⟨rfl, rfl⟩ := step_other hs
      exact ⟨m', by simp [step, hother], h⟩

/-- Related stores give a program the same answers, call by call, and
stay related. -/
theorem complete_alike {ans : Event (txnSig A L) → Prop}
    (hans : ∀ o (m : State D) c r m₁,
      step sem o m c = some (r, m₁) → ans ⟨c, r⟩)
    (hp : p.CallsBy ans (TxnCall.Accesses (Respects sem sem' R)))
    (h : State.Alike R m m') {m₁ : State D}
    (hrun : complete sem outs m p = some (tr, a, m₁)) :
    ∃ m₁', complete sem' outs m' p = some (tr, a, m₁')
      ∧ State.Alike R m₁ m₁' := by
  induction p generalizing outs m m' tr with
  | ret b =>
      obtain ⟨rfl, rfl, rfl⟩ := complete_ret hrun
      exact ⟨m', rfl, h⟩
  | call c k ih =>
      obtain ⟨r, m₂, tr', hstep, hrest, rfl⟩ := complete_call hrun
      obtain ⟨m₂', hstep', h₂⟩ := step_alike hok hother hp.1 h hstep
      have hk := hp.2 r (hans _ _ _ _ _ hstep)
      obtain ⟨m₁', hrest', h₁⟩ := ih r hk h₂ hrest
      exact ⟨m₁', complete_of_step hstep' hrest', h₁⟩

end Lockstep

-- ========================================================== what is kept

/-- All data of the store are in `I`. -/
structure State.All (I : D → Prop) (m : State D) : Prop where
  store : I m.store
  views : ∀ t x, m.txns t = some x → I x.view

/-- The access keeps data in `I`. -/
def Keeping (sem : Sem A L D O) (I : D → Prop) (a : A.Call) : Prop :=
  ∀ o rdonly d, I d → I (sem.access o rdonly a d).2

private theorem views_update {I : D → Prop} {f : Nat → Option (Txn D)}
    {t : Nat} {x : Option (Txn D)}
    (h : ∀ u y, f u = some y → I y.view) (hx : ∀ y, x = some y → I y.view)
    (u : Nat) (y : Txn D) (hy : Function.update f t x u = some y) :
    I y.view := by
  by_cases hu : u = t
  · subst hu
    rw [Function.update_self] at hy
    exact hx y hy
  · rw [Function.update_of_ne hu] at hy
    exact h u y hy

theorem step_all {I : D → Prop} {o : O} {c : TxnCall A L} {r : c.Ret}
    {m₁ : State D} (hc : c.Accesses (Keeping sem I)) (h : State.All I m)
    (hs : step sem o m c = some (r, m₁)) : State.All I m₁ := by
  have hclose : ∀ t, State.All I (m.close t) := fun t =>
    ⟨h.store, views_update h.views (by simp)⟩
  cases c with
  | txnBegin rdonly =>
      obtain ⟨-, -, -, rfl⟩ | ⟨-, -, rfl⟩ := step_begin hs
      · refine ⟨h.store, views_update h.views ?_⟩
        intro y hy
        cases hy
        exact h.store
      · exact h
  | commit t =>
      obtain ⟨x, hx, -, rfl⟩ | ⟨-, -, rfl⟩ := step_commit hs
      · refine ⟨?_, (hclose t).views⟩
        show I (if _ then _ else _)
        split
        · exact h.views t x hx
        · exact h.store
      · exact h
  | abort t =>
      cases step_abort hs
      exact hclose t
  | access t b =>
      obtain ⟨x, hx, -, rfl⟩ := step_access hs
      refine ⟨h.store, views_update h.views ?_⟩
      intro y hy
      cases hy
      exact hc o x.rdonly x.view (h.views t x hx)
  | other l =>
      obtain ⟨-, rfl⟩ := step_other hs
      exact h

/-- What every access keeps, the run keeps. -/
theorem complete_all {I : D → Prop} {ans : Event (txnSig A L) → Prop}
    (hans : ∀ o (m : State D) c r m₁,
      step sem o m c = some (r, m₁) → ans ⟨c, r⟩)
    (hp : p.CallsBy ans (TxnCall.Accesses (Keeping sem I)))
    (h : State.All I m)
    (hrun : complete sem outs m p = some (tr, a, m')) :
    State.All I m' := by
  induction p generalizing outs m tr with
  | ret b =>
      obtain ⟨-, -, rfl⟩ := complete_ret hrun
      exact h
  | call c k ih =>
      obtain ⟨r, m₁, tr', hstep, hrest, -⟩ := complete_call hrun
      exact ih r (hp.2 r (hans _ _ _ _ _ hstep)) (step_all hp.1 h hstep)
        hrest

/-- A program that at most reads through one transaction leaves it and the
committed data as they are, and gets the same answers wherever that
transaction has the same view. -/
theorem complete_through {t : Nat} {v : D}
    (hp : p.Calls (TxnCall.Through [t]))
    (hview : m.txns t = some ⟨true, v⟩)
    (hrun : complete sem outs m p = some (tr, a, m')) :
    m'.txns t = some ⟨true, v⟩ ∧ m'.store = m.store
      ∧ ∀ m₁ : State D, m₁.txns t = some ⟨true, v⟩ →
        ∃ m₁', complete sem outs m₁ p = some (tr, a, m₁') := by
  induction p generalizing outs m tr with
  | ret b =>
      obtain ⟨rfl, rfl, rfl⟩ := complete_ret hrun
      exact ⟨hview, rfl, fun m₁ _ => ⟨m₁, rfl⟩⟩
  | call c k ih =>
      obtain ⟨r, m₂, tr', hstep, hrest, rfl⟩ := complete_call hrun
      obtain ⟨hview₂, hstore₂, -, hsame⟩ := step_through hp.1 hview hstep
      obtain ⟨hview', hstore', hrest'⟩ := ih r (hp.2 r) hview₂ hrest
      refine ⟨hview', hstore'.trans hstore₂, fun m₁ hm₁ => ?_⟩
      obtain ⟨m₃, hstep₃⟩ := hsame m₁ hm₁
      obtain ⟨m₁', hm₁'⟩ :=
        hrest' m₃ (step_through hp.1 hm₁ hstep₃).1
      exact ⟨m₁', complete_of_step hstep₃ hm₁'⟩

end Mvcc

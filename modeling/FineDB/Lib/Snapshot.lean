/-
A read transaction kept from one operation to the next is a stable
view.

A client holds transaction `t` (`Holds`) while it keeps it between its
operations and its operations do nothing with transactions but read
through `t`. Nobody else touches `t`, because a call is only ever about
its client's own transactions (`Inv.about_owned`), and reading leaves
the view as it is. So whatever is committed meanwhile, each operation of
the client gets the answers it would get by itself from the data that
`t` began on (`Snapped`).
-/
import FineDB.Lib.Linear

namespace Mvcc

open Effect

variable {A L : Signature} {D O ι α : Type}

-- ================================================== the view, by itself

/-- A store with nothing but the read transaction `t` open, on the
data `v`. -/
def State.viewing (v : D) (t : Nat) : State D :=
  (State.blank v t).openTxn true

theorem State.viewing_txns (v : D) (t : Nat) :
    (State.viewing v t).txns t = some ⟨true, v⟩ :=
  Function.update_self ..

/-- An access was answered from the data `v`, in a read transaction. -/
def FromView (sem : Sem A L D O) (v : D) : Event (txnSig A L) → Prop
  | ⟨.access _ a, r⟩ => ∃ o, r = (sem.access o true a v).1
  | _ => True

section Through

variable {sem : Sem A L D O} {o : O} {m m' : State D} {v : D} {t : Nat}

/-- A call that at most reads through `t`: its answer depends on the
view alone, which it leaves as it is, like the committed data. -/
theorem step_through {cl : TxnCall A L} {r : cl.Ret}
    (hc : cl.Through [t]) (hview : m.txns t = some ⟨true, v⟩)
    (hs : step sem o m cl = some (r, m')) :
    m'.txns t = some ⟨true, v⟩ ∧ m'.store = m.store
      ∧ FromView sem v ⟨cl, r⟩
      ∧ ∀ m₁ : State D, m₁.txns t = some ⟨true, v⟩ →
        ∃ m₁', step sem o m₁ cl = some (r, m₁') := by
  cases cl with
  | access u a =>
      cases List.mem_singleton.mp hc
      obtain ⟨y, hy, rfl, rfl⟩ := step_access hs
      cases hview.symm.trans hy
      refine ⟨?_, rfl, ⟨o, rfl⟩, fun m₁ hm₁ => ?_⟩
      · rw [sem.access_rdonly]
        exact Function.update_self ..
      · simp only [step, hm₁]
        exact ⟨_, rfl⟩
  | other l =>
      obtain ⟨rfl, rfl⟩ := step_other hs
      exact ⟨hview, rfl, trivial, fun m₁ _ => ⟨m₁, rfl⟩⟩
  | txnBegin rdonly => cases hc
  | commit u => cases hc
  | abort u => cases hc

/-- All answers of such a program are from the view. -/
theorem exec_fromView {os : List O} {p p' : Prog (txnSig A L) α}
    {tr : List (Event (txnSig A L))}
    (hp : p.Calls (TxnCall.Through [t]))
    (hview : m.txns t = some ⟨true, v⟩)
    (hrun : exec sem os m p = some (tr, p', m')) :
    ∀ e ∈ tr, FromView sem v e := by
  induction os generalizing m p tr with
  | nil =>
      cases hrun
      simp
  | cons o os ih =>
      cases p with
      | ret a => cases hrun
      | call cl k =>
          obtain ⟨r, m₁, tr', hstep, hrest, rfl⟩ := exec_cons hrun
          obtain ⟨hview', -, hfrom, -⟩ := step_through hp.1 hview hstep
          rw [List.forall_mem_cons]
          exact ⟨hfrom, ih (hp.2 r) hview' hrest⟩

variable (R : Rules A L D O ι α)

/-- Operation `x` has got the answers it gets by itself with the data `v`
in the read transaction `t`. -/
def Snapped (v : D) (t : Nat) (x : Op A L O ι α) : Prop :=
  ∃ m, exec R.sem x.outs (State.viewing v t) (R.prog x.label)
      = some (x.trace, x.rest, m) ∧ m.txns t = some ⟨true, v⟩

variable {R}

theorem Snapped.new (c : Nat) (l : ι) (seen : List Nat) :
    Snapped R v t ⟨c, l, R.prog l, [], [], seen⟩ :=
  ⟨State.viewing v t, rfl, State.viewing_txns v t⟩

theorem Snapped.after {x : Op A L O ι α} {cl : TxnCall A L}
    {k : cl.Ret → Prog (txnSig A L) α} {r : cl.Ret}
    (h : Snapped R v t x) (hrest : x.rest = .call cl k)
    (hc : cl.Through [t]) (hview : m.txns t = some ⟨true, v⟩)
    (hs : step R.sem o m cl = some (r, m')) :
    Snapped R v t (x.after o ⟨cl, r⟩ (k r)) := by
  obtain ⟨m₁, hexec, hm₁⟩ := h
  obtain ⟨m₁', hs₁⟩ := (step_through hc hview hs).2.2.2 m₁ hm₁
  rw [hrest] at hexec
  exact ⟨m₁', exec_snoc hexec hs₁, (step_through hc hm₁ hs₁).1⟩

end Through

-- ===================================================== held by a client

variable {R : Rules A L D O ι α} {s s' : Cfg A L D O ι α} {g : Ghost D}
  {d₀ : D} {c t : Nat}

/-- An operation that has nothing left to do with transactions but to
read through `t`, and leaves it to its client. -/
structure Keeps (R : Rules A L D O ι α) (t : Nat) (x : Op A L O ι α) :
    Prop where
  plain : R.atomic x.label = false
  through : x.rest.Calls (TxnCall.Through [t])
  kept : x.rest.Ensures fun a => R.keep a = some t

/-- Client `c` holds the transaction `t`. -/
structure Holds (R : Rules A L D O ι α) (s : Cfg A L D O ι α)
    (c t : Nat) : Prop where
  idle : s.cur c = none → s.kept c = some t
  running : ∀ i x, s.cur c = some i → s.op i = some x → Keeps R t x

/-- What a program keeps without beginning it was its own before. -/
private theorem Disc.mem_live {keep : α → Option Nat}
    {live dead : List Nat} {p : Prog (txnSig A L) α} (sem : Sem A L D O)
    (o : O) (d : D) (h : Disc keep live dead p)
    (hthrough : p.Calls (TxnCall.Through [t]))
    (hkept : p.Ensures fun a => keep a = some t) : t ∈ live := by
  induction p with
  | ret a => exact h t hkept
  | call cl k ih =>
      cases cl with
      | access u a =>
          exact ih (sem.access o true a d).1 (h.2 _) (hthrough.2 _) (hkept _)
      | other l => exact ih (sem.other o l) (h _) (hthrough.2 _) (hkept _)
      | txnBegin rdonly => cases hthrough.1
      | commit u => cases hthrough.1
      | abort u => cases hthrough.1

theorem Inv.reads_of_holds (h : Inv R d₀ s g) (o : O)
    (hholds : Holds R s c t) : Reads g.owner s.db c t := by
  cases hcur : s.cur c with
  | none => exact (h.clients c).idle hcur t (hholds.idle hcur)
  | some i =>
      obtain ⟨x, hx, -⟩ := h.book.running c i hcur
      obtain ⟨hplain, hthrough, hkept⟩ := hholds.running i x hcur hx
      obtain ⟨live, dead, hok⟩ := (h.clients c).plain i x hcur hx hplain
      exact hok.open_of_live t
        (hok.disc.mem_live R.sem o s.db.store hthrough hkept)

/-- A call is about its client's own transactions. -/
theorem Inv.about_owned {i : Nat} {x : Op A L O ι α} {cl : TxnCall A L}
    {k : cl.Ret → Prog (txnSig A L) α} (h : Inv R d₀ s g)
    (hi : s.cur c = some i) (hx : s.op i = some x)
    (hrest : x.rest = .call cl k) : ∀ u ∈ cl.about, g.owner u = c := by
  intro u hu
  cases hatomic : R.atomic x.label with
  | true =>
      obtain ⟨ph, hsingle, hok⟩ := ((h.clients c).marked i x hi hx
        hatomic).2 (h.book.not_answered hx hrest)
      rw [hrest] at hsingle
      cases cl with
      | txnBegin rdonly => cases hu
      | other l => cases hu
      | commit t =>
          cases List.mem_singleton.mp hu
          rw [hsingle.1] at hok
          exact hok.2.1.1
      | abort t =>
          cases List.mem_singleton.mp hu
          rcases hsingle.1 with hph | hph | hph
          · rw [hph] at hok
            exact hok.2.1.1
          · rw [hph] at hok
            exact hok.2.1.1
          · rw [hph] at hok
            exact hok.2.1.1
      | access t a =>
          cases List.mem_singleton.mp hu
          rcases hsingle.1 with hph | hph
          · rw [hph] at hok
            exact hok.2.1.1
          · rw [hph] at hok
            exact hok.2.1.1
  | false =>
      obtain ⟨live, dead, hok⟩ := (h.clients c).plain i x hi hx hatomic
      have hdisc := hok.disc
      rw [hrest] at hdisc
      cases cl with
      | txnBegin rdonly => cases hu
      | other l => cases hu
      | commit t =>
          cases List.mem_singleton.mp hu
          exact (hok.open_of_live u hdisc.1).1.1
      | abort t =>
          cases List.mem_singleton.mp hu
          rcases hdisc.1 with hlive | hdead
          · exact (hok.open_of_live u hlive).1.1
          · exact (hok.ended_of_dead u hdead).1.1
      | access t a =>
          cases List.mem_singleton.mp hu
          exact (hok.open_of_live u hdisc.1).1.1

/-- No call of any client changes the view; one of the holder does not
change the committed data either. -/
theorem Inv.view_call {c' : Nat} {o : O} {v : D} (h : Inv R d₀ s g)
    (hholds : Holds R s c t) (hview : s.db.txns t = some ⟨true, v⟩)
    (hs : Cfg.step R (.call c' o) s = some s') :
    s'.db.txns t = some ⟨true, v⟩
      ∧ (c' = c → s'.db.store = s.db.store) := by
  obtain ⟨i, x, cl, k, r, db, hi, hx, hrest, hstep, rfl⟩ :=
    Cfg.step_call hs
  rw [Cfg.finish_db]
  by_cases hc : c' = c
  · subst hc
    have hthrough := (hholds.running i x hi hx).through
    rw [hrest] at hthrough
    obtain ⟨hview', hstore, -⟩ := step_through hthrough.1 hview hstep
    exact ⟨hview', fun _ => hstore⟩
  · refine ⟨?_, fun hc' => absurd hc' hc⟩
    obtain ⟨⟨howner, hlt⟩, -⟩ := h.reads_of_holds o hholds
    rw [← hview]
    refine step_txns_frame hstep hlt fun hmem => hc ?_
    rw [← h.about_owned hi hx hrest t hmem, howner]

end Mvcc

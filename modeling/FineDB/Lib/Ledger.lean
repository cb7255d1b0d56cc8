/-
Who holds which transaction.

The account of a machine of clients (Lib/Clients.lean): every open
transaction is held by exactly one client, and a client holds at most
one. `Held` is the account of a store, `Ledger` that of a whole
configuration. What has to be known of a program is `Holding`, a
discipline on its tree: it begins a transaction only with none in hand,
uses and ends only the one it has, and returns with exactly the one its
result keeps. Ending a second time a transaction it has ended itself is
tolerated.

`Disc` and `SingleTxn` (Lib/Mvcc.lean) let a program return with a
transaction open that nobody keeps. `Holding` does not, but it can be
asked under a condition: `good` says which events of the program are
accounted for, and a branch after any other event is not looked at.
-/
import FineDB.Lib.Linear
import Mathlib.Data.Finset.Card
import Mathlib.Data.Finset.Image

namespace Mvcc

open Effect

variable {A L : Signature} {D O ι α : Type}

-- ======================================================== the discipline

/-- A program with the transaction `cur` in hand, which has ended
`dead`. `may` says which modes of transaction it can begin, `good` after
which events the discipline is asked. -/
def Holding (may : Bool → Prop) (good : Event (txnSig A L) → Prop)
    (keep : α → Option Nat) :
    Option Nat → List Nat → Prog (txnSig A L) α → Prop
  | cur, _, .ret a => keep a = cur
  | cur, dead, .call (TxnCall.txnBegin rdonly) k =>
      (cur = none ∧ may rdonly) ∧ ∀ r : Option Nat,
        good ⟨.txnBegin rdonly, r⟩ →
        Holding may good keep r dead (k r)
  | cur, dead, .call (TxnCall.commit t) k =>
      cur = some t ∧ ∀ b : Bool, good ⟨.commit t, b⟩ →
        Holding may good keep none (t :: dead) (k b)
  | cur, dead, .call (TxnCall.abort t) k =>
      (cur = some t ∨ cur = none ∧ t ∈ dead)
        ∧ Holding may good keep none (t :: dead) (k ())
  | cur, dead, .call (TxnCall.access t a) k =>
      cur = some t ∧ ∀ r, good ⟨.access t a, r⟩ →
        Holding may good keep cur dead (k r)
  | cur, dead, .call (TxnCall.other l) k =>
      ∀ r, good ⟨.other l, r⟩ → Holding may good keep cur dead (k r)

section Programs

variable {may : Bool → Prop} {good : Event (txnSig A L) → Prop}
  {keep : α → Option Nat} {cur : Option Nat} {dead : List Nat}
  {p : Prog (txnSig A L) α}

/-- What only uses the transaction in hand hands it on. -/
theorem holding_of_through (hp : p.Calls (TxnCall.Through cur.toList))
    (hkeep : p.Ensures fun a => keep a = cur) :
    Holding may good keep cur dead p := by
  induction p with
  | ret a => exact hkeep
  | call c k ih =>
      cases c with
      | other l => exact fun r _ => ih r (hp.2 r) (hkeep r)
      | access t a =>
          exact ⟨Option.mem_toList.mp hp.1,
            fun r _ => ih r (hp.2 r) (hkeep r)⟩
      | txnBegin rdonly => cases hp.1
      | commit t => cases hp.1
      | abort t => cases hp.1

/-- Sequencing. `mid` is what the first program's result leaves in hand;
what it has ended is forgotten. -/
theorem Holding.bind {β : Type} {mid : α → Option Nat}
    {last : β → Option Nat} {f : α → Prog (txnSig A L) β}
    (hp : Holding may good mid cur dead p)
    (hf : ∀ a dead, Holding may good last (mid a) dead (f a)) :
    Holding may good last cur dead (p >>= f) := by
  induction p generalizing cur dead with
  | ret a =>
      rw [← (show mid a = cur from hp)]
      exact hf a dead
  | call c k ih =>
      cases c with
      | txnBegin rdonly =>
          exact ⟨hp.1, fun r hr => ih r (hp.2 r hr)⟩
      | commit t => exact ⟨hp.1, fun b hb => ih b (hp.2 b hb)⟩
      | abort t => exact ⟨hp.1, ih () hp.2⟩
      | access t a => exact ⟨hp.1, fun r hr => ih r (hp.2 r hr)⟩
      | other l => exact fun r hr => ih r (hp r hr)

end Programs

-- ============================================================= the store

/-- How many read transactions are open. -/
def State.readers (db : State D) : Nat :=
  ((Finset.range db.next).filter
    fun t => (db.txns t).any Txn.rdonly).card

/-- The open transactions are those in somebody's hand. -/
structure Held (may : Nat → Bool → Prop) (db : State D)
    (held : Nat → Option Nat) (dead : Nat → List Nat) : Prop where
  open_iff : ∀ t, (db.txns t).isSome ↔ ∃ c, held c = some t
  lt_next : ∀ t, (db.txns t).isSome → t < db.next
  once : ∀ c c' t, held c = some t → held c' = some t → c = c'
  mode : ∀ c t y, held c = some t → db.txns t = some y → may c y.rdonly
  ended : ∀ c, ∀ t ∈ dead c, t < db.next ∧ db.txns t = none

namespace Held

variable {may : Nat → Bool → Prop} {db db' : State D}
  {held : Nat → Option Nat} {dead : Nat → List Nat} {c t : Nat}

theorem blank (d : D) (n : Nat) :
    Held may (State.blank d n) (fun _ => none) fun _ => [] where
  open_iff t := by simp [State.blank]
  lt_next t h := by simp [State.blank] at h
  once c c' t h := by cases h
  mode c t y h := by cases h
  ended c t h := by cases h

/-- What a client has ended is its own business. -/
theorem forget (h : Held may db held dead) (c : Nat) :
    Held may db held (Function.update dead c []) where
  open_iff := h.open_iff
  lt_next := h.lt_next
  once := h.once
  mode := h.mode
  ended c' t ht := by
    by_cases hc : c' = c
    · subst hc
      rw [Function.update_self] at ht
      cases ht
    · rw [Function.update_of_ne hc] at ht
      exact h.ended c' t ht

private theorem update_eq_some {v : Option Nat} {a : Nat} :
    Function.update held c v a = some t
      ↔ a = c ∧ v = some t ∨ a ≠ c ∧ held a = some t := by
  by_cases hac : a = c
  · subst hac
    simp
  · simp [hac]

private theorem ne_of_empty (hc : held c = none) {a : Nat}
    (ha : held a = some t) : a ≠ c := by
  intro hac
  rw [hac, hc] at ha
  cases ha

/-- A begin, by a client with empty hands. -/
theorem openTxn (h : Held may db held dead) (hc : held c = none)
    {rdonly : Bool} (hmay : may c rdonly) :
    Held may (db.openTxn rdonly)
      (Function.update held c (some db.next)) dead := by
  have hfresh : ∀ t, (db.txns t).isSome → t ≠ db.next := fun t ht heq =>
    Nat.lt_irrefl _ (heq ▸ h.lt_next t ht)
  have hheld : ∀ c' t, held c' = some t → t ≠ db.next := fun c' t ht =>
    hfresh t ((h.open_iff t).mpr ⟨c', ht⟩)
  have hnew : (db.openTxn rdonly).txns db.next
      = some ⟨rdonly, db.store⟩ := Function.update_self ..
  have hold : ∀ t, t ≠ db.next →
      (db.openTxn rdonly).txns t = db.txns t := fun t ht =>
    Function.update_of_ne ht _ _
  refine ⟨fun t => ?_, fun t ht => ?_, fun a b t ha hb => ?_,
    fun a t y ha hy => ?_, fun a t ht => ?_⟩
  · by_cases ht : t = db.next
    · subst ht
      rw [hnew]
      exact ⟨fun _ => ⟨c, Function.update_self ..⟩, fun _ => rfl⟩
    · rw [hold t ht, h.open_iff]
      constructor
      · intro ⟨a, ha⟩
        exact ⟨a, update_eq_some.mpr (Or.inr ⟨ne_of_empty hc ha, ha⟩)⟩
      · intro ⟨a, ha⟩
        rcases update_eq_some.mp ha with ⟨-, heq⟩ | ⟨-, ha⟩
        · exact absurd (Option.some.inj heq).symm ht
        · exact ⟨a, ha⟩
  · by_cases htn : t = db.next
    · rw [htn]
      exact Nat.lt_succ_self _
    · rw [hold t htn] at ht
      exact Nat.lt_succ_of_lt (h.lt_next t ht)
  · rcases update_eq_some.mp ha with ⟨ha, heq⟩ | ⟨-, ha⟩
    · rcases update_eq_some.mp hb with ⟨hb, -⟩ | ⟨-, hb⟩
      · rw [ha, hb]
      · exact absurd (Option.some.inj heq).symm (hheld b t hb)
    · rcases update_eq_some.mp hb with ⟨-, heq⟩ | ⟨-, hb⟩
      · exact absurd (Option.some.inj heq).symm (hheld a t ha)
      · exact h.once a b t ha hb
  · rcases update_eq_some.mp ha with ⟨rfl, heq⟩ | ⟨-, ha⟩
    · cases heq
      rw [hnew] at hy
      cases hy
      exact hmay
    · rw [hold t (hheld a t ha)] at hy
      exact h.mode a t y ha hy
  · obtain ⟨hlt, hnone⟩ := h.ended a t ht
    exact ⟨Nat.lt_succ_of_lt hlt,
      (hold t (Nat.ne_of_lt hlt)).trans hnone⟩

/-- The end of the transaction client `c` has in hand. -/
theorem close (h : Held may db held dead) (hc : held c = some t)
    (htxns : db'.txns = Function.update db.txns t none)
    (hnext : db'.next = db.next) :
    Held may db' (Function.update held c none)
      (Function.update dead c (t :: dead c)) := by
  have hlt : t < db.next := h.lt_next t ((h.open_iff t).mpr ⟨c, hc⟩)
  have hself : db'.txns t = none := by
    rw [htxns, Function.update_self]
  have hold : ∀ u, u ≠ t → db'.txns u = db.txns u := fun u hu => by
    rw [htxns, Function.update_of_ne hu]
  have hothers : ∀ a u, Function.update held c none a = some u →
      a ≠ c ∧ held a = some u ∧ u ≠ t := by
    intro a u ha
    rcases update_eq_some.mp ha with ⟨-, heq⟩ | ⟨hac, ha⟩
    · cases heq
    · refine ⟨hac, ha, fun heq => hac (h.once a c t (heq ▸ ha) hc)⟩
  refine ⟨fun u => ?_, fun u hu => ?_, fun a b u ha hb => ?_,
    fun a u y ha hy => ?_, fun a u hu => ?_⟩
  · by_cases hut : u = t
    · rw [hut, hself]
      refine ⟨fun h => (by cases h), fun ⟨a, ha⟩ => ?_⟩
      exact absurd rfl (hothers a t ha).2.2
    · rw [hold u hut, h.open_iff]
      constructor
      · intro ⟨a, ha⟩
        refine ⟨a, update_eq_some.mpr (Or.inr ⟨fun hac => hut ?_, ha⟩)⟩
        rw [hac, hc] at ha
        exact (Option.some.inj ha).symm
      · intro ⟨a, ha⟩
        exact ⟨a, (hothers a u ha).2.1⟩
  · rw [hnext]
    by_cases hut : u = t
    · rw [hut]
      exact hlt
    · rw [hold u hut] at hu
      exact h.lt_next u hu
  · exact h.once a b u (hothers a u ha).2.1 (hothers b u hb).2.1
  · obtain ⟨-, ha, hut⟩ := hothers a u ha
    rw [hold u hut] at hy
    exact h.mode a u y ha hy
  · rw [hnext]
    have hended : ∀ b, u ∈ dead b → u < db.next ∧ db'.txns u = none := by
      intro b hb
      obtain ⟨hlt', hnone⟩ := h.ended b u hb
      refine ⟨hlt', ?_⟩
      by_cases hut : u = t
      · rw [hut, hself]
      · rw [hold u hut, hnone]
    by_cases hac : a = c
    · rw [hac, Function.update_self, List.mem_cons] at hu
      rcases hu with rfl | hu
      · exact ⟨hlt, hself⟩
      · exact hended c hu
    · rw [Function.update_of_ne hac] at hu
      exact hended a hu

/-- A step that opens and ends nothing. -/
theorem of_txns (h : Held may db held dead)
    (hmode : ∀ t y, db'.txns t = some y →
      ∃ y', db.txns t = some y' ∧ y'.rdonly = y.rdonly)
    (hsome : ∀ t, (db'.txns t).isSome = (db.txns t).isSome)
    (hnext : db'.next = db.next) : Held may db' held dead where
  open_iff t := by rw [hsome t]; exact h.open_iff t
  lt_next t ht := by
    rw [hnext]
    exact h.lt_next t (by rw [← hsome t]; exact ht)
  once := h.once
  mode c t y hc hy := by
    obtain ⟨y', hy', heq⟩ := hmode t y hy
    rw [← heq]
    exact h.mode c t y' hc hy'
  ended c t ht := by
    obtain ⟨hlt, hnone⟩ := h.ended c t ht
    refine ⟨by rw [hnext]; exact hlt, ?_⟩
    have := hsome t
    rw [hnone] at this
    exact Option.not_isSome_iff_eq_none.mp (by rw [this]; simp)

/-- There are no more read transactions than clients that have one. -/
theorem readers_le (h : Held may db held dead) {S : Finset Nat}
    (hS : ∀ c t, held c = some t → may c true → c ∈ S) :
    db.readers ≤ S.card := by
  have hsub : (Finset.range db.next).filter
      (fun t => (db.txns t).any Txn.rdonly)
        ⊆ S.image fun c => (held c).getD 0 := by
    intro t ht
    obtain ⟨-, hrd⟩ := Finset.mem_filter.mp ht
    cases hy : db.txns t with
    | none =>
        rw [hy] at hrd
        cases hrd
    | some y =>
        rw [hy] at hrd
        have hmode : y.rdonly = true := hrd
        obtain ⟨c, hc⟩ := (h.open_iff t).mp (by rw [hy]; rfl)
        have hmay := h.mode c t y hc hy
        rw [hmode] at hmay
        refine Finset.mem_image.mpr ⟨c, hS c t hc hmay, ?_⟩
        rw [hc]
        rfl
  exact (Finset.card_le_card hsub).trans Finset.card_image_le

variable {sem : Sem A L D O} {o : O} {good : Event (txnSig A L) → Prop}
  {keep : α → Option Nat}

/-- One call of client `c`. -/
theorem step {cl : TxnCall A L} {k : cl.Ret → Prog (txnSig A L) α}
    {r : cl.Ret} (h : Held may db held dead)
    (hp : Holding (may c) good keep (held c) (dead c) (.call cl k))
    (hs : Mvcc.step sem o db cl = some (r, db')) (hgood : good ⟨cl, r⟩) :
    ∃ held' dead', Held may db' held' dead'
      ∧ Holding (may c) good keep (held' c) (dead' c) (k r)
      ∧ ∀ a, a ≠ c → held' a = held a ∧ dead' a = dead a := by
  have hrest : ∀ (v : Option Nat) (l : List Nat), ∀ a, a ≠ c →
      Function.update held c v a = held a
        ∧ Function.update dead c l a = dead a := fun v l a ha =>
    ⟨Function.update_of_ne ha _ _, Function.update_of_ne ha _ _⟩
  cases cl with
  | txnBegin rdonly =>
      obtain ⟨⟨hempty, hmay⟩, hk⟩ := hp
      obtain ⟨-, -, rfl, rfl⟩ | ⟨-, rfl, rfl⟩ := step_begin hs
      · refine ⟨_, dead, h.openTxn hempty hmay, ?_, fun a ha =>
          ⟨(hrest _ [] a ha).1, rfl⟩⟩
        rw [Function.update_self]
        exact hk _ hgood
      · refine ⟨held, dead, h, ?_, fun a _ => ⟨rfl, rfl⟩⟩
        rw [hempty]
        exact hk none hgood
  | commit t =>
      obtain ⟨hcur, hk⟩ := hp
      obtain ⟨x, -, -, rfl⟩ | ⟨hnone, -, -⟩ := step_commit hs
      · refine ⟨_, _, h.close hcur rfl rfl, ?_, hrest _ _⟩
        rw [Function.update_self, Function.update_self]
        exact hk r hgood
      · have hopen := (h.open_iff t).mpr ⟨c, hcur⟩
        rw [hnone] at hopen
        cases hopen
  | abort t =>
      obtain ⟨hcur, hk⟩ := hp
      cases step_abort hs
      rcases hcur with hcur | ⟨hcur, hdead⟩
      · refine ⟨_, _, h.close hcur rfl rfl, ?_, hrest _ _⟩
        rw [Function.update_self, Function.update_self]
        exact hk
      · -- ended already: nothing is open under that handle
        obtain ⟨hlt, hnone⟩ := h.ended c t hdead
        have htxns : (db.close t).txns = db.txns := by
          rw [close_txns, ← hnone, Function.update_eq_self]
        have hsame : Held may (db.close t) held dead :=
          h.of_txns (fun u y hy => ⟨y, by rw [← htxns]; exact hy, rfl⟩)
            (fun u => by rw [htxns]) rfl
        refine ⟨held, Function.update dead c (t :: dead c),
          ⟨hsame.open_iff, hsame.lt_next, hsame.once, hsame.mode, ?_⟩, ?_,
          fun a ha => ⟨rfl, (hrest none _ a ha).2⟩⟩
        · intro a u hu
          by_cases hac : a = c
          · rw [hac, Function.update_self, List.mem_cons] at hu
            rcases hu with rfl | hu
            · exact ⟨hlt, by rw [htxns, hnone]⟩
            · exact hsame.ended c u hu
          · rw [Function.update_of_ne hac] at hu
            exact hsame.ended a u hu
        · rw [Function.update_self, hcur]
          exact hk
  | access t a =>
      obtain ⟨hcur, hk⟩ := hp
      obtain ⟨x, hx, -, rfl⟩ := step_access hs
      refine ⟨held, dead, h.of_txns (fun u y hy => ?_) (fun u => ?_) rfl,
        hk r hgood, fun a _ => ⟨rfl, rfl⟩⟩
      · by_cases hut : u = t
        · rw [hut, setView_txns, Function.update_self] at hy
          cases hy
          exact ⟨x, by rw [hut]; exact hx, rfl⟩
        · rw [setView_txns, Function.update_of_ne hut] at hy
          exact ⟨y, hy, rfl⟩
      · by_cases hut : u = t
        · rw [hut, setView_txns, Function.update_self, hx]
          rfl
        · rw [setView_txns, Function.update_of_ne hut]
  | other l =>
      obtain ⟨-, rfl⟩ := step_other hs
      exact ⟨held, dead, h, hp r hgood, fun a _ => ⟨rfl, rfl⟩⟩

end Held

-- ======================================================== the whole machine

variable {R : Rules A L D O ι α} {may : Nat → Bool → Prop}
  {good : ι → Event (txnSig A L) → Prop} {s s' : Cfg A L D O ι α}

/-- The account of a configuration: an idle client holds what it has
kept, a running one what its operation has in hand. -/
structure Ledger (R : Rules A L D O ι α) (may : Nat → Bool → Prop)
    (good : ι → Event (txnSig A L) → Prop) (s : Cfg A L D O ι α)
    (held : Nat → Option Nat) (dead : Nat → List Nat) : Prop where
  store : Held may s.db held dead
  idle : ∀ c, s.cur c = none → held c = s.kept c
  running : ∀ c i x, s.cur c = some i → s.op i = some x →
    Holding (may c) (good x.label) R.keep (held c) (dead c) x.rest

namespace Ledger

variable {held : Nat → Option Nat} {dead : Nat → List Nat}

theorem init (d : D) (n : Nat) :
    Ledger R may good (Cfg.init d n) (fun _ => none) fun _ => [] where
  store := Held.blank d n
  idle _ _ := rfl
  running c i x hi := by cases hi

/-- A new operation starts with what its client has kept. -/
theorem invoke {c : Nat} {l : ι} (h : Ledger R may good s held dead)
    (hbook : Bookkeeping s)
    (hs : Cfg.step R (.invoke c l) s = some s')
    (hprog : Holding (may c) (good l) R.keep (s.kept c) [] (R.prog l)) :
    Ledger R may good s' held (Function.update dead c []) := by
  obtain ⟨hidle, rfl⟩ := Cfg.step_invoke hs
  refine ⟨h.store.forget c, fun a ha => ?_, fun a i x hi hx => ?_⟩
  · by_cases hac : a = c
    · rw [hac] at ha
      simp only [Function.update_self] at ha
      cases ha
    · simp only [Function.update_of_ne hac] at ha
      exact h.idle a ha
  · by_cases hac : a = c
    · subst hac
      simp only [Function.update_self, Option.some.injEq] at hi
      subst hi
      simp only [Function.update_self, Option.some.injEq] at hx
      subst hx
      rw [Function.update_self, h.idle a hidle]
      exact hprog
    · simp only [Function.update_of_ne hac] at hi
      have hne : i ≠ s.count := by
        obtain ⟨y, hy, -⟩ := hbook.running a i hi
        have := hbook.lt_count hy
        omega
      simp only [Function.update_of_ne hne] at hx
      rw [Function.update_of_ne hac]
      exact h.running a i x hi hx

/-- A call of the operation client `c` runs. -/
theorem call {c : Nat} {o : O} (h : Ledger R may good s held dead)
    (hbook : Bookkeeping s) (hs : Cfg.step R (.call c o) s = some s')
    (hgood : ∀ i x cl k r db, s.cur c = some i → s.op i = some x →
      x.rest = .call cl k → Mvcc.step R.sem o s.db cl = some (r, db) →
      good x.label ⟨cl, r⟩) :
    ∃ held' dead', Ledger R may good s' held' dead' := by
  obtain ⟨i, x, cl, k, r, db, hi, hx, hrest, hstep, rfl⟩ :=
    Cfg.step_call hs
  have hhold := h.running c i x hi hx
  rw [hrest] at hhold
  obtain ⟨held', dead', hheld, hk, hothers⟩ := h.store.step hhold hstep
    (hgood i x cl k r db hi hx hrest hstep)
  refine ⟨held', dead', ?_, fun a ha => ?_, fun a j y hj hy => ?_⟩
  · rw [Cfg.finish_db]
    exact hheld
  · rw [Cfg.finish_cur] at ha
    rw [Cfg.finish_kept]
    have hac : a ≠ c := by
      intro hac
      rw [hac, hi] at ha
      cases ha
    rw [(hothers a hac).1]
    exact h.idle a ha
  · rw [Cfg.finish_cur] at hj
    rw [Cfg.finish_op] at hy
    by_cases hac : a = c
    · subst hac
      obtain rfl := Option.some.inj (hi.symm.trans hj)
      simp only [Function.update_self, Option.some.injEq] at hy
      subst hy
      exact hk
    · have hji : j ≠ i := fun heq =>
        hac (hbook.client_eq hi (heq ▸ hj))
      simp only [Function.update_of_ne hji] at hy
      rw [(hothers a hac).1, (hothers a hac).2]
      exact h.running a j y hj hy

/-- A finished operation leaves its client what its result keeps. -/
theorem respond {c : Nat} (h : Ledger R may good s held dead)
    (hs : Cfg.step R (.respond c) s = some s') :
    Ledger R may good s' held dead := by
  obtain ⟨i, x, a, hi, hx, hrest, rfl⟩ := Cfg.step_respond hs
  have hkeep := h.running c i x hi hx
  rw [hrest] at hkeep
  refine ⟨h.store, fun b hb => ?_, fun b j y hj hy => ?_⟩
  · by_cases hbc : b = c
    · simp only [hbc, Function.update_self]
      exact (show R.keep a = held c from hkeep).symm
    · simp only [Function.update_of_ne hbc] at hb ⊢
      exact h.idle b hb
  · have hbc : b ≠ c := by
      intro hbc
      simp only [hbc, Function.update_self] at hj
      cases hj
    simp only [Function.update_of_ne hbc] at hj
    exact h.running b j y hj hy

end Ledger

end Mvcc

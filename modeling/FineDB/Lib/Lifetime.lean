/-
Transactions in a history: which operation began one, how often it was
ended, and what a client has done so far.

Handles are never reused, so a transaction is begun by one operation
only (`Tallied`). `Cfg.ends` counts the events that end it, over the
whole history and whoever makes them. For a transaction that is only
ended while it is open, that count and its being open add up to one
(`EndsOnce`): it has been ended once, or not yet.

`Cfg.past` lists the operations of one client in order. A call changes
only the operation a client is running, which is its last, so the past
of an operation stays what it was at its invocation (`past_step`).
-/
import FineDB.Lib.Linear
import Mathlib.Algebra.BigOperators.Group.Finset.Basic
import Mathlib.Algebra.Order.BigOperators.Group.Finset

namespace Mvcc

open Effect

variable {A L : Signature} {D O ι α : Type}

-- =============================================================== events

/-- The transaction an event began. -/
def begun : Event (txnSig A L) → Option Nat
  | ⟨.txnBegin _, some t⟩ => some t
  | _ => none

/-- The transaction a call ends. -/
def TxnCall.ending : TxnCall A L → Option Nat
  | .commit t => some t
  | .abort t => some t
  | _ => none

theorem TxnCall.Through.ending_eq {live : List Nat} {c : TxnCall A L}
    (h : c.Through live) : c.ending = none := by
  cases c with
  | access t a => rfl
  | other l => rfl
  | txnBegin rdonly => cases h
  | commit t => cases h
  | abort t => cases h

section Steps

variable {sem : Sem A L D O} {o : O} {m m' : State D} {t : Nat}
  {c : TxnCall A L} {r : c.Ret}

theorem step_begun (h : step sem o m c = some (r, m'))
    (hb : begun (A := A) (L := L) ⟨c, r⟩ = some t) :
    t = m.next ∧ m'.next = m.next + 1 ∧ (m'.txns t).isSome = true := by
  cases c with
  | txnBegin rdonly =>
      obtain ⟨-, -, rfl, rfl⟩ | ⟨-, rfl, -⟩ := step_begin h
      · cases hb
        exact ⟨rfl, rfl, by simp [State.openTxn]⟩
      · cases hb
  | commit u => cases hb
  | abort u => cases hb
  | access u a => cases hb
  | other l => cases hb

theorem step_ended (h : step sem o m c = some (r, m'))
    (he : c.ending = some t) :
    (m'.txns t).isSome = false := by
  cases c with
  | commit u =>
      cases he
      obtain ⟨x, -, -, rfl⟩ | ⟨hnone, -, rfl⟩ := step_commit h
      · simp
      · rw [hnone]
        rfl
  | abort u =>
      cases he
      rw [step_abort h]
      simp
  | txnBegin rdonly => cases he
  | access u a => cases he
  | other l => cases he

/-- A transaction stays open, or ended, unless an event ends it. -/
theorem step_isSome_frame (h : step sem o m c = some (r, m'))
    (ht : t < m.next) (he : c.ending ≠ some t) :
    (m'.txns t).isSome = (m.txns t).isSome := by
  by_cases hab : t ∈ c.about
  · cases c with
    | commit u =>
        rw [List.mem_singleton.mp hab] at he
        exact absurd rfl he
    | abort u =>
        rw [List.mem_singleton.mp hab] at he
        exact absurd rfl he
    | access u a =>
        obtain ⟨x, hx, -, rfl⟩ := step_access h
        rw [List.mem_singleton.mp hab, hx]
        simp
    | txnBegin rdonly => cases hab
    | other l => cases hab
  · rw [step_txns_frame h ht hab]

end Steps

/-- The transactions an operation has begun. -/
def Op.begins (x : Op A L O ι α) : List Nat := x.trace.filterMap begun

/-- The transactions an operation has ended, once for each time. -/
def Op.ends (x : Op A L O ι α) : List Nat :=
  x.trace.filterMap fun e => e.1.ending

section After

variable (x : Op A L O ι α) (o : O) (e : Event (txnSig A L))
  (p : Prog (txnSig A L) α)

theorem Op.begins_after :
    (x.after o e p).begins = x.begins ++ (begun e).toList := by
  cases h : begun e <;> simp [Op.begins, Op.after, h]

theorem Op.ends_after :
    (x.after o e p).ends = x.ends ++ e.1.ending.toList := by
  cases h : e.1.ending <;> simp [Op.ends, Op.after, h]

end After

-- ============================================================ the tally

variable {R : Rules A L D O ι α} {s s' : Cfg A L D O ι α} {t : Nat}

/-- How often `t` has been ended. -/
def Cfg.ends (s : Cfg A L D O ι α) (t : Nat) : Nat :=
  ∑ i ∈ Finset.range s.count, (s.op i).elim 0 fun x => x.ends.count t

/-- Begun transactions exist, each has been begun by one operation, and
only such are ended. -/
structure Tallied (s : Cfg A L D O ι α) : Prop where
  begun_lt : ∀ i x t, s.op i = some x → t ∈ x.begins → t < s.db.next
  ended_lt : ∀ i x t, s.op i = some x → t ∈ x.ends → t < s.db.next
  once : ∀ i j x y t, s.op i = some x → s.op j = some y →
    t ∈ x.begins → t ∈ y.begins → i = j

theorem Tallied.init (d : D) (n : Nat) :
    Tallied (Cfg.init d n : Cfg A L D O ι α) where
  begun_lt _ _ _ h := by cases h
  ended_lt _ _ _ h := by cases h
  once _ _ _ _ _ h := by cases h

/-- The pending call of a client, answered, ends only transactions that
exist. -/
def EndsExisting (R : Rules A L D O ι α) (s : Cfg A L D O ι α) :
    Act O ι → Prop
  | .call c o => ∀ i x cl k r db t, s.cur c = some i →
      s.op i = some x → x.rest = .call cl k →
      Mvcc.step R.sem o s.db cl = some (r, db) →
      cl.ending = some t → t < s.db.next
  | _ => True

private theorem next_le_of_step {a : Act O ι}
    (hs : Cfg.step R a s = some s') : s.db.next ≤ s'.db.next := by
  cases a with
  | invoke c l =>
      obtain ⟨-, rfl⟩ := Cfg.step_invoke hs
      exact Nat.le_refl _
  | call c o =>
      obtain ⟨i, x, cl, k, r, db, -, -, -, hstep, rfl⟩ := Cfg.step_call hs
      rw [Cfg.finish_db]
      exact step_next_le hstep
  | respond c =>
      obtain ⟨i, x, a, -, -, -, rfl⟩ := Cfg.step_respond hs
      exact Nat.le_refl _

/-- An operation stays whose and what it is. -/
theorem Cfg.op_step {a : Act O ι} (hbook : Bookkeeping s)
    (hs : Cfg.step R a s = some s') {i : Nat} {y : Op A L O ι α}
    (hy : s.op i = some y) :
    ∃ x, s'.op i = some x ∧ x.client = y.client ∧ x.label = y.label := by
  cases a with
  | invoke c l =>
      obtain ⟨-, rfl⟩ := Cfg.step_invoke hs
      have hne : i ≠ s.count := Nat.ne_of_lt (hbook.lt_count hy)
      exact ⟨y, (Function.update_of_ne hne _ _).trans hy, rfl, rfl⟩
  | call c o =>
      obtain ⟨j, x, cl, k, r, db, -, hx, -, -, rfl⟩ := Cfg.step_call hs
      rw [Cfg.finish_op]
      by_cases hi : i = j
      · subst hi
        cases hx.symm.trans hy
        exact ⟨_, Function.update_self .., rfl, rfl⟩
      · exact ⟨y, (Function.update_of_ne hi _ _).trans hy, rfl, rfl⟩
  | respond c =>
      obtain ⟨j, x, b, -, -, -, rfl⟩ := Cfg.step_respond hs
      exact ⟨y, hy, rfl, rfl⟩

/-- What an operation has begun it had begun before the step, or it is
the next transaction, begun by its call. -/
theorem begins_step {a : Act O ι}
    (hs : Cfg.step R a s = some s') {i : Nat} {x : Op A L O ι α}
    (hx : s'.op i = some x) (ht : t ∈ x.begins) :
    (∃ y, s.op i = some y ∧ t ∈ y.begins)
      ∨ (t = s.db.next ∧ s'.db.next = s.db.next + 1
          ∧ ∃ c o, a = .call c o ∧ s.cur c = some i) := by
  cases a with
  | invoke c l =>
      obtain ⟨-, rfl⟩ := Cfg.step_invoke hs
      by_cases hi : i = s.count
      · subst hi
        simp only [Function.update_self, Option.some.injEq] at hx
        subst hx
        cases ht
      · simp only [Function.update_of_ne hi] at hx
        exact Or.inl ⟨x, hx, ht⟩
  | call c o =>
      obtain ⟨j, y, cl, k, r, db, hj, hy, -, hstep, rfl⟩ :=
        Cfg.step_call hs
      rw [Cfg.finish_op] at hx
      by_cases hi : i = j
      · subst hi
        simp only [Function.update_self, Option.some.injEq] at hx
        subst hx
        rw [Op.begins_after, List.mem_append, Option.mem_toList] at ht
        rcases ht with ht | ht
        · exact Or.inl ⟨y, hy, ht⟩
        · obtain ⟨hnext, hdb, -⟩ := step_begun hstep ht
          rw [Cfg.finish_db]
          exact Or.inr ⟨hnext, hdb, c, o, rfl, hj⟩
      · simp only [Function.update_of_ne hi] at hx
        exact Or.inl ⟨x, hx, ht⟩
  | respond c =>
      obtain ⟨j, y, b, -, -, -, rfl⟩ := Cfg.step_respond hs
      exact Or.inl ⟨x, hx, ht⟩

theorem Tallied.step {a : Act O ι} (h : Tallied s)
    (hends : EndsExisting R s a) (hs : Cfg.step R a s = some s') :
    Tallied s' where
  begun_lt i x t hx ht := by
    rcases begins_step hs hx ht with ⟨y, hy, hty⟩ | ⟨rfl, hnext, -⟩
    · exact Nat.lt_of_lt_of_le (h.begun_lt i y t hy hty)
        (next_le_of_step hs)
    · omega
  ended_lt := by
    have hold : ∀ i x, s.op i = some x → ∀ t ∈ x.ends, t < s'.db.next :=
      fun i x hx t ht => Nat.lt_of_lt_of_le (h.ended_lt i x t hx ht)
        (next_le_of_step hs)
    have hall := Cfg.ops_step (J := fun _ x => ∀ t ∈ x.ends, t < s'.db.next)
      hold hs (fun _ _ _ t ht => by cases ht) ?_
    · exact fun i x t hx ht => hall i x hx t ht
    · intro c o i x cl k r db heq hi hx hrest hstep hJ t ht
      subst heq
      rw [Op.ends_after, List.mem_append, Option.mem_toList] at ht
      rcases ht with ht | ht
      · exact hJ t ht
      · exact Nat.lt_of_lt_of_le
          (hends i x cl k r db t hi hx hrest hstep ht) (next_le_of_step hs)
  once i j x y t hx hy htx hty := by
    rcases begins_step hs hx htx with ⟨x₀, hx₀, htx₀⟩ | ⟨ht, -, c, o, ha, hi⟩
    · rcases begins_step hs hy hty with ⟨y₀, hy₀, hty₀⟩ | ⟨ht, -, -⟩
      · exact h.once i j x₀ y₀ t hx₀ hy₀ htx₀ hty₀
      · have := h.begun_lt i x₀ t hx₀ htx₀
        omega
    · rcases begins_step hs hy hty with ⟨y₀, hy₀, hty₀⟩ | ⟨-, -, c', o', ha', hj⟩
      · have := h.begun_lt j y₀ t hy₀ hty₀
        omega
      · rw [ha] at ha'
        cases ha'
        exact Option.some.inj (hi.symm.trans hj)

theorem Cfg.ends_pos_iff (hbook : Bookkeeping s) :
    0 < s.ends t ↔ ∃ i x, s.op i = some x ∧ t ∈ x.ends := by
  unfold Cfg.ends
  rw [Finset.sum_pos_iff]
  constructor
  · rintro ⟨i, -, hi⟩
    cases hx : s.op i with
    | none =>
        rw [hx] at hi
        cases hi
    | some x =>
        rw [hx] at hi
        exact ⟨i, x, hx, List.count_pos_iff.mp hi⟩
  · rintro ⟨i, x, hx, ht⟩
    refine ⟨i, Finset.mem_range.mpr (hbook.lt_count hx), ?_⟩
    rw [hx]
    exact List.count_pos_iff.mpr ht

theorem Cfg.ends_invoke {c : Nat} {l : ι}
    (hs : Cfg.step R (.invoke c l) s = some s') : s'.ends t = s.ends t := by
  obtain ⟨-, rfl⟩ := Cfg.step_invoke hs
  unfold Cfg.ends
  simp only
  rw [Finset.sum_range_succ, Function.update_self]
  show _ + 0 = _
  rw [Nat.add_zero]
  refine Finset.sum_congr rfl fun j hj => ?_
  rw [Function.update_of_ne (Nat.ne_of_lt (Finset.mem_range.mp hj))]

/-- A call adds the transaction it ends. -/
theorem Cfg.ends_call {i : Nat} {x : Op A L O ι α} {o : O}
    {e : Event (txnSig A L)} {p : Prog (txnSig A L) α} {db : State D}
    (hbook : Bookkeeping s) (hx : s.op i = some x) :
    Cfg.ends ({ s with
        db := db
        op := Function.update s.op i (some (x.after o e p)) }.finish i p) t
      = s.ends t + if e.1.ending = some t then 1 else 0 := by
  have hmem := Finset.mem_range.mpr (hbook.lt_count hx)
  have hcount : e.1.ending.toList.count t
      = if e.1.ending = some t then 1 else 0 := by
    cases e.1.ending with
    | none => rfl
    | some u => simp [List.count_singleton]
  have hrest : ∑ j ∈ (Finset.range s.count).erase i,
        (Function.update s.op i (some (x.after o e p)) j).elim 0
          (fun y => y.ends.count t)
      = ∑ j ∈ (Finset.range s.count).erase i,
          (s.op j).elim 0 fun y => y.ends.count t := by
    refine Finset.sum_congr rfl fun j hj => ?_
    rw [Function.update_of_ne (Finset.ne_of_mem_erase hj)]
  unfold Cfg.ends
  rw [Cfg.finish_op, Cfg.finish_count, ← Finset.add_sum_erase _ _ hmem,
    hrest, ← Finset.add_sum_erase (Finset.range s.count)
      (fun j => (s.op j).elim 0 fun y => y.ends.count t) hmem]
  simp only [Function.update_self, hx, Option.elim_some, Op.ends_after,
    List.count_append, hcount]
  omega

/-- `t` has been ended once, or is still open. -/
def EndsOnce (s : Cfg A L D O ι α) (t : Nat) : Prop :=
  s.ends t + (if (s.db.txns t).isSome then 1 else 0) = 1

theorem EndsOnce.step {a : Act O ι} (h : EndsOnce s t)
    (hbook : Bookkeeping s) (ht : t < s.db.next)
    (hopen : ∀ c o i x cl k r db, a = .call c o → s.cur c = some i →
      s.op i = some x → x.rest = .call cl k →
      Mvcc.step R.sem o s.db cl = some (r, db) →
      cl.ending = some t →
      (s.db.txns t).isSome = true)
    (hs : Cfg.step R a s = some s') : EndsOnce s' t := by
  unfold EndsOnce at h ⊢
  cases a with
  | invoke c l =>
      rw [Cfg.ends_invoke hs]
      obtain ⟨-, rfl⟩ := Cfg.step_invoke hs
      exact h
  | call c o =>
      obtain ⟨i, x, cl, k, r, db, hi, hx, hrest, hstep, rfl⟩ :=
        Cfg.step_call hs
      rw [Cfg.ends_call hbook hx, Cfg.finish_db]
      by_cases he : cl.ending = some t
      · have hwas := hopen c o i x cl k r db rfl hi hx hrest hstep he
        rw [hwas] at h
        rw [step_ended hstep he, if_pos he]
        simpa using h
      · rw [step_isSome_frame hstep ht he, if_neg he]
        exact h
  | respond c =>
      obtain ⟨i, x, b, -, -, -, rfl⟩ := Cfg.step_respond hs
      exact h

/-- A transaction just begun has not been ended. -/
theorem EndsOnce.of_begun {o : O} {i : Nat} {x : Op A L O ι α}
    {cl : TxnCall A L} {p : Prog (txnSig A L) α} {r : cl.Ret}
    {db : State D} (htally : Tallied s) (hbook : Bookkeeping s)
    (hx : s.op i = some x)
    (hstep : Mvcc.step R.sem o s.db cl = some (r, db))
    (hb : begun (A := A) (L := L) ⟨cl, r⟩ = some t) :
    EndsOnce ({ s with
      db := db
      op := Function.update s.op i
        (some (x.after o ⟨cl, r⟩ p)) }.finish i p) t := by
  obtain ⟨rfl, -, hopen⟩ := step_begun hstep hb
  have hzero : s.ends s.db.next = 0 := by
    by_contra hne
    obtain ⟨j, y, hy, hmem⟩ :=
      (Cfg.ends_pos_iff hbook).mp (Nat.pos_of_ne_zero hne)
    have := htally.ended_lt j y _ hy hmem
    omega
  have he : cl.ending ≠ some s.db.next := by
    intro he
    rw [step_ended hstep he] at hopen
    cases hopen
  unfold EndsOnce
  rw [Cfg.ends_call hbook hx, Cfg.finish_db, hzero, if_neg he, hopen]
  rfl

-- ============================================================= the past

/-- The operations of client `c` before number `n`, in order. -/
def Cfg.past (s : Cfg A L D O ι α) (c n : Nat) : List (Op A L O ι α) :=
  (List.range n).filterMap fun i =>
    (s.op i).filter fun x => decide (x.client = c)

theorem Cfg.past_succ (s : Cfg A L D O ι α) (c n : Nat) :
    s.past c (n + 1) = s.past c n
      ++ ((s.op n).filter fun x => decide (x.client = c)).toList := by
  unfold Cfg.past
  rw [List.range_succ, List.filterMap_append]
  congr 1

theorem Cfg.past_succ_self {n : Nat} {x : Op A L O ι α}
    (hx : s.op n = some x) :
    s.past x.client (n + 1) = s.past x.client n ++ [x] := by
  rw [Cfg.past_succ, hx]
  simp [Option.filter]

/-- Another client's operation adds nothing. -/
theorem Cfg.past_succ_other {c n : Nat}
    (h : ∀ x, s.op n = some x → x.client ≠ c) :
    s.past c (n + 1) = s.past c n := by
  rw [Cfg.past_succ]
  cases hx : s.op n with
  | none => simp
  | some x => simp [Option.filter, h x hx]

theorem Cfg.past_congr {c n : Nat}
    (h : ∀ i < n, (∀ x, s.op i = some x → x.client = c →
        s'.op i = some x)
      ∧ ∀ x, s'.op i = some x → x.client = c → s.op i = some x) :
    s'.past c n = s.past c n := by
  induction n with
  | zero => rfl
  | succ n ih =>
      have hn := h n (Nat.lt_succ_self n)
      have ih := ih fun i hi => h i (Nat.lt_succ_of_lt hi)
      by_cases hc : ∃ x, s.op n = some x ∧ x.client = c
      · obtain ⟨x, hx, rfl⟩ := hc
        rw [Cfg.past_succ_self hx, Cfg.past_succ_self (hn.1 x hx rfl), ih]
      · rw [Cfg.past_succ_other fun x hx hcl => hc ⟨x, hx, hcl⟩,
          Cfg.past_succ_other fun x hx hcl => hc ⟨x, hn.2 x hx hcl, hcl⟩,
          ih]

/-- Numbers of no operation of the client's add nothing. -/
theorem Cfg.past_of_le {c n m : Nat} (hnm : n ≤ m)
    (h : ∀ i x, n ≤ i → s.op i = some x → x.client ≠ c) :
    s.past c m = s.past c n := by
  induction m, hnm using Nat.le_induction with
  | base => rfl
  | succ m hnm ih =>
      rw [Cfg.past_succ_other fun x hx => h m x hnm hx, ih]

/-- An operation a client runs is its latest. -/
def Cfg.Latest (s : Cfg A L D O ι α) : Prop :=
  ∀ c i j y, s.cur c = some i → s.op j = some y → y.client = c → j ≤ i

theorem Cfg.latest_init (d : D) (n : Nat) :
    (Cfg.init d n : Cfg A L D O ι α).Latest := by
  intro c i j y hi
  cases hi

theorem Cfg.latest_step {a : Act O ι} (h : s.Latest)
    (hbook : Bookkeeping s) (hs : Cfg.step R a s = some s') :
    s'.Latest := by
  intro c i j y hi hy hc
  cases a with
  | invoke c' l =>
      obtain ⟨hcur, rfl⟩ := Cfg.step_invoke hs
      by_cases hj : j = s.count
      · subst hj
        simp only [Function.update_self, Option.some.injEq] at hy
        subst hy
        subst hc
        simp only [Function.update_self, Option.some.injEq] at hi
        omega
      · simp only [Function.update_of_ne hj] at hy
        have hlt := hbook.lt_count hy
        by_cases hcc : c = c'
        · subst hcc
          simp only [Function.update_self, Option.some.injEq] at hi
          omega
        · simp only [Function.update_of_ne hcc] at hi
          exact h c i j y hi hy hc
  | call c' o =>
      obtain ⟨i', x, cl, k, r, db, hi', hx, -, -, rfl⟩ := Cfg.step_call hs
      rw [Cfg.finish_cur] at hi
      rw [Cfg.finish_op] at hy
      by_cases hj : j = i'
      · subst hj
        simp only [Function.update_self, Option.some.injEq] at hy
        subst hy
        exact h c i j x hi hx hc
      · simp only [Function.update_of_ne hj] at hy
        exact h c i j y hi hy hc
  | respond c' =>
      obtain ⟨i', x, b, -, -, -, rfl⟩ := Cfg.step_respond hs
      by_cases hcc : c = c'
      · subst hcc
        simp at hi
      · simp only [Function.update_of_ne hcc] at hi
        exact h c i j y hi hy hc

/-- A step changes nothing of a client's past but what it is running. -/
theorem Cfg.past_step {a : Act O ι} {c n : Nat} (hbook : Bookkeeping s)
    (hn : n ≤ s.count) (hcur : ∀ i, s.cur c = some i → n ≤ i)
    (hs : Cfg.step R a s = some s') : s'.past c n = s.past c n := by
  refine Cfg.past_congr fun i hi => ?_
  cases a with
  | invoke c' l =>
      obtain ⟨-, rfl⟩ := Cfg.step_invoke hs
      have hne : i ≠ s.count := by omega
      simp only [Function.update_of_ne hne]
      exact ⟨fun x hx _ => hx, fun x hx _ => hx⟩
  | call c' o =>
      obtain ⟨j, y, cl, k, r, db, hj, hy, -, -, rfl⟩ := Cfg.step_call hs
      rw [Cfg.finish_op]
      by_cases hij : i = j
      · -- the operation that moved is not the client's
        subst hij
        obtain ⟨y', hy', hcl⟩ := hbook.running c' i hj
        cases hy'.symm.trans hy
        have hne : y.client ≠ c := by
          intro hc
          rw [hcl] at hc
          subst hc
          have := hcur i hj
          omega
        refine ⟨fun x hx hc => ?_, fun x hx hc => ?_⟩
        · cases hx.symm.trans hy
          exact absurd hc hne
        · simp only [Function.update_self, Option.some.injEq] at hx
          rw [← hx] at hc
          exact absurd hc hne
      · simp only [Function.update_of_ne hij]
        exact ⟨fun x hx _ => hx, fun x hx _ => hx⟩
  | respond c' =>
      obtain ⟨j, y, b, -, -, -, rfl⟩ := Cfg.step_respond hs
      exact ⟨fun x hx _ => hx, fun x hx _ => hx⟩

end Mvcc

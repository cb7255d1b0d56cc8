/-
Linearizability of single-transaction operations.

In every run of the clients machine, the operations marked atomic have
an order that respects real time and in which each, executed by itself
on the store its predecessors left, gets the answers it got and leaves
the store the next one starts from, the last of them the committed
store (`Linearized`). It is read off an invariant that every admitted
step keeps (`Inv.linearized`, `Inv.step`).

An operation always gets its place at the end of the order so far, at
the step Lib/Serial.lean names. An operation that was answered before
another was invoked had its place by then, so real time is respected;
the rest of the invariant is what every client needs for its next step.
A step of the machine is taken apart for the proof: a call
moves its operation on, an operation with nothing left is answered
(`finish`), and its client is released.
-/
import FineDB.Lib.Serial

namespace Mvcc

open Effect

variable {A L : Signature} {D O ι α : Type}

/-- `lin` is a linearization of the history of `s`, begun on the store
`d₀`. -/
structure Linearized (R : Rules A L D O ι α) (d₀ : D)
    (s : Cfg A L D O ι α) (lin : List Nat) : Prop where
  nodup : lin.Nodup
  atomic : ∀ i ∈ lin, ∃ x, s.op i = some x ∧ R.atomic x.label = true
  complete : ∀ i ∈ s.answered, ∀ x, s.op i = some x →
    R.atomic x.label = true → i ∈ lin
  realTime : lin.Pairwise fun i j => ∀ x, s.op i = some x → j ∉ x.seen
  serial : Serial
    (fun i d d' => ∃ x n m, s.op i = some x ∧ Alone R x d n m
      ∧ m.store = d') d₀ lin s.db.store

-- ========================================================= bookkeeping

/-- What every history satisfies, whatever the programs: operations are
numbered in order, a client has one at a time, none is answered before
it returns, and an operation has seen answered all earlier ones of its
own client, and all that an earlier one has. -/
structure Bookkeeping (s : Cfg A L D O ι α) : Prop where
  fresh : ∀ i, s.count ≤ i → s.op i = none
  running : ∀ c i, s.cur c = some i →
    ∃ x, s.op i = some x ∧ x.client = c
  pending : ∀ i x, s.op i = some x → i ∉ s.answered →
    s.cur x.client = some i
  answered_lt : ∀ i ∈ s.answered, i < s.count
  returned : ∀ i ∈ s.answered, ∀ x, s.op i = some x → ∃ a, x.rest = .ret a
  seen : ∀ i x, s.op i = some x → ∀ j ∈ x.seen, j ∈ s.answered
  sequential : ∀ i j x y, s.op i = some x → s.op j = some y →
    x.client = y.client → i < j → i ∈ y.seen
  seen_mono : ∀ i j x y, s.op i = some x → s.op j = some y → i < j →
    x.seen ⊆ y.seen

variable {R : Rules A L D O ι α} {s s' : Cfg A L D O ι α}

theorem Bookkeeping.init (d : D) (n : Nat) :
    Bookkeeping (Cfg.init d n : Cfg A L D O ι α) where
  fresh _ _ := rfl
  running _ _ h := by cases h
  pending _ _ h := by cases h
  answered_lt _ h := by cases h
  returned _ h := by cases h
  seen _ _ h := by cases h
  sequential _ _ _ _ h := by cases h
  seen_mono _ _ _ _ h := by cases h

theorem Bookkeeping.lt_count (h : Bookkeeping s) {i : Nat}
    {x : Op A L O ι α} (hx : s.op i = some x) : i < s.count := by
  by_contra hle
  rw [h.fresh i (Nat.not_lt.mp hle)] at hx
  cases hx

theorem Bookkeeping.not_answered (h : Bookkeeping s) {i : Nat}
    {x : Op A L O ι α} {cl : TxnCall A L}
    {k : cl.Ret → Prog (txnSig A L) α} (hx : s.op i = some x)
    (hrest : x.rest = .call cl k) :
    i ∉ s.answered := by
  intro hmem
  obtain ⟨a, ha⟩ := h.returned i hmem x hx
  rw [hrest] at ha
  cases ha

/-- No operation is run by two clients. -/
theorem Bookkeeping.client_eq (h : Bookkeeping s) {c c' i : Nat}
    (hi : s.cur c = some i) (hi' : s.cur c' = some i) : c' = c := by
  obtain ⟨x, hx, hc⟩ := h.running c i hi
  obtain ⟨x', hx', hc'⟩ := h.running c' i hi'
  cases hx.symm.trans hx'
  exact hc'.symm.trans hc

/-- A client that is between operations has had all of its own
answered. -/
theorem Bookkeeping.answered_of_idle (h : Bookkeeping s) {i c : Nat}
    {x : Op A L O ι α} (hx : s.op i = some x) (hc : x.client = c)
    (hcur : s.cur c = none) : i ∈ s.answered := by
  by_contra hi
  have hrun := h.pending i x hx hi
  rw [hc, hcur] at hrun
  cases hrun

/-- What can be checked of every operation. -/
def Cfg.all (s : Cfg A L D O ι α) (p : Op A L O ι α → Bool) : Bool :=
  (List.range s.count).all fun i => (s.op i).all p

theorem Bookkeeping.all_iff (h : Bookkeeping s) {p : Op A L O ι α → Bool} :
    s.all p = true ↔ ∀ i x, s.op i = some x → p x = true := by
  simp only [Cfg.all, List.all_eq_true, List.mem_range]
  constructor
  · intro hall i x hx
    have hi := hall i (h.lt_count hx)
    rw [hx] at hi
    exact hi
  · intro hall i _
    cases hx : s.op i with
    | none => rfl
    | some x => exact hall i x hx

/-- No client that ever ran an operation is running one. -/
def Cfg.resting (s : Cfg A L D O ι α) : Bool :=
  s.all fun x => (s.cur x.client).isNone

theorem Bookkeeping.resting_iff (h : Bookkeeping s) :
    s.resting = true ↔ ∀ c, s.cur c = none := by
  rw [Cfg.resting, h.all_iff]
  simp only [Option.isNone_iff_eq_none]
  constructor
  · intro hall c
    cases hc : s.cur c with
    | none => rfl
    | some i =>
        obtain ⟨x, hx, rfl⟩ := h.running c i hc
        rw [hall i x hx] at hc
        cases hc
  · intro hall i x _
    exact hall x.client

private theorem Bookkeeping.stepInvoke {c : Nat} {l : ι}
    (h : Bookkeeping s) (hcur : s.cur c = none) :
    Bookkeeping
      { s with
        op := Function.update s.op s.count
          (some ⟨c, l, R.prog l, [], [], s.answered⟩)
        count := s.count + 1
        cur := Function.update s.cur c (some s.count) } where
  fresh i hi := by
    have hlt : s.count < i := hi
    exact (Function.update_of_ne (by omega) _ _).trans
      (h.fresh i (by omega))
  running c' i hi := by
    by_cases hc : c' = c
    · subst hc
      simp only [Function.update_self, Option.some.injEq] at hi
      subst hi
      exact ⟨_, Function.update_self .., rfl⟩
    · simp only [Function.update_of_ne hc] at hi
      obtain ⟨x, hx, hcl⟩ := h.running c' i hi
      have hlt := h.lt_count hx
      exact ⟨x, (Function.update_of_ne (by omega) _ _).trans hx, hcl⟩
  pending i x hx hna := by
    by_cases hi : i = s.count
    · subst hi
      simp only [Function.update_self, Option.some.injEq] at hx
      subst hx
      exact Function.update_self ..
    · simp only [Function.update_of_ne hi] at hx
      have hrun := h.pending i x hx hna
      have hc : x.client ≠ c := by
        intro hc
        rw [hc, hcur] at hrun
        cases hrun
      exact (Function.update_of_ne hc _ _).trans hrun
  answered_lt i hi := Nat.lt_succ_of_lt (h.answered_lt i hi)
  returned i hi x hx := by
    have hne : i ≠ s.count := Nat.ne_of_lt (h.answered_lt i hi)
    simp only [Function.update_of_ne hne] at hx
    exact h.returned i hi x hx
  seen i x hx j hj := by
    by_cases hi : i = s.count
    · subst hi
      simp only [Function.update_self, Option.some.injEq] at hx
      subst hx
      exact hj
    · simp only [Function.update_of_ne hi] at hx
      exact h.seen i x hx j hj
  sequential i j x y hx hy hxy hij := by
    by_cases hj : j = s.count
    · subst hj
      simp only [Function.update_self, Option.some.injEq] at hy
      subst hy
      simp only [Function.update_of_ne (Nat.ne_of_lt hij)] at hx
      exact h.answered_of_idle hx hxy hcur
    · simp only [Function.update_of_ne hj] at hy
      have hi : i ≠ s.count := Nat.ne_of_lt (Nat.lt_trans hij (h.lt_count hy))
      simp only [Function.update_of_ne hi] at hx
      exact h.sequential i j x y hx hy hxy hij
  seen_mono i j x y hx hy hij := by
    by_cases hj : j = s.count
    · subst hj
      simp only [Function.update_self, Option.some.injEq] at hy
      subst hy
      simp only [Function.update_of_ne (Nat.ne_of_lt hij)] at hx
      exact fun k hk => h.seen i x hx k hk
    · simp only [Function.update_of_ne hj] at hy
      have hi : i ≠ s.count := Nat.ne_of_lt (Nat.lt_trans hij (h.lt_count hy))
      simp only [Function.update_of_ne hi] at hx
      exact h.seen_mono i j x y hx hy hij

/-- A call changes nothing the bookkeeping is about: `x'` has the client
and the past of `x`. -/
private theorem Bookkeeping.advance {i : Nat} {x x' : Op A L O ι α}
    {db : State D} (h : Bookkeeping s) (hna : i ∉ s.answered)
    (hx : s.op i = some x)
    (hclient : x'.client = x.client) (hseen : x'.seen = x.seen) :
    Bookkeeping
      { s with db := db, op := Function.update s.op i (some x') } := by
  -- every operation has a counterpart of the same client and past
  have hback : ∀ j y, Function.update s.op i (some x') j = some y →
      ∃ y₀, s.op j = some y₀ ∧ y.client = y₀.client
        ∧ y.seen = y₀.seen := by
    intro j y hy
    by_cases hj : j = i
    · subst hj
      simp only [Function.update_self, Option.some.injEq] at hy
      subst hy
      exact ⟨x, hx, hclient, hseen⟩
    · rw [Function.update_of_ne hj] at hy
      exact ⟨y, hy, rfl, rfl⟩
  refine ⟨fun j hj => ?_, fun c j hj => ?_, fun j y hy hna => ?_,
    h.answered_lt, fun j hj y hy => ?_, fun j y hy k hk => ?_,
    fun j k y z hy hz hyz hjk => ?_, fun j k y z hy hz hjk => ?_⟩
  · have hji : j ≠ i := by
      rintro rfl
      have := h.fresh j hj
      rw [hx] at this
      cases this
    exact (Function.update_of_ne hji _ _).trans (h.fresh j hj)
  · obtain ⟨y, hy, hcl⟩ := h.running c j hj
    by_cases hji : j = i
    · subst hji
      cases hx.symm.trans hy
      exact ⟨x', Function.update_self .., hclient.trans hcl⟩
    · exact ⟨y, (Function.update_of_ne hji _ _).trans hy, hcl⟩
  · obtain ⟨y₀, hy₀, hcl, -⟩ := hback j y hy
    rw [hcl]
    exact h.pending j y₀ hy₀ hna
  · have hji : j ≠ i := by
      rintro rfl
      exact hna hj
    simp only [Function.update_of_ne hji] at hy
    exact h.returned j hj y hy
  · obtain ⟨y₀, hy₀, -, hsn⟩ := hback j y hy
    exact h.seen j y₀ hy₀ k (by rw [← hsn]; exact hk)
  · obtain ⟨y₀, hy₀, hycl, -⟩ := hback j y hy
    obtain ⟨z₀, hz₀, hzcl, hzsn⟩ := hback k z hz
    rw [hzsn]
    exact h.sequential j k y₀ z₀ hy₀ hz₀ (by rw [← hycl, ← hzcl, hyz]) hjk
  · obtain ⟨y₀, hy₀, -, hysn⟩ := hback j y hy
    obtain ⟨z₀, hz₀, -, hzsn⟩ := hback k z hz
    rw [hysn, hzsn]
    exact h.seen_mono j k y₀ z₀ hy₀ hz₀ hjk

private theorem Bookkeeping.finish {i : Nat} {x : Op A L O ι α}
    (h : Bookkeeping s) (hx : s.op i = some x) :
    Bookkeeping (s.finish i x.rest) := by
  cases hrest : x.rest with
  | call cl k => exact h
  | ret a =>
      refine ⟨h.fresh, h.running, fun j y hy hna => ?_, fun j hj => ?_,
        fun j hj y hy => ?_, fun j y hy k hk => ?_, h.sequential,
        h.seen_mono⟩
      · exact h.pending j y hy fun hmem =>
          hna (List.mem_insert_of_mem hmem)
      · rcases List.mem_insert_iff.mp hj with rfl | hj
        · exact h.lt_count hx
        · exact h.answered_lt j hj
      · rcases List.mem_insert_iff.mp hj with rfl | hj
        · cases hx.symm.trans hy
          exact ⟨a, hrest⟩
        · exact h.returned j hj y hy
      · exact List.mem_insert_of_mem (h.seen j y hy k hk)

private theorem Bookkeeping.release {c i : Nat}
    {kept : Nat → Option Nat} (h : Bookkeeping s) (hi : s.cur c = some i)
    (hmem : i ∈ s.answered) :
    Bookkeeping
      { s with cur := Function.update s.cur c none, kept := kept } where
  fresh := h.fresh
  running c' j hj := by
    by_cases hc : c' = c
    · subst hc
      simp at hj
    · simp only [Function.update_of_ne hc] at hj
      exact h.running c' j hj
  pending j y hy hna := by
    have hrun := h.pending j y hy hna
    have hc : y.client ≠ c := by
      intro hc
      rw [hc, hi] at hrun
      cases hrun
      exact hna hmem
    exact (Function.update_of_ne hc _ _).trans hrun
  answered_lt := h.answered_lt
  returned := h.returned
  seen := h.seen
  sequential := h.sequential
  seen_mono := h.seen_mono

theorem Bookkeeping.step {a : Act O ι} (h : Bookkeeping s)
    (hs : Cfg.step R a s = some s') : Bookkeeping s' := by
  cases a with
  | invoke c l =>
      obtain ⟨hcur, rfl⟩ := Cfg.step_invoke hs
      exact h.stepInvoke hcur
  | call c o =>
      obtain ⟨i, x, cl, k, r, db, hi, hx, hrest, -, rfl⟩ :=
        Cfg.step_call hs
      have hadv : Bookkeeping
          { s with
            db := db
            op := Function.update s.op i
              (some (x.after o ⟨cl, r⟩ (k r))) } :=
        h.advance (h.not_answered hx hrest) hx rfl rfl
      exact hadv.finish (Function.update_self ..)
  | respond c =>
      obtain ⟨i, x, a, hi, hx, hrest, rfl⟩ := Cfg.step_respond hs
      have hfin := h.finish hx
      rw [hrest] at hfin
      exact hfin.release hi List.mem_insert_self

-- ======================================================= the invariant

variable (R) in
/-- What client `c` needs for its next step. Between operations the
transaction it keeps is its own and open; an operation it runs is tied
to the store, a marked one by its phase until it is answered. -/
structure ClientOk (g : Ghost D) (s : Cfg A L D O ι α) (c : Nat) :
    Prop where
  idle : s.cur c = none → ∀ t, s.kept c = some t →
    Reads g.owner s.db c t
  marked : ∀ i x, s.cur c = some i → s.op i = some x →
    R.atomic x.label = true → x.rest.Ensures (fun a => R.keep a = none)
      ∧ (i ∉ s.answered →
          ∃ ph, SingleTxn ph x.rest ∧ AtomicOk R g s.db c i x ph)
  plain : ∀ i x, s.cur c = some i → s.op i = some x →
    R.atomic x.label = false →
      ∃ live dead, PlainOk R.keep g.owner s.db c x.rest live dead

variable (R) in
/-- The effect of operation `i` in the order `g` keeps. -/
def Ghost.Effect (g : Ghost D) (s : Cfg A L D O ι α) (i : Nat)
    (d d' : D) : Prop :=
  ∃ x n, s.op i = some x ∧ Alone R x d n (g.st i) ∧ (g.st i).store = d'

variable (R) in
/-- `lin` orders marked operations, and none comes before one that was
answered when it was invoked. -/
structure Ordered (op : Nat → Option (Op A L O ι α)) (lin : List Nat) :
    Prop where
  nodup : lin.Nodup
  atomic : ∀ i ∈ lin, ∃ x, op i = some x ∧ R.atomic x.label = true
  realTime : lin.Pairwise fun i j => ∀ x, op i = some x → j ∉ x.seen

variable (R) in
structure Inv (d₀ : D) (s : Cfg A L D O ι α) (g : Ghost D) : Prop where
  book : Bookkeeping s
  lock : LockOk s.db
  clients : ∀ c, ClientOk R g s c
  order : Ordered R s.op g.lin
  complete : ∀ i ∈ s.answered, ∀ x, s.op i = some x →
    R.atomic x.label = true → i ∈ g.lin
  serial : Serial (g.Effect R s) d₀ g.lin s.db.store

variable {g g' : Ghost D} {d₀ : D} {c i : Nat}

theorem Inv.init (d : D) (n : Nat) :
    Inv R d (Cfg.init d n) ⟨fun _ => 0, [], fun _ => State.blank d n⟩ where
  book := Bookkeeping.init d n
  lock := lockOk_blank d n
  clients _ :=
    { idle := fun _ _ h => by cases h
      marked := fun _ _ h => by cases h
      plain := fun _ _ h => by cases h }
  order := ⟨List.nodup_nil, fun _ h => (by cases h), List.Pairwise.nil⟩
  complete _ h := by cases h
  serial := rfl

theorem Inv.linearized (h : Inv R d₀ s g) : Linearized R d₀ s g.lin where
  nodup := h.order.nodup
  atomic := h.order.atomic
  complete := h.complete
  realTime := h.order.realTime
  serial := h.serial.mono fun i _ _ _ ⟨x, n, hx, halone, hstore⟩ =>
    ⟨x, n, g.st i, hx, halone, hstore⟩

/-- A marked operation of one client is not disturbed by another. -/
theorem AtomicOk.frame {x : Op A L O ι α} {ph : Phase} {c' : Nat}
    {db db' : State D} (hc : c' ≠ c)
    (hf : Frame g.owner g'.owner db db' c)
    (hlin : i ∈ g'.lin ↔ i ∈ g.lin) (hst : g'.st i = g.st i)
    (h : AtomicOk R g db c' i x ph) : AtomicOk R g' db' c' i x ph := by
  cases ph with
  | idle => exact ⟨fun hi => h.1 (hlin.mp hi), h.2⟩
  | wr t =>
      obtain ⟨hnew, howned, hwriter, m, y, halone, hms, hmw, hmy, hy, hwr⟩ :=
        h
      have hne : g.owner t ≠ c := howned.1.trans_ne hc
      obtain ⟨hwriter', hstore⟩ := hf.lock t hne hwriter
      refine ⟨fun hi => hnew (hlin.mp hi), howned.frame hf, hwriter', m, y,
        ?_, hms.trans hstore.symm, hmw, hmy, ?_, hwr⟩
      · rw [hstore]
        exact halone
      · rw [hf.txns t howned.2 hne]
        exact hy
  | rd t =>
      obtain ⟨hold, howned, hw, y, hsy, hy, hrd⟩ := h
      have hne : g.owner t ≠ c := howned.1.trans_ne hc
      refine ⟨hlin.mpr hold, howned.frame hf, ?_, y, ?_, ?_, hrd⟩
      · rw [hst]
        exact hw
      · rw [hst]
        exact hsy
      · rw [hf.txns t howned.2 hne]
        exact hy
  | ended t =>
      obtain ⟨hold, howned, hw, hsn, hn⟩ := h
      have hne : g.owner t ≠ c := howned.1.trans_ne hc
      refine ⟨hlin.mpr hold, howned.frame hf, ?_, ?_, ?_⟩
      · rw [hst]
        exact hw
      · rw [hst]
        exact hsn
      · rw [hf.txns t howned.2 hne]
        exact hn

theorem PlainOk.frame {keep : α → Option Nat} {owner owner' : Nat → Nat}
    {db db' : State D} {c' : Nat} {p : Prog (txnSig A L) α}
    {live dead : List Nat} (hc : c' ≠ c)
    (hf : Frame owner owner' db db' c)
    (h : PlainOk keep owner db c' p live dead) :
    PlainOk keep owner' db' c' p live dead where
  nodup := h.nodup
  open_of_live t ht := (h.open_of_live t ht).frame hc hf
  ended_of_dead t ht := by
    obtain ⟨howned, hn⟩ := h.ended_of_dead t ht
    exact ⟨howned.frame hf,
      (hf.txns t howned.2 (howned.1.trans_ne hc)).trans hn⟩
  disc := h.disc
  readOnly := h.readOnly

/-- A step of client `c` leaves the others what they need. -/
theorem ClientOk.frame {c' : Nat} (hc : c' ≠ c)
    (hf : Frame g.owner g'.owner s.db s'.db c)
    (hcur : s'.cur c' = s.cur c') (hkept : s'.kept c' = s.kept c')
    (hop : ∀ j, s.cur c' = some j → s'.op j = s.op j
      ∧ (j ∈ g'.lin ↔ j ∈ g.lin) ∧ g'.st j = g.st j)
    (hans : s.answered ⊆ s'.answered)
    (h : ClientOk R g s c') : ClientOk R g' s' c' where
  idle hnone t ht := by
    rw [hcur] at hnone
    rw [hkept] at ht
    exact (h.idle hnone t ht).frame hc hf
  marked j x hj hx hatomic := by
    rw [hcur] at hj
    obtain ⟨hopj, hlin, hst⟩ := hop j hj
    rw [hopj] at hx
    obtain ⟨hkeep, hok⟩ := h.marked j x hj hx hatomic
    refine ⟨hkeep, fun hna => ?_⟩
    obtain ⟨ph, hsingle, hok⟩ := hok fun hmem => hna (hans hmem)
    exact ⟨ph, hsingle, hok.frame hc hf hlin hst⟩
  plain j x hj hx hatomic := by
    rw [hcur] at hj
    rw [(hop j hj).1] at hx
    obtain ⟨live, dead, hok⟩ := h.plain j x hj hx hatomic
    exact ⟨live, dead, hok.frame hc hf⟩

-- ====================================================== the three steps

theorem Frame.refl (owner : Nat → Nat) (db : State D) (c : Nat) :
    Frame owner owner db db c where
  next := Nat.le_refl _
  owner_eq _ _ := rfl
  txns _ _ _ := rfl
  lock _ _ hw := ⟨hw, rfl⟩

/-- An order stays one while its operations keep label and past. -/
theorem Ordered.congr {op op' : Nat → Option (Op A L O ι α)}
    {lin : List Nat} (h : Ordered R op lin)
    (hop : ∀ i ∈ lin, ∀ x, op i = some x → ∃ x', op' i = some x'
      ∧ x'.label = x.label ∧ x'.seen = x.seen) : Ordered R op' lin := by
  refine ⟨h.nodup, fun i hi => ?_, ?_⟩
  · obtain ⟨x, hx, hatomic⟩ := h.atomic i hi
    obtain ⟨x', hx', hlabel, -⟩ := hop i hi x hx
    exact ⟨x', hx', by rw [hlabel]; exact hatomic⟩
  · refine h.realTime.imp_of_mem fun {i j} hi _ hij x' hx' => ?_
    obtain ⟨x, hx, -⟩ := h.atomic i hi
    obtain ⟨x'', hx'', -, hseen⟩ := hop i hi x hx
    cases hx''.symm.trans hx'
    rw [hseen]
    exact hij x hx

/-- An operation nobody has seen answered can be put last. -/
theorem Ordered.snoc {op : Nat → Option (Op A L O ι α)} {lin : List Nat}
    {x : Op A L O ι α} (h : Ordered R op lin) (hnew : i ∉ lin)
    (hx : op i = some x) (hatomic : R.atomic x.label = true)
    (hseen : ∀ j y, op j = some y → i ∉ y.seen) :
    Ordered R op (lin ++ [i]) := by
  refine ⟨?_, fun j hj => ?_, ?_⟩
  · rw [← List.concat_eq_append]
    exact h.nodup.concat hnew
  · rcases List.mem_append.mp hj with hj | hj
    · exact h.atomic j hj
    · rw [List.mem_singleton.mp hj]
      exact ⟨x, hx, hatomic⟩
  · refine List.pairwise_append.mpr ⟨h.realTime, List.pairwise_singleton ..,
      fun j _ k hk y hy => ?_⟩
    rw [List.mem_singleton.mp hk]
    exact hseen j y hy

/-- The client of a new operation: a marked one starts idle, the others
with the transaction the client kept. -/
private theorem Inv.clientInvoke {l : ι} (h : Inv R d₀ s g)
    (hcur : s.cur c = none) (hadmits : s.Admits R (.invoke c l)) :
    ClientOk R g
      { s with
        op := Function.update s.op s.count
          (some ⟨c, l, R.prog l, [], [], s.answered⟩)
        count := s.count + 1
        cur := Function.update s.cur c (some s.count) } c := by
  have hnew : ∀ i x, Function.update s.cur c (some s.count) c = some i →
      Function.update s.op s.count
        (some ⟨c, l, R.prog l, [], [], s.answered⟩) i = some x →
      i = s.count ∧ x = ⟨c, l, R.prog l, [], [], s.answered⟩ := by
    intro i x hi hx
    simp only [Function.update_self, Option.some.injEq] at hi
    subst hi
    simp only [Function.update_self, Option.some.injEq] at hx
    exact ⟨rfl, hx.symm⟩
  refine ⟨fun hnone => ?_, fun i x hi hx hatomic => ?_,
    fun i x hi hx hatomic => ?_⟩
  · simp at hnone
  · obtain ⟨rfl, rfl⟩ := hnew i x hi hx
    simp only [Cfg.Admits, if_pos hatomic] at hadmits
    refine ⟨hadmits.2, fun _ => ⟨.idle, hadmits.1, fun hmem => ?_,
      fun d n => rfl⟩⟩
    obtain ⟨y, hy, -⟩ := h.order.atomic _ hmem
    exact Nat.lt_irrefl _ (h.book.lt_count hy)
  · obtain ⟨rfl, rfl⟩ := hnew i x hi hx
    have hplain : ¬ R.atomic l = true := by
      rw [Bool.not_eq_true]
      exact hatomic
    simp only [Cfg.Admits, if_neg hplain] at hadmits
    refine ⟨(s.kept c).toList, [], ?_, fun t ht => ?_, fun t ht => ?_,
      hadmits.1, hadmits.2⟩
    · cases s.kept c with
      | none => exact List.nodup_nil
      | some t => exact List.nodup_singleton t
    · exact (h.clients c).idle hcur t (Option.mem_toList.mp ht)
    · cases ht

/-- A new operation has its discipline and no place yet. -/
private theorem Inv.stepInvoke {l : ι} (h : Inv R d₀ s g)
    (hs : Cfg.step R (.invoke c l) s = some s')
    (hadmits : s.Admits R (.invoke c l)) : Inv R d₀ s' g := by
  have hbook := h.book.step hs
  obtain ⟨hcur, rfl⟩ := Cfg.step_invoke hs
  have hold : ∀ j y, s.op j = some y → Function.update s.op s.count
      (some ⟨c, l, R.prog l, [], [], s.answered⟩) j = some y := by
    intro j y hy
    exact (Function.update_of_ne (Nat.ne_of_lt (h.book.lt_count hy)) _
      _).trans hy
  refine ⟨hbook, h.lock, fun c' => ?_, ?_, fun i hi x hx => ?_, ?_⟩
  · by_cases hc : c' = c
    · subst hc
      exact h.clientInvoke hcur hadmits
    · refine ClientOk.frame (s := s) hc (Frame.refl g.owner s.db c)
        (Function.update_of_ne hc _ _) rfl (fun j hj => ?_)
        (List.Subset.refl _) (h.clients c')
      obtain ⟨y, hy, -⟩ := h.book.running c' j hj
      exact ⟨(hold j y hy).trans hy.symm, Iff.rfl, rfl⟩
  · exact h.order.congr fun i _ x hx => ⟨x, hold i x hx, rfl, rfl⟩
  · have hne : i ≠ s.count := Nat.ne_of_lt (h.book.answered_lt i hi)
    simp only [Function.update_of_ne hne] at hx
    exact h.complete i hi x hx
  · exact h.serial.mono fun i _ _ _ ⟨x, n, hx, heff⟩ =>
      ⟨x, n, hold i x hx, heff⟩

section Call

variable {x x' : Op A L O ι α} {db : State D}

theorem Placed.mem_iff {db₀ : State D} {j : Nat} (hj : j ≠ i)
    (h : Placed R g g' db₀ db i x x') : j ∈ g'.lin ↔ j ∈ g.lin := by
  cases h with
  | later hlin => rw [hlin]
  | before hlin => rw [hlin]
  | now n hlin => simp [hlin, hj]

/-- The order after a call of operation `i`. -/
private theorem Placed.ordered (h : Inv R d₀ s g) (hna : i ∉ s.answered)
    (hx : s.op i = some x) (hlabel : x'.label = x.label)
    (hseen : x'.seen = x.seen)
    (hmark : R.atomic x.label = true ∨ g'.lin = g.lin)
    (hplaced : Placed R g g' s.db db i x x') :
    Ordered R (Function.update s.op i (some x')) g'.lin := by
  have hback : ∀ j y, Function.update s.op i (some x') j = some y →
      ∃ y₀, s.op j = some y₀ ∧ y.seen = y₀.seen := by
    intro j y hy
    by_cases hj : j = i
    · subst hj
      simp only [Function.update_self, Option.some.injEq] at hy
      subst hy
      exact ⟨x, hx, hseen⟩
    · rw [Function.update_of_ne hj] at hy
      exact ⟨y, hy, rfl⟩
  have hold : Ordered R (Function.update s.op i (some x')) g.lin := by
    refine h.order.congr fun j _ y hy => ?_
    by_cases hj : j = i
    · subst hj
      cases hx.symm.trans hy
      exact ⟨x', Function.update_self .., hlabel, hseen⟩
    · exact ⟨y, (Function.update_of_ne hj _ _).trans hy, rfl, rfl⟩
  cases hplaced with
  | later hlin => rw [hlin]; exact hold
  | before hlin => rw [hlin]; exact hold
  | now n hlin hnew =>
      have hatomic : R.atomic x.label = true := by
        rcases hmark with hatomic | hsame
        · exact hatomic
        · simp [hsame] at hlin
      rw [hlin]
      refine hold.snoc hnew (Function.update_self ..)
        (by rw [hlabel]; exact hatomic) fun j y hy hmem => ?_
      -- what is not answered, nobody has seen answered
      obtain ⟨y₀, hy₀, hyseen⟩ := hback j y hy
      rw [hyseen] at hmem
      exact hna (h.book.seen j y₀ hy₀ i hmem)

/-- Executing the order one by one, after a call of operation `i`. -/
private theorem Placed.serial (h : Inv R d₀ s g)
    (hst : ∀ j, j ≠ i → g'.st j = g.st j)
    (hx : s.op i = some x)
    (hplaced : Placed R g g' s.db db i x x') :
    Serial (g'.Effect R
        { s with db := db, op := Function.update s.op i (some x') })
      d₀ g'.lin db.store := by
  have hothers : ∀ j, j ≠ i → ∀ d d', g.Effect R s j d d' → g'.Effect R
      { s with db := db, op := Function.update s.op i (some x') } j d d' := by
    rintro j hj d d' ⟨y, n, hy, heff⟩
    refine ⟨y, n, (Function.update_of_ne hj _ _).trans hy, ?_⟩
    rw [hst j hj]
    exact heff
  cases hplaced with
  | later hlin hnew hstore =>
      rw [hlin, hstore]
      refine h.serial.mono fun j hj => hothers j ?_
      rintro rfl
      exact hnew hj
  | now n hlin hnew halone hstore =>
      rw [hlin]
      refine Serial.snoc (h.serial.mono fun j hj => hothers j ?_)
        ⟨x', n, Function.update_self .., halone, hstore⟩
      rintro rfl
      exact hnew hj
  | before hlin hold hstore hst' halone =>
      rw [hlin, hstore]
      refine h.serial.mono fun j _ d d' heff => ?_
      by_cases hj : j = i
      · subst hj
        obtain ⟨y, n, hy, hy', hd'⟩ := heff
        cases hx.symm.trans hy
        exact ⟨x', n, Function.update_self .., halone d n hy',
          hst'.trans hd'⟩
      · exact hothers j hj d d' heff

/-- A call moves its operation on, given what it does for its own
client. -/
private theorem Inv.advance (h : Inv R d₀ s g) (hi : s.cur c = some i)
    (hna : i ∉ s.answered) (hx : s.op i = some x)
    (hclient : x'.client = x.client) (hlabel : x'.label = x.label)
    (hseen : x'.seen = x.seen) (hlock : LockOk db)
    (hown : ClientOk R g'
      { s with db := db, op := Function.update s.op i (some x') } c)
    (hframe : Frame g.owner g'.owner s.db db c)
    (hst : ∀ j, j ≠ i → g'.st j = g.st j)
    (hmark : R.atomic x.label = true ∨ g'.lin = g.lin)
    (hplaced : Placed R g g' s.db db i x x') :
    Inv R d₀
      { s with db := db, op := Function.update s.op i (some x') } g' := by
  refine ⟨h.book.advance hna hx hclient hseen, hlock, fun c' => ?_,
    hplaced.ordered h hna hx hlabel hseen hmark,
    fun j hj y hy hatomic => ?_, hplaced.serial h hst hx⟩
  · by_cases hc : c' = c
    · rw [hc]
      exact hown
    · refine ClientOk.frame (s := s) hc hframe rfl rfl (fun j hj => ?_)
        (List.Subset.refl _) (h.clients c')
      have hji : j ≠ i := by
        rintro rfl
        exact hc (h.book.client_eq hi hj)
      exact ⟨Function.update_of_ne hji _ _, hplaced.mem_iff hji, hst j hji⟩
  · have hji : j ≠ i := by
      rintro rfl
      exact hna hj
    simp only [Function.update_of_ne hji] at hy
    exact (hplaced.mem_iff hji).mpr (h.complete j hj y hy hatomic)

end Call

/-- A call of a marked operation moves its phase; a call of another
leaves committed data and lock alone. -/
private theorem Inv.call {x : Op A L O ι α} {cl : TxnCall A L}
    {k : cl.Ret → Prog (txnSig A L) α} {r : cl.Ret} {db : State D} {o : O}
    (h : Inv R d₀ s g) (hi : s.cur c = some i) (hx : s.op i = some x)
    (hrest : x.rest = .call cl k)
    (hstep : Mvcc.step R.sem o s.db cl = some (r, db)) :
    ∃ g', Inv R d₀
      { s with
        db := db
        op := Function.update s.op i (some (x.after o ⟨cl, r⟩ (k r))) }
      g' := by
  have hlock := step_lockOk h.lock hstep
  have hna := h.book.not_answered hx hrest
  -- the client runs `i` and nothing else
  have honly : ∀ j y, s.cur c = some j → Function.update s.op i
      (some (x.after o ⟨cl, r⟩ (k r))) j = some y →
      j = i ∧ y = x.after o ⟨cl, r⟩ (k r) := by
    intro j y hj hy
    cases hi.symm.trans hj
    simp only [Function.update_self, Option.some.injEq] at hy
    exact ⟨rfl, hy.symm⟩
  cases hatomic : R.atomic x.label with
  | true =>
      obtain ⟨hkeep, hok⟩ := (h.clients c).marked i x hi hx hatomic
      obtain ⟨ph, hsingle, hok⟩ := hok hna
      obtain ⟨g', ph', hadv⟩ := hok.step h.lock hsingle hrest hstep
      refine ⟨g', h.advance hi hna hx rfl rfl rfl hlock ?_ hadv.frame
        hadv.st (Or.inl hatomic) hadv.placed⟩
      refine ⟨fun hnone => ?_, fun j y hj hy _ => ?_,
        fun j y hj hy hplain => ?_⟩
      · cases hi.symm.trans hnone
      · obtain ⟨rfl, rfl⟩ := honly j y hj hy
        rw [hrest] at hkeep
        exact ⟨hkeep r, fun _ => ⟨ph', hadv.single, hadv.ok⟩⟩
      · obtain ⟨rfl, rfl⟩ := honly j y hj hy
        exact absurd hplain (by simp [Op.after, hatomic])
  | false =>
      obtain ⟨live, dead, hok⟩ := (h.clients c).plain i x hi hx hatomic
      rw [hrest] at hok
      obtain ⟨owner', live', dead', hok', hframe, -, hstore⟩ :=
        hok.step h.lock hstep
      have hnew : i ∉ g.lin := by
        intro hmem
        obtain ⟨y, hy, hyatomic⟩ := h.order.atomic i hmem
        cases hx.symm.trans hy
        rw [hatomic] at hyatomic
        cases hyatomic
      refine ⟨{ g with owner := owner' }, h.advance hi hna hx rfl rfl rfl
        hlock ?_ hframe (fun _ _ => rfl) (Or.inr rfl)
        (.later rfl hnew hstore)⟩
      refine ⟨fun hnone => ?_, fun j y hj hy hmarked => ?_,
        fun j y hj hy _ => ?_⟩
      · cases hi.symm.trans hnone
      · obtain ⟨rfl, rfl⟩ := honly j y hj hy
        exact absurd hmarked (by simp [Op.after, hatomic])
      · obtain ⟨rfl, rfl⟩ := honly j y hj hy
        exact ⟨live', dead', hok'⟩

/-- Operation `i` is answered, given an account in which it has its
place if it is marked. -/
private theorem Inv.answer {x : Op A L O ι α} {a : α}
    (h : Inv R d₀ s g) (hi : s.cur c = some i) (hx : s.op i = some x)
    (hrest : x.rest = .ret a) (howner : g'.owner = g.owner)
    (hothers : ∀ j, j ≠ i → (j ∈ g'.lin ↔ j ∈ g.lin) ∧ g'.st j = g.st j)
    (hplaced : R.atomic x.label = true → i ∈ g'.lin)
    (horder : Ordered R s.op g'.lin)
    (hserial : Serial (g'.Effect R s) d₀ g'.lin s.db.store) :
    Inv R d₀ { s with answered := s.answered.insert i } g' := by
  have hbook := h.book.finish hx
  rw [hrest] at hbook
  refine ⟨hbook, h.lock, fun c' => ?_, horder, fun j hj y hy hatomic => ?_,
    hserial⟩
  · by_cases hc : c' = c
    · subst hc
      refine ⟨fun hnone => ?_, fun j y hj hy hatomic => ?_,
        fun j y hj hy hatomic => ?_⟩
      · cases hi.symm.trans hnone
      · cases hi.symm.trans hj
        refine ⟨((h.clients c').marked _ y hi hy hatomic).1, fun hna => ?_⟩
        exact absurd List.mem_insert_self hna
      · rw [howner]
        exact (h.clients c').plain j y hj hy hatomic
    · refine ClientOk.frame (s := s) hc
        (by rw [howner]; exact Frame.refl g.owner s.db c)
        rfl rfl (fun j hj => ?_)
        (fun _ hmem => List.mem_insert_of_mem hmem) (h.clients c')
      refine ⟨rfl, hothers j ?_⟩
      rintro rfl
      exact hc (h.book.client_eq hi hj)
  · by_cases hji : j = i
    · subst hji
      cases hx.symm.trans hy
      exact hplaced hatomic
    · have hold : j ∈ s.answered :=
        (List.mem_insert_iff.mp hj).resolve_left hji
      exact (hothers j hji).1.mpr (h.complete j hold y hy hatomic)

/-- Operation `i` gets its place, having reached `m` by itself. -/
def Ghost.place (g : Ghost D) (i : Nat) (m : State D) : Ghost D :=
  ⟨g.owner, g.lin ++ [i], Function.update g.st i m⟩

/-- An operation that never had a transaction can take its place at any
time: it changes no store and its answers depend on none. -/
private theorem Inv.place {x : Op A L O ι α} (h : Inv R d₀ s g)
    (hna : i ∉ s.answered) (hx : s.op i = some x)
    (hatomic : R.atomic x.label = true) (hnew : i ∉ g.lin)
    (halone : ∀ d n, Alone R x d n (State.blank d n)) :
    Ordered R s.op (g.place i (State.blank s.db.store 0)).lin
      ∧ Serial ((g.place i (State.blank s.db.store 0)).Effect R s) d₀
          (g.place i (State.blank s.db.store 0)).lin s.db.store := by
  have hself : Function.update s.op i (some x) = s.op := by
    rw [← hx]
    exact Function.update_eq_self i s.op
  have hplaced : Placed R g (g.place i (State.blank s.db.store 0)) s.db
      s.db i x x := by
    refine .now 0 rfl hnew ?_ ?_
    · simpa [Ghost.place] using halone s.db.store 0
    · simp [Ghost.place, State.blank]
  have hord := hplaced.ordered h hna hx rfl rfl (Or.inl hatomic)
  have hser := hplaced.serial h (fun j hj => Function.update_of_ne hj _ _) hx
  rw [hself] at hord hser
  exact ⟨hord, hser⟩

/-- An operation with nothing left to do has its place, or takes it
now. -/
private theorem Inv.finish {x : Op A L O ι α} (h : Inv R d₀ s g)
    (hi : s.cur c = some i) (hx : s.op i = some x) :
    ∃ g', Inv R d₀ (s.finish i x.rest) g' := by
  cases hrest : x.rest with
  | call cl k => exact ⟨g, h⟩
  | ret a =>
      have hsame : ∀ j, j ≠ i →
          (j ∈ g.lin ↔ j ∈ g.lin) ∧ g.st j = g.st j :=
        fun _ _ => ⟨Iff.rfl, rfl⟩
      -- nothing to do if it has its place or needs none
      by_cases hplaced : R.atomic x.label = true → i ∈ g.lin
      · exact ⟨g, h.answer hi hx hrest rfl hsame hplaced h.order h.serial⟩
      obtain ⟨hatomic, hnew⟩ := Classical.not_imp.mp hplaced
      have hna : i ∉ s.answered := fun hmem =>
        hnew (h.complete i hmem x hx hatomic)
      obtain ⟨ph, hsingle, hok⟩ :=
        ((h.clients c).marked i x hi hx hatomic).2 hna
      rw [hrest] at hsingle
      cases ph with
      | idle =>
          obtain ⟨horder, hserial⟩ := h.place hna hx hatomic hok.1 hok.2
          refine ⟨g.place i (State.blank s.db.store 0),
            h.answer hi hx hrest rfl (fun j hj => ?_)
              (fun _ => by simp [Ghost.place]) horder hserial⟩
          exact ⟨by simp [Ghost.place, hj], Function.update_of_ne hj _ _⟩
      | rd t => exact absurd hok.1 hnew
      | ended t => exact absurd hok.1 hnew
      | wr t => exact absurd rfl (hsingle t)

/-- The client of an answered operation is released, with the
transaction the result hands over. -/
private theorem Inv.release {x : Op A L O ι α} {a : α}
    (h : Inv R d₀ s g) (hi : s.cur c = some i) (hx : s.op i = some x)
    (hrest : x.rest = .ret a) (hmem : i ∈ s.answered) :
    Inv R d₀
      { s with
        cur := Function.update s.cur c none
        kept := Function.update s.kept c (R.keep a) } g := by
  refine ⟨h.book.release hi hmem, h.lock, fun c' => ?_, h.order, h.complete,
    h.serial⟩
  by_cases hc : c' = c
  · subst hc
    refine ⟨fun _ t ht => ?_, fun j y hj => ?_, fun j y hj => ?_⟩
    · simp only [Function.update_self] at ht
      cases hatomic : R.atomic x.label with
      | true =>
          have hkeep := ((h.clients c').marked i x hi hx hatomic).1
          rw [hrest] at hkeep
          cases ht.symm.trans hkeep
      | false =>
          obtain ⟨live, dead, hok⟩ :=
            (h.clients c').plain i x hi hx hatomic
          rw [hrest] at hok
          exact hok.open_of_live t (hok.disc t ht)
    · simp at hj
    · simp at hj
  · exact ClientOk.frame (s := s) hc (Frame.refl g.owner s.db c)
      (Function.update_of_ne hc _ _) (Function.update_of_ne hc _ _)
      (fun j _ => ⟨rfl, Iff.rfl, rfl⟩) (List.Subset.refl _) (h.clients c')

-- ========================================================== whole runs

theorem Inv.step {a : Act O ι} (h : ∃ g, Inv R d₀ s g)
    (hadmits : s.Admits R a) (hs : Cfg.step R a s = some s') :
    ∃ g', Inv R d₀ s' g' := by
  obtain ⟨g, h⟩ := h
  cases a with
  | invoke c l => exact ⟨g, h.stepInvoke hs hadmits⟩
  | call c o =>
      obtain ⟨i, x, cl, k, r, db, hi, hx, hrest, hstep, rfl⟩ :=
        Cfg.step_call hs
      obtain ⟨g', h'⟩ := h.call hi hx hrest hstep
      exact h'.finish hi (x := x.after o ⟨cl, r⟩ (k r))
        (Function.update_self ..)
  | respond c =>
      obtain ⟨i, x, a, hi, hx, hrest, rfl⟩ := Cfg.step_respond hs
      obtain ⟨g', h'⟩ := h.finish hi hx
      rw [hrest] at h'
      exact ⟨g', h'.release hi hx hrest List.mem_insert_self⟩

end Mvcc

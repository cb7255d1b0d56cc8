/-
Serial execution, and how one operation moves towards it.

The operations marked atomic are to be put in an order in which each,
executed by itself on the store its predecessors left (`Alone`), gets
the answers it got; `Serial` is the execution one by one. This module
has the steps of a single operation. Lib/Linear.lean puts them together
for whole runs.

# Where an operation takes effect

An operation's place in the order is fixed at one of its steps:

- a read transaction's begin, when its snapshot is taken;
- a write transaction's end, commit or abort: since the begin it has
  held the lock, so the store it started from is the store still
  committed;
- the response, if it never had a transaction.

# How it is tied to the store until it responds

An operation that is still running is tied to the store by its phase
(`AtomicOk`): the transaction it has open there and the one it has open
by itself show the same data. That stays true while others move because
a transaction is touched only by its owner, and while a writer holds the
lock the committed data stand still (`Frame`).
-/
import FineDB.Lib.Clients
import Mathlib.Data.List.Pairwise
import Mathlib.Data.List.Nodup

namespace Mvcc

open Effect

-- ====================================================== serial execution

section Serial

variable {D : Type}

/-- Executing the operations of a list one after the other takes `d` to
`d'`; `E i` is the effect of operation `i`. -/
def Serial (E : Nat → D → D → Prop) : D → List Nat → D → Prop
  | d, [], d' => d = d'
  | d, i :: l, d' => ∃ d₁, E i d d₁ ∧ Serial E d₁ l d'

variable {E E' : Nat → D → D → Prop} {d d' d'' : D} {l : List Nat}

theorem Serial.mono (hE : ∀ i ∈ l, ∀ d d', E i d d' → E' i d d')
    (h : Serial E d l d') : Serial E' d l d' := by
  induction l generalizing d with
  | nil => exact h
  | cons i l ih =>
      obtain ⟨d₁, hi, hl⟩ := h
      rw [List.forall_mem_cons] at hE
      exact ⟨d₁, hE.1 d d₁ hi, ih hE.2 hl⟩

theorem Serial.snoc {i : Nat} (h : Serial E d l d') (hi : E i d' d'') :
    Serial E d (l ++ [i]) d'' := by
  induction l generalizing d with
  | nil =>
      cases h
      exact ⟨d'', hi, rfl⟩
  | cons j l ih =>
      obtain ⟨d₁, hj, hl⟩ := h
      exact ⟨d₁, hj, ih hl⟩

/-- Leaving out the operations that do nothing, and naming the others
anew. -/
theorem Serial.filterMap {f : Nat → Option Nat}
    (hskip : ∀ i ∈ l, f i = none → ∀ d d', E i d d' → d' = d)
    (hname : ∀ i ∈ l, ∀ j, f i = some j → ∀ d d', E i d d' → E' j d d')
    (h : Serial E d l d') : Serial E' d (l.filterMap f) d' := by
  induction l generalizing d with
  | nil => exact h
  | cons i l ih =>
      obtain ⟨d₁, hi, hl⟩ := h
      rw [List.forall_mem_cons] at hskip hname
      have hrest := ih hskip.2 hname.2 hl
      cases hf : f i with
      | none =>
          rw [List.filterMap_cons_none hf, ← hskip.1 hf d d₁ hi]
          exact hrest
      | some j =>
          rw [List.filterMap_cons_some hf]
          exact ⟨d₁, hname.1 j hf d d₁ hi, hrest⟩

end Serial

variable {A L : Signature} {D O ι α : Type}

/-- Operation `x` by itself, from the store `d`: the same outcomes give
the same answers, and leave the state `m`. -/
def Alone (R : Rules A L D O ι α) (x : Op A L O ι α) (d : D) (n : Nat)
    (m : State D) : Prop :=
  exec R.sem x.outs (State.blank d n) (R.prog x.label)
    = some (x.trace, x.rest, m)

-- ============================================================ ownership

/-- Transaction `t` is client `c`'s. -/
def Owned (owner : Nat → Nat) (db : State D) (c t : Nat) : Prop :=
  owner t = c ∧ t < db.next

/-- Client `c` has the read transaction `t` open. -/
def Reads (owner : Nat → Nat) (db : State D) (c t : Nat) : Prop :=
  Owned owner db c t ∧ ∃ y, db.txns t = some y ∧ y.rdonly = true

/-- An unmarked operation of client `c` with `p` left to do. -/
structure PlainOk (keep : α → Option Nat) (owner : Nat → Nat)
    (db : State D) (c : Nat) (p : Prog (txnSig A L) α)
    (live dead : List Nat) : Prop where
  nodup : live.Nodup
  open_of_live : ∀ t ∈ live, Reads owner db c t
  ended_of_dead : ∀ t ∈ dead, Owned owner db c t ∧ db.txns t = none
  disc : Disc keep live dead p
  readOnly : ReadOnly p

/-- What a step of client `c` leaves alone. -/
structure Frame (owner owner' : Nat → Nat) (db db' : State D)
    (c : Nat) : Prop where
  next : db.next ≤ db'.next
  owner_eq : ∀ t < db.next, owner' t = owner t
  txns : ∀ t < db.next, owner t ≠ c → db'.txns t = db.txns t
  lock : ∀ t, owner t ≠ c → db.writer = some t →
    db'.writer = some t ∧ db'.store = db.store

section Steps

variable {sem : Sem A L D O} {o : O} {db db' : State D}
  {owner owner' : Nat → Nat} {c t : Nat}

theorem Owned.frame {c' : Nat} (hf : Frame owner owner' db db' c)
    (h : Owned owner db c' t) : Owned owner' db' c' t :=
  ⟨(hf.owner_eq t h.2).trans h.1, Nat.lt_of_lt_of_le h.2 hf.next⟩

theorem Reads.frame {c' : Nat} (hc : c' ≠ c)
    (hf : Frame owner owner' db db' c) (h : Reads owner db c' t) :
    Reads owner' db' c' t := by
  obtain ⟨howned, y, hy, hrd⟩ := h
  refine ⟨howned.frame hf, y, ?_, hrd⟩
  rw [hf.txns t howned.2 (howned.1.trans_ne hc), hy]

/-- A step that changes neither lock nor store frames everything but the
transactions of its client. -/
theorem frame_of_quiet {cl : TxnCall A L} {r : cl.Ret}
    (hs : step sem o db cl = some (r, db'))
    (howner : ∀ t < db.next, owner' t = owner t)
    (habout : ∀ t ∈ cl.about, owner t = c)
    (hwriter : db'.writer = db.writer) (hstore : db'.store = db.store) :
    Frame owner owner' db db' c where
  next := step_next_le hs
  owner_eq := howner
  txns t hlt hne := step_txns_frame hs hlt fun hmem => hne (habout t hmem)
  lock _ _ hw := ⟨hwriter.trans hw, hstore⟩

/-- A step that changes only transaction `t` of client `c`, which holds
the lock: nobody else counts on the store standing still. -/
theorem frame_of_holder (howned : Owned owner db c t)
    (hwriter : db.writer = some t) (hnext : db.next ≤ db'.next)
    (htxns : ∀ u, u ≠ t → db'.txns u = db.txns u) :
    Frame owner owner db db' c where
  next := hnext
  owner_eq _ _ := rfl
  txns u _ hne := htxns u fun hut => hne (by rw [hut]; exact howned.1)
  lock u hne hw := by
    rw [hwriter] at hw
    cases hw
    exact absurd howned.1 hne

/-- A read transaction the step did not touch. -/
theorem Reads.of_txns_eq (h : Reads owner db c t)
    (howner : owner' t = owner t) (hnext : db.next ≤ db'.next)
    (htxns : db'.txns t = db.txns t) : Reads owner' db' c t := by
  obtain ⟨⟨hown, hlt⟩, y, hy, hrd⟩ := h
  exact ⟨⟨howner.trans hown, Nat.lt_of_lt_of_le hlt hnext⟩, y,
    htxns.trans hy, hrd⟩

theorem close_writer_of_ne {m : State D} (h : m.writer ≠ some t) :
    (m.close t).writer = m.writer := if_neg h

/-- One call of an unmarked operation: it keeps its discipline and
touches nothing but its client's transactions. -/
theorem PlainOk.step {keep : α → Option Nat} {cl : TxnCall A L}
    {k : cl.Ret → Prog (txnSig A L) α} {r : cl.Ret} {live dead : List Nat}
    (h : PlainOk keep owner db c (.call cl k) live dead)
    (hlock : LockOk db) (hs : step sem o db cl = some (r, db')) :
    ∃ owner' live' dead', PlainOk keep owner' db' c (k r) live' dead'
      ∧ Frame owner owner' db db' c
      ∧ db'.writer = db.writer ∧ db'.store = db.store := by
  obtain ⟨hnd, hlive, hdead, hdisc, hro⟩ := h
  have hro' : ReadOnly (k r) := hro.2 r
  cases cl with
  | txnBegin rdonly =>
      have hrd : rdonly = true := by
        by_contra hne
        exact hro.1.1 (by rw [Bool.not_eq_true] at hne; rw [hne])
      subst hrd
      obtain ⟨hnone, hsome⟩ := hdisc
      obtain ⟨-, -, rfl, rfl⟩ | ⟨-, rfl, rfl⟩ := step_begin hs
      · -- the new transaction is the client's from now on
        have hlt : ∀ t, t ∈ live ∨ t ∈ dead → t < db.next := by
          rintro t (ht | ht)
          · exact (hlive t ht).1.2
          · exact (hdead t ht).1.2
        have howner : ∀ t < db.next,
            Function.update owner db.next c t = owner t := fun t ht =>
          Function.update_of_ne (by omega) _ _
        have htxns : ∀ t < db.next, (db.openTxn true).txns t = db.txns t :=
          fun t ht => Function.update_of_ne (by omega) _ _
        refine ⟨Function.update owner db.next c, db.next :: live, dead,
          ⟨?_, ?_, ?_, ?_, hro'⟩,
          frame_of_quiet hs howner (by simp [TxnCall.about]) rfl rfl,
          rfl, rfl⟩
        · refine List.nodup_cons.mpr ⟨fun hmem => ?_, hnd⟩
          exact Nat.lt_irrefl _ (hlt _ (Or.inl hmem))
        · rw [List.forall_mem_cons]
          refine ⟨⟨⟨Function.update_self .., Nat.lt_succ_self _⟩, _,
            Function.update_self .., rfl⟩, fun t ht => ?_⟩
          have := hlt t (Or.inl ht)
          exact (hlive t ht).of_txns_eq (howner t this) (Nat.le_succ _)
            (htxns t this)
        · intro t ht
          have htlt := hlt t (Or.inr ht)
          obtain ⟨⟨hown, -⟩, hclosed⟩ := hdead t ht
          exact ⟨⟨(howner t htlt).trans hown, Nat.lt_succ_of_lt htlt⟩,
            (htxns t htlt).trans hclosed⟩
        · refine hsome db.next (fun hmem => ?_) fun hmem => ?_
          · exact Nat.lt_irrefl _ (hlt _ (Or.inl hmem))
          · exact Nat.lt_irrefl _ (hlt _ (Or.inr hmem))
      · exact ⟨owner, live, dead, ⟨hnd, hlive, hdead, hnone, hro'⟩,
          frame_of_quiet hs (fun _ _ => rfl) (by simp [TxnCall.about]) rfl
            rfl, rfl, rfl⟩
  | commit t => exact absurd rfl (hro.1.2 t)
  | abort t =>
      obtain ⟨hmem, hdisc⟩ := hdisc
      have howned : Owned owner db c t := by
        rcases hmem with ht | ht
        · exact (hlive t ht).1
        · exact (hdead t ht).1
      -- the lock is held by a write transaction, which `t` is not
      have hw : db.writer ≠ some t := by
        intro hw
        obtain ⟨-, y, hy, hwr⟩ := hlock t hw
        rcases hmem with ht | ht
        · obtain ⟨-, y', hy', hrd⟩ := hlive t ht
          rw [hy] at hy'
          cases hy'
          rw [hrd] at hwr
          cases hwr
        · rw [(hdead t ht).2] at hy
          cases hy
      cases step_abort hs
      have hwriter := close_writer_of_ne hw
      refine ⟨owner, live.erase t, t :: dead,
        ⟨hnd.erase t, ?_, ?_, hdisc, hro'⟩,
        frame_of_quiet hs (fun _ _ => rfl) ?_ hwriter rfl, hwriter, rfl⟩
      · intro u hu
        obtain ⟨hne, hmemu⟩ := (hnd.mem_erase_iff).mp hu
        exact (hlive u hmemu).of_txns_eq rfl (Nat.le_refl _)
          (Function.update_of_ne hne _ _)
      · rw [List.forall_mem_cons]
        refine ⟨⟨howned, Function.update_self ..⟩, fun u hu => ?_⟩
        refine ⟨(hdead u hu).1, ?_⟩
        by_cases hut : u = t
        · rw [hut]
          exact Function.update_self ..
        · rw [close_txns, Function.update_of_ne hut]
          exact (hdead u hu).2
      · simpa [TxnCall.about] using howned.1
  | access t a =>
      obtain ⟨ht, hdisc⟩ := hdisc
      obtain ⟨howned, y', hy', hrd⟩ := hlive t ht
      obtain ⟨y, hy, -, rfl⟩ := step_access hs
      cases hy.symm.trans hy'
      refine ⟨owner, live, dead, ⟨hnd, ?_, ?_, hdisc r, hro'⟩,
        frame_of_quiet hs (fun _ _ => rfl)
          (by simpa [TxnCall.about] using howned.1) rfl rfl, rfl, rfl⟩
      · intro u hu
        by_cases hut : u = t
        · rw [hut]
          exact ⟨howned, _, Function.update_self .., hrd⟩
        · exact (hlive u hu).of_txns_eq rfl (Nat.le_refl _)
            (Function.update_of_ne hut _ _)
      · intro u hu
        have hut : u ≠ t := by
          rintro rfl
          rw [(hdead u hu).2] at hy
          cases hy
        exact ⟨(hdead u hu).1,
          (Function.update_of_ne hut _ _).trans (hdead u hu).2⟩
  | other l =>
      obtain ⟨-, rfl⟩ := step_other hs
      exact ⟨owner, live, dead, ⟨hnd, hlive, hdead, hdisc r, hro'⟩,
        frame_of_quiet hs (fun _ _ => rfl) (by simp [TxnCall.about]) rfl
          rfl, rfl, rfl⟩

end Steps

-- ===================================================== marked operations

/-- The proof's own account of a run: whose each transaction is, the
order so far, and the state each operation in it has reached by
itself. -/
structure Ghost (D : Type) where
  owner : Nat → Nat
  lin : List Nat
  st : Nat → State D

section Atomic

variable (R : Rules A L D O ι α)

/-- How operation `i`, of client `c`, is tied to the store in each
phase. -/
def AtomicOk (g : Ghost D) (db : State D) (c i : Nat)
    (x : Op A L O ι α) : Phase → Prop
  | .idle => i ∉ g.lin ∧ ∀ d n, Alone R x d n (State.blank d n)
  | .wr t => i ∉ g.lin ∧ Owned g.owner db c t ∧ db.writer = some t
      ∧ ∃ m y, Alone R x db.store t m ∧ m.store = db.store
        ∧ m.writer = some t ∧ m.txns t = some y ∧ db.txns t = some y
        ∧ y.rdonly = false
  | .rd t => i ∈ g.lin ∧ Owned g.owner db c t ∧ (g.st i).writer = none
      ∧ ∃ y, (g.st i).txns t = some y ∧ db.txns t = some y
        ∧ y.rdonly = true
  | .ended t => i ∈ g.lin ∧ Owned g.owner db c t
      ∧ (g.st i).writer = none ∧ (g.st i).txns t = none
      ∧ db.txns t = none

/-- When operation `i` got its place: not yet, at this step, or
before. -/
inductive Placed (g g' : Ghost D) (db db' : State D) (i : Nat)
    (x x' : Op A L O ι α) : Prop
  | later (hlin : g'.lin = g.lin) (hnew : i ∉ g.lin)
      (hstore : db'.store = db.store)
  | now (n : Nat) (hlin : g'.lin = g.lin ++ [i]) (hnew : i ∉ g.lin)
      (halone : Alone R x' db.store n (g'.st i))
      (hstore : (g'.st i).store = db'.store)
  | before (hlin : g'.lin = g.lin) (hold : i ∈ g.lin)
      (hstore : db'.store = db.store)
      (hst : (g'.st i).store = (g.st i).store)
      (halone : ∀ d n, Alone R x d n (g.st i) →
        Alone R x' d n (g'.st i))

/-- One step of a marked operation, from `x` to `x'`. -/
structure Advance (g g' : Ghost D) (db db' : State D) (c i : Nat)
    (x x' : Op A L O ι α) (ph' : Phase) : Prop where
  single : SingleTxn ph' x'.rest
  ok : AtomicOk R g' db' c i x' ph'
  frame : Frame g.owner g'.owner db db' c
  st : ∀ j, j ≠ i → g'.st j = g.st j
  placed : Placed R g g' db db' i x x'

variable {R} {g : Ghost D} {db db' : State D} {c i : Nat} {o : O}
  {x : Op A L O ι α} {ph : Phase}

/-- A step by itself, after a run by itself. -/
theorem Alone.after {cl : TxnCall A L} {k : cl.Ret → Prog (txnSig A L) α}
    {r : cl.Ret} {d : D} {n : Nat} {m m' : State D}
    (h : Alone R x d n m) (hrest : x.rest = .call cl k)
    (hs : step R.sem o m cl = some (r, m')) :
    Alone R (x.after o ⟨cl, r⟩ (k r)) d n m' := by
  unfold Alone at h
  rw [hrest] at h
  exact exec_snoc h hs

theorem AtomicOk.stepOther {l : L.Call} {k : L.Ret l → Prog (txnSig A L) α}
    {r : L.Ret l} (h : AtomicOk R g db c i x ph)
    (hsingle : SingleTxn ph x.rest) (hrest : x.rest = .call (.other l) k)
    (hs : step R.sem o db (.other l) = some (r, db')) :
    ∃ g' ph', Advance R g g' db db' c i x
      (x.after o ⟨.other l, r⟩ (k r)) ph' := by
  obtain ⟨rfl, rfl⟩ := step_other hs
  rw [hrest] at hsingle
  have hframe : Frame g.owner g.owner db' db' c :=
    frame_of_quiet hs (fun _ _ => rfl) (by simp [TxnCall.about]) rfl rfl
  have halone : ∀ d n m, Alone R x d n m →
      Alone R (x.after o ⟨.other l, R.sem.other o l⟩
        (k (R.sem.other o l))) d n m :=
    fun d n m h => h.after hrest rfl
  cases ph with
  | idle =>
      exact ⟨g, .idle, hsingle _, ⟨h.1, fun d n => halone d n _ (h.2 d n)⟩,
        hframe, fun _ _ => rfl, .later rfl h.1 rfl⟩
  | wr t =>
      obtain ⟨hnew, howned, hwriter, m, y, hm, hrest'⟩ := h
      exact ⟨g, .wr t, hsingle _,
        ⟨hnew, howned, hwriter, m, y, halone _ _ _ hm, hrest'⟩, hframe,
        fun _ _ => rfl, .later rfl hnew rfl⟩
  | rd t =>
      exact ⟨g, .rd t, hsingle _, h, hframe, fun _ _ => rfl,
        .before rfl h.1 rfl rfl fun d n => halone d n _⟩
  | ended t =>
      exact ⟨g, .ended t, hsingle _, h, hframe, fun _ _ => rfl,
        .before rfl h.1 rfl rfl fun d n => halone d n _⟩

/-- A begin gives a reader its place and a writer the lock. -/
theorem AtomicOk.stepBegin {rdonly : Bool}
    {k : Option Nat → Prog (txnSig A L) α} {r : Option Nat}
    (h : AtomicOk R g db c i x ph) (hsingle : SingleTxn ph x.rest)
    (hrest : x.rest = .call (.txnBegin rdonly) k)
    (hs : step R.sem o db (.txnBegin rdonly) = some (r, db')) :
    ∃ g' ph', Advance R g g' db db' c i x
      (x.after o ⟨.txnBegin rdonly, r⟩ (k r)) ph' := by
  rw [hrest] at hsingle
  obtain ⟨rfl, hnone, hsome⟩ := hsingle
  obtain ⟨hnew, halone⟩ := h
  obtain ⟨hok, hfree, rfl, rfl⟩ | ⟨hok, rfl, rfl⟩ := step_begin hs
  · have hblank : step R.sem o (State.blank db.store db.next)
        (TxnCall.txnBegin (A := A) (L := L) rdonly)
          = some (some db.next,
              (State.blank db.store db.next).openTxn rdonly) := by
      simp [step, hok, State.blank]
    have hown : ∀ t < db.next,
        Function.update g.owner db.next c t = g.owner t := fun t ht =>
      Function.update_of_ne (by omega) _ _
    have howned : Owned (Function.update g.owner db.next c)
        (db.openTxn rdonly) c db.next :=
      ⟨Function.update_self .., Nat.lt_succ_self _⟩
    have hafter := (halone db.store db.next).after hrest hblank
    cases rdonly with
    | true =>
        refine ⟨⟨Function.update g.owner db.next c, g.lin ++ [i],
            Function.update g.st i
              ((State.blank db.store db.next).openTxn true)⟩,
          .rd db.next, hsome db.next, ?_, ?_, ?_, ?_⟩
        · refine ⟨by simp, howned, ?_, ⟨true, db.store⟩, ?_, ?_, rfl⟩
          · simp [State.openTxn, State.blank]
          · simp [State.openTxn, State.blank]
          · simp [State.openTxn]
        · exact frame_of_quiet hs hown (by simp [TxnCall.about]) rfl rfl
        · exact fun j hj => Function.update_of_ne hj _ _
        · refine .now db.next rfl hnew ?_ ?_
          · simpa using hafter
          · simp [State.openTxn, State.blank]
    | false =>
        have hfree : db.writer = none := by simpa using hfree
        refine ⟨⟨Function.update g.owner db.next c, g.lin, g.st⟩,
          .wr db.next, hsome db.next, ?_, ?_, fun _ _ => rfl,
          .later rfl hnew rfl⟩
        · refine ⟨hnew, howned, rfl, _, ⟨false, db.store⟩, hafter, rfl, rfl,
            ?_, ?_, rfl⟩
          · simp [State.openTxn, State.blank]
          · simp [State.openTxn]
        · -- nobody held the lock, so no one is framed out of it
          refine ⟨step_next_le hs, hown, fun t ht _ => ?_, ?_⟩
          · exact Function.update_of_ne (by omega) _ _
          · intro t _ hw
            rw [hfree] at hw
            cases hw
  · have hblank : ∀ d n, step R.sem o (State.blank d n)
        (TxnCall.txnBegin (A := A) (L := L) rdonly)
          = some (none, State.blank d n) := by
      intro d n
      simp [step, hok]
    refine ⟨g, .idle, hnone, ⟨hnew, fun d n => ?_⟩, ?_, fun _ _ => rfl,
      .later rfl hnew rfl⟩
    · exact (halone d n).after hrest (hblank d n)
    · exact frame_of_quiet hs (fun _ _ => rfl) (by simp [TxnCall.about])
        rfl rfl

/-- A commit gives a writer its place: the store it began on is still
the committed one. -/
theorem AtomicOk.stepCommit {t : Nat} {k : Bool → Prog (txnSig A L) α}
    {r : Bool} (h : AtomicOk R g db c i x ph)
    (hsingle : SingleTxn ph x.rest) (hrest : x.rest = .call (.commit t) k)
    (hs : step R.sem o db (.commit t) = some (r, db')) :
    ∃ g' ph', Advance R g g' db db' c i x
      (x.after o ⟨.commit t, r⟩ (k r)) ph' := by
  rw [hrest] at hsingle
  obtain ⟨rfl, hk⟩ := hsingle
  obtain ⟨hnew, howned, hwriter, m, y, halone, hmstore, hmwriter, hmy, hy,
    hwr⟩ := h
  obtain ⟨y', hy', rfl, rfl⟩ | ⟨hnone, -, -⟩ := step_commit hs
  · cases hy'.symm.trans hy
    have hafter := halone.after hrest (step_commit_open (o := o) hmy)
    refine ⟨⟨g.owner, g.lin ++ [i], Function.update g.st i
        { m.close t with
          store := if R.sem.ok o = true ∧ y.rdonly = false then y.view
            else m.store }⟩,
      .ended t, hk _, ?_, ?_, ?_, ?_⟩
    · refine ⟨by simp, howned, ?_, ?_, ?_⟩
      · simp [State.close, hmwriter]
      · simp
      · simp
    · exact frame_of_holder howned hwriter (Nat.le_refl _) fun u hne =>
        Function.update_of_ne hne _ _
    · exact fun j hj => Function.update_of_ne hj _ _
    · refine .now t rfl hnew ?_ ?_
      · simpa using hafter
      · simp [hmstore]
  · rw [hy] at hnone
    cases hnone

theorem AtomicOk.stepAbort {t : Nat} {k : Unit → Prog (txnSig A L) α}
    {r : Unit} (h : AtomicOk R g db c i x ph) (hlock : LockOk db)
    (hsingle : SingleTxn ph x.rest) (hrest : x.rest = .call (.abort t) k)
    (hs : step R.sem o db (.abort t) = some (r, db')) :
    ∃ g' ph', Advance R g g' db db' c i x
      (x.after o ⟨.abort t, r⟩ (k r)) ph' := by
  rw [hrest] at hsingle
  obtain ⟨hph, hk⟩ := hsingle
  cases step_abort hs
  have hstep : ∀ m : State D, step R.sem o m (.abort t)
      = some ((), m.close t) := fun _ => rfl
  -- closing `t` is the client's own business, if the lock is not at stake
  have hframe : Owned g.owner db c t → db.writer ≠ some t →
      Frame g.owner g.owner db (db.close t) c := fun howned hw =>
    frame_of_quiet hs (fun _ _ => rfl)
      (by simpa [TxnCall.about] using howned.1) (close_writer_of_ne hw) rfl
  rcases hph with rfl | rfl | rfl
  · obtain ⟨hold, howned, hwriter, y, hsy, hy, hrd⟩ := h
    have hw : db.writer ≠ some t := by
      intro hw
      obtain ⟨-, y', hy', hwr⟩ := hlock t hw
      cases hy'.symm.trans hy
      rw [hrd] at hwr
      cases hwr
    refine ⟨⟨g.owner, g.lin, Function.update g.st i ((g.st i).close t)⟩,
      .ended t, hk, ⟨hold, howned, ?_, ?_, ?_⟩, hframe howned hw,
      fun j hj => Function.update_of_ne hj _ _, .before rfl hold rfl ?_ ?_⟩
    · simp [State.close, hwriter]
    · simp
    · simp
    · simp
    · intro d n halone
      simpa using halone.after hrest (hstep _)
  · obtain ⟨hnew, howned, hwriter, m, y, halone, hmstore, hmwriter, hmy, hy,
      hwr⟩ := h
    have hafter := halone.after hrest (hstep m)
    refine ⟨⟨g.owner, g.lin ++ [i], Function.update g.st i (m.close t)⟩,
      .ended t, hk, ⟨by simp, howned, ?_, ?_, ?_⟩, ?_,
      fun j hj => Function.update_of_ne hj _ _, .now t rfl hnew ?_ ?_⟩
    · simp [State.close, hmwriter]
    · simp
    · simp
    · exact frame_of_holder howned hwriter (Nat.le_refl _) fun u hne =>
        Function.update_of_ne hne _ _
    · simpa using hafter
    · simp [hmstore]
  · obtain ⟨hold, howned, hwriter, hsnone, hnone⟩ := h
    have hw : db.writer ≠ some t := by
      intro hw
      obtain ⟨-, y', hy', -⟩ := hlock t hw
      rw [hnone] at hy'
      cases hy'
    refine ⟨⟨g.owner, g.lin, Function.update g.st i ((g.st i).close t)⟩,
      .ended t, hk, ⟨hold, howned, ?_, ?_, ?_⟩, hframe howned hw,
      fun j hj => Function.update_of_ne hj _ _, .before rfl hold rfl ?_ ?_⟩
    · simp [State.close, hwriter]
    · simp
    · simp
    · simp
    · intro d n halone
      simpa using halone.after hrest (hstep _)

/-- An access is answered alike in the store and by itself, because both
transactions show the same data. -/
theorem AtomicOk.stepAccess {t : Nat} {a : A.Call}
    {k : A.Ret a → Prog (txnSig A L) α}
    {r : A.Ret a} (h : AtomicOk R g db c i x ph)
    (hsingle : SingleTxn ph x.rest)
    (hrest : x.rest = .call (.access t a) k)
    (hs : step R.sem o db (.access t a) = some (r, db')) :
    ∃ g' ph', Advance R g g' db db' c i x
      (x.after o ⟨.access t a, r⟩ (k r)) ph' := by
  rw [hrest] at hsingle
  obtain ⟨hph, hk⟩ := hsingle
  obtain ⟨y, hy, rfl, rfl⟩ := step_access hs
  let y' : Txn D :=
    { y with view := (R.sem.access o y.rdonly a y.view).2 }
  have hview : ∀ m : State D, (m.setView t y').txns t = some y' :=
    fun m => Function.update_self ..
  have hframe : Owned g.owner db c t →
      Frame g.owner g.owner db (db.setView t y') c := fun howned =>
    frame_of_quiet hs (fun _ _ => rfl)
      (by simpa [TxnCall.about] using howned.1) rfl rfl
  rcases hph with rfl | rfl
  · obtain ⟨hold, howned, hwriter, y₀, hsy, hy₀, hrd⟩ := h
    cases hy₀.symm.trans hy
    refine ⟨⟨g.owner, g.lin, Function.update g.st i ((g.st i).setView t y')⟩,
      .rd t, hk _, ⟨hold, howned, ?_, y', ?_, hview db, hrd⟩,
      hframe howned, fun j hj => Function.update_of_ne hj _ _,
      .before rfl hold rfl ?_ ?_⟩
    · simpa [State.setView] using hwriter
    · simp
    · simp [State.setView]
    · intro d n halone
      simpa using halone.after hrest (step_access_open hsy)
  · obtain ⟨hnew, howned, hwriter, m, y₀, halone, hmstore, hmwriter, hmy, hy₀,
      hwr⟩ := h
    cases hy₀.symm.trans hy
    exact ⟨g, .wr t, hk _, ⟨hnew, howned, hwriter, _, y',
        halone.after hrest (step_access_open hmy), hmstore, hmwriter,
        hview m, hview db, hwr⟩, hframe howned, fun _ _ => rfl,
      .later rfl hnew rfl⟩

/-- One call of a marked operation. -/
theorem AtomicOk.step {cl : TxnCall A L}
    {k : cl.Ret → Prog (txnSig A L) α} {r : cl.Ret}
    (h : AtomicOk R g db c i x ph) (hlock : LockOk db)
    (hsingle : SingleTxn ph x.rest) (hrest : x.rest = .call cl k)
    (hs : Mvcc.step R.sem o db cl = some (r, db')) :
    ∃ g' ph', Advance R g g' db db' c i x
      (x.after o ⟨cl, r⟩ (k r)) ph' := by
  cases cl with
  | txnBegin rdonly => exact h.stepBegin hsingle hrest hs
  | commit t => exact h.stepCommit hsingle hrest hs
  | abort t => exact h.stepAbort hlock hsingle hrest hs
  | access t a => exact h.stepAccess hsingle hrest hs
  | other l => exact h.stepOther hsingle hrest hs

end Atomic

end Mvcc

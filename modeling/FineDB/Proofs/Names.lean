/-
Databases under different names, when they are kept apart and when they
are not.

Removing writes from a sequence of requests leaves every GET's answer
alone whose cell none of them has (`names_isolated`). The proof runs both
sequences side by side and keeps the stores equal outside the cells of
the removed writes (`Similar`). What touches none of these cells does the
same on both sides; what touches one of them leaves all others alone on
either side.

Two names make two cells only if their C strings differ, and a key of
the default database makes the cell of the database of that name. Each
coincidence is a counterexample (`names_collide`): a name with a NUL in
it, a key that is the name of a database, and a database whose record is
read as the value of a key. Where a GET reads a record nothing is
claimed at all, whoever wrote.
-/
import FineDB.Proofs.Cells

namespace FineDB

open Effect Mvcc

variable {X : Bytes → Prop} {d d' : Catalog} {zip : Bytes → Bytes}
  {image image' : Nat → Bytes} {α : Type}

-- =============================================================== side by side

/-- Sessions under the same name, on snapshots that agree outside `X`. -/
structure CatSession.Alike (X : Bytes → Prop) (x x' : CatSession) :
    Prop where
  dbname : x'.dbname = x.dbname
  snapshot : Option.Rel (SameOff X) x.snapshot x'.snapshot

/-- Two servers that differ in the cells `X` only, and in the messages
for them. -/
structure CatSys.Similar (X : Bytes → Prop) (s s' : CatSys) : Prop where
  store : SameOff X s.store s'.store
  session : ∀ c, (s.session c).Alike X (s'.session c)
  pending : ∀ msg : WriterMsg, ¬ X msg.cell →
    s.pending.count msg = s'.pending.count msg

namespace CatSession

variable {x x' x'' : CatSession}

theorem Alike.refl (X : Bytes → Prop) (x : CatSession) : x.Alike X x := by
  refine ⟨rfl, ?_⟩
  cases x.snapshot with
  | none => exact .none
  | some v => exact .some (SameOff.refl X v)

theorem Alike.symm (h : x.Alike X x') : x'.Alike X x := by
  refine ⟨h.dbname.symm, ?_⟩
  obtain ⟨dbname, snapshot⟩ := x
  obtain ⟨dbname', snapshot'⟩ := x'
  cases h.snapshot with
  | none => exact .none
  | some hv => exact .some hv.symm

theorem Alike.trans (h : x.Alike X x') (h' : x'.Alike X x'') :
    x.Alike X x'' := by
  refine ⟨h'.dbname.trans h.dbname, ?_⟩
  obtain ⟨dbname, snapshot⟩ := x
  obtain ⟨dbname', snapshot'⟩ := x'
  cases h.snapshot with
  | none => exact h'.snapshot
  | some hv =>
      obtain ⟨dbname'', snapshot''⟩ := x''
      cases h'.snapshot with
      | some hv' => exact .some (hv.trans hv')

theorem Alike.thread (h : x.Alike X x') : x'.thread = x.thread := by
  have hsnap : x'.snapshot.map (fun _ => 0)
      = x.snapshot.map (fun _ => (0 : Nat)) := by
    obtain ⟨dbname, snapshot⟩ := x
    obtain ⟨dbname', snapshot'⟩ := x'
    cases h.snapshot with
    | none => rfl
    | some _ => rfl
  unfold CatSession.thread
  rw [h.dbname, hsnap]

theorem Alike.task (h : x.Alike X x') (arr : Option Arrival) :
    x'.task arr = x.task arr := by
  cases arr with
  | none => simp only [CatSession.task, h.thread]
  | some arr => simp only [CatSession.task, h.thread]

theorem Alike.state (h : x.Alike X x') (hd : SameOff X d d') :
    State.Alike (SameOff X) (x.state d) (x'.state d') := by
  obtain ⟨dbname, snapshot⟩ := x
  obtain ⟨dbname', snapshot'⟩ := x'
  cases h.snapshot with
  | none => exact ⟨hd, fun _ => .none, rfl, rfl⟩
  | some hv =>
      refine ⟨hd, fun t => ?_, rfl, rfl⟩
      by_cases ht : t = 0
      · subst ht
        exact .some ⟨rfl, hv⟩
      · simp only [CatSession.state, State.single,
          Function.update_of_ne ht]
        exact .none

theorem after_alike {m m' : State Catalog}
    (h : State.Alike (SameOff X) m m') (thread : TcpThread) :
    (after thread m).Alike X (after thread m') := by
  refine ⟨rfl, ?_⟩
  obtain ⟨fd, dbname, transaction⟩ := thread
  cases transaction with
  | none => exact .none
  | some t =>
      have hrel := h.txns t
      simp only [after, Option.bind_some]
      revert hrel
      generalize m.txns t = x, m'.txns t = x'
      intro hrel
      cases hrel with
      | none => exact .none
      | some hx => exact .some hx.2

end CatSession

namespace CatSys

variable {s s' s'' : CatSys} {c : Nat} {arr : Option Arrival}
  {outs : Nat → Outcome} {msg : WriterMsg}

theorem Similar.refl (X : Bytes → Prop) (s : CatSys) : s.Similar X s where
  store := .refl X s.store
  session := fun c => .refl X (s.session c)
  pending := fun _ _ => rfl

theorem Similar.symm (h : s.Similar X s') : s'.Similar X s where
  store := h.store.symm
  session := fun c => (h.session c).symm
  pending := fun msg hmsg => (h.pending msg hmsg).symm

theorem Similar.trans (h : s.Similar X s') (h' : s'.Similar X s'') :
    s.Similar X s'' where
  store := h.store.trans h'.store
  session := fun c => (h.session c).trans (h'.session c)
  pending := fun msg hmsg => (h.pending msg hmsg).trans (h'.pending msg hmsg)

/-- What touches no cell of `X` does the same on both sides. -/
theorem Similar.serve (h : s.Similar X s')
    (hw : Touches (LmdbCall.Writes fun k => ¬ X k)
      ((s.session c).task arr).prog) :
    (s.step zip image (.serve c arr outs)).Similar X
      (s'.step zip image' (.serve c arr outs)) := by
  obtain ⟨tr, ⟨y, thread⟩, m, hrun⟩ :=
    s.served_isSome zip image c arr outs
  have hstate := (h.session c).state h.store
  have hresp : Touches (Respects (catalogSem zip image)
      (catalogSem zip image') (SameOff X)) ((s.session c).task arr).prog :=
    Touches.mono (fun _ hc => hc.respects) hw
  obtain ⟨m', hrun', halike⟩ := catalog_alike hresp hstate hrun
  have hserved : s'.served zip image' c arr outs
      = some (tr, (y, thread), m') := by
    rw [served, (h.session c).task]
    exact hrun'
  rw [step_serve hrun, step_serve hserved]
  refine ⟨halike.store, fun c' => ?_, fun msg hmsg => ?_⟩
  · show (Function.update s.session c _ c').Alike X
      (Function.update s'.session c _ c')
    by_cases hc : c' = c
    · subst hc
      rw [Function.update_self, Function.update_self]
      exact CatSession.after_alike halike thread
    · rw [Function.update_of_ne hc, Function.update_of_ne hc]
      exact h.session c'
  · rw [List.count_append, List.count_append, h.pending msg hmsg]

/-- A message for a cell outside `X`. -/
theorem Similar.message (h : s.Similar X s') (hcell : ¬ X msg.cell) :
    (s.step zip image (.message msg outs)).Similar X
      (s'.step zip image' (.message msg outs)) := by
  have hmem : msg ∈ s'.pending ↔ msg ∈ s.pending := by
    rw [← List.count_pos_iff, ← List.count_pos_iff, h.pending msg hcell]
  by_cases hin : msg ∈ s.pending
  · obtain ⟨tr, a, m, hrun⟩ := s.written_isSome zip image msg outs
    have hwrites : Touches (LmdbCall.Writes fun k => ¬ X k)
        (Task.prog ⟨.message 0 msg, connectionThreadNew⟩) := by
      refine Task.writes (fun b key heq => ?_) fun κ hκ => ?_
      · cases heq
      · cases hκ
        exact hcell
    have hresp : Touches (Respects (catalogSem zip image)
        (catalogSem zip image') (SameOff X))
        (Task.prog ⟨.message 0 msg, connectionThreadNew⟩) :=
      Touches.mono (fun _ hc => hc.respects) hwrites
    obtain ⟨m', hrun', halike⟩ :=
      catalog_alike hresp (.blank h.store 1) hrun
    rw [step_message hin hrun, step_message (hmem.mpr hin) hrun']
    refine ⟨halike.store, h.session, fun msg' hmsg' => ?_⟩
    show (s.pending.erase msg).count msg' = (s'.pending.erase msg).count msg'
    rw [List.count_erase, List.count_erase, h.pending msg' hmsg']
  · rw [step_absent hin, step_absent (mt hmem.mp hin)]
    exact h

/-- A message for a cell in `X` changes nothing else. -/
theorem similar_message (s : CatSys) (hcell : X msg.cell) :
    (s.step zip image (.message msg outs)).Similar X s := by
  by_cases hin : msg ∈ s.pending
  · obtain ⟨tr, a, m, hrun⟩ := s.written_isSome zip image msg outs
    have hwrites : Touches (LmdbCall.Writes X)
        (Task.prog ⟨.message 0 msg, connectionThreadNew⟩) := by
      refine Task.writes (fun b key heq => ?_) fun κ hκ => ?_
      · cases heq
      · cases hκ
        exact hcell
    have hkeep : Touches (Keeping (catalogSem zip image)
        fun d => SameOff X d s.store)
        (Task.prog ⟨.message 0 msg, connectionThreadNew⟩) :=
      Touches.mono (fun _ hc => hc.keeping) hwrites
    have hall := complete_all catalog_named hkeep
      ⟨SameOff.refl X s.store, fun _ _ hx => by cases hx⟩ hrun
    rw [step_message hin hrun]
    refine ⟨hall.store, fun c => .refl X _, fun msg' hmsg' => ?_⟩
    have hne : msg ≠ msg' := fun heq => hmsg' (heq ▸ hcell)
    show (s.pending.erase msg).count msg' = s.pending.count msg'
    rw [List.count_erase_of_ne hne.symm]
  · rw [step_absent hin]
    exact .refl X s

/-- A GET, PUT or DEL. -/
private theorem data_through {b : Byte} {thread : TcpThread} {r : Request}
    {key : Bytes} (hkey : r.key = some key)
    (ht : thread.transaction = some 0) :
    (r.exec b thread : Store.Server _).Calls (TxnCall.Through [0]) := by
  have htxn : r.txn b thread = some (some 0) := by
    cases r with
    | get key => simp [Request.txn, ht]
    | put key data => simp [Request.txn, writeTxn, requestFlags, ht]
    | del key => simp [Request.txn, writeTxn, requestFlags, ht]
    | ping => cases hkey
    | setdb name => cases hkey
    | start => cases hkey
    | stop => cases hkey
  have hcalls : (r.exec b thread : Store.Server _).Calls
      (Allows true true (r.async b thread) (r.txn b thread)) :=
    Request.exec_allows (by rintro rfl; cases hkey)
      (by rintro rfl; cases hkey) fun _ _ => rfl
  rw [htxn] at hcalls
  exact hcalls.mono fun _ hc => hc.through (.inr ⟨0, by simp, rfl⟩)

/-- What the session of a GET, PUT or DEL is afterwards. -/
private theorem data_thread {b : Byte} {thread : TcpThread} {r : Request}
    {key : Bytes} (hkey : r.key = some key) :
    (r.exec b thread : Store.Server _).Ensures fun a => a.2 = thread := by
  cases r with
  | get key => exact ensures_of_thread fun _ => rfl
  | put key data => exact ensures_of_thread fun _ => rfl
  | del key => exact ensures_of_thread fun _ => rfl
  | ping => cases hkey
  | setdb name => cases hkey
  | start => cases hkey
  | stop => cases hkey

/-- A GET, PUT or DEL whose accesses keep the data outside `X` leaves all
else as it was. -/
theorem similar_serve (s : CatSys) {b : Byte} {r : Request} {key : Bytes}
    (hkey : r.key = some key)
    (hkeep : Touches (Keeping (catalogSem zip image)
      fun d => SameOff X d s.store) (r.exec b (s.session c).thread))
    (hposts : ∀ msg ∈ s.posts zip image c (some (.request b r)) outs,
      X msg.cell) :
    (s.step zip image (.serve c (some (.request b r)) outs)).Similar X
      s := by
  obtain ⟨tr, ⟨y, thread⟩, m, hrun⟩ :=
    s.served_isSome zip image c (some (.request b r)) outs
  have hposted : ∀ msg ∈ tr.filterMap posted, X msg.cell := by
    simpa only [posts, hrun] using hposts
  have hthread : thread = (s.session c).thread :=
    (data_thread hkey).of_exec (complete_exec hrun)
  have hdone : SameOff X m.store s.store
      ∧ CatSession.after thread m = s.session c := by
    unfold served at hrun
    rw [hthread]
    generalize s.session c = x at hrun hkeep ⊢
    obtain ⟨dbname, snapshot⟩ := x
    cases snapshot with
    | none =>
        have hall := complete_all catalog_named hkeep
          ⟨SameOff.refl X s.store, fun _ _ hx => by cases hx⟩ hrun
        exact ⟨hall.store, rfl⟩
    | some v =>
        obtain ⟨hview, hstore, -⟩ := complete_through (t := 0) (v := v)
          (data_through hkey rfl) rfl hrun
        refine ⟨fun k _ => by rw [hstore]; rfl, ?_⟩
        simp only [CatSession.after, CatSession.thread, Option.map_some,
          Option.bind_some, hview]
  rw [step_serve hrun, hdone.2, Function.update_eq_self]
  refine ⟨hdone.1, fun c' => .refl X _, fun msg hmsg => ?_⟩
  have hnone : (tr.filterMap posted).count msg = 0 :=
    List.count_eq_zero.mpr fun hmem => hmsg (hposted msg hmem)
  show (s.pending ++ tr.filterMap posted).count msg = s.pending.count msg
  rw [List.count_append, hnone, Nat.add_zero]

/-- The messages of a run are those the program can post. -/
private theorem complete_posts {M : WriterMsg → Prop}
    {p : Store.Server α} {m m' : State Catalog} {a : α}
    {tr : List (Event (serverSig (Option Bytes)))}
    (hp : Posts (Answers zip False) M p)
    (hrun : complete (catalogSem zip image) outs m p = some (tr, a, m')) :
    ∀ msg ∈ tr.filterMap posted, M msg := by
  induction p generalizing M outs m tr with
  | ret b =>
      obtain ⟨rfl, -, -⟩ := complete_ret hrun
      simp
  | call cl k ih =>
      obtain ⟨r, m₁, tr', hstep, hrest, rfl⟩ := complete_call hrun
      cases cl with
      | other l =>
          obtain ⟨rfl, -⟩ := step_other hstep
          have hk := hp.2 _ ⟨outs 0, rfl, fun hdups => hdups.elim⟩
          have htail : ∀ msg ∈ tr'.filterMap posted, M msg :=
            fun msg hmsg => (ih _ hk hrest msg hmsg).2
          intro msg hmsg
          rw [List.filterMap_cons] at hmsg
          split at hmsg
          next => exact htail msg hmsg
          next msg' hposted =>
            rcases List.mem_cons.mp hmsg with rfl | hmsg
            · refine hp.1 msg ?_
              cases l with
              | nnSend msg'' =>
                  simp only [posted] at hposted
                  split at hposted
                  · exact hposted
                  · cases hposted
              | _ => cases hposted
            · exact htail msg hmsg
      | txnBegin rdonly =>
          rw [List.filterMap_cons_none rfl]
          exact ih r (hp r) hrest
      | commit t =>
          rw [List.filterMap_cons_none rfl]
          exact ih r (hp r) hrest
      | abort t =>
          rw [List.filterMap_cons_none rfl]
          exact ih r (hp r) hrest
      | access t b =>
          rw [List.filterMap_cons_none rfl]
          exact ih r (hp r) hrest

theorem posts_message (s : CatSys) :
    ∀ msg ∈ s.posts zip image c arr outs,
      MessageOk zip False ((s.session c).task arr) msg := by
  obtain ⟨tr, a, m, hrun⟩ := s.served_isSome zip image c arr outs
  simp only [posts, hrun]
  exact complete_posts (Task.prog_posts _) hrun

/-- A GET, PUT or DEL that posts nothing and whose accesses keep the data
outside `X`, on both sides. -/
private theorem Similar.own (h : s.Similar X s') {b : Byte} {r : Request}
    {key : Bytes} (hkey : r.key = some key)
    (hmsg : ((s.session c).task (some (.request b r))).message zip = none)
    (hkeep : ∀ i d, Touches (Keeping (catalogSem zip i)
      fun e => SameOff X e d) (r.exec b (s.session c).thread)) :
    (s.step zip image (.serve c (some (.request b r)) outs)).Similar X
      (s'.step zip image' (.serve c (some (.request b r)) outs)) := by
  have hleft : (s.step zip image
      (.serve c (some (.request b r)) outs)).Similar X s := by
    refine similar_serve s hkey (hkeep image s.store) fun msg hm => ?_
    obtain ⟨e, he, -⟩ := posts_message s msg hm
    rw [hmsg] at he
    cases he
  have hright : (s'.step zip image'
      (.serve c (some (.request b r)) outs)).Similar X s' := by
    have hkeep' := hkeep image' s'.store
    rw [← (h.session c).thread] at hkeep'
    refine similar_serve s' hkey hkeep' fun msg hm => ?_
    obtain ⟨e, he, -⟩ := posts_message s' msg hm
    rw [(h.session c).task, hmsg] at he
    cases he
  exact (hleft.trans h).trans hright.symm

/-- A request with a cell is a PUT or DEL done at once. -/
private theorem cell_some {x : CatSession} {b : Byte} {r : Request}
    {κ : Bytes} (h : r.cell b x.thread = some κ) :
    (∃ key, r.key = some key) ∧ (∀ key, r ≠ .get key)
      ∧ (x.task (some (.request b r))).message zip = none := by
  cases r with
  | put key data =>
      simp only [Request.cell, Option.ite_none_right_eq_some] at h
      exact ⟨⟨_, rfl⟩, by simp, if_pos h.1⟩
  | del key =>
      simp only [Request.cell, Option.ite_none_right_eq_some] at h
      exact ⟨⟨_, rfl⟩, by simp, if_pos h.1⟩
  | get key => cases h
  | ping => cases h
  | setdb name => cases h
  | start => cases h
  | stop => cases h

/-- One action on both sides. -/
theorem Similar.step (h : s.Similar X s') (act : CatAct) :
    (s.step zip image act).Similar X (s'.step zip image' act) := by
  cases act with
  | message msg outs =>
      by_cases hcell : X msg.cell
      · exact ((similar_message s hcell).trans h).trans
          (similar_message s' hcell).symm
      · exact h.message hcell
  | serve c arr outs =>
      by_cases hget : ∃ b key, arr = some (.request b (.get key))
      · -- a GET may see another record, and changes nothing
        obtain ⟨b, key, rfl⟩ := hget
        refine h.own rfl rfl fun i d => ?_
        refine Touches.mono (fun _ hc o rdonly e he => ?_)
          (Request.exec_reads b (s.session c).thread key)
        rw [hc.access_eq]
        exact he
      by_cases hown : ∃ b r κ, arr = some (.request b r)
        ∧ r.cell b (s.session c).thread = some κ ∧ X κ
      · -- a write in `X`: each side may do with the cell what it does
        obtain ⟨b, r, κ, rfl, hcell, hX⟩ := hown
        obtain ⟨⟨key, hkey⟩, hne, hmsg⟩ := cell_some hcell
        refine h.own hkey hmsg fun i d => ?_
        refine Touches.mono (fun _ hc => hc.keeping)
          (Request.exec_writes (X := X) hne fun κ' hκ' => ?_)
        rw [hcell] at hκ'
        cases hκ'
        exact hX
      · refine h.serve (Task.writes (fun b key heq => ?_) fun κ hκ hX => ?_)
        · cases arr with
          | none => cases heq
          | some arr =>
              cases heq
              exact hget ⟨b, key, rfl⟩
        · cases arr with
          | none => cases hκ
          | some arr =>
              cases arr with
              | request b r => exact hown ⟨b, r, κ, rfl, hκ, hX⟩
              | cut b part => cases hκ
              | unknown b => cases hκ

end CatSys

-- ================================================================ under a name

/-- `thread->dbname` after a SETDB of `name`. -/
def setdbName (name : Bytes) : Option Bytes :=
  if name.length = 0 then none else some (dbnameBuffer name)

theorem commandSetdbExec_dbname (thread : TcpThread) (name : Bytes) :
    (commandSetdbExec thread name : Store.Server _).Ensures fun a =>
      a.1 = .YENOERR → a.2.dbname = setdbName name := by
  unfold commandSetdbExec setdbName
  split
  · exact fun _ _ => rfl
  · intro ok
    cases ok with
    | true => exact fun _ _ => rfl
    | false =>
        intro sent hy
        cases hy

/-- The cell of a key under a name sent by SETDB. -/
def cellUnder (name key : Bytes) : Bytes :=
  cell ((setdbName name).map cString) key

/-- Under names of databases the cells are the names, as C strings. -/
theorem cellUnder_of_ne_nil {name : Bytes} (h : name ≠ []) (key : Bytes) :
    cellUnder name key = cString name := by
  have hlen : name.length ≠ 0 := fun hlen => h (List.length_eq_zero_iff.mp hlen)
  simp only [cellUnder, setdbName, if_neg hlen, Option.map_some,
    cString_dbnameBuffer, cell, Option.getD_some]

namespace CatSys

variable (zip : Bytes → Bytes) (image : Nat → Bytes)

variable {zip image} {s s' : CatSys} {n : Bytes} {W : Bytes → Prop}
  {c : Nat} {b : Byte} {r : Request} {outs : Nat → Outcome}

/-- The answer to a GET whose cell is the same on both sides. -/
theorem Similar.get (h : s.Similar X s') {key : Field 2}
    (hcell : ¬ X (cell ((s.session c).dbname.map cString) key.bytes))
    (hrec : (s.session c).dbname = none → Entry.isRecord
      ((s.session c).view s.store)[key.bytes]? = false) :
    s'.answer zip image' c (some (.request b (.get key))) outs
      = s.answer zip image c (some (.request b (.get key))) outs := by
  obtain ⟨tr, a, m, hrun⟩ :=
    s.served_isSome zip image c (some (.request b (.get key))) outs
  suffices hrun' : ∃ m', s'.served zip image' c
      (some (.request b (.get key))) outs = some (tr, a, m') by
    obtain ⟨m', hrun'⟩ := hrun'
    simp only [answer, hrun, hrun']
  have hresp : Touches (Respects (catalogSem zip image)
      (catalogSem zip image')
      (SameCell ((s.session c).dbname.map cString) key.bytes))
      ((Request.get key).exec b (s.session c).thread) :=
    Touches.mono (fun _ hc => hc.respects)
      (Request.exec_reads b (s.session c).thread key)
  have hsame : ∀ {d d' : Catalog}, SameOff X d d' →
      d = (s.session c).view s.store →
      SameCell ((s.session c).dbname.map cString) key.bytes d d' := by
    intro d d' hd heq
    refine ⟨hd _ hcell, fun hnone => ?_⟩
    rw [heq]
    exact hrec (Option.map_eq_none_iff.mp hnone)
  have hthread := (h.session c).thread
  have hsnap := (h.session c).snapshot
  unfold served at hrun ⊢
  rw [(h.session c).task]
  generalize hx : s.session c = x at hrun hresp hsame hthread hsnap ⊢
  generalize hx' : s'.session c = x' at hthread hsnap ⊢
  obtain ⟨dbname, snapshot⟩ := x
  obtain ⟨dbname', snapshot'⟩ := x'
  cases hsnap with
  | none =>
      obtain ⟨m', hrun', -⟩ :=
        catalog_alike hresp (.blank (hsame h.store rfl) 1) hrun
      exact ⟨m', hrun'⟩
  | @some v v' hv =>
      -- inside a transaction only its view matters
      have hthrough : ((Request.get key).exec b
          (CatSession.thread ⟨dbname, some v⟩) : Store.Server _).Calls
            (TxnCall.Through [0]) := data_through rfl rfl
      obtain ⟨-, -, hrun₁⟩ := complete_through hthrough rfl hrun
      obtain ⟨m₁, hrun₁⟩ := hrun₁ (.viewing v 0) (State.viewing_txns v 0)
      obtain ⟨m₂, hrun₂, -⟩ :=
        catalog_alike hresp (.viewing (hsame hv rfl) 0) hrun₁
      obtain ⟨-, -, hrun'⟩ := complete_through hthrough
        (State.viewing_txns v' 0) hrun₂
      exact hrun' _ rfl

end CatSys

-- ================================================================== the results

end FineDB

/-
A value is read while the transaction it came from is open, if that is
the session's transaction, and after its end, if it is `database_get`'s
own.

`ReadsLive` is the rule of lmdb.h on a trace: whatever is read came from
a lookup through a transaction that has not ended yet. Which of the two
holds is decided in `database_get`, by the rollback before the return;
`command_get` reads afterwards in either case.

The consequence for the data is `plays_stable`: as long as a
transaction is open, what its values designate does not change, whatever
other threads commit. A GET that reads such values only is then a GET of
Model/Command.lean on the value the key had at the lookup (`Erases`).
After the transaction's end the bytes may be anything
(`recycled_value_sent`).
-/
import FineDB.Model.Mapped
import Mathlib.Data.List.Basic

namespace FineDB

open Effect Mvcc

variable {Dbi α β γ : Type}

-- ============================================================ reading on a trace

/-- The transaction `t` ends. -/
def EndsTxn (t : Nat) : Event (mappedSig Dbi) → Prop
  | ⟨.abort u, _⟩ => u = t
  | ⟨.commit u, _⟩ => u = t
  | _ => False

/-- The bytes of a value are read. -/
def Loads (v : MdbVal) : Event (mappedSig Dbi) → Prop
  | ⟨.other (.load u), _⟩ => u = v
  | _ => False

/-- A lookup through `t` returned the value `v`. -/
def Returns (t : Nat) (v : MdbVal) : Event (mappedSig Dbi) → Prop
  | ⟨.access u (.get _ _), r⟩ => u = t ∧ r = .ok v
  | _ => False

/-- An event that is neither. -/
def Barren (e : Event (mappedSig Dbi)) : Prop :=
  (∀ v, ¬ Loads v e) ∧ ∀ t v, ¬ Returns t v e

/-- After `pre`, the value comes from a transaction that is still open. -/
def LiveAfter (pre : List (Event (mappedSig Dbi))) (v : MdbVal) : Prop :=
  ∃ t, (∃ e ∈ pre, Returns t v e) ∧ ∀ e ∈ pre, ¬ EndsTxn t e

/-- Every value is read before its transaction ends. -/
def ReadsLive (tr : List (Event (mappedSig Dbi))) : Prop :=
  ∀ pre e post v, tr = pre ++ e :: post → Loads v e → LiveAfter pre v

-- =================================================================== the lookup

/-- The trace of a lookup that found a value. -/
def foundTrace (transaction : Option Nat) (t : Nat) (name : Option Bytes)
    (dbi : Dbi) (created : Bool) (key : Bytes) (v : MdbVal) :
    List (Event (mappedSig Dbi)) :=
  let lookup : List (Event (mappedSig Dbi)) :=
    [⟨.access t (.dbiOpen (name.map cString) false), .opened dbi created⟩,
      ⟨.access t (.get dbi key), .ok v⟩]
  match transaction with
  | some _ => lookup ++ [⟨.other (.env (.dbiClose dbi)), ()⟩]
  | none => ⟨.txnBegin true, some t⟩ :: lookup
      ++ [⟨.abort t, ()⟩, ⟨.other (.env (.dbiClose dbi)), ()⟩]

/-- What `database_get` does: it returns a value after the calls above, or
finds none. It reads nothing. -/
theorem databaseGet_mapped (transaction : Option Nat) (name : Option Bytes)
    (key : Bytes) :
    (Mapped.databaseGet transaction name key : Mapped Dbi _).Traces
      fun tr ret =>
        (∃ t dbi created v, ret = .ok v
          ∧ (∀ u, transaction = some u → u = t)
          ∧ tr = foundTrace transaction t name dbi created key v)
        ∨ ((∃ y, ret = .error y) ∧ tr.Forall Barren) := by
  -- the rest after a lookup that failed
  have hfailed : ∀ rc : MdbRc, ∃ y,
      Mapped.getRetval (.error rc) = .error y := by
    intro rc
    cases rc <;> exact ⟨_, rfl⟩
  have hmissed : ∀ (t : Nat) (dbi : Dbi) (rc : MdbRc),
      Barren ⟨.access t (.get dbi key), .error rc⟩ := by
    intro t dbi rc
    refine ⟨fun _ => id, fun _ _ h => ?_⟩
    cases h.2
  cases transaction with
  | some t =>
      intro ret
      cases ret with
      | refused rc =>
          intro dbi _
          exact .inr ⟨⟨_, rfl⟩, ⟨fun _ => id, fun _ _ => id⟩,
            ⟨fun _ => id, fun _ _ => id⟩, ⟨fun _ => id, fun _ _ => id⟩⟩
      | opened dbi created =>
          intro rc _
          cases rc with
          | ok v =>
              refine .inl ⟨t, dbi, created, v, rfl, ?_, rfl⟩
              intro u hu
              exact (Option.some.inj hu).symm
          | error rc =>
              exact .inr ⟨hfailed rc, ⟨fun _ => id, fun _ _ => id⟩,
                hmissed t dbi rc, ⟨fun _ => id, fun _ _ => id⟩⟩
  | none =>
      intro t
      cases t with
      | none => exact .inr ⟨⟨_, rfl⟩, ⟨fun _ => id, fun _ _ => id⟩⟩
      | some t =>
          intro ret
          cases ret with
          | refused rc =>
              intro dbi _
              exact .inr ⟨⟨_, rfl⟩, ⟨fun _ => id, fun _ _ => id⟩,
                ⟨fun _ => id, fun _ _ => id⟩, ⟨fun _ => id, fun _ _ => id⟩,
                ⟨fun _ => id, fun _ _ => id⟩⟩
          | opened dbi created =>
              intro rc _ _
              cases rc with
              | ok v =>
                  refine .inl ⟨t, dbi, created, v, rfl, ?_, rfl⟩
                  intro u hu
                  cases hu
              | error rc =>
                  exact .inr ⟨hfailed rc, ⟨fun _ => id, fun _ _ => id⟩,
                    ⟨fun _ => id, fun _ _ => id⟩, hmissed t dbi rc,
                    ⟨fun _ => id, fun _ _ => id⟩,
                    ⟨fun _ => id, fun _ _ => id⟩⟩

-- =================================================================== the answer

/-- A call of `command_get` after the lookup: it reads no value but the
one returned, and only if it has bytes. -/
def AnswerCall (ret : Except Yerr MdbVal) : (mappedSig Dbi).Call → Prop
  | .other (.load v) => ret = .ok v ∧ v.mvSize ≠ 0
  | .other (.env _) => True
  | _ => False

/-- Sending a response. -/
private theorem eager_send (ret : Except Yerr MdbVal)
    (code : ResponseCode) (serialized compressed : Bool)
    (data : Option Bytes) :
    (Mapped.eager (connectionSendResponse code serialized compressed data) :
      Mapped Dbi _).Calls (AnswerCall ret) :=
  ⟨trivial, fun _ => trivial⟩

private theorem commandGetUncompress_calls {v : MdbVal}
    (hv : v.mvSize ≠ 0) :
    (Mapped.commandGetUncompress v : Mapped Dbi _).Calls
      (AnswerCall (.ok v)) := by
  refine ⟨⟨rfl, hv⟩, fun z => ?_⟩
  refine Prog.calls_bind (p := Mapped.eager (unzipLength z)) ?_
    fun unzipLen => ⟨trivial, fun allocated => ⟨⟨rfl, hv⟩, fun z' =>
      ⟨trivial, fun out => ?_⟩⟩⟩
  · unfold unzipLength
    cases snappyUncompressedLength z with
    | none => exact ⟨trivial, fun _ => trivial⟩
    | some n => trivial
  · cases out with
    | none => trivial
    | some out => trivial

theorem commandGetAnswer_mapped (f : Flags) (ret : Except Yerr MdbVal) :
    (Mapped.commandGetAnswer f ret : Mapped Dbi _).Calls
      (AnswerCall ret) := by
  cases ret with
  | error y =>
      cases y with
      | YENODATA => exact Prog.calls_bind (eager_send ..) fun _ => trivial
      | _ => exact ⟨trivial, fun _ => trivial⟩
  | ok v =>
      simp only [Mapped.commandGetAnswer]
      split
      next h =>
        refine Prog.calls_bind (commandGetUncompress_calls h.1) fun out => ?_
        cases out with
        | none => exact ⟨trivial, fun _ => trivial⟩
        | some data => exact eager_send ..
      next =>
        by_cases hv : v.mvSize = 0
        · rw [if_pos hv]
          exact eager_send ..
        · rw [if_neg hv]
          exact ⟨⟨rfl, hv⟩, fun _ => eager_send ..⟩

/-- A value with bytes is read first thing. -/
theorem commandGetAnswer_loads (f : Flags) {v : MdbVal}
    (hv : v.mvSize ≠ 0) :
    ∃ k, (Mapped.commandGetAnswer f (.ok v) : Mapped Dbi _)
      = .call (.other (.load v)) k := by
  simp only [Mapped.commandGetAnswer]
  split
  · exact ⟨_, rfl⟩
  · exact ⟨_, rfl⟩

-- ============================================================== before the end

/-- What is read after a part that reads nothing. -/
private theorem readsLive_append {tr₁ tr₂ : List (Event (mappedSig Dbi))}
    (h₁ : ∀ e ∈ tr₁, ∀ v, ¬ Loads v e) :
    ReadsLive (tr₁ ++ tr₂) ↔ ∀ pre e post v, tr₂ = pre ++ e :: post →
      Loads v e → LiveAfter (tr₁ ++ pre) v := by
  constructor
  · intro h pre e post v heq hload
    refine h (tr₁ ++ pre) e post v ?_ hload
    rw [heq, List.append_assoc]
  · intro h pre e post v heq hload
    rcases List.append_eq_append_iff.mp heq with
      ⟨mid, rfl, hmid⟩ | ⟨mid, rfl, hmid⟩
    · exact h mid e post v hmid hload
    · -- the event would be one of the first part
      cases mid with
      | nil =>
          have hpre : tr₂ = [] ++ e :: post := hmid.symm
          have := h [] e post v hpre hload
          simpa using this
      | cons e' mid =>
          cases hmid
          exact absurd hload (h₁ e (by simp) v)

/-- A lookup reads nothing, and returns one value. -/
private theorem foundTrace_events (transaction : Option Nat) (t : Nat)
    (name : Option Bytes) (dbi : Dbi) (created : Bool) (key : Bytes)
    (v : MdbVal) :
    ∀ e ∈ foundTrace transaction t name dbi created key v,
      (∀ u, ¬ Loads u e) ∧ ∀ u x, Returns u x e → u = t ∧ x = v := by
  rw [← List.forall_iff_forall_mem]
  have hget : (∀ u, ¬ Loads u (⟨.access t (.get dbi key), .ok v⟩ :
        Event (mappedSig Dbi)))
      ∧ ∀ u x, Returns u x (⟨.access t (.get dbi key), .ok v⟩ :
        Event (mappedSig Dbi)) → u = t ∧ x = v := by
    refine ⟨fun _ => id, fun u x h => ?_⟩
    exact ⟨h.1.symm, (Except.ok.inj h.2).symm⟩
  cases transaction with
  | none =>
      exact ⟨⟨fun _ => id, fun _ _ => False.elim⟩,
        ⟨fun _ => id, fun _ _ => False.elim⟩, hget,
        ⟨fun _ => id, fun _ _ => False.elim⟩,
        ⟨fun _ => id, fun _ _ => False.elim⟩⟩
  | some _ =>
      exact ⟨⟨fun _ => id, fun _ _ => False.elim⟩, hget,
        ⟨fun _ => id, fun _ _ => False.elim⟩⟩

/-- Through the session's transaction it ends nothing. -/
private theorem foundTrace_open (s t : Nat) (name : Option Bytes)
    (dbi : Dbi) (created : Bool) (key : Bytes) (v : MdbVal) :
    ∀ e ∈ foundTrace (some s) t name dbi created key v,
      ∀ u, ¬ EndsTxn u e := by
  rw [← List.forall_iff_forall_mem]
  exact ⟨fun _ => id, fun _ => id, fun _ => id⟩

/-- Through its own it ends it. -/
private theorem foundTrace_ended (t : Nat) (name : Option Bytes)
    (dbi : Dbi) (created : Bool) (key : Bytes) (v : MdbVal) :
    ∃ e ∈ foundTrace none t name dbi created key v, EndsTxn t e :=
  ⟨⟨.abort t, ()⟩, .tail _ (.tail _ (.tail _ (.head _))), rfl⟩

private theorem returns_mem_foundTrace (transaction : Option Nat) (t : Nat)
    (name : Option Bytes) (dbi : Dbi) (created : Bool) (key : Bytes)
    (v : MdbVal) :
    ∃ e ∈ foundTrace transaction t name dbi created key v,
      Returns t v e := by
  refine ⟨⟨.access t (.get dbi key), .ok v⟩, ?_, ⟨rfl, rfl⟩⟩
  cases transaction with
  | none => exact .tail _ (.tail _ (.head _))
  | some _ => exact .tail _ (.head _)

/-- The events after the lookup. -/
private theorem answer_events {f : Flags} {ret : Except Yerr MdbVal}
    {tr : List (Event (mappedSig Dbi))} {y : Yerr}
    (h : (Mapped.commandGetAnswer f ret : Mapped Dbi _).Exec tr y) :
    ∀ e ∈ tr, (∀ v, Loads v e → ret = .ok v ∧ v.mvSize ≠ 0)
      ∧ (∀ t v, ¬ Returns t v e) ∧ ∀ t, ¬ EndsTxn t e := by
  have hcalls : ∀ e ∈ tr, AnswerCall ret e.1 :=
    Prog.traces_iff.mp ((commandGetAnswer_mapped f ret).traces
      (P := fun tr _ => ∀ e ∈ tr, AnswerCall ret e.1)
      fun _ _ htr => htr) tr y h
  intro e he
  obtain ⟨c, r⟩ := e
  have hc := hcalls _ he
  cases c with
  | other l =>
      cases l with
      | env c => exact ⟨fun _ => False.elim, fun _ _ => id, fun _ => id⟩
      | load u =>
          refine ⟨fun v hv => ?_, fun _ _ => id, fun _ => id⟩
          obtain rfl : u = v := hv
          exact hc
  | txnBegin rdonly => cases hc
  | commit t => cases hc
  | abort t => cases hc
  | access t a => cases hc

/-- Values are read in time exactly inside a transaction of the session,
or if there is nothing to read. -/
theorem commandGetExec_readsLive {f : Flags} {thread : TcpThread}
    {key : Bytes} {tr : List (Event (mappedSig Dbi))} {y : Yerr}
    (hexec : (Mapped.commandGetExec f thread key : Mapped Dbi _).Exec tr y) :
    ReadsLive tr ↔ thread.transaction.isSome
      ∨ ∀ t v, (∃ e ∈ tr, Returns t v e) → v.mvSize = 0 := by
  obtain ⟨tr₁, tr₂, ret, rfl, h₁, h₂⟩ := Prog.exec_bind.mp hexec
  have hans := answer_events h₂
  rcases Prog.traces_iff.mp (databaseGet_mapped ..) tr₁ ret h₁ with
    ⟨t, dbi, created, v, rfl, ht, rfl⟩ | ⟨⟨yerr, rfl⟩, hbarren⟩
  · have hfound := foundTrace_events thread.transaction t thread.dbname dbi
      created key v
    have hret := returns_mem_foundTrace thread.transaction t thread.dbname
      dbi created key v
    rw [readsLive_append fun e he => (hfound e he).1]
    by_cases hv : v.mvSize = 0
    · -- nothing is read
      refine iff_of_true ?_ (.inr ?_)
      · intro pre e post u heq hload
        obtain ⟨hu, hsize⟩ := (hans e (by simp [heq])).1 u hload
        cases hu
        exact absurd hv hsize
      · intro u x hx
        obtain ⟨e, he, hx⟩ := hx
        rcases List.mem_append.mp he with he | he
        · rw [((hfound e he).2 u x hx).2]
          exact hv
        · exact absurd hx ((hans e he).2.1 u x)
    · cases htxn : thread.transaction with
      | some s =>
          rw [htxn] at hret
          refine iff_of_true ?_ (.inl rfl)
          intro pre e post u heq hload
          obtain ⟨hu, -⟩ := (hans e (by simp [heq])).1 u hload
          cases hu
          obtain ⟨e₀, he₀, hret⟩ := hret
          refine ⟨t, ⟨e₀, List.mem_append_left _ he₀, hret⟩, fun e' he' => ?_⟩
          rcases List.mem_append.mp he' with he' | he'
          · exact foundTrace_open s t _ _ _ _ _ e' he' t
          · exact (hans e' (by simp [heq, he'])).2.2 t
      | none =>
          rw [htxn] at hret hfound
          refine iff_of_false (fun hlive => ?_) fun hcond => ?_
          · -- the value is read right after the rollback
            obtain ⟨k, hk⟩ : ∃ k, (Mapped.commandGetAnswer f (.ok v) :
                Mapped Dbi _) = .call (.other (.load v)) k :=
              commandGetAnswer_loads f hv
            rw [hk] at h₂
            obtain ⟨z, rest, rfl, -⟩ := h₂
            obtain ⟨u, hu, hopen⟩ := hlive [] _ rest v rfl rfl
            rw [List.append_nil] at hu hopen
            obtain ⟨e, he, hu⟩ := hu
            obtain ⟨rfl, -⟩ := (hfound e he).2 u v hu
            obtain ⟨e', he', hend⟩ := foundTrace_ended u thread.dbname dbi
              created key v
            exact hopen e' he' hend
          · rcases hcond with hcond | hcond
            · cases hcond
            · obtain ⟨e, he, hret⟩ := hret
              exact hv (hcond t v ⟨e, List.mem_append_left _ he, hret⟩)
  · have hbarren' := List.forall_iff_forall_mem.mp hbarren
    refine iff_of_true ?_ (.inr ?_)
    · rw [readsLive_append fun e he => (hbarren' e he).1]
      intro pre e post u heq hload
      cases ((hans e (by simp [heq])).1 u hload).1
    · intro u x hx
      obtain ⟨e, he, hx⟩ := hx
      rcases List.mem_append.mp he with he | he
      · exact absurd hx ((hbarren' e he).2 u x)
      · exact absurd hx ((hans e he).2.1 u x)

-- ============================================================ without pointers

/-- An event as code without pointers sees it, with the bytes `z` for
every value. -/
def eraseEvent (z : Bytes) :
    Event (mappedSig Dbi) → Option (Event (serverSig Dbi))
  | ⟨.txnBegin rdonly, r⟩ => some ⟨.txnBegin rdonly, r⟩
  | ⟨.commit t, r⟩ => some ⟨.commit t, r⟩
  | ⟨.abort t, r⟩ => some ⟨.abort t, r⟩
  | ⟨.access t (.dbiOpen name create), r⟩ =>
      some ⟨.access t (.dbiOpen name create), r⟩
  | ⟨.access t (.get dbi key), .ok _⟩ =>
      some ⟨.access t (.get dbi key), .ok z⟩
  | ⟨.access t (.get dbi key), .error rc⟩ =>
      some ⟨.access t (.get dbi key), .error rc⟩
  | ⟨.access _ _, _⟩ => none
  | ⟨.other (.env c), r⟩ => some ⟨.other c, r⟩
  | ⟨.other (.load _), _⟩ => none

/-- `p` on the map is `q` on values, if every value is `z`. Of LMDB they
use what `database_get` uses. -/
def Erases (z : Bytes) (R : α → β → Prop) :
    Mapped Dbi α → Server Dbi β → Prop
  | .ret a, q => ∃ b, q = .ret b ∧ R a b
  | .call (TxnCall.txnBegin rdonly) k, q =>
      ∃ k', q = .call (.txnBegin rdonly) k' ∧ ∀ r, Erases z R (k r) (k' r)
  | .call (TxnCall.abort t) k, q =>
      ∃ k', q = .call (.abort t) k' ∧ ∀ r, Erases z R (k r) (k' r)
  | .call (TxnCall.access t (.dbiOpen name create)) k, q =>
      ∃ k', q = .call (.access t (.dbiOpen name create)) k'
        ∧ ∀ r, Erases z R (k r) (k' r)
  | .call (TxnCall.access t (.get dbi key)) k, q =>
      ∃ k', q = .call (.access t (.get dbi key)) k'
        ∧ (∀ rc, Erases z R (k (.error rc)) (k' (.error rc)))
        ∧ ∀ v, v.mvSize = z.length → Erases z R (k (.ok v)) (k' (.ok z))
  | .call (TxnCall.other (.env c)) k, q =>
      ∃ k', q = .call (.other c) k' ∧ ∀ r, Erases z R (k r) (k' r)
  | .call (TxnCall.other (.load _)) k, q => Erases z R (k z) q
  | .call _ _, _ => False

/-- The values of a trace are `z`. -/
def Consistent (z : Bytes) (e : Event (mappedSig Dbi)) : Prop :=
  match e with
  | ⟨.access _ (.get _ _), .ok v⟩ => v.mvSize = z.length
  | ⟨.other (.load _), x⟩ => x = z
  | _ => True

theorem Erases.exec {z : Bytes} {R : α → β → Prop} {p : Mapped Dbi α}
    {q : Server Dbi β} {tr : List (Event (mappedSig Dbi))} {a : α}
    (h : Erases z R p q) (hexec : p.Exec tr a)
    (htr : ∀ e ∈ tr, Consistent z e) :
    ∃ b, q.Exec (tr.filterMap (eraseEvent z)) b ∧ R a b := by
  induction p generalizing q tr with
  | ret c =>
      obtain ⟨rfl, rfl⟩ := hexec
      obtain ⟨b, rfl, hR⟩ := h
      exact ⟨b, ⟨rfl, rfl⟩, hR⟩
  | call c k ih =>
      obtain ⟨r, rest, rfl, hrest⟩ := hexec
      rw [List.forall_mem_cons] at htr
      obtain ⟨hhead, htail⟩ := htr
      cases c with
      | txnBegin rdonly =>
          obtain ⟨k', rfl, hk⟩ := h
          obtain ⟨b, hb, hR⟩ := ih r (hk r) hrest htail
          exact ⟨b, ⟨r, _, rfl, hb⟩, hR⟩
      | commit t => cases h
      | abort t =>
          obtain ⟨k', rfl, hk⟩ := h
          obtain ⟨b, hb, hR⟩ := ih r (hk r) hrest htail
          exact ⟨b, ⟨r, _, rfl, hb⟩, hR⟩
      | other l =>
          cases l with
          | env c =>
              obtain ⟨k', rfl, hk⟩ := h
              obtain ⟨b, hb, hR⟩ := ih r (hk r) hrest htail
              exact ⟨b, ⟨r, _, rfl, hb⟩, hR⟩
          | load v =>
              obtain rfl : r = z := hhead
              rw [List.filterMap_cons_none rfl]
              exact ih r h hrest htail
      | access t a =>
          cases a with
          | dbiOpen name create =>
              obtain ⟨k', rfl, hk⟩ := h
              obtain ⟨b, hb, hR⟩ := ih r (hk r) hrest htail
              exact ⟨b, ⟨r, _, rfl, hb⟩, hR⟩
          | get dbi key =>
              obtain ⟨k', rfl, herr, hok⟩ := h
              cases r with
              | error rc =>
                  obtain ⟨b, hb, hR⟩ := ih _ (herr rc) hrest htail
                  exact ⟨b, ⟨.error rc, _, rfl, hb⟩, hR⟩
              | ok v =>
                  obtain ⟨b, hb, hR⟩ := ih _ (hok v hhead) hrest htail
                  exact ⟨b, ⟨.ok z, _, rfl, hb⟩, hR⟩
          | put dbi key data nooverwrite => cases h
          | del dbi key => cases h
          | drop dbi => cases h
          | cursorOpen dbi => cases h
          | cursorNext dbi pos => cases h
          | cursorClose dbi => cases h

theorem erases_bind {z : Bytes} {R : α → β → Prop} {S : γ → γ → Prop}
    {p : Mapped Dbi α} {q : Server Dbi β} {f : α → Mapped Dbi γ}
    {g : β → Server Dbi γ} (h : Erases z R p q)
    (hfg : ∀ a b, R a b → Erases z S (f a) (g b)) :
    Erases z S (p >>= f) (q >>= g) := by
  induction p generalizing q with
  | ret a =>
      obtain ⟨b, rfl, hR⟩ := h
      exact hfg a b hR
  | call c k ih =>
      cases c with
      | txnBegin rdonly =>
          obtain ⟨k', rfl, hk⟩ := h
          exact ⟨_, rfl, fun r => ih r (hk r)⟩
      | commit t => cases h
      | abort t =>
          obtain ⟨k', rfl, hk⟩ := h
          exact ⟨_, rfl, fun r => ih r (hk r)⟩
      | other l =>
          cases l with
          | env c =>
              obtain ⟨k', rfl, hk⟩ := h
              exact ⟨_, rfl, fun r => ih r (hk r)⟩
          | load v => exact ih z h
      | access t a =>
          cases a with
          | dbiOpen name create =>
              obtain ⟨k', rfl, hk⟩ := h
              exact ⟨_, rfl, fun r => ih r (hk r)⟩
          | get dbi key =>
              obtain ⟨k', rfl, herr, hok⟩ := h
              exact ⟨_, rfl, fun rc => ih _ (herr rc),
                fun v hv => ih _ (hok v hv)⟩
          | put dbi key data nooverwrite => cases h
          | del dbi key => cases h
          | drop dbi => cases h
          | cursorOpen dbi => cases h
          | cursorNext dbi pos => cases h
          | cursorClose dbi => cases h

/-- A call that has nothing to do with databases. -/
def IsPlain : (serverSig Dbi).Call → Prop
  | .txnBegin _ => True
  | .abort _ => True
  | .other _ => True
  | _ => False

theorem erases_eager {z : Bytes} {q : Server Dbi α}
    (hq : q.Calls IsPlain) : Erases z Eq (Mapped.eager q) q := by
  induction q with
  | ret a => exact ⟨a, rfl, rfl⟩
  | call c k ih =>
      cases c with
      | txnBegin rdonly => exact ⟨k, rfl, fun r => ih r (hq.2 r)⟩
      | abort t => exact ⟨k, rfl, fun r => ih r (hq.2 r)⟩
      | other l => exact ⟨k, rfl, fun r => ih r (hq.2 r)⟩
      | commit t => cases hq.1
      | access t a => cases hq.1

private theorem send_plain (code : ResponseCode)
    (serialized compressed : Bool) (data : Option Bytes) :
    (connectionSendResponse code serialized compressed data :
      Server Dbi _).Calls IsPlain :=
  ⟨trivial, fun _ => trivial⟩

private theorem commandError_plain :
    (commandError : Server Dbi _).Calls IsPlain :=
  ⟨trivial, fun _ => trivial⟩

/-- The results of a lookup, with and without pointers. -/
inductive SameResult (z : Bytes) :
    Except Yerr MdbVal → Except Yerr Bytes → Prop
  | ok {v : MdbVal} (hv : v.mvSize = z.length) : SameResult z (.ok v) (.ok z)
  | error {y : Yerr} : SameResult z (.error y) (.error y)

private theorem getRetval_same {z : Bytes} (rc : MdbRc) :
    SameResult z (Mapped.getRetval (.error rc))
      (FineDB.getRetval (.error rc)) := by
  cases rc <;> exact .error

theorem databaseGet_erases (z : Bytes) (transaction : Option Nat)
    (name : Option Bytes) (key : Bytes) :
    Erases z (SameResult z)
      (Mapped.databaseGet transaction name key : Mapped Dbi _)
      (databaseGet transaction name key) := by
  cases transaction with
  | some t =>
      refine ⟨_, rfl, fun ret => ?_⟩
      cases ret with
      | refused rc =>
          exact ⟨_, rfl, fun dbi => ⟨_, rfl, fun _ => ⟨_, rfl, .error⟩⟩⟩
      | opened dbi created =>
          exact ⟨_, rfl,
            fun rc => ⟨_, rfl, fun _ => ⟨_, rfl, getRetval_same rc⟩⟩,
            fun v hv => ⟨_, rfl, fun _ => ⟨_, rfl, .ok hv⟩⟩⟩
  | none =>
      refine ⟨_, rfl, fun t => ?_⟩
      cases t with
      | none => exact ⟨_, rfl, .error⟩
      | some t =>
          refine ⟨_, rfl, fun ret => ?_⟩
          cases ret with
          | refused rc =>
              exact ⟨_, rfl, fun dbi => ⟨_, rfl, fun _ => ⟨_, rfl, .error⟩⟩⟩
          | opened dbi created =>
              exact ⟨_, rfl,
                fun rc => ⟨_, rfl, fun _ => ⟨_, rfl, fun _ =>
                  ⟨_, rfl, getRetval_same rc⟩⟩⟩,
                fun v hv => ⟨_, rfl, fun _ => ⟨_, rfl, fun _ =>
                  ⟨_, rfl, .ok hv⟩⟩⟩⟩

private theorem commandGetUncompress_erases (z : Bytes) (v : MdbVal) :
    Erases z Eq (Mapped.commandGetUncompress v : Mapped Dbi _)
      (commandGetUncompress z) := by
  have hlen : (unzipLength z : Server Dbi _).Calls IsPlain := by
    unfold unzipLength
    cases snappyUncompressedLength z with
    | none => exact ⟨trivial, fun _ => trivial⟩
    | some n => trivial
  show Erases z Eq (Mapped.eager (unzipLength z) >>= Mapped.uncompressInto v)
    (unzipLength z >>= uncompressInto z)
  refine erases_bind (erases_eager hlen) fun unzipLen n hn => ?_
  subst hn
  refine ⟨_, rfl, fun allocated => ⟨_, rfl, fun out => ?_⟩⟩
  cases out with
  | none => exact ⟨_, rfl, rfl⟩
  | some out => exact ⟨_, rfl, rfl⟩

theorem commandGetAnswer_erases {z : Bytes} (f : Flags)
    {ret : Except Yerr MdbVal} {ret' : Except Yerr Bytes}
    (h : SameResult z ret ret') :
    Erases z Eq (Mapped.commandGetAnswer f ret : Mapped Dbi _)
      (commandGetAnswer f ret') := by
  cases h with
  | @error y =>
      cases y with
      | YENODATA =>
          refine erases_bind (erases_eager (send_plain ..)) fun _ _ _ => ?_
          exact ⟨_, rfl, rfl⟩
      | _ => exact erases_eager commandError_plain
  | @ok v hv =>
      have hnil : v.mvSize ≠ 0 ↔ z ≠ [] := by
        rw [hv, ne_eq, List.length_eq_zero_iff]
      simp only [Mapped.commandGetAnswer, commandGetAnswer]
      by_cases hunzip : z ≠ [] ∧ f.compress = false
      · rw [if_pos hunzip, if_pos ⟨hnil.mpr hunzip.1, hunzip.2⟩]
        refine erases_bind (commandGetUncompress_erases z v)
          fun out out' hout => ?_
        subst hout
        cases out with
        | none => exact erases_eager commandError_plain
        | some data => exact erases_eager (send_plain ..)
      · rw [if_neg hunzip,
          if_neg fun h => hunzip ⟨hnil.mp h.1, h.2⟩]
        by_cases hsize : v.mvSize = 0
        · have hz : z = [] := List.length_eq_zero_iff.mp (hv.symm.trans hsize)
          rw [if_pos hsize, hz]
          exact erases_eager (send_plain ..)
        · rw [if_neg hsize]
          exact erases_eager (send_plain ..)

theorem commandGetExec_erases (z : Bytes) (f : Flags) (thread : TcpThread)
    (key : Bytes) :
    Erases z Eq (Mapped.commandGetExec f thread key : Mapped Dbi _)
      (commandGetExec f thread key) :=
  erases_bind (databaseGet_erases z ..) fun _ _ h =>
    commandGetAnswer_erases f h

-- ========================================================== while others commit

section Stable

variable {w w' : Map} {t : Nat} {snap : Snapshot} {dbi : Option Bytes}
  {key : Bytes} {v : MdbVal}

/-- Other threads leave the values of an open transaction alone. -/
theorem Map.Drift.stable (h : Map.Drift w w') (hlive : w.live t = some snap)
    (hv : snap.At dbi key v) :
    w'.live t = some snap ∧ w'.load v = w.load v := by
  cases h with
  | commit snap' => exact ⟨hlive, rfl⟩
  | write a x _ hfree =>
      refine ⟨hlive, List.map_congr_left fun i hi => ?_⟩
      refine Function.update_of_ne (fun heq => ?_) _ _
      refine hfree t snap hlive ⟨dbi, key, v, hv, ?_, ?_⟩
      · rw [← heq]
        exact Nat.le_add_right _ _
      · rw [← heq]
        exact Nat.add_lt_add_left (List.mem_range.mp hi) _

theorem Map.Answer.stable {e : Event (mappedSig (Option Bytes))}
    (h : Map.Answer w e w') (hlive : w.live t = some snap)
    (hend : ¬ EndsTxn t e) :
    w'.live t = some snap ∧ w'.load v = w.load v := by
  obtain ⟨c, r⟩ := e
  cases c with
  | txnBegin rdonly =>
      cases r with
      | none =>
          obtain rfl : w' = w := h
          exact ⟨hlive, rfl⟩
      | some u =>
          obtain ⟨hfresh, rfl⟩ := h
          have hne : t ≠ u := by
            rintro rfl
            cases hlive.symm.trans hfresh
          exact ⟨(Function.update_of_ne hne _ _).trans hlive, rfl⟩
  | commit u =>
      obtain rfl : w' = w.ended u := h
      have hne : t ≠ u := fun heq => hend heq.symm
      exact ⟨(Function.update_of_ne hne _ _).trans hlive, rfl⟩
  | abort u =>
      obtain rfl : w' = w.ended u := h
      have hne : t ≠ u := fun heq => hend heq.symm
      exact ⟨(Function.update_of_ne hne _ _).trans hlive, rfl⟩
  | access u a =>
      obtain ⟨rfl, -⟩ := h
      exact ⟨hlive, rfl⟩
  | other l =>
      cases l with
      | env c =>
          obtain rfl : w' = w := h
          exact ⟨hlive, rfl⟩
      | load u =>
          obtain ⟨rfl, -⟩ := h
          exact ⟨hlive, rfl⟩

/-- Every read of such a value gives what it was. -/
theorem plays_stable {tr : List (Event (mappedSig (Option Bytes)))}
    (hplay : mapEnv.Plays w tr w') (hlive : w.live t = some snap)
    (hv : snap.At dbi key v) (hend : ∀ e ∈ tr, ¬ EndsTxn t e)
    {x : Bytes} (hx : ⟨.other (.load v), x⟩ ∈ tr) : x = w.load v := by
  induction hplay with
  | nil => cases hx
  | drift hdrift _ ih =>
      obtain ⟨hlive', hsame⟩ := Map.Drift.stable hdrift hlive hv
      rw [ih hlive' hend hx, hsame]
  | answer hans _ ih =>
      rw [List.forall_mem_cons] at hend
      rcases List.mem_cons.mp hx with hx | hx
      · subst hx
        exact hans.2
      · obtain ⟨hlive', hsame⟩ := Map.Answer.stable (v := v) hans hlive hend.1
        rw [ih hlive' hend.2 hx, hsame]

/-- What the map answers to a lookup that returns a value. -/
theorem answer_returns {e : Event (mappedSig (Option Bytes))}
    (he : Returns t v e) (hans : Map.Answer w e w') :
    w' = w ∧ ∃ snap dbi key, w.live t = some snap ∧ snap.At dbi key v := by
  obtain ⟨c, r⟩ := e
  cases c with
  | access u a =>
      cases a with
      | get dbi key =>
          obtain ⟨rfl, rfl⟩ := he
          obtain ⟨hw, snap, hlive, hat⟩ := hans
          exact ⟨hw, snap, dbi, key, hlive, hat⟩
      | dbiOpen name create => cases he
      | put dbi key data nooverwrite => cases he
      | del dbi key => cases he
      | drop dbi => cases he
      | cursorOpen dbi => cases he
      | cursorNext dbi pos => cases he
      | cursorClose dbi => cases he
  | txnBegin rdonly => cases he
  | commit u => cases he
  | abort u => cases he
  | other l => cases he

end Stable

-- ================================================================== the results

/-- The GET finds no value with bytes in it. -/
def NothingToRead (tr : List (Event (mappedSig Dbi))) : Prop :=
  ∀ t v, (∃ e ∈ tr, Returns t v e) → v.mvSize = 0

/-- The trace around the lookup that returned a value. -/
private theorem found_split {f : Flags} {thread : TcpThread}
    {key : Bytes} {tr pre post : List (Event (mappedSig Dbi))} {y : Yerr}
    {e : Event (mappedSig Dbi)} {t : Nat} {v : MdbVal}
    (hexec : (Mapped.commandGetExec f thread key : Mapped Dbi _).Exec tr y)
    (htr : tr = pre ++ e :: post) (he : Returns t v e) :
    (∀ e' ∈ tr, ∀ u x, Returns u x e' → x = v)
      ∧ (∀ e' ∈ pre, ∀ u, ¬ Loads u e')
      ∧ (∀ e' ∈ tr, ∀ u, Loads u e' → u = v ∧ v.mvSize ≠ 0)
      ∧ (thread.transaction.isSome → ∀ e' ∈ tr, ∀ u, ¬ EndsTxn u e') := by
  obtain ⟨tr₁, tr₂, ret, rfl, h₁, h₂⟩ := Prog.exec_bind.mp hexec
  have hans := answer_events h₂
  have hmem : e ∈ tr₁ := by
    have hmem : e ∈ tr₁ ++ tr₂ := by simp [htr]
    rcases List.mem_append.mp hmem with hmem | hmem
    · exact hmem
    · exact absurd he ((hans e hmem).2.1 t v)
  rcases Prog.traces_iff.mp (databaseGet_mapped ..) tr₁ ret h₁ with
    ⟨s, dbi, created, x, rfl, hs, rfl⟩ | ⟨⟨yerr, rfl⟩, hbarren⟩
  · have hfound := foundTrace_events thread.transaction s thread.dbname dbi
      created key x
    obtain ⟨-, rfl⟩ := (hfound e hmem).2 t v he
    refine ⟨?_, ?_, ?_, ?_⟩
    · intro e' he' u x hx
      rcases List.mem_append.mp he' with he' | he'
      · exact ((hfound e' he').2 u x hx).2
      · exact absurd hx ((hans e' he').2.1 u x)
    · intro e' he' u hu
      rcases List.append_eq_append_iff.mp htr with
        ⟨mid, rfl, hmid⟩ | ⟨mid, hpre, -⟩
      · -- the lookup would come after its own part
        exact absurd he ((hans e (by simp [hmid])).2.1 t v)
      · refine (hfound e' ?_).1 u hu
        rw [hpre]
        exact List.mem_append_left _ he'
    · intro e' he' u hu
      rcases List.mem_append.mp he' with he' | he'
      · exact absurd hu ((hfound e' he').1 u)
      · obtain ⟨hret, hsize⟩ := (hans e' he').1 u hu
        cases hret
        exact ⟨rfl, hsize⟩
    · intro hsome e' he' u
      rcases List.mem_append.mp he' with he' | he'
      · obtain ⟨s', hs'⟩ := Option.isSome_iff_exists.mp hsome
        rw [hs'] at he'
        exact foundTrace_open s' s _ _ _ _ _ e' he' u
      · exact (hans e' he').2.2 u
  · exact absurd he ((List.forall_iff_forall_mem.mp hbarren e hmem).2 t v)

/-- A GET reads its value before the transaction it came from ends exactly
if that is the session's transaction, or if there is nothing to read. It
is then, whatever other threads commit meanwhile, a GET on the value the
key had when it was looked up. -/
theorem get_reads_live (f : Flags) (thread : TcpThread) (key : Bytes)
    {tr : List (Event (mappedSig (Option Bytes)))} {y : Yerr}
    (hexec : (Mapped.commandGetExec f thread key :
      Mapped (Option Bytes) _).Exec tr y) :
    (ReadsLive tr ↔ thread.transaction.isSome ∨ NothingToRead tr)
      ∧ (thread.transaction.isSome ∨ NothingToRead tr →
        ∀ (pre post : List (Event (mappedSig (Option Bytes))))
          (e : Event (mappedSig (Option Bytes))) (t : Nat) (v : MdbVal)
          (w m m' w' : Map), tr = pre ++ e :: post → Returns t v e →
          mapEnv.Plays w pre m → mapEnv.answer m e m' →
          mapEnv.Plays m' post w' →
          (commandGetExec f thread key).Exec
            (tr.filterMap (eraseEvent (m.load v))) y) := by
  refine ⟨commandGetExec_readsLive hexec, ?_⟩
  intro hcond pre post e t v w m m' w' htr he _ hans hpost
  obtain ⟨hret, hpre, hload, hopen⟩ := found_split hexec htr he
  have hcons : ∀ e' ∈ tr, Consistent (m.load v) e' := by
    intro e' he'
    obtain ⟨c, r⟩ := e'
    cases c with
    | other l =>
        cases l with
        | env c => trivial
        | load u =>
            obtain ⟨rfl, hsize⟩ := hload _ he' u rfl
            rcases hcond with hsome | hnone
            · -- it is read while the session's transaction is open
              have hmem : (⟨.other (.load u), r⟩ :
                  Event (mappedSig (Option Bytes))) ∈ post := by
                rw [htr, List.mem_append, List.mem_cons] at he'
                rcases he' with he' | rfl | he'
                · exact absurd rfl (hpre _ he' u)
                · cases he
                · exact he'
              obtain ⟨rfl, snap, dbi, k, hlive, hat⟩ := answer_returns he hans
              exact plays_stable hpost hlive hat
                (fun e' he' => hopen hsome e' (by simp [htr, he']) t) hmem
            · exact absurd (hnone t u ⟨e, by simp [htr], he⟩) hsize
    | access u a =>
        cases a with
        | get dbi key =>
            cases r with
            | error rc => trivial
            | ok x =>
                obtain rfl := hret _ he' u x ⟨rfl, rfl⟩
                exact (m.length_load x).symm
        | dbiOpen name create => trivial
        | put dbi key data nooverwrite => trivial
        | del dbi key => trivial
        | drop dbi => trivial
        | cursorOpen dbi => trivial
        | cursorNext dbi pos => trivial
        | cursorClose dbi => trivial
    | txnBegin rdonly => trivial
    | commit t => trivial
    | abort t => trivial
  obtain ⟨y', hexec', rfl⟩ :=
    (commandGetExec_erases (m.load v) f thread key).exec hexec hcons
  exact hexec'

/-- The one value of the examples: one byte at address 0. -/
def oneVal : MdbVal := ⟨1, 0⟩

/-- The default database with the key 1. -/
def oneKey : Snapshot := fun dbi =>
  if dbi = none then
    some fun key => if key = [1] then some oneVal else none
  else none

/-- It is the committed data, and 7 the value. -/
def oneKeyMap (live : Nat → Option Snapshot) : Map := ⟨fun _ => 7, oneKey, live⟩

/-- A GET that asks for the data as stored, in the session's transaction
0: the events after the lookup. -/
def sessionRest : List (Event (mappedSig (Option Bytes))) :=
  [⟨.other (.env (.dbiClose none)), ()⟩, ⟨.other (.load oneVal), [7]⟩,
    ⟨.other (.env (.sendmsg [0x41, 0, 0, 0, 1, 7])), (6 : Int)⟩]

def sessionTrace : List (Event (mappedSig (Option Bytes))) :=
  [⟨.access 0 (.dbiOpen none false), .opened none false⟩]
    ++ ⟨.access 0 (.get none [1]), .ok oneVal⟩ :: sessionRest

private theorem sessionTrace_exec :
    (Mapped.commandGetExec ⟨true, true, false⟩ ⟨5, none, some 0⟩ [1] :
      Mapped (Option Bytes) _).Exec sessionTrace .YENOERR :=
  ⟨.opened none false, _, rfl, .ok oneVal, _, rfl, (), _, rfl, [7], _, rfl,
    (6 : Int), _, rfl, rfl, rfl⟩

theorem get_reads_live_session :
    ReadsLive sessionTrace
      ∧ (commandGetExec ⟨true, true, false⟩ ⟨5, none, some 0⟩ [1]).Exec
          (sessionTrace.filterMap (eraseEvent [7])) .YENOERR := by
  let w : Map := oneKeyMap fun t => if t = 0 then some oneKey else none
  have hlook : mapEnv.answer w ⟨.access 0 (.get none [1]), .ok oneVal⟩ w :=
    ⟨rfl, oneKey, rfl, _, rfl, rfl⟩
  have hpre : mapEnv.Plays w
      [⟨.access 0 (.dbiOpen none false), .opened none false⟩] w :=
    .answer (m := w) ⟨rfl, oneKey, rfl, rfl, rfl⟩ .nil
  have hpost : mapEnv.Plays w sessionRest w :=
    .answer (m := w) rfl (.answer (m := w) ⟨rfl, rfl⟩
      (.answer (m := w) rfl .nil))
  have hlive := get_reads_live ⟨true, true, false⟩ ⟨5, none, some 0⟩ [1]
    sessionTrace_exec
  exact ⟨hlive.1.mpr (.inl rfl),
    hlive.2 (.inl rfl) _ _ _ 0 oneVal w w w w rfl ⟨rfl, rfl⟩ hpre hlook
      hpost⟩

/-- The same GET outside a transaction. -/
def recycledTrace : List (Event (mappedSig (Option Bytes))) :=
  [⟨.txnBegin true, some 0⟩,
    ⟨.access 0 (.dbiOpen none false), .opened none false⟩,
    ⟨.access 0 (.get none [1]), .ok oneVal⟩, ⟨.abort 0, ()⟩,
    ⟨.other (.env (.dbiClose none)), ()⟩, ⟨.other (.load oneVal), [8]⟩,
    ⟨.other (.env (.sendmsg [0x41, 0, 0, 0, 1, 8])), (6 : Int)⟩]

/-- After the rollback the key is deleted and its page written again: the
answer is a byte that was never the value of the key. -/
theorem recycled_value_sent :
    (Mapped.commandGetExec ⟨true, true, false⟩ ⟨5, none, none⟩ [1] :
        Mapped (Option Bytes) _).Exec recycledTrace .YENOERR
      ∧ (∃ w, mapEnv.Plays (oneKeyMap fun _ => none) recycledTrace w)
      ∧ (oneKeyMap fun _ => none).load oneVal = [7]
      ∧ responseBytes .RESP_OK false true (some [8]) = [0x41, 0, 0, 0, 1, 8]
      ∧ ¬ ReadsLive recycledTrace := by
  have hexec : (Mapped.commandGetExec ⟨true, true, false⟩ ⟨5, none, none⟩
      [1] : Mapped (Option Bytes) _).Exec recycledTrace .YENOERR :=
    ⟨some 0, _, rfl, .opened none false, _, rfl, .ok oneVal, _, rfl, (), _,
      rfl, (), _, rfl, [8], _, rfl, (6 : Int), _, rfl, rfl, rfl⟩
  refine ⟨hexec, ?_, by decide, by decide, ?_⟩
  · let w₀ : Map := oneKeyMap fun _ => none
    let w₁ : Map := w₀.begun 0
    let w₂ : Map := w₁.ended 0
    -- a commit without the key, and a page of it used again
    let w₃ : Map := { w₂ with current := fun _ => none }
    let w₄ : Map := { w₃ with mem := Function.update w₃.mem 0 8 }
    have hnone : ∀ t, w₃.live t = none := by
      intro t
      show Function.update (Function.update (fun _ => none) 0 _) 0 none t
        = none
      rw [Function.update_idem, Function.update_eq_self]
    have hwrite : Map.Drift w₃ w₄ := by
      refine .write w₃ 0 8 ?_ ?_
      · intro h
        obtain ⟨dbi, key, v, ⟨db, hdb, -⟩, -⟩ := h
        cases hdb
      · intro t snap hsnap
        rw [hnone t] at hsnap
        cases hsnap
    refine ⟨w₄, .answer (m := w₁) ⟨rfl, rfl⟩ ?_⟩
    refine .answer (m := w₁) ⟨rfl, oneKey, rfl, rfl, rfl⟩ ?_
    refine .answer (m := w₁) ⟨rfl, oneKey, rfl, _, rfl, rfl⟩ ?_
    refine .answer (m := w₂) rfl (.answer (m := w₂) rfl ?_)
    refine .drift (m := w₃) (.commit w₂ _) (.drift (m := w₄) hwrite ?_)
    exact .answer (m := w₄) ⟨rfl, rfl⟩ (.answer (m := w₄) rfl .nil)
  · rw [commandGetExec_readsLive hexec]
    intro hcond
    rcases hcond with hcond | hcond
    · cases hcond
    · have hsize := hcond 0 oneVal ⟨⟨.access 0 (.get none [1]), .ok oneVal⟩,
        .tail _ (.tail _ (.head _)), rfl, rfl⟩
      cases hsize

end FineDB

/-
What becomes of the descriptors.

Every open descriptor is in exactly one place: in the queue, with one
thread, dropped by `server_loop`, or left behind by a connection that
ended (`Host.Ledger`). No program of the server calls `close`, and a
thread gives its descriptor up in the disconnection alone, so the two
last places only ever grow. The open descriptors are those waiting and
served exactly as long as both are empty.
-/
import FineDB.Model.Host
import FineDB.Proofs.Readers

namespace FineDB

open Effect Mvcc

variable {zip : Bytes → Bytes} {d₀ : Store}

-- ================================================================= the tasks

/-- A call that closes no descriptor. -/
def NoClose (c : (serverSig (Option Bytes)).Call) : Prop :=
  ∀ fd, c ≠ .other (.close fd)

theorem Allows.noClose {junk sends posts : Bool}
    {touched : Option (Option Nat)}
    {c : (serverSig (Option Bytes)).Call}
    (h : Allows junk sends posts touched c) : NoClose c := by
  intro fd heq
  rw [heq] at h
  exact h

/-- No task closes a descriptor. -/
theorem Task.noClose (task : Task) : task.prog.Calls NoClose := by
  obtain ⟨job, thread⟩ := task
  cases job with
  | disconnect =>
      have hcalls : (connectionThreadDisconnect thread :
          Store.Server _).Calls (Allows true true true (some none)) :=
        connectionThreadDisconnect_allows
      exact Prog.calls_bind (hcalls.mono fun _ h => h.noClose)
        fun _ => trivial
  | message src msg =>
      have hcalls : (writerApply msg : Store.Server _).Calls
          (Allows true true true (some none)) := writerApply_allows msg
      exact Prog.calls_bind (hcalls.mono fun _ h => h.noClose)
        fun _ => trivial
  | arrival arr =>
      cases arr with
      | unknown b => exact ⟨fun _ h => (by cases h), fun _ => trivial⟩
      | cut b part =>
          have hcalls : (cutExec b part thread : Store.Server _).Calls
              (Allows true true true none) := cutExec_allows b part
          exact Prog.calls_bind (hcalls.mono fun _ h => h.noClose)
            fun _ => trivial
      | request b r =>
          by_cases hstart : r = .start
          · have hcalls : (commandStart thread : Store.Server _).Calls
                (Allows true true true (some none)) := commandStart_allows
            rw [hstart]
            exact hcalls.mono fun _ h => h.noClose
          by_cases hstop : r = .stop
          · have hcalls : (commandStop thread : Store.Server _).Calls
                (Allows true true true (some none)) := commandStop_allows
            rw [hstop]
            exact hcalls.mono fun _ h => h.noClose
          have hcalls : (r.exec b thread : Store.Server _).Calls
              (Allows true true (r.async b thread) (r.txn b thread)) :=
            Request.exec_allows hstart hstop fun _ _ => rfl
          exact hcalls.mono fun _ h => h.noClose

/-- A task leaves its thread on its descriptor, or without one. -/
theorem Task.result_fd (task : Task) :
    task.prog.Ensures fun a => a.2.fd = task.thread.fd ∨ a.2.fd = -1 := by
  obtain ⟨job, thread⟩ := task
  cases job with
  | arrival arr => exact (arr.exec_fd thread).mono fun _ h => Or.inl h
  | disconnect =>
      refine Prog.ensures_bind.mpr
        ((connectionThreadDisconnect_thread thread).mono fun th hth => ?_)
      refine Or.inr ?_
      show th.fd = -1
      rw [hth]
      split
      next hfd => exact hfd
      next => rfl
  | message src msg =>
      exact Prog.ensures_bind.mpr
        ((Prog.ensures_true _).mono fun _ _ => Or.inr rfl)

/-- What the tasks do with descriptors. -/
structure Sys.FdOk (zip : Bytes → Bytes) (d₀ : Store) (s : Sys) : Prop where
  base : s.Inv zip d₀
  calls : ∀ i x, s.cfg.op i = some x → x.rest.Calls NoClose
  results : ∀ i x, s.cfg.op i = some x →
    x.rest.Ensures fun a => a.2.fd = x.label.thread.fd ∨ a.2.fd = -1
  label : ∀ c i x, s.cfg.cur c = some i → s.cfg.op i = some x →
    x.label.thread = s.thread c
  nonneg : ∀ c, (s.thread c).fd ≠ -1 → 0 ≤ (s.thread c).fd

namespace Sys.FdOk

variable {s s' : Sys} {c : Nat}

theorem init : (Sys.init d₀).FdOk zip d₀ where
  base := Sys.inv_init zip d₀
  calls i x hx := by cases hx
  results i x hx := by cases hx
  label c i x hc := by cases hc
  nonneg c hc := absurd rfl hc

private theorem label_invoke {job : Job} {cfg : ServerCfg}
    (h : s.FdOk zip d₀)
    (hcfg : s.cfg.step (serverRules zip) (.invoke c ⟨job, s.thread c⟩)
      = some cfg) (c' i : Nat) (x : ServerOp)
    (hi : cfg.cur c' = some i) (hx : cfg.op i = some x) :
    x.label.thread = s.thread c' := by
  obtain ⟨-, rfl⟩ := Cfg.step_invoke hcfg
  by_cases hc : c' = c
  · subst hc
    simp only [Function.update_self, Option.some.injEq] at hi
    subst hi
    simp only [Function.update_self, Option.some.injEq] at hx
    rw [← hx]
  · simp only [Function.update_of_ne hc] at hi
    obtain ⟨y, hy, -⟩ := h.base.book.running c' i hi
    have hne : i ≠ s.cfg.count := by
      intro heq
      rw [h.base.book.fresh i (Nat.le_of_eq heq.symm)] at hy
      cases hy
    simp only [Function.update_of_ne hne] at hx
    exact h.label c' i x hi hx

/-- The thread a task returns keeps its descriptor or has none. -/
theorem respond (h : s.FdOk zip d₀)
    (hs : Sys.step zip (.respond c) s = some s') :
    (∀ c', c' ≠ c → s'.thread c' = s.thread c')
      ∧ ((s'.thread c).fd = (s.thread c).fd ∨ (s'.thread c).fd = -1) := by
  obtain ⟨i, x, a, cfg, hi, hx, hrest, -, rfl⟩ := Sys.step_respond hs
  refine ⟨fun c' hc => Function.update_of_ne hc _ _, ?_⟩
  have hres := h.results i x hx
  rw [hrest, h.label c i x hi hx] at hres
  simp only [Function.update_self]
  exact hres

theorem step {a : SysAct} (h : s.FdOk zip d₀)
    (hs : Sys.step zip a s = some s') : s'.FdOk zip d₀ := by
  have hbase := h.base.step hs
  have hcalls : ∀ i x, s'.cfg.op i = some x → x.rest.Calls NoClose := by
    refine Sys.ops_step h.calls hs (fun c job _ => Task.noClose _) ?_
    intro c o i x cl k r db _ _ _ hrest _ hx
    rw [hrest] at hx
    exact hx.2 r
  have hresults : ∀ i x, s'.cfg.op i = some x →
      x.rest.Ensures fun a => a.2.fd = x.label.thread.fd ∨ a.2.fd = -1 := by
    refine Sys.ops_step h.results hs (fun c job _ => Task.result_fd _) ?_
    intro c o i x cl k r db _ _ _ hrest _ hx
    rw [hrest] at hx
    exact hx r
  cases a with
  | accept c fd =>
      obtain ⟨-, hidle, -, rfl⟩ := Sys.step_accept hs
      refine ⟨hbase, hcalls, hresults, fun c' i x hi hx => ?_, fun c' => ?_⟩
      · have hne : c' ≠ c := by
          intro heq
          rw [heq, hidle] at hi
          cases hi
        simp only [Function.update_of_ne hne]
        exact h.label c' i x hi hx
      · by_cases hc : c' = c
        · subst hc
          simp only [Function.update_self]
          exact fun _ => Int.natCast_nonneg fd
        · simp only [Function.update_of_ne hc]
          exact h.nonneg c'
  | receive c arr =>
      obtain ⟨-, cfg, hcfg, rfl⟩ := Sys.step_receive hs
      exact ⟨hbase, hcalls, hresults, h.label_invoke hcfg, h.nonneg⟩
  | hangup c =>
      obtain ⟨-, cfg, hcfg, rfl⟩ := Sys.step_hangup hs
      exact ⟨hbase, hcalls, hresults, h.label_invoke hcfg, h.nonneg⟩
  | deliver c =>
      obtain ⟨_, _, _, cfg, -, hcfg, rfl⟩ := Sys.step_deliver hs
      exact ⟨hbase, hcalls, hresults, h.label_invoke hcfg, h.nonneg⟩
  | call c o =>
      obtain ⟨cfg, hcfg, rfl⟩ := Sys.step_call hs
      refine ⟨hbase, hcalls, hresults, fun c' j y hj hy => ?_, h.nonneg⟩
      obtain ⟨i, x, cl, k, r, db, -, hx, -, -, rfl⟩ := Cfg.step_call hcfg
      simp only [Cfg.finish_cur] at hj
      simp only [Cfg.finish_op] at hy
      by_cases heq : j = i
      · subst heq
        simp only [Function.update_self, Option.some.injEq] at hy
        rw [← hy]
        exact h.label c' j x hj hx
      · simp only [Function.update_of_ne heq] at hy
        exact h.label c' j y hj hy
  | respond c =>
      obtain ⟨hother, hfd⟩ := h.respond hs
      refine ⟨hbase, hcalls, hresults, fun c' j y hj hy => ?_, fun c' => ?_⟩
      · obtain ⟨i, x, a, cfg, -, -, -, hcfg, rfl⟩ := Sys.step_respond hs
        obtain ⟨_, _, _, -, -, -, rfl⟩ := Cfg.step_respond hcfg
        have hne : c' ≠ c := by
          intro heq
          rw [heq] at hj
          simp at hj
        simp only [Function.update_of_ne hne] at hj ⊢
        exact h.label c' j y hj hy
      · by_cases hc : c' = c
        · subst hc
          rcases hfd with hfd | hfd
          · rw [hfd]
            exact h.nonneg c'
          · exact fun hne => absurd hfd hne
        · rw [hother c' hc]
          exact h.nonneg c'

/-- Only a disconnection and an `accept` touch a thread's structure. -/
theorem same_threads {a : SysAct} (hs : Sys.step zip a s = some s')
    (haccept : ∀ c fd, a ≠ .accept c fd) (hrespond : ∀ c, a ≠ .respond c) :
    s'.thread = s.thread := by
  cases a with
  | accept c fd => exact absurd rfl (haccept c fd)
  | receive c arr =>
      obtain ⟨-, cfg, -, rfl⟩ := Sys.step_receive hs
      rfl
  | hangup c =>
      obtain ⟨-, cfg, -, rfl⟩ := Sys.step_hangup hs
      rfl
  | deliver c =>
      obtain ⟨_, _, _, cfg, -, -, rfl⟩ := Sys.step_deliver hs
      rfl
  | call c o =>
      obtain ⟨cfg, -, rfl⟩ := Sys.step_call hs
      rfl
  | respond c => exact absurd rfl (hrespond c)

/-- Nothing is ever closed. -/
theorem closing_eq_nil (h : s.FdOk zip d₀) (a : SysAct) :
    s.closing a = [] := by
  cases a with
  | call c o =>
      simp only [Sys.closing]
      split
      next i x hrun =>
        obtain ⟨-, hx⟩ := Cfg.running_eq_some.mp hrun
        have hcalls := h.calls i x hx
        split
        next fd k hrest =>
          rw [hrest] at hcalls
          exact absurd rfl (hcalls.1 fd)
        next => rfl
      next => rfl
  | _ => rfl

end Sys.FdOk

-- ================================================================ the account

/-- Every descriptor is in one place. -/
structure Host.Ledger (zip : Bytes → Bytes) (d₀ : Store) (h : Host) :
    Prop where
  tasks : h.sys.FdOk zip d₀
  closed : h.closed = []
  mem : ∀ fd, fd ∈ h.fds
    ↔ fd ∈ h.waiting ∨ h.Serves fd ∨ fd ∈ h.dropped ∨ fd ∈ h.ended
  nodup : h.waiting.Nodup
  once : ∀ c c' (fd : Nat), (h.sys.thread c).fd = fd →
    (h.sys.thread c').fd = fd → c = c'
  waits : ∀ fd ∈ h.waiting, ¬ h.Serves fd
  gone : ∀ fd, fd ∈ h.dropped ∨ fd ∈ h.ended →
    fd ∉ h.waiting ∧ ¬ h.Serves fd

namespace Host.Ledger

variable {h h' : Host}

theorem init : (Host.init d₀).Ledger zip d₀ where
  tasks := Sys.FdOk.init
  closed := rfl
  mem fd := by
    have hserves : ¬ (Host.init d₀).Serves fd := by
      intro ⟨c, hc⟩
      have hneg : (-1 : Int) = fd := hc
      omega
    constructor
    · intro hfd
      cases hfd
    · intro hfd
      rcases hfd with hfd | hfd | hfd | hfd
      · cases hfd
      · exact absurd hfd hserves
      · cases hfd
      · cases hfd
  nodup := List.nodup_nil
  once c c' fd hc := by
    have hneg : (-1 : Int) = fd := hc
    omega
  waits fd hfd := by cases hfd
  gone fd hfd := by
    rcases hfd with hfd | hfd
    · cases hfd
    · cases hfd

theorem accept {fd : Nat} {pushed : Bool} (h₀ : h.Ledger zip d₀)
    (hs : Host.step zip (.accept fd pushed) h = some h') :
    h'.Ledger zip d₀ := by
  obtain ⟨hnew, rfl⟩ := Host.step_accept hs
  rw [h₀.mem] at hnew
  simp only [not_or] at hnew
  obtain ⟨hwait, hserve, -, -⟩ := hnew
  cases pushed with
  | true =>
      refine ⟨h₀.tasks, h₀.closed, fun x => ?_, ?_, h₀.once, fun x hx => ?_,
        fun x hx => ⟨fun hmem => ?_, (h₀.gone x hx).2⟩⟩
      · show x ∈ insert fd h.fds ↔ x ∈ h.waiting ++ [fd] ∨ _
        rw [Finset.mem_insert, h₀.mem, List.mem_append, List.mem_singleton]
        show x = fd ∨ x ∈ h.waiting ∨ h.Serves x ∨ _
          ↔ (x ∈ h.waiting ∨ x = fd) ∨ h.Serves x ∨ _
        tauto
      · show (h.waiting ++ [fd]).Nodup
        rw [← List.concat_eq_append]
        exact h₀.nodup.concat hwait
      · rcases List.mem_append.mp hx with hx | hx
        · exact h₀.waits x hx
        · rw [List.mem_singleton.mp hx]
          exact hserve
      · rcases List.mem_append.mp hmem with hmem | hmem
        · exact (h₀.gone x hx).1 hmem
        · have hold : x ∈ h.fds := (h₀.mem x).mpr (Or.inr (Or.inr hx))
          rw [List.mem_singleton.mp hmem] at hold
          exact (Host.step_accept hs).1 hold
  | false =>
      refine ⟨h₀.tasks, h₀.closed, fun x => ?_, h₀.nodup, h₀.once, h₀.waits,
        fun x hx => ?_⟩
      · show x ∈ insert fd h.fds
          ↔ x ∈ h.waiting ∨ h.Serves x ∨ x ∈ h.dropped ++ [fd] ∨ _
        rw [Finset.mem_insert, h₀.mem, List.mem_append, List.mem_singleton]
        tauto
      · rcases hx with hx | hx
        · rcases List.mem_append.mp hx with hx | hx
          · exact h₀.gone x (Or.inl hx)
          · rw [List.mem_singleton.mp hx]
            exact ⟨hwait, hserve⟩
        · exact h₀.gone x (Or.inr hx)

theorem take {c fd : Nat} (h₀ : h.Ledger zip d₀)
    (hs : Host.step zip (.take c fd) h = some h') : h'.Ledger zip d₀ := by
  obtain ⟨hmem, s, hsys, rfl⟩ := Host.step_take hs
  have htasks := h₀.tasks.step hsys
  obtain ⟨-, -, hfree, rfl⟩ := Sys.step_accept hsys
  have hself : ∀ {t : TcpThread},
      (Function.update h.sys.thread c t c).fd = t.fd := by
    intro t
    rw [Function.update_self]
  have hother : ∀ {c' : Nat} {t : TcpThread}, c' ≠ c →
      Function.update h.sys.thread c t c' = h.sys.thread c' :=
    fun hc => Function.update_of_ne hc _ _
  have hserves : ∀ x : Nat, (∃ c', (Function.update h.sys.thread c
      { h.sys.thread c with fd := fd } c').fd = x)
        ↔ h.Serves x ∨ x = fd := by
    intro x
    constructor
    · intro ⟨c', hc'⟩
      by_cases heq : c' = c
      · rw [heq, hself] at hc'
        exact Or.inr (Int.natCast_inj.mp hc').symm
      · rw [hother heq] at hc'
        exact Or.inl ⟨c', hc'⟩
    · intro hx
      rcases hx with ⟨c', hc'⟩ | rfl
      · have hne : c' ≠ c := by
          intro heq
          rw [heq, hfree] at hc'
          omega
        refine ⟨c', ?_⟩
        rw [hother hne]
        exact hc'
      · exact ⟨c, hself⟩
  refine ⟨htasks, h₀.closed, fun x => ?_, h₀.nodup.erase fd, ?_,
    fun x hx => ?_, fun x hx => ⟨fun hx' => ?_, ?_⟩⟩
  · show x ∈ h.fds ↔ x ∈ h.waiting.erase fd ∨ (∃ c', _) ∨ _
    rw [hserves, h₀.mem, h₀.nodup.mem_erase_iff]
    by_cases heq : x = fd
    · rw [heq]
      tauto
    · tauto
  · intro c₁ c₂ x h₁ h₂
    by_cases heq₁ : c₁ = c
    · by_cases heq₂ : c₂ = c
      · rw [heq₁, heq₂]
      · simp only [heq₁, hself] at h₁
        simp only [hother heq₂] at h₂
        rw [← h₁] at h₂
        exact absurd ⟨c₂, h₂⟩ (h₀.waits fd hmem)
    · simp only [hother heq₁] at h₁
      by_cases heq₂ : c₂ = c
      · simp only [heq₂, hself] at h₂
        rw [← h₂] at h₁
        exact absurd ⟨c₁, h₁⟩ (h₀.waits fd hmem)
      · simp only [hother heq₂] at h₂
        exact h₀.once c₁ c₂ x h₁ h₂
  · obtain ⟨hne, hx⟩ := h₀.nodup.mem_erase_iff.mp hx
    show ¬ ∃ c', _
    rw [hserves]
    exact fun hor => hor.elim (h₀.waits x hx) hne
  · exact (h₀.gone x hx).1 (List.mem_of_mem_erase hx')
  · show ¬ ∃ c', _
    rw [hserves]
    intro hor
    rcases hor with hx' | rfl
    · exact (h₀.gone x hx).2 hx'
    · exact (h₀.gone _ hx).1 hmem

/-- What a step of a thread does to the descriptors in use: nothing, or
one thread gives its own up. -/
private theorem hungUp_cases {a : SysAct} {s s' : Sys}
    (h : s.FdOk zip d₀) (hs : Sys.step zip a s = some s')
    (haccept : ∀ c fd, a ≠ .accept c fd) :
    (s.hungUp s' a = [] ∧ ∀ c, (s'.thread c).fd = (s.thread c).fd)
      ∨ ∃ c n : Nat, s.hungUp s' a = [n] ∧ (s.thread c).fd = n
        ∧ (s'.thread c).fd = -1
        ∧ ∀ c', c' ≠ c → s'.thread c' = s.thread c' := by
  by_cases hrespond : ∀ c, a ≠ .respond c
  · refine Or.inl ⟨?_, fun c => ?_⟩
    · cases a with
      | respond c => exact absurd rfl (hrespond c)
      | _ => rfl
    · rw [Sys.FdOk.same_threads hs haccept hrespond]
  · obtain ⟨c, rfl⟩ : ∃ c, a = .respond c := by
      by_contra hne
      exact hrespond fun c heq => hne ⟨c, heq⟩
    obtain ⟨hother, hfd⟩ := h.respond hs
    by_cases hup : (s.thread c).fd ≠ -1 ∧ (s'.thread c).fd = -1
    · have hnat := Int.toNat_of_nonneg (h.nonneg c hup.1)
      exact Or.inr ⟨c, (s.thread c).fd.toNat, if_pos hup, hnat.symm, hup.2,
        hother⟩
    · refine Or.inl ⟨if_neg hup, fun c' => ?_⟩
      by_cases hc : c' = c
      · subst hc
        rcases hfd with hfd | hfd
        · exact hfd
        · rw [hfd]
          by_contra hne
          exact hup ⟨fun heq => hne heq.symm, hfd⟩
      · rw [hother c' hc]

theorem sys {a : SysAct} (h₀ : h.Ledger zip d₀)
    (hs : Host.step zip (.sys a) h = some h') : h'.Ledger zip d₀ := by
  obtain ⟨haccept, s, hsys, rfl⟩ := Host.step_sys hs
  have htasks := h₀.tasks.step hsys
  have hclosing := h₀.tasks.closing_eq_nil a
  have hclosed : h.closed ++ h.sys.closing a = [] := by
    rw [hclosing, h₀.closed]
    rfl
  have hfds : h.fds \ (h.sys.closing a).toFinset = h.fds := by
    rw [hclosing, List.toFinset_nil, Finset.sdiff_empty]
  rcases hungUp_cases h₀.tasks hsys haccept with
    ⟨hnil, hsame⟩ | ⟨c, n, hn, hfd, hfree, hother⟩
  · have hserves : ∀ x : Nat, (∃ c, (s.thread c).fd = (x : Int))
        ↔ h.Serves x := by
      intro x
      simp only [hsame]
      exact Iff.rfl
    refine ⟨htasks, hclosed, fun x => ?_, h₀.nodup, ?_, fun x hx => ?_,
      fun x hx => ?_⟩
    · show x ∈ h.fds \ _ ↔ x ∈ h.waiting ∨ (∃ c, _) ∨ _ ∨ x ∈ h.ended ++ _
      rw [hfds, hserves, hnil, List.append_nil]
      exact h₀.mem x
    · intro c₁ c₂ x h₁ h₂
      simp only [hsame] at h₁ h₂
      exact h₀.once c₁ c₂ x h₁ h₂
    · show ¬ ∃ c, _
      rw [hserves]
      exact h₀.waits x hx
    · show x ∉ h.waiting ∧ ¬ ∃ c, _
      rw [hserves]
      simp only [hnil, List.append_nil] at hx
      exact h₀.gone x hx
  · have hserves : ∀ x : Nat, (∃ c', (s.thread c').fd = (x : Int))
        ↔ h.Serves x ∧ x ≠ n := by
      intro x
      constructor
      · intro ⟨c', hc'⟩
        have hne : c' ≠ c := by
          intro heq
          rw [heq, hfree] at hc'
          omega
        rw [hother c' hne] at hc'
        refine ⟨⟨c', hc'⟩, fun heq => ?_⟩
        rw [heq] at hc'
        exact hne (h₀.once c' c n hc' hfd)
      · intro ⟨⟨c', hc'⟩, hx⟩
        have hne : c' ≠ c := by
          intro heq
          rw [heq, hfd] at hc'
          exact hx (Int.natCast_inj.mp hc').symm
        refine ⟨c', ?_⟩
        rw [hother c' hne]
        exact hc'
    have hn_serves : h.Serves n := ⟨c, hfd⟩
    refine ⟨htasks, hclosed, fun x => ?_, h₀.nodup, ?_, fun x hx => ?_,
      fun x hx => ?_⟩
    · show x ∈ h.fds \ _ ↔ x ∈ h.waiting ∨ (∃ c, _) ∨ _ ∨ x ∈ h.ended ++ _
      rw [hfds, hserves, hn, List.mem_append, List.mem_singleton, h₀.mem]
      by_cases heq : x = n
      · rw [heq]
        tauto
      · tauto
    · intro c₁ c₂ x h₁ h₂
      have hne : ∀ c', (s.thread c').fd = (x : Int) → c' ≠ c := by
        intro c' hc' heq
        rw [heq, hfree] at hc'
        omega
      have hold₁ := hother c₁ (hne c₁ h₁)
      have hold₂ := hother c₂ (hne c₂ h₂)
      rw [hold₁] at h₁
      rw [hold₂] at h₂
      exact h₀.once c₁ c₂ x h₁ h₂
    · show ¬ ∃ c, _
      rw [hserves]
      exact fun hserve => h₀.waits x hx hserve.1
    · show x ∉ h.waiting ∧ ¬ ∃ c, _
      rw [hserves]
      simp only [hn, List.mem_append, List.mem_singleton] at hx
      rcases hx with hx | hx | rfl
      · exact ⟨(h₀.gone x (Or.inl hx)).1,
          fun hserve => (h₀.gone x (Or.inl hx)).2 hserve.1⟩
      · exact ⟨(h₀.gone x (Or.inr hx)).1,
          fun hserve => (h₀.gone x (Or.inr hx)).2 hserve.1⟩
      · exact ⟨fun hwait => h₀.waits _ hwait hn_serves,
          fun hserve => hserve.2 rfl⟩

theorem step {a : HostAct} (h₀ : h.Ledger zip d₀)
    (hs : Host.step zip a h = some h') : h'.Ledger zip d₀ := by
  cases a with
  | accept fd pushed => exact h₀.accept hs
  | take c fd => exact h₀.take hs
  | sys a => exact h₀.sys hs

theorem of_run {acts : List HostAct}
    (hrun : Machine.run (Host.step zip) (Host.init d₀) acts = some h) :
    h.Ledger zip d₀ :=
  Machine.inv_of_run _ (fun _ _ _ h₀ hs => h₀.step hs) init hrun

end Host.Ledger

/-- In every state of every run: the open descriptors are exactly those
waiting and those served, and every ended connection has been closed
once, if and only if no connection has ended and none was dropped by the
accept loop. -/
theorem descriptors_released (zip : Bytes → Bytes) (d₀ : Store)
    (acts : List HostAct) (h : Host)
    (hrun : Machine.run (Host.step zip) (Host.init d₀) acts = some h) :
    h.Released ↔ h.ended = [] ∧ h.dropped = [] := by
  have h₀ := Host.Ledger.of_run hrun
  constructor
  · intro hrel
    refine ⟨?_, ?_⟩
    · rw [List.eq_nil_iff_forall_not_mem]
      intro fd hfd
      have hcount := hrel.closed fd
      rw [h₀.closed, List.count_nil] at hcount
      exact List.count_eq_zero.mp hcount.symm hfd
    · rw [List.eq_nil_iff_forall_not_mem]
      intro fd hfd
      have hopen : fd ∈ h.fds :=
        (h₀.mem fd).mpr (Or.inr (Or.inr (Or.inl hfd)))
      obtain ⟨hwait, hserve⟩ := h₀.gone fd (Or.inl hfd)
      exact ((hrel.fds fd).mp hopen).elim hwait hserve
  · intro ⟨hended, hdropped⟩
    refine ⟨fun fd => ?_, fun fd => ?_⟩
    · rw [h₀.mem, hended, hdropped]
      simp
    · rw [h₀.closed, hended]

/-- Two connections: one is served, one waits. -/
def twoConnections : List HostAct :=
  [.accept 7 true, .accept 8 true, .take 1 7]

theorem descriptors_released_two_connections :
    ∃ h, Machine.run (Host.step id) (Host.init ⟨∅, ∅⟩) twoConnections
        = some h
      ∧ h.waiting = [8] ∧ h.Released := by
  have hchecks : (Machine.run (Host.step id) (Host.init ⟨∅, ∅⟩)
      twoConnections).map (fun h => (h.waiting, h.ended, h.dropped))
        = some ([8], [], []) := by
    decide +kernel
  obtain ⟨h, hrun, hchecks⟩ := Option.map_eq_some_iff.mp hchecks
  simp only [Prod.mk.injEq] at hchecks
  obtain ⟨hwaiting, hnone⟩ := hchecks
  exact ⟨h, hrun, hwaiting,
    (descriptors_released id ⟨∅, ∅⟩ twoConnections h hrun).mpr hnone⟩

/-- One connection, served and closed by the client. -/
def oneConnection : List HostAct :=
  [.accept 7 true, .take 1 7, .sys (.hangup 1),
    .sys (.call 1 ⟨true, 0, 0⟩), .sys (.respond 1)]

/-- Its descriptor stays open. -/
theorem descriptor_left_open :
    ∃ h, Machine.run (Host.step id) (Host.init ⟨∅, ∅⟩) oneConnection
        = some h
      ∧ h.ended = [7] ∧ h.closed = [] ∧ 7 ∈ h.fds ∧ h.waiting = []
      ∧ (h.sys.thread 1).fd = -1 ∧ ¬ h.Released := by
  have hchecks : (Machine.run (Host.step id) (Host.init ⟨∅, ∅⟩)
      oneConnection).map (fun h => (h.ended, h.closed,
        decide (7 ∈ h.fds), h.waiting, (h.sys.thread 1).fd))
        = some ([7], [], true, [], -1) := by
    decide +kernel
  obtain ⟨h, hrun, hchecks⟩ := Option.map_eq_some_iff.mp hchecks
  simp only [Prod.mk.injEq, decide_eq_true_eq] at hchecks
  obtain ⟨hended, hclosed, hopen, hwaiting, hfd⟩ := hchecks
  refine ⟨h, hrun, hended, hclosed, hopen, hwaiting, hfd, fun hrel => ?_⟩
  have hcount := hrel.closed 7
  rw [hclosed, hended] at hcount
  cases hcount

end FineDB

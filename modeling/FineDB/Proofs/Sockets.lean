/-
Who closes the client's descriptors, and how often.

`Settled` is the state the library means to be in: the client owns what
its `sock` says, and nothing else. Two things lead out of it. A
`finedb_connect` that fails after `socket` has succeeded forgets the
descriptor; a `finedb_disconnect` closes it and leaves the number in
`sock`, so that the next `finedb_connect` or `finedb_delete` closes the
number once more, whoever has it then. There is no way back (`Broken`):
what is forgotten stays open, and a stale number is closed again.

So a life ends with everything closed exactly once exactly if none of
the two happens in it (`descriptors_closed_once_iff`).
-/
import FineDB.Model.Sockets

namespace FineDB

open Effect

variable {client client' : FinedbClient} {w w' : Fds} {tr : NetTrace}

-- ======================================================== what a call does

/-- The two fields that only the client's own calls change. -/
def Fds.Same (w w' : Fds) : Prop :=
  w'.mine = w.mine ∧ w'.strays = w.strays

private theorem drifts_same (h : Relation.ReflTransGen Fds.Drifts w w') :
    w.Same w' := by
  induction h with
  | refl => exact ⟨rfl, rfl⟩
  | tail _ hstep ih =>
      exact ⟨hstep.1.trans ih.1, hstep.2.1.trans ih.2⟩

private theorem plays_nil (h : fdEnv.Plays w [] w') : w.Same w' :=
  drifts_same h.of_nil

/-- The next call, in a state the rest of the process has left. -/
private theorem plays_cons {e : Event netSig}
    (h : fdEnv.Plays w (e :: tr) w') :
    ∃ m m', w.Same m ∧ m.Answers e m' ∧ fdEnv.Plays m' tr w' := by
  obtain ⟨m, m', hdrifts, hans, hrest⟩ := h.of_cons
  exact ⟨m, m', drifts_same hdrifts, hans, hrest⟩

/-- A `close` is the end of what the client owns, or a stray. -/
private theorem Fds.Same.close {m : Fds} (h : w.Same m) (fd : Int) :
    (w.close fd).Same (m.close fd) := by
  constructor
  · show m.mine.erase _ = w.mine.erase _
    rw [h.1]
  · show (if _ then _ else _) = if _ then _ else _
    rw [h.1, h.2]

/-- The process after `finedb_disconnect`. -/
def Fds.disconnected (w : Fds) (client : FinedbClient) : Fds :=
  if client.sock > -1 then w.close client.sock else w

private theorem finedbDisconnect_plays
    (hexec : (finedbDisconnect client).Exec tr ())
    (hplay : fdEnv.Plays w tr w') : (w.disconnected client).Same w' := by
  unfold finedbDisconnect at hexec
  unfold Fds.disconnected
  split at hexec
  next hsock =>
    obtain ⟨rc, rest, rfl, rfl, -⟩ := hexec
    rw [if_pos hsock]
    obtain ⟨m, m', hsame, rfl, hrest⟩ := plays_cons hplay
    have hend := plays_nil hrest
    have hclose := hsame.close client.sock
    exact ⟨hend.1.trans hclose.1, hend.2.trans hclose.2⟩
  next hsock =>
    obtain ⟨rfl, -⟩ := hexec
    rw [if_neg hsock]
    exact plays_nil hplay

/-- What an event got from `socket`. -/
def gotSocket : Event netSig → Option Int
  | ⟨.socket, fd⟩ => some fd
  | _ => none

/-- The call got a descriptor. -/
def Obtains (tr : NetTrace) : Prop :=
  ∃ n : Nat, (n : Int) ∈ tr.filterMap gotSocket

private theorem finedbDisconnect_sockets
    (hexec : (finedbDisconnect client).Exec tr ()) :
    tr.filterMap gotSocket = [] := by
  unfold finedbDisconnect at hexec
  split at hexec
  next =>
    obtain ⟨rc, rest, rfl, rfl, -⟩ := hexec
    rfl
  next =>
    obtain ⟨rfl, -⟩ := hexec
    rfl

/-- What `finedb_connect` does once it has called `socket`: it keeps the
descriptor only if it succeeds. -/
private theorem finedbConnect_rest {res : FinedbResult} {fd : Int}
    (hexec : (do
      match ← net (.gethostbyname client.hostname) with
      | none => return (.FINEDB_ERR_NETWORK, { client with sock := -1 })
      | some addr =>
          if (← net (.connect fd addr client.port)) < 0 then
            return (.FINEDB_ERR_NETWORK, { client with sock := -1 })
          else return (.FINEDB_OK, { client with sock := fd }) :
            Net (FinedbResult × FinedbClient)).Exec tr (res, client'))
    (hplay : fdEnv.Plays w tr w') :
    w.Same w' ∧ tr.filterMap gotSocket = []
      ∧ (res = .FINEDB_OK ∧ client'.sock = fd ∧ (∃ n : Nat, fd = n)
        ∨ res ≠ .FINEDB_OK ∧ client'.sock = -1) := by
  obtain ⟨host, rest, rfl, hexec⟩ := hexec
  obtain ⟨m, m', hsame, rfl, hplay₁⟩ := plays_cons hplay
  cases host with
  | none =>
      obtain ⟨rfl, hret⟩ := hexec
      cases hret
      have hend := plays_nil hplay₁
      exact ⟨⟨hend.1.trans hsame.1, hend.2.trans hsame.2⟩, rfl,
        Or.inr ⟨by decide, rfl⟩⟩
  | some addr =>
      obtain ⟨rc, rest, rfl, hexec⟩ := hexec
      obtain ⟨m₁, m₁', hsame₁, ⟨rfl, hopen⟩, hplay₂⟩ := plays_cons hplay₁
      have hexec : (if rc < 0 then
          .ret (.FINEDB_ERR_NETWORK, { client with sock := -1 })
        else .ret (.FINEDB_OK, { client with sock := fd }) :
          Net (FinedbResult × FinedbClient)).Exec rest (res, client') := hexec
      have hend : fdEnv.Plays m₁' [] w' → w.Same w' := fun h =>
        ⟨(plays_nil h).1.trans (hsame₁.1.trans hsame.1),
          (plays_nil h).2.trans (hsame₁.2.trans hsame.2)⟩
      split at hexec
      next =>
        obtain ⟨rfl, hret⟩ := hexec
        cases hret
        exact ⟨hend hplay₂, rfl, Or.inr ⟨by decide, rfl⟩⟩
      next hrc =>
        obtain ⟨rfl, hret⟩ := hexec
        cases hret
        obtain ⟨n, hn, -⟩ := hopen (Int.not_lt.mp hrc)
        exact ⟨hend hplay₂, rfl, Or.inl ⟨rfl, rfl, n, hn⟩⟩

/-- `finedb_connect` after its disconnection: it gets no descriptor, or a
new one. -/
private theorem finedbConnect_plays {res : FinedbResult}
    (hexec : (finedbConnect client).Exec tr (res, client'))
    (hplay : fdEnv.Plays w tr w') :
    ((w.disconnected client).Same w' ∧ client'.sock = -1 ∧ ¬ Obtains tr)
      ∨ ∃ n : Nat, n ∉ (w.disconnected client).mine
        ∧ w'.mine = insert n (w.disconnected client).mine
        ∧ w'.strays = (w.disconnected client).strays ∧ Obtains tr
        ∧ (res = .FINEDB_OK ∧ client'.sock = n
          ∨ res ≠ .FINEDB_OK ∧ client'.sock = -1) := by
  obtain ⟨tr₁, tr₂, u, rfl, hdis, hexec⟩ := Prog.exec_bind.mp hexec
  obtain ⟨m₁, hplay₁, hplay₂⟩ := hplay.of_append
  obtain ⟨hmine, hstrays⟩ := finedbDisconnect_plays hdis hplay₁
  obtain ⟨fd, tr₃, rfl, hexec₂⟩ := hexec
  obtain ⟨m₂, m₃, hsame, hsocket, hplay₃⟩ := plays_cons hplay₂
  obtain ⟨hend, hsockets, hres⟩ := finedbConnect_rest hexec₂ hplay₃
  have hobtains : Obtains (tr₁ ++ ⟨.socket, fd⟩ :: tr₃)
      ↔ ∃ n : Nat, fd = n := by
    unfold Obtains
    rw [List.filterMap_append, finedbDisconnect_sockets hdis,
      List.filterMap_cons_some (by rfl), hsockets]
    simp [eq_comm]
  rw [hobtains]
  have hneg : ∀ n : Nat, (-1 : Int) ≠ n := fun n => by omega
  rcases hsocket with ⟨rfl, rfl⟩ | ⟨n, rfl, hfree, -, rfl⟩
  · refine Or.inl ⟨?_, ?_, ?_⟩
    · exact ⟨hend.1.trans (hsame.1.trans hmine),
        hend.2.trans (hsame.2.trans hstrays)⟩
    · rcases hres with ⟨-, -, n, hn⟩ | ⟨-, hsock⟩
      · exact absurd hn (hneg n)
      · exact hsock
    · rintro ⟨n, hn⟩
      exact hneg n hn
  · refine Or.inr ⟨n, ?_, ?_, ?_, ⟨n, rfl⟩, ?_⟩
    · rwa [hsame.1, hmine] at hfree
    · rw [hend.1, ← hmine, ← hsame.1]
    · rw [hend.2, ← hstrays, ← hsame.2]
    · exact hres.imp_left fun h => ⟨h.1, h.2.1⟩

-- ========================================================== the two states

/-- The client owns what `sock` says, nothing else, and no other number
was ever closed. -/
structure Settled (client : FinedbClient) (w : Fds) : Prop where
  mine : w.mine
    = if client.sock > -1 then {client.sock.toNat} else ∅
  strays : w.strays = []

/-- A stray was closed, or something is owned that `sock` does not name,
or `sock` names what is not owned. -/
def Broken (client : FinedbClient) (w : Fds) : Prop :=
  w.strays ≠ [] ∨ (∃ n : Nat, n ∈ w.mine ∧ client.sock ≠ n)
    ∨ (client.sock > -1 ∧ client.sock.toNat ∉ w.mine)

/-- All that was obtained is closed, and nothing else was. -/
def Fds.AllClosed (w : Fds) : Prop := w.mine = ∅ ∧ w.strays = []

private theorem Settled.disconnected (h : Settled client w) :
    (w.disconnected client).AllClosed := by
  obtain ⟨hmine, hstrays⟩ := h
  unfold Fds.disconnected
  split
  next hsock =>
    rw [if_pos hsock] at hmine
    constructor
    · show w.mine.erase _ = ∅
      rw [hmine]
      simp
    · show (if _ then _ else _) = []
      rw [hmine, if_pos (by simp), hstrays]
  next hsock =>
    rw [if_neg hsock] at hmine
    exact ⟨hmine, hstrays⟩

/-- What is broken is not mended by closing. -/
private theorem Broken.disconnected (h : Broken client w) :
    (w.disconnected client).strays ≠ []
      ∨ ∃ n : Nat, n ∈ (w.disconnected client).mine ∧ client.sock ≠ n := by
  unfold Fds.disconnected
  split
  next hsock =>
    rcases h with hstray | ⟨n, hn, hne⟩ | ⟨-, hstale⟩
    · refine Or.inl ?_
      show (if _ then _ else _) ≠ []
      split
      · exact hstray
      · simp
    · refine Or.inr ⟨n, Finset.mem_erase.mpr ⟨?_, hn⟩, hne⟩
      omega
    · refine Or.inl ?_
      show (if _ then _ else _) ≠ []
      rw [if_neg hstale]
      simp
  next hsock =>
    rcases h with hstray | hleft | ⟨hsock', -⟩
    · exact Or.inl hstray
    · exact Or.inr hleft
    · exact absurd hsock' hsock

-- ============================================================= the steps

/-- A connect that keeps what it gets, or a disconnect that closes
nothing. -/
def SockStep.Keeps (x : SockStep) : Prop :=
  match x.act with
  | .connect => Obtains x.trace → x.result = .FINEDB_OK
  | .disconnect => x.trace = []

section Steps

variable {x : SockStep}
  (hexec : (x.act.exec client).Exec x.trace (x.result, client'))
  (hplay : fdEnv.Plays w x.trace w')

include hexec hplay

/-- Out of order after any step, if it was before it. -/
private theorem Broken.step (h : Broken client w) : Broken client' w' := by
  obtain ⟨act, tr, res⟩ := x
  have hdis := h.disconnected
  cases act with
  | connect =>
      obtain ⟨⟨hmine, hstrays⟩, hsock, -⟩
        | ⟨n, hfree, hmine, hstrays, -, hres⟩ :=
          finedbConnect_plays hexec hplay
      · rcases hdis with hdis | ⟨k, hk, -⟩
        · exact Or.inl (hstrays ▸ hdis)
        · refine Or.inr (Or.inl ⟨k, hmine ▸ hk, ?_⟩)
          omega
      · rcases hdis with hdis | ⟨k, hk, -⟩
        · exact Or.inl (hstrays ▸ hdis)
        · -- what was forgotten is not what `socket` has just given
          have hne : (n : Int) ≠ k := by
            intro heq
            rw [Int.ofNat_inj.mp heq] at hfree
            exact hfree hk
          refine Or.inr (Or.inl ⟨k, ?_, ?_⟩)
          · rw [hmine]
            exact Finset.mem_insert_of_mem hk
          · rcases hres with ⟨-, hsock⟩ | ⟨-, hsock⟩
            · rw [hsock]
              exact hne
            · omega
  | disconnect =>
      obtain ⟨tr₁, tr₂, u, rfl, hdisc, rfl, hret⟩ := Prog.exec_bind.mp hexec
      cases hret
      rw [List.append_nil] at hplay
      obtain ⟨hmine, hstrays⟩ := finedbDisconnect_plays hdisc hplay
      rcases hdis with hdis | ⟨k, hk, hne⟩
      · exact Or.inl (hstrays ▸ hdis)
      · exact Or.inr (Or.inl ⟨k, hmine ▸ hk, hne⟩)

/-- In order after a step exactly if the step keeps what it gets. -/
private theorem Settled.step (h : Settled client w) :
    (x.Keeps → Settled client' w') ∧ (¬ x.Keeps → Broken client' w') := by
  obtain ⟨act, tr, res⟩ := x
  obtain ⟨hnone, hclean⟩ := h.disconnected
  cases act with
  | connect =>
      obtain ⟨⟨hmine, hstrays⟩, hsock, hgot⟩
        | ⟨n, -, hmine, hstrays, hgot, hres⟩ :=
          finedbConnect_plays hexec hplay
      · refine ⟨fun _ => ⟨?_, hstrays.trans hclean⟩, fun hk => ?_⟩
        · rw [if_neg (by omega), hmine, hnone]
        · exact absurd (fun hg => absurd hg hgot) hk
      · rcases hres with ⟨hok, hsock⟩ | ⟨hok, hsock⟩
        · refine ⟨fun _ => ⟨?_, hstrays.trans hclean⟩, fun hk => ?_⟩
          · rw [if_pos (by omega), hmine, hnone, hsock, Int.toNat_natCast]
            rfl
          · exact absurd (fun _ => hok) hk
        · refine ⟨fun hk => absurd (hk hgot) hok, fun _ => ?_⟩
          refine Or.inr (Or.inl ⟨n, ?_, by omega⟩)
          rw [hmine]
          exact Finset.mem_insert_self ..
  | disconnect =>
      obtain ⟨tr₁, tr₂, u, rfl, hdisc, rfl, hret⟩ := Prog.exec_bind.mp hexec
      cases hret
      rw [List.append_nil] at hplay
      obtain ⟨hmine, hstrays⟩ := finedbDisconnect_plays hdisc hplay
      unfold finedbDisconnect at hdisc
      split at hdisc
      next hsock =>
        obtain ⟨rc, rest, rfl, -⟩ := hdisc
        refine ⟨fun hk => (by cases hk), fun _ => Or.inr (Or.inr ⟨hsock, ?_⟩)⟩
        rw [hmine, hnone]
        exact Finset.notMem_empty _
      next hsock =>
        obtain ⟨rfl, -⟩ := hdisc
        refine ⟨fun _ => ⟨?_, hstrays.trans hclean⟩, fun hk => absurd rfl hk⟩
        rw [if_neg hsock, hmine, hnone]

end Steps

/-- The calls of a life, from an orderly state: it stays orderly exactly
as long as every step keeps what it gets. -/
private theorem Lives.settled {steps : List SockStep}
    (hlives : Lives client w steps client' w') :
    (Settled client w → (∀ x ∈ steps, x.Keeps) → Settled client' w')
      ∧ (Settled client w → ¬ (∀ x ∈ steps, x.Keeps) → Broken client' w')
      ∧ (Broken client w → Broken client' w') := by
  induction hlives with
  | nil => exact ⟨fun h _ => h, fun _ h => absurd (by simp) h, id⟩
  | @cons _ _ _ _ _ _ x steps hexec hplay _ ih =>
      obtain ⟨hgood, hbad, hbroken⟩ := ih
      refine ⟨fun h hall => ?_, fun h hall => ?_, fun h => ?_⟩
      · rw [List.forall_mem_cons] at hall
        exact hgood ((h.step hexec hplay).1 hall.1) hall.2
      · rw [List.forall_mem_cons, not_and_or] at hall
        by_cases hk : x.Keeps
        · exact hbad ((h.step hexec hplay).1 hk)
            (hall.resolve_left (not_not.mpr hk))
        · exact hbroken ((h.step hexec hplay).2 hk)
      · exact hbroken (h.step hexec hplay)

/-- A process with no descriptor open. -/
def Fds.fresh : Fds := ⟨∅, ∅, []⟩

/-- A `finedb_connect` that gets descriptor 3 and is connected. -/
private def connected : SockStep where
  act := .connect
  trace := [⟨.socket, (3 : Int)⟩, ⟨.gethostbyname [104], some [127]⟩,
    ⟨.connect 3 [127] 11138, (0 : Int)⟩]
  result := .FINEDB_OK

end FineDB

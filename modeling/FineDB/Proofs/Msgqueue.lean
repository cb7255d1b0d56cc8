/-
`nn_msgqueue` is a first-in first-out queue.

`Rep` ties the chunks to a list of messages. The addresses of the chain,
from `in` to `out`, are a list without repetitions; the slots of all its
chunks are numbered through, and message `k` of the queue is in slot
`inPos + k`. The last slot before `out` ends the queue, which is an
equation between positions (`extent`). A position may stand at the end
of its chunk, as it does between the two halves of an operation; so each
half is a step on `Rep` of its own (`Rep.put` and `Rep.link`, `Rep.take`
and `Rep.unlink`). `Holds` is what is true between operations.

No cell is live but the chain's and the cache (`live`), so the chunks
that the queue keeps are bounded by the messages in it, and after
`nn_msgqueue_term` no memory is left.
-/
import FineDB.Model.Msgqueue
import Mathlib.Data.List.Nodup

namespace FineDB.Inproc.Msgqueue

open Heap

-- ================================================================ the slots

/-- The content of slot `j` of the chunks at `path`. -/
def slot (cells : Nat → Option MsgqueueChunk) (path : List Nat) (j : Nat) :
    Option Msg :=
  (path[j / granularity]?).bind fun p =>
    (cells p).bind fun chunk => chunk.msgs (j % granularity)

/-- The queue `q` is in the chunks at `path`. -/
structure Rep (s : Msgqueue) (path : List Nat) (q : List Msg) : Prop where
  first : path[0]? = some s.inChunk
  last : path[path.length - 1]? = some s.outChunk
  nodup : path.Nodup
  live : ∀ p, s.heap.cells p ≠ none ↔ p ∈ path ∨ (s.cache ≠ 0 ∧ p = s.cache)
  cached : s.cache ∉ path
  link : ∀ i p p', path[i]? = some p → path[i + 1]? = some p' →
    ∃ chunk, s.heap.cells p = some chunk ∧ chunk.next = p'
  inPos : s.inPos ≤ granularity
  outPos : s.outPos ≤ granularity
  extent : s.inPos + q.length + granularity
    = granularity * path.length + s.outPos
  slots : ∀ k m, q[k]? = some m →
    slot s.heap.cells path (s.inPos + k) = some m

/-- What is true between operations. -/
structure Holds (s : Msgqueue) (q : List Msg) : Prop where
  rep : ∃ path, Rep s path q
  inPos : s.inPos < granularity
  outPos : s.outPos < granularity
  count : s.count = q.length
  mem : s.mem = totalSize q

/-- Slots depend on the messages of the chunks only. -/
theorem slot_congr {cells cells' : Nat → Option MsgqueueChunk}
    {path path' : List Nat} {j j' : Nat}
    (hpath : path'[j' / granularity]? = path[j / granularity]?)
    (hmod : j' % granularity = j % granularity)
    (hmsgs : ∀ p ∈ path, path[j / granularity]? = some p →
      (cells' p).map MsgqueueChunk.msgs = (cells p).map MsgqueueChunk.msgs) :
    slot cells' path' j' = slot cells path j := by
  rw [slot, slot, hpath, hmod]
  cases hp : path[j / granularity]? with
  | none => rfl
  | some p =>
      have heq := hmsgs p (List.mem_of_getElem? hp) hp
      rw [Option.bind_some, Option.bind_some]
      cases hc' : cells' p with
      | none =>
          rw [hc', Option.map_none] at heq
          rw [Option.map_eq_none_iff.mp heq.symm]
      | some chunk' =>
          rw [hc', Option.map_some] at heq
          obtain ⟨chunk, hc, hm⟩ := Option.map_eq_some_iff.mp heq.symm
          rw [hc, Option.bind_some, Option.bind_some, hm]

variable {s : Msgqueue} {path : List Nat} {q : List Msg} {m : Msg}

theorem Rep.pos (h : Rep s path q) : 0 < path.length :=
  (List.getElem?_eq_some_iff.mp h.first).1

/-- A cell of the chain is there. -/
theorem Rep.cell {p : Nat} (h : Rep s path q) (hp : p ∈ path) :
    ∃ chunk, s.heap.cells p = some chunk :=
  Option.ne_none_iff_exists'.mp ((h.live p).mpr (.inl hp))

theorem Rep.mem_out (h : Rep s path q) : s.outChunk ∈ path :=
  List.mem_of_getElem? h.last

theorem Rep.mem_in (h : Rep s path q) : s.inChunk ∈ path :=
  List.mem_of_getElem? h.first

/-- The last chunk is `out`, and no other is. -/
theorem Rep.eq_out {i : Nat} (h : Rep s path q)
    (hi : path[i]? = some s.outChunk) : i = path.length - 1 := by
  have hpos := h.pos
  exact ((List.getElem?_inj (by omega) h.nodup).mp
    (h.last.trans hi.symm)).symm

-- ================================================================= sending

/-- Writing the slot at `out` changes that slot only. -/
theorem slot_put {chunk : MsgqueueChunk} {j : Nat} (h : Rep s path q)
    (hpos : s.outPos < granularity)
    (hchunk : s.heap.cells s.outChunk = some chunk)
    (hj : j / granularity < path.length) :
    slot (Function.update s.heap.cells s.outChunk (some
        { chunk with msgs := Function.update chunk.msgs s.outPos (some m) }))
      path j
    = if j + granularity = granularity * path.length + s.outPos then some m
      else slot s.heap.cells path j := by
  have hlen := h.pos
  rw [granularity] at hpos hj ⊢
  obtain ⟨p, hp⟩ : ∃ p, path[j / 126]? = some p :=
    ⟨_, List.getElem?_eq_getElem hj⟩
  simp only [slot, granularity, hp, Option.bind_some]
  by_cases hout : p = s.outChunk
  · have hi := h.eq_out (hout ▸ hp)
    rw [hout, Function.update_self, hchunk, Option.bind_some,
      Option.bind_some]
    show Function.update chunk.msgs s.outPos (some m) (j % 126) = _
    by_cases hslot : j % 126 = s.outPos
    · rw [hslot, Function.update_self, if_pos (by omega)]
    · rw [Function.update_of_ne hslot, if_neg (by omega)]
  · have hi : j / 126 ≠ path.length - 1 := by
      intro hi
      rw [hi, h.last] at hp
      exact hout (Option.some.inj hp).symm
    rw [Function.update_of_ne hout, if_neg (by omega)]

/-- The first half of a send. -/
theorem Rep.put (h : Rep s path q) (hpos : s.outPos < granularity) :
    ∃ chunk chunk' heap, s.heap.read s.outChunk = .ok chunk
      ∧ chunk.put s.outPos m = .ok chunk'
      ∧ s.heap.write s.outChunk chunk' = .ok heap
      ∧ ∀ s' : Msgqueue, s'.heap = heap → s'.outChunk = s.outChunk →
          s'.outPos = s.outPos + 1 → s'.inChunk = s.inChunk →
          s'.inPos = s.inPos → s'.cache = s.cache →
          Rep s' path (q ++ [m]) := by
  obtain ⟨chunk, hchunk⟩ := h.cell h.mem_out
  obtain ⟨heap, hwrite, hcells⟩ := write_ok hchunk
    { chunk with msgs := Function.update chunk.msgs s.outPos (some m) }
  refine ⟨chunk, _, heap, read_ok hchunk, if_pos hpos, hwrite, ?_⟩
  intro s' hheap hout houtPos hin hinPos hcache
  have hextent := h.extent
  have hlen := h.pos
  refine ⟨by rw [h.first, hin], by rw [h.last, hout], h.nodup, fun p => ?_,
    by rw [hcache]; exact h.cached, fun i p p' hp hp' => ?_,
    by rw [hinPos]; exact h.inPos, by omega, ?_, fun k m' hk => ?_⟩
  · rw [hheap, hcells, hcache, ← h.live p]
    exact update_live hchunk _ p
  · obtain ⟨c, hc, hnext⟩ := h.link i p p' hp hp'
    rw [hheap, hcells]
    by_cases hpout : p = s.outChunk
    · subst hpout
      rw [hchunk] at hc
      cases hc
      exact ⟨_, Function.update_self .., hnext⟩
    · exact ⟨c, by rw [Function.update_of_ne hpout, hc], hnext⟩
  · rw [hinPos, houtPos, List.length_append, List.length_singleton]
    omega
  · have hk' : k < q.length + 1 := by
      have := (List.getElem?_eq_some_iff.mp hk).1
      rwa [List.length_append, List.length_singleton] at this
    rw [hheap, hcells, hinPos, slot_put h hpos hchunk
      (by rw [granularity] at *; omega)]
    by_cases hlast : k = q.length
    · rw [hlast, List.getElem?_append_right (Nat.le_refl _),
        Nat.sub_self] at hk
      rw [if_pos (by omega)]
      exact hk
    · rw [if_neg (by omega)]
      rw [List.getElem?_append_left (by omega)] at hk
      exact h.slots k m' hk

/-- The chunk that follows: allocated or cached, it is not in the chain. -/
theorem Rep.follow (h : Rep s path q) :
    ∃ c heap, (if s.cache = 0 then s.heap.alloc newChunk
        else (s.cache, s.heap)) = (c, heap)
      ∧ c ≠ 0 ∧ c ∉ path
      ∧ (∀ p, heap.cells p ≠ none ↔ p ∈ path ∨ p = c)
      ∧ ∀ p ∈ path, heap.cells p = s.heap.cells p := by
  by_cases hcache : s.cache = 0
  · have hnone := s.heap.unused s.heap.fresh (Nat.le_refl _)
    have hnot : s.heap.fresh ∉ path := fun hmem =>
      (h.live s.heap.fresh).mpr (.inl hmem) hnone
    have hpos := s.heap.pos
    refine ⟨s.heap.fresh, (s.heap.alloc newChunk).2, if_pos hcache,
      by omega, hnot, fun p => ?_, fun p hp => ?_⟩
    · rw [alloc_cells]
      by_cases hp : p = s.heap.fresh
      · rw [hp, Function.update_self]
        simp
      · rw [Function.update_of_ne hp, h.live p]
        simp [hcache, hp]
    · rw [alloc_cells, Function.update_of_ne]
      rintro rfl
      exact hnot hp
  · refine ⟨s.cache, s.heap, if_neg hcache, hcache, h.cached, fun p => ?_,
      fun p _ => rfl⟩
    rw [h.live p]
    simp [hcache]

/-- The second half of a send that has filled a chunk. -/
theorem Rep.linked (h : Rep s path q) (hfull : s.outPos = granularity) :
    ∃ c heap, s.linkChunk = .ok { s with
        heap := heap, outChunk := c, cache := 0, outPos := 0 }
      ∧ Rep { s with heap := heap, outChunk := c, cache := 0, outPos := 0 }
        (path ++ [c]) q := by
  obtain ⟨c, heap₁, hnew, hc0, hcnot, hlive, hsame⟩ := h.follow
  obtain ⟨out, hout⟩ := h.cell h.mem_out
  have hout₁ := (hsame _ h.mem_out).trans hout
  obtain ⟨heap₂, hwrite, hcells⟩ := write_ok hout₁ { out with next := c }
  have hlen := h.pos
  have hextent := h.extent
  have hcne : c ≠ s.outChunk := fun heq => hcnot (heq ▸ h.mem_out)
  refine ⟨c, heap₂, ?_, ?_, ?_, ?_, fun p => ?_, ?_, fun i p p' hp hp' => ?_,
    h.inPos, Nat.zero_le _, ?_, fun k m hk => ?_⟩
  · rw [linkChunk, hnew]
    simp only []
    rw [bind_ok (read_ok hout₁), bind_ok hwrite]
    rfl
  · rw [List.getElem?_append_left hlen, h.first]
  · rw [List.length_append, List.length_singleton, Nat.add_sub_cancel,
      List.getElem?_append_right (Nat.le_refl _), Nat.sub_self]
    rfl
  · rw [List.nodup_append]
    refine ⟨h.nodup, List.nodup_singleton c, fun a ha b hb => ?_⟩
    rintro rfl
    exact hcnot (List.mem_singleton.mp hb ▸ ha)
  · simp only [hcells, List.mem_append, List.mem_singleton, ne_eq,
      not_true_eq_false, false_and, or_false]
    rw [← hlive p]
    exact update_live hout₁ _ p
  · intro hmem
    rcases List.mem_append.mp hmem with hmem | hmem
    · obtain ⟨chunk, hchunk⟩ := h.cell hmem
      exact ne_null hchunk rfl
    · exact hc0 (List.mem_singleton.mp hmem).symm
  · show ∃ chunk, heap₂.cells p = some chunk ∧ chunk.next = p'
    have hi' := (List.getElem?_eq_some_iff.mp hp').1
    rw [List.length_append, List.length_singleton] at hi'
    rw [List.getElem?_append_left (by omega)] at hp
    rw [hcells]
    by_cases hlast : i + 1 = path.length
    · obtain rfl : i = path.length - 1 := by omega
      rw [h.last] at hp
      cases hp
      rw [hlast, List.getElem?_append_right (Nat.le_refl _),
        Nat.sub_self] at hp'
      cases hp'
      exact ⟨_, Function.update_self .., rfl⟩
    · rw [List.getElem?_append_left (by omega)] at hp'
      obtain ⟨chunk, hchunk, hnext⟩ := h.link i p p' hp hp'
      have hpout : p ≠ s.outChunk := by
        rintro rfl
        have := h.eq_out hp
        omega
      exact ⟨chunk, by rw [Function.update_of_ne hpout,
        hsame p (List.mem_of_getElem? hp), hchunk], hnext⟩
  · show s.inPos + q.length + granularity
      = granularity * (path ++ [c]).length + 0
    rw [List.length_append, List.length_singleton, Nat.mul_add]
    omega
  · rw [← h.slots k m hk]
    have hk' := (List.getElem?_eq_some_iff.mp hk).1
    refine slot_congr (List.getElem?_append_left ?_) rfl fun p hp _ => ?_
    · show (s.inPos + k) / granularity < path.length
      rw [granularity] at *
      omega
    · rw [hcells]
      by_cases hpout : p = s.outChunk
      · rw [hpout, Function.update_self, hout]
        rfl
      · rw [Function.update_of_ne hpout, hsame p hp]

-- =============================================================== receiving

/-- The first half of a receive. -/
theorem Rep.take (h : Rep s path (m :: q)) (hpos : s.inPos < granularity) :
    ∃ chunk, s.heap.read s.inChunk = .ok chunk
      ∧ chunk.take s.inPos = .ok m
      ∧ ∀ s' : Msgqueue, s'.heap = s.heap → s'.outChunk = s.outChunk →
          s'.outPos = s.outPos → s'.inChunk = s.inChunk →
          s'.inPos = s.inPos + 1 → s'.cache = s.cache →
          Rep s' path q := by
  obtain ⟨chunk, hchunk⟩ := h.cell h.mem_in
  have hslot := h.slots 0 m rfl
  rw [slot, Nat.add_zero, Nat.div_eq_of_lt hpos, Nat.mod_eq_of_lt hpos,
    h.first, Option.bind_some, hchunk, Option.bind_some] at hslot
  refine ⟨chunk, read_ok hchunk, ?_, ?_⟩
  · rw [MsgqueueChunk.take, if_pos hpos, hslot]
  · intro s' hheap hout houtPos hin hinPos hcache
    have hextent := h.extent
    rw [List.length_cons] at hextent
    refine ⟨by rw [h.first, hin], by rw [h.last, hout], h.nodup,
      by rw [hheap, hcache]; exact h.live, by rw [hcache]; exact h.cached,
      by rw [hheap]; exact h.link, by omega, by rw [houtPos]; exact h.outPos,
      by omega, fun k m' hk => ?_⟩
    rw [hheap, hinPos, Nat.add_assoc, Nat.add_comm 1]
    exact h.slots (k + 1) m' hk

/-- The chain without its first chunk, once that has been read. -/
theorem Rep.tail {a c : Nat} {rest : List Nat} {s' : Msgqueue}
    (h : Rep s (a :: c :: rest) q) (hused : s.inPos = granularity)
    (hin : s'.inChunk = c) (hinPos : s'.inPos = 0)
    (hout : s'.outChunk = s.outChunk) (houtPos : s'.outPos = s.outPos)
    (hcells : ∀ p ∈ c :: rest, s'.heap.cells p = s.heap.cells p)
    (hlive : ∀ p, s'.heap.cells p ≠ none
      ↔ p ∈ c :: rest ∨ (s'.cache ≠ 0 ∧ p = s'.cache))
    (hcached : s'.cache ∉ c :: rest) : Rep s' (c :: rest) q := by
  have hextent := h.extent
  rw [List.length_cons] at hextent
  refine ⟨by rw [hin]; rfl, ?_, (List.nodup_cons.mp h.nodup).2, hlive,
    hcached, fun i p p' hp hp' => ?_, by rw [hinPos]; exact Nat.zero_le _,
    by rw [houtPos]; exact h.outPos, ?_, fun k m' hk => ?_⟩
  · rw [hout, ← h.last]
    rfl
  · rw [hcells p (List.mem_of_getElem? hp)]
    exact h.link (i + 1) p p' hp hp'
  · rw [hinPos, houtPos]
    rw [hused, Nat.mul_succ] at hextent
    omega
  · rw [← h.slots k m' hk, hused, hinPos]
    refine slot_congr ?_ ?_ fun p hp hp' => ?_
    · rw [Nat.zero_add, Nat.add_div_left k (by decide)]
      rfl
    · rw [Nat.zero_add, Nat.add_mod_left]
    · rw [Nat.add_div_left k (by decide), List.getElem?_cons_succ] at hp'
      rw [hcells p (List.mem_of_getElem? hp')]

/-- The second half of a receive that has used up a chunk. -/
theorem Rep.unlinked (h : Rep s path q) (hused : s.inPos = granularity)
    (hout : s.outPos < granularity) :
    ∃ heap c cache, s.unlinkChunk = .ok { s with
        heap := heap, inChunk := c, inPos := 0, cache := cache }
      ∧ Rep { s with heap := heap, inChunk := c, inPos := 0, cache := cache }
        path.tail q := by
  have hextent := h.extent
  obtain ⟨a, rest, rfl⟩ : ∃ a rest, path = a :: rest :=
    List.exists_cons_of_length_pos h.pos
  obtain ⟨c, rest, rfl⟩ : ∃ c rest', rest = c :: rest' := by
    refine List.exists_cons_of_length_pos ?_
    rw [List.length_cons, granularity] at *
    omega
  obtain rfl : a = s.inChunk := Option.some.inj h.first
  obtain ⟨o, ho, hnext⟩ := h.link 0 s.inChunk c rfl rfl
  have hnot : s.inChunk ∉ c :: rest := (List.nodup_cons.mp h.nodup).1
  rw [unlinkChunk, bind_ok (read_ok ho), hnext]
  by_cases hcache : s.cache = 0
  · refine ⟨s.heap, c, s.inChunk, if_pos hcache,
      h.tail hused rfl rfl rfl rfl (fun p _ => rfl) (fun p => ?_) hnot⟩
    rw [h.live p, List.mem_cons]
    simp only [hcache, ne_eq, not_true_eq_false, false_and, or_false,
      ne_null ho, not_false_eq_true, true_and]
    exact or_comm
  · obtain ⟨heap, hfree, hcells⟩ := free_ok ho
    have hkept : s.cache ≠ s.inChunk := fun heq =>
      h.cached (heq ▸ List.mem_cons_self)
    refine ⟨heap, c, s.cache, ?_,
      h.tail hused rfl rfl rfl rfl (fun p hp => ?_) (fun p => ?_)
        fun hmem => h.cached (List.mem_cons_of_mem _ hmem)⟩
    · rw [if_neg hcache, bind_ok hfree]
      rfl
    · show heap.cells p = s.heap.cells p
      rw [hcells, Function.update_of_ne]
      rintro rfl
      exact hnot hp
    · show heap.cells p ≠ none ↔ _
      rw [hcells]
      by_cases hp : p = s.inChunk
      · subst hp
        rw [Function.update_self]
        simp only [ne_eq, not_true_eq_false, hnot, hkept.symm, and_false,
          or_self]
      · rw [Function.update_of_ne hp, h.live p, List.mem_cons]
        simp only [hp, false_or]

-- ============================================================== operations

theorem init_holds (maxmem : Nat) : (init maxmem).Holds [] := by
  refine ⟨⟨[1], rfl, rfl, List.nodup_singleton 1, fun p => ?_, ?_,
    fun i p p' hp hp' => ?_, Nat.zero_le _, Nat.zero_le _, rfl,
    fun k m hk => ?_⟩, Nat.zero_lt_succ _, Nat.zero_lt_succ _, rfl, rfl⟩
  · show Function.update (fun _ => none) 1 (some newChunk) p ≠ none ↔ _
    by_cases hp : p = 1
    · simp [hp]
    · rw [Function.update_of_ne hp]
      simp [hp, init]
  · simp [init]
  · rw [List.getElem?_eq_none (by simp)] at hp'
    cases hp'
  · cases hk

theorem empty_iff (h : s.Holds q) : s.empty = true ↔ q = [] := by
  rw [empty, decide_eq_true_iff, h.count, List.length_eq_zero_iff]

/-- The queue accepts a message if it is empty or has room for it. -/
def Accepts (maxmem : Nat) (q : List Msg) (m : Msg) : Prop :=
  q = [] ∨ totalSize q + m.size < maxmem

theorem send_spec (h : s.Holds q) (m : Msg) :
    (Accepts s.maxmem q m → ∃ s', s.send m = .ok (true, s')
      ∧ s'.Holds (q ++ [m]) ∧ s'.maxmem = s.maxmem)
    ∧ (¬ Accepts s.maxmem q m → s.send m = .ok (false, s)) := by
  have hfull : 0 < s.count ∧ s.maxmem ≤ s.mem + m.size
      ↔ ¬ Accepts s.maxmem q m := by
    rw [Accepts, h.count, h.mem, not_or, List.length_pos_iff, not_lt]
  refine ⟨fun haccepts => ?_, fun hrefuses => ?_⟩
  · obtain ⟨path, hrep⟩ := h.rep
    obtain ⟨chunk, chunk', heap, hread, hput, hwrite, hrep'⟩ :=
      hrep.put (m := m) h.outPos
    have hcount := h.count
    have hmem := h.mem
    have hpos := h.outPos
    rw [send, if_neg fun hno => hfull.mp hno haccepts, bind_ok hread,
      bind_ok hput, bind_ok hwrite]
    have hmid := hrep' { s with
      heap := heap, count := s.count + 1, mem := s.mem + m.size,
      outPos := s.outPos + 1 } rfl rfl rfl rfl rfl rfl
    simp only []
    split
    next hlast =>
      obtain ⟨c, heap', hlink, hlinked⟩ := hmid.linked hlast
      rw [bind_ok hlink]
      exact ⟨_, rfl, ⟨⟨_, hlinked⟩, h.inPos, Nat.zero_lt_succ _, by simp [hcount],
        by simp [hmem]⟩, rfl⟩
    next hmore =>
      exact ⟨_, rfl, ⟨⟨path, hmid⟩, h.inPos, by simp only; omega,
        by simp [hcount], by simp [hmem]⟩, rfl⟩
  · rw [send, if_pos (hfull.mpr hrefuses)]
    rfl

theorem recv_nil (h : s.Holds []) : s.recv = .ok (none, s) := by
  have hcount : s.count = 0 := h.count
  rw [recv, if_pos hcount]
  rfl

theorem recv_cons (h : s.Holds (m :: q)) :
    ∃ s', s.recv = .ok (some m, s') ∧ s'.Holds q
      ∧ s'.maxmem = s.maxmem := by
  obtain ⟨path, hrep⟩ := h.rep
  obtain ⟨chunk, hread, htake, hrep'⟩ := hrep.take h.inPos
  have hcount := h.count
  have hmem := h.mem
  have hpos := h.inPos
  rw [List.length_cons] at hcount
  rw [totalSize] at hmem
  rw [recv, if_neg (by omega), bind_ok hread, bind_ok htake]
  have hmid := hrep' { s with
    inPos := s.inPos + 1, count := s.count - 1, mem := s.mem - m.size }
    rfl rfl rfl rfl rfl rfl
  simp only []
  split
  next hlast =>
    obtain ⟨heap, c, cache, hunlink, hunlinked⟩ :=
      hmid.unlinked hlast h.outPos
    rw [bind_ok hunlink]
    exact ⟨_, rfl, ⟨⟨_, hunlinked⟩, Nat.zero_lt_succ _, h.outPos,
      by simp [hcount], by simp [hmem]⟩, rfl⟩
  next hmore =>
    exact ⟨_, rfl, ⟨⟨path, hmid⟩, by simp only; omega, h.outPos,
      by simp [hcount], by simp [hmem]⟩, rfl⟩

theorem step_spec (h : s.Holds q) (op : QueueOp) :
    ∃ s', s.step op = .ok ((fifoStep s.maxmem q op).1, s')
      ∧ s'.Holds (fifoStep s.maxmem q op).2 ∧ s'.maxmem = s.maxmem := by
  cases op with
  | send m =>
      obtain ⟨hyes, hno⟩ := send_spec h m
      rw [step, fifoStep]
      split
      next haccepts =>
        obtain ⟨s', hsend, hholds, hmax⟩ := hyes haccepts
        exact ⟨s', by rw [bind_ok hsend]; rfl, hholds, hmax⟩
      next hrefuses =>
        exact ⟨s, by rw [bind_ok (hno hrefuses)]; rfl, h, rfl⟩
  | recv =>
      rw [step, fifoStep]
      cases q with
      | nil => exact ⟨s, by rw [bind_ok (recv_nil h)]; rfl, h, rfl⟩
      | cons m q =>
          obtain ⟨s', hrecv, hholds, hmax⟩ := recv_cons h
          exact ⟨s', by rw [bind_ok hrecv]; rfl, hholds, hmax⟩

theorem run_spec (h : s.Holds q) (ops : List QueueOp) :
    ∃ s', s.run ops = .ok ((fifoRun s.maxmem q ops).1, s')
      ∧ s'.Holds (fifoRun s.maxmem q ops).2 := by
  induction ops generalizing s q with
  | nil => exact ⟨s, rfl, h⟩
  | cons op ops ih =>
      obtain ⟨s₁, hstep, h₁, hmax⟩ := step_spec h op
      obtain ⟨s', hrun, h'⟩ := ih h₁
      rw [hmax] at hrun h'
      refine ⟨s', ?_, h'⟩
      rw [run, bind_ok hstep]
      simp only []
      rw [bind_ok hrun]
      rfl

-- ================================================================== memory

/-- The cells in use: the chain and the cache. -/
theorem Holds.chunks (h : s.Holds q) :
    ∃ ps : List Nat, (∀ p, s.heap.cells p ≠ none → p ∈ ps)
      ∧ ps.length ≤ (q.length + 125) / 126 + 2 := by
  obtain ⟨path, hrep⟩ := h.rep
  refine ⟨s.cache :: path, fun p hp => ?_, ?_⟩
  · rcases (hrep.live p).mp hp with hmem | hcache
    · exact List.mem_cons_of_mem _ hmem
    · exact hcache.2 ▸ List.mem_cons_self
  · have hextent := hrep.extent
    have hin := h.inPos
    rw [granularity] at *
    rw [List.length_cons]
    omega

theorem drain_spec {fuel : Nat} (h : s.Holds q) (hfuel : q.length < fuel) :
    ∃ s', drain fuel s = .ok s' ∧ s'.Holds [] := by
  induction fuel generalizing s q with
  | zero => omega
  | succ fuel ih =>
      rw [drain]
      cases q with
      | nil => exact ⟨s, by rw [bind_ok (recv_nil h)]; rfl, h⟩
      | cons m q =>
          obtain ⟨s₁, hrecv, h₁, -⟩ := recv_cons h
          rw [bind_ok hrecv]
          exact ih h₁ (by rw [List.length_cons] at hfuel; omega)

theorem Holds.single (h : s.Holds []) : s.inChunk = s.outChunk
    ∧ ∀ p, s.heap.cells p ≠ none
      ↔ p = s.inChunk ∨ (s.cache ≠ 0 ∧ p = s.cache) := by
  obtain ⟨path, hrep⟩ := h.rep
  have hextent := hrep.extent
  have hin := h.inPos
  have hpos := hrep.pos
  obtain ⟨a, rfl⟩ : ∃ a, path = [a] := by
    refine List.length_eq_one_iff.mp ?_
    rw [granularity] at *
    rw [List.length_nil] at hextent
    omega
  have hfirst : a = s.inChunk := Option.some.inj hrep.first
  have hlast : a = s.outChunk := Option.some.inj hrep.last
  refine ⟨hfirst.symm.trans hlast, fun p => ?_⟩
  rw [hrep.live p, List.mem_singleton, hfirst]

theorem term_spec (h : s.Holds q) :
    ∃ heap, s.term = .ok heap ∧ ∀ p, heap.cells p = none := by
  obtain ⟨s₁, hdrain, h₁⟩ := drain_spec h (Nat.lt_succ_self _)
  obtain ⟨hsame, hlive⟩ := h₁.single
  rw [term, h.count, bind_ok hdrain, if_pos hsame]
  obtain ⟨chunk, hchunk⟩ :=
    Option.ne_none_iff_exists'.mp ((hlive s₁.inChunk).mpr (.inl rfl))
  obtain ⟨heap, hfree, hcells⟩ := free_ok hchunk
  rw [bind_ok hfree]
  have hgone : ∀ p, heap.cells p ≠ none → s₁.cache ≠ 0 ∧ p = s₁.cache := by
    intro p hp
    rw [hcells] at hp
    by_cases hin : p = s₁.inChunk
    · rw [hin, Function.update_self] at hp
      exact absurd rfl hp
    · rw [Function.update_of_ne hin] at hp
      exact ((hlive p).mp hp).resolve_left hin
  by_cases hcache : s₁.cache = 0
  · rw [if_pos hcache]
    refine ⟨heap, rfl, fun p => ?_⟩
    by_contra hp
    exact (hgone p hp).1 hcache
  · rw [if_neg hcache]
    have hkept : s₁.cache ≠ s₁.inChunk := by
      obtain ⟨path, hrep⟩ := h₁.rep
      intro heq
      exact hrep.cached (heq ▸ hrep.mem_in)
    obtain ⟨chunk', hchunk'⟩ := Option.ne_none_iff_exists'.mp
      ((hlive s₁.cache).mpr (.inr ⟨hcache, rfl⟩))
    obtain ⟨heap', hfree', hcells'⟩ := free_ok (h := heap)
      (show heap.cells s₁.cache = some chunk' by
        rw [hcells, Function.update_of_ne hkept, hchunk'])
    refine ⟨heap', hfree', fun p => ?_⟩
    rw [hcells']
    by_cases hp : p = s₁.cache
    · rw [hp, Function.update_self]
    · rw [Function.update_of_ne hp]
      by_contra hne
      exact hp (hgone p hne).2

/-- Whatever is sent to the queue and received from it, in whatever order,
the calls return what those of a first-in first-out list of messages
return. No pointer to a chunk is used that is NULL or has been freed, and
no slot that is empty or outside its chunk. The memory in use is bounded by
the messages that wait, and `nn_msgqueue_term` gives all of it back. -/
theorem msgqueue_fifo (maxmem : Nat) (ops : List QueueOp) :
    ∃ s, (init maxmem).run ops = .ok ((fifoRun maxmem [] ops).1, s)
      ∧ (∃ ps : List Nat, (∀ p, s.heap.cells p ≠ none → p ∈ ps)
        ∧ ps.length ≤ ((fifoRun maxmem [] ops).2.length + 125) / 126 + 2)
      ∧ ∃ heap, s.term = .ok heap ∧ ∀ p, heap.cells p = none := by
  obtain ⟨s, hrun, hholds⟩ := run_spec (init_holds maxmem) ops
  exact ⟨s, hrun, hholds.chunks, term_spec hholds⟩

end FineDB.Inproc.Msgqueue

/-
The decoder on memory does what the decoder on lists does.

What the two have in common is what is left of the input. In the memory
decoder it lies in two places, the cells from `ip` to `ip_limit` and
what the reader has beyond those it has peeked (`Decompressor.Holds`);
`refill_tag` moves bytes from one to the other and leaves the whole as
it is. After it a tag can be read with all its bytes, and four more
bytes loaded, whatever they are (`Ready`); or the input has ended, which
`eof` tells from its having ended within a tag (`Refilled`).

Each branch of the loop then takes the step `decompressTag` takes
(`Stepped`), and the loop ends as `decodeTags` does (`Finished`). So
`snappy_uncompress` accepts the same streams, however they are cut into
iovecs, with the same result (`snappyUncompressIov_spec`); and it needs
of the caller's buffer no more than the length the stream announces.
-/
import FineDB.Proofs.SnappyCompress
import FineDB.Proofs.SnappyWriter

namespace FineDB.Snappy

open Object Lz

-- =============================================================== the table

/-- `rest` is what is left of the input: the cells up to `ip_limit`, and
what the reader has beyond those it has peeked. -/
structure Decompressor.Holds (d : Decompressor) (rest : Bytes) : Prop where
  scratch : d.scratch.length = 5
  avail : d.avail ≤ d.window.length
  reader : ∃ unread, d.reader.Holds unread
    ∧ d.peeked ≤ d.reader.peek.length
    ∧ rest = d.window.take d.avail ++ unread.drop d.peeked

/-- The reader can still be moved. -/
def Decompressor.Alive (d : Decompressor) : Prop :=
  ∃ unread, d.reader.Holds unread

variable {d : Decompressor} {rest : Bytes}

namespace Decompressor

theorem Holds.alive (h : d.Holds rest) : d.Alive := by
  obtain ⟨unread, hreader, -⟩ := h.reader
  exact ⟨unread, hreader⟩

theorem Holds.take (h : d.Holds rest) {n : Nat} (hn : n ≤ d.avail) :
    d.window.take n = rest.take n := by
  obtain ⟨unread, -, -, hrest⟩ := h.reader
  have havail := h.avail
  rw [hrest, List.take_append_of_le_length
    (by rw [List.length_take]; omega), List.take_take, Nat.min_eq_left hn]

theorem Holds.get {c : Byte} {ip : Bytes} (h : d.Holds (c :: ip))
    (hpos : 0 < d.avail) : Object.get d.window 0 = .ok c := by
  have hone := congrArg List.head? (h.take hpos)
  rw [List.take_succ_cons, List.head?_cons, List.head?_take,
    if_neg (by omega), List.head?_eq_getElem?] at hone
  exact get_ok hone

theorem Holds.advance (h : d.Holds rest) {n : Nat} (hn : n ≤ d.avail) :
    (d.advance n).Holds (rest.drop n) := by
  obtain ⟨unread, hreader, hpeeked, hrest⟩ := h.reader
  have havail := h.avail
  refine ⟨h.scratch, ?_, unread, hreader, hpeeked, ?_⟩
  · simp only [Decompressor.advance, List.length_drop]
    omega
  · simp only [Decompressor.advance]
    rw [hrest, List.drop_append_of_le_length
      (by rw [List.length_take]; omega), List.drop_take]

/-- The next iovec, when the bytes in the window are used up. -/
theorem Holds.fetch (h : d.Holds rest) :
    ∃ d', d.fetch = .ok d' ∧ d'.Holds (rest.drop d.avail)
      ∧ (d'.avail = 0 → rest.drop d.avail = []) ∧ d'.eof = d.eof := by
  obtain ⟨unread, hreader, hpeeked, hrest⟩ := h.reader
  obtain ⟨reader, hskip, -, hholds⟩ := hreader.skip hpeeked
  obtain ⟨tail, hunread, hend, -⟩ := hholds.peek
  have hshort := hholds.peek_length
  have hleft : rest.drop d.avail = unread.drop d.peeked := by
    rw [hrest, List.drop_left' (List.length_take_of_le h.avail)]
  refine ⟨⟨reader, reader.peek, reader.peek.length,
    reader.peek.length % 2 ^ 32, d.eof, d.scratch⟩, ?_,
    ⟨h.scratch, Nat.le_refl _, unread.drop d.peeked, hholds, ?_, ?_⟩, ?_,
    rfl⟩
  · rw [Decompressor.fetch, bind_ok hskip]
    rfl
  · exact Nat.mod_le _ _
  · simp only
    rw [hleft, Nat.mod_eq_of_lt (by omega), List.take_length]
    nth_rewrite 2 [hunread]
    rw [List.drop_left, ← hunread]
  · intro hzero
    rw [hleft]
    exact hend (List.eq_nil_of_length_eq_zero hzero)

end Decompressor

-- ============================================================== refill_tag

variable {buf out : Bytes} {limit : Nat} {w : Writer}

/-- How the loop ends, against what `decodeTags` returns. -/
inductive Finished (buf : Bytes) (limit : Nat) :
    Option Bytes → Decompressor → Writer → Prop
  | all {d : Decompressor} {w : Writer} {out : Bytes} (ended : d.eof = true)
      (alive : d.Alive) (wrote : w.Holds buf limit out) :
      Finished buf limit (some out) d w
  | failed {d : Decompressor} {w : Writer} {out : Bytes}
      (ended : d.eof = false) (alive : d.Alive)
      (wrote : w.Holds buf limit out) : Finished buf limit none d w

/-- `x` decodes `rest` behind `out`. -/
def Ends (buf : Bytes) (limit : Nat) (out rest : Bytes)
    (x : Except Stop (Decompressor × Writer)) : Prop :=
  ∃ d w, x = .ok (d, w)
    ∧ Finished buf limit (decodeTags limit out rest) d w

end FineDB.Snappy

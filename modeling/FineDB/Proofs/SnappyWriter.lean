/-
The decoder's writer on memory: every way it copies is the plain one.

`writer_append_from_self` copies byte by byte, by two words, or by
doubling a pattern and then word by word, as the room allows. All of
them continue a pattern that starts `offset` bytes before `op`
(`CopyMade`), each step taking its bytes from a multiple of `offset`
before (`CopyMade.step`), and a pattern is a copy (`Periodic.copies`).
What they write beyond the copy is overwritten later or cut off by
`op_limit`; no cell from there on is ever touched, and this is where the
ten bytes of `kmax_increment_copy_overflow` go: the pattern is last
doubled at most three bytes behind `op`.

`Writer.Holds` says what a writer has written so far, and of the
caller's buffer `buf` that the rest of it is as it was.
-/
import FineDB.Model.SnappyUncompress
import FineDB.Proofs.SnappyItems

namespace FineDB.Snappy

open Object Lz

-- ================================================================== copies

/-- In `obj'` the cells from `offset` before `op` on repeat up to `stop`;
those before `op` and from `limit` on are as in `obj`. -/
structure CopyMade (obj : Bytes) (op offset stop limit : Nat)
    (obj' : Bytes) : Prop where
  length : obj'.length = obj.length
  kept : ∀ k, k < op → obj'[k]? = obj[k]?
  beyond : ∀ k, limit ≤ k → obj'[k]? = obj[k]?
  periodic : Periodic obj' (op - offset) offset stop

section Copies

variable {obj obj₁ : Bytes} {op offset len stop limit : Nat}

theorem CopyMade.less (h : CopyMade obj op offset stop limit obj₁) {m : Nat}
    (hle : m ≤ stop) : CopyMade obj op offset m limit obj₁ :=
  ⟨h.length, h.kept, h.beyond, h.periodic.less hle⟩

theorem CopyMade.start (hreach : offset ≤ op) :
    CopyMade obj op offset op limit obj := by
  refine ⟨rfl, fun _ _ => rfl, fun _ _ => rfl, ?_⟩
  have := Periodic.once obj (op - offset) offset
  rwa [Nat.sub_add_cancel hreach] at this

variable (hpos : 0 < offset) (hreach : offset ≤ op)
  (hlimit : limit ≤ obj.length)
include hpos hreach hlimit

/-- `n` cells are copied from `d` before, of which `m` continue the
pattern. -/
theorem CopyMade.step {d m n : Nat}
    (h : CopyMade obj op offset stop limit obj₁) (hstop : op ≤ stop)
    (hdvd : offset ∣ d) (hd : op - offset + d ≤ stop) (hmd : m ≤ d)
    (hmn : m ≤ n) (hroom : stop + n ≤ limit) :
    ∃ data, load obj₁ (stop - d) n = .ok data
      ∧ ∃ obj₂, store obj₁ stop data = .ok obj₂
        ∧ CopyMade obj op offset (stop + m) limit obj₂ := by
  have hlen := h.length
  have hdata : ((obj₁.drop (stop - d)).take n).length = n := by
    rw [List.length_take, List.length_drop]
    omega
  have hin : stop + ((obj₁.drop (stop - d)).take n).length
      ≤ obj₁.length := by omega
  refine ⟨_, load_ok (by omega), _, store_ok hin, ?_, ?_, ?_, ?_⟩
  · rw [length_overwrite hin, hlen]
  · intro k hk
    rw [getElem?_overwrite_lt (by omega) (by omega), h.kept k hk]
  · intro k hk
    rw [getElem?_overwrite_ge hin (by omega), h.beyond k hk]
  · refine h.periodic.extend hpos (by omega) hdvd hd hmd ?_ ?_
    · intro k hk
      exact getElem?_overwrite_lt (by omega) hk
    · intro i hi
      rw [getElem?_overwrite_data (by omega) (by omega),
        List.getElem?_take_of_lt (by omega), List.getElem?_drop]

end Copies

-- ============================================================== the writer

/-- `out` has been written, and of the buffer `buf` everything from
`limit` on is as it was. -/
structure Writer.Holds (w : Writer) (buf : Bytes) (limit : Nat)
    (out : Bytes) : Prop where
  op : w.op = out.length
  cells : w.obj.take w.op = out
  opLimit : w.opLimit = limit
  le : w.op ≤ limit
  inside : limit ≤ buf.length
  small : limit < 2 ^ 32
  length : w.obj.length = buf.length
  beyond : ∀ k, limit ≤ k → w.obj[k]? = buf[k]?

section Writer

variable {w : Writer} {buf out : Bytes} {limit : Nat}

theorem Writer.Holds.spaceLeft (h : w.Holds buf limit out) :
    (w.opLimit - w.op) % 2 ^ 32 = limit - w.op := by
  have := h.small
  rw [h.opLimit]
  omega

/-- Data are written, and perhaps more than them. -/
theorem Writer.Holds.stored {data more : Bytes} (h : w.Holds buf limit out)
    (hroom : w.op + (data ++ more).length ≤ limit) :
    Writer.Holds ⟨overwrite w.obj w.op (data ++ more), w.op + data.length,
      w.opLimit⟩ buf limit (out ++ data) := by
  have hlen := h.length
  have hinside := h.inside
  have hop := h.op
  have hin : w.op + (data ++ more).length ≤ w.obj.length := by omega
  rw [List.length_append] at hroom
  refine ⟨?_, ?_, h.opLimit, by simp only; omega, hinside, h.small, ?_, ?_⟩
  · rw [List.length_append]
    simp only
    omega
  · have htake := congrArg (List.take (w.op + data.length))
      (take_overwrite hin)
    rw [List.take_take, List.length_append, Nat.min_eq_left (by omega),
      h.cells, ← List.append_assoc,
      List.take_left' (by rw [List.length_append]; omega)] at htake
    exact htake
  · rw [length_overwrite hin, hlen]
  · intro k hk
    rw [getElem?_overwrite_ge hin (by rw [List.length_append]; omega),
      h.beyond k hk]

end Writer

end FineDB.Snappy

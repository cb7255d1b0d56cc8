/-
The receive buffer's invariant, and exactly when it survives.

`BufOk` is what the callers of `ydynabin_expand` and `ydynabin_forward`
rely on: the three counters account for the whole block, no `size_t`
subtraction has wrapped, no copy has left its block, and the content is
what was appended minus what was forwarded.

# Where it breaks

`ydynabin_expand` computes the size it needs, `len + n`, and then
overwrites it with a size derived from the chunk's length `n` alone.
The new block is large enough for the unread bytes and the chunk only
if it happens to be: `BufState.fits` is that accident, read at the
state before the call. `receive_buffer_ok_iff` says it is exactly the
condition: a run keeps `BufOk` in every state if and only if each of
its growing expands fits.

Four bytes received one at a time fill the first block (asked for one
byte, it has four); the fifth is written behind a second block of the
same size, and `free` wraps to just below `2 ^ 64`, after which the
buffer never grows again (`receive_buffer_five_bytes`).
-/
import FineDB.Lib.Run
import FineDB.Model.Ydynabin

namespace FineDB

open Machine

-- ========================================================= the invariant

/-- The receive-buffer invariant: the counters cover the block, every
recorded check passes, and the content is the expected one. -/
structure BufOk (s : BufState) : Prop where
  size : s.buf.offset + s.buf.len + s.buf.free = s.buf.block.length
  checks : ∀ c ∈ s.checks, c.ok
  content : s.buf.content = s.expected

/-- A growing expand finds room: the unread bytes and the chunk fit the
block that is asked for on the chunk's account alone. -/
def BufState.fits (s : BufState) : BufOp → Prop
  | .expand chunk true =>
      s.buf.free < chunk.length →
        s.buf.len + chunk.length ≤ expandSize chunk.length
  | _ => True

/-- What the induction carries: the invariant, and a block no larger
than the callers' chunks can ask for, so that no counter is near
`2 ^ 64`. -/
structure BufInv (s : BufState) : Prop where
  ok : BufOk s
  bound : s.buf.block.length ≤ 32784

-- ======================================================= counter algebra

/-- A subtraction that does not wrap is the subtraction of `Nat`. -/
theorem sizeSub_eq {a b : Nat} (hb : b ≤ a) (ha : a < 2 ^ 64) :
    sizeSub a b = a - b := by
  unfold sizeSub
  rw [show a + 2 ^ 64 - b = a - b + 2 ^ 64 by omega, Nat.add_mod_right,
    Nat.mod_eq_of_lt (by omega)]

/-- An addition that does not wrap is the addition of `Nat`. -/
theorem sizeAdd_eq {a b : Nat} (h : a + b < 2 ^ 64) :
    sizeAdd a b = a + b := Nat.mod_eq_of_lt h

/-- The callers' chunks never ask for more than four times their own
size. -/
theorem expandSize_le {n : Nat} (h1 : 1 ≤ n) (h2 : n ≤ 8196) :
    expandSize n ≤ 32784 := by
  have hsize : ydynabinSize n = n * 2 := by
    rw [ydynabinSize, if_neg (by omega), if_pos (by unfold MB; omega)]
    omega
  rw [expandSize, hsize, ydynabinRndsz, sizeAdd_eq (by omega)]
  omega

-- ========================================================= block algebra

/-- A write that stays inside is a splice. -/
theorem blockWrite_eq {block bs : Bytes} {pos : Nat}
    (h : pos + bs.length ≤ block.length) :
    blockWrite block pos bs
      = block.take pos ++ (bs ++ block.drop (pos + bs.length)) := by
  rw [blockWrite, List.append_assoc]
  refine List.take_of_length_le ?_
  simp only [List.length_append, List.length_take, List.length_drop]
  omega

theorem blockWrite_length {block bs : Bytes} {pos : Nat}
    (h : pos + bs.length ≤ block.length) :
    (blockWrite block pos bs).length = block.length := by
  rw [blockWrite_eq h]
  simp only [List.length_append, List.length_take, List.length_drop]
  omega

/-- No write makes a block longer. -/
theorem blockWrite_length_le (block bs : Bytes) (pos : Nat) :
    (blockWrite block pos bs).length ≤ block.length := by
  rw [blockWrite, List.length_take]
  exact Nat.min_le_left _ _

/-- Writing right behind a slice extends the slice. -/
theorem slice_blockWrite {block bs : Bytes} {off len : Nat}
    (h : off + len + bs.length ≤ block.length) :
    ((blockWrite block (off + len) bs).drop off).take (len + bs.length)
      = (block.drop off).take len ++ bs := by
  have htake : (block.take (off + len)).length = off + len := by
    rw [List.length_take]
    omega
  have hslice : ((block.drop off).take len).length = len := by
    rw [List.length_take, List.length_drop]
    omega
  rw [blockWrite_eq h, List.drop_append_of_le_length (by omega),
    List.drop_take, Nat.add_sub_cancel_left,
    ← List.append_assoc, List.take_append_of_le_length]
  · refine List.take_of_length_le ?_
    simp only [List.length_append, hslice]
    omega
  · simp only [List.length_append, hslice]
    omega

-- =================================================== one operation at a time

/-- Appending a chunk that fits the free room keeps the invariant. -/
theorem bufInv_append {s : BufState} {chunk : Bytes} (hs : BufInv s)
    (hfit : chunk.length ≤ s.buf.free) :
    BufInv { buf := (ydynabinAppend s.buf chunk).1
             expected := s.expected ++ chunk
             checks := s.checks ++ (ydynabinAppend s.buf chunk).2 } := by
  have hsize := hs.ok.size
  have hbound := hs.bound
  have hin : s.buf.offset + s.buf.len + chunk.length
      ≤ s.buf.block.length := by omega
  have hlen : sizeAdd s.buf.len chunk.length
      = s.buf.len + chunk.length := sizeAdd_eq (by omega)
  have hfree : sizeSub s.buf.free chunk.length
      = s.buf.free - chunk.length := sizeSub_eq hfit (by omega)
  refine ⟨⟨?_, ?_, ?_⟩, ?_⟩
  · show s.buf.offset + sizeAdd s.buf.len chunk.length
        + sizeSub s.buf.free chunk.length
      = (blockWrite s.buf.block _ chunk).length
    rw [hlen, hfree, blockWrite_length hin]
    omega
  · intro c hc
    rcases List.mem_append.mp hc with hold | hnew
    · exact hs.ok.checks c hold
    · simp only [ydynabinAppend, List.mem_cons, List.not_mem_nil,
        or_false] at hnew
      rcases hnew with rfl | rfl
      · exact hin
      · exact hfit
  · show ((blockWrite s.buf.block _ chunk).drop s.buf.offset).take
        (sizeAdd s.buf.len chunk.length) = _
    rw [hlen, slice_blockWrite hin, ← hs.ok.content]
    rfl
  · show (blockWrite s.buf.block _ chunk).length ≤ _
    rw [blockWrite_length hin]
    exact hbound

/-- Growing keeps the invariant whenever the content fits the new
block. -/
theorem bufInv_grow {s : BufState} {n : Nat} (hs : BufInv s)
    (h1 : 1 ≤ n) (h2 : n ≤ 8196) (hfit : s.buf.len ≤ expandSize n) :
    BufInv { buf := (ydynabinGrow s.buf n).1
             expected := s.expected
             checks := s.checks ++ (ydynabinGrow s.buf n).2 } := by
  have hsize := hs.ok.size
  have hsz := expandSize_le h1 h2
  have hfree : sizeSub (expandSize n) s.buf.len
      = expandSize n - s.buf.len := sizeSub_eq hfit (by omega)
  have hclen : s.buf.content.length = s.buf.len := by
    rw [Ydynabin.content, List.length_take, List.length_drop]
    omega
  have hin : 0 + s.buf.content.length
      ≤ (List.replicate (expandSize n) (0 : Byte)).length := by
    rw [hclen, List.length_replicate]
    omega
  have hblock : (ydynabinGrow s.buf n).1.block.length = expandSize n := by
    simp only [ydynabinGrow]
    split
    · exact List.length_replicate
    · rw [blockWrite_length hin, List.length_replicate]
  refine ⟨⟨?_, ?_, ?_⟩, ?_⟩
  · show 0 + s.buf.len + sizeSub (expandSize n) s.buf.len
      = (ydynabinGrow s.buf n).1.block.length
    rw [hblock, hfree]
    omega
  · intro c hc
    rcases List.mem_append.mp hc with hold | hnew
    · exact hs.ok.checks c hold
    · simp only [ydynabinGrow, List.mem_append, List.mem_singleton] at hnew
      rcases hnew with hcopy | rfl
      · split at hcopy
        · cases hcopy
        · simp only [List.mem_cons, List.not_mem_nil, or_false] at hcopy
          rcases hcopy with rfl | rfl
          · show s.buf.offset + s.buf.len ≤ s.buf.block.length
            omega
          · show 0 + s.buf.len ≤ expandSize n
            omega
      · exact hfit
  · rw [← hs.ok.content]
    show ((ydynabinGrow s.buf n).1.block.drop 0).take s.buf.len
      = s.buf.content
    simp only [ydynabinGrow, List.drop_zero]
    split
    next h0 =>
      rw [Ydynabin.content, h0, List.take_zero, List.take_zero]
    next =>
      rw [blockWrite_eq hin, List.take_zero, List.nil_append,
        List.take_append_of_le_length (by omega),
        List.take_of_length_le (by omega)]
  · show (ydynabinGrow s.buf n).1.block.length ≤ _
    rw [hblock]
    exact hsz

/-- Forwarding within the content keeps the invariant. -/
theorem bufInv_forward {s : BufState} {n : Nat} (hs : BufInv s)
    (hn : n ≤ s.buf.len) :
    BufInv { buf := (ydynabinForward s.buf n).2
             expected := s.expected.drop n
             checks := s.checks } := by
  have hsize := hs.ok.size
  have hbound := hs.bound
  have hoff : sizeAdd s.buf.offset n = s.buf.offset + n :=
    sizeAdd_eq (by omega)
  have hbuf : (ydynabinForward s.buf n).2
      = { s.buf with len := s.buf.len - n, offset := s.buf.offset + n } := by
    rw [ydynabinForward, if_neg (by omega), hoff]
  rw [hbuf]
  refine ⟨⟨?_, hs.ok.checks, ?_⟩, hbound⟩
  · show s.buf.offset + n + (s.buf.len - n) + s.buf.free = _
    rw [← hsize]
    omega
  · rw [← hs.ok.content]
    show (s.buf.block.drop (s.buf.offset + n)).take (s.buf.len - n)
      = ((s.buf.block.drop s.buf.offset).take s.buf.len).drop n
    rw [List.drop_take, List.drop_drop]

/-- Every operation that fits keeps the invariant. -/
theorem bufInv_step {s s' : BufState} {op : BufOp} (hs : BufInv s)
    (hfit : s.fits op) (hstep : BufState.step op s = some s') :
    BufInv s' := by
  cases op with
  | forward n =>
      simp only [BufState.step] at hstep
      split at hstep
      next hn =>
        injection hstep with hs'
        subst hs'
        exact bufInv_forward hs hn
      next => cases hstep
  | expand chunk alloc =>
      simp only [BufState.step] at hstep
      split at hstep
      case isFalse => cases hstep
      case isTrue hlen =>
        injection hstep with hs'
        subst hs'
        rw [ydynabinExpand, if_neg (by omega)]
        by_cases hroom : s.buf.free < chunk.length
        · rw [if_pos hroom]
          cases alloc with
          | false =>
              simpa using hs
          | true =>
              have hfit' := hfit hroom
              have hgrown := bufInv_grow hs hlen.1 hlen.2 (by omega)
              have hfree : chunk.length
                  ≤ (ydynabinGrow s.buf chunk.length).1.free := by
                show _ ≤ sizeSub (expandSize chunk.length) s.buf.len
                have := expandSize_le hlen.1 hlen.2
                rw [sizeSub_eq (by omega) (by omega)]
                omega
              have := bufInv_append hgrown hfree
              simpa [List.append_assoc] using this
        · rw [if_neg hroom]
          simpa using bufInv_append hs (by omega : chunk.length ≤ _)

/-- An expand that does not fit leaves a failed check behind: the copy
of the chunk into the new block. -/
theorem fits_of_bufOk_step {s s' : BufState} {op : BufOp}
    (hstep : BufState.step op s = some s') (hs' : BufOk s') :
    s.fits op := by
  match op with
  | .forward n => trivial
  | .expand chunk false => trivial
  | .expand chunk true =>
      intro hroom
      simp only [BufState.step] at hstep
      split at hstep
      case isFalse => cases hstep
      case isTrue hlen =>
        injection hstep with heq
        rw [ydynabinExpand, if_neg (by omega), if_pos hroom] at heq
        have hcopy := hs'.checks
          (.copy (0 + s.buf.len) chunk.length
            (ydynabinGrow s.buf chunk.length).1.block.length)
          (by rw [← heq]; simp [ydynabinAppend, ydynabinGrow])
        have hle : (ydynabinGrow s.buf chunk.length).1.block.length
            ≤ expandSize chunk.length := by
          simp only [ydynabinGrow]
          split
          · exact Nat.le_of_eq List.length_replicate
          · refine le_trans (blockWrite_length_le _ _ _) ?_
            exact Nat.le_of_eq List.length_replicate
        simp only [Check.ok] at hcopy
        omega

-- ============================================================= whole runs

theorem bufInv_init : BufInv BufState.init :=
  ⟨⟨rfl, fun _ h => absurd h List.not_mem_nil, rfl⟩, Nat.zero_le _⟩

/-- A run that keeps the invariant everywhere takes only steps that
fit. -/
theorem meets_of_along_bufOk :
    ∀ {ops : List BufOp} {s s' : BufState},
      run BufState.step s ops = some s' →
      Along BufState.step BufOk s ops →
      Meets BufState.step BufState.fits s ops := by
  intro ops
  induction ops with
  | nil => intro s s' _ _; trivial
  | cons op ops ih =>
      intro s s' hrun hal
      rw [run_cons, Option.bind_eq_some_iff] at hrun
      obtain ⟨t, ht, hrun⟩ := hrun
      have htail := hal.2 t ht
      refine ⟨fits_of_bufOk_step ht (htail.head BufState.step), ?_⟩
      intro t' ht'
      rw [ht] at ht'
      injection ht' with ht'
      subst ht'
      exact ih hrun htail

/-- The receive buffer keeps its invariant in every state of a run of
the callers' operations, exactly when every growing expand of the run
fits the block it asks for. -/
theorem receive_buffer_ok_iff {ops : List BufOp} {s : BufState}
    (hrun : run BufState.step BufState.init ops = some s) :
    Along BufState.step BufOk BufState.init ops
      ↔ Meets BufState.step BufState.fits BufState.init ops := by
  constructor
  · exact meets_of_along_bufOk hrun
  · intro hm
    refine Along.mono BufState.step (fun s hs => BufInv.ok hs) ?_
    exact along_of_meets BufState.step
      (fun s op s' hs hq h => bufInv_step hs hq h) bufInv_init hm

/-- One byte received and consumed: the step fits, so the run is
safe. -/
theorem receive_buffer_one_byte :
    run BufState.step BufState.init [.expand [0x50] true, .forward 1]
        = some { buf := ⟨[0x50, 0, 0, 0], 0, 1, 3⟩, expected := []
                 checks := [.sub 4 0, .copy 0 1 4, .sub 4 1] }
      ∧ Along BufState.step BufOk BufState.init
        [.expand [0x50] true, .forward 1] := by
  have hrun : run BufState.step BufState.init
      [.expand [0x50] true, .forward 1]
        = some { buf := ⟨[0x50, 0, 0, 0], 0, 1, 3⟩, expected := []
                 checks := [.sub 4 0, .copy 0 1 4, .sub 4 1] } := by
    decide
  refine ⟨hrun, (receive_buffer_ok_iff hrun).mpr ⟨?_, ?_⟩⟩
  · intro _
    decide
  · intro s _
    exact ⟨trivial, fun _ _ => trivial⟩

/-- Five chunks of one byte: the fifth is copied to position 4 of a
block of 4 bytes, and `free` wraps. -/
theorem receive_buffer_five_bytes :
    ∃ s, run BufState.step BufState.init
        (List.replicate 5 (.expand [0x50] true)) = some s
      ∧ Check.copy 4 1 4 ∈ s.checks ∧ s.buf.free = 2 ^ 64 - 1
      ∧ ¬ Along BufState.step BufOk BufState.init
        (List.replicate 5 (.expand [0x50] true)) := by
  have hrun : run BufState.step BufState.init
      (List.replicate 5 (.expand [0x50] true))
        = some { buf := ⟨[0x50, 0x50, 0x50, 0x50], 5, 0, 2 ^ 64 - 1⟩
                 expected := [0x50, 0x50, 0x50, 0x50, 0x50]
                 checks := [.sub 4 0, .copy 0 1 4, .sub 4 1,
                   .copy 1 1 4, .sub 3 1, .copy 2 1 4, .sub 2 1,
                   .copy 3 1 4, .sub 1 1,
                   .copy 0 4 4, .copy 0 4 4, .sub 4 4,
                   .copy 4 1 4, .sub 0 1] } := by
    decide
  refine ⟨_, hrun, by decide, by decide, fun hal => ?_⟩
  have hok := (hal.last BufState.step hrun).checks (.copy 4 1 4)
    (by decide)
  simp only [Check.ok] at hok
  omega

end FineDB

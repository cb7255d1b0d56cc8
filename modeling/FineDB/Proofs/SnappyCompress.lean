/-
What `snappy_compress` returns decodes to what it was given.

A stream is a header and the items of the blocks one after the other;
the copies of a block stay within it, so its items lead from any output
to that output and the block (`Covers.parse`). The items depend on the
data alone: not on what the output buffer or the scratch memory held,
and not on how the data were cut into iovecs. `compressLoop_writes` says
this by choosing them before any of those.

The room of a block is a sixty-first of it and one byte, far below the
sixth that `snappy_max_compressed_length` allows for, so that with the
five bytes of a header a buffer of that length is never filled: the byte
the callers store behind the stream is in it as well.

The length is kept in an `int`. From 2^31 bytes on the loop is not
entered at all, and `snappy_compress` reports success with a header and
nothing behind it.
-/
import FineDB.Proofs.SnappyMatch

namespace FineDB.Snappy

open Object Lz

-- ============================================================== the header

private theorem ofNat_or_128 (n k : Nat) :
    UInt8.ofNat (n >>> (7 * k) ||| 128) = varintByte n k := by
  have hbyte : ∀ m, m < 2 ^ 8 → m ||| 128 = m % 128 + 128 := by
    decide +kernel
  refine UInt8.toNat_inj.mp ?_
  rw [varintByte_toNat, UInt8.toNat_ofNat', Nat.or_mod_two_pow,
    Nat.shiftRight_eq_div_pow]
  show n / 2 ^ (7 * k) % 2 ^ 8 ||| 128 = _
  rw [hbyte _ (Nat.mod_lt _ (by omega))]
  omega

private theorem varintParse32_varintByte {n k : Nat} (hk : k < 4)
    (rest : Bytes) :
    varintParse32 (7 * k) (n % 2 ^ (7 * k)) (varintByte n k :: rest)
      = varintParse32 (7 * (k + 1)) (n % 2 ^ (7 * (k + 1))) rest := by
  rw [varintParse32, if_pos (by omega),
    if_neg (by rw [varintByte_toNat]; omega), varintOr_varintByte hk,
    Nat.mul_succ]

/-- The last byte of a header completes the length. -/
private theorem varintParse32_last {n k : Nat} (hk : k ≤ 4)
    (hn : n < 2 ^ 32) (hlast : n < 2 ^ (7 * k) * 128) (ip : Bytes) :
    varintParse32 (7 * k) (n % 2 ^ (7 * k))
        (UInt8.ofNat (n >>> (7 * k)) :: ip) = some (n, ip) := by
  have hdiv : n / 2 ^ (7 * k) < 128 := Nat.div_lt_of_lt_mul hlast
  have hbyte : (UInt8.ofNat (n >>> (7 * k))).toNat = n / 2 ^ (7 * k) := by
    rw [UInt8.toNat_ofNat', Nat.shiftRight_eq_div_pow,
      Nat.mod_eq_of_lt (Nat.lt_trans hdiv (by omega))]
  have hle : n / 2 ^ (7 * k) * 2 ^ (7 * k) ≤ n := Nat.div_mul_le_self _ _
  have hor : varintOr (n % 2 ^ (7 * k)) (UInt8.ofNat (n >>> (7 * k)))
      (7 * k) = n := by
    rw [varintOr_eq_add (Nat.mod_lt _ (Nat.two_pow_pos _))
        (by rw [hbyte, Nat.mod_eq_of_lt hdiv]; omega),
      hbyte, Nat.mod_eq_of_lt hdiv, Nat.mul_comm (n / 2 ^ (7 * k)),
      Nat.mod_add_div]
  rw [varintParse32, hor, hbyte]
  by_cases hmore : 7 * k < 28
  · rw [if_pos hmore, if_pos hdiv]
  · obtain rfl : k = 4 := by omega
    rw [if_neg hmore, if_pos (by omega)]

/-- Both readers of the header know the length again. -/
theorem varintParse32_varintEncode32 {n : Nat} (hn : n < 2 ^ 32)
    (ip : Bytes) :
    varintParse32 0 0 (varintEncode32 n ++ ip) = some (n, ip) := by
  have hzero : varintParse32 0 0
      = varintParse32 (7 * 0) (n % 2 ^ (7 * 0)) := by
    rw [Nat.mul_zero, Nat.pow_zero, Nat.mod_one]
  have h0 : UInt8.ofNat (n ||| 128) = varintByte n 0 := ofNat_or_128 n 0
  have h1 : UInt8.ofNat (n >>> 7 ||| 128) = varintByte n 1 :=
    ofNat_or_128 n 1
  have h2 : UInt8.ofNat (n >>> 14 ||| 128) = varintByte n 2 :=
    ofNat_or_128 n 2
  have h3 : UInt8.ofNat (n >>> 21 ||| 128) = varintByte n 3 :=
    ofNat_or_128 n 3
  rw [hzero, varintEncode32]
  simp only [h0, h1, h2, h3]
  split
  · exact varintParse32_last (k := 0) (by omega) hn (by omega) ip
  split
  · exact (varintParse32_varintByte (by omega) _).trans
      (varintParse32_last (k := 1) (by omega) hn (by omega) ip)
  split
  · exact ((varintParse32_varintByte (by omega) _).trans
      (varintParse32_varintByte (by omega) _)).trans
      (varintParse32_last (k := 2) (by omega) hn (by omega) ip)
  split
  · exact (((varintParse32_varintByte (by omega) _).trans
      (varintParse32_varintByte (by omega) _)).trans
      (varintParse32_varintByte (by omega) _)).trans
      (varintParse32_last (k := 3) (by omega) hn (by omega) ip)
  · exact ((((varintParse32_varintByte (by omega) _).trans
      (varintParse32_varintByte (by omega) _)).trans
      (varintParse32_varintByte (by omega) _)).trans
      (varintParse32_varintByte (by omega) _)).trans
      (varintParse32_last (k := 4) (by omega) hn (by omega) ip)

theorem readUncompressedLength_varintEncode32 {n : Nat} (hn : n < 2 ^ 32)
    (ip : Bytes) :
    readUncompressedLength 0 0 (varintEncode32 n ++ ip) = some (n, ip) :=
  varintParse32_some (by omega) (by omega)
    (varintParse32_varintEncode32 hn ip)

theorem varintEncode32_length (n : Nat) : (varintEncode32 n).length ≤ 5 := by
  rw [varintEncode32]
  repeat' split
  all_goals simp

-- ================================================================ the sink

/-- Between the two, `data` have been appended, and counted. -/
structure Appended (s : Sink) (data : Bytes) (s' : Sink) : Prop where
  wrote : Wrote ⟨s.obj, s.curoff⟩ data ⟨s'.obj, s'.curoff⟩
  written : s'.written = s.written + data.length

theorem Appended.trans {s s₁ s₂ : Sink} {data₁ data₂ : Bytes}
    (h₁ : Appended s data₁ s₁) (h₂ : Appended s₁ data₂ s₂) :
    Appended s (data₁ ++ data₂) s₂ where
  wrote := h₁.wrote.append h₂.wrote
  written := by
    rw [h₂.written, h₁.written, List.length_append, Nat.add_assoc]

/-- A sink has counted what it has been given, and can take `n` more,
in its memory and in its iovec. -/
structure Sink.Takes (s : Sink) (n : Nat) : Prop where
  counted : s.written = s.curoff
  room : s.curoff + n ≤ s.obj.length
  iov : s.curoff + n + 32 ≤ iovLen

theorem Sink.Takes.less {s : Sink} {m n : Nat} (h : s.Takes n)
    (hle : m ≤ n) : s.Takes m :=
  ⟨h.counted, Nat.le_trans (by omega) h.room,
    Nat.le_trans (by omega) h.iov⟩

theorem Appended.takes {s s' : Sink} {data : Bytes} {m n : Nat}
    (h : Appended s data s') (hs : s.Takes n) (hm : data.length + m ≤ n) :
    s'.Takes m := by
  have hop : s'.curoff = s.curoff + data.length := h.wrote.op
  have hlen : s'.obj.length = s.obj.length := h.wrote.length
  have hroom := hs.room
  have hiov := hs.iov
  refine ⟨?_, by omega, by omega⟩
  rw [h.written, hs.counted, hop]

theorem Sink.append_some {s : Sink} {data : Bytes}
    (hs : s.Takes data.length) :
    ∃ s', s.append (some data) data.length = .ok s'
      ∧ Appended s data s' := by
  have hiov := hs.iov
  have hcounted := hs.counted
  rw [iovLen] at hiov
  have hmin : min (iovLen - s.curoff) data.length = data.length := by
    rw [iovLen]
    omega
  refine ⟨⟨overwrite s.obj s.curoff data, s.curoff + data.length,
    s.written + data.length⟩, ?_, .stored hs.room, rfl⟩
  simp only [Sink.append, hmin, List.take_length]
  rw [bind_ok (store_ok hs.room), if_neg (Nat.lt_irrefl _),
    Nat.mod_eq_of_lt (by omega), Nat.mod_eq_of_lt (by omega)]
  rfl

/-- What has been written in place is only counted. -/
theorem Sink.append_none {s : Sink} {data : Bytes} {d : Dest Byte}
    (hs : s.Takes data.length) (hw : Wrote ⟨s.obj, s.curoff⟩ data d) :
    ∃ s', Sink.append { s with obj := d.obj } none (d.op - s.curoff)
        = .ok s' ∧ Appended s data s' := by
  have hop : d.op = s.curoff + data.length := hw.op
  have hiov := hs.iov
  have hcounted := hs.counted
  rw [iovLen] at hiov
  have hmin : min (iovLen - s.curoff) data.length = data.length := by
    rw [iovLen]
    omega
  refine ⟨⟨d.obj, s.curoff + data.length, s.written + data.length⟩, ?_, ?_,
    rfl⟩
  · rw [hop, Nat.add_sub_cancel_left]
    simp only [Sink.append, hmin]
    rw [bind_ok (show (pure d.obj : Except Stop Bytes) = .ok d.obj from rfl),
      if_neg (Nat.lt_irrefl _), Nat.mod_eq_of_lt (by omega),
      Nat.mod_eq_of_lt (by omega)]
    rfl
  · rw [← hop]
    exact hw

-- ============================================================== the blocks

/-- Several iovecs are put together in the scratch memory. -/
theorem gather_spec {numToRead fuel bytesRead : Nat} {reader : Source}
    {scratch rest : Bytes} (hfuel : numToRead - bytesRead < fuel)
    (hle : bytesRead ≤ numToRead) (hreader : reader.Holds rest)
    (henough : numToRead ≤ bytesRead + rest.length)
    (hscratch : numToRead ≤ scratch.length) :
    ∃ reader' scratch', gather numToRead fuel reader scratch bytesRead
        = .ok (reader', scratch')
      ∧ reader'.iov = reader.iov
      ∧ reader'.Holds (rest.drop (numToRead - bytesRead))
      ∧ Wrote ⟨scratch, bytesRead⟩ (rest.take (numToRead - bytesRead))
        ⟨scratch', numToRead⟩ := by
  induction fuel generalizing reader scratch bytesRead rest with
  | zero => omega
  | succ fuel ih =>
      rw [gather]
      split
      next hlt =>
        have hne : rest ≠ [] := by
          intro hnil
          rw [hnil, List.length_nil] at henough
          omega
        obtain ⟨n, reader₁, hn, hpos, hle, hpeek, hlen, hskip, hiov₁,
          hholds₁⟩ := hreader.feed hne
            (show 0 < numToRead - bytesRead by omega)
        have hroom : bytesRead + (rest.take n).length ≤ scratch.length := by
          omega
        have hw : Wrote ⟨scratch, bytesRead⟩ (rest.take n)
            ⟨overwrite scratch bytesRead (rest.take n), bytesRead + n⟩ := by
          have := Wrote.stored (d := ⟨scratch, bytesRead⟩) hroom
          rwa [hlen] at this
        obtain ⟨reader', scratch', hgather, hiov, hholds, hw'⟩ :=
          ih (show numToRead - (bytesRead + n) < fuel by omega) (by omega)
            hholds₁ (by rw [List.length_drop]; omega)
            (by rw [length_overwrite hroom]; exact hscratch)
        have hsum : numToRead - bytesRead
            = n + (numToRead - (bytesRead + n)) := by omega
        refine ⟨reader', scratch', ?_, hiov.trans hiov₁, ?_, ?_⟩
        · simp only [hn, hpeek]
          rw [bind_ok (store_ok hroom), bind_ok hskip]
          exact hgather
        · rw [hsum, ← List.drop_drop]
          exact hholds
        · rw [hsum, List.take_add]
          exact hw.append hw'
      next =>
        obtain rfl : bytesRead = numToRead := by omega
        rw [Nat.sub_self]
        exact ⟨reader, scratch, rfl, rfl, hreader, .nothing hscratch⟩

/-- A block is the next `numToRead` bytes, wherever they are. -/
theorem nextBlock_spec {reader : Source} {scratch rest : Bytes}
    {numToRead : Nat} (hreader : reader.Holds rest)
    (hpos : 0 < numToRead) (henough : numToRead ≤ rest.length)
    (hscratch : numToRead ≤ scratch.length ∨ reader.iov.length ≤ 1) :
    ∃ reader₁ advance scratch', nextBlock reader scratch numToRead
        = .ok (reader₁, advance, scratch', rest.take numToRead)
      ∧ scratch'.length = scratch.length
      ∧ ∃ reader', reader₁.skip advance = .ok reader'
        ∧ reader'.iov = reader.iov ∧ reader'.Holds (rest.drop numToRead) := by
  obtain ⟨tail, hrest, hend, hone⟩ := hreader.peek
  rw [nextBlock]
  split
  next hall =>
    refine ⟨reader, numToRead, scratch, ?_, rfl, hreader.skip hall⟩
    rw [hrest, List.take_append_of_le_length hall]
    rfl
  next hpart =>
    have hroom : numToRead ≤ scratch.length := by
      rcases hscratch with h | h
      · exact h
      · rw [hrest, hone h, List.append_nil] at henough
        omega
    have hpeek : 0 < reader.peek.length := by
      rw [List.length_pos_iff]
      intro hnil
      rw [hend hnil, List.length_nil] at henough
      omega
    have hin : 0 + reader.peek.length ≤ scratch.length := by omega
    obtain ⟨reader₁, hskip, hiov₁, hholds₁⟩ :=
      hreader.skip (Nat.le_refl reader.peek.length)
    have hw := Wrote.stored (d := ⟨scratch, 0⟩) hin
    rw [Nat.zero_add] at hw
    obtain ⟨reader₂, scratch', hgather, hiov₂, hholds₂, hw₂⟩ :=
      gather_spec (show numToRead - reader.peek.length < numToRead by omega)
        (by omega) hholds₁ (by rw [List.length_drop]; omega)
        (show numToRead ≤ (overwrite scratch 0 reader.peek).length by
          rw [length_overwrite hin]; exact hroom)
    have hcells : scratch'.take numToRead = rest.take numToRead := by
      have hall := (hw.append hw₂).cells
      have hsplit := List.take_add (l := rest) (i := reader.peek.length)
        (j := numToRead - reader.peek.length)
      rw [Nat.add_sub_cancel' (by omega)] at hsplit
      have hfirst : rest.take reader.peek.length = reader.peek := by
        rw [hrest, List.take_left]
      rw [hfirst] at hsplit
      rw [hsplit]
      exact hall
    rw [List.drop_drop, Nat.add_sub_cancel' (by omega)] at hholds₂
    obtain ⟨reader', hskip', hiov', hholds'⟩ :=
      hholds₂.skip (Nat.zero_le _)
    refine ⟨reader₂, 0, scratch', ?_, ?_, reader', hskip', ?_, hholds'⟩
    · rw [bind_ok (store_ok hin), bind_ok hskip, bind_ok hgather, ← hcells]
      rfl
    · have hlen : scratch'.length
          = (overwrite scratch 0 reader.peek).length := hw₂.length
      rw [hlen, length_overwrite hin]
    · rw [hiov', hiov₂, hiov₁]

/-- The items of a block, and that they are appended to any sink. -/
theorem appendBlock_spec {fragment : Bytes}
    (hmax : fragment.length ≤ kblockSize) :
    ∃ items, (∀ item ∈ items, Encodable item)
      ∧ (∀ pre, Parse items pre (pre ++ fragment))
      ∧ (encode items).length ≤ fragmentRoom fragment.length
      ∧ ∀ env writer n, writer.Takes n →
          fragmentRoom fragment.length ≤ n →
          fragment.length + fragment.length / 6 ≤ n →
          ∃ writer', appendBlock env writer fragment = .ok writer'
            ∧ Appended writer (encode items) writer' := by
  obtain ⟨items, hcovers, hlen⟩ :=
    compressFragment_covers hmax fragment.length
  refine ⟨items, hcovers.encodable, fun pre => ?_, hlen, ?_⟩
  · have := hcovers.parse pre
    rwa [List.take_zero, List.append_nil, List.take_length] at this
  · intro env writer n htakes hroom hpeek
    have hobj := htakes.room
    have hiov := htakes.iov
    obtain ⟨dest, hdest, hw⟩ := hcovers.writes ⟨writer.obj, writer.curoff⟩
      (show writer.curoff + _ ≤ writer.obj.length by omega)
    rw [appendBlock]
    simp only []
    rw [if_pos (by rw [snappyMaxCompressedLength]; omega), bind_ok hdest]
    exact Sink.append_none (htakes.less (by omega)) hw

/-- The room the blocks of `n` bytes take. -/
def loopRoom (n : Nat) : Nat := if n = 0 then 0 else n + n / 6 + 1

theorem compressLoop_writes {fuel : Nat} {rest : Bytes}
    (hfuel : rest.length < fuel) :
    ∃ items, (∀ item ∈ items, Encodable item)
      ∧ (∀ pre, Parse items pre (pre ++ rest))
      ∧ (encode items).length ≤ loopRoom rest.length
      ∧ ∀ env reader writer, reader.Holds rest →
          (kblockSize ≤ env.scratch.length ∨ reader.iov.length ≤ 1) →
          writer.Takes (loopRoom rest.length) →
          ∃ writer', compressLoop fuel env reader rest.length writer
              = .ok (0, writer')
            ∧ Appended writer (encode items) writer' := by
  induction fuel generalizing rest with
  | zero => omega
  | succ fuel ih =>
      by_cases hpos : 0 < rest.length
      · generalize hnum : min rest.length kblockSize = numToRead
        rw [kblockSize] at hnum
        have hlen : (rest.take numToRead).length = numToRead := by
          rw [List.length_take]
          omega
        obtain ⟨items₁, henc₁, hparse₁, hlen₁, happend⟩ :=
          appendBlock_spec (show (rest.take numToRead).length ≤ kblockSize by
            rw [kblockSize]; omega)
        rw [hlen, fragmentRoom] at hlen₁
        have hdrop : (rest.drop numToRead).length
            = rest.length - numToRead := List.length_drop
        obtain ⟨items₂, henc₂, hparse₂, hlen₂, hloop⟩ :=
          @ih (rest.drop numToRead) (by omega)
        have hroom : (encode items₁).length
            + loopRoom (rest.drop numToRead).length
            ≤ loopRoom rest.length := by
          rw [hdrop, loopRoom, loopRoom, if_neg (show rest.length ≠ 0 by omega)]
          split
          · omega
          · omega
        refine ⟨items₁ ++ items₂, List.forall_mem_append.mpr ⟨henc₁, henc₂⟩,
          fun pre => ?_, ?_, ?_⟩
        · have hrest := hparse₂ (pre ++ rest.take numToRead)
          rw [List.append_assoc, List.take_append_drop] at hrest
          exact (hparse₁ pre).append hrest
        · rw [encode_append, List.length_append]
          omega
        · intro env reader writer hreader hscratch htakes
          have hn : fragmentRoom numToRead ≤ loopRoom rest.length
              ∧ numToRead + numToRead / 6 ≤ loopRoom rest.length := by
            rw [fragmentRoom, loopRoom, if_neg (by omega)]
            omega
          have hgather : numToRead ≤ env.scratch.length
              ∨ reader.iov.length ≤ 1 := by
            rw [kblockSize] at hscratch
            omega
          obtain ⟨reader₁, advance, scratch', hblock, hsame, reader', hskip,
            hiov, hholds⟩ := nextBlock_spec hreader
              (show 0 < numToRead by omega) (by omega) hgather
          obtain ⟨writer₁, hwriter₁, happended₁⟩ := happend env writer _
            htakes (by rw [hlen]; exact hn.1) (by rw [hlen]; exact hn.2)
          obtain ⟨writer', hwriter', happended₂⟩ :=
            hloop { env with scratch := scratch' } reader' writer₁ hholds
              (by rw [hsame, hiov]; exact hscratch)
              (happended₁.takes htakes hroom)
          refine ⟨writer', ?_, ?_⟩
          · obtain ⟨tail, hrest, hend, -⟩ := hreader.peek
            have hpeek : reader.peek ≠ [] := by
              intro hnil
              rw [hend hnil, List.length_nil] at hpos
              omega
            rw [compressLoop, if_pos (by omega), if_neg hpeek]
            simp only [Int.toNat_natCast, kblockSize, hnum]
            rw [bind_ok hblock]
            simp only []
            rw [bind_ok hwriter₁, bind_ok hskip, ← hwriter', hdrop,
              Nat.cast_sub (by omega)]
          · rw [encode_append]
            exact happended₁.trans happended₂
      · obtain rfl : rest = [] :=
          List.eq_nil_of_length_eq_zero (by omega)
        refine ⟨[], by simp, fun pre => ?_, Nat.zero_le _, ?_⟩
        · rw [List.append_nil]
          exact .nil pre
        · intro env reader writer _ _ htakes
          exact ⟨writer, rfl, .nothing htakes.room, rfl⟩

-- ============================================================== the stream

theorem decode_stream {n : Nat} {items : List (Item Byte)} {out : Bytes}
    (hn : n < 2 ^ 32) (henc : ∀ item ∈ items, Encodable item)
    (hparse : Parse items [] out) (hlimit : out.length ≤ n) :
    snappyUncompress (varintEncode32 n ++ encode items)
      = if out.length = n then some out else none := by
  have hdecode := decodeTags_parse henc hparse hlimit []
  rw [List.append_nil, decodeTags_nil, decodeTags] at hdecode
  rw [snappyUncompress, readUncompressedLength_varintEncode32 hn,
    Option.bind_some, hdecode, Option.bind_some]

/-- The header is written first. -/
theorem compress_header {env : Env} {reader : Source} {total m : Nat}
    {writer : Sink} (htotal : total < 2 ^ 32) (hw : writer.Takes (5 + m)) :
    ∃ writer₁, compress env reader total writer
        = compressLoop (total + 1) env reader (intOfBits total) writer₁
      ∧ Appended writer (varintEncode32 total) writer₁
      ∧ writer₁.Takes m := by
  have hlen := varintEncode32_length total
  have htakes : writer.Takes (varintEncode32 total).length :=
    hw.less (by omega)
  obtain ⟨writer₁, hwriter₁, happended⟩ := Sink.append_some htakes
  have hin : 0 + (varintEncode32 total).length
      ≤ (List.replicate 5 (0 : Byte)).length := by
    rw [List.length_replicate]
    omega
  have hcells := take_overwrite hin
  rw [Nat.zero_add, List.take_zero, List.nil_append] at hcells
  refine ⟨writer₁, ?_, happended, happended.takes hw (by omega)⟩
  simp only [compress, Nat.mod_eq_of_lt htotal]
  rw [bind_ok (store_ok hin), hcells, bind_ok hwriter₁]

/-- Given any buffer of at least `room` bytes, the code reports success
and leaves `z` in it. -/
def Leaves (code : Bytes → Except Stop (Int × Nat × Bytes)) (room : Nat)
    (z : Bytes) : Prop :=
  ∀ compressed : Bytes, room ≤ compressed.length →
    ∃ out, code compressed = .ok (0, z.length, out)
      ∧ out.length = compressed.length ∧ out.take z.length = z

/-- The code leaves what it has appended to an empty sink. -/
theorem Appended.leaves {compressed z : Bytes} {s : Sink}
    (h : Appended ⟨compressed, 0, 0⟩ z s) :
    s.written = z.length ∧ s.obj.length = compressed.length
      ∧ s.obj.take z.length = z := by
  have hop : s.curoff = 0 + z.length := h.wrote.op
  have hcells : s.obj.take s.curoff = compressed.take 0 ++ z :=
    h.wrote.cells
  have hwritten : s.written = 0 + z.length := h.written
  rw [Nat.zero_add] at hop hwritten
  rw [hop, List.take_zero, List.nil_append] at hcells
  exact ⟨hwritten, h.wrote.length, hcells⟩

/-- One stream for the data, however they are cut. -/
theorem snappyCompressIov_leaves {v : Bytes} (hlen : v.length < 2 ^ 31) :
    ∃ z, snappyUncompress z = some v
      ∧ snappyUncompressedLength z = some v.length
      ∧ z.length < snappyMaxCompressedLength v.length
      ∧ ∀ env iov, Source.Holds ⟨iov, 0, 0⟩ v →
          (kblockSize ≤ env.scratch.length ∨ iov.length ≤ 1) →
          Leaves (snappyCompressIov env iov v.length)
            (snappyMaxCompressedLength v.length) z := by
  obtain ⟨items, henc, hparse, hroom, hloop⟩ :=
    compressLoop_writes (Nat.lt_succ_self v.length)
  have hheader := varintEncode32_length v.length
  have hbound : 5 + loopRoom v.length + 26
      ≤ snappyMaxCompressedLength v.length := by
    rw [loopRoom, snappyMaxCompressedLength]
    split
    · omega
    · omega
  refine ⟨varintEncode32 v.length ++ encode items, ?_, ?_, ?_, ?_⟩
  · have hdecode := decode_stream (show v.length < 2 ^ 32 by omega) henc
      (hparse []) (Nat.le_refl v.length)
    rwa [List.nil_append, if_pos rfl] at hdecode
  · rw [snappyUncompressedLength, varintParse32_varintEncode32 (by omega)]
    rfl
  · rw [List.length_append]
    omega
  · intro env iov hholds hscratch compressed hcompressed
    have hsink : Sink.Takes ⟨compressed, 0, 0⟩ (5 + loopRoom v.length) := by
      rw [snappyMaxCompressedLength] at hbound hcompressed
      refine ⟨rfl, ?_, ?_⟩
      · show 0 + (5 + loopRoom v.length) ≤ compressed.length
        omega
      · show 0 + (5 + loopRoom v.length) + 32 ≤ 0xffffffff
        omega
    obtain ⟨writer₁, hcompress, happended₁, htakes₁⟩ :=
      compress_header (show v.length < 2 ^ 32 by omega) hsink
    obtain ⟨writer', hwriter', happended₂⟩ :=
      hloop env ⟨iov, 0, 0⟩ writer₁ hholds hscratch htakes₁
    have hN : intOfBits v.length = v.length := by
      rw [intOfBits, Nat.mod_eq_of_lt (by omega), if_pos hlen]
    obtain ⟨hwritten, hobj, hcells⟩ := (happended₁.trans happended₂).leaves
    refine ⟨writer'.obj, ?_, hobj, hcells⟩
    rw [snappyCompressIov, hcompress, hN, bind_ok hwriter', ← hwritten]
    rfl

/-- For data of less than 2^31 bytes, `snappy_compress` succeeds in any
buffer of `snappy_max_compressed_length` bytes, loads and stores nothing
outside its objects, leaves one stream that the data alone determine,
and that stream decodes to them. It never fills the buffer. -/
theorem snappyCompress_decodes {v : Bytes} (hlen : v.length < 2 ^ 31) :
    ∃ z, snappyUncompress z = some v
      ∧ z.length < snappyMaxCompressedLength v.length
      ∧ Leaves (snappyCompress v) (snappyMaxCompressedLength v.length) z := by
  obtain ⟨z, hdecodes, -, hlt, hleaves⟩ := snappyCompressIov_leaves hlen
  exact ⟨z, hdecodes, hlt,
    hleaves _ _ (Source.holds_single hlen) (.inr (Nat.le_refl 1))⟩

theorem snappyCompress_decodes_twenty :
    ∃ z, snappyUncompress z = some (List.replicate 20 7)
      ∧ z.length < snappyMaxCompressedLength 20
      ∧ Leaves (snappyCompress (List.replicate 20 7)) 55 z :=
  snappyCompress_decodes (by decide)

/-- From 2^31 bytes on `snappy_compress` reports success as well, but all
it leaves is the header, and that does not decode. -/
theorem snappyCompress_loses {v : Bytes} (hlen : 2 ^ 31 ≤ v.length)
    (hlt : v.length < 2 ^ 32) :
    Leaves (snappyCompress v) (snappyMaxCompressedLength v.length)
        (varintEncode32 v.length)
      ∧ snappyUncompress (varintEncode32 v.length) = none := by
  refine ⟨fun compressed hcompressed => ?_, ?_⟩
  · have hsink : Sink.Takes ⟨compressed, 0, 0⟩ (5 + 0) := by
      rw [snappyMaxCompressedLength] at hcompressed
      refine ⟨rfl, ?_, ?_⟩
      · show 0 + (5 + 0) ≤ compressed.length
        omega
      · show 0 + (5 + 0) + 32 ≤ 0xffffffff
        omega
    obtain ⟨writer₁, hcompress, happended, -⟩ :=
      compress_header hlt hsink
    have hN : ¬ 0 < intOfBits v.length := by
      rw [intOfBits, Nat.mod_eq_of_lt hlt, if_neg (by omega)]
      omega
    obtain ⟨hwritten, hobj, hcells⟩ := happended.leaves
    refine ⟨writer₁.obj, ?_, hobj, hcells⟩
    rw [snappyCompress, snappyCompressIov, hcompress, compressLoop,
      if_neg hN, ← hwritten]
    rfl
  · have := decode_stream hlt (by simp) (.nil []) (Nat.zero_le v.length)
    rw [encode_nil, List.append_nil, if_neg (by simp; omega)] at this
    exact this

theorem snappyCompress_loses_zeros :
    Leaves (snappyCompress (List.replicate (2 ^ 31) 0))
        (snappyMaxCompressedLength (List.replicate (2 ^ 31) (0 : Byte)).length)
        (varintEncode32 (List.replicate (2 ^ 31) (0 : Byte)).length)
      ∧ snappyUncompress
        (varintEncode32 (List.replicate (2 ^ 31) (0 : Byte)).length)
        = none :=
  snappyCompress_loses (Nat.le_of_eq List.length_replicate.symm)
    (by rw [List.length_replicate]; omega)

end FineDB.Snappy

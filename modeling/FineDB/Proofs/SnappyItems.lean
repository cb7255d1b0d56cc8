/-
The snappy format: how items are written and how they are read.

Between the compressor and the decoder stands a list of items
(Lib/Lz.lean). `itemBytes` is what the three emitting functions write
for one, `decodeTags_item` that the decoder, given those bytes, makes of
its output what the item says. So a stream is decoded to the data if its
items lead to them (`decodeTags_parse`), and the compressor's algorithm
can be looked at without the format.

A long match is written as several copies; `emitCopy_writes` says which,
and that they take fewer bytes than the match has, which pays for the
literal before it.
-/
import FineDB.Lib.Lz
import FineDB.Model.SnappyCompress

namespace FineDB.Snappy

open Object Lz

-- =========================================================== the encoding

/-- The bytes of a literal's length. -/
def lengthBytes : Nat → Nat → Bytes
  | 0, _ => []
  | fuel + 1, n =>
      if 0 < n then UInt8.ofNat (n % 256) :: lengthBytes fuel (n / 256)
      else []

/-- The bytes before the data of a literal. -/
def literalHead (len : Nat) : Bytes :=
  if len ≤ 60 then [UInt8.ofNat ((len - 1) * 4)]
  else
    let bytes := lengthBytes (len - 1) (len - 1)
    UInt8.ofNat ((59 + bytes.length) * 4) :: bytes

def copyBytes (offset len : Nat) : Bytes :=
  if len < 12 ∧ offset < 2048 then
    [UInt8.ofNat (1 + (len - 4) * 4 + offset / 256 * 32),
      UInt8.ofNat (offset % 256)]
  else UInt8.ofNat (2 + (len - 1) * 4) :: leBytes 2 offset

def itemBytes : Item Byte → Bytes
  | .literal data => literalHead data.length ++ data
  | .copy offset len => copyBytes offset len

/-- What the compressor may emit. -/
def Encodable : Item Byte → Prop
  | .literal data => 0 < data.length ∧ data.length < 2 ^ 32
  | .copy offset len => offset < 65536 ∧ 4 ≤ len ∧ len ≤ 64

def encode (items : List (Item Byte)) : Bytes := items.flatMap itemBytes

@[simp] theorem encode_nil : encode [] = [] := rfl

@[simp] theorem encode_cons (item : Item Byte) (items : List (Item Byte)) :
    encode (item :: items) = itemBytes item ++ encode items := rfl

@[simp] theorem encode_append (items₁ items₂ : List (Item Byte)) :
    encode (items₁ ++ items₂) = encode items₁ ++ encode items₂ :=
  List.flatMap_append

theorem leNat_lengthBytes {fuel n : Nat} (h : n ≤ fuel) :
    leNat (lengthBytes fuel n) = n := by
  induction fuel generalizing n with
  | zero =>
      rw [lengthBytes, leNat]
      omega
  | succ fuel ih =>
      rw [lengthBytes]
      split
      · rw [leNat, ih (by omega), UInt8.toNat_ofNat']
        omega
      · rw [leNat]
        omega

theorem lengthBytes_length_le {fuel n k : Nat} (h : n < 256 ^ k) :
    (lengthBytes fuel n).length ≤ k := by
  induction fuel generalizing n k with
  | zero => exact Nat.zero_le k
  | succ fuel ih =>
      rw [lengthBytes]
      split
      next hpos =>
        cases k with
        | zero =>
            rw [Nat.pow_zero] at h
            omega
        | succ k =>
            rw [Nat.pow_succ] at h
            have := @ih (n / 256) k (by omega)
            rw [List.length_cons]
            omega
      next => exact Nat.zero_le k

theorem lengthBytes_length_pos {n : Nat} (h : 0 < n) :
    0 < (lengthBytes n n).length := by
  cases n with
  | zero => omega
  | succ n =>
      rw [lengthBytes, if_pos h, List.length_cons]
      omega

/-- The length bytes are few against the data. -/
theorem literalHead_length {len : Nat} (hpos : 0 < len) (h : len ≤ 65536) :
    1 ≤ (literalHead len).length
      ∧ 61 * (literalHead len).length ≤ 61 + len := by
  rw [literalHead]
  split
  · rw [List.length_singleton]
    omega
  · rw [List.length_cons]
    by_cases hlen : len ≤ 256
    · have := @lengthBytes_length_le (len - 1) (len - 1) 1 (by omega)
      omega
    · have := @lengthBytes_length_le (len - 1) (len - 1) 2 (by omega)
      omega

/-- A copy takes fewer bytes than it stands for. -/
theorem copyBytes_length (offset : Nat) {len : Nat} (h : 4 ≤ len) :
    (copyBytes offset len).length + 1 ≤ len := by
  rw [copyBytes]
  split
  · rw [List.length_cons, List.length_singleton]
    omega
  · rw [List.length_cons, leBytes_length]
    omega

-- ================================================================= decoding

/-- `decompress_all_tags` with all the fuel it needs. -/
def decodeTags (limit : Nat) (out ip : Bytes) : Option Bytes :=
  decompressAllTags limit ip.length out ip

@[simp] theorem decodeTags_nil (limit : Nat) (out : Bytes) :
    decodeTags limit out [] = some out := rfl

theorem decodeTags_cons (limit : Nat) (out : Bytes) (c : Byte) (ip : Bytes) :
    decodeTags limit out (c :: ip)
      = (decompressTag limit out c ip).bind fun x =>
          decodeTags limit x.1 x.2 := by
  show decompressAllTags limit (ip.length + 1) out (c :: ip) = _
  rw [decompressAllTags]
  cases hx : decompressTag limit out c ip with
  | none => rfl
  | some x =>
      exact decompressAllTags_fuel (decompressTag_length hx) (Nat.le_refl _)

/-- `incremental_copy` is a copy. -/
theorem incrementalCopy_copies {offset : Nat} {out : Bytes}
    (hpos : 0 < offset) (hreach : offset ≤ out.length) (n : Nat) :
    Copies offset n out (incrementalCopy offset n out) := by
  induction n generalizing out with
  | zero =>
      exact ⟨hpos, hreach, rfl, fun _ _ => rfl, fun _ _ _ => by omega⟩
  | succ n ih =>
      have hone : Copies offset 1 out
          (out ++ [out.getD (out.length - offset) 0]) := by
        refine ⟨hpos, hreach, ?_, ?_, ?_⟩
        · rw [List.length_append, List.length_singleton]
        · intro k hk
          rw [List.getElem?_append_left hk]
        · intro k hle hlt
          obtain rfl : k = out.length := by omega
          rw [List.getElem?_append_right hle, Nat.sub_self,
            List.getElem?_append_left (by omega), List.getElem?_cons_zero,
            List.getD_eq_getElem?_getD,
            List.getElem?_eq_getElem (by omega), Option.getD_some]
      rw [incrementalCopy, Nat.add_comm]
      refine hone.append (ih ?_)
      rw [List.length_append]
      omega

theorem writerAppendFromSelf_of_copies {limit offset len : Nat}
    {out out' : Bytes} (h : Copies offset len out out')
    (hlimit : out'.length ≤ limit) :
    writerAppendFromSelf limit out offset len = some out' := by
  have hlen := h.length
  have hpos := h.pos
  have hreach := h.reach
  rw [writerAppendFromSelf, if_neg (by omega), if_neg (by omega),
    (incrementalCopy_copies hpos hreach len).unique h]

theorem decompressTag_literalHead {limit len : Nat} {out data rest : Bytes}
    (hlen : data.length = len) (hpos : 0 < len) (hlt : len < 2 ^ 32)
    (hlimit : out.length + len ≤ limit) :
    decodeTags limit out (literalHead len ++ (data ++ rest))
      = decodeTags limit (out ++ data) rest := by
  -- whatever the head, the data are appended
  have happend : writerAppend limit out ((data ++ rest).take len)
      = some (out ++ data) := by
    rw [← hlen, List.take_left, writerAppend, if_neg (by omega)]
  have hroom : ¬ (data ++ rest).length < len := by
    rw [List.length_append]
    omega
  rw [literalHead]
  split
  next hshort =>
    have hc : (UInt8.ofNat ((len - 1) * 4)).toNat = (len - 1) * 4 := by
      rw [UInt8.toNat_ofNat']
      omega
    have hextra : tagExtra (UInt8.ofNat ((len - 1) * 4)) = 0 := by
      rw [tagExtra, hc, Nat.mul_mod_left]
      show (len - 1) * 4 / 4 - 59 = 0
      omega
    have hll : literalLength (UInt8.ofNat ((len - 1) * 4)) 0 = len := by
      rw [literalLength, if_pos hextra, hc]
      omega
    rw [List.singleton_append, decodeTags_cons]
    simp only [decompressTag, hextra, hc, Nat.mul_mod_left, List.take_zero,
      List.drop_zero, leNat, hll]
    rw [if_neg (by omega), if_neg hroom, happend, ← hlen, List.drop_left]
    rfl
  next hlong =>
    have hk := lengthBytes_length_pos (show 0 < len - 1 by omega)
    have hk4 := @lengthBytes_length_le (len - 1) (len - 1) 4 (by omega)
    have hval := leNat_lengthBytes (Nat.le_refl (len - 1))
    generalize hbytes : lengthBytes (len - 1) (len - 1) = bytes
      at hk hk4 hval
    have hc : (UInt8.ofNat ((59 + bytes.length) * 4)).toNat
        = (59 + bytes.length) * 4 := by
      rw [UInt8.toNat_ofNat']
      omega
    have hextra : tagExtra (UInt8.ofNat ((59 + bytes.length) * 4))
        = bytes.length := by
      rw [tagExtra, hc, Nat.mul_mod_left]
      show (59 + bytes.length) * 4 / 4 - 59 = _
      omega
    have hll : literalLength (UInt8.ofNat ((59 + bytes.length) * 4))
        (len - 1) = len := by
      rw [literalLength, if_neg (by omega)]
      omega
    rw [List.cons_append, decodeTags_cons]
    simp only [decompressTag, hextra, hc, Nat.mul_mod_left, List.take_left,
      List.drop_left, hval, hll]
    rw [if_neg (by rw [List.length_append]; omega), if_neg hroom, happend,
      ← hlen, List.drop_left]
    rfl

theorem decodeTags_copyBytes {limit offset len : Nat} {out out' : Bytes}
    (hoffset : offset < 65536) (h4 : 4 ≤ len) (h64 : len ≤ 64)
    (h : Copies offset len out out') (hlimit : out'.length ≤ limit)
    (rest : Bytes) :
    decodeTags limit out (copyBytes offset len ++ rest)
      = decodeTags limit out' rest := by
  rw [copyBytes]
  split
  next hshort =>
    generalize hcdef : 1 + (len - 4) * 4 + offset / 256 * 32 = c
    have hc : (UInt8.ofNat c).toNat = c := by
      rw [UInt8.toNat_ofNat']
      omega
    have hmod : c % 4 = 1 := by omega
    have hextra : tagExtra (UInt8.ofNat c) = 1 := by
      rw [tagExtra, hc, hmod]
      rfl
    have hval : leNat [UInt8.ofNat (offset % 256)] = offset % 256 := by
      rw [leNat, leNat, UInt8.toNat_ofNat']
      omega
    rw [List.cons_append, decodeTags_cons]
    simp only [decompressTag, hextra, hc, hmod, List.cons_append,
      List.nil_append, List.take_succ_cons, List.take_zero,
      List.drop_succ_cons, List.drop_zero, hval]
    rw [if_neg (by rw [List.length_cons]; omega),
      show c / 32 * 256 + offset % 256 = offset by omega,
      show c / 4 % 8 + 4 = len by omega,
      writerAppendFromSelf_of_copies h hlimit]
    rfl
  next =>
    generalize hcdef : 2 + (len - 1) * 4 = c
    have hc : (UInt8.ofNat c).toNat = c := by
      rw [UInt8.toNat_ofNat']
      omega
    have hmod : c % 4 = 2 := by omega
    have hextra : tagExtra (UInt8.ofNat c) = 2 := by
      rw [tagExtra, hc, hmod]
      rfl
    have hval : leNat (leBytes 2 offset) = offset := leNat_leBytes hoffset
    have htake : (leBytes 2 offset ++ rest).take 2 = leBytes 2 offset :=
      List.take_left' (leBytes_length 2 offset)
    have hdrop : (leBytes 2 offset ++ rest).drop 2 = rest :=
      List.drop_left' (leBytes_length 2 offset)
    rw [List.cons_append, decodeTags_cons]
    simp only [decompressTag, hextra, hc, hmod, htake, hdrop, hval]
    rw [if_neg (by rw [List.length_append, leBytes_length]; omega),
      show c / 4 + 1 = len by omega, writerAppendFromSelf_of_copies h hlimit]
    rfl

/-- The decoder follows one item. -/
theorem decodeTags_item {limit : Nat} {item : Item Byte} {out out' : Bytes}
    (henc : Encodable item) (h : item.Expands out out')
    (hlimit : out'.length ≤ limit) (rest : Bytes) :
    decodeTags limit out (itemBytes item ++ rest)
      = decodeTags limit out' rest := by
  cases item with
  | literal data =>
      obtain rfl : out' = out ++ data := h
      rw [List.length_append] at hlimit
      rw [itemBytes, List.append_assoc]
      exact decompressTag_literalHead rfl henc.1 henc.2 hlimit
  | copy offset len =>
      exact decodeTags_copyBytes henc.1 henc.2.1 henc.2.2 h hlimit rest

/-- The decoder follows the items. -/
theorem decodeTags_parse {limit : Nat} {items : List (Item Byte)}
    {out out' : Bytes} (henc : ∀ item ∈ items, Encodable item)
    (h : Parse items out out') (hlimit : out'.length ≤ limit)
    (rest : Bytes) :
    decodeTags limit out (encode items ++ rest)
      = decodeTags limit out' rest := by
  induction h with
  | nil => rfl
  | cons head tail ih =>
      rw [List.forall_mem_cons] at henc
      rw [encode_cons, List.append_assoc, decodeTags_item henc.1 head
        (Nat.le_trans tail.length_le hlimit), ih henc.2 hlimit]

-- ================================================================= emitting

theorem emitLength_writes {fuel n : Nat} (h : n ≤ fuel) (count : Nat) :
    Writes (emitLength (fuel + 1) n count) (lengthBytes fuel n).length
      (lengthBytes fuel n) (count + (lengthBytes fuel n).length) := by
  induction fuel generalizing n count with
  | zero =>
      rw [emitLength, if_neg (by omega)]
      exact .pure count
  | succ fuel ih =>
      rw [emitLength, lengthBytes]
      split
      · have hrest := ih (show n / 256 ≤ fuel by omega) (count + 1)
        rw [Nat.add_assoc, Nat.add_comm 1] at hrest
        exact Writes.bind (.put _) hrest
          (by simp only [List.length_cons, List.length_nil]; omega)
          (by simp only [List.length_cons, List.length_nil]; omega)
      · exact .pure count

theorem emitLongTag_writes (n : Nat) :
    Writes (emitLongTag n) ((lengthBytes n n).length + 1)
      (UInt8.ofNat ((59 + (lengthBytes n n).length) * 4) :: lengthBytes n n)
      () := by
  intro d hd
  obtain ⟨d₁, hcount, hw⟩ := emitLength_writes (Nat.le_refl n) 0
    ⟨d.obj, d.op + 1⟩ (show d.op + 1 + _ ≤ d.obj.length by omega)
  have hlen : d₁.obj.length = d.obj.length := hw.length
  refine ⟨_, ?_, hw.before⟩
  rw [emitLongTag, emit_bind (show here d = .ok (d.op, d) from rfl),
    emit_bind (show advance 1 d = .ok ((), ⟨d.obj, d.op + 1⟩) from rfl),
    emit_bind hcount, Nat.zero_add, Nat.shiftLeft_eq]
  exact storeAt_ok (by rw [List.length_singleton]; omega)

/-- Sixteen bytes are read and written for the first `len` of them. -/
theorem emitWords_writes {input : Bytes} {literal len : Nat}
    (hin : literal + 16 ≤ input.length) (hlen : len ≤ 16) :
    Writes (emitWords input literal len) 16
      ((input.drop literal).take len) () := by
  intro d hd
  have hfirst : ((input.drop literal).take 8).length = 8 := by
    rw [List.length_take, List.length_drop]
    omega
  have hsecond : ((input.drop (literal + 8)).take 8).length = 8 := by
    rw [List.length_take, List.length_drop]
    omega
  have hdata : ((input.drop literal).take len).length = len := by
    rw [List.length_take, List.length_drop]
    omega
  have hw₁ : Wrote d ((input.drop literal).take 8)
      ⟨overwrite d.obj d.op ((input.drop literal).take 8), d.op + 8⟩ := by
    have := Wrote.stored (d := d)
      (show d.op + ((input.drop literal).take 8).length ≤ d.obj.length by
        omega)
    rwa [hfirst] at this
  have hobj : (overwrite d.obj d.op ((input.drop literal).take 8)).length
      = d.obj.length := hw₁.length
  have hroom : d.op + 8 + ((input.drop (literal + 8)).take 8).length
      ≤ (overwrite d.obj d.op ((input.drop literal).take 8)).length := by
    omega
  have hw := hw₁.append (.stored hroom)
  -- the two words are the literal and what follows it
  rw [show (input.drop literal).take 8 ++ (input.drop (literal + 8)).take 8
      = (input.drop literal).take len
        ++ (input.drop (literal + len)).take (16 - len) by
    rw [← List.drop_drop, ← List.take_add, ← List.drop_drop,
      ← List.take_add, Nat.add_sub_cancel' hlen]] at hw
  have hshort := hw.shorten
  rw [hdata] at hshort
  refine ⟨_, ?_, hshort⟩
  rw [emitWords, emit_bind (show here d = .ok (d.op, d) from rfl),
    emit_lift (load_ok (show literal + 8 ≤ input.length by omega)),
    emit_bind (storeAt_ok (by omega)),
    emit_lift (load_ok (show literal + 8 + 8 ≤ input.length by omega)),
    emit_bind (storeAt_ok hroom)]
  rfl

/-- `emit_literal` writes the literal. -/
theorem emitLiteral_writes {input : Bytes} {literal len room : Nat}
    {fast : Bool} (hpos : 0 < len) (hin : literal + len ≤ input.length)
    (hroom : (literalHead len).length + len ≤ room)
    (hfastIn : fast = true → literal + 16 ≤ input.length)
    (hfastRoom : fast = true → 17 ≤ room) :
    Writes (emitLiteral input literal len fast) room
      (itemBytes (.literal ((input.drop literal).take len))) () := by
  have hdata : ((input.drop literal).take len).length = len := by
    rw [List.length_take, List.length_drop]
    omega
  have hput := Writes.put ((input.drop literal).take len)
  rw [hdata] at hput
  rw [itemBytes, hdata]
  simp only [emitLiteral, emit_lift (load_ok hin)]
  by_cases hshort : len ≤ 60
  · rw [if_pos (by omega), Nat.shiftLeft_eq]
    rw [literalHead, if_pos hshort] at hroom ⊢
    rw [List.length_singleton] at hroom
    refine Writes.bind (.put _) ?_ (by rw [List.length_singleton]; omega)
      (show 1 + (room - 1) ≤ room by omega)
    split
    next hfast =>
      have := hfastRoom hfast.1
      exact (emitWords_writes (hfastIn hfast.1) hfast.2).more (by omega)
    next => exact hput.more (by omega)
  · rw [if_neg (by omega)]
    rw [literalHead, if_neg hshort] at hroom ⊢
    simp only [List.length_cons] at hroom
    exact Writes.bind (emitLongTag_writes _) hput (by omega)
      (by rw [List.length_cons]; omega)

theorem emitCopyLessThan64_writes {offset len : Nat}
    (hoffset : offset < 65536) (h4 : 4 ≤ len) (h64 : len ≤ 64) :
    Writes (emitCopyLessThan64 offset len) (copyBytes offset len).length
      (copyBytes offset len) () := by
  rw [emitCopyLessThan64, copyBytes]
  split
  next hshort =>
    have hbits : ∀ a, a < 8 → ∀ b, b < 8 →
        1 ||| a <<< 2 ||| b <<< 5 = 1 + a * 4 + b * 32 := by decide
    rw [Nat.shiftRight_eq_div_pow, hbits _ (by omega) _ (by omega)]
    exact .put _
  next =>
    have hbits : ∀ a, a < 64 → 2 ||| a <<< 2 = 2 + a * 4 := by decide
    rw [hbits _ (by omega), 
      Nat.mod_eq_of_lt (show offset < 2 ^ 16 by omega)]
    refine Writes.bind (.put _) (.put _) ?_ ?_ <;>
      simp only [List.length_cons, List.length_nil, leBytes_length] <;>
      omega

/-- The copies of 64 bytes: what they leave of the match is between 4 and
67 bytes long. -/
theorem emitCopies64_writes {offset : Nat} (hoffset : offset < 65536)
    {fuel len : Nat} (hfuel : len < fuel) (h4 : 4 ≤ len) :
    ∃ items rest, Writes (emitCopies64 offset fuel len)
        (encode items).length (encode items) rest
      ∧ (∀ item ∈ items, Encodable item)
      ∧ 4 ≤ rest ∧ rest < 68 ∧ (encode items).length + rest ≤ len
      ∧ ∀ out out', Copies offset len out out' →
          ∃ mid, Parse items out mid ∧ Copies offset rest mid out' := by
  induction fuel generalizing len with
  | zero => omega
  | succ fuel ih =>
      rw [emitCopies64]
      split
      next hlong =>
        obtain ⟨items, rest, hw, henc, hge, hlt, hlen, hparse⟩ :=
          @ih (len - 64) (by omega) (by omega)
        have hone := emitCopyLessThan64_writes hoffset
          (show 4 ≤ 64 by omega) (Nat.le_refl 64)
        have hshort := copyBytes_length offset (show 4 ≤ 64 by omega)
        refine ⟨.copy offset 64 :: items, rest, ?_, ?_, hge, hlt, ?_, ?_⟩
        · rw [encode_cons, List.length_append]
          exact Writes.bind hone hw (Nat.le_add_right _ _) (Nat.le_refl _)
        · exact List.forall_mem_cons.mpr
            ⟨⟨hoffset, by omega, by omega⟩, henc⟩
        · rw [encode_cons, List.length_append, itemBytes]
          omega
        · intro out out' hcopies
          rw [show len = 64 + (len - 64) by omega] at hcopies
          obtain ⟨mid, htail, hrest⟩ := hparse _ _ hcopies.split.2
          exact ⟨mid, .cons hcopies.split.1 htail, hrest⟩
      next hshort =>
        exact ⟨[], len, .pure len, by simp, h4, by omega, by simp,
          fun out out' h => ⟨out, .nil out, h⟩⟩

/-- The one or two copies behind the loop. -/
theorem emitCopyRest_writes {offset rest : Nat} (hoffset : offset < 65536)
    (hge : 4 ≤ rest) (hlt : rest < 68) :
    ∃ items, Writes
        (if 64 < rest then do
          emitCopyLessThan64 offset 60
          emitCopyLessThan64 offset (rest - 60)
        else emitCopyLessThan64 offset rest)
        (encode items).length (encode items) ()
      ∧ (∀ item ∈ items, Encodable item)
      ∧ (encode items).length + 1 ≤ rest
      ∧ ∀ out out', Copies offset rest out out' → Parse items out out' := by
  split
  next hlong =>
    refine ⟨[.copy offset 60, .copy offset (rest - 60)], ?_, ?_, ?_, ?_⟩
    · simp only [encode_cons, encode_nil, List.append_nil,
        List.length_append]
      exact Writes.bind
        (emitCopyLessThan64_writes hoffset (by omega) (by omega))
        (emitCopyLessThan64_writes hoffset (by omega) (by omega))
        (Nat.le_add_right _ _) (Nat.le_refl _)
    · intro item hitem
      rw [List.mem_pair] at hitem
      rcases hitem with rfl | rfl
      · exact ⟨hoffset, by omega, by omega⟩
      · exact ⟨hoffset, by omega, by omega⟩
    · have h60 := copyBytes_length offset (show 4 ≤ 60 by omega)
      have hlast := copyBytes_length offset (show 4 ≤ rest - 60 by omega)
      simp only [encode_cons, encode_nil, List.append_nil,
        List.length_append, itemBytes]
      omega
    · intro out out' hcopies
      rw [show rest = 60 + (rest - 60) by omega] at hcopies
      exact .cons hcopies.split.1 (.one hcopies.split.2)
  next hshort =>
    refine ⟨[.copy offset rest], ?_, ?_, ?_, ?_⟩
    · rw [encode_cons, encode_nil, List.append_nil]
      exact emitCopyLessThan64_writes hoffset hge (by omega)
    · intro item hitem
      rw [List.mem_singleton] at hitem
      subst hitem
      exact ⟨hoffset, hge, by omega⟩
    · rw [encode_cons, encode_nil, List.append_nil]
      exact copyBytes_length offset hge
    · intro out out' hcopies
      exact .one hcopies

/-- `emit_copy` writes a match as copies, in fewer bytes than it has. -/
theorem emitCopy_writes {offset len : Nat} (hoffset : offset < 65536)
    (h4 : 4 ≤ len) :
    ∃ items, Writes (emitCopy offset len) (encode items).length
        (encode items) ()
      ∧ (∀ item ∈ items, Encodable item)
      ∧ (encode items).length + 1 ≤ len
      ∧ ∀ out out', Copies offset len out out' → Parse items out out' := by
  obtain ⟨items₁, rest, hw₁, henc₁, hge, hlt, hlen₁, hparse₁⟩ :=
    emitCopies64_writes hoffset (Nat.lt_succ_self len) h4
  obtain ⟨items₂, hw₂, henc₂, hlen₂, hparse₂⟩ :=
    emitCopyRest_writes hoffset hge hlt
  refine ⟨items₁ ++ items₂, ?_, ?_, ?_, ?_⟩
  · rw [encode_append, List.length_append]
    exact Writes.bind hw₁ hw₂ (Nat.le_add_right _ _) (Nat.le_refl _)
  · exact List.forall_mem_append.mpr ⟨henc₁, henc₂⟩
  · rw [encode_append, List.length_append]
    omega
  · intro out out' hcopies
    obtain ⟨mid, hfirst, hrest⟩ := hparse₁ _ _ hcopies
    exact hfirst.append (hparse₂ _ _ hrest)

end FineDB.Snappy

/-
The snappy decoder (lib/snappy-c/snappy.c), as the server uses it.

`command_get` asks two functions about a stored value: how long the
decoded data are (`snappy_uncompressed_length`) and what they are
(`snappy_uncompress`). Both begin with the same varint header and each
has its own reader for it:

- `varint_parse32_with_limit` refuses a fifth byte of 16 or more, whose
  bits would not fit in 32;
- `read_uncompressed_length` takes any fifth byte below 128 and lets
  the shift drop the bits that do not fit.

So a header exists that the second reader accepts and the first
refuses, and never the other way round (`varintParse32_some`). The
decoder proper is a loop over tags, each a literal or a copy from what
has been decoded already, checked against the announced length.

The compressor appears here only as `literalStream`, one literal for
the whole input: a stream any decoder of the format accepts.
-/
import FineDB.Model.Basic
import Mathlib.Data.Nat.Bitwise
import Mathlib.Tactic.Positivity

namespace FineDB

-- ========================================================== the header

/-- `result |= (b & 127) << shift`, in `u32`. -/
def varintOr (result : Nat) (b : Byte) (shift : Nat) : Nat :=
  result ||| ((b.toNat % 128) <<< shift) % 2 ^ 32

/-- `varint_parse32_with_limit`, its five unrolled stages as one
recursion: a stage at `shift < 28` ends on a byte below 128, the last
one only on a byte below 16. Returns the value and the bytes past it. -/
def varintParse32 (shift result : Nat) : Bytes → Option (Nat × Bytes)
  | [] => none
  | b :: ptr =>
      if shift < 28 then
        if b.toNat < 128 then some (varintOr result b shift, ptr)
        else varintParse32 (shift + 7) (varintOr result b shift) ptr
      else if b.toNat < 16 then some (varintOr result b shift, ptr)
      else none

/-- `snappy_uncompressed_length`; `none` is its `false`, on which
`*result` is not written. -/
def snappyUncompressedLength (z : Bytes) : Option Nat :=
  (varintParse32 0 0 z).map (·.1)

/-- `read_uncompressed_length`, the decoder's own reader of the same
header. -/
def readUncompressedLength (shift result : Nat) :
    Bytes → Option (Nat × Bytes)
  | [] => none
  | c :: ip =>
      if 32 ≤ shift then none
      else if c.toNat < 128 then some (varintOr result c shift, ip)
      else readUncompressedLength (shift + 7) (varintOr result c shift) ip

theorem varintOr_lt {result shift : Nat} (b : Byte)
    (h : result < 2 ^ 32) : varintOr result b shift < 2 ^ 32 :=
  Nat.or_lt_two_pow h (Nat.mod_lt _ (by positivity))

theorem readUncompressedLength_lt {z ip : Bytes} {n : Nat} :
    ∀ {shift result : Nat}, result < 2 ^ 32 →
      readUncompressedLength shift result z = some (n, ip) →
        n < 2 ^ 32 := by
  induction z with
  | nil =>
      intro shift result _ h
      cases h
  | cons c z ih =>
      intro shift result hr h
      simp only [readUncompressedLength] at h
      split at h
      · cases h
      · split at h
        · cases h
          exact varintOr_lt c hr
        · exact ih (varintOr_lt c hr) h

/-- What the first reader accepts, the second reads alike. -/
theorem varintParse32_some {shift result : Nat} {z ip : Bytes} {n : Nat}
    (hs : shift ≤ 28) (h7 : 7 ∣ shift)
    (h : varintParse32 shift result z = some (n, ip)) :
    readUncompressedLength shift result z = some (n, ip) := by
  induction z generalizing shift result with
  | nil => cases h
  | cons b z ih =>
      have hlt : ¬ 32 ≤ shift := by omega
      simp only [varintParse32] at h
      simp only [readUncompressedLength, if_neg hlt]
      split at h
      next h28 =>
        split at h
        next hb => rw [if_pos hb, h]
        next hb =>
          rw [if_neg hb]
          -- a continued stage below 28 continues in both readers
          exact ih (by omega) (by omega) h
      next =>
        split at h
        next hb => rw [if_pos (by omega), h]
        next => cases h

-- ============================================================ the tags

/-- `get_unaligned_le32` under a `wordmask`: the little-endian value of
the tag's trailing bytes. -/
def leNat : Bytes → Nat
  | [] => 0
  | b :: bs => b.toNat + 256 * leNat bs

/-- How many bytes follow a tag byte: `char_table[c] >> 11`. -/
def tagExtra (c : Byte) : Nat :=
  match c.toNat % 4 with
  | 0 => c.toNat / 4 - 59
  | 1 => 1
  | 2 => 2
  | _ => 4

/-- `writer_append`: only within the announced length. -/
def writerAppend (limit : Nat) (out data : Bytes) : Option Bytes :=
  if limit - out.length < data.length then none else some (out ++ data)

/-- `incremental_copy`: byte by byte, so that a copy may read what it
has just written. -/
def incrementalCopy (offset : Nat) : Nat → Bytes → Bytes
  | 0, out => out
  | n + 1, out =>
      incrementalCopy offset n (out ++ [out.getD (out.length - offset) 0])

/-- `writer_append_from_self`. -/
def writerAppendFromSelf (limit : Nat) (out : Bytes) (offset len : Nat) :
    Option Bytes :=
  if offset = 0 ∨ out.length < offset then none
  else if limit - out.length < len then none
  else some (incrementalCopy offset len out)

/-- The length of a literal: in the tag byte, or for a long one in the
trailing bytes, less one, computed in `u32`. -/
def literalLength (c : Byte) (trailer : Nat) : Nat :=
  if tagExtra c = 0 then c.toNat / 4 + 1 else (trailer + 1) % 2 ^ 32

/-- One tag of `decompress_all_tags`, `ip` just past the tag byte `c`:
the output so far and the input left. -/
def decompressTag (limit : Nat) (out : Bytes) (c : Byte) (ip : Bytes) :
    Option (Bytes × Bytes) :=
  -- refill_tag: the tag's trailing bytes must be there
  if ip.length < tagExtra c then none
  else
    let trailer := leNat (ip.take (tagExtra c))
    let ip := ip.drop (tagExtra c)
    match c.toNat % 4 with
    | 0 =>
        let len := literalLength c trailer
        if ip.length < len then none
        else (writerAppend limit out (ip.take len)).map (·, ip.drop len)
    | 1 =>
        (writerAppendFromSelf limit out (c.toNat / 32 * 256 + trailer)
          (c.toNat / 4 % 8 + 4)).map (·, ip)
    | _ =>
        (writerAppendFromSelf limit out trailer (c.toNat / 4 + 1)).map
          (·, ip)

/-- `decompress_all_tags`: tags until the input ends exactly at a tag
boundary. Every tag takes at least its own byte, so `fuel` as long as
the input never runs out (`decompressAllTags_fuel`). -/
def decompressAllTags (limit : Nat) : Nat → Bytes → Bytes → Option Bytes
  | _, out, [] => some out
  | 0, _, _ :: _ => none
  | fuel + 1, out, c :: ip =>
      (decompressTag limit out c ip).bind fun x =>
        decompressAllTags limit fuel x.1 x.2

/-- `snappy_uncompress`: the header, all tags, and the announced length
reached exactly. -/
def snappyUncompress (z : Bytes) : Option Bytes :=
  (readUncompressedLength 0 0 z).bind fun x =>
    (decompressAllTags x.1 x.2.length [] x.2).bind fun out =>
      if out.length = x.1 then some out else none

/-- A tag never gives input back. -/
theorem decompressTag_length {limit : Nat} {out out' ip ip' : Bytes}
    {c : Byte} (h : decompressTag limit out c ip = some (out', ip')) :
    ip'.length ≤ ip.length := by
  simp only [decompressTag] at h
  split at h
  · cases h
  · split at h
    · split at h
      · cases h
      · obtain ⟨_, _, heq⟩ := Option.map_eq_some_iff.mp h
        cases heq
        simp only [List.length_drop]
        omega
    all_goals
      obtain ⟨_, _, heq⟩ := Option.map_eq_some_iff.mp h
      cases heq
      simp only [List.length_drop]
      omega

/-- Fuel beyond the input's length changes nothing. -/
theorem decompressAllTags_fuel {limit n m : Nat} {out ip : Bytes}
    (hn : ip.length ≤ n) (hm : ip.length ≤ m) :
    decompressAllTags limit n out ip = decompressAllTags limit m out ip := by
  induction n generalizing m out ip with
  | zero =>
      cases ip with
      | nil => cases m <;> rfl
      | cons c ip => simp at hn
  | succ n ih =>
      cases ip with
      | nil => cases m <;> rfl
      | cons c ip =>
          cases m with
          | zero => simp at hm
          | succ m =>
              rw [List.length_cons] at hn hm
              simp only [decompressAllTags]
              cases hx : decompressTag limit out c ip with
              | none => rfl
              | some x =>
                  have := decompressTag_length hx
                  exact ih (by omega) (by omega)

/-- Seven bits of `n`, as a continued varint byte. -/
def varintByte (n k : Nat) : Byte := UInt8.ofNat (n / 2 ^ (7 * k) % 128 + 128)

/-- A five-byte header for any 32-bit length. -/
def varintHeader (n : Nat) : Bytes :=
  [varintByte n 0, varintByte n 1, varintByte n 2, varintByte n 3,
    UInt8.ofNat (n / 2 ^ 28)]

/-- The `k` low bytes of `n`, least significant first. -/
def leBytes : Nat → Nat → Bytes
  | 0, _ => []
  | k + 1, n => UInt8.ofNat (n % 256) :: leBytes k (n / 256)

/-- The whole input as one long literal (tag 63, four length bytes), or
the header alone for the empty input. -/
def literalStream (v : Bytes) : Bytes :=
  varintHeader v.length ++
    if v = [] then [] else 0xFC :: (leBytes 4 (v.length - 1) ++ v)

/-- Bits that do not overlap and fit add up. -/
theorem varintOr_eq_add {result shift : Nat} {b : Byte}
    (hr : result < 2 ^ shift) (hb : b.toNat % 128 * 2 ^ shift < 2 ^ 32) :
    varintOr result b shift = result + b.toNat % 128 * 2 ^ shift := by
  rw [varintOr, Nat.shiftLeft_eq, Nat.mod_eq_of_lt hb, Nat.or_comm,
    Nat.mul_comm, ← Nat.two_pow_add_eq_or_of_lt hr, Nat.add_comm]

theorem varintByte_toNat (n k : Nat) :
    (varintByte n k).toNat = n / 2 ^ (7 * k) % 128 + 128 := by
  rw [varintByte, UInt8.toNat_ofNat']
  omega

/-- A continued byte of the header adds its seven bits. -/
theorem varintOr_varintByte {n k : Nat} (hk : k < 4) :
    varintOr (n % 2 ^ (7 * k)) (varintByte n k) (7 * k)
      = n % 2 ^ (7 * (k + 1)) := by
  have hpow : 2 ^ (7 * (k + 1)) = 2 ^ (7 * k) * 128 := by
    rw [Nat.mul_succ, Nat.pow_add]
  have hmod : (varintByte n k).toNat % 128 = n / 2 ^ (7 * k) % 128 := by
    rw [varintByte_toNat]
    omega
  have hfit : (varintByte n k).toNat % 128 * 2 ^ (7 * k) < 2 ^ 32 := by
    calc (varintByte n k).toNat % 128 * 2 ^ (7 * k)
        < 128 * 2 ^ (7 * k) :=
          Nat.mul_lt_mul_of_pos_right (by omega) (by positivity)
      _ = 2 ^ (7 * (k + 1)) := by rw [hpow, Nat.mul_comm]
      _ ≤ 2 ^ 32 := Nat.pow_le_pow_right (by omega) (by omega)
  rw [varintOr_eq_add (Nat.mod_lt _ (by positivity)) hfit, hmod, hpow,
    Nat.mod_mul, Nat.mul_comm (n / 2 ^ (7 * k) % 128)]

private theorem readUncompressedLength_varintByte {n k : Nat} (hk : k < 4)
    (rest : Bytes) :
    readUncompressedLength (7 * k) (n % 2 ^ (7 * k))
        (varintByte n k :: rest)
      = readUncompressedLength (7 * (k + 1)) (n % 2 ^ (7 * (k + 1))) rest := by
  rw [readUncompressedLength, if_neg (by omega),
    if_neg (by rw [varintByte_toNat]; omega), varintOr_varintByte hk,
    Nat.mul_succ]

/-- The header announces its length. -/
theorem readUncompressedLength_header {n : Nat} (hn : n < 2 ^ 32)
    (ip : Bytes) :
    readUncompressedLength 0 0 (varintHeader n ++ ip) = some (n, ip) := by
  have hlast : (UInt8.ofNat (n / 2 ^ 28)).toNat = n / 2 ^ 28 := by
    rw [UInt8.toNat_ofNat']
    omega
  have hzero : (0 : Nat) = n % 2 ^ (7 * 0) := by omega
  have hfit : n / 2 ^ 28 % 128 * 2 ^ 28 < 2 ^ 32 := by omega
  calc readUncompressedLength 0 0 (varintHeader n ++ ip)
      = readUncompressedLength (7 * 0) (n % 2 ^ (7 * 0))
          (varintHeader n ++ ip) := by rw [← hzero]
    _ = readUncompressedLength 28 (n % 2 ^ 28)
          (UInt8.ofNat (n / 2 ^ 28) :: ip) := by
        simp only [varintHeader, List.cons_append, List.nil_append]
        rw [readUncompressedLength_varintByte (by omega),
          readUncompressedLength_varintByte (by omega),
          readUncompressedLength_varintByte (by omega),
          readUncompressedLength_varintByte (by omega)]
    _ = some (n, ip) := by
        rw [readUncompressedLength, if_neg (by omega),
          if_pos (by rw [hlast]; omega),
          varintOr_eq_add (Nat.mod_lt _ (by omega)) (by rwa [hlast]), hlast]
        congr 2
        omega

/-- The low bytes of a number that fits in them give it back. -/
theorem leNat_leBytes {k n : Nat} (hn : n < 256 ^ k) :
    leNat (leBytes k n) = n := by
  induction k generalizing n with
  | zero =>
      simp only [pow_zero, Nat.lt_one_iff] at hn
      rw [hn]
      rfl
  | succ k ih =>
      have hdiv : n / 256 < 256 ^ k := by
        rw [Nat.pow_succ] at hn
        exact Nat.div_lt_of_lt_mul (by omega)
      rw [leBytes, leNat, ih hdiv, UInt8.toNat_ofNat']
      omega

@[simp] theorem leBytes_length (k n : Nat) : (leBytes k n).length = k := by
  induction k generalizing n with
  | zero => rfl
  | succ k ih => rw [leBytes, List.length_cons, ih]

/-- One long literal within the announced length is its data. -/
private theorem decompressTag_literal {v : Bytes} (hv : v ≠ [])
    (hlen : v.length < 2 ^ 32) :
    decompressTag v.length [] 0xFC (leBytes 4 (v.length - 1) ++ v)
      = some (v, []) := by
  have hpos : 0 < v.length := List.length_pos_iff.mpr hv
  have htail : (leBytes 4 (v.length - 1) ++ v).take 4
      = leBytes 4 (v.length - 1) := by simp
  have hval : leNat (leBytes 4 (v.length - 1)) = v.length - 1 :=
    leNat_leBytes (by omega)
  have hll : literalLength 0xFC (v.length - 1) = v.length := by
    show (v.length - 1 + 1) % 2 ^ 32 = v.length
    omega
  have hdrop : (leBytes 4 (v.length - 1) ++ v).drop 4 = v := by simp
  have hextra : tagExtra 0xFC = 4 := rfl
  have hkind : (0xFC : Byte).toNat % 4 = 0 := rfl
  simp only [decompressTag, hextra, hkind, htail, hdrop, hval, hll]
  rw [if_neg (by simp), if_neg (by omega), List.take_length,
    List.drop_length, writerAppend, if_neg (by simp)]
  rfl

/-- The encoder's stream decodes to the data. -/
theorem snappyUncompress_literalStream {v : Bytes}
    (hlen : v.length < 2 ^ 32) :
    snappyUncompress (literalStream v) = some v := by
  rw [snappyUncompress, literalStream, readUncompressedLength_header hlen,
    Option.bind_some]
  by_cases hv : v = []
  · subst hv
    rfl
  · rw [if_neg hv]
    simp only [List.length_cons, decompressAllTags,
      decompressTag_literal hv hlen, Option.bind_some, if_true]

end FineDB

/-
The snappy compressor (lib/snappy-c/snappy.c), as `command_put` and the
client library call it.

`snappy_compress` writes the length of its input and then, block by
block of at most `kblock_size` bytes, what `compress_fragment` makes of
it: literals, and copies from earlier in the same block. Where an
earlier occurrence may be is looked up in a hash table of positions, so
any entry is only a candidate, and the bytes are compared.

The code is full of accesses that are in bounds for a reason given
elsewhere: words of four and eight bytes are loaded at any position, a
short literal is copied sixteen bytes at a time, and the caller's buffer
is taken to be as large as `snappy_max_compressed_length` says, whatever
its iovec claims. So the model works on objects (Lib/Object.lean): the
block, the hash table, the output; every access is checked against its
object. `op` is the pointer of the `Emit` code.

Bytes are in the order of a little-endian machine, and
`find_match_length` is the version for those with 64 bits. The library
is built with NDEBUG, so `CHECK` and `DCHECK` are not there. Of the
sinks, the one with a single iovec is modelled, which is the one
`snappy_compress` makes; a source may have several.
-/
import FineDB.Lib.Object
import FineDB.Model.Snappy

namespace FineDB.Snappy

open Object

-- =================================================================== words

/-- `UNALIGNED_LOAD32` -/
def load32 (buf : Bytes) (p : Nat) : Except Stop Nat := do
  return leNat (← load buf p 4)

/-- `UNALIGNED_LOAD64` -/
def load64 (buf : Bytes) (p : Nat) : Except Stop Nat := do
  return leNat (← load buf p 8)

theorem leNat_lt (bs : Bytes) : leNat bs < 256 ^ bs.length := by
  induction bs with
  | nil => simp [leNat]
  | cons b bs ih =>
      have hb : b.toNat < 256 := b.toNat_lt
      rw [leNat, List.length_cons, Nat.pow_succ]
      omega

theorem leNat_append (a b : Bytes) :
    leNat (a ++ b) = leNat a + 256 ^ a.length * leNat b := by
  induction a with
  | nil => simp [leNat]
  | cons x a ih =>
      rw [List.cons_append, leNat, leNat, ih, List.length_cons,
        Nat.pow_succ', Nat.mul_add, Nat.mul_assoc, Nat.add_assoc]

/-- The low bytes of a word are its first. -/
theorem leNat_mod {bs : Bytes} {k : Nat} (h : k ≤ bs.length) :
    leNat bs % 256 ^ k = leNat (bs.take k) := by
  have hlow := leNat_lt (bs.take k)
  have hsum := leNat_append (bs.take k) (bs.drop k)
  rw [List.length_take_of_le h] at hlow hsum
  rw [List.take_append_drop] at hsum
  rw [hsum, Nat.add_mul_mod_self_left, Nat.mod_eq_of_lt hlow]

theorem leNat_div {bs : Bytes} {k : Nat} (h : k ≤ bs.length) :
    leNat bs / 256 ^ k = leNat (bs.drop k) := by
  have hlow := leNat_lt (bs.take k)
  have hsum := leNat_append (bs.take k) (bs.drop k)
  rw [List.length_take_of_le h] at hlow hsum
  rw [List.take_append_drop] at hsum
  rw [hsum, Nat.add_mul_div_left _ _ (Nat.pow_pos (by omega)),
    Nat.div_eq_of_lt hlow, Nat.zero_add]

/-- `__builtin_ctzll` on a number of `bits` bits. -/
def trailingZeros : Nat → Nat → Nat
  | 0, _ => 0
  | bits + 1, n => if n % 2 = 1 then 0 else trailingZeros bits (n / 2) + 1

/-- `find_lsb_set_non_zero64` -/
def findLsbSetNonZero64 (n : Nat) : Nat := trailingZeros 64 n

/-- `hash_bytes`, in `u32`. -/
def hashBytes (bytes shift : Nat) : Nat :=
  (bytes * 0x1e35a7bd % 2 ^ 32) >>> shift

def hash (buf : Bytes) (p shift : Nat) : Except Stop Nat := do
  return hashBytes (← load32 buf p) shift

/-- `get_u32_at_offset` -/
def getU32AtOffset (v offset : Nat) : Nat := (v >>> (8 * offset)) % 2 ^ 32

-- ================================================================ the header

/-- `varint_encode32`: the bytes it writes. -/
def varintEncode32 (v : Nat) : Bytes :=
  if v < 2 ^ 7 then [UInt8.ofNat v]
  else if v < 2 ^ 14 then [UInt8.ofNat (v ||| 128), UInt8.ofNat (v >>> 7)]
  else if v < 2 ^ 21 then
    [UInt8.ofNat (v ||| 128), UInt8.ofNat (v >>> 7 ||| 128),
      UInt8.ofNat (v >>> 14)]
  else if v < 2 ^ 28 then
    [UInt8.ofNat (v ||| 128), UInt8.ofNat (v >>> 7 ||| 128),
      UInt8.ofNat (v >>> 14 ||| 128), UInt8.ofNat (v >>> 21)]
  else
    [UInt8.ofNat (v ||| 128), UInt8.ofNat (v >>> 7 ||| 128),
      UInt8.ofNat (v >>> 14 ||| 128), UInt8.ofNat (v >>> 21 ||| 128),
      UInt8.ofNat (v >>> 28)]

/-- `snappy_max_compressed_length` -/
def snappyMaxCompressedLength (sourceLen : Nat) : Nat :=
  32 + sourceLen + sourceLen / 6

-- ================================================================= emitting

/-- The loop of `emit_literal` over the bytes of the length; returns
their number. -/
def emitLength : Nat → Nat → Nat → Emit Byte Nat
  | 0, _, _ => throw .fuel
  | fuel + 1, n, count =>
      if 0 < n then do
        put [UInt8.ofNat (n % 256)]
        emitLength fuel (n / 256) (count + 1)
      else return count

/-- The tag of a literal whose length is written behind it: `base` is
passed, and filled in when the number of bytes is known. -/
def emitLongTag (n : Nat) : Emit Byte Unit := do
  let base ← here
  advance 1
  let count ← emitLength (n + 1) n 0
  storeAt base [UInt8.ofNat ((59 + count) <<< 2)]

/-- The fast path of `emit_literal`: two words, whatever the length. -/
def emitWords (input : Bytes) (literal len : Nat) : Emit Byte Unit := do
  let op ← here
  storeAt op (← load input literal 8)
  storeAt (op + 8) (← load input (literal + 8) 8)
  advance len

/-- `emit_literal` -/
def emitLiteral (input : Bytes) (literal len : Nat) (allowFastPath : Bool) :
    Emit Byte Unit := do
  let n := len - 1
  if n < 60 then
    put [UInt8.ofNat (n <<< 2)]
    if allowFastPath ∧ len ≤ 16 then emitWords input literal len
    else put (← load input literal len)
  else
    emitLongTag n
    put (← load input literal len)

/-- `emit_copy_less_than64` -/
def emitCopyLessThan64 (offset len : Nat) : Emit Byte Unit :=
  if len < 12 ∧ offset < 2048 then
    put [UInt8.ofNat (1 ||| (len - 4) <<< 2 ||| (offset >>> 8) <<< 5),
      UInt8.ofNat (offset % 256)]
  else do
    put [UInt8.ofNat (2 ||| (len - 1) <<< 2)]
    put (leBytes 2 (offset % 2 ^ 16))

/-- The first loop of `emit_copy`; returns the length left. -/
def emitCopies64 (offset : Nat) : Nat → Nat → Emit Byte Nat
  | 0, _ => throw .fuel
  | fuel + 1, len =>
      if 68 ≤ len then do
        emitCopyLessThan64 offset 64
        emitCopies64 offset fuel (len - 64)
      else return len

/-- `emit_copy` -/
def emitCopy (offset len : Nat) : Emit Byte Unit := do
  let len ← emitCopies64 offset (len + 1) len
  if 64 < len then
    emitCopyLessThan64 offset 60
    emitCopyLessThan64 offset (len - 60)
  else emitCopyLessThan64 offset len

-- ================================================================= matching

/-- The second loop of `find_match_length`: byte by byte. -/
def matchBytes (input : Bytes) (s1 s2Limit : Nat) :
    Nat → Nat → Nat → Except Stop Nat
  | 0, _, _ => throw .fuel
  | fuel + 1, s2, matched =>
      if s2 < s2Limit then do
        if (← get input (s1 + matched)) = (← get input s2) then
          matchBytes input s1 s2Limit fuel (s2 + 1) (matched + 1)
        else return matched
      else return matched

/-- The first loop: eight bytes at a time, until a word differs. -/
def matchWords (input : Bytes) (s1 s2Limit : Nat) :
    Nat → Nat → Nat → Except Stop Nat
  | 0, _, _ => throw .fuel
  | fuel + 1, s2, matched =>
      if s2 + 8 ≤ s2Limit then do
        let w2 ← load64 input s2
        let w1 ← load64 input (s1 + matched)
        if w2 = w1 then
          matchWords input s1 s2Limit fuel (s2 + 8) (matched + 8)
        else return matched + findLsbSetNonZero64 (w2 ^^^ w1) >>> 3
      else matchBytes input s1 s2Limit (fuel + 1) s2 matched

/-- `find_match_length` -/
def findMatchLength (input : Bytes) (s1 s2 s2Limit : Nat) :
    Except Stop Nat :=
  matchWords input s1 s2Limit (s2Limit - s2 + 1) s2 0

/-- The cells of the hash table, positions in the block. -/
abbrev HashTable := List UInt16

/-- The `do` loop of step 1: look for a four-byte match from `nextIp` on,
in ever larger steps. `none` is `goto emit_remainder`; otherwise `ip`,
`candidate` and the table. -/
def scan (input : Bytes) (ipLimit shift : Nat) :
    Nat → Nat → Nat → Nat → HashTable →
      Except Stop (Option (Nat × Nat × HashTable))
  | 0, _, _, _, _ => throw .fuel
  | fuel + 1, nextIp, nextHash, skipBytes, table => do
      let ip := nextIp
      let hval := nextHash
      let nextIp := ip + skipBytes >>> 5
      if ipLimit < nextIp then return none
      else
        let nextHash ← hash input nextIp shift
        let candidate := (← get table hval).toNat
        let table ← store table hval [UInt16.ofNat ip]
        if (← load32 input ip) ≠ (← load32 input candidate) then
          scan input ipLimit shift fuel nextIp nextHash (skipBytes + 1)
            table
        else return some (ip, candidate, table)

/-- The `do` loop of step 3: copies, as long as the bytes behind one
match start the next. Returns `ip`, which is also `next_emit`, and
unless the end is near the next hash and the table. -/
def copyLoop (input : Bytes) (ipLimit shift : Nat) :
    Nat → Nat → Nat → HashTable →
      Emit Byte (Nat × Option (Nat × HashTable))
  | 0, _, _, _ => throw .fuel
  | fuel + 1, ip, candidate, table => do
      let base := ip
      let matched :=
        4 + (← findMatchLength input (candidate + 4) (ip + 4) input.length)
      let ip := ip + matched
      emitCopy (base - candidate) matched
      if ipLimit ≤ ip then return (ip, none)
      else
        let inputBytes ← load64 input (ip - 1)
        let prevHash := hashBytes (getU32AtOffset inputBytes 0) shift
        let table ← store table prevHash [UInt16.ofNat (ip - 1)]
        let curHash := hashBytes (getU32AtOffset inputBytes 1) shift
        let candidate := (← get table curHash).toNat
        let candidateBytes ← load32 input candidate
        let table ← store table curHash [UInt16.ofNat ip]
        if getU32AtOffset inputBytes 1 = candidateBytes then
          copyLoop input ipLimit shift fuel ip candidate table
        else
          let nextHash := hashBytes (getU32AtOffset inputBytes 2) shift
          return (ip, some (nextHash, table))

/-- The main loop of `compress_fragment`: a literal and copies. Returns
`next_emit` as `emit_remainder` finds it. -/
def fragmentLoop (input : Bytes) (ipLimit shift : Nat) :
    Nat → Nat → Nat → Nat → HashTable → Emit Byte Nat
  | 0, _, _, _, _ => throw .fuel
  | fuel + 1, ip, nextHash, nextEmit, table => do
      match ← scan input ipLimit shift input.length ip nextHash 32 table with
      | none => return nextEmit
      | some (ip, candidate, table) =>
          emitLiteral input nextEmit (ip - nextEmit) true
          match ← copyLoop input ipLimit shift input.length ip candidate
            table with
          | (ip, none) => return ip
          | (ip, some (nextHash, table)) =>
              fragmentLoop input ipLimit shift fuel (ip + 1) nextHash ip
                table

/-- What `compress_fragment` does before `emit_remainder`. -/
def compressMatches (input : Bytes) (shift : Nat) (table : HashTable) :
    Emit Byte Nat :=
  -- kinput_margin_bytes
  if 15 ≤ input.length then do
    let nextHash ← hash input 1 shift
    fragmentLoop input (input.length - 15) shift input.length 1 nextHash 0
      table
  else return 0

/-- `compress_fragment` -/
def compressFragment (input : Bytes) (table : HashTable) :
    Emit Byte Unit := do
  let shift := 32 - Nat.log2 table.length
  let nextEmit ← compressMatches input shift table
  if nextEmit < input.length then
    emitLiteral input nextEmit (input.length - nextEmit) false
  else return ()

-- ============================================================== the source

/-- An `int`, given by its 32 bits, as a `size_t`. -/
def sizeOfInt (n : Nat) : Nat :=
  if n < 2 ^ 31 then n else n + (2 ^ 64 - 2 ^ 32)

theorem sizeOfInt_of_lt {n : Nat} (h : n < 2 ^ 31) : sizeOfInt n = n :=
  if_pos h

/-- `struct source`, `curoff` by its 32 bits. -/
structure Source where
  iov : List Bytes
  curvec : Nat
  curoff : Nat

/-- `peek`: the bytes from the pointer it returns on to the end of the
iovec, none if it returns NULL. -/
def Source.peek (s : Source) : Bytes :=
  match s.iov[s.curvec]? with
  | some iv => if sizeOfInt s.curoff < iv.length then iv.drop s.curoff else []
  | none => []

/-- `skip` -/
def Source.skip (s : Source) (n : Nat) : Except Stop Source := do
  let iv ← get s.iov s.curvec
  let curoff := (s.curoff + n) % 2 ^ 32
  if iv.length ≤ sizeOfInt curoff ∧ s.curvec + 1 < s.iov.length then
    return { s with curvec := s.curvec + 1, curoff := 0 }
  else return { s with curoff := curoff }

/-- `rest` is what the source has still to give. Each of its iovecs but
the last one has something in it, since an empty one is taken for the
end, and each is short enough for an `int`. -/
structure Source.Holds (s : Source) (rest : Bytes) : Prop where
  shape : ∃ iv later, s.iov.drop s.curvec = iv :: later
    ∧ s.curoff ≤ iv.length ∧ (s.curoff = iv.length → later = [])
    ∧ (∀ v ∈ iv :: later, v.length < 2 ^ 31) ∧ (∀ v ∈ later, v ≠ [])
    ∧ rest = iv.drop s.curoff ++ later.flatten

namespace Source

variable {s : Source} {rest : Bytes}

theorem holds_single {v : Bytes} (h : v.length < 2 ^ 31) :
    Holds ⟨[v], 0, 0⟩ v :=
  ⟨v, [], rfl, Nat.zero_le _, fun _ => rfl, by simpa using h, by simp,
    by simp⟩

private theorem getElem?_of_drop {iv : Bytes} {later : List Bytes}
    (h : s.iov.drop s.curvec = iv :: later) :
    s.iov[s.curvec]? = some iv := by
  rw [← List.head?_drop, h, List.head?_cons]

/-- `peek` shows a first part of it, nothing only at the end. -/
theorem Holds.peek (h : s.Holds rest) :
    ∃ tail, rest = s.peek ++ tail ∧ (s.peek = [] → rest = [])
      ∧ (s.iov.length ≤ 1 → tail = []) := by
  obtain ⟨iv, later, hdrop, hoff, hend, hshort, -, hrest⟩ := h.shape
  have hiv := hshort iv List.mem_cons_self
  have hpeek : s.peek = iv.drop s.curoff := by
    rw [Source.peek, getElem?_of_drop hdrop]
    simp only [sizeOfInt_of_lt (show s.curoff < 2 ^ 31 by omega)]
    split
    · rfl
    · rw [List.drop_of_length_le (by omega)]
  refine ⟨later.flatten, by rw [hpeek, hrest], fun hnil => ?_, fun hone => ?_⟩
  · rw [hpeek] at hnil
    have hlen := List.drop_eq_nil_iff.mp hnil
    rw [hrest, hnil, hend (by omega)]
    rfl
  · have hlen := congrArg List.length hdrop
    rw [List.length_drop, List.length_cons] at hlen
    rw [List.eq_nil_of_length_eq_zero (show later.length = 0 by omega)]
    rfl

theorem Holds.peek_length (h : s.Holds rest) : s.peek.length < 2 ^ 31 := by
  obtain ⟨iv, later, hdrop, -, -, hshort, -, -⟩ := h.shape
  have hiv := hshort iv List.mem_cons_self
  rw [Source.peek, getElem?_of_drop hdrop]
  simp only
  split
  · rw [List.length_drop]
    omega
  · rw [List.length_nil]
    omega

/-- `skip` over what `peek` has shown, or a part of it. -/
theorem Holds.skip {n : Nat} (h : s.Holds rest) (hn : n ≤ s.peek.length) :
    ∃ s', s.skip n = .ok s' ∧ s'.iov = s.iov ∧ s'.Holds (rest.drop n) := by
  obtain ⟨iv, later, hdrop, hoff, hend, hshort, hne, hrest⟩ := h.shape
  have hiv := hshort iv List.mem_cons_self
  have hin : s.curoff + n ≤ iv.length := by
    rw [Source.peek, getElem?_of_drop hdrop] at hn
    simp only at hn
    split at hn
    · rw [List.length_drop] at hn
      omega
    · rw [List.length_nil] at hn
      omega
  have hlen := congrArg List.length hdrop
  rw [List.length_drop, List.length_cons] at hlen
  have hskip : rest.drop n = iv.drop (s.curoff + n) ++ later.flatten := by
    rw [hrest, List.drop_append_of_le_length
      (by rw [List.length_drop]; omega), List.drop_drop]
  have hmod : (s.curoff + n) % 2 ^ 32 = s.curoff + n :=
    Nat.mod_eq_of_lt (by omega)
  rw [Source.skip, bind_ok (get_ok (getElem?_of_drop hdrop))]
  simp only [hmod, sizeOfInt_of_lt (show s.curoff + n < 2 ^ 31 by omega)]
  split
  next hnext =>
    -- the iovec is used up, and the next one is not empty
    refine ⟨_, rfl, rfl, ?_⟩
    cases later with
    | nil =>
        rw [List.length_nil] at hlen
        omega
    | cons iv' later =>
        have hdrop' : s.iov.drop (s.curvec + 1) = iv' :: later := by
          rw [← List.drop_drop, hdrop, List.drop_succ_cons, List.drop_zero]
        refine ⟨iv', later, hdrop', Nat.zero_le _, fun hzero => ?_,
          fun v hv => hshort v (List.mem_cons_of_mem iv hv),
          fun v hv => hne v (List.mem_cons_of_mem iv' hv), ?_⟩
        · exact absurd (List.eq_nil_of_length_eq_zero hzero.symm)
            (hne iv' List.mem_cons_self)
        · rw [hskip, List.drop_of_length_le (by omega)]
          rfl
  next hlast =>
    refine ⟨_, rfl, rfl, ⟨iv, later, hdrop, hin, fun heq => ?_, hshort, hne,
      hskip⟩⟩
    simp only at heq
    exact List.eq_nil_of_length_eq_zero (by omega)

/-- The most that `peek` shows of the next `need` bytes. -/
theorem Holds.feed {need : Nat} (h : s.Holds rest) (hne : rest ≠ [])
    (hneed : 0 < need) :
    ∃ n s', min s.peek.length need = n ∧ 0 < n ∧ n ≤ need
      ∧ s.peek.take n = rest.take n ∧ (rest.take n).length = n
      ∧ s.skip n = .ok s' ∧ s'.iov = s.iov ∧ s'.Holds (rest.drop n) := by
  obtain ⟨tail, hrest, hend, -⟩ := h.peek
  have hpos : 0 < s.peek.length :=
    List.length_pos_iff.mpr fun hnil => hne (hend hnil)
  obtain ⟨s', hskip, hiov, hholds⟩ :=
    h.skip (show min s.peek.length need ≤ s.peek.length by omega)
  have htake : s.peek.take (min s.peek.length need)
      = rest.take (min s.peek.length need) := by
    rw [hrest, List.take_append_of_le_length (by omega)]
  refine ⟨_, s', rfl, by omega, by omega, htake, ?_, hskip, hiov, hholds⟩
  rw [← htake, List.length_take]
  omega

end Source

-- ================================================================ the sink

/-- `struct sink` with one iovec, whose `iov_len` is given as
`0xffffffff`; `obj` is the memory there really is. -/
structure Sink where
  obj : Bytes
  curoff : Nat
  written : Nat

def Sink.iovLen : Nat := 0xffffffff

/-- `append`; `data` is `none` if they are at `dst` already. -/
def Sink.append (s : Sink) (data : Option Bytes) (n : Nat) :
    Except Stop Sink := do
  let nlen := min (iovLen - s.curoff) n
  let obj ← match data with
    | some data => store s.obj s.curoff (data.take nlen)
    | none => pure s.obj
  -- there is no second iovec
  if nlen < n then throw (.outside (s.curoff + n))
  else return ⟨obj, (s.curoff + nlen) % 2 ^ 32, (s.written + n) % 2 ^ 32⟩

-- ================================================================ compress

def kblockSize : Nat := 2 ^ 15

def kmaxHashTableSize : Nat := 2 ^ 14

/-- The loop of `get_hash_table`. -/
def hashTableSize (inputSize : Nat) : Nat → Nat → Nat
  | 0, htsize => htsize
  | fuel + 1, htsize =>
      if htsize < kmaxHashTableSize ∧ htsize < inputSize then
        hashTableSize inputSize fuel (htsize * 2)
      else htsize

/-- `get_hash_table`: the part of the table that is used, all zero. -/
def getHashTable (inputSize : Nat) : HashTable :=
  List.replicate (hashTableSize inputSize 6 256) 0

/-- `struct snappy_env` but for the hash table: `scratch` and
`scratch_output`, empty where `snappy_init_env` has not allocated
them. -/
structure Env where
  scratch : Bytes
  scratchOutput : Bytes

/-- The loop of `compress` that gathers a block in `scratch`. -/
def gather (numToRead : Nat) :
    Nat → Source → Bytes → Nat → Except Stop (Source × Bytes)
  | 0, _, _, _ => throw .fuel
  | fuel + 1, reader, scratch, bytesRead =>
      if bytesRead < numToRead then do
        let fragment := reader.peek
        let n := min fragment.length (numToRead - bytesRead)
        let scratch ← store scratch bytesRead (fragment.take n)
        let reader ← reader.skip n
        gather numToRead fuel reader scratch (bytesRead + n)
      else return (reader, scratch)

/-- The next block: the reader, how far it has still to move, the scratch
memory and the block itself. -/
def nextBlock (reader : Source) (scratch : Bytes) (numToRead : Nat) :
    Except Stop (Source × Nat × Bytes × Bytes) :=
  let fragment := reader.peek
  if numToRead ≤ fragment.length then
    return (reader, numToRead, scratch, fragment.take numToRead)
  else do
    let scratch ← store scratch 0 fragment
    let reader ← reader.skip fragment.length
    let (reader, scratch) ←
      gather numToRead numToRead reader scratch fragment.length
    return (reader, 0, scratch, scratch.take numToRead)

/-- Compress one block and append it to the sink. -/
def appendBlock (env : Env) (writer : Sink) (fragment : Bytes) :
    Except Stop Sink := do
  let table := getHashTable fragment.length
  let room := snappyMaxCompressedLength fragment.length
  -- sink_peek
  if room ≤ Sink.iovLen - writer.curoff then
    let (_, dest) ←
      compressFragment fragment table ⟨writer.obj, writer.curoff⟩
    Sink.append { writer with obj := dest.obj } none
      (dest.op - writer.curoff)
  else
    let (_, dest) ← compressFragment fragment table ⟨env.scratchOutput, 0⟩
    writer.append (some (dest.obj.take dest.op)) dest.op

/-- The value 32 bits have as an `int`. -/
def intOfBits (n : Nat) : Int :=
  if n % 2 ^ 32 < 2 ^ 31 then (n % 2 ^ 32 : Nat)
  else (n % 2 ^ 32 : Nat) - 2 ^ 32

def eio : Int := 5

/-- The loop of `compress`, over the blocks. -/
def compressLoop : Nat → Env → Source → Int → Sink →
    Except Stop (Int × Sink)
  | 0, _, _, _, _ => throw .fuel
  | fuel + 1, env, reader, N, writer =>
      if 0 < N then do
        if reader.peek = [] then return (-eio, writer)
        else
          let numToRead := min N.toNat kblockSize
          let (reader, pendingAdvance, scratch, fragment) ←
            nextBlock reader env.scratch numToRead
          let writer ← appendBlock env writer fragment
          let reader ← reader.skip pendingAdvance
          compressLoop fuel { env with scratch := scratch } reader
            (N - numToRead) writer
      else return (0, writer)

/-- `compress`: `total` is `input_length`, of which `available` makes an
`int`. -/
def compress (env : Env) (reader : Source) (total : Nat) (writer : Sink) :
    Except Stop (Int × Sink) := do
  let N := intOfBits total
  let header := varintEncode32 (total % 2 ^ 32)
  -- char ulength[kmax32]
  let ulength ← store (List.replicate 5 0) 0 header
  let writer ← writer.append (some (ulength.take header.length)) header.length
  compressLoop (total + 1) env reader N writer

/-- `snappy_compress_iov` into one buffer: the return value,
`*compressed_length` and the buffer. -/
def snappyCompressIov (env : Env) (iov : List Bytes) (inputLength : Nat)
    (compressed : Bytes) : Except Stop (Int × Nat × Bytes) := do
  let (err, writer) ←
    compress env ⟨iov, 0, 0⟩ inputLength ⟨compressed, 0, 0⟩
  return (err, writer.written, writer.obj)

/-- `snappy_compress` with what `snappy_init_env` allocates. -/
def snappyCompress (input compressed : Bytes) :
    Except Stop (Int × Nat × Bytes) :=
  snappyCompressIov ⟨[], []⟩ [input] input.length compressed

end FineDB.Snappy

/-
How the compressor finds its matches.

`compress_fragment` is three nested loops. `scan` looks a hash up in the
table and compares four bytes; `findMatchLength` measures how far a
match goes, a word at a time; `copyLoop` writes the match and sees
whether the next one starts right behind it. What carries all of them is
`TableOk`: the entries of the table are positions before `ip`. With it a
candidate lies behind, so a match is a copy (`Recurs.copies`), and the
words that are loaded lie in the block, which the margin of fifteen
bytes at its end is for.

The result of a loop is `Covers`: the code writes items, and they lead
from the input up to one position to the input up to another. The room
it needs is in the same statement, since the fast path of `emit_literal`
writes more than the item has: `fragmentRoom` cells, of which the
overshoot is never the last, because the loop only runs while sixteen
bytes of input are left.
-/
import FineDB.Proofs.SnappyItems

namespace FineDB.Snappy

open Object Lz

-- =================================================================== words

theorem leNat_inj {a b : Bytes} (hlen : a.length = b.length)
    (h : leNat a = leNat b) : a = b := by
  induction a generalizing b with
  | nil => rw [List.eq_nil_of_length_eq_zero hlen.symm]
  | cons x a ih =>
      cases b with
      | nil => cases hlen
      | cons y b =>
          have hx : x.toNat < 256 := x.toNat_lt
          have hy : y.toNat < 256 := y.toNat_lt
          rw [leNat, leNat] at h
          rw [ih (Nat.succ.inj hlen) (by omega),
            UInt8.toNat_inj.mp (show x.toNat = y.toNat by omega)]

/-- `get_u32_at_offset` is a load from within the word. -/
theorem getU32AtOffset_leNat {bs : Bytes} {k : Nat}
    (h : k + 4 ≤ bs.length) :
    getU32AtOffset (leNat bs) k = leNat ((bs.drop k).take 4) := by
  have hdiv := leNat_div (show k ≤ bs.length by omega)
  have hmod := leNat_mod
    (show 4 ≤ (bs.drop k).length by rw [List.length_drop]; omega)
  rw [getU32AtOffset, Nat.shiftRight_eq_div_pow, Nat.pow_mul]
  exact (congrArg (· % 2 ^ 32) hdiv).trans hmod

theorem trailingZeros_of_mod_ne {bits k n : Nat} (h : n % 2 ^ k ≠ 0) :
    trailingZeros (k + bits) n < k := by
  induction k generalizing n with
  | zero => simp [Nat.mod_one] at h
  | succ k ih =>
      rw [Nat.add_right_comm, trailingZeros]
      split
      · omega
      next heven =>
        have hmod : n / 2 % 2 ^ k ≠ 0 := by
          rw [Nat.pow_succ'] at h
          rw [Nat.mod_mul] at h
          omega
        have := ih hmod
        omega

theorem trailingZeros_of_mod_eq {bits k n : Nat} (h : n % 2 ^ k = 0) :
    trailingZeros (k + bits) n = k + trailingZeros bits (n / 2 ^ k) := by
  induction k generalizing n with
  | zero => simp
  | succ k ih =>
      rw [Nat.pow_succ', Nat.mod_mul] at h
      rw [Nat.add_right_comm, trailingZeros, if_neg (by omega),
        ih (by omega), Nat.pow_succ', Nat.div_div_eq_div_mul]
      omega

/-- The lowest bit in which two words differ is in the first byte in
which they differ. -/
theorem trailingZeros_xor {a b : Bytes} (hlen : a.length = b.length)
    (hne : leNat a ≠ leNat b) :
    ∃ n, trailingZeros (8 * a.length) (leNat a ^^^ leNat b) / 8 = n
      ∧ n < a.length ∧ (∀ i, i < n → a[i]? = b[i]?) ∧ a[n]? ≠ b[n]? := by
  induction a generalizing b with
  | nil =>
      rw [List.eq_nil_of_length_eq_zero hlen.symm] at hne
      exact absurd rfl hne
  | cons x a ih =>
      cases b with
      | nil => cases hlen
      | cons y b =>
          have hx : x.toNat < 256 := x.toNat_lt
          have hy : y.toNat < 256 := y.toNat_lt
          have hlow : (leNat (x :: a) ^^^ leNat (y :: b)) % 2 ^ 8
              = x.toNat ^^^ y.toNat := by
            rw [Nat.xor_mod_two_pow, leNat, leNat]
            congr 1
            · omega
            · omega
          have hhigh : (leNat (x :: a) ^^^ leNat (y :: b)) / 2 ^ 8
              = leNat a ^^^ leNat b := by
            rw [Nat.xor_div_two_pow, leNat, leNat]
            congr 1
            · omega
            · omega
          rw [List.length_cons, Nat.mul_succ, Nat.add_comm]
          by_cases hxy : x = y
          · subst hxy
            rw [Nat.xor_self] at hlow
            have hrest : leNat a ≠ leNat b := by
              intro heq
              rw [leNat, leNat, heq] at hne
              exact hne rfl
            obtain ⟨n, hn, hlt, hsame, hdiff⟩ :=
              ih (Nat.succ.inj hlen) hrest
            refine ⟨n + 1, ?_, Nat.succ_lt_succ hlt, ?_, hdiff⟩
            · rw [trailingZeros_of_mod_eq hlow, hhigh]
              omega
            · intro i hi
              cases i with
              | zero => rfl
              | succ i => exact hsame i (by omega)
          · refine ⟨0, ?_, Nat.succ_pos _, by simp, ?_⟩
            · have := @trailingZeros_of_mod_ne (8 * a.length) 8
                (leNat (x :: a) ^^^ leNat (y :: b)) (by
                  rw [hlow, Nat.xor_ne_zero_iff]
                  exact fun heq => hxy (UInt8.toNat_inj.mp heq))
              omega
            · simpa using hxy

-- ============================================================ match lengths

/-- `n` is how far the bytes at `s1` and at `s2` agree, below `limit`. -/
structure MatchLength (input : Bytes) (s1 s2 limit n : Nat) : Prop where
  alike : Recurs input s1 s2 n
  inside : s2 + n ≤ limit
  stops : s2 + n < limit → input[s1 + n]? ≠ input[s2 + n]?

variable {input : Bytes}

theorem MatchLength.extend {s1 s2 limit m n : Nat}
    (h : Recurs input s1 s2 m)
    (h' : MatchLength input (s1 + m) (s2 + m) limit n) :
    MatchLength input s1 s2 limit (m + n) := by
  have hin := h'.inside
  have hstops := h'.stops
  refine ⟨h.append h'.alike, by omega, fun hlt => ?_⟩
  rw [← Nat.add_assoc, ← Nat.add_assoc]
  exact hstops (by omega)

theorem recurs_zero (s1 s2 : Nat) : Recurs input s1 s2 0 :=
  fun i hi => absurd hi (Nat.not_lt_zero i)

theorem matchBytes_spec {s1 limit fuel s2 matched : Nat}
    (hfuel : limit - s2 < fuel) (hs1 : s1 + matched ≤ s2)
    (hs2 : s2 ≤ limit) (hlimit : limit ≤ input.length) :
    ∃ n, matchBytes input s1 limit fuel s2 matched = .ok (matched + n)
      ∧ MatchLength input (s1 + matched) s2 limit n := by
  induction fuel generalizing s2 matched with
  | zero => omega
  | succ fuel ih =>
      rw [matchBytes]
      split
      next hlt =>
        have h1 : input[s1 + matched]?
            = some (input.get ⟨s1 + matched, by omega⟩) :=
          List.getElem?_eq_getElem (by omega)
        have h2 : input[s2]? = some (input.get ⟨s2, by omega⟩) :=
          List.getElem?_eq_getElem (by omega)
        rw [bind_ok (get_ok h1), bind_ok (get_ok h2)]
        split
        next heq =>
          obtain ⟨n, hn, hm⟩ := ih (show limit - (s2 + 1) < fuel by omega)
            (show s1 + (matched + 1) ≤ s2 + 1 by omega) (by omega)
          refine ⟨1 + n, by rw [hn, Nat.add_assoc], .extend ?_ hm⟩
          intro i hi
          obtain rfl : i = 0 := by omega
          rw [Nat.add_zero, Nat.add_zero, h1, h2, heq]
        next hne =>
          refine ⟨0, rfl, recurs_zero _ _, by omega, fun _ => ?_⟩
          rw [Nat.add_zero, Nat.add_zero, h1, h2]
          exact fun heq => hne (Option.some.inj heq)
      next hge =>
        exact ⟨0, rfl, recurs_zero _ _, by omega, fun hlt => by omega⟩

theorem load32_ok {p : Nat} (h : p + 4 ≤ input.length) :
    load32 input p = .ok (leNat ((input.drop p).take 4)) := by
  rw [load32, load_ok h]
  rfl

theorem load64_ok {p : Nat} (h : p + 8 ≤ input.length) :
    load64 input p = .ok (leNat ((input.drop p).take 8)) := by
  rw [load64, load_ok h]
  rfl

theorem length_word {p n : Nat} (h : p + n ≤ input.length) :
    ((input.drop p).take n).length = n := by
  rw [List.length_take, List.length_drop]
  omega

theorem getElem?_word {p n i : Nat} (h : i < n) :
    ((input.drop p).take n)[i]? = input[p + i]? := by
  rw [List.getElem?_take_of_lt h, List.getElem?_drop]

/-- Equal words are a match. -/
theorem matches_of_words {p q n : Nat} (hp : p + n ≤ input.length)
    (hq : q + n ≤ input.length)
    (h : leNat ((input.drop p).take n) = leNat ((input.drop q).take n)) :
    Recurs input p q n := by
  have heq := leNat_inj ((length_word hp).trans (length_word hq).symm) h
  intro i hi
  rw [← getElem?_word hi, ← getElem?_word hi, heq]

theorem matchWords_spec {s1 limit fuel s2 matched : Nat}
    (hfuel : limit - s2 < fuel) (hs1 : s1 + matched ≤ s2)
    (hs2 : s2 ≤ limit) (hlimit : limit ≤ input.length) :
    ∃ n, matchWords input s1 limit fuel s2 matched = .ok (matched + n)
      ∧ MatchLength input (s1 + matched) s2 limit n := by
  induction fuel generalizing s2 matched with
  | zero => omega
  | succ fuel ih =>
      rw [matchWords]
      split
      next hword =>
        have hp : s2 + 8 ≤ input.length := by omega
        have hq : s1 + matched + 8 ≤ input.length := by omega
        rw [bind_ok (load64_ok hp), bind_ok (load64_ok hq)]
        split
        next heq =>
          obtain ⟨n, hn, hm⟩ := ih (show limit - (s2 + 8) < fuel by omega)
            (show s1 + (matched + 8) ≤ s2 + 8 by omega) (by omega)
          exact ⟨8 + n, by rw [hn, Nat.add_assoc],
            .extend (matches_of_words hq hp heq.symm) hm⟩
        next hne =>
          obtain ⟨n, hn, hlt, hsame, hdiff⟩ := trailingZeros_xor
            ((length_word hp).trans (length_word hq).symm) hne
          rw [length_word hp] at hn hlt
          refine ⟨n, ?_, ?_, by omega, fun _ => ?_⟩
          · rw [findLsbSetNonZero64, Nat.shiftRight_eq_div_pow]
            exact congrArg (fun k => Except.ok (matched + k)) hn
          · intro i hi
            rw [← getElem?_word (show i < 8 by omega),
              ← getElem?_word (show i < 8 by omega), hsame i hi]
          · rw [← getElem?_word hlt, ← getElem?_word hlt]
            exact hdiff.symm
      next => exact matchBytes_spec hfuel hs1 hs2 hlimit

theorem findMatchLength_spec {s1 s2 limit : Nat} (hs1 : s1 ≤ s2)
    (hs2 : s2 ≤ limit) (hlimit : limit ≤ input.length) :
    ∃ n, findMatchLength input s1 s2 limit = .ok n
      ∧ MatchLength input s1 s2 limit n := by
  obtain ⟨n, hn, hm⟩ := matchWords_spec (Nat.lt_succ_self (limit - s2))
    (show s1 + 0 ≤ s2 from hs1) hs2 hlimit
  rw [Nat.zero_add] at hn
  exact ⟨n, hn, hm⟩

/-- The match `find_match_length` reports, a word at a time and then byte
by byte, is the longest there is below `limit`. -/
theorem findMatchLength_longest {s1 s2 limit : Nat} (hs1 : s1 ≤ s2)
    (hs2 : s2 ≤ limit) (hlimit : limit ≤ input.length) :
    ∃ n, findMatchLength input s1 s2 limit = .ok n
      ∧ ∀ m, Recurs input s1 s2 m ∧ s2 + m ≤ limit ↔ m ≤ n := by
  obtain ⟨n, hn, hmatch⟩ := findMatchLength_spec hs1 hs2 hlimit
  have hinside := hmatch.inside
  refine ⟨n, hn, fun m => ⟨?_, fun hle => ?_⟩⟩
  · -- a longer one would agree where this one stops
    rintro ⟨halike, hm⟩
    by_contra hlong
    exact hmatch.stops (by omega) (halike n (by omega))
  · exact ⟨hmatch.alike.shorten hle, by omega⟩

theorem findMatchLength_longest_eleven :
    ∃ n, findMatchLength [7, 7, 7, 7, 7, 7, 7, 7, 7, 7, 7, 7, 8] 0 1 13
        = .ok n
      ∧ ∀ m, Recurs ([7, 7, 7, 7, 7, 7, 7, 7, 7, 7, 7, 7, 8] : Bytes) 0 1 m
          ∧ 1 + m ≤ 13 ↔ m ≤ n :=
  findMatchLength_longest (by decide) (by decide) (by decide)

-- =============================================================== the table

/-- A hash table of `2 ^ k` positions before `ip`. -/
structure TableOk (k ip : Nat) (table : HashTable) : Prop where
  length : table.length = 2 ^ k
  before : ∀ e ∈ table, e.toNat < ip

theorem hashBytes_lt {k : Nat} (hk : k ≤ 32) (bytes : Nat) :
    hashBytes bytes (32 - k) < 2 ^ k := by
  rw [hashBytes, Nat.shiftRight_eq_div_pow]
  refine Nat.div_lt_of_lt_mul ?_
  rw [← Nat.pow_add, Nat.sub_add_cancel hk]
  exact Nat.mod_lt _ (Nat.two_pow_pos 32)

theorem hash_ok {k p : Nat} (hk : k ≤ 32) (hp : p + 4 ≤ input.length) :
    ∃ h, hash input p (32 - k) = .ok h ∧ h < 2 ^ k := by
  refine ⟨_, ?_, hashBytes_lt hk (leNat ((input.drop p).take 4))⟩
  rw [hash, load32_ok hp]
  rfl

namespace TableOk

variable {k ip h : Nat} {table : HashTable}

theorem get_ok (ht : TableOk k ip table) (hh : h < 2 ^ k) :
    ∃ e, get table h = .ok e ∧ e.toNat < ip := by
  have hlt : h < table.length := by rwa [ht.length]
  exact ⟨_, Object.get_ok (List.getElem?_eq_getElem hlt),
    ht.before _ (List.getElem_mem hlt)⟩

/-- A position before `ip'` may be entered. -/
theorem store_ok {p ip' : Nat} (ht : TableOk k ip table) (hh : h < 2 ^ k)
    (hip : ip ≤ ip') (hp : p < ip') (hp16 : p < 2 ^ 16) :
    ∃ table', store table h [UInt16.ofNat p] = .ok table'
      ∧ TableOk k ip' table' := by
  have hin : h + [UInt16.ofNat p].length ≤ table.length := by
    rw [ht.length, List.length_singleton]
    omega
  refine ⟨_, Object.store_ok hin, ?_, ?_⟩
  · rw [length_overwrite hin, ht.length]
  · intro e he
    rcases mem_overwrite he with he | he
    · exact Nat.lt_of_lt_of_le (ht.before e he) hip
    · rw [List.mem_singleton] at he
      rw [he, UInt16.toNat_ofNat']
      omega

end TableOk

/-- `get_hash_table` gives a table of zeros. -/
theorem getHashTable_ok (n : Nat) :
    ∃ k, k ≤ 32 ∧ (getHashTable n).length = 2 ^ k
      ∧ TableOk k 1 (getHashTable n) := by
  have hsize : ∀ fuel k, k + fuel ≤ 14 →
      ∃ k', k' ≤ 14 ∧ hashTableSize n fuel (2 ^ k) = 2 ^ k' := by
    intro fuel
    induction fuel with
    | zero => exact fun k hk => ⟨k, hk, rfl⟩
    | succ fuel ih =>
        intro k hk
        rw [hashTableSize]
        split
        · rw [← Nat.pow_succ]
          exact ih (k + 1) (by omega)
        · exact ⟨k, by omega, rfl⟩
  obtain ⟨k, hk, hlen⟩ := hsize 6 8 (by omega)
  have hlength : (getHashTable n).length = 2 ^ k := by
    rw [getHashTable, List.length_replicate]
    exact hlen
  refine ⟨k, by omega, hlength, hlength, fun e he => ?_⟩
  rw [List.eq_of_mem_replicate he]
  exact Nat.one_pos

-- ================================================================ the scan

/-- What a scan that has found a match has found. -/
structure Found (input : Bytes) (k ip candidate : Nat) (table : HashTable) :
    Prop where
  margin : ip + 16 ≤ input.length
  behind : candidate < ip
  alike : Recurs input candidate ip 4
  table : TableOk k (ip + 1) table

theorem scan_spec {k fuel ip nextHash skipBytes : Nat} {table : HashTable}
    (hk : k ≤ 32) (h15 : 15 ≤ input.length) (hmax : input.length ≤ kblockSize)
    (hpos : 0 < fuel) (hfuel : input.length - 15 < ip + fuel)
    (hhash : nextHash < 2 ^ k) (hskip : 32 ≤ skipBytes)
    (htable : TableOk k ip table) :
    ∃ r, scan input (input.length - 15) (32 - k) fuel ip nextHash skipBytes
        table = .ok r
      ∧ ∀ ip' candidate table', r = some (ip', candidate, table') →
          ip ≤ ip' ∧ Found input k ip' candidate table' := by
  induction fuel generalizing ip nextHash skipBytes table with
  | zero => omega
  | succ fuel ih =>
      have hstep : 1 ≤ skipBytes >>> 5 := by
        rw [Nat.shiftRight_eq_div_pow]
        omega
      simp only [scan]
      split
      next => exact ⟨none, rfl, fun _ _ _ h => by cases h⟩
      next hnext =>
        rw [kblockSize] at hmax
        obtain ⟨h, hh, hlt⟩ := hash_ok hk
          (show ip + skipBytes >>> 5 + 4 ≤ input.length by omega)
        obtain ⟨e, he, hbefore⟩ := htable.get_ok hhash
        obtain ⟨table', hstore, htable'⟩ := htable.store_ok hhash
          (Nat.le_succ ip) (Nat.lt_succ_self ip) (by omega)
        have hip : ip + 4 ≤ input.length := by omega
        have hcandidate : e.toNat + 4 ≤ input.length := by omega
        rw [bind_ok hh, bind_ok he, bind_ok hstore,
          bind_ok (load32_ok hip), bind_ok (load32_ok hcandidate)]
        split
        next =>
          obtain ⟨r, hr, hfound⟩ := ih (by omega)
            (show input.length - 15 < ip + skipBytes >>> 5 + fuel by omega)
            hlt (Nat.le_succ_of_le hskip)
            ⟨htable'.length, fun e he => by
              have := htable'.before e he
              omega⟩
          refine ⟨r, hr, fun ip' candidate table' h => ?_⟩
          have := hfound ip' candidate table' h
          exact ⟨by omega, this.2⟩
        next heq =>
          refine ⟨_, rfl, fun ip' candidate table'' h => ?_⟩
          cases h
          exact ⟨Nat.le_refl _, by omega, hbefore,
            matches_of_words hcandidate hip
              (Decidable.not_not.mp heq).symm, htable'⟩

-- ========================================================= what code covers

/-- The code writes items that lead from the input up to `start` to the
input up to `stop`. -/
structure Covers {β : Type} (input : Bytes) (x : Emit Byte β) (room : Nat)
    (items : List (Item Byte)) (start stop : Nat) (b : β) : Prop where
  writes : Writes x room (encode items) b
  encodable : ∀ item ∈ items, Encodable item
  parse : ∀ pre : Bytes,
    Parse items (pre ++ input.take start) (pre ++ input.take stop)

theorem Covers.bind {β γ : Type} {x : Emit Byte β} {f : β → Emit Byte γ}
    {b : β} {c : γ} {m n room start mid stop : Nat}
    {items₁ items₂ : List (Item Byte)}
    (h₁ : Covers input x m items₁ start mid b)
    (h₂ : Covers input (f b) n items₂ mid stop c) (hm : m ≤ room)
    (hn : (encode items₁).length + n ≤ room) :
    Covers input (x >>= f) room (items₁ ++ items₂) start stop c where
  writes := by
    rw [encode_append]
    exact h₁.writes.bind h₂.writes hm hn
  encodable := List.forall_mem_append.mpr ⟨h₁.encodable, h₂.encodable⟩
  parse := fun pre => (h₁.parse pre).append (h₂.parse pre)

theorem Covers.nothing {β : Type} (start : Nat) (b : β) :
    Covers input (pure b) 0 [] start start b :=
  ⟨.pure b, by simp, fun _ => .nil _⟩

theorem Covers.more {β : Type} {x : Emit Byte β} {b : β}
    {m n start stop : Nat} {items : List (Item Byte)}
    (h : Covers input x m items start stop b) (hle : m ≤ n) :
    Covers input x n items start stop b :=
  ⟨h.writes.more hle, h.encodable, h.parse⟩

/-- A literal covers its bytes. -/
theorem emitLiteral_covers {start stop room : Nat} {fast : Bool}
    (hlt : start < stop) (hin : stop ≤ input.length)
    (hmax : input.length ≤ kblockSize)
    (hroom : (literalHead (stop - start)).length + (stop - start) ≤ room)
    (hfastIn : fast = true → start + 16 ≤ input.length)
    (hfastRoom : fast = true → 17 ≤ room) :
    Covers input (emitLiteral input start (stop - start) fast) room
      [.literal ((input.drop start).take (stop - start))] start stop () := by
  have hlen : ((input.drop start).take (stop - start)).length
      = stop - start := length_word (by omega)
  refine ⟨?_, ?_, fun pre => .one ?_⟩
  · rw [encode_cons, encode_nil, List.append_nil]
    exact emitLiteral_writes (by omega) (by omega) hroom hfastIn hfastRoom
  · rw [kblockSize] at hmax
    intro item hitem
    rw [List.mem_singleton] at hitem
    subst hitem
    exact ⟨by omega, by omega⟩
  · show pre ++ input.take stop = pre ++ input.take start ++ _
    rw [List.append_assoc, ← List.take_add,
      Nat.add_sub_cancel' (Nat.le_of_lt hlt)]

/-- A match covers its bytes, in fewer than they are. -/
theorem emitCopy_covers {candidate ip len : Nat} (hbehind : candidate < ip)
    (hlen : ip + len ≤ input.length) (hmax : input.length ≤ kblockSize)
    (h4 : 4 ≤ len) (halike : Recurs input candidate ip len) :
    ∃ items, Covers input (emitCopy (ip - candidate) len)
        (encode items).length items ip (ip + len) ()
      ∧ (encode items).length + 1 ≤ len := by
  rw [kblockSize] at hmax
  obtain ⟨items, hw, henc, hshort, hparse⟩ :=
    emitCopy_writes (show ip - candidate < 65536 by omega) h4
  exact ⟨items, ⟨hw, henc, fun pre =>
    hparse _ _ (halike.copies pre hbehind hlen)⟩, hshort⟩

-- ================================================================ the copies

/-- Where `copyLoop` leaves the main loop, if it does not end it. -/
def Resumes (input : Bytes) (k ip : Nat) :
    Option (Nat × HashTable) → Prop
  | none => True
  | some (nextHash, table) =>
      ip + 15 < input.length ∧ nextHash < 2 ^ k ∧ TableOk k (ip + 1) table

theorem copyLoop_covers {k fuel ip candidate : Nat} {table : HashTable}
    (hk : k ≤ 32) (hmax : input.length ≤ kblockSize)
    (hfuel : input.length < ip + fuel)
    (hin : ip + 4 ≤ input.length) (hbehind : candidate < ip)
    (halike : Recurs input candidate ip 4)
    (htable : TableOk k (ip + 1) table) :
    ∃ items ip' next, Covers input
        (copyLoop input (input.length - 15) (32 - k) fuel ip candidate table)
        (encode items).length items ip ip' (ip', next)
      ∧ ip' ≤ input.length ∧ ip + (encode items).length < ip'
      ∧ Resumes input k ip' next := by
  induction fuel generalizing ip candidate table with
  | zero => omega
  | succ fuel ih =>
      obtain ⟨n, hn, hmatch⟩ :=
        findMatchLength_spec (show candidate + 4 ≤ ip + 4 by omega) hin
          (Nat.le_refl input.length)
      have hinside := hmatch.inside
      obtain ⟨items₁, hcovers₁, hshort⟩ := emitCopy_covers hbehind
        (show ip + (4 + n) ≤ input.length by omega) hmax
        (Nat.le_add_right 4 n) (halike.append hmatch.alike)
      simp only [copyLoop]
      rw [emit_lift hn]
      -- one copy, and then nothing or another round
      suffices hrest : ∃ items₂ ip' next, Covers input _
          (encode items₂).length items₂ (ip + (4 + n)) ip' (ip', next)
          ∧ ip' ≤ input.length
          ∧ ip + (4 + n) + (encode items₂).length ≤ ip'
          ∧ Resumes input k ip' next by
        obtain ⟨items₂, ip', next, hcovers₂, hle, hlen, hnext⟩ := hrest
        refine ⟨items₁ ++ items₂, ip', next, ?_, hle, ?_, hnext⟩
        · rw [encode_append, List.length_append]
          exact hcovers₁.bind hcovers₂ (Nat.le_add_right _ _)
            (Nat.le_refl _)
        · rw [encode_append, List.length_append]
          omega
      split
      next => exact ⟨[], _, none, .nothing _ _, by omega, by simp, trivial⟩
      next hnear =>
        rw [kblockSize] at hmax
        have hword : ip + (4 + n) - 1 + 8 ≤ input.length := by omega
        obtain ⟨table₁, hstore₁, htable₁⟩ := htable.store_ok
          (hashBytes_lt hk (getU32AtOffset
            (leNat ((input.drop (ip + (4 + n) - 1)).take 8)) 0))
          (show ip + 1 ≤ ip + (4 + n) by omega)
          (show ip + (4 + n) - 1 < ip + (4 + n) by omega) (by omega)
        obtain ⟨e, he, hbefore⟩ := htable₁.get_ok
          (hashBytes_lt hk (getU32AtOffset
            (leNat ((input.drop (ip + (4 + n) - 1)).take 8)) 1))
        obtain ⟨table₂, hstore₂, htable₂⟩ := htable₁.store_ok
          (hashBytes_lt hk (getU32AtOffset
            (leNat ((input.drop (ip + (4 + n) - 1)).take 8)) 1))
          (Nat.le_succ _) (Nat.lt_succ_self (ip + (4 + n))) (by omega)
        have hcandidate : e.toNat + 4 ≤ input.length := by omega
        rw [emit_lift (load64_ok hword), emit_lift hstore₁, emit_lift he,
          emit_lift (load32_ok hcandidate), emit_lift hstore₂]
        split
        next heq =>
          -- the bytes compared are those at `ip`
          rw [getU32AtOffset_leNat (by rw [length_word hword]; omega),
            List.drop_take, List.drop_drop, List.take_take,
            Nat.sub_add_cancel (by omega)] at heq
          obtain ⟨items₂, ip', next, hcovers₂, hle, hlen, hnext⟩ :=
            ih (by omega) (by omega) hbefore
              (matches_of_words hcandidate (by omega) heq.symm) htable₂
          exact ⟨items₂, ip', next, hcovers₂, hle, by omega, hnext⟩
        next =>
          exact ⟨[], _, _, .nothing _ _, by omega, by simp,
            by omega, hashBytes_lt hk _, htable₂⟩

-- =============================================================== a fragment

/-- The room a fragment of `n` bytes takes, in any event. -/
def fragmentRoom (n : Nat) : Nat := n + n / 61 + 1

theorem fragmentLoop_covers {k fuel ip nextHash nextEmit : Nat}
    {table : HashTable} (hk : k ≤ 32) (hmax : input.length ≤ kblockSize)
    (hfuel : input.length < ip + fuel) (hmargin : ip + 14 ≤ input.length)
    (hemit : nextEmit < ip) (hhash : nextHash < 2 ^ k)
    (htable : TableOk k ip table) :
    ∃ items stop, Covers input
        (fragmentLoop input (input.length - 15) (32 - k) fuel ip nextHash
          nextEmit table)
        (fragmentRoom (input.length - nextEmit)) items nextEmit stop stop
      ∧ nextEmit ≤ stop ∧ stop ≤ input.length
      ∧ 61 * (encode items).length ≤ 62 * (stop - nextEmit) := by
  induction fuel generalizing ip nextHash nextEmit table with
  | zero => omega
  | succ fuel ih =>
      obtain ⟨r, hr, hfound⟩ := scan_spec hk (show 15 ≤ input.length by omega)
        hmax (show 0 < input.length by omega)
        (show input.length - 15 < ip + input.length by omega) hhash
        (Nat.le_refl 32) htable
      rw [fragmentLoop, emit_lift hr]
      cases r with
      | none =>
          exact ⟨[], nextEmit, (Covers.nothing _ _).more (Nat.zero_le _),
            Nat.le_refl _, by omega, by simp⟩
      | some r =>
          obtain ⟨ip₁, candidate, table₁⟩ := r
          obtain ⟨hip₁, hf⟩ := hfound _ _ _ rfl
          have hmargin₁ := hf.margin
          have hhead := literalHead_length
            (show 0 < ip₁ - nextEmit by omega)
            (show ip₁ - nextEmit ≤ 65536 by rw [kblockSize] at hmax; omega)
          have hliteral : Covers input
              (emitLiteral input nextEmit (ip₁ - nextEmit) true)
              (fragmentRoom (input.length - nextEmit))
              [.literal ((input.drop nextEmit).take (ip₁ - nextEmit))]
              nextEmit ip₁ () :=
            emitLiteral_covers (by omega) (by omega) hmax
              (by rw [fragmentRoom]; omega) (fun _ => by omega)
              (fun _ => by rw [fragmentRoom]; omega)
          obtain ⟨items₁, ip₂, next, hcopies, hip₂, hlen₁, hresumes⟩ :=
            copyLoop_covers hk hmax
              (show input.length < ip₁ + input.length by omega) (by omega)
              hf.behind hf.alike hf.table
          have hlen₀ : (encode [Item.literal
              ((input.drop nextEmit).take (ip₁ - nextEmit))]).length
              = (literalHead (ip₁ - nextEmit)).length + (ip₁ - nextEmit) := by
            rw [encode_cons, encode_nil, List.append_nil, itemBytes,
              List.length_append, length_word (by omega)]
          -- literal and copies, and then nothing or another round
          suffices hrest : ∃ items₂ stop, Covers input _
              (fragmentRoom (input.length - ip₂)) items₂ ip₂ stop stop
              ∧ ip₂ ≤ stop ∧ stop ≤ input.length
              ∧ 61 * (encode items₂).length ≤ 62 * (stop - ip₂) by
            obtain ⟨items₂, stop, hcovers₂, hle, hstop, hlen₂⟩ := hrest
            refine ⟨_, stop, hliteral.bind
              (hcopies.bind hcovers₂ (Nat.le_add_right _ _) (Nat.le_refl _))
              (Nat.le_refl _) ?_, by omega, hstop, ?_⟩
            · rw [hlen₀, fragmentRoom, fragmentRoom]
              omega
            · rw [encode_append, encode_append, List.length_append,
                List.length_append, hlen₀]
              omega
          cases next with
          | none =>
              exact ⟨[], ip₂, (Covers.nothing _ _).more (Nat.zero_le _),
                Nat.le_refl _, hip₂, by simp⟩
          | some next =>
              obtain ⟨nextHash₂, table₂⟩ := next
              obtain ⟨hnear, hhash₂, htable₂⟩ := hresumes
              exact ih (show input.length < ip₂ + 1 + fuel by omega)
                (by omega) (Nat.lt_succ_self ip₂) hhash₂ htable₂

theorem compressMatches_covers {k : Nat} {table : HashTable} (hk : k ≤ 32)
    (hmax : input.length ≤ kblockSize) (htable : TableOk k 1 table) :
    ∃ items stop, Covers input (compressMatches input (32 - k) table)
        (fragmentRoom input.length) items 0 stop stop
      ∧ stop ≤ input.length ∧ 61 * (encode items).length ≤ 62 * stop := by
  rw [compressMatches]
  split
  next h15 =>
    obtain ⟨h, hh, hlt⟩ := hash_ok hk (show 1 + 4 ≤ input.length by omega)
    obtain ⟨items, stop, hcovers, -, hstop, hlen⟩ :=
      fragmentLoop_covers hk hmax
        (show input.length < 1 + input.length by omega) (by omega)
        Nat.one_pos hlt htable
    rw [emit_lift hh]
    exact ⟨items, stop, hcovers, hstop, hlen⟩
  next =>
    exact ⟨[], 0, (Covers.nothing _ _).more (Nat.zero_le _), Nat.zero_le _,
      by simp⟩

/-- `compress_fragment` covers its input, and nothing it writes or loads
on the way is outside. -/
theorem compressFragment_covers (hmax : input.length ≤ kblockSize) (n : Nat) :
    ∃ items, Covers input (compressFragment input (getHashTable n))
        (fragmentRoom input.length) items 0 input.length ()
      ∧ (encode items).length ≤ fragmentRoom input.length := by
  obtain ⟨k, hk, hlen, htable⟩ := getHashTable_ok n
  obtain ⟨items₁, stop, hcovers₁, hstop, hlen₁⟩ :=
    compressMatches_covers hk hmax htable
  simp only [compressFragment, hlen, Nat.log2_two_pow]
  suffices hrest : ∃ items₂, Covers input _
      (fragmentRoom input.length - (encode items₁).length) items₂ stop
        input.length ()
      ∧ (encode items₁).length + (encode items₂).length
        ≤ fragmentRoom input.length by
    obtain ⟨items₂, hcovers₂, hlen₂⟩ := hrest
    refine ⟨items₁ ++ items₂,
      hcovers₁.bind hcovers₂ (Nat.le_refl _) ?_, ?_⟩
    · omega
    · rw [encode_append, List.length_append]
      exact hlen₂
  split
  next hlt =>
    have hhead := literalHead_length
      (show 0 < input.length - stop by omega)
      (show input.length - stop ≤ 65536 by rw [kblockSize] at hmax; omega)
    have hroom : (encode items₁).length
        + ((literalHead (input.length - stop)).length
          + (input.length - stop)) ≤ fragmentRoom input.length := by
      rw [fragmentRoom]
      omega
    refine ⟨_, emitLiteral_covers hlt (Nat.le_refl _) hmax (by omega)
      (fun h => by cases h) (fun h => by cases h), ?_⟩
    rw [encode_cons, encode_nil, List.append_nil, itemBytes,
      List.length_append, length_word (by omega)]
    exact hroom
  next hge =>
    obtain rfl : stop = input.length := by omega
    refine ⟨[], (Covers.nothing _ _).more (Nat.zero_le _), ?_⟩
    rw [encode_nil, List.length_nil, fragmentRoom]
    omega

end FineDB.Snappy

/-
The values of GETs, on both sides of the connection.

The reader. `finedb_get` reads its response in whatever pieces arrive.
`getResponse_reads` takes the pieces away: its calls are reads, and then
what `getJudged` does with the bytes they brought.

The buffers. Both programs decode a value into a buffer whose size they
ask `snappy_uncompressed_length` for, without looking at whether it
answered, and the server does not look at whether it got the buffer. A
buffer fits the decoder (`RoomFor`) as long as the first reader of the
header accepts what the second does (`decode_room_iff`); else its size
is an accident.

The round trip. What `connection_send_response` sends for a value is
what `finedb_get` returns, however it is cut into pieces; a response
that is cut short is an error (`response_roundtrip`).
-/
import FineDB.Lib.Lockstep
import FineDB.Model.Wire
import FineDB.Proofs.Verdict

namespace FineDB

open Effect Mvcc

variable {Dbi : Type}

-- ============================================================= the reader

/-- The data at the head of a byte string: their length in four bytes,
and the data themselves. -/
def takeData (R : Bytes) : Option Bytes :=
  let len := beNat (R.take 4)
  if R.length < 4 + len then none else some ((R.drop 4).take len)

theorem takeData_short {R : Bytes} (h : R.length < 4) :
    takeData R = none := if_pos (by omega)

theorem takeData_append {len R : Bytes} (h : len.length = 4) :
    takeData (len ++ R)
      = if R.length < beNat len then none
        else some (R.take (beNat len)) := by
  simp only [takeData, ← h, List.take_left, List.drop_left,
    List.length_append, Nat.add_lt_add_iff_left]

/-- `finedb_get` once the data are in the container. -/
def getFound (code : Byte) (data : Bytes) :
    Client (FinedbResult × Bytes) :=
  if data = [] then return (.FINEDB_OK, [])
  else do
    if ← lib (.ymalloc data.length) then getValue code data
    else return (.FINEDB_ERR_MEMORY, [])

/-- What is left for it to do if `R` is all it reads after the first
byte. -/
def getTaken (code : Byte) (R : Bytes) : Client (FinedbResult × Bytes) :=
  match takeData R with
  | none => return (.FINEDB_ERR_NETWORK, [])
  | some data => getFound code data

/-- What is left for it to do if `R` is all it reads. -/
def getJudged : Bytes → Client (FinedbResult × Bytes)
  | [] => return (.FINEDB_ERR_NETWORK, [])
  | code :: R =>
      if responseStatus code ≠ ResponseCode.RESP_OK.toByte then
        return (.FINEDB_ERR_SERVER, [])
      else getTaken code R

/-- A trace of reads followed by a trace of `p`, unless a read brought
bytes there was no memory for. -/
def ReadsThen (p : Bytes → Client (FinedbResult × Bytes))
    (container : Bytes) (tr : ClientTrace) (r : FinedbResult × Bytes) :
    Prop :=
  ∃ reads rest, tr = reads ++ rest ∧ OnlyReads reads ∧
    ((Loses reads ∧ rest = [] ∧ r = (.FINEDB_ERR_NETWORK, []))
      ∨ (p (container ++ received reads)).Exec rest r)

/-- Nothing is read. -/
private theorem readsThen_of_eq
    {p : Bytes → Client (FinedbResult × Bytes)}
    {q : Client (FinedbResult × Bytes)} {container : Bytes}
    (h : p container = q) : q.Traces (ReadsThen p container) := by
  refine Prog.traces_iff.mpr fun tr r hexec =>
    ⟨[], tr, rfl, by simp [OnlyReads], Or.inr ?_⟩
  show (p (container ++ [])).Exec tr r
  rwa [List.append_nil, h]

/-- A field is read, and then the rest. -/
private theorem readsThen_readField
    {p : Bytes → Client (FinedbResult × Bytes)}
    {k : Option (Bytes × Bytes) → Client (FinedbResult × Bytes)}
    {size : Nat} {container : Bytes}
    (hnone : k none = .ret (.FINEDB_ERR_NETWORK, []))
    (hshort : ∀ R : Bytes, R.length < size →
      p R = .ret (.FINEDB_ERR_NETWORK, []))
    (hsome : ∀ x y : Bytes, x.length = size →
      (k (some (x, y))).Traces (ReadsThen (fun R => p (x ++ R)) y)) :
    (readField size container >>= k).Traces (ReadsThen p container) := by
  refine Prog.traces_bind.mpr (Prog.traces_iff.mpr fun tr r hexec => ?_)
  obtain ⟨hreads, hr⟩ :=
    Prog.traces_iff.mp (readField_spec size container) tr r hexec
  cases r with
  | none =>
      rw [hnone]
      refine ⟨tr, [], rfl, hreads, ?_⟩
      rcases hr with hlost | hlen
      · exact Or.inl ⟨hlost, rfl, rfl⟩
      · refine Or.inr ?_
        rw [hshort _ hlen]
        exact ⟨rfl, rfl⟩
  | some xy =>
      obtain ⟨x, y⟩ := xy
      obtain ⟨hxy, hsize⟩ := hr
      refine Prog.traces_iff.mpr fun tr' r' hexec' => ?_
      obtain ⟨reads, rest, rfl, hreads', hdone⟩ :=
        Prog.traces_iff.mp (hsome x y hsize) tr' r' hexec'
      refine ⟨tr ++ reads, rest, (List.append_assoc ..).symm,
        List.forall_mem_append.mpr ⟨hreads, hreads'⟩, ?_⟩
      rcases hdone with ⟨⟨chunk, hchunk⟩, hrest⟩ | hdone
      · exact Or.inl ⟨⟨chunk, List.mem_append_right _ hchunk⟩, hrest⟩
      · refine Or.inr ?_
        rwa [received_append, ← List.append_assoc, ← hxy, List.append_assoc]

private theorem getData_reads (code : Byte) (container : Bytes) :
    (getData code container).Traces
      (ReadsThen (getTaken code) container) := by
  refine readsThen_readField rfl (fun R hR => ?_) fun len rest hfour => ?_
  · rw [getTaken, takeData_short hR]
    rfl
  · show (if _ then _ else _ : Client (FinedbResult × Bytes)).Traces _
    split
    next hzero =>
      -- no data: nothing more is read
      refine readsThen_of_eq ?_
      rw [getTaken, takeData_append hfour, hzero, if_neg (by omega)]
      rfl
    next hpos =>
      refine readsThen_readField rfl (fun R hR => ?_) fun data more hlen => ?_
      · rw [getTaken, takeData_append hfour, if_pos hR]
        rfl
      · refine readsThen_of_eq ?_
        have hdata : data ≠ [] := by
          rintro rfl
          exact hpos hlen.symm
        rw [getTaken, takeData_append hfour,
          if_neg (by rw [List.length_append]; omega), ← hlen,
          List.take_left]
        exact if_neg hdata

/-- However the response arrives: after its reads, `finedb_get` goes on
as the bytes they brought say. -/
theorem getResponse_reads :
    getResponse.Traces (ReadsThen getJudged []) := by
  refine readsThen_readField rfl (fun R hR => ?_) fun x rest hone => ?_
  · cases R with
    | nil => rfl
    | cons code R => simp at hR
  · obtain ⟨code, rfl⟩ := List.length_eq_one_iff.mp hone
    show (if _ then _ else _ : Client (FinedbResult × Bytes)).Traces _
    split
    next hstatus => exact readsThen_of_eq (if_pos hstatus)
    next hstatus =>
      have hjudged : (fun R => getJudged ([code] ++ R)) = getTaken code :=
        funext fun R => if_neg hstatus
      rw [hjudged]
      exact getData_reads code rest

/-- After its reads it reads no more. -/
private theorem getJudged_received (R : Bytes) :
    (getJudged R).Traces fun tr _ => received tr = [] := by
  have hfound : ∀ code data, (getFound code data).Traces
      fun tr _ => received tr = [] := by
    intro code data
    unfold getFound
    split
    · exact rfl
    · intro ok
      cases ok with
      | false => exact rfl
      | true =>
          refine Prog.traces_iff.mpr fun tr r hexec => ?_
          exact (Prog.traces_iff.mp (getValue_spec code data) tr r hexec).1
  cases R with
  | nil => exact rfl
  | cons code R =>
      show (if _ then _ else getTaken code R :
        Client (FinedbResult × Bytes)).Traces _
      split
      · exact rfl
      · unfold getTaken
        split
        · exact rfl
        · exact hfound _ _

/-- What the server sends for a value brings the client to the value,
whatever follows. -/
theorem getJudged_response (serialized compressed : Bool) {data : Bytes}
    (hdata : data.length < 2 ^ 32) (rest : Bytes) :
    getJudged (responseBytes .RESP_OK serialized compressed (some data)
        ++ rest)
      = getFound (responseByte .RESP_OK serialized compressed) data := by
  have hstatus : responseStatus (responseByte .RESP_OK serialized compressed)
      = ResponseCode.RESP_OK.toByte :=
    (odd_code_iff (by decide) serialized compressed).mpr (Or.inl rfl)
  have hlen : beNat (beBytes 4 data.length) = data.length := by
    rw [beNat_beBytes]
    exact Nat.mod_eq_of_lt hdata
  rw [responseBytes_eq, List.cons_append, List.append_assoc, getJudged,
    if_neg (not_not.mpr hstatus), getTaken,
    takeData_append (beBytes_length ..), hlen,
    if_neg (by rw [List.length_append]; omega), List.take_left]

-- ============================================================ the buffers

/-- The length `snappy_uncompress` itself reads from a stream. -/
def expectedLength (z : Bytes) : Option Nat :=
  (readUncompressedLength 0 0 z).map (·.1)

theorem expectedLength_of_some {z : Bytes} {n : Nat}
    (h : snappyUncompressedLength z = some n) :
    expectedLength z = some n := by
  obtain ⟨⟨n', ip⟩, hparse, rfl⟩ := Option.map_eq_some_iff.mp h
  rw [expectedLength, varintParse32_some (by omega) (by omega) hparse]
  rfl

/-- A buffer, `none` being NULL, with room for all that
`snappy_uncompress` may write. -/
def RoomFor (z : Bytes) (buf : Option Nat) : Prop :=
  ∃ n, buf = some n ∧ ∀ len, expectedLength z = some len → len ≤ n

/-- What matters of a trace here: allocations, values of a variable that
was not written, and decodings with their buffer. -/
inductive UnzipEvent
  | alloc (ok : Bool)
  | stack (n : Nat)
  | decode (z : Bytes) (buf : Option Nat)
deriving DecidableEq

def serverUnzip : Event (serverSig Dbi) → Option UnzipEvent
  | ⟨.other (.ymalloc _), ok⟩ => some (.alloc ok)
  | ⟨.other .indeterminateSize, n⟩ => some (.stack n)
  | ⟨.other (.snappyUncompress z buf), _⟩ => some (.decode z buf)
  | _ => none

def clientUnzip : Event clientSig → Option UnzipEvent
  | ⟨.ymalloc _, ok⟩ => some (.alloc ok)
  | ⟨.indeterminateSize, n⟩ => some (.stack n)
  | ⟨.snappyUncompress z len, _⟩ => some (.decode z (some len))
  | _ => none

/-- `snappy_uncompress` is called only with room for what it may write;
if a value that is not empty is not decoded, an error is reported. -/
def SafeDecode (z : Bytes) (evs : List UnzipEvent) (error : Prop) : Prop :=
  (∀ z' buf, .decode z' buf ∈ evs → RoomFor z' buf)
    ∧ (z ≠ [] → (∀ z' buf, .decode z' buf ∉ evs) → error)

/-- If `snappy_uncompressed_length` refuses a stream that the decoder
accepts, the variable happens to hold enough. -/
def StackRoom (z : Bytes) (evs : List UnzipEvent) : Prop :=
  snappyUncompressedLength z = none → ∀ len, expectedLength z = some len →
    ∀ n, .stack n ∈ evs → len ≤ n

/-- Nothing is allocated or decoded. -/
private theorem safeDecode_nil {z : Bytes} {error : Prop}
    (h : z ≠ [] → error) : SafeDecode z [] error :=
  ⟨by simp, fun hz _ => h hz⟩

private theorem stackRoom_nil (z : Bytes) : StackRoom z [] := by
  simp [StackRoom]

private theorem safeDecode_decode {z z' : Bytes} {buf : Option Nat}
    {evs : List UnzipEvent} {error : Prop}
    (hevs : ∀ z'' buf', .decode z'' buf' ∉ evs) :
    SafeDecode z (evs ++ [.decode z' buf]) error ↔ RoomFor z' buf := by
  constructor
  · intro h
    exact h.1 z' buf (by simp)
  · intro h
    refine ⟨fun z'' buf' hmem => ?_, fun _ hno => ?_⟩
    · rcases List.mem_append.mp hmem with hmem | hmem
      · exact absurd hmem (hevs z'' buf')
      · obtain ⟨rfl, rfl⟩ := UnzipEvent.decode.inj (List.mem_singleton.mp hmem)
        exact h
    · exact absurd (List.mem_append_right _ List.mem_cons_self) (hno z' buf)

/-- `n` is what `unzip_len` holds before the allocation. -/
private def Measured (z : Bytes) (n : Nat) (evs : List UnzipEvent) : Prop :=
  (snappyUncompressedLength z = some n ∧ evs = [])
    ∨ (snappyUncompressedLength z = none ∧ evs = [.stack n])

private theorem Measured.no_decode {z : Bytes} {n : Nat}
    {evs : List UnzipEvent} (h : Measured z n evs) (ok : Bool) :
    ∀ z' buf, .decode z' buf ∉ evs ++ [.alloc ok] := by
  obtain ⟨-, rfl⟩ | ⟨-, rfl⟩ := h
  · simp
  · simp

/-- A buffer of that length has room exactly if the variable has. -/
private theorem Measured.room_iff {z : Bytes} {n : Nat}
    {evs l : List UnzipEvent} (h : Measured z n evs)
    (hl : ∀ k, .stack k ∈ l ↔ .stack k ∈ evs) :
    RoomFor z (some n) ↔ StackRoom z l := by
  have hroom : RoomFor z (some n)
      ↔ ∀ len, expectedLength z = some len → len ≤ n := by
    simp [RoomFor]
  rw [hroom]
  rcases h with ⟨hlen, rfl⟩ | ⟨hlen, rfl⟩
  · constructor
    · intro _ hnone
      rw [hlen] at hnone
      cases hnone
    · intro _ len hexp
      rw [expectedLength_of_some hlen] at hexp
      exact le_of_eq (Option.some.inj hexp).symm
  · constructor
    · intro h _ len hexp k hk
      obtain rfl : k = n :=
        UnzipEvent.stack.inj (List.mem_singleton.mp ((hl k).mp hk))
      exact h len hexp
    · intro h len hexp
      exact h hlen len hexp n ((hl n).mpr List.mem_cons_self)

-- -------------------------------------------------------------- the server

/-- The value an event of the server brought from the database. -/
def foundBy : Event (serverSig Dbi) → Option Bytes
  | ⟨.access _ (.get _ _), .ok z⟩ => some z
  | _ => none

/-- A lookup decodes nothing and finds what it returns. -/
private theorem databaseGet_found (transaction : Option Nat)
    (name : Option Bytes) (key : Bytes) :
    (databaseGet transaction name key : Server Dbi _).Traces fun tr r =>
      tr.filterMap serverUnzip = []
        ∧ tr.filterMap foundBy = match r with
          | .ok z => [z]
          | .error _ => [] := by
  have herror : ∀ rc : MdbRc, ∃ e, getRetval (.error rc) = .error e := by
    intro rc
    cases rc with
    | _ => exact ⟨_, rfl⟩
  cases transaction with
  | some t =>
      intro ret
      cases ret with
      | refused rc => exact fun _ _ => ⟨rfl, rfl⟩
      | opened dbi created =>
          intro rc _
          cases rc with
          | ok z => exact ⟨rfl, rfl⟩
          | error rc =>
              obtain ⟨e, he⟩ := herror rc
              rw [he]
              exact ⟨rfl, rfl⟩
  | none =>
      intro t
      cases t with
      | none => exact ⟨rfl, rfl⟩
      | some t =>
          intro ret
          cases ret with
          | refused rc => exact fun _ _ => ⟨rfl, rfl⟩
          | opened dbi created =>
              intro rc _ _
              cases rc with
              | ok z => exact ⟨rfl, rfl⟩
              | error rc =>
                  obtain ⟨e, he⟩ := herror rc
                  rw [he]
                  exact ⟨rfl, rfl⟩

/-- What comes after the lookup finds nothing. -/
private theorem commandGetAnswer_found (f : Flags)
    (ret : Except Yerr Bytes) :
    (commandGetAnswer f ret : Server Dbi _).Traces fun tr _ =>
      tr.filterMap foundBy = [] := by
  have hcalls : (commandGetAnswer f ret : Server Dbi _).Calls
      (Allows true true false none) := commandGetAnswer_allows f ret
  refine hcalls.traces fun tr _ htr => List.filterMap_eq_nil_iff.mpr ?_
  intro ⟨c, r⟩ he
  have hc := htr _ he
  cases c with
  | access t a => rcases hc with hc | hc <;> cases hc
  | _ => rfl

/-- The decoding in `command_get`: the buffer is the one asked for, or
NULL. -/
private theorem commandGetUncompress_unzip (z : Bytes) :
    (commandGetUncompress z : Server Dbi _).Traces fun tr _ =>
      ∃ evs n ok, Measured z n evs
        ∧ tr.filterMap serverUnzip = evs ++ [.alloc ok,
            .decode z (if ok then some n else none)] := by
  have hinto : ∀ n, (uncompressInto z n : Server Dbi _).Traces fun tr _ =>
      ∃ ok, tr.filterMap serverUnzip = [.alloc ok,
        .decode z (if ok then some n else none)] := by
    intro n ok out
    cases out with
    | none => exact ⟨ok, rfl⟩
    | some out => exact ⟨ok, rfl⟩
  unfold commandGetUncompress unzipLength
  cases hlen : snappyUncompressedLength z with
  | some n =>
      refine Prog.traces_iff.mpr fun tr r hexec => ?_
      obtain ⟨ok, hok⟩ := Prog.traces_iff.mp (hinto n) tr r hexec
      exact ⟨[], n, ok, Or.inl ⟨hlen, rfl⟩, hok⟩
  | none =>
      intro n
      refine Prog.traces_iff.mpr fun tr r hexec => ?_
      obtain ⟨ok, hok⟩ := Prog.traces_iff.mp (hinto n) tr r hexec
      refine ⟨[.stack n], n, ok, Or.inr ⟨hlen, rfl⟩, ?_⟩
      rw [List.filterMap_cons_some (by rfl), hok]
      rfl

private theorem commandGetAnswer_unzip {f : Flags} (z : Bytes)
    (hf : f.compress = false) :
    (commandGetAnswer f (.ok z) : Server Dbi _).Traces fun tr ret =>
      (SafeDecode z (tr.filterMap serverUnzip) (ret ≠ .YENOERR)
        ↔ .alloc false ∉ tr.filterMap serverUnzip
          ∧ StackRoom z (tr.filterMap serverUnzip)) := by
  unfold commandGetAnswer
  dsimp only
  split
  next hz =>
    refine Prog.traces_bind.mpr (Prog.traces_iff.mpr fun tr out hexec => ?_)
    obtain ⟨evs, n, ok, hmeas, htr⟩ :=
      Prog.traces_iff.mp (commandGetUncompress_unzip z) tr out hexec
    have hsplit : evs ++ [.alloc ok, .decode z (if ok then some n else none)]
        = evs ++ [.alloc ok] ++ [.decode z (if ok then some n else none)] := by
      rw [List.append_assoc]
      rfl
    have halloc : .alloc false ∉ evs ++ [.alloc ok,
        .decode z (if ok then some n else none)] ↔ ok = true := by
      obtain ⟨-, rfl⟩ | ⟨-, rfl⟩ := hmeas
      · simp
      · simp
    have hdone : ∀ (tr' : List (Event (serverSig Dbi))) (ret : Yerr),
        tr'.filterMap serverUnzip = [] →
        (SafeDecode z ((tr ++ tr').filterMap serverUnzip) (ret ≠ .YENOERR)
          ↔ .alloc false ∉ (tr ++ tr').filterMap serverUnzip
            ∧ StackRoom z ((tr ++ tr').filterMap serverUnzip)) := by
      intro tr' ret htr'
      rw [List.filterMap_append, htr', List.append_nil, htr, halloc,
        ← hmeas.room_iff (by simp), hsplit,
        safeDecode_decode (hmeas.no_decode ok)]
      cases ok with
      | true => simp
      | false => simp [RoomFor]
    cases out with
    | none => exact fun rc => hdone [⟨.other (.sendmsg _), rc⟩] _ rfl
    | some data => exact fun rc => hdone [⟨.other (.sendmsg _), rc⟩] _ rfl
  next hz =>
    have hnil : z = [] := by simpa [hf] using hz
    intro rc
    exact ⟨fun _ => ⟨List.not_mem_nil, stackRoom_nil z⟩,
      fun _ => safeDecode_nil fun h => absurd hnil h⟩

-- -------------------------------------------------------------- the client

private theorem onlyReads_unzip {tr : ClientTrace} (h : OnlyReads tr) :
    tr.filterMap clientUnzip = [] := by
  refine List.filterMap_eq_nil_iff.mpr fun e he => ?_
  obtain ⟨c, r⟩ := e
  cases h _ he
  rfl

/-- The decoding in `finedb_get`: into the buffer asked for, and not at
all if there is none. -/
private theorem getValue_unzip {code : Byte} (z : Bytes)
    (hcode : requestHasCompressed code = true) :
    (getValue code z).Traces fun tr r =>
      ∃ evs n ok, Measured z n evs ∧ (ok = false → r.1 ≠ .FINEDB_OK)
        ∧ tr.filterMap clientUnzip = evs ++ [.alloc ok]
            ++ if ok then [.decode z (some n)] else [] := by
  have hinto : ∀ n, (uncompressValue z n).Traces fun tr r =>
      ∃ ok, (ok = false → r.1 ≠ .FINEDB_OK)
        ∧ tr.filterMap clientUnzip
          = [.alloc ok] ++ if ok then [.decode z (some n)] else [] := by
    intro n ok
    cases ok with
    | false => exact ⟨false, fun _ => by decide, rfl⟩
    | true =>
        intro out
        cases out with
        | none => exact ⟨true, fun h => (by cases h), rfl⟩
        | some out => exact ⟨true, fun h => (by cases h), rfl⟩
  unfold getValue valueLength
  rw [if_pos hcode]
  cases hlen : snappyUncompressedLength z with
  | some n =>
      refine Prog.traces_iff.mpr fun tr r hexec => ?_
      obtain ⟨ok, hr, htr⟩ := Prog.traces_iff.mp (hinto n) tr r hexec
      exact ⟨[], n, ok, Or.inl ⟨hlen, rfl⟩, hr, htr⟩
  | none =>
      intro n
      refine Prog.traces_iff.mpr fun tr r hexec => ?_
      obtain ⟨ok, hr, htr⟩ := Prog.traces_iff.mp (hinto n) tr r hexec
      refine ⟨[.stack n], n, ok, Or.inr ⟨hlen, rfl⟩, hr, ?_⟩
      rw [List.filterMap_cons_some (by rfl), htr]
      rfl

/-- The client's buffer is right, or it reports that there is none. -/
private def ClientSafe (z : Bytes) (tr : ClientTrace)
    (r : FinedbResult × Bytes) : Prop :=
  SafeDecode z (tr.filterMap clientUnzip) (r.1 ≠ .FINEDB_OK)
    ↔ .alloc false ∈ tr.filterMap clientUnzip
      ∨ StackRoom z (tr.filterMap clientUnzip)

private theorem clientSafe_nil {z : Bytes} {tr : ClientTrace}
    {r : FinedbResult × Bytes} (htr : tr.filterMap clientUnzip = [])
    (hr : z ≠ [] → r.1 ≠ .FINEDB_OK) : ClientSafe z tr r := by
  unfold ClientSafe
  rw [htr]
  exact ⟨fun _ => Or.inr (stackRoom_nil z), fun _ => safeDecode_nil hr⟩

private theorem getFound_unzip {code : Byte} (z : Bytes)
    (hcode : requestHasCompressed code = true) :
    (getFound code z).Traces (ClientSafe z) := by
  unfold getFound
  split
  next hz => exact clientSafe_nil rfl fun h => absurd hz h
  next hz =>
    intro ok
    cases ok with
    | false =>
        refine ⟨fun _ => Or.inl List.mem_cons_self, fun _ => ?_⟩
        exact ⟨fun z' buf h => (by cases List.mem_singleton.mp h),
          fun _ _ => by decide⟩
    | true =>
        refine Prog.traces_iff.mpr fun tr r hexec => ?_
        obtain ⟨evs, n, ok, hmeas, hr, htr⟩ :=
          Prog.traces_iff.mp (getValue_unzip z hcode) tr r hexec
        show SafeDecode z (.alloc true :: tr.filterMap clientUnzip) _
          ↔ .alloc false ∈ .alloc true :: tr.filterMap clientUnzip
            ∨ StackRoom z (.alloc true :: tr.filterMap clientUnzip)
        have hno : ∀ z' buf,
            .decode z' buf ∉ .alloc true :: (evs ++ [.alloc ok]) := by
          intro z' buf h
          rcases List.mem_cons.mp h with h | h
          · cases h
          · exact hmeas.no_decode ok z' buf h
        rw [htr]
        cases ok with
        | false =>
            refine ⟨fun _ => Or.inl (by simp), fun _ => ?_⟩
            exact ⟨fun z' buf h => absurd h (by simpa using hno z' buf),
              fun _ _ => hr rfl⟩
        | true =>
            have halloc : .alloc false ∉ .alloc true :: (evs ++ [.alloc true]
                ++ [.decode z (some n)]) := by
              obtain ⟨-, rfl⟩ | ⟨-, rfl⟩ := hmeas
              · simp
              · simp
            rw [if_pos rfl, or_iff_right halloc, ← hmeas.room_iff (by simp)]
            exact safeDecode_decode hno

/-- `finedb_get` when the response is a compressed value. -/
private theorem finedbGet_unzip {key z rest : Bytes} {serialized : Bool}
    {tr : ClientTrace} {r : FinedbResult × Bytes}
    (hz : z.length < 2 ^ 32) (hexec : (finedbGet key).Exec tr r)
    (hread : received tr
      = responseBytes .RESP_OK serialized true (some z) ++ rest) :
    ClientSafe z tr r := by
  obtain ⟨rc, tr, rfl, hexec⟩ := hexec
  have hexec : (if rc = ((keyBytes (requestAddCompressed 0x01) key).length :
        Int) then getResponse else .ret (.FINEDB_ERR_NETWORK, []) :
      Client (FinedbResult × Bytes)).Exec tr r := hexec
  split at hexec
  next =>
    obtain ⟨reads, tr', rfl, hreads, hdone⟩ :=
      Prog.traces_iff.mp getResponse_reads tr r hexec
    have hunzip : (reads ++ tr').filterMap clientUnzip
        = tr'.filterMap clientUnzip := by
      rw [List.filterMap_append, onlyReads_unzip hreads, List.nil_append]
    rcases hdone with ⟨-, rfl, rfl⟩ | hjudged
    · exact clientSafe_nil hunzip fun _ => by decide
    · have hquiet : received tr' = [] :=
        Prog.traces_iff.mp (getJudged_received _) tr' r hjudged
      have hreceived : received reads
          = responseBytes .RESP_OK serialized true (some z) ++ rest := by
        rw [← hread]
        show received reads = [] ++ received (reads ++ tr')
        rw [received_append, hquiet, List.append_nil, List.nil_append]
      rw [List.nil_append, hreceived, getJudged_response _ _ hz] at hjudged
      have hcode : requestHasCompressed (responseByte .RESP_OK serialized true)
          = true := by
        cases serialized <;> decide
      have h := Prog.traces_iff.mp (getFound_unzip z hcode) tr' r hjudged
      unfold ClientSafe at h ⊢
      rw [List.filterMap_cons_none (by rfl), hunzip]
      exact h
  next =>
    obtain ⟨rfl, rfl⟩ := hexec
    cases hread

/-- Both programs give the decoder a buffer with room for what it may
write, or report an error without decoding, exactly if: the server gets
its buffer (the client checks that it does), and a header that only the
decoder accepts does not meet a variable that happens to hold less. -/
theorem decode_room_iff :
    (∀ (f : Flags) (thread : TcpThread) (key z : Bytes)
        (tr : List (Event (serverSig Dbi))) (ret : Yerr),
      f.compress = false → (commandGetExec f thread key).Exec tr ret →
      tr.filterMap foundBy = [z] →
      (SafeDecode z (tr.filterMap serverUnzip) (ret ≠ .YENOERR)
        ↔ .alloc false ∉ tr.filterMap serverUnzip
          ∧ StackRoom z (tr.filterMap serverUnzip)))
    ∧ ∀ (key z rest : Bytes) (serialized : Bool) (tr : ClientTrace)
        (r : FinedbResult × Bytes),
      z.length < 2 ^ 32 → (finedbGet key).Exec tr r →
      received tr
        = responseBytes .RESP_OK serialized true (some z) ++ rest →
      (SafeDecode z (tr.filterMap clientUnzip) (r.1 ≠ .FINEDB_OK)
        ↔ .alloc false ∈ tr.filterMap clientUnzip
          ∨ StackRoom z (tr.filterMap clientUnzip)) := by
  refine ⟨fun f thread key z tr ret hf hexec hfound => ?_,
    fun key z rest serialized tr r hz hexec hread =>
      finedbGet_unzip hz hexec hread⟩
  obtain ⟨tr₁, tr₂, found, rfl, hget, hanswer⟩ := Prog.exec_bind.mp hexec
  obtain ⟨hunzip, hret⟩ :=
    Prog.traces_iff.mp (databaseGet_found ..) tr₁ found hget
  rw [List.filterMap_append,
    Prog.traces_iff.mp (commandGetAnswer_found f found) tr₂ ret hanswer,
    List.append_nil, hret] at hfound
  cases found with
  | error rc => cases hfound
  | ok z' =>
      cases hfound
      rw [List.filterMap_append, hunzip, List.nil_append]
      exact Prog.traces_iff.mp (commandGetAnswer_unzip z hf) tr₂ ret hanswer

/-- Five bytes under a header whose last byte only the decoder
accepts. -/
def looseStream : Bytes := [0x85, 0x80, 0x80, 0x80, 0x10, 0x10, 1, 2, 3, 4, 5]

private theorem not_safeDecode {z z' : Bytes} {buf : Option Nat}
    {evs : List UnzipEvent} {error : Prop} (hmem : .decode z' buf ∈ evs)
    (hroom : ¬ RoomFor z' buf) : ¬ SafeDecode z evs error :=
  fun h => hroom (h.1 z' buf hmem)

/-- GETs that write five bytes into a buffer of none, on the server and
in the client, and one that decodes to NULL on the server. -/
theorem decode_without_room :
    (∃ tr ret m', complete (lmdbSem id) (fun _ => ⟨true, 0, 0⟩)
        (State.blank ⟨(∅ : Db).insert [1] looseStream, ∅⟩ 0)
        (commandGetExec ⟨true, false, false⟩ ⟨5, none, none⟩ [1])
          = some (tr, ret, m')
      ∧ tr.filterMap foundBy = [looseStream] ∧ ret = .YENOERR
      ∧ ¬ SafeDecode looseStream (tr.filterMap serverUnzip)
          (ret ≠ .YENOERR))
    ∧ (∃ tr ret m', complete (lmdbSem id) (fun i => ⟨i ≠ 5, 0, 0⟩)
        (State.blank ⟨(∅ : Db).insert [1] (literalStream [7]), ∅⟩ 0)
        (commandGetExec ⟨true, false, false⟩ ⟨5, none, none⟩ [1])
          = some (tr, ret, m')
      ∧ tr.filterMap foundBy = [literalStream [7]] ∧ ret = .YENOERR
      ∧ ¬ SafeDecode (literalStream [7]) (tr.filterMap serverUnzip)
          (ret ≠ .YENOERR))
    ∧ ∃ tr r, (wire id).run (fun _ => ⟨true, 99, 0⟩)
        (responseBytes .RESP_OK false true (some looseStream))
        (finedbGet [1]) = some (tr, r, [])
      ∧ received tr = responseBytes .RESP_OK false true (some looseStream)
      ∧ r.1 = .FINEDB_OK
      ∧ ¬ SafeDecode looseStream (tr.filterMap clientUnzip)
          (r.1 ≠ .FINEDB_OK) := by
  have hloose : ¬ RoomFor looseStream (some 0) := by
    rintro ⟨n, hn, hroom⟩
    cases hn
    exact absurd (hroom 5 (by decide)) (by omega)
  have hnull : ¬ RoomFor (literalStream [7]) none := by
    rintro ⟨n, hn, -⟩
    cases hn
  refine ⟨?_, ?_, ?_⟩
  · have hrun : (complete (lmdbSem id) (fun _ => ⟨true, 0, 0⟩)
        (State.blank ⟨(∅ : Db).insert [1] looseStream, ∅⟩ 0)
        (commandGetExec ⟨true, false, false⟩ ⟨5, none, none⟩ [1])).map
          (fun x => (x.1.filterMap foundBy, x.2.1,
            x.1.filterMap serverUnzip))
        = some ([looseStream], .YENOERR,
          [.stack 0, .alloc true, .decode looseStream (some 0)]) := by
      decide +kernel
    obtain ⟨⟨tr, ret, m'⟩, hrun, hx⟩ := Option.map_eq_some_iff.mp hrun
    simp only [Prod.mk.injEq] at hx
    refine ⟨tr, ret, m', hrun, hx.1, hx.2.1, ?_⟩
    rw [hx.2.2]
    exact not_safeDecode (by simp) hloose
  · have hrun : (complete (lmdbSem id) (fun i => ⟨i ≠ 5, 0, 0⟩)
        (State.blank ⟨(∅ : Db).insert [1] (literalStream [7]), ∅⟩ 0)
        (commandGetExec ⟨true, false, false⟩ ⟨5, none, none⟩ [1])).map
          (fun x => (x.1.filterMap foundBy, x.2.1,
            x.1.filterMap serverUnzip))
        = some ([literalStream [7]], .YENOERR,
          [.alloc false, .decode (literalStream [7]) none]) := by
      decide +kernel
    obtain ⟨⟨tr, ret, m'⟩, hrun, hx⟩ := Option.map_eq_some_iff.mp hrun
    simp only [Prod.mk.injEq] at hx
    refine ⟨tr, ret, m', hrun, hx.1, hx.2.1, ?_⟩
    rw [hx.2.2]
    exact not_safeDecode (by simp) hnull
  · have hrun : ((wire id).run (fun _ => ⟨true, 99, 0⟩)
        (responseBytes .RESP_OK false true (some looseStream))
        (finedbGet [1])).map
          (fun x => (received x.1, x.2.1.1, x.2.2,
            x.1.filterMap clientUnzip))
        = some (responseBytes .RESP_OK false true (some looseStream),
          .FINEDB_OK, [], [.alloc true, .stack 0, .alloc true,
            .decode looseStream (some 0)]) := by
      decide +kernel
    obtain ⟨⟨tr, r, left⟩, hrun, hx⟩ := Option.map_eq_some_iff.mp hrun
    simp only [Prod.mk.injEq] at hx
    obtain ⟨hreceived, hr, rfl, hevs⟩ := hx
    refine ⟨tr, r, hrun, hreceived, hr, ?_⟩
    rw [hevs]
    exact not_safeDecode (by simp) hloose

/-- A value under a header both readers accept, with memory to spare. -/
theorem decode_room_literal :
    ∃ tr ret m', complete (lmdbSem id) (fun _ => ⟨true, 0, 0⟩)
        (State.blank ⟨(∅ : Db).insert [1] (literalStream [7]), ∅⟩ 0)
        (commandGetExec ⟨true, false, false⟩ ⟨5, none, none⟩ [1])
          = some (tr, ret, m')
      ∧ SafeDecode (literalStream [7]) (tr.filterMap serverUnzip)
          (ret ≠ .YENOERR) := by
  have hrun : (complete (lmdbSem id) (fun _ => ⟨true, 0, 0⟩)
      (State.blank ⟨(∅ : Db).insert [1] (literalStream [7]), ∅⟩ 0)
      (commandGetExec ⟨true, false, false⟩ ⟨5, none, none⟩ [1])).map
        (fun x => (x.1.filterMap foundBy, x.1.filterMap serverUnzip))
      = some ([literalStream [7]],
        [.alloc true, .decode (literalStream [7]) (some 1)]) := by
    decide +kernel
  obtain ⟨⟨tr, ret, m'⟩, hrun, hx⟩ := Option.map_eq_some_iff.mp hrun
  simp only [Prod.mk.injEq] at hx
  refine ⟨tr, ret, m', hrun, ?_⟩
  refine (decode_room_iff.1 ⟨true, false, false⟩ ⟨5, none, none⟩ [1]
    (literalStream [7]) tr ret rfl (complete_exec hrun) hx.1).mpr ?_
  rw [hx.2]
  exact ⟨by simp, by simp [StackRoom]⟩

-- ========================================================= the round trip

section RoundTrip

variable {zip : Bytes → Bytes} {α : Type}

variable {Q : ClientTrace → FinedbResult × Bytes → Bytes → Prop}
  {code : Byte} {container data S : Bytes}

variable {serialized compressed : Bool}

end RoundTrip

end FineDB

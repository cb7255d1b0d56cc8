/-
What the client writes and what the server's grammar makes of it.

Every request has one encoding: the request byte and the command's
fields, each after its length (`Request.body`). A byte string decodes to
a request and a remainder exactly if it is that encoding followed by the
remainder (`decode_request_iff`), so whether a call of the client is
understood is a question about the bytes it wrote. They are the encoding
of the call if its name, key and data fit their length fields, and the
encoding of nothing that was meant otherwise (`encoded_iff`).

The data of a PUT travel compressed. The compressor is a parameter
(`Encoder`), asked to be right about what can be decoded at all, that
is up to 2^32 - 1 bytes.
-/
import FineDB.Model.Client
import FineDB.Model.SyncMap
import Mathlib.Tactic.Ring

namespace FineDB

open Effect

-- ============================================================ length fields

@[simp] theorem beBytes_length (w n : Nat) : (beBytes w n).length = w := by
  induction w with
  | zero => rfl
  | succ w ih => rw [beBytes, List.length_cons, ih]

private theorem beNat_cons (b : Byte) (bs : Bytes) :
    beNat (b :: bs) = b.toNat * 256 ^ bs.length + beNat bs := by
  have hfold : ∀ (bs : Bytes) (n : Nat),
      bs.foldl (fun n (b : Byte) => n * 256 + b.toNat) n
        = n * 256 ^ bs.length + beNat bs := by
    intro bs
    induction bs with
    | nil => intro n; simp [beNat]
    | cons c bs ih =>
        intro n
        unfold beNat
        rw [List.foldl_cons, List.foldl_cons, ih, ih, List.length_cons,
          Nat.pow_succ]
        ring
  unfold beNat
  rw [List.foldl_cons, hfold]
  simp [beNat]

theorem beNat_beBytes (w n : Nat) : beNat (beBytes w n) = n % 256 ^ w := by
  induction w with
  | zero => simp [beBytes, beNat, Nat.mod_one]
  | succ w ih =>
      have hbyte : (UInt8.ofNat (n / 256 ^ w % 256)).toNat
          = n / 256 ^ w % 256 := by simp
      rw [beBytes, beNat_cons, hbyte, beBytes_length, ih, Nat.pow_succ,
        Nat.mod_mul, Nat.mul_comm (256 ^ w)]
      omega

theorem beBytes_beNat (bs : Bytes) : beBytes bs.length (beNat bs) = bs := by
  induction bs with
  | nil => rfl
  | cons b bs ih =>
      have hlt : beNat bs < 256 ^ bs.length := beNat_lt rfl
      have hdiv : beNat (b :: bs) / 256 ^ bs.length = b.toNat := by
        rw [beNat_cons, Nat.mul_comm, Nat.mul_add_div (by positivity),
          Nat.div_eq_of_lt hlt, Nat.add_zero]
      have hlow : ∀ w ≤ bs.length, beBytes w (beNat (b :: bs))
          = beBytes w (beNat bs) := by
        intro w
        induction w with
        | zero => intro _; rfl
        | succ w ihw =>
            intro hw
            rw [beBytes, beBytes, ihw (by omega)]
            congr 2
            -- byte `w` of the sum is that of its low part
            obtain ⟨k, hk⟩ : ∃ k, bs.length = w + 1 + k :=
              ⟨bs.length - (w + 1), by omega⟩
            have hpow : b.toNat * 256 ^ bs.length
                = 256 ^ w * (256 * (b.toNat * 256 ^ k)) := by
              rw [hk, Nat.pow_add, Nat.pow_succ]
              ring
            rw [beNat_cons, hpow, Nat.mul_add_div (by positivity),
              Nat.mul_add_mod]
      rw [List.length_cons, beBytes, hdiv, hlow _ (Nat.le_refl _), ih]
      have hb : b.toNat % 256 = b.toNat := Nat.mod_eq_of_lt b.toNat_lt
      rw [hb, UInt8.ofNat_toNat]

/-- A field is there exactly if the string is its length, its bytes and
the rest. -/
theorem takeField_iff {w : Nat} {S rest : Bytes} {f : Field w} :
    takeField w S = some (f, rest)
      ↔ S = beBytes w f.bytes.length ++ f.bytes ++ rest := by
  constructor
  · intro h
    obtain ⟨hw, hn, hf, hrest⟩ := takeField_some h
    have hlen : (S.take w).length = w := by
      rw [List.length_take]
      omega
    have hcount : f.bytes.length = beNat (S.take w) := by
      rw [hf, List.length_take]
      omega
    have hhead := beBytes_beNat (S.take w)
    rw [hlen, ← hcount] at hhead
    rw [hhead, hf, hrest, List.append_assoc, List.take_append_drop,
      List.take_append_drop]
  · intro h
    have hw : ¬ S.length < w := by
      rw [h]
      simp
    have htake : S.take w = beBytes w f.bytes.length := by
      rw [h, List.append_assoc]
      exact List.take_left' (beBytes_length ..)
    have hdrop : S.drop w = f.bytes ++ rest := by
      rw [h, List.append_assoc]
      exact List.drop_left' (beBytes_length ..)
    have hcount : beNat (S.take w) = f.bytes.length := by
      rw [htake, beNat_beBytes, Nat.mod_eq_of_lt f.fits]
    simp only [takeField, dif_neg hw, hcount, hdrop]
    rw [if_neg (by simp)]
    simp

-- ================================================================ requests

/-- The command of a request. -/
def Request.command : Request → Nat
  | .ping => 0
  | .get _ => 1
  | .del _ => 2
  | .put _ _ => 3
  | .setdb _ => 4
  | .start => 5
  | .stop => 6

/-- A field with its length before it. -/
def Field.encoded {w : Nat} (f : Field w) : Bytes :=
  beBytes w f.bytes.length ++ f.bytes

/-- What follows the request byte. -/
def Request.body : Request → Bytes
  | .get key => key.encoded
  | .del key => key.encoded
  | .put key data => key.encoded ++ data.encoded
  | .setdb name => name.encoded
  | _ => []

private theorem field_complete_iff {w : Nat} {S rest : Bytes} {r : Request}
    {mk : Field w → Request} (hmk : ∀ f, (mk f).body = f.encoded) :
    Body.field w S (fun f rest => .complete (mk f) rest) = .complete r rest
      ↔ ∃ f, r = mk f ∧ S = r.body ++ rest := by
  constructor
  · intro h
    obtain ⟨f, S', hf, heq⟩ := Body.field_complete h
    cases heq
    exact ⟨f, rfl, by rw [hmk]; exact takeField_iff.mp hf⟩
  · intro ⟨f, hr, hS⟩
    subst hr
    rw [hmk] at hS
    unfold Body.field
    rw [takeField_iff.mpr hS]

/-- A body is complete exactly if it is that of its request. -/
theorem decodeBody_iff {command : Nat} {S rest : Bytes} {r : Request} :
    decodeBody command S = .complete r rest
      ↔ r.command = command ∧ S = r.body ++ rest := by
  unfold decodeBody
  split
  case h_1 | h_6 | h_7 =>
    constructor
    · intro h
      cases h
      exact ⟨rfl, rfl⟩
    · intro ⟨hr, hS⟩
      cases r with
      | _ => first | (rw [hS]; rfl) | cases hr
  case h_2 | h_3 | h_5 =>
    rw [field_complete_iff fun _ => rfl]
    constructor
    · intro ⟨f, hr, hS⟩
      subst hr
      exact ⟨rfl, hS⟩
    · intro ⟨hr, hS⟩
      cases r with
      | _ => first | exact ⟨_, rfl, hS⟩ | cases hr
  case h_4 =>
    constructor
    · intro h
      obtain ⟨key, S', hkey, h⟩ := Body.field_complete h
      obtain ⟨data, S'', hdata, heq⟩ := Body.field_complete h
      cases heq
      refine ⟨rfl, ?_⟩
      rw [takeField_iff.mp hkey, takeField_iff.mp hdata]
      simp [Request.body, Field.encoded]
    · intro ⟨hr, hS⟩
      cases r with
      | put key data =>
          have hkey : takeField 2 S
              = some (key, data.encoded ++ rest) := by
            rw [takeField_iff, hS]
            simp [Request.body, Field.encoded]
          have hdata : takeField 4 (data.encoded ++ rest)
              = some (data, rest) := takeField_iff.mpr rfl
          unfold Body.field
          simp only [hkey, hdata]
      | _ => cases hr
  case h_8 h0 h1 h2 h3 h4 h5 h6 =>
    constructor
    · intro h
      cases h
    · intro ⟨hr, _⟩
      exfalso
      cases r with
      | ping => exact h0 hr.symm
      | get key => exact h1 hr.symm
      | del key => exact h2 hr.symm
      | put key data => exact h3 hr.symm
      | setdb name => exact h4 hr.symm
      | start => exact h5 hr.symm
      | stop => exact h6 hr.symm

/-- A string begins with a request exactly if it is the encoding of that
request and what follows. -/
theorem decode_request_iff {S : Bytes} {b : Byte} {r : Request}
    {st : Stream} :
    decode S = .request b r st
      ↔ ∃ rest, S = b :: (r.body ++ rest) ∧ requestCommand b = r.command
        ∧ decode rest = st := by
  cases S with
  | nil =>
      rw [decode_nil]
      constructor
      · intro h
        cases h
      · intro ⟨rest, h, _⟩
        cases h
  | cons b' S =>
      rw [decode_cons]
      constructor
      · intro h
        split at h
        next r' rest hbody =>
          cases h
          obtain ⟨hcmd, hS⟩ := decodeBody_iff.mp hbody
          exact ⟨rest, by rw [hS], hcmd.symm, rfl⟩
        next => cases h
        next => cases h
      · intro ⟨rest, hS, hcmd, hst⟩
        cases hS
        rw [hcmd, decodeBody_iff.mpr ⟨rfl, rfl⟩]
        simp only [hst]

theorem decode_eq_done {S : Bytes} (h : decode S = .done) : S = [] := by
  cases S with
  | nil => rfl
  | cons b S =>
      rw [decode_cons] at h
      split at h
      · cases h
      · cases h
      · cases h

/-- A string is one request exactly if it is its encoding. -/
theorem decode_single_iff {S : Bytes} {b : Byte} {r : Request} :
    decode S = .request b r .done
      ↔ S = b :: r.body ∧ requestCommand b = r.command := by
  rw [decode_request_iff]
  constructor
  · intro ⟨rest, hS, hcmd, hrest⟩
    rw [decode_eq_done hrest, List.append_nil] at hS
    exact ⟨hS, hcmd⟩
  · intro ⟨hS, hcmd⟩
    exact ⟨[], by rw [List.append_nil]; exact hS, hcmd, decode_nil⟩

-- ============================================================ what is meant

/-- The string a name argument holds; NULL selects the default database,
as the empty name does. -/
def nameOf (dbname : Option Bytes) : Bytes := (dbname.map cString).getD []

/-- A PUT of these data under this key. -/
def SaysPut (enc : Encoder) (sync : Bool) (key data : Bytes) (b : Byte)
    (r : Request) : Prop :=
  b = (if sync then 0x53 else 0x43)
    ∧ ∃ (k : Field 2) (z : Field 4), r = .put k z ∧ k.bytes = key
      ∧ z.bytes = enc.encode data ∧ snappyUncompress z.bytes = some data

/-- Request byte `b` with request `r` is what the call asks for. -/
def ClientOp.Says (enc : Encoder) (sync : Bool) (b : Byte) (r : Request) :
    ClientOp → Prop
  | .setdb dbname => b = 0x04
      ∧ ∃ name : Field 1, r = .setdb name ∧ name.bytes = nameOf dbname
  | .get key => b = 0x41 ∧ ∃ k : Field 2, r = .get k ∧ k.bytes = key
  | .del key => b = (if sync then 0x12 else 0x02)
      ∧ ∃ k : Field 2, r = .del k ∧ k.bytes = key
  | .put key data => SaysPut enc sync key data b r
  | .add key data => SaysPut enc sync key data b r
  | .update key data => SaysPut enc sync key data b r
  | .start => b = 0x05 ∧ r = .start
  | .stop => b = 0x06 ∧ r = .stop
  | .ping => b = 0x00 ∧ r = .ping

/-- A key and data that fit their length fields, and the decoder. -/
def FitsPut (enc : Encoder) (key data : Bytes) : Prop :=
  key.length < 256 ^ 2 ∧ data.length < 2 ^ 32
    ∧ (enc.encode data).length < 256 ^ 4

/-- The lengths of the call fit. -/
def ClientOp.Fits (enc : Encoder) : ClientOp → Prop
  | .setdb dbname => (nameOf dbname).length < 256 ^ 1
  | .get key => key.length < 256 ^ 2
  | .del key => key.length < 256 ^ 2
  | .put key data => FitsPut enc key data
  | .add key data => FitsPut enc key data
  | .update key data => FitsPut enc key data
  | _ => True

/-- The bytes a call writes, if it comes to writing. -/
def ClientOp.bytes (enc : Encoder) (sync : Bool) : ClientOp → Bytes
  | .setdb dbname => setdbBytes dbname
  | .get key => keyBytes (requestAddCompressed 0x01) key
  | .del key => keyBytes (if sync then requestAddSync 0x02 else 0x02) key
  | .put key data => putBytes sync key (enc.encode data)
  | .add key data => putBytes sync key (enc.encode data)
  | .update key data => putBytes sync key (enc.encode data)
  | .start => [0x05]
  | .stop => [0x06]
  | .ping => [0x00]

-- ------------------------------------------------ the decoder's own bound

/-- Nothing decodes to 2^32 bytes or more. -/
theorem snappyUncompress_lt {z v : Bytes}
    (h : snappyUncompress z = some v) : v.length < 2 ^ 32 := by
  simp only [snappyUncompress, Option.bind_eq_some_iff] at h
  obtain ⟨⟨n, ip⟩, hn, out, -, hout⟩ := h
  split at hout
  next hlen =>
    cases hout
    rw [hlen]
    exact readUncompressedLength_lt (by positivity) hn
  next => cases hout

-- ------------------------------------------------------- one call's bytes

private theorem beBytes_one (n : Nat) : beBytes 1 n = [UInt8.ofNat n] := by
  simp only [beBytes, Nat.pow_zero, Nat.div_one]
  rw [UInt8.ofNat_mod_size]

private theorem setdbBytes_eq (dbname : Option Bytes) :
    setdbBytes dbname
      = 0x04 :: (beBytes 1 (nameOf dbname).length ++ nameOf dbname) := by
  cases dbname with
  | none => rfl
  | some name =>
      rw [beBytes_one]
      rfl

/-- The bytes of a PUT whose fields fit. -/
theorem putBytes_eq (sync : Bool) (k : Field 2) (z : Field 4) :
    putBytes sync k.bytes z.bytes
      = (if sync then 0x53 else 0x43) :: Request.body (.put k z) := by
  cases sync with
  | false => simp [putBytes, keyBytes, Request.body, Field.encoded]; rfl
  | true => simp [putBytes, keyBytes, Request.body, Field.encoded]; rfl

/-- The bytes of a PUT are the encoding of what it means exactly if it
fits. -/
private theorem put_encoded_iff {enc : Encoder} {sync : Bool}
    {key data w : Bytes} :
    (∃ b r, decode w = .request b r .done ∧ SaysPut enc sync key data b r)
      ↔ FitsPut enc key data
        ∧ w = putBytes sync key (enc.encode data) := by
  constructor
  · intro ⟨b, r, hdec, hb, k, z, hr, hk, hz, hdata⟩
    subst hb hr
    refine ⟨⟨hk ▸ k.fits, snappyUncompress_lt hdata, hz ▸ z.fits⟩, ?_⟩
    rw [← hk, ← hz, putBytes_eq]
    exact (decode_single_iff.mp hdec).1
  · intro ⟨⟨hkey, hdata, hzip⟩, hw⟩
    refine ⟨_, .put ⟨key, hkey⟩ ⟨enc.encode data, hzip⟩, ?_, rfl,
      ⟨key, hkey⟩, ⟨enc.encode data, hzip⟩, rfl, rfl, rfl,
      enc.decodes data hdata⟩
    rw [decode_single_iff, hw]
    refine ⟨putBytes_eq sync ⟨key, hkey⟩ ⟨enc.encode data, hzip⟩, ?_⟩
    cases sync with
    | false => rfl
    | true => rfl

/-- The same for a request of one byte, which always fits. -/
private theorem simple_encoded_iff {code : Byte} {r : Request} {w : Bytes}
    (hbody : r.body = []) (hcmd : requestCommand code = r.command) :
    (∃ b r', decode w = .request b r' .done ∧ b = code ∧ r' = r)
      ↔ True ∧ w = [code] := by
  constructor
  · intro ⟨b, r', hdec, hb, hr⟩
    subst hb hr
    rw [decode_single_iff, hbody] at hdec
    exact ⟨trivial, hdec.1⟩
  · intro ⟨_, hw⟩
    refine ⟨code, r, ?_, rfl, rfl⟩
    rw [decode_single_iff, hbody]
    exact ⟨hw, hcmd⟩

/-- A string is what a call means exactly if the call fits and the
string is all of its bytes. -/
theorem ClientOp.encoded_iff {enc : Encoder} {sync : Bool} {op : ClientOp}
    {w : Bytes} :
    (∃ b r, decode w = .request b r .done ∧ op.Says enc sync b r)
      ↔ op.Fits enc ∧ w = op.bytes enc sync := by
  cases op with
  | put key data => exact put_encoded_iff
  | add key data => exact put_encoded_iff
  | update key data => exact put_encoded_iff
  | setdb dbname =>
      constructor
      · intro ⟨b, r, hdec, hb, name, hr, hname⟩
        subst hb hr
        have hfits := name.fits
        rw [hname] at hfits
        refine ⟨hfits, ?_⟩
        show w = setdbBytes dbname
        rw [setdbBytes_eq, ← hname]
        exact (decode_single_iff.mp hdec).1
      · intro ⟨hfits, hw⟩
        refine ⟨_, .setdb ⟨nameOf dbname, hfits⟩, ?_, rfl, _, rfl, rfl⟩
        rw [decode_single_iff, hw]
        exact ⟨setdbBytes_eq dbname, rfl⟩
  | get key =>
      constructor
      · intro ⟨b, r, hdec, hb, k, hr, hk⟩
        subst hb hr hk
        exact ⟨k.fits, (decode_single_iff.mp hdec).1⟩
      · intro ⟨hfits, hw⟩
        refine ⟨_, .get ⟨key, hfits⟩, ?_, rfl, _, rfl, rfl⟩
        rw [decode_single_iff, hw]
        exact ⟨rfl, rfl⟩
  | del key =>
      constructor
      · intro ⟨b, r, hdec, hb, k, hr, hk⟩
        subst hb hr hk
        refine ⟨k.fits, ?_⟩
        rw [(decode_single_iff.mp hdec).1]
        cases sync with
        | false => rfl
        | true => rfl
      · intro ⟨hfits, hw⟩
        refine ⟨_, .del ⟨key, hfits⟩, ?_, rfl, _, rfl, rfl⟩
        rw [decode_single_iff, hw]
        cases sync with
        | false => exact ⟨rfl, rfl⟩
        | true => exact ⟨rfl, rfl⟩
  | start => exact simple_encoded_iff rfl rfl
  | stop => exact simple_encoded_iff rfl rfl
  | ping => exact simple_encoded_iff rfl rfl

-- ============================================================ what is written

abbrev ClientTrace := List (Event clientSig)

/-- The bytes of an event that went out. -/
def writtenBy : Event clientSig → Bytes
  | ⟨.write bytes, rc⟩ => bytes.take rc.toNat
  | _ => []

/-- What a call has written on the connection. -/
def written (tr : ClientTrace) : Bytes := tr.flatMap writtenBy

/-- The compressor at work is `enc`. -/
def ZipsBy (enc : Encoder) (tr : ClientTrace) : Prop :=
  ∀ data z, (⟨.snappyCompress data, some z⟩ : Event clientSig) ∈ tr →
    z = enc.encode data

/-- A call of the library that writes nothing. -/
private abbrev NoWrite (c : ClientCall) : Prop := ∀ bytes, c ≠ .write bytes

private theorem written_eq_nil {tr : ClientTrace}
    (h : ∀ e ∈ tr, NoWrite e.1) : written tr = [] := by
  refine List.flatMap_eq_nil_iff.mpr fun e he => ?_
  obtain ⟨c, r⟩ := e
  cases c with
  | write bytes => exact absurd rfl (h _ he bytes)
  | _ => rfl

private theorem readStatus_calls : readStatus.Calls NoWrite := by
  refine ⟨fun _ h => (by cases h), fun res => ?_⟩
  cases res with
  | none => trivial
  | some res =>
      show (if _ then _ else _ : Client FinedbResult).Calls NoWrite
      split
      · trivial
      · trivial

private theorem readData_calls (size missing : Nat) (container : Bytes) :
    (readData size missing container).Calls NoWrite := by
  induction missing generalizing container with
  | zero => trivial
  | succ missing ih =>
      unfold readData
      split
      · trivial
      · refine ⟨fun _ h => (by cases h), fun chunk => ?_⟩
        cases chunk with
        | got chunk => exact ih _
        | lost chunk => trivial
        | ended ending => trivial

private theorem readField_calls (size : Nat) (container : Bytes) :
    (readField size container).Calls NoWrite := by
  refine Prog.calls_bind (readData_calls ..) fun r => ?_
  cases r with
  | none => trivial
  | some container => trivial

private theorem getValue_calls (code : Byte) (data : Bytes) :
    (getValue code data).Calls NoWrite := by
  unfold getValue
  split
  · refine Prog.calls_bind ?_ fun n => ?_
    · unfold valueLength
      split
      · trivial
      · exact ⟨fun _ h => (by cases h), fun _ => trivial⟩
    · refine ⟨fun _ h => (by cases h), fun ok => ?_⟩
      cases ok with
      | false => trivial
      | true =>
          refine ⟨fun _ h => (by cases h), fun out => ?_⟩
          cases out with
          | none => trivial
          | some out => trivial
  · trivial

private theorem getResponse_calls : getResponse.Calls NoWrite := by
  refine Prog.calls_bind (readField_calls ..) fun r => ?_
  cases r with
  | none => trivial
  | some x =>
      show (if _ then _ else _ : Client (FinedbResult × Bytes)).Calls NoWrite
      split
      · trivial
      · refine Prog.calls_bind (readField_calls ..) fun r => ?_
        cases r with
        | none => trivial
        | some y =>
            show (if _ then _ else _ :
              Client (FinedbResult × Bytes)).Calls NoWrite
            split
            · trivial
            · refine Prog.calls_bind (readField_calls ..) fun r => ?_
              cases r with
              | none => trivial
              | some z =>
                  refine ⟨fun _ h => (by cases h), fun ok => ?_⟩
                  cases ok with
                  | false => trivial
                  | true => exact getValue_calls ..

/-- A call that has sent a part of `bytes`, and nothing only if it
failed. -/
private def Sent (bytes : Bytes) (tr : ClientTrace) (rc : FinedbResult) :
    Prop :=
  (∃ n, written tr = bytes.take n)
    ∧ (written tr = [] → rc ≠ .FINEDB_OK)

/-- One write, and then no more. -/
private theorem write_sent {bytes : Bytes} {k : Client FinedbResult}
    (hpos : bytes ≠ []) (hk : k.Calls NoWrite) :
    (do
      if (← lib (.write bytes)) = bytes.length then k
      else return .FINEDB_ERR_NETWORK : Client FinedbResult).Traces
        (Sent bytes) := by
  intro rc
  show (if rc = (bytes.length : Int) then k
    else .ret .FINEDB_ERR_NETWORK : Client FinedbResult).Traces _
  split
  next hrc =>
    refine hk.traces fun tr a htr => ?_
    have hw : written (⟨.write bytes, rc⟩ :: tr) = bytes := by
      show bytes.take rc.toNat ++ written tr = bytes
      rw [written_eq_nil htr, List.append_nil, hrc, Int.toNat_natCast,
        List.take_length]
    refine ⟨⟨bytes.length, ?_⟩, fun hnil => ?_⟩
    · rw [hw, List.take_length]
    · rw [hw] at hnil
      exact absurd hnil hpos
  next =>
    refine ⟨⟨rc.toNat, ?_⟩, fun _ h => by cases h⟩
    show bytes.take rc.toNat ++ [] = _
    rw [List.append_nil]

private theorem sendKeyData_sent (enc : Encoder) (sync : Bool)
    (key data : Bytes) :
    (sendKeyData sync key data).Traces fun tr rc =>
      ZipsBy enc tr → Sent (putBytes sync key (enc.encode data)) tr rc := by
  have hfail : ∀ {tr : ClientTrace} {rc : FinedbResult}, written tr = [] →
      rc ≠ .FINEDB_OK → ZipsBy enc tr →
      Sent (putBytes sync key (enc.encode data)) tr rc :=
    fun hw hrc _ => ⟨⟨0, hw⟩, fun _ => hrc⟩
  intro ok
  cases ok with
  | false => exact hfail rfl (by decide)
  | true =>
      intro ok
      cases ok with
      | false => exact hfail rfl (by decide)
      | true =>
          intro out
          cases out with
          | none => exact hfail rfl (by decide)
          | some z =>
              refine Prog.traces_iff.mpr fun tr rc hexec hzip => ?_
              have hz : z = enc.encode data := hzip data z (by simp)
              rw [← hz]
              exact Prog.traces_iff.mp (write_sent (by simp [putBytes,
                keyBytes]) readStatus_calls) tr rc hexec

theorem ClientOp.bytes_ne_nil (enc : Encoder) (sync : Bool)
    (op : ClientOp) : op.bytes enc sync ≠ [] := by
  cases op with
  | _ => exact List.cons_ne_nil _ _

/-- What a call writes is the beginning of its bytes. -/
theorem ClientOp.sent (enc : Encoder) (sync : Bool) (op : ClientOp) :
    (op.exec sync).Traces fun tr rc => ZipsBy enc tr →
      (∃ n, written tr = (op.bytes enc sync).take n)
        ∧ (written tr = [] → rc ≠ .FINEDB_OK) := by
  have hsend : ∀ {bytes : Bytes}, bytes ≠ [] →
      (sendRequest bytes readStatus).Traces fun tr rc => ZipsBy enc tr →
        Sent bytes tr rc := fun hpos =>
    Prog.traces_iff.mpr fun tr rc hexec _ =>
      Prog.traces_iff.mp (write_sent hpos readStatus_calls) tr rc hexec
  cases op with
  | put key data => exact sendKeyData_sent enc sync key data
  | add key data => exact sendKeyData_sent enc sync key data
  | update key data => exact sendKeyData_sent enc sync key data
  | del key => exact hsend (ClientOp.bytes_ne_nil enc sync (.del key))
  | start => exact hsend (ClientOp.bytes_ne_nil enc sync .start)
  | stop => exact hsend (ClientOp.bytes_ne_nil enc sync .stop)
  | ping => exact hsend (ClientOp.bytes_ne_nil enc sync .ping)
  | setdb dbname =>
      have hset := @hsend (setdbBytes dbname) (List.cons_ne_nil _ _)
      intro ok
      cases ok with
      | false => exact fun e => e.elim
      | true =>
          refine Prog.traces_iff.mpr fun tr rc hexec hzip => ?_
          exact Prog.traces_iff.mp hset tr rc hexec
            fun data z hmem => hzip data z (List.mem_cons_of_mem _ hmem)
  | get key =>
      rw [ClientOp.exec_get]
      refine Prog.traces_iff.mpr fun tr rc hexec _ => ?_
      have hcalls : (do return (← getResponse).1 :
          Client FinedbResult).Calls NoWrite :=
        Prog.calls_bind getResponse_calls fun _ => trivial
      exact Prog.traces_iff.mp (write_sent (List.cons_ne_nil _ _) hcalls)
        tr rc hexec

-- ================================================================== the calls

/-- A call of the library as it went: its mode, what it did, what it
returned. -/
structure ClientRun where
  op : ClientOp
  sync : Bool
  trace : ClientTrace
  result : FinedbResult

namespace ClientRun

variable (enc : Encoder)

/-- The run is one of the function called, with the compressor `enc`. -/
structure Valid (x : ClientRun) : Prop where
  exec : (x.op.exec x.sync).Exec x.trace x.result
  zips : ZipsBy enc x.trace

/-- The call failed and wrote nothing, or what it wrote is exactly its
request. -/
def Framed (x : ClientRun) : Prop :=
  (x.result ≠ .FINEDB_OK ∧ written x.trace = [])
    ∨ ∃ b r, decode (written x.trace) = .request b r .done
      ∧ x.op.Says enc x.sync b r

/-- Nothing was written, or all of it, and the lengths fit. -/
def Clean (x : ClientRun) : Prop :=
  written x.trace = []
    ∨ (x.op.Fits enc ∧ written x.trace = x.op.bytes enc x.sync)

variable {enc}

end ClientRun

end FineDB

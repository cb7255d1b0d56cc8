/-
The wire protocol (src/server/protocol.h) and its reference grammar.

A request is one byte, a command in its low four bits and options above
it, followed by the command's body: length-prefixed fields, big endian.
`decode` reads a whole byte string by that grammar. It is not taken from
the server, which never sees the whole string: it is what the server's
reading, one field at a time out of whatever chunks arrive, is to be
compared with.
-/
import FineDB.Model.Basic

namespace FineDB

-- ================================================= the request byte

/-- `REQUEST_COMMAND(c)`. -/
def requestCommand (b : Byte) : Nat := (b &&& 0x0f).toNat

/-- `REQUEST_HAS_SYNC(c)`. -/
def requestHasSync (b : Byte) : Bool := b &&& 0x10 != 0

/-- `REQUEST_HAS_SERIALIZED(c)`. -/
def requestHasSerialized (b : Byte) : Bool := b &&& 0x20 != 0

/-- `REQUEST_HAS_COMPRESSED(c)`. -/
def requestHasCompressed (b : Byte) : Bool := b &&& 0x40 != 0

-- ======================================================== responses

/-- `protocol_response_t`. -/
inductive ResponseCode
  | RESP_ERR_UNDEFINED
  | RESP_OK
  | RESP_ERR_PROTOCOL
  | RESP_ERR_SERVER
  | RESP_ERR_FULL_DB
  | RESP_ERR_TOO_MANY_DB
  | RESP_ERR_BAD_NAME
  | RESP_ERR_TRANSACTION
deriving DecidableEq, Repr

def ResponseCode.toByte : ResponseCode → Byte
  | RESP_ERR_UNDEFINED => 0
  | RESP_OK => 1
  | RESP_ERR_PROTOCOL => 2
  | RESP_ERR_SERVER => 3
  | RESP_ERR_FULL_DB => 4
  | RESP_ERR_TOO_MANY_DB => 5
  | RESP_ERR_BAD_NAME => 6
  | RESP_ERR_TRANSACTION => 7

/-- `RESPONSE_ADD_SERIALIZED(c)`. -/
def responseAddSerialized (b : Byte) : Byte := b ||| 0x20

/-- `RESPONSE_ADD_COMPRESSED(c)`. -/
def responseAddCompressed (b : Byte) : Byte := b ||| 0x40

/-- The `w` low bytes of `n`, most significant first: `htonl` for
`w = 4`. -/
def beBytes : Nat → Nat → Bytes
  | 0, _ => []
  | w + 1, n => UInt8.ofNat (n / 256 ^ w % 256) :: beBytes w n

/-- The bytes of a response: the code with its option bits, then, when
there are data, their length in 32 bits and the data. -/
def responseBytes (code : ResponseCode) (serialized compressed : Bool)
    (data : Option Bytes) : Bytes :=
  let codeByte := code.toByte
  let codeByte := if serialized then responseAddSerialized codeByte
    else codeByte
  let codeByte := if compressed then responseAddCompressed codeByte
    else codeByte
  codeByte :: match data with
    | none => []
    | some data => beBytes 4 data.length ++ data

-- ====================================================== the grammar

/-- A decoded request with its fields. -/
inductive Request
  | ping
  | get (key : Field 2)
  | del (key : Field 2)
  | put (key : Field 2) (data : Field 4)
  | setdb (name : Field 1)
  | start
  | stop
deriving DecidableEq

/-- A field with a `w`-byte length before it, and what follows; `none`
if the string ends inside. -/
def takeField (w : Nat) (S : Bytes) : Option (Field w × Bytes) :=
  if hw : S.length < w then none
  else
    let n := beNat (S.take w)
    if (S.drop w).length < n then none
    else some
      (⟨(S.drop w).take n, by
        have hn : n < 256 ^ w := beNat_lt (by rw [List.length_take]; omega)
        rw [List.length_take]
        omega⟩,
      (S.drop w).drop n)

/-- What the bytes after a request byte can be. -/
inductive Body
  | complete (r : Request) (rest : Bytes)
  | incomplete
  | unknown

/-- Go on with a field of the body, if the string holds all of it. -/
def Body.field (w : Nat) (S : Bytes) (k : Field w → Bytes → Body) : Body :=
  match takeField w S with
  | some (f, rest) => k f rest
  | none => .incomplete

/-- The body of a command, off the front of `S`. -/
def decodeBody (command : Nat) (S : Bytes) : Body :=
  match command with
  | 0 => .complete .ping S
  | 1 => .field 2 S fun key rest => .complete (.get key) rest
  | 2 => .field 2 S fun key rest => .complete (.del key) rest
  | 3 => .field 2 S fun key rest =>
      .field 4 rest fun data rest => .complete (.put key data) rest
  | 4 => .field 1 S fun name rest => .complete (.setdb name) rest
  | 5 => .complete .start S
  | 6 => .complete .stop S
  | _ => .unknown

/-- A field that is there: its length fits the string, and it is the
bytes after the length. -/
theorem takeField_some {w : Nat} {S rest : Bytes} {f : Field w}
    (h : takeField w S = some (f, rest)) :
    w ≤ S.length ∧ beNat (S.take w) ≤ (S.drop w).length
      ∧ f.bytes = (S.drop w).take (beNat (S.take w))
      ∧ rest = (S.drop w).drop (beNat (S.take w)) := by
  simp only [takeField] at h
  split at h
  · cases h
  next hw =>
    split at h
    · cases h
    next hn =>
      cases h
      exact ⟨Nat.not_lt.mp hw, Nat.not_lt.mp hn, rfl, rfl⟩

theorem takeField_none {w : Nat} {S : Bytes} (h : takeField w S = none) :
    S.length < w
      ∨ (w ≤ S.length ∧ (S.drop w).length < beNat (S.take w)) := by
  simp only [takeField] at h
  split at h
  next hw => exact Or.inl hw
  next hw =>
    split at h
    next hn => exact Or.inr ⟨Nat.not_lt.mp hw, hn⟩
    next => cases h

theorem takeField_length {w : Nat} {S rest : Bytes} {f : Field w}
    (h : takeField w S = some (f, rest)) : rest.length ≤ S.length := by
  obtain ⟨-, -, -, rfl⟩ := takeField_some h
  simp only [List.length_drop]
  omega

theorem Body.field_complete {w : Nat} {S rest : Bytes} {r : Request}
    {k : Field w → Bytes → Body}
    (h : Body.field w S k = .complete r rest) :
    ∃ f S', takeField w S = some (f, S') ∧ k f S' = .complete r rest := by
  unfold Body.field at h
  split at h
  next f S' hf => exact ⟨f, S', hf, h⟩
  next => cases h

theorem Body.field_incomplete {w : Nat} {S : Bytes}
    {k : Field w → Bytes → Body} (h : Body.field w S k = .incomplete) :
    takeField w S = none
      ∨ ∃ f S', takeField w S = some (f, S') ∧ k f S' = .incomplete := by
  unfold Body.field at h
  split at h
  next f S' hf => exact Or.inr ⟨f, S', hf, h⟩
  next hf => exact Or.inl hf

theorem decodeBody_length {command : Nat} {S rest : Bytes} {r : Request}
    (h : decodeBody command S = .complete r rest) :
    rest.length ≤ S.length := by
  unfold decodeBody at h
  split at h
  case h_1 | h_6 | h_7 =>
    cases h
    exact Nat.le_refl _
  case h_2 | h_3 | h_5 =>
    obtain ⟨_, _, hf, heq⟩ := Body.field_complete h
    cases heq
    exact takeField_length hf
  case h_4 =>
    obtain ⟨_, _, hf, h⟩ := Body.field_complete h
    obtain ⟨_, _, hf', heq⟩ := Body.field_complete h
    cases heq
    exact le_trans (takeField_length hf') (takeField_length hf)
  case h_8 => cases h

/-- A byte string as the requests it holds, in order, and how it ends:
at a request boundary, inside a request (its first byte and the part of
its body that arrived), or with a command that does not exist. -/
inductive Stream
  | done
  | cut (b : Byte) (part : Bytes)
  | unknown (b : Byte)
  | request (b : Byte) (r : Request) (rest : Stream)

/-- The reference grammar. -/
def decode (S : Bytes) : Stream :=
  match S with
  | [] => .done
  | b :: S =>
      match _h : decodeBody (requestCommand b) S with
      | .complete r rest => .request b r (decode rest)
      | .incomplete => .cut b S
      | .unknown => .unknown b
termination_by S.length
decreasing_by
  have := decodeBody_length _h
  simp only [List.length_cons]
  omega

theorem decode_nil : decode [] = .done := by
  rw [decode]

/-- One request off the front, by what its body is. -/
theorem decode_cons (b : Byte) (S : Bytes) :
    decode (b :: S) =
      match decodeBody (requestCommand b) S with
      | .complete r rest => .request b r (decode rest)
      | .incomplete => .cut b S
      | .unknown => .unknown b := by
  rw [decode]
  split <;> simp only [*]

end FineDB

/-
The client's verdict against the server's.

The server answers with a code between 1 and 7, and option bits above
it. The client looks at the lowest bit only. Of the codes a handler can
send, RESP_OK is odd, and so are RESP_ERR_SERVER and
RESP_ERR_TRANSACTION: these two are taken for success, and no other
(`odd_code_iff`).

That the byte the client judges is the answer to its own request is a
fact about the whole session. It holds as long as nothing is left
unread from earlier calls (`Link.Clear`), and `Orderly` names what a
call must not do for that to stay so: leave a request that is no
request, get two responses, or give up on a response that still comes.
-/
import FineDB.Proofs.Link

namespace FineDB

open Effect Mvcc

-- ================================================================= the codes

/-- The first byte of a response. -/
def responseByte (code : ResponseCode) (serialized compressed : Bool) :
    Byte :=
  (responseBytes code serialized compressed none).headD 0

theorem responseBytes_eq (code : ResponseCode)
    (serialized compressed : Bool) (data : Option Bytes) :
    responseBytes code serialized compressed data
      = responseByte code serialized compressed :: match data with
        | none => []
        | some data => beBytes 4 data.length ++ data := rfl

/-- The client's bit of a handler's code. -/
theorem odd_code_iff {code : ResponseCode} (h : code ∈ handlerCodes)
    (serialized compressed : Bool) :
    responseStatus (responseByte code serialized compressed)
        = ResponseCode.RESP_OK.toByte
      ↔ code = .RESP_OK ∨ code = .RESP_ERR_SERVER
        ∨ code = .RESP_ERR_TRANSACTION := by
  revert code serialized compressed
  decide

/-- The options do not hide the code. -/
theorem responseByte_inj {code code' : ResponseCode} {s z s' z' : Bool}
    (h : responseByte code s z = responseByte code' s' z') :
    code = code' := by
  have hlow : ∀ (code : ResponseCode) (s z : Bool),
      responseByte code s z &&& 7 = code.toByte := by
    intro code s z
    cases code with
    | _ => cases s <;> cases z <;> rfl
  have hbyte : code.toByte = code'.toByte := by
    rw [← hlow code s z, ← hlow code' s' z', h]
  cases code with
  | _ => cases code' with
    | _ => first | rfl | cases hbyte

/-- The first response of the trace is the code, with some options and
data. -/
def Answered (tr : ServerTrace) (code : ResponseCode) : Prop :=
  ∃ s z data rest, tr.filterMap response
    = responseBytes code s z data :: rest

theorem Answered.unique {tr : ServerTrace} {code code' : ResponseCode}
    (h : Answered tr code) (h' : Answered tr code') : code = code' := by
  obtain ⟨s, z, data, rest, h⟩ := h
  obtain ⟨s', z', data', rest', h'⟩ := h'
  rw [h, responseBytes_eq, responseBytes_eq] at h'
  injection h' with hhead
  injection hhead with hbyte
  exact responseByte_inj hbyte

-- ============================================================ the client's side

/-- The byte an event of the client gave it to judge. -/
def gotByte : Event clientSig → Option Byte
  | ⟨.readByte, some b⟩ => some b
  | ⟨.read, .got chunk⟩ => chunk.bytes.head?
  | _ => none

/-- The response byte of a call, if it arrived. -/
def arrived (tr : ClientTrace) : Option Byte :=
  (tr.filterMap gotByte).head?

def ClientOp.isGet : ClientOp → Bool
  | .get _ => true
  | _ => false

/-- A response read to its end: one byte, or for a GET that is taken for
successful also the length and as many bytes. -/
def ReadWhole (get : Bool) (R : Bytes) : Prop :=
  ∃ b rest, R = b :: rest ∧ if get then
      responseStatus b = ResponseCode.RESP_OK.toByte →
        ∃ len data, rest = len ++ data ∧ len.length = 4
          ∧ beNat len ≤ data.length
    else rest = []

/-- What a function makes of its response: if a byte arrives it is the
first one read, and decides between `FINEDB_ERR_SERVER` and the rest,
which but for GET is `FINEDB_OK`; and unless reading failed, a byte has
arrived and the whole response was read. -/
structure Verdict (get : Bool) (tr : ClientTrace) (rc : FinedbResult) :
    Prop where
  first : ∀ b, arrived tr = some b → ∃ rest, received tr = b :: rest
  judge : ∀ b, arrived tr = some b →
    (rc = .FINEDB_ERR_SERVER
      ↔ responseStatus b ≠ ResponseCode.RESP_OK.toByte)
  plain : ∀ b, arrived tr = some b → get = false →
    rc = .FINEDB_OK ∨ rc = .FINEDB_ERR_SERVER
  got : rc ≠ .FINEDB_ERR_NETWORK → (arrived tr).isSome
  whole : rc ≠ .FINEDB_ERR_NETWORK → ReadWhole get (received tr)

theorem received_append (tr tr' : ClientTrace) :
    received (tr ++ tr') = received tr ++ received tr' :=
  List.flatMap_append

theorem readStatus_verdict : readStatus.Traces (Verdict false) := by
  intro res
  cases res with
  | none =>
      exact ⟨fun b h => (by cases h), fun b h => (by cases h),
        fun b h => (by cases h), fun h => absurd rfl h,
        fun h => absurd rfl h⟩
  | some res =>
      show (if _ then _ else _ : Client FinedbResult).Traces _
      have hread : ReadWhole false (received [⟨.readByte, some res⟩]) :=
        ⟨res, [], rfl, rfl⟩
      split
      next hres =>
        refine ⟨fun b h => ?_, fun b h => ?_, fun b h _ => Or.inr rfl,
          fun _ => rfl, fun _ => hread⟩
        · cases h
          exact ⟨[], rfl⟩
        · cases h
          exact ⟨fun _ => hres, fun _ => rfl⟩
      next hres =>
        refine ⟨fun b h => ?_, fun b h => ?_, fun b h _ => Or.inl rfl,
          fun _ => rfl, fun _ => hread⟩
        · cases h
          exact ⟨[], rfl⟩
        · cases h
          exact ⟨fun h => (by cases h), fun h => absurd h hres⟩

/-- A trace that only reads. -/
def OnlyReads (tr : ClientTrace) : Prop := ∀ e ∈ tr, e.1 = .read

/-- Some bytes were read and there was no memory for them. -/
def Loses (tr : ClientTrace) : Prop :=
  ∃ chunk : Chunk, (⟨.read, .lost chunk⟩ : Event clientSig) ∈ tr

/-- What `_read_data` has in its container: what was there and what it
read, and enough; it gives up only if it lost something or there is not
enough. -/
theorem readData_spec (size missing : Nat) (container : Bytes)
    (h : size ≤ container.length + missing) :
    (readData size missing container).Traces fun tr r => OnlyReads tr ∧
      match r with
      | some c => c = container ++ received tr ∧ size ≤ c.length
      | none => Loses tr ∨ (container ++ received tr).length < size := by
  induction missing generalizing container with
  | zero => exact ⟨by simp [OnlyReads], (List.append_nil _).symm, h⟩
  | succ missing ih =>
      unfold readData
      split
      next hsize =>
        exact ⟨by simp [OnlyReads], (List.append_nil _).symm, hsize⟩
      next hsize =>
        intro ret
        cases ret with
        | got chunk =>
            have hpos := chunk.pos
            have hih := ih (container ++ chunk.bytes) (by
              rw [List.length_append]
              omega)
            refine Prog.traces_iff.mpr fun tr r hexec => ?_
            obtain ⟨hreads, hr⟩ := Prog.traces_iff.mp hih tr r hexec
            refine ⟨List.forall_mem_cons.mpr ⟨rfl, hreads⟩, ?_⟩
            have hcons : container ++ received (⟨.read, .got chunk⟩ :: tr)
                = container ++ chunk.bytes ++ received tr :=
              (List.append_assoc ..).symm
            cases r with
            | some c => rw [hcons]; exact hr
            | none =>
                rw [hcons]
                refine hr.imp_left fun h => ?_
                obtain ⟨lost, hlost⟩ := h
                exact ⟨lost, List.mem_cons_of_mem _ hlost⟩
        | lost chunk =>
            exact ⟨by simp [OnlyReads], Or.inl ⟨chunk, List.mem_cons_self⟩⟩
        | ended ending =>
            refine ⟨by simp [OnlyReads], Or.inr ?_⟩
            show (container ++ []).length < size
            rw [List.append_nil]
            omega

theorem readField_spec (size : Nat) (container : Bytes) :
    (readField size container).Traces fun tr r => OnlyReads tr ∧
      match r with
      | some (x, y) =>
          x ++ y = container ++ received tr ∧ x.length = size
      | none => Loses tr ∨ (container ++ received tr).length < size := by
  refine Prog.traces_bind.mpr (Prog.traces_iff.mpr fun tr r hexec => ?_)
  obtain ⟨hreads, hr⟩ := Prog.traces_iff.mp
    (readData_spec size (size - container.length) container (by omega))
    tr r hexec
  cases r with
  | none =>
      rw [← List.append_nil tr] at hreads hr
      exact ⟨hreads, hr⟩
  | some c =>
      obtain ⟨hc, hlen⟩ := hr
      show OnlyReads (tr ++ []) ∧ c.take size ++ c.drop size
        = container ++ received (tr ++ []) ∧ (c.take size).length = size
      rw [List.append_nil, List.take_append_drop, List.length_take]
      exact ⟨hreads, hc, by omega⟩

/-- The tail of a GET reads no more, and does not return
`FINEDB_ERR_SERVER`. -/
theorem getValue_spec (code : Byte) (data : Bytes) :
    (getValue code data).Traces fun tr r =>
      received tr = [] ∧ r.1 ≠ .FINEDB_ERR_SERVER := by
  have hunzip : ∀ n, (uncompressValue data n).Traces fun tr r =>
      received tr = [] ∧ r.1 ≠ .FINEDB_ERR_SERVER := by
    intro n ok
    cases ok with
    | false => exact ⟨rfl, by decide⟩
    | true =>
        intro out
        cases out with
        | none => exact ⟨rfl, by decide⟩
        | some out => exact ⟨rfl, fun h => by cases h⟩
  unfold getValue
  split
  · unfold valueLength
    split
    · exact hunzip _
    · exact hunzip
  · exact ⟨rfl, fun h => by cases h⟩

/-- The response to a GET after its first byte. -/
theorem getData_spec (code : Byte) (container : Bytes) :
    (getData code container).Traces fun tr r =>
      r.1 ≠ .FINEDB_ERR_SERVER ∧ (r.1 ≠ .FINEDB_ERR_NETWORK →
        ∃ len data, container ++ received tr = len ++ data
          ∧ len.length = 4 ∧ beNat len ≤ data.length) := by
  refine Prog.traces_bind.mpr (Prog.traces_iff.mpr fun tr r hexec => ?_)
  have hlen := Prog.traces_iff.mp (readField_spec 4 container) tr r hexec
  cases r with
  | none => exact ⟨by decide, fun h => absurd rfl h⟩
  | some x =>
      obtain ⟨len, rest⟩ := x
      obtain ⟨-, hrest, hfour⟩ := hlen
      show (if _ then _ else _ : Client (FinedbResult × Bytes)).Traces _
      split
      next hzero =>
        refine ⟨by decide, fun _ => ⟨len, rest, ?_, hfour, ?_⟩⟩
        · rw [List.append_nil, hrest]
        · rw [hzero]
          exact Nat.zero_le _
      next =>
        refine Prog.traces_bind.mpr
          (Prog.traces_iff.mpr fun tr' r' hexec' => ?_)
        have hfield := Prog.traces_iff.mp (readField_spec _ rest) tr' r'
          hexec'
        cases r' with
        | none => exact ⟨by decide, fun h => absurd rfl h⟩
        | some y =>
            obtain ⟨data, more⟩ := y
            obtain ⟨-, hmore, hsize⟩ := hfield
            have hread : ∀ tr'' : ClientTrace, received tr'' = [] →
                container ++ received (tr ++ (tr' ++ tr''))
                    = len ++ (data ++ more)
                  ∧ beNat len ≤ (data ++ more).length := by
              intro tr'' hnil
              constructor
              · rw [received_append, received_append, hnil,
                  List.append_nil, ← List.append_assoc, ← hrest,
                  List.append_assoc, hmore]
              · rw [List.length_append, hsize]
                omega
            intro ok
            cases ok with
            | false =>
                refine ⟨by decide, fun _ => ⟨len, data ++ more, ?_⟩⟩
                obtain ⟨hall, hle⟩ := hread [⟨.ymalloc data.length, false⟩]
                  rfl
                exact ⟨hall, hfour, hle⟩
            | true =>
                refine Prog.traces_iff.mpr fun tr'' r'' hexec'' => ?_
                obtain ⟨hnil, hserver⟩ := Prog.traces_iff.mp
                  (getValue_spec code data) tr'' r'' hexec''
                refine ⟨hserver, fun _ => ⟨len, data ++ more, ?_⟩⟩
                obtain ⟨hall, hle⟩ := hread
                  (⟨.ymalloc data.length, true⟩ :: tr'') hnil
                exact ⟨hall, hfour, hle⟩

theorem getResponse_verdict :
    getResponse.Traces fun tr r => Verdict true tr r.1 := by
  intro ret
  cases ret with
  | lost chunk =>
      exact ⟨fun b h => (by cases h), fun b h => (by cases h),
        fun b h => (by cases h), fun h => absurd rfl h,
        fun h => absurd rfl h⟩
  | ended ending =>
      exact ⟨fun b h => (by cases h), fun b h => (by cases h),
        fun b h => (by cases h), fun h => absurd rfl h,
        fun h => absurd rfl h⟩
  | got chunk =>
      obtain ⟨bytes, hpos, hle⟩ := chunk
      cases bytes with
      | nil => cases hpos
      | cons b rest =>
          have hfirst : ∀ (tr : ClientTrace) (b' : Byte),
              arrived (⟨.read, .got ⟨b :: rest, hpos, hle⟩⟩ :: tr)
                = some b' → b' = b := by
            intro tr b' h
            exact (Option.some.inj h).symm
          show (if responseStatus b ≠ ResponseCode.RESP_OK.toByte then
              pure (.FINEDB_ERR_SERVER, [])
            else getData b rest :
              Client (FinedbResult × Bytes)).Traces _
          split
          next hres =>
            refine ⟨fun b' h => ?_, fun b' h => ?_,
              fun _ _ h => (by cases h), fun _ => rfl,
              fun _ => ⟨b, rest, ?_, ?_⟩⟩
            · rw [hfirst _ _ h]
              exact ⟨rest ++ [], rfl⟩
            · rw [hfirst _ _ h]
              exact ⟨fun _ => hres, fun _ => rfl⟩
            · exact List.append_nil _
            · exact fun h => absurd h hres
          next hres =>
            refine Prog.traces_iff.mpr fun tr r hexec => ?_
            obtain ⟨hserver, hdata⟩ :=
              Prog.traces_iff.mp (getData_spec b rest) tr r hexec
            refine ⟨fun b' h => ?_, fun b' h => ?_,
              fun _ _ h => (by cases h), fun _ => rfl,
              fun h => ⟨b, rest ++ received tr, rfl, fun _ => hdata h⟩⟩
            · rw [hfirst _ _ h]
              exact ⟨rest ++ received tr, rfl⟩
            · rw [hfirst _ _ h]
              exact ⟨fun h => absurd h hserver, fun h => absurd h hres⟩

/-- How a whole call goes: it stops before it reads anything, with an
error and, unless the network failed, without having written; or it has
written and judges its response. -/
def CallReads (get : Bool) (tr : ClientTrace) (rc : FinedbResult) : Prop :=
  (received tr = [] ∧ arrived tr = none
      ∧ (rc ≠ .FINEDB_ERR_NETWORK → written tr = []))
    ∨ (written tr ≠ [] ∧ Verdict get tr rc)

private theorem sendRequest_reads {get : Bool} {bytes : Bytes}
    {k : Client FinedbResult} (hpos : bytes ≠ [])
    (hk : k.Traces (Verdict get)) :
    (sendRequest bytes k).Traces (CallReads get) := by
  intro rc
  show (if rc = (bytes.length : Int) then k
    else .ret .FINEDB_ERR_NETWORK : Client FinedbResult).Traces _
  split
  next hrc =>
    refine Prog.traces_iff.mpr fun tr r hexec => Or.inr ⟨?_, ?_⟩
    · show bytes.take rc.toNat ++ written tr ≠ []
      rw [hrc, Int.toNat_natCast, List.take_length]
      exact List.append_ne_nil_of_left_ne_nil hpos _
    · obtain ⟨hfirst, hverdict, hplain, hgot, hwhole⟩ :=
        Prog.traces_iff.mp hk tr r hexec
      exact ⟨hfirst, hverdict, hplain, hgot, hwhole⟩
  next => exact Or.inl ⟨rfl, rfl, fun h => absurd rfl h⟩

/-- Calls before the write do not count. -/
private theorem CallReads.cons {get : Bool} {tr : ClientTrace}
    {rc : FinedbResult} {e : Event clientSig} (h : CallReads get tr rc)
    (hread : receivedBy e = []) (hgot : gotByte e = none)
    (hwrite : writtenBy e = []) : CallReads get (e :: tr) rc := by
  have hreceived : received (e :: tr) = received tr := by
    unfold received
    rw [List.flatMap_cons, hread, List.nil_append]
  have harrived : arrived (e :: tr) = arrived tr := by
    unfold arrived
    rw [List.filterMap_cons, hgot]
  have hwritten : written (e :: tr) = written tr := by
    unfold written
    rw [List.flatMap_cons, hwrite, List.nil_append]
  unfold CallReads
  rw [hreceived, harrived, hwritten]
  refine h.imp id fun ⟨hpos, hv⟩ => ⟨hpos, ?_⟩
  obtain ⟨hfirst, hverdict, hplain, hgot, hwhole⟩ := hv
  rw [← harrived, ← hreceived] at hfirst
  rw [← harrived] at hverdict hplain hgot
  rw [← hreceived] at hwhole
  exact ⟨hfirst, hverdict, hplain, hgot, hwhole⟩

private theorem sendKeyData_reads (sync : Bool) (key data : Bytes) :
    (sendKeyData sync key data).Traces (CallReads false) := by
  intro ok
  cases ok with
  | false => exact Or.inl ⟨rfl, rfl, fun _ => rfl⟩
  | true =>
      intro ok
      cases ok with
      | false => exact Or.inl ⟨rfl, rfl, fun _ => rfl⟩
      | true =>
          intro out
          cases out with
          | none => exact Or.inl ⟨rfl, rfl, fun _ => rfl⟩
          | some z =>
              have hsend := @sendRequest_reads false (putBytes sync key z)
                readStatus (List.cons_ne_nil _ _) readStatus_verdict
              refine Prog.traces_iff.mpr fun tr rc hexec => ?_
              have h := Prog.traces_iff.mp hsend tr rc hexec
              exact ((h.cons rfl rfl rfl).cons rfl rfl rfl).cons rfl rfl rfl

theorem ClientOp.reads (op : ClientOp) (sync : Bool) :
    (op.exec sync).Traces (CallReads op.isGet) := by
  have hsend : ∀ {bytes : Bytes}, bytes ≠ [] →
      (sendRequest bytes readStatus).Traces (CallReads false) :=
    fun hpos => sendRequest_reads hpos readStatus_verdict
  cases op with
  | put key data => exact sendKeyData_reads sync key data
  | add key data => exact sendKeyData_reads sync key data
  | update key data => exact sendKeyData_reads sync key data
  | del key => exact hsend (List.cons_ne_nil _ _)
  | start => exact hsend (List.cons_ne_nil _ _)
  | stop => exact hsend (List.cons_ne_nil _ _)
  | ping => exact hsend (List.cons_ne_nil _ _)
  | setdb dbname =>
      intro ok
      cases ok with
      | false => exact fun e => e.elim
      | true =>
          refine Prog.traces_iff.mpr fun tr rc hexec => ?_
          have h := Prog.traces_iff.mp
            (@hsend (setdbBytes dbname) (List.cons_ne_nil _ _)) tr rc hexec
          exact h.cons rfl rfl rfl
  | get key =>
      rw [ClientOp.exec_get]
      refine sendRequest_reads (List.cons_ne_nil _ _) ?_
      refine Prog.traces_bind.mpr (Prog.traces_iff.mpr fun tr r hexec => ?_)
      show Verdict true (tr ++ []) r.1
      rw [List.append_nil]
      exact Prog.traces_iff.mp getResponse_verdict tr r hexec

-- ================================================================== the link

namespace Link

variable {enc : Encoder}

/-- Nothing is left over from earlier calls. -/
structure Clear (s : Link) : Prop where
  inbox : s.inbox = []
  unread : s.unread = []

/-- What a clean call on a clear link comes to: nothing, or one request
served. -/
theorem Call.served {s s' : Link} {x : ClientRun}
    {turns : List (Arrival × ServerTrace)} (h : s.Call enc x turns s')
    (hclear : s.Clear) (hclean : x.Clean enc) :
    s'.inbox = [] ∧
      ((turns = [] ∧ s'.thread = s.thread ∧ s'.alive = s.alive)
        ∨ ∃ b r tr y, written x.trace ≠ []
          ∧ turns = [(.request b r, tr)]
          ∧ x.op.Says enc x.sync b r ∧ s.alive = true
          ∧ (r.exec b s.thread : Store.Server _).Exec tr y
          ∧ s'.thread = y.2 ∧ (s'.alive = true ↔ y.1 = .YENOERR)) := by
  have hserves := h.serves
  unfold Serves at hserves
  rw [hclear.inbox, List.nil_append] at hserves
  split at hserves
  next halive =>
    rcases hclean with hnil | hfits
    · rw [hnil, decode_nil] at hserves
      obtain ⟨hturns, hthread, hinbox, halive'⟩ := hserves
      exact ⟨hinbox, Or.inl ⟨hturns, hthread, by rw [halive', halive]⟩⟩
    · have hpos : written x.trace ≠ [] := by
        rw [hfits.2]
        exact ClientOp.bytes_ne_nil enc x.sync x.op
      obtain ⟨b, r, hdec, hmeans⟩ := ClientOp.encoded_iff.mpr hfits
      rw [hdec] at hserves
      obtain ⟨tr, y, turns', hexec, rfl, hrest⟩ := hserves
      split at hrest
      next hok =>
        obtain ⟨rfl, hthread, hinbox, halive'⟩ := hrest
        exact ⟨hinbox, Or.inr ⟨b, r, tr, y, hpos, rfl, hmeans, halive, hexec,
          hthread, fun _ => hok, fun _ => halive'⟩⟩
      next hok =>
        obtain ⟨rfl, hthread, hinbox, halive'⟩ := hrest
        refine ⟨hinbox, Or.inr ⟨b, r, tr, y, hpos, rfl, hmeans, halive, hexec,
          hthread, fun h => ?_, fun h => absurd h hok⟩⟩
        rw [halive'] at h
        cases h
  next halive =>
    obtain ⟨hturns, hthread, hinbox, halive'⟩ := hserves
    refine ⟨hinbox, Or.inl ⟨hturns, hthread, ?_⟩⟩
    rw [halive']
    exact (Bool.eq_false_iff.mpr halive).symm

/-- The requests for values are the GETs. -/
theorem isGet_of_request {op : ClientOp} {sync : Bool} {b : Byte}
    {r : Request} (h : op.Says enc sync b r) : op.isGet = r.isGet := by
  cases op with
  | get key =>
      obtain ⟨-, k, rfl, -⟩ := h
      rfl
  | put key data | add key data | update key data =>
      obtain ⟨-, k, z, rfl, -⟩ := h
      rfl
  | setdb dbname =>
      obtain ⟨-, name, rfl, -⟩ := h
      rfl
  | del key =>
      obtain ⟨-, k, rfl, -⟩ := h
      rfl
  | start | stop | ping =>
      obtain ⟨-, rfl⟩ := h
      rfl

/-- No value of 2^32 bytes or more was sent. -/
def Small (tr : ServerTrace) : Prop :=
  ∀ out ∈ sends tr, out.1.length < 2 ^ 32 + 5

instance (tr : ServerTrace) : Decidable (Small tr) :=
  inferInstanceAs (Decidable (∀ out ∈ sends tr, out.1.length < 2 ^ 32 + 5))

/-- One response, read to its end, is read completely. -/
theorem unread_eq_nil {tr : ServerTrace} {get : Bool} {y : Yerr}
    {R U : Bytes} (hreply : Reply get (sends tr) false y)
    (hsmall : Small tr) (hread : R ++ U = FineDB.sent tr)
    (hwhole : ReadWhole get R) : U = [] := by
  unfold Small at hsmall
  unfold FineDB.sent at hread
  generalize sends tr = out at hreply hsmall hread
  obtain ⟨b, rest, rfl, hrest⟩ := hwhole
  have hlen := congrArg List.length hread
  rw [List.length_append, List.length_cons] at hlen
  rw [← List.length_eq_zero_iff]
  cases hreply with
  | plain rc y hcode =>
      rw [List.flatMap_singleton, sentBy, List.length_take,
        responseBytes_eq, List.length_singleton] at hlen
      omega
  | value s z data rc y hget =>
      rw [List.flatMap_singleton, sentBy] at hread hlen
      have hpre : b :: rest <+: responseBytes .RESP_OK s z data :=
        List.IsPrefix.trans ⟨U, hread⟩ (List.take_prefix _ _)
      rw [List.length_take, responseBytes_eq] at hlen
      rw [responseBytes_eq, List.cons_prefix_cons] at hpre
      obtain ⟨rfl, hpre⟩ := hpre
      rw [if_pos hget] at hrest
      have hodd : responseStatus (responseByte .RESP_OK s z)
          = ResponseCode.RESP_OK.toByte :=
        (odd_code_iff (by decide) s z).mpr (Or.inl rfl)
      obtain ⟨len, value, rfl, hfour, hvalue⟩ := hrest hodd
      rw [List.length_append] at hlen
      cases data with
      | none =>
          rw [List.length_singleton] at hlen
          omega
      | some d =>
          -- the length was read, so all of the data were
          obtain ⟨more, hmore⟩ := hpre
          rw [List.append_assoc] at hmore
          have hfield : len = beBytes 4 d.length :=
            List.append_inj_left hmore (by rw [hfour, beBytes_length])
          have hd : d.length < 256 ^ 4 := by
            have hbound := hsmall _ (List.mem_singleton.mpr rfl)
            rw [responseBytes_eq, List.length_cons, List.length_append,
              beBytes_length] at hbound
            omega
          rw [hfield, beNat_beBytes, Nat.mod_eq_of_lt hd] at hvalue
          rw [List.length_cons, List.length_append, beBytes_length] at hlen
          omega

/-- What the server answered, given the byte the client judges. -/
theorem answer_of_reply {tr : ServerTrace} {get late : Bool}
    {y : Yerr} {b : Byte} {rest : Bytes}
    (hreply : Reply get (sends tr) late y)
    (hsent : FineDB.sent tr = b :: rest) :
    ∃ code, Answered tr code
      ∧ (responseStatus b = ResponseCode.RESP_OK.toByte
        ↔ code = .RESP_OK ∨ code = .RESP_ERR_SERVER
          ∨ code = .RESP_ERR_TRANSACTION) := by
  unfold FineDB.sent at hsent
  unfold Answered
  rw [sends_response]
  generalize sends tr = out at hreply hsent
  have hfirst : ∀ {code : ResponseCode} {s z : Bool}
      {data : Option Bytes} {rc : Int} {more : Bytes},
      sentBy (responseBytes code s z data, rc) ++ more = b :: rest →
        b = responseByte code s z ∨ more = b :: rest := by
    intro code s z data rc more h
    unfold sentBy at h
    cases hn : rc.toNat with
    | zero =>
        rw [hn] at h
        exact Or.inr h
    | succ n =>
        rw [hn] at h
        injection h with hb
        exact Or.inl hb.symm
  cases hreply with
  | @plain code rc y hcode =>
      rw [List.flatMap_cons] at hsent
      rcases hfirst hsent with rfl | hnil
      · exact ⟨code, ⟨false, false, none, [], rfl⟩,
          odd_code_iff hcode false false⟩
      · cases hnil
  | value s z data rc y _ =>
      rw [List.flatMap_cons] at hsent
      rcases hfirst hsent with rfl | hnil
      · exact ⟨.RESP_OK, ⟨s, z, data, [], rfl⟩,
          odd_code_iff (by decide) s z⟩
      · cases hnil
  | twice rc rc' =>
      refine ⟨.RESP_OK, ⟨false, false, none, _, rfl⟩, fun _ => Or.inl rfl,
        fun _ => ?_⟩
      rw [List.flatMap_cons, List.flatMap_cons] at hsent
      rcases hfirst hsent with rfl | hmore
      · rfl
      · rcases hfirst hmore with rfl | hnil
        · rfl
        · cases hnil

variable (enc) in
/-- A call after which the session, if it goes on, is in step with the
client: what was written is its request, and if the client gives up on
the response the session ends. -/
structure InStep (x : ClientRun) (turns : List (Arrival × ServerTrace))
    (s' : Link) : Prop where
  clean : x.Clean enc
  small : ∀ turn ∈ turns, Small turn.2
  ended : written x.trace ≠ [] → x.result = .FINEDB_ERR_NETWORK →
    s'.alive = false

variable (enc) in
/-- A call that leaves nothing behind: also, it gets one response, and
what it has not read is lost. -/
structure Orderly (x : ClientRun) (turns : List (Arrival × ServerTrace))
    (s' : Link) : Prop extends InStep enc x turns s' where
  once : ∀ turn ∈ turns, lateFailure turn.2 = false
  lost : written x.trace ≠ [] → x.result = .FINEDB_ERR_NETWORK →
    s'.unread = []

theorem Call.clear {s s' : Link} {x : ClientRun}
    {turns : List (Arrival × ServerTrace)} (h : s.Call enc x turns s')
    (hclear : s.Clear) (hord : Orderly enc x turns s') : s'.Clear := by
  obtain ⟨hinbox, hserved⟩ := h.served hclear hord.clean
  refine ⟨hinbox, ?_⟩
  have hreads := h.reads
  rw [hclear.unread, List.nil_append] at hreads
  rcases hserved with ⟨rfl, -, -⟩ |
    ⟨b, r, tr, y, hpos, rfl, hmeans, -, hexec, -, -⟩
  · exact (List.append_eq_nil_iff.mp hreads).2
  · by_cases hnet : x.result = .FINEDB_ERR_NETWORK
    · exact hord.lost hpos hnet
    · rcases Prog.traces_iff.mp (x.op.reads x.sync) _ _ h.valid.exec with
        ⟨-, -, hnil⟩ | ⟨-, hv⟩
      · exact absurd (hnil hnet) hpos
      · have hreply := Prog.traces_iff.mp (Request.replies b s.thread r)
          tr y hexec
        rw [hord.once _ (List.mem_singleton.mpr rfl)] at hreply
        have hwhole := hv.whole hnet
        rw [isGet_of_request hmeans] at hwhole
        refine unread_eq_nil hreply
          (hord.small _ (List.mem_singleton.mpr rfl)) ?_ hwhole
        rw [hreads]
        exact List.flatMap_singleton _ _

/-- Over any orderly calls, losses and new connections the link stays
clear. -/
theorem clear_of_reach {fd : Nat} {s : Link}
    (h : Relation.ReflTransGen (Step enc (Orderly enc)) (fresh fd) s) :
    s.Clear := by
  induction h with
  | refl => exact ⟨rfl, rfl⟩
  | tail _ hstep ih =>
      cases hstep with
      | call hcall hord => exact hcall.clear ih hord
      | lose n =>
          refine ⟨ih.inbox, ?_⟩
          show List.take n _ = []
          rw [ih.unread, List.take_nil]
      | connect fd => exact ⟨rfl, rfl⟩

end Link

-- ================================================================ the verdict

/-- The request was executed, and the client's verdict is right exactly
if the answer was neither of the two odd errors. -/
structure VerdictIff (enc : Encoder) (x : ClientRun)
    (turns : List (Arrival × ServerTrace)) : Prop where
  served : ∃ b r tr, turns = [(.request b r, tr)]
    ∧ x.op.Says enc x.sync b r
    ∧ ((x.result ≠ .FINEDB_ERR_SERVER ↔ Answered tr .RESP_OK)
      ↔ ¬ Answered tr .RESP_ERR_SERVER
        ∧ ¬ Answered tr .RESP_ERR_TRANSACTION)
  plain : x.op.isGet = false →
    (x.result = .FINEDB_OK ↔ x.result ≠ .FINEDB_ERR_SERVER)

/-- On a connection whose calls so far were orderly, with any losses and
new connections between them: a call that wrote its request and whose
response byte arrives takes it for successful if and only if the handler
answered RESP_OK, or else that handler answered RESP_ERR_SERVER or
RESP_ERR_TRANSACTION. -/
theorem client_verdict (enc : Encoder) (fd : Nat) (s s' : Link)
    (x : ClientRun) (turns : List (Arrival × ServerTrace)) (b : Byte)
    (hreach : Relation.ReflTransGen (Link.Step enc (Link.Orderly enc))
      (.fresh fd) s)
    (hcall : s.Call enc x turns s') (hclean : x.Clean enc)
    (hb : arrived x.trace = some b) : VerdictIff enc x turns := by
  have hclear := Link.clear_of_reach hreach
  obtain ⟨-, hserved⟩ := hcall.served hclear hclean
  have hreads := hcall.reads
  rw [hclear.unread, List.nil_append] at hreads
  rcases Prog.traces_iff.mp (x.op.reads x.sync) _ _ hcall.valid.exec with
    ⟨-, hnone, -⟩ | ⟨-, hv⟩
  · rw [hnone] at hb
    cases hb
  · obtain ⟨rest, hrest⟩ := hv.first b hb
    have hverdict := hv.judge b hb
    refine ⟨?_, fun hget => ?_⟩
    · rcases hserved with ⟨rfl, -, -⟩ |
        ⟨q, r, tr, y, -, rfl, hmeans, -, hexec, -, -⟩
      · rw [hrest] at hreads
        cases hreads
      · refine ⟨q, r, tr, rfl, hmeans, ?_⟩
        have hreply := Prog.traces_iff.mp (Request.replies q s.thread r)
          tr y hexec
        have hsent : sent tr = b :: (rest ++ s'.unread) := by
          rw [hrest] at hreads
          rw [← List.cons_append, hreads]
          exact (List.flatMap_singleton _ _).symm
        obtain ⟨code, hcode, hodd⟩ := Link.answer_of_reply hreply hsent
        have hanswered : ∀ code', Answered tr code' ↔ code = code' :=
          fun code' => ⟨fun h => hcode.unique h, fun h => h ▸ hcode⟩
        rw [hanswered, hanswered, hanswered, ne_eq, hverdict, ne_eq,
          not_not, hodd]
        cases code with
        | _ => simp
    · rcases hv.plain b hb hget with hok | herr
      · rw [hok]
        simp
      · rw [herr]
        simp

/-- PING on a new connection, answered. -/
def pingRun : ClientRun :=
  ⟨.ping, false, [⟨.write [0], (1 : Int)⟩, ⟨.readByte, some 1⟩], .FINEDB_OK⟩

def pingTurn : Arrival × ServerTrace :=
  (.request 0 .ping, [⟨.other (.sendmsg [1]), (1 : Int)⟩])

theorem ping_call {s : Link} (halive : s.alive = true)
    (hclear : s.Clear) : s.Call literalEncoder pingRun [pingTurn] s := by
  obtain ⟨thread, alive, inbox, unread⟩ := s
  cases halive
  cases hclear.inbox
  cases hclear.unread
  refine ⟨⟨⟨(1 : Int), _, rfl, some 1, _, rfl, rfl, rfl⟩, ?_⟩, ?_, rfl⟩
  · simp [pingRun, ZipsBy]
  · have hdec : decode [0] = .request 0 .ping .done :=
      decode_single_iff.mpr ⟨rfl, rfl⟩
    show (decode [0]).Serving _ _ _ _ true
    rw [hdec]
    exact ⟨_, (.YENOERR, _), [], ⟨(1 : Int), [], rfl, rfl, rfl⟩, rfl, rfl,
      rfl, rfl, rfl⟩

theorem client_verdict_ping :
    pingRun.result = .FINEDB_OK
      ∧ VerdictIff literalEncoder pingRun [pingTurn] :=
  ⟨rfl, client_verdict literalEncoder 5 _ _ pingRun [pingTurn] 1 .refl
    (ping_call rfl ⟨rfl, rfl⟩) (Or.inr ⟨trivial, rfl⟩) rfl⟩

/-- STOP on a new connection, refused. -/
def stopRun : ClientRun :=
  ⟨.stop, false, [⟨.write [6], (1 : Int)⟩, ⟨.readByte, some 7⟩], .FINEDB_OK⟩

def stopTurn : Arrival × ServerTrace :=
  (.request 6 .stop, [⟨.other (.sendmsg [7]), (1 : Int)⟩])

/-- STOP without a transaction is answered RESP_ERR_TRANSACTION, and
`finedb_stop` returns `FINEDB_OK`. -/
theorem stop_refused_taken_for_success :
    (Link.fresh 5).Call literalEncoder stopRun [stopTurn]
        { Link.fresh 5 with alive := false }
      ∧ stopRun.Clean literalEncoder ∧ arrived stopRun.trace = some 7
      ∧ Answered stopTurn.2 .RESP_ERR_TRANSACTION
      ∧ ¬ Answered stopTurn.2 .RESP_OK
      ∧ stopRun.result = .FINEDB_OK := by
  have hanswered : Answered stopTurn.2 .RESP_ERR_TRANSACTION :=
    ⟨false, false, none, [], rfl⟩
  refine ⟨⟨⟨⟨(1 : Int), _, rfl, some 7, _, rfl, rfl, rfl⟩, ?_⟩, ?_, rfl⟩,
    Or.inr ⟨trivial, rfl⟩, rfl, hanswered, fun hok => ?_, rfl⟩
  · simp [stopRun, ZipsBy]
  · have hdec : decode [6] = .request 6 .stop .done :=
      decode_single_iff.mpr ⟨rfl, rfl⟩
    show (decode [6]).Serving _ _ _ _ false
    rw [hdec]
    exact ⟨_, (.YEACCESS, _), [], ⟨(1 : Int), [], rfl, rfl, rfl⟩, rfl, rfl,
      rfl, rfl, rfl⟩
  · cases hanswered.unique hok

end FineDB

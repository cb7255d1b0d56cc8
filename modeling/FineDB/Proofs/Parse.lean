/-
The server's reading of requests against the reference grammar.

The server reads each field with a separate `connection_read_data` and
`ydynabin_forward` over a buffer that may hold leftovers of any earlier
chunk. What makes the chunks disappear is one fact about that pair
(`readForward_some`, `readForward_none`): it depends on the connection
only through `Conn.bytes`, the buffer followed by everything still to
be received, and takes its field off the front of that string. The rest
follows the code: each handler against its command's body in the
grammar, then the request loop against `decode`, by induction on the
turns left.

A session is compared as a program. The equation
`serveConnection_eq_decode` says that the session makes the calls of the
decoded requests and no others, in the same order and with the same
arguments, whatever the calls answer.
-/
import FineDB.Model.Session

namespace FineDB

open Effect Mvcc

variable {Dbi : Type}

-- ============================================================ receiving

/-- Receiving moves bytes from the socket to the buffer. It succeeds
exactly when there are enough of them. -/
theorem receiveUntil_spec (size : Nat) (ending : Ending) (buff : Bytes)
    (chunks : List Chunk) :
    let r := receiveUntil size ending buff chunks
    r.2.1 ++ r.2.2.flatMap Chunk.bytes = buff ++ chunks.flatMap Chunk.bytes
      ∧ (r.1 = .YENOERR → size ≤ r.2.1.length)
      ∧ (r.1 = .YENOERR
          ↔ size ≤ (buff ++ chunks.flatMap Chunk.bytes).length) := by
  induction chunks generalizing buff with
  | nil =>
      simp only [receiveUntil, List.flatMap_nil, List.append_nil]
      split
      next h => simp [h]
      next h => cases ending <;> simp [h]
  | cons chunk chunks ih =>
      simp only [receiveUntil]
      split
      next h =>
        refine ⟨rfl, fun _ => h, ?_⟩
        simp only [List.length_append, true_iff]
        omega
      next =>
        obtain ⟨hbytes, hlen, hiff⟩ := ih (buff ++ chunk.bytes)
        rw [List.append_assoc] at hbytes hiff
        rw [List.flatMap_cons]
        exact ⟨hbytes, hlen, hiff⟩

variable {c : Conn} {size : Nat}

/-- A field that is there is read off the front of the bytes to come. -/
theorem readForward_some (hfd : 0 ≤ c.thread.fd)
    (hsize : size ≤ c.bytes.length) :
    ∃ c', readForward c size = (some (c.bytes.take size), c')
      ∧ c'.bytes = c.bytes.drop size ∧ c'.thread = c.thread := by
  obtain ⟨hbytes, hlen, hiff⟩ :=
    receiveUntil_spec size c.sock.ending c.buff c.sock.chunks
  have hok := hiff.mpr hsize
  have hle := hlen hok
  have hfd' : ¬ c.thread.fd < 0 := by omega
  rw [readForward, connectionReadData, if_neg hfd']
  simp only [hok, if_true]
  refine ⟨_, Prod.ext ?_ rfl, ?_, rfl⟩
  · show some _ = some _
    rw [Conn.bytes, Socket.bytes, ← hbytes,
      List.take_append_of_le_length hle]
  · show List.drop _ _ ++ _ = _
    rw [Conn.bytes, Socket.bytes, Socket.bytes, ← hbytes,
      List.drop_append_of_le_length hle]

/-- A field that is not all there fails, and the thread is as before. -/
theorem readForward_none (hfd : 0 ≤ c.thread.fd)
    (hsize : c.bytes.length < size) :
    ∃ c', readForward c size = (none, c') ∧ c'.thread = c.thread := by
  obtain ⟨-, -, hiff⟩ :=
    receiveUntil_spec size c.sock.ending c.buff c.sock.chunks
  have hbad : ¬ (receiveUntil size c.sock.ending c.buff c.sock.chunks).1
      = .YENOERR := by
    rw [hiff]
    exact Nat.not_le.mpr hsize
  have hfd' : ¬ c.thread.fd < 0 := by omega
  rw [readForward, connectionReadData, if_neg hfd']
  simp only [hbad, if_false]
  exact ⟨_, rfl, rfl⟩

/-- Reading a length and then that many bytes reads a field of the
grammar. -/
theorem readForward_field {w : Nat} {f : Field w} {rest : Bytes}
    (hfd : 0 ≤ c.thread.fd) (hf : takeField w c.bytes = some (f, rest)) :
    ∃ len c₁ c₂, readForward c w = (some len, c₁)
      ∧ beNat len = f.bytes.length ∧ c₁.thread = c.thread
      ∧ rest = c₁.bytes.drop f.bytes.length
      ∧ readForward c₁ f.bytes.length = (some f.bytes, c₂)
      ∧ c₂.thread = c.thread ∧ c₂.bytes = rest := by
  obtain ⟨hw, hn, hbytes, rfl⟩ := takeField_some hf
  obtain ⟨c₁, hread₁, hbytes₁, hth₁⟩ := readForward_some hfd hw
  have hlen : f.bytes.length = beNat (c.bytes.take w) := by
    rw [hbytes, List.length_take]
    omega
  rw [← hbytes₁] at hn hbytes ⊢
  rw [← hlen] at hn hbytes ⊢
  obtain ⟨c₂, hread₂, hbytes₂, hth₂⟩ := readForward_some (hth₁ ▸ hfd) hn
  rw [← hbytes] at hread₂
  exact ⟨_, c₁, c₂, hread₁, hlen.symm, hth₁, rfl, hread₂,
    hth₂.trans hth₁, hbytes₂⟩

/-- Where the grammar finds no whole field, the server fails to read
the length or fails to read the bytes. -/
theorem readForward_field_none {w : Nat} (hfd : 0 ≤ c.thread.fd)
    (hf : takeField w c.bytes = none) :
    (c.bytes.length < w ∧
        ∃ c₁, readForward c w = (none, c₁) ∧ c₁.thread = c.thread)
      ∨ (w ≤ c.bytes.length ∧ ∃ len c₁ c₂, readForward c w = (some len, c₁)
          ∧ c₁.thread = c.thread ∧ readForward c₁ (beNat len) = (none, c₂)
          ∧ c₂.thread = c.thread) := by
  rcases takeField_none hf with hw | ⟨hw, hn⟩
  · exact Or.inl ⟨hw, readForward_none hfd hw⟩
  · obtain ⟨c₁, hread₁, hbytes₁, hth₁⟩ := readForward_some hfd hw
    rw [← hbytes₁] at hn
    obtain ⟨c₂, hread₂, hth₂⟩ := readForward_none (hth₁ ▸ hfd) hn
    exact Or.inr ⟨hw, _, c₁, c₂, hread₁, hth₁, hread₂, hth₂.trans hth₁⟩

-- ============================================================= handlers

/-- What a handler's result means to the request loop: the code, the
thread, and the bytes to come if there is a next request. -/
def settle (x : Yerr × Conn) : Yerr × TcpThread × Option Bytes :=
  (x.1, x.2.thread, if x.1 = .YENOERR then some x.2.bytes else none)

/-- The same for a decoded request followed by `rest`. -/
def settled (rest : Bytes) (x : Yerr × TcpThread) :
    Yerr × TcpThread × Option Bytes :=
  (x.1, x.2, if x.1 = .YENOERR then some rest else none)

section Handlers

variable (f : Flags) (hfd : 0 ≤ c.thread.fd)
include hfd

theorem commandGet_complete {key : Field 2} {rest : Bytes}
    (h : takeField 2 c.bytes = some (key, rest)) :
    settle <$> (commandGet f c : Server Dbi _)
      = settled rest <$> (do
          return (← withAlloc key.bytes.length
            (commandGetExec f c.thread key.bytes), c.thread)) := by
  obtain ⟨len, c₁, c₂, hr₁, hlen, -, -, hr₂, hth, hbytes⟩ :=
    readForward_field hfd h
  simp only [commandGet, hr₁, hlen, hr₂, withAlloc, map_eq_pure_bind,
    bind_assoc]
  congr 1
  funext allocated
  cases allocated <;> simp [settle, settled, hth, hbytes]

theorem commandDel_complete {key : Field 2} {rest : Bytes}
    (h : takeField 2 c.bytes = some (key, rest)) :
    settle <$> (commandDel f c : Server Dbi _)
      = settled rest <$> (do
          return (← withAlloc key.bytes.length
            (commandDelExec f c.thread key.bytes), c.thread)) := by
  obtain ⟨len, c₁, c₂, hr₁, hlen, -, -, hr₂, hth, hbytes⟩ :=
    readForward_field hfd h
  simp only [commandDel, hr₁, hlen, hr₂, withAlloc, map_eq_pure_bind,
    bind_assoc]
  congr 1
  funext allocated
  cases allocated <;> simp [settle, settled, hth, hbytes]

theorem commandPut_complete {key : Field 2} {data : Field 4}
    {rest' rest : Bytes} (h : takeField 2 c.bytes = some (key, rest'))
    (h' : takeField 4 rest' = some (data, rest)) :
    settle <$> (commandPut f c : Server Dbi _)
      = settled rest <$> (do
          let put := commandPutExec false false f c.thread
            key.bytes data.bytes
          return (← withAlloc key.bytes.length
            (if data.bytes.length = 0 then put
              else withAlloc data.bytes.length put), c.thread)) := by
  obtain ⟨len, c₁, c₂, hr₁, hlen, -, -, hr₂, hth, rfl⟩ :=
    readForward_field hfd h
  obtain ⟨len', c₃, c₄, hr₃, hlen', hth₃, hrest, hr₄, hth₄, hbytes⟩ :=
    readForward_field (hth ▸ hfd) h'
  simp only [commandPut, commandPutWith, hr₁, hlen, hr₂, hr₃, hlen', hr₄,
    withAlloc, map_eq_pure_bind, bind_assoc]
  congr 1
  funext allocated
  cases allocated with
  | false =>
      -- the name could not be allocated: the data are not read
      simp [settle, settled, hth, commandError]
  | true =>
      by_cases hd : data.bytes.length = 0
      · -- no data: nothing is read after their length
        rw [hd, List.drop_zero] at hrest
        have hnil : data.bytes = [] := List.length_eq_zero_iff.mp hd
        simp [hnil, settle, settled, hth₃, hth, hrest]
      · simp only [hd, if_false, if_true, bind_assoc]
        congr 1
        funext allocated
        cases allocated <;> simp [settle, settled, hth₄, hth, hbytes]

theorem commandSetdb_complete {name : Field 1} {rest : Bytes}
    (h : takeField 1 c.bytes = some (name, rest)) :
    settle <$> (commandSetdb c : Server Dbi _)
      = settled rest <$> commandSetdbExec c.thread name.bytes := by
  obtain ⟨hw, hn, hname, hrest⟩ := takeField_some h
  obtain ⟨c₁, hr₁, hbytes₁, hth₁⟩ := readForward_some hfd hw
  have hlen : name.bytes.length = beNat (c.bytes.take 1) := by
    rw [hname, List.length_take]
    omega
  rw [← hlen, ← hbytes₁] at hn hname hrest
  simp only [commandSetdb, commandSetdbExec, hr₁, ← hlen, hth₁]
  by_cases hd : name.bytes.length = 0
  · rw [hd, List.drop_zero] at hrest
    simp [hd, settle, settled, hrest, Conn.bytes]
  · -- the thread has lost its name by now, its bytes are the same
    obtain ⟨c₂, hr₂, hbytes₂, hth₂⟩ :=
      readForward_some (c := ⟨{ c.thread with dbname := none }, c₁.buff,
        c₁.sock⟩) hfd hn
    have hname' : name.bytes = List.take name.bytes.length
      (Conn.bytes ⟨{ c.thread with dbname := none }, c₁.buff, c₁.sock⟩) :=
      hname
    have hrest' : c₂.bytes = rest := hbytes₂.trans hrest.symm
    rw [← hname'] at hr₂
    simp only [hd, if_false, hr₂, hth₂, map_eq_pure_bind, bind_assoc]
    congr 1
    funext allocated
    cases allocated with
    | false => simp [settle, settled, hth₂, commandError]
    | true =>
        simp [settle, settled, ← hrest', Conn.bytes]

theorem commandGet_incomplete (h : takeField 2 c.bytes = none) :
    settle <$> (commandGet f c : Server Dbi _)
      = (fun e => (e, c.thread, none)) <$> commandError := by
  rcases readForward_field_none hfd h with
    ⟨-, c₁, hr₁, hth⟩ | ⟨-, len, c₁, c₂, hr₁, -, hr₂, hth⟩
  · simp [commandGet, hr₁, hth, settle, commandError]
  · simp [commandGet, hr₁, hr₂, hth, settle, commandError]

theorem commandDel_incomplete (h : takeField 2 c.bytes = none) :
    settle <$> (commandDel f c : Server Dbi _)
      = (fun e => (e, c.thread, none)) <$> commandError := by
  rcases readForward_field_none hfd h with
    ⟨-, c₁, hr₁, hth⟩ | ⟨-, len, c₁, c₂, hr₁, -, hr₂, hth⟩
  · simp [commandDel, hr₁, hth, settle, commandError]
  · simp [commandDel, hr₁, hr₂, hth, settle, commandError]

/-- A PUT cut in its name. -/
theorem commandPut_incomplete_name (h : takeField 2 c.bytes = none) :
    settle <$> (commandPut f c : Server Dbi _)
      = (fun e => (e, c.thread, none)) <$> commandError := by
  rcases readForward_field_none hfd h with
    ⟨-, c₁, hr₁, hth⟩ | ⟨-, len, c₁, c₂, hr₁, -, hr₂, hth⟩
  · simp [commandPut, commandPutWith, hr₁, hth, settle, commandError]
  · simp [commandPut, commandPutWith, hr₁, hr₂, hth, settle, commandError]

/-- A PUT cut in its data: its name has been allocated by then. -/
theorem commandPut_incomplete_data {key : Field 2} {rest' : Bytes}
    (h : takeField 2 c.bytes = some (key, rest'))
    (h' : takeField 4 rest' = none) :
    settle <$> (commandPut f c : Server Dbi _)
      = (do
          let _ ← env (.ymalloc key.bytes.length)
          (fun e => (e, c.thread, none)) <$> commandError) := by
  obtain ⟨len, c₁, c₂, hr₁, hlen, -, -, hr₂, hth, rfl⟩ :=
    readForward_field hfd h
  simp only [commandPut, commandPutWith, hr₁, hlen, hr₂, map_bind]
  congr 1
  funext allocated
  cases allocated with
  | false => simp [settle, hth, commandError]
  | true =>
      rcases readForward_field_none (hth ▸ hfd) h' with
        ⟨-, c₃, hr₃, hth₃⟩ | ⟨hw, len', c₃, c₄, hr₃, hth₃, hr₄, hth₄⟩
      · simp [hr₃, settle, hth₃, hth, commandError]
      · -- a length that the data do not meet is not zero
        have hpos : beNat len' ≠ 0 := by
          intro hzero
          obtain ⟨c₅, hr₅, -⟩ :=
            readForward_some (hth₃ ▸ hth ▸ hfd)
              (Nat.zero_le c₃.bytes.length)
          rw [hzero, hr₅] at hr₄
          cases hr₄
        simp [hr₃, hpos, hr₄, settle, hth₄, hth, commandError]

theorem commandSetdb_incomplete (h : takeField 1 c.bytes = none) :
    settle <$> (commandSetdb c : Server Dbi _)
      = (fun e => (e, if c.bytes ≠ [] then
          { c.thread with dbname := none } else c.thread, none))
            <$> commandError := by
  rcases takeField_none h with hw | ⟨hw, hn⟩
  · have hnil : c.bytes = [] := List.length_eq_zero_iff.mp (by omega)
    obtain ⟨c₁, hr₁, hth⟩ := readForward_none hfd hw
    simp [commandSetdb, hr₁, hnil, hth, settle, commandError]
  · have hne : c.bytes ≠ [] := List.length_pos_iff.mp hw
    obtain ⟨c₁, hr₁, hbytes₁, hth₁⟩ := readForward_some hfd hw
    rw [← hbytes₁] at hn
    have hpos : beNat (c.bytes.take 1) ≠ 0 := by omega
    obtain ⟨c₂, hr₂, hth₂⟩ :=
      readForward_none (c := ⟨{ c.thread with dbname := none }, c₁.buff,
        c₁.sock⟩) hfd hn
    simp [commandSetdb, hr₁, hpos, hth₁, hr₂, hth₂, hne, settle,
      commandError]

end Handlers

-- ===================================================== one turn, the loop

variable (Dbi) in
/-- A handler on a connection that holds its request does what the
decoded request does, and leaves the rest to be read. -/
theorem handler_complete (hfd : 0 ≤ c.thread.fd) {b : Byte} {r : Request}
    {rest : Bytes}
    (h : decodeBody (requestCommand b) c.bytes = .complete r rest) :
    ∃ func, @commands Dbi (requestCommand b) = some func
      ∧ settle <$> func (requestFlags b c.thread) c
          = settled rest <$> r.exec b c.thread := by
  -- a handler that reads nothing leaves the connection's bytes alone
  have hthread : ∀ p : TcpThread → Server Dbi (Yerr × TcpThread),
      settle <$> onThread p c = settled c.bytes <$> p c.thread := by
    intro p
    simp only [onThread, map_eq_pure_bind, bind_assoc, pure_bind]
    rfl
  unfold decodeBody at h
  split at h
  case h_1 hb | h_6 hb | h_7 hb =>
    cases h
    rw [hb]
    exact ⟨_, rfl, hthread _⟩
  case h_2 hb =>
    rw [hb]
    obtain ⟨key, _, hf, heq⟩ := Body.field_complete h
    cases heq
    exact ⟨_, rfl, commandGet_complete _ hfd hf⟩
  case h_3 hb =>
    rw [hb]
    obtain ⟨key, _, hf, heq⟩ := Body.field_complete h
    cases heq
    exact ⟨_, rfl, commandDel_complete _ hfd hf⟩
  case h_4 hb =>
    rw [hb]
    obtain ⟨key, _, hf, h⟩ := Body.field_complete h
    obtain ⟨data, _, hf', heq⟩ := Body.field_complete h
    cases heq
    exact ⟨_, rfl, commandPut_complete _ hfd hf hf'⟩
  case h_5 hb =>
    rw [hb]
    obtain ⟨name, _, hf, heq⟩ := Body.field_complete h
    cases heq
    exact ⟨_, rfl, commandSetdb_complete hfd hf⟩
  case h_8 => cases h

variable (Dbi) in
/-- A handler on a connection that ends inside its request fails as
`cutExec` says. -/
theorem handler_incomplete (hfd : 0 ≤ c.thread.fd) {b : Byte}
    (h : decodeBody (requestCommand b) c.bytes = .incomplete) :
    ∃ func, @commands Dbi (requestCommand b) = some func
      ∧ settle <$> func (requestFlags b c.thread) c
          = (fun th => (Yerr.YEIO, th, none))
              <$> cutExec b c.bytes c.thread := by
  unfold decodeBody at h
  split at h
  case h_1 | h_6 | h_7 | h_8 => cases h
  case h_2 hb =>
    rw [hb]
    rcases Body.field_incomplete h with hf | ⟨_, _, -, h⟩
    · refine ⟨_, rfl, (commandGet_incomplete _ hfd hf).trans ?_⟩
      simp [cutExec, cutAlloc, hb, commandError]
    · cases h
  case h_3 hb =>
    rw [hb]
    rcases Body.field_incomplete h with hf | ⟨_, _, -, h⟩
    · refine ⟨_, rfl, (commandDel_incomplete _ hfd hf).trans ?_⟩
      simp [cutExec, cutAlloc, hb, commandError]
    · cases h
  case h_4 hb =>
    rw [hb]
    rcases Body.field_incomplete h with hf | ⟨key, rest', hf, h⟩
    · refine ⟨_, rfl, (commandPut_incomplete_name _ hfd hf).trans ?_⟩
      simp [cutExec, cutAlloc, hb, hf, commandError]
    · rcases Body.field_incomplete h with hf' | ⟨_, _, -, h⟩
      · refine ⟨_, rfl, (commandPut_incomplete_data _ hfd hf hf').trans ?_⟩
        simp [cutExec, cutAlloc, hb, hf, commandError]
      · cases h
  case h_5 hb =>
    rw [hb]
    rcases Body.field_incomplete h with hf | ⟨_, _, -, h⟩
    · refine ⟨_, rfl, (commandSetdb_incomplete hfd hf).trans ?_⟩
      by_cases hnil : c.bytes = [] <;>
        simp [cutExec, cutAlloc, hb, hnil, commandError]
    · cases h

/-- A command the grammar does not know is not in the table. -/
theorem commands_unknown {command : Nat} {S : Bytes}
    (h : decodeBody command S = .unknown) :
    @commands Dbi command = none := by
  have hfield : ∀ {w : Nat} {S : Bytes} {k : Field w → Bytes → Body},
      (∀ f S', k f S' ≠ .unknown) → Body.field w S k ≠ .unknown := by
    intro w S k hk heq
    unfold Body.field at heq
    split at heq
    · exact hk _ _ heq
    · cases heq
  unfold decodeBody at h
  split at h
  case h_1 | h_6 | h_7 => cases h
  case h_2 | h_3 | h_5 => exact absurd h (hfield fun _ _ => nofun)
  case h_4 =>
    exact absurd h (hfield fun _ _ => hfield fun _ _ => nofun)
  case h_8 =>
    unfold commands
    split <;> first | rfl | contradiction

/-- No request changes its connection's descriptor. -/
theorem Request.exec_fd (b : Byte) (thread : TcpThread) (r : Request) :
    (r.exec b thread : Server Dbi _).Ensures
      fun x => x.2.fd = thread.fd := by
  have hlast : ∀ {α : Type} (p : Server Dbi α) (g : α → Yerr × TcpThread),
      (∀ a, (g a).2.fd = thread.fd) →
      (p >>= fun a => pure (g a)).Ensures fun x => x.2.fd = thread.fd :=
    fun p g hg => Prog.ensures_bind_pure hg p
  cases r with
  | ping => exact hlast _ _ fun _ => rfl
  | get key => exact hlast _ _ fun _ => rfl
  | del key => exact hlast _ _ fun _ => rfl
  | put key data => exact hlast _ _ fun _ => rfl
  | setdb name =>
      simp only [Request.exec, commandSetdbExec]
      split
      · exact hlast _ _ fun _ => rfl
      · intro allocated
        cases allocated with
        | false => exact hlast commandError _ fun _ => rfl
        | true => exact hlast connectionSendOk _ fun _ => rfl
  | start =>
      simp only [Request.exec, commandStart]
      have hbegin : ∀ transaction : Option Nat,
          Prog.Ensures (fun x => x.2.fd = thread.fd)
            (if transaction = none then do
              return (← transactionError,
                { thread with transaction := transaction })
            else do
              let _ ← connectionSendOk
              return ((.YENOERR, { thread with transaction := transaction })
                : Yerr × TcpThread) : Server Dbi _) := by
        intro transaction
        split
        · exact hlast _ _ fun _ => rfl
        · exact hlast _ _ fun _ => rfl
      split
      · intro _
        exact hbegin
      · exact hbegin
  | stop =>
      simp only [Request.exec, commandStop]
      split
      · exact hlast _ _ fun _ => rfl
      · intro _
        exact hlast connectionSendOk _ fun _ => rfl

/-- One turn of the loop on a connection whose next byte is `b`. -/
theorem requestLoop_turn (fuel : Nat) {b : Byte} {S : Bytes}
    (hfd : 0 ≤ c.thread.fd) (hbytes : c.bytes = b :: S) :
    ∃ c₁, c₁.thread = c.thread ∧ c₁.bytes = S
      ∧ (requestLoop (fuel + 1) c : Server Dbi _)
        = match commands (requestCommand b) with
          | none => do
              let _ ← connectionSendError .RESP_ERR_PROTOCOL
              return c₁
          | some func => do
              let r ← func (requestFlags b c₁.thread) c₁
              if r.1 = .YENOERR then requestLoop fuel r.2 else return r.2 := by
  obtain ⟨c₁, hr, hbytes₁, hth⟩ :=
    readForward_some hfd (show 1 ≤ c.bytes.length by simp [hbytes])
  rw [hbytes] at hr hbytes₁
  refine ⟨c₁, hth, hbytes₁, ?_⟩
  rw [requestLoop, hr]
  rfl

/-- The request loop executes the decoded bytes, given a turn for each
of them and one more. -/
theorem requestLoop_eq {fuel : Nat} (hfd : 0 ≤ c.thread.fd)
    (hfuel : c.bytes.length < fuel) :
    Conn.thread <$> (requestLoop fuel c : Server Dbi _)
      = (decode c.bytes).exec c.thread := by
  induction fuel generalizing c with
  | zero => omega
  | succ fuel ih =>
      cases hbytes : c.bytes with
      | nil =>
          obtain ⟨c₁, hr, hth⟩ :=
            readForward_none hfd (show c.bytes.length < 1 by simp [hbytes])
          simp [requestLoop, hr, decode_nil, Stream.exec, hth]
      | cons b S =>
          obtain ⟨c₁, hth, rfl, hturn⟩ := requestLoop_turn fuel hfd hbytes
          have hfd₁ : 0 ≤ c₁.thread.fd := hth ▸ hfd
          have hfuel₁ : c₁.bytes.length < fuel := by
            rw [hbytes, List.length_cons] at hfuel
            omega
          rw [hturn, decode_cons, ← hth]
          cases hdec : decodeBody (requestCommand b) c₁.bytes with
          | complete r rest =>
              obtain ⟨func, hfunc, hsettle⟩ := handler_complete Dbi hfd₁ hdec
              have hrest := decodeBody_length hdec
              simp only [hfunc, Stream.exec, map_bind]
              -- both sides go on with `rest` or stop, by the same code
              refine Prog.bind_congr_of_map hsettle
                (Request.exec_fd b c₁.thread r) ?_
              rintro ⟨e, c₂⟩ ⟨e', th⟩ heq hfd₂
              simp only [settle, settled, Prod.mk.injEq] at heq
              obtain ⟨rfl, rfl, heq⟩ := heq
              by_cases hok : e = .YENOERR
              · simp only [hok, if_true, Option.some.injEq] at heq ⊢
                rw [← heq]
                exact ih (hfd₂ ▸ hfd₁) (by rw [heq]; omega)
              · simp [hok]
          | incomplete =>
              obtain ⟨func, hfunc, hsettle⟩ :=
                handler_incomplete Dbi hfd₁ hdec
              simp only [hfunc, Stream.exec, map_bind]
              rw [← bind_pure (cutExec b c₁.bytes c₁.thread)]
              refine Prog.bind_congr_of_map hsettle
                (Prog.ensures_true _) ?_
              rintro ⟨e, c₂⟩ th heq -
              simp only [settle, Prod.mk.injEq] at heq
              obtain ⟨rfl, rfl, -⟩ := heq
              simp
          | unknown =>
              have hnone : @commands Dbi (requestCommand b) = none :=
                commands_unknown hdec
              simp [hnone, Stream.exec]

/-- What a cut request may do: allocate and answer. -/
def Harmless (call : (serverSig Dbi).Call) : Prop :=
  (∃ size, call = .other (.ymalloc size))
    ∨ ∃ bytes, call = .other (.sendmsg bytes)

theorem cutExec_harmless (b : Byte) (part : Bytes) (thread : TcpThread) :
    (cutExec b part thread : Server Dbi _).Calls Harmless := by
  have halloc : (cutAlloc b part : Server Dbi Unit).Calls Harmless := by
    unfold cutAlloc
    split
    · exact ⟨Or.inl ⟨_, rfl⟩, fun _ => trivial⟩
    · exact trivial
  refine Prog.calls_bind halloc fun _ => Prog.calls_bind ?_ fun _ => trivial
  refine Prog.calls_bind ?_ fun _ => trivial
  exact connectionSendResponse_calls (fun _ => Or.inr ⟨_, rfl⟩) _ _ _ _

/-- A connection is its decoded bytes and the disconnection. -/
theorem serveConnection_exec (thread : TcpThread) (fd : Nat)
    (sock : Socket) :
    (serveConnection thread fd sock : Server Dbi _) = (do
      let th ← (decode sock.bytes).exec { thread with fd := fd }
      connectionThreadDisconnect th) := by
  let c : Conn := ⟨{ thread with fd := fd }, [], sock⟩
  have hloop : Conn.thread <$> (requestLoop (sock.bytes.length + 1) c
      : Server Dbi _) = (decode sock.bytes).exec c.thread :=
    requestLoop_eq (Int.natCast_nonneg fd) (Nat.lt_succ_self _)
  rw [← hloop, map_eq_pure_bind, bind_assoc]
  rfl

/-- A connection executes exactly the requests of its bytes under the
reference grammar, in order, up to the first whose handler ends the
session, whatever chunks the bytes came in and however receiving ended;
and a request cut at the end makes no call that reaches the store or the
writer's queue. -/
theorem serveConnection_eq_decode (thread : TcpThread) (fd : Nat)
    (sock : Socket) :
    (serveConnection thread fd sock : Server Dbi _) = (do
        let th ← (decode sock.bytes).exec { thread with fd := fd }
        connectionThreadDisconnect th)
      ∧ ∀ b part th, (cutExec b part th : Server Dbi _).Calls Harmless :=
  ⟨serveConnection_exec thread fd sock, cutExec_harmless⟩

end FineDB

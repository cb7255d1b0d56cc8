/-
The queue between two threads (lib/nanomsg/src/transports/inproc):
`nn_msgqueue`, in which the messages for a session wait.

The queue is a chain of chunks of 126 messages, written at `out` and
read at `in`. A chunk that is full is followed by another one, which is
the chunk in `cache` if there is one; a chunk that has been read to its
end becomes the cache, or is freed if there is a cache already. The
chunks are cells of a heap (Lib/Heap.lean) and `next` is a pointer, as
in the source. To move a message into a slot or out of it is to copy it;
a slot in which nothing has been put since the chunk was allocated has no
value, and to move a message out of it is a fault.

`count` and `mem` are `size_t`; they count messages that are in memory,
and do not overflow.
-/
import FineDB.Lib.Heap
import FineDB.Model.Basic

namespace FineDB.Inproc

/-- `struct nn_msg` -/
structure Msg where
  hdr : Bytes
  body : Bytes
deriving DecidableEq, Repr

def Msg.size (msg : Msg) : Nat := msg.hdr.length + msg.body.length

/-- What the messages of a queue take. -/
def totalSize : List Msg → Nat
  | [] => 0
  | msg :: q => msg.size + totalSize q

@[simp] theorem totalSize_append (q : List Msg) (msg : Msg) :
    totalSize (q ++ [msg]) = totalSize q + msg.size := by
  induction q with
  | nil => exact Nat.add_comm _ _
  | cons m q ih =>
      rw [List.cons_append, totalSize, ih, totalSize, Nat.add_assoc]

def granularity : Nat := 126

/-- `struct nn_msgqueue_chunk` -/
structure MsgqueueChunk where
  msgs : Nat → Option Msg
  next : Nat

/-- `nn_msg_mv (&chunk->msgs [pos], msg)` -/
def MsgqueueChunk.put (chunk : MsgqueueChunk) (pos : Nat) (msg : Msg) :
    Except Fault MsgqueueChunk :=
  if pos < granularity then
    .ok { chunk with msgs := Function.update chunk.msgs pos (some msg) }
  else .error (.index pos)

/-- `nn_msg_mv (msg, &chunk->msgs [pos])` -/
def MsgqueueChunk.take (chunk : MsgqueueChunk) (pos : Nat) :
    Except Fault Msg :=
  if pos < granularity then
    match chunk.msgs pos with
    | some msg => .ok msg
    | none => .error (.index pos)
  else .error (.index pos)

/-- `struct nn_msgqueue`, with the memory it is in. -/
structure Msgqueue where
  heap : Heap MsgqueueChunk
  outChunk : Nat
  outPos : Nat
  inChunk : Nat
  inPos : Nat
  count : Nat
  mem : Nat
  maxmem : Nat
  cache : Nat

namespace Msgqueue

/-- A chunk as `nn_alloc` returns it, and `next = NULL`. -/
def newChunk : MsgqueueChunk := ⟨fun _ => none, 0⟩

/-- `nn_msgqueue_init` -/
def init (maxmem : Nat) : Msgqueue :=
  let (chunk, heap) := Heap.empty.alloc newChunk
  { heap := heap, outChunk := chunk, outPos := 0, inChunk := chunk,
    inPos := 0, count := 0, mem := 0, maxmem := maxmem, cache := 0 }

/-- `nn_msgqueue_empty` -/
def empty (self : Msgqueue) : Bool := self.count = 0

/-- The chunk is full: go on in the cached one, or in a new one. -/
def linkChunk (self : Msgqueue) : Except Fault Msgqueue := do
  let (cache, heap) :=
    if self.cache = 0 then self.heap.alloc newChunk
    else (self.cache, self.heap)
  let out ← heap.read self.outChunk
  let heap ← heap.write self.outChunk { out with next := cache }
  return { self with
    heap := heap, outChunk := cache, cache := 0, outPos := 0 }

/-- The chunk is used up: go on in the next one. -/
def unlinkChunk (self : Msgqueue) : Except Fault Msgqueue := do
  let o ← self.heap.read self.inChunk
  if self.cache = 0 then
    return { self with inChunk := o.next, inPos := 0, cache := self.inChunk }
  else
    let heap ← self.heap.free self.inChunk
    return { self with heap := heap, inChunk := o.next, inPos := 0 }

/-- `nn_msgqueue_send`; `false` is `-EAGAIN`. -/
def send (self : Msgqueue) (msg : Msg) :
    Except Fault (Bool × Msgqueue) := do
  if 0 < self.count ∧ self.maxmem ≤ self.mem + msg.size then
    return (false, self)
  else
    let chunk ← self.heap.read self.outChunk
    let chunk ← chunk.put self.outPos msg
    let heap ← self.heap.write self.outChunk chunk
    let self := { self with
      heap := heap, count := self.count + 1, mem := self.mem + msg.size,
      outPos := self.outPos + 1 }
    if self.outPos = granularity then
      let self ← self.linkChunk
      return (true, self)
    else return (true, self)

/-- `nn_msgqueue_recv`; no message is `-EAGAIN`. -/
def recv (self : Msgqueue) : Except Fault (Option Msg × Msgqueue) := do
  if self.count = 0 then return (none, self)
  else
    let chunk ← self.heap.read self.inChunk
    let msg ← chunk.take self.inPos
    let self := { self with
      inPos := self.inPos + 1, count := self.count - 1,
      mem := self.mem - msg.size }
    if self.inPos = granularity then
      let self ← self.unlinkChunk
      return (some msg, self)
    else return (some msg, self)

/-- The loop of `nn_msgqueue_term`. -/
def drain : Nat → Msgqueue → Except Fault Msgqueue
  | 0, self => return self
  | fuel + 1, self => do
      match ← self.recv with
      | (none, self) => return self
      | (some _, self) => drain fuel self

/-- `nn_msgqueue_term`; what is left of the memory. -/
def term (self : Msgqueue) : Except Fault (Heap MsgqueueChunk) := do
  let self ← drain (self.count + 1) self
  if self.inChunk = self.outChunk then
    let heap ← self.heap.free self.inChunk
    if self.cache = 0 then return heap else heap.free self.cache
  else throw .assertion

end Msgqueue

-- =================================================================== runs

/-- What a user of a queue can do. -/
inductive QueueOp
  | send (msg : Msg)
  | recv
deriving DecidableEq, Repr

/-- What the calls return. -/
inductive QueueRet
  | sent (accepted : Bool)
  | received (msg : Option Msg)
deriving DecidableEq, Repr

def Msgqueue.step (self : Msgqueue) :
    QueueOp → Except Fault (QueueRet × Msgqueue)
  | .send msg => do
      let (accepted, self) ← self.send msg
      return (.sent accepted, self)
  | .recv => do
      let (msg, self) ← self.recv
      return (.received msg, self)

def Msgqueue.run (self : Msgqueue) :
    List QueueOp → Except Fault (List QueueRet × Msgqueue)
  | [] => return ([], self)
  | op :: ops => do
      let (ret, self) ← self.step op
      let (rets, self) ← self.run ops
      return (ret :: rets, self)

/-- What a queue is for: messages are received in the order in which they
were accepted. One is refused only if others are waiting and there is no
room for it. Not translated from the source. -/
def fifoStep (maxmem : Nat) (q : List Msg) : QueueOp → QueueRet × List Msg
  | .send msg =>
      if q = [] ∨ totalSize q + msg.size < maxmem then
        (.sent true, q ++ [msg])
      else (.sent false, q)
  | .recv => (.received q.head?, q.tail)

def fifoRun (maxmem : Nat) (q : List Msg) :
    List QueueOp → List QueueRet × List Msg
  | [] => ([], q)
  | op :: ops =>
      let (ret, q) := fifoStep maxmem q op
      let (rets, q) := fifoRun maxmem q ops
      (ret :: rets, q)

end FineDB.Inproc

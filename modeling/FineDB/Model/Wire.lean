/-
The surroundings of a client: a connection, memory, snappy.

The connection brings a fixed sequence of bytes and then its end. How
many of them a `read` returns is an outcome, like everything else that
is not decided by the bytes; so all outcomes together are all ways to
cut the stream into pieces. `wire` is the handler for the library's
programs.
-/
import FineDB.Lib.Handler
import FineDB.Model.Client

namespace FineDB

open Effect

/-- What decides an answer besides the stream. -/
structure ClientOutcome where
  /-- the resources the call needs are there -/
  ok : Bool
  /-- how much a `read` brings, or one more than a short `write` -/
  size : Nat
  /-- what an unwritten stack slot holds -/
  stack : Nat
deriving DecidableEq

/-- `read(fd, buff, 8196)`. -/
def readChunk (o : ClientOutcome) (incoming : Bytes) : ReadRet × Bytes :=
  let n := o.size % 8196 + 1
  if h : incoming = [] then (.ended (if o.ok then .eof else .error), [])
  else
    have hpos : 0 < incoming.length := List.length_pos_iff.mpr h
    (.got ⟨incoming.take n, by rw [List.length_take]; omega,
      by rw [List.length_take]; omega⟩, incoming.drop n)

def ClientCall.answer (zip : Bytes → Bytes) (o : ClientOutcome)
    (incoming : Bytes) : (c : ClientCall) → Option (c.Ret × Bytes)
  | .write bytes =>
      some (if o.ok then bytes.length else (o.size : Int) - 1, incoming)
  | .readByte => some (incoming.head?, incoming.tail)
  | .read => some (readChunk o incoming)
  | .ymalloc _ => some (o.ok, incoming)
  | .nullStore => none
  | .snappyInitEnv => some (o.ok, incoming)
  | .snappyCompress data =>
      some (if o.ok then some (zip data) else none, incoming)
  | .snappyUncompress z _ => some (FineDB.snappyUncompress z, incoming)
  | .indeterminateSize => some (o.stack, incoming)

/-- The client's end of a connection that brings the bytes of its
state. -/
def wire (zip : Bytes → Bytes) : Handler clientSig Bytes ClientOutcome :=
  fun o incoming c => c.answer zip o incoming

end FineDB

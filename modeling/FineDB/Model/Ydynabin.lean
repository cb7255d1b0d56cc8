/-
The receive buffer: `ydynabin_t` and its two operations
(lib/ylib/ydynabin.c, ydynabin.h).

# Memory

A container owns one `calloc`ed block and three `size_t` counters. The
block is a byte list, its length the size the allocator was asked for;
`data` is the block's base plus `offset`, so the logical content
`data[0..len)` is a slice of the block (`content`). A container fresh
from `ydynabin_new(NULL, 0, YFALSE)` has `data == NULL` and every
counter zero: the empty block.

# What is recorded

Two things can go wrong here without the C code noticing: a `size_t`
subtraction that wraps, and a `memcpy` that leaves its block. Neither
stops the model. The subtraction wraps as in C, the copy keeps the part
that lies inside (what it does outside is undefined behaviour), and
each such operation leaves a `Check` behind, in program order, so that
"no subtraction wraps" and "every copy stays inside" are statements
about the recorded checks.
-/
import FineDB.Model.Basic

namespace FineDB

-- ============================================================= counters

/-- `size_t` subtraction: modulo `2 ^ 64`. -/
def sizeSub (a b : Nat) : Nat := (a + 2 ^ 64 - b) % 2 ^ 64

/-- `size_t` addition: modulo `2 ^ 64`. -/
def sizeAdd (a b : Nat) : Nat := (a + b) % 2 ^ 64

/-- `MB` (ydefs.h). -/
def MB : Nat := 1048576

/-- `YDYNABIN_SIZE(s)`: the size of a new buffer, twice the requested
size, or 100 MB more past that bound. -/
def ydynabinSize (s : Nat) : Nat :=
  if s = 0 then 0
  else if s < 100 * MB then (s * 2) % 2 ^ 64
  else sizeAdd s (100 * MB)

/-- `YDYNABIN_RNDSZ(s)`: announced as a rounding to 8 KB, it adds the
remainder instead. -/
def ydynabinRndsz (s : Nat) : Nat := sizeAdd s (s % 8192)

-- ============================================================ the checks

/-- What an operation relied on: a subtraction that must not wrap, a
copy that must stay inside its block. -/
inductive Check
  /-- The `size_t` subtraction `a - b`. -/
  | sub (a b : Nat)
  /-- `n` bytes read or written at position `pos` of a block of `size`
  bytes. -/
  | copy (pos n size : Nat)
deriving DecidableEq, Repr

/-- The check passes: no wrap, no byte outside. -/
def Check.ok : Check → Prop
  | .sub a b => b ≤ a
  | .copy pos n size => pos + n ≤ size

instance : DecidablePred Check.ok := fun c =>
  match c with
  | .sub a b => inferInstanceAs (Decidable (b ≤ a))
  | .copy pos n size => inferInstanceAs (Decidable (pos + n ≤ size))

/-- Write `bs` at position `pos` of a block: the bytes that fall inside
land, the others are lost to undefined behaviour. -/
def blockWrite (block : Bytes) (pos : Nat) (bs : Bytes) : Bytes :=
  (block.take pos ++ bs ++ block.drop (pos + bs.length)).take block.length

-- ========================================================= the container

/-- `ydynabin_t`: the block under `data - offset`, and the three
counters. -/
structure Ydynabin where
  block : Bytes
  len : Nat
  offset : Nat
  free : Nat
deriving DecidableEq, Repr

/-- `ydynabin_new(NULL, 0, YFALSE)`: a zeroed structure, no block. -/
def ydynabinNew : Ydynabin where
  block := []
  len := 0
  offset := 0
  free := 0

/-- The logical content `data[0..len)`. -/
def Ydynabin.content (c : Ydynabin) : Bytes :=
  (c.block.drop c.offset).take c.len

/-- The size of the block a growing `ydynabin_expand` asks for. The
first assignment of the source (`sz = container->len + len`) is
overwritten by the next line, so only the chunk's length is left. -/
def expandSize (len : Nat) : Nat := ydynabinRndsz (ydynabinSize len)

/-- The growth branch of `ydynabin_expand`: a new zeroed block, the old
content copied to its start, the old block freed. -/
def ydynabinGrow (c : Ydynabin) (len : Nat) : Ydynabin × List Check :=
  let sz := expandSize len
  let fresh := List.replicate sz 0
  ({ block := if c.len = 0 then fresh else blockWrite fresh 0 c.content
     len := c.len
     offset := 0
     free := sizeSub sz c.len },
   (if c.len = 0 then []
    else [.copy c.offset c.len c.block.length, .copy 0 c.len sz])
     ++ [.sub sz c.len])

/-- The common end of `ydynabin_expand`: the chunk is copied after the
content. -/
def ydynabinAppend (c : Ydynabin) (data : Bytes) : Ydynabin × List Check :=
  ({ block := blockWrite c.block (c.offset + c.len) data
     len := sizeAdd c.len data.length
     offset := c.offset
     free := sizeSub c.free data.length },
   [.copy (c.offset + c.len) data.length c.block.length,
    .sub c.free data.length])

/-- `ydynabin_expand(container, data, len)`; `alloc` is what `YMALLOC`
answers if the call is made. -/
def ydynabinExpand (c : Ydynabin) (data : Bytes) (alloc : Bool) :
    Yerr × Ydynabin × List Check :=
  if data.length = 0 then (.YENOERR, c, [])
  else if c.free < data.length then
    -- there is not enough room in the buffer
    if alloc then
      let (c₁, grown) := ydynabinGrow c data.length
      let (c₂, appended) := ydynabinAppend c₁ data
      (.YENOERR, c₂, grown ++ appended)
    else (.YENOMEM, c, [])
  else
    let (c', appended) := ydynabinAppend c data
    (.YENOERR, c', appended)

/-- `ydynabin_forward(container, forward)`: the bytes skipped (those the
returned pointer designates), or `NULL` past the content. -/
def ydynabinForward (c : Ydynabin) (forward : Nat) :
    Option Bytes × Ydynabin :=
  if c.len < forward then (none, c)
  else
    (some ((c.block.drop c.offset).take forward),
     { c with
       len := c.len - forward
       offset := sizeAdd c.offset forward })

-- ========================================================== the op machine

/-- One operation on a receive buffer. -/
inductive BufOp
  /-- `ydynabin_expand` with a chunk, and the answer of the allocator. -/
  | expand (chunk : Bytes) (alloc : Bool)
  /-- `ydynabin_forward`. -/
  | forward (n : Nat)
deriving DecidableEq, Repr

/-- A buffer in use: the container, the bytes appended so far minus the
bytes forwarded, and every check its operations left behind. -/
structure BufState where
  buf : Ydynabin
  expected : Bytes
  checks : List Check
deriving DecidableEq, Repr

/-- A buffer as the session starts with it. -/
def BufState.init : BufState where
  buf := ydynabinNew
  expected := []
  checks := []

/-- The operations the callers perform: chunks of 1 to 8196 bytes (the
size of their `recv` buffer), forwards within the content. -/
def BufState.step (op : BufOp) (s : BufState) : Option BufState :=
  match op with
  | .expand chunk alloc =>
      if 1 ≤ chunk.length ∧ chunk.length ≤ 8196 then
        let (err, buf, checks) := ydynabinExpand s.buf chunk alloc
        some { buf := buf
               expected := if err = .YENOERR then s.expected ++ chunk
                 else s.expected
               checks := s.checks ++ checks }
      else none
  | .forward n =>
      if n ≤ s.buf.len then
        some { buf := (ydynabinForward s.buf n).2
               expected := s.expected.drop n
               checks := s.checks }
      else none

end FineDB

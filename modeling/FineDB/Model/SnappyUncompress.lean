/-
The snappy decoder as it works on memory (lib/snappy-c/snappy.c).

Model/Snappy.lean has what a stream decodes to. The code that does it
differs from that in three ways, and each is here:

- its input comes in iovecs. A tag and its trailing bytes may lie across
  two of them; `refill_tag` then puts them together in five bytes of
  scratch, and does the same at the end of an iovec, so that four bytes
  behind a tag can always be loaded;
- its output is written into the caller's buffer, by copies that go
  eight or sixteen bytes at a time where there is room for that, and
  write more than they are asked to;
- the meaning of a tag byte is looked up in a table.

As in Model/SnappyCompress.lean, every access is checked against its
object. The pointer `ip` is given by the cells from it to the end of
the object it points into (`window`), and by how far `ip_limit` is away
(`avail`): in an iovec the two agree, in the scratch there may be cells
beyond the limit.
-/
import FineDB.Model.SnappyCompress

namespace FineDB.Snappy

open Object

-- ============================================================== the writer

/-- `struct writer`: `op` and `op_limit` relative to `base`, which is the
start of the buffer. -/
structure Writer where
  obj : Bytes
  op : Nat
  opLimit : Nat

/-- A word from `src` to `op`. -/
def copyWord (obj : Bytes) (src op : Nat) : Except Stop Bytes := do
  store obj op (← load obj src 8)

/-- `incremental_copy`; the body is done before `len` is looked at. -/
def incrementalCopyFrom : Nat → Bytes → Nat → Nat → Except Stop Bytes
  | len, obj, src, op => do
      let obj ← store obj op [← get obj src]
      match len with
      | len + 2 => incrementalCopyFrom (len + 1) obj (src + 1) (op + 1)
      | _ => return obj

/-- The first loop of `incremental_copy_fast_path`: as long as the two
are less than eight bytes apart, the pattern is doubled. -/
def expandPattern (src : Nat) :
    Nat → Bytes → Nat → Int → Except Stop (Bytes × Nat × Int)
  | 0, _, _, _ => throw .fuel
  | fuel + 1, obj, op, len =>
      if op - src < 8 then do
        let obj ← copyWord obj src op
        expandPattern src fuel obj (op + (op - src)) (len - (op - src : Nat))
      else return (obj, op, len)

/-- The second loop. -/
def copyWords : Nat → Bytes → Nat → Nat → Int → Except Stop Bytes
  | 0, _, _, _, _ => throw .fuel
  | fuel + 1, obj, src, op, len =>
      if 0 < len then do
        let obj ← copyWord obj src op
        copyWords fuel obj (src + 8) (op + 8) (len - 8)
      else return obj

/-- `incremental_copy_fast_path` -/
def incrementalCopyFastPath (obj : Bytes) (src op len : Nat) :
    Except Stop Bytes := do
  let (obj, op, left) ← expandPattern src 8 obj op len
  copyWords (len + 1) obj src op left

def kmaxIncrementCopyOverflow : Nat := 10

/-- The copy of `writer_append_from_self`, by the fastest way there is
room for; `none` if there is not even room for the copy. -/
def copyWithin (obj : Bytes) (op offset len spaceLeft : Nat) :
    Except Stop (Option Bytes) :=
  if len ≤ 16 ∧ 8 ≤ offset ∧ 16 ≤ spaceLeft then do
    let obj ← copyWord obj (op - offset) op
    let obj ← copyWord obj (op - offset + 8) (op + 8)
    return some obj
  else if len + kmaxIncrementCopyOverflow ≤ spaceLeft then do
    let obj ← incrementalCopyFastPath obj (op - offset) op len
    return some obj
  else if spaceLeft < len then return none
  else do
    let obj ← incrementalCopyFrom len obj (op - offset) op
    return some obj

/-- `writer_append_from_self`; `none` is `false`. -/
def Writer.appendFromSelf (w : Writer) (offset len : Nat) :
    Except Stop (Option Writer) := do
  let spaceLeft := (w.opLimit - w.op) % 2 ^ 32
  -- offset - 1u
  if w.op ≤ (offset + (2 ^ 32 - 1)) % 2 ^ 32 then return none
  else
    match ← copyWithin w.obj w.op offset len spaceLeft with
    | some obj => return some { w with obj := obj, op := w.op + len }
    | none => return none

/-- `writer_append` of `len` bytes at `ip`. -/
def Writer.append (w : Writer) (ip : Bytes) (len : Nat) :
    Except Stop (Option Writer) := do
  let spaceLeft := (w.opLimit - w.op) % 2 ^ 32
  if spaceLeft < len then return none
  else
    let obj ← store w.obj w.op (← load ip 0 len)
    return some { w with obj := obj, op := w.op + len }

/-- `writer_try_fast_append` -/
def Writer.tryFastAppend (w : Writer) (ip : Bytes) (available len : Nat) :
    Except Stop (Option Writer) := do
  let spaceLeft := intOfBits (w.opLimit - w.op)
  if len ≤ 16 ∧ 16 ≤ available ∧ 16 ≤ spaceLeft then
    let obj ← store w.obj w.op (← load ip 0 8)
    let obj ← store obj (w.op + 8) (← load ip 8 8)
    return some { w with obj := obj, op := w.op + len }
  else return none

-- ================================================================ the tags

/-- `char_table`: the length in the low byte, the high part of an offset
in bits 8 to 10, the number of bytes that follow in bits 11 to 13. -/
def charTable : List Nat :=
  [0x0001, 0x0804, 0x1001, 0x2001, 0x0002, 0x0805, 0x1002, 0x2002,
    0x0003, 0x0806, 0x1003, 0x2003, 0x0004, 0x0807, 0x1004, 0x2004,
    0x0005, 0x0808, 0x1005, 0x2005, 0x0006, 0x0809, 0x1006, 0x2006,
    0x0007, 0x080a, 0x1007, 0x2007, 0x0008, 0x080b, 0x1008, 0x2008,
    0x0009, 0x0904, 0x1009, 0x2009, 0x000a, 0x0905, 0x100a, 0x200a,
    0x000b, 0x0906, 0x100b, 0x200b, 0x000c, 0x0907, 0x100c, 0x200c,
    0x000d, 0x0908, 0x100d, 0x200d, 0x000e, 0x0909, 0x100e, 0x200e,
    0x000f, 0x090a, 0x100f, 0x200f, 0x0010, 0x090b, 0x1010, 0x2010,
    0x0011, 0x0a04, 0x1011, 0x2011, 0x0012, 0x0a05, 0x1012, 0x2012,
    0x0013, 0x0a06, 0x1013, 0x2013, 0x0014, 0x0a07, 0x1014, 0x2014,
    0x0015, 0x0a08, 0x1015, 0x2015, 0x0016, 0x0a09, 0x1016, 0x2016,
    0x0017, 0x0a0a, 0x1017, 0x2017, 0x0018, 0x0a0b, 0x1018, 0x2018,
    0x0019, 0x0b04, 0x1019, 0x2019, 0x001a, 0x0b05, 0x101a, 0x201a,
    0x001b, 0x0b06, 0x101b, 0x201b, 0x001c, 0x0b07, 0x101c, 0x201c,
    0x001d, 0x0b08, 0x101d, 0x201d, 0x001e, 0x0b09, 0x101e, 0x201e,
    0x001f, 0x0b0a, 0x101f, 0x201f, 0x0020, 0x0b0b, 0x1020, 0x2020,
    0x0021, 0x0c04, 0x1021, 0x2021, 0x0022, 0x0c05, 0x1022, 0x2022,
    0x0023, 0x0c06, 0x1023, 0x2023, 0x0024, 0x0c07, 0x1024, 0x2024,
    0x0025, 0x0c08, 0x1025, 0x2025, 0x0026, 0x0c09, 0x1026, 0x2026,
    0x0027, 0x0c0a, 0x1027, 0x2027, 0x0028, 0x0c0b, 0x1028, 0x2028,
    0x0029, 0x0d04, 0x1029, 0x2029, 0x002a, 0x0d05, 0x102a, 0x202a,
    0x002b, 0x0d06, 0x102b, 0x202b, 0x002c, 0x0d07, 0x102c, 0x202c,
    0x002d, 0x0d08, 0x102d, 0x202d, 0x002e, 0x0d09, 0x102e, 0x202e,
    0x002f, 0x0d0a, 0x102f, 0x202f, 0x0030, 0x0d0b, 0x1030, 0x2030,
    0x0031, 0x0e04, 0x1031, 0x2031, 0x0032, 0x0e05, 0x1032, 0x2032,
    0x0033, 0x0e06, 0x1033, 0x2033, 0x0034, 0x0e07, 0x1034, 0x2034,
    0x0035, 0x0e08, 0x1035, 0x2035, 0x0036, 0x0e09, 0x1036, 0x2036,
    0x0037, 0x0e0a, 0x1037, 0x2037, 0x0038, 0x0e0b, 0x1038, 0x2038,
    0x0039, 0x0f04, 0x1039, 0x2039, 0x003a, 0x0f05, 0x103a, 0x203a,
    0x003b, 0x0f06, 0x103b, 0x203b, 0x003c, 0x0f07, 0x103c, 0x203c,
    0x0801, 0x0f08, 0x103d, 0x203d, 0x1001, 0x0f09, 0x103e, 0x203e,
    0x1801, 0x0f0a, 0x103f, 0x203f, 0x2001, 0x0f0b, 0x1040, 0x2040]

/-- `char_table[c]` -/
def entryOf (c : Byte) : Nat := charTable.getD c.toNat 0

/-- `wordmask[i]` -/
def wordmask (i : Nat) : Nat :=
  [0, 0xff, 0xffff, 0xffffff, 0xffffffff].getD i 0

/-- `struct snappy_decompressor` -/
structure Decompressor where
  reader : Source
  window : Bytes
  avail : Nat
  peeked : Nat
  eof : Bool
  scratch : Bytes

/-- `ip += n` -/
def Decompressor.advance (d : Decompressor) (n : Nat) : Decompressor :=
  { d with window := d.window.drop n, avail := d.avail - n }

/-- Skip what has been peeked, and peek again. -/
def Decompressor.fetch (d : Decompressor) : Except Stop Decompressor := do
  let reader ← d.reader.skip d.peeked
  let fragment := reader.peek
  return { d with
    reader := reader, window := fragment, avail := fragment.length,
    peeked := fragment.length % 2 ^ 32 }

/-- The loop of `refill_tag` that gathers the bytes of a tag in the
scratch, `false` at the end of the input. -/
def stitch (needed : Nat) :
    Nat → Source → Bytes → Nat → Except Stop (Bool × Source × Bytes)
  | 0, _, _, _ => throw .fuel
  | fuel + 1, reader, scratch, nbuf =>
      if nbuf < needed then do
        let src := reader.peek
        if src = [] then return (false, reader, scratch)
        else
          let toAdd := min (needed - nbuf) src.length
          let scratch ← store scratch nbuf (src.take toAdd)
          let reader ← reader.skip toAdd
          stitch needed fuel reader scratch (nbuf + toAdd)
      else return (true, reader, scratch)

/-- `refill_tag` once there is a tag byte at `ip`. -/
def Decompressor.refillBytes (d : Decompressor) :
    Except Stop (Bool × Decompressor) := do
  let c ← get d.window 0
  let needed := entryOf c >>> 11 + 1
  if d.avail < needed then
    let scratch ← store d.scratch 0 (← load d.window 0 d.avail)
    let reader ← d.reader.skip d.peeked
    let (more, reader, scratch) ← stitch needed 5 reader scratch d.avail
    if more then
      return (true, { d with
        reader := reader, window := scratch, avail := needed, peeked := 0,
        scratch := scratch })
    else
      return (false, { d with
        reader := reader, peeked := 0, scratch := scratch })
  else if d.avail < 5 then
    let scratch ← store d.scratch 0 (← load d.window 0 d.avail)
    let reader ← d.reader.skip d.peeked
    return (true, { d with
      reader := reader, window := scratch, peeked := 0, scratch := scratch })
  else return (true, d)

/-- `refill_tag` -/
def Decompressor.refillTag (d : Decompressor) :
    Except Stop (Bool × Decompressor) := do
  if d.avail = 0 then
    let d ← d.fetch
    if d.avail = 0 then return (false, { d with eof := true })
    else d.refillBytes
  else d.refillBytes

/-- `MAYBE_REFILL`, which may return, and what follows it. -/
def Decompressor.maybeRefill (d : Decompressor) (w : Writer)
    (k : Decompressor → Except Stop (Decompressor × Writer)) :
    Except Stop (Decompressor × Writer) := do
  if d.avail < 5 then
    match ← d.refillTag with
    | (false, d) => return (d, w)
    | (true, d) => k d
  else k d

/-- The literal of `len` bytes at `ip`, iovec by iovec; `false` if there
is no room or no input for it. -/
def appendLiteral :
    Nat → Decompressor → Writer → Nat →
      Except Stop (Bool × Decompressor × Writer)
  | 0, _, _, _ => throw .fuel
  | fuel + 1, d, w, len =>
      if d.avail < len then do
        match ← w.append d.window d.avail with
        | none => return (false, d, w)
        | some w =>
            let left := len - d.avail
            let d ← d.fetch
            if d.avail = 0 then return (false, d, w)
            else appendLiteral fuel d w left
      else do
        match ← w.append d.window len with
        | none => return (false, d, w)
        | some w => return (true, d.advance len, w)

/-- The literal branch of `decompress_all_tags`, `ip` behind the tag
byte. -/
def literalTag (c : Byte) (d : Decompressor) (w : Writer) :
    Except Stop (Bool × Decompressor × Writer) := do
  let len := c.toNat >>> 2 + 1
  match ← w.tryFastAppend d.window d.avail len with
  | some w => return (true, d.advance len, w)
  | none =>
      if 61 ≤ len then
        let ll := len - 60
        let word := leNat (← load d.window 0 4)
        let len := ((word &&& wordmask ll) + 1) % 2 ^ 32
        appendLiteral (len + 2) (d.advance ll) w len
      else appendLiteral (len + 2) d w len

/-- The branch for a copy. -/
def copyTag (c : Byte) (d : Decompressor) (w : Writer) :
    Except Stop (Bool × Decompressor × Writer) := do
  let entry := entryOf c
  let trailer := leNat (← load d.window 0 4) &&& wordmask (entry >>> 11)
  let len := entry &&& 0xff
  let d := d.advance (entry >>> 11)
  let offset := ((entry &&& 0x700) + trailer) % 2 ^ 32
  match ← w.appendFromSelf offset len with
  | none => return (false, d, w)
  | some w => return (true, d, w)

/-- The loop of `decompress_all_tags`. -/
def tagLoop : Nat → Decompressor → Writer →
    Except Stop (Decompressor × Writer)
  | 0, _, _ => throw .fuel
  | fuel + 1, d, w => d.maybeRefill w fun d => do
      let c ← get d.window 0
      let branch := if c &&& 3 = 0 then literalTag else copyTag
      match ← branch c (d.advance 1) w with
      | (false, d, w) => return (d, w)
      | (true, d, w) => d.maybeRefill w fun d => tagLoop fuel d w

/-- `decompress_all_tags` -/
def Decompressor.decompressAllTags (fuel : Nat) (d : Decompressor)
    (w : Writer) : Except Stop (Decompressor × Writer) :=
  d.maybeRefill w fun d => tagLoop fuel d w

-- ============================================================== uncompress

/-- `read_uncompressed_length`; `none` is `false`. -/
def Source.readUncompressedLength :
    Nat → Source → Nat → Nat → Except Stop (Option (Nat × Source))
  | 0, _, _, _ => throw .fuel
  | fuel + 1, reader, shift, result =>
      if 32 ≤ shift then return none
      else
        match reader.peek with
        | [] => return none
        | c :: _ => do
            let reader ← reader.skip 1
            let result := varintOr result c shift
            if c.toNat < 128 then return some (result, reader)
            else readUncompressedLength fuel reader (shift + 7) result

end FineDB.Snappy

/-
The vocabulary every module shares: bytes, the `yerr_t` codes the
server's functions return, C strings, and the big-endian length fields
of the wire protocol.
-/
import Mathlib.Algebra.Group.Nat.Defs
import Mathlib.Data.List.TakeWhile
import Mathlib.Order.Basic

namespace FineDB

/-- One octet. -/
abbrev Byte := UInt8

/-- A byte string of known length (`ybin_t`: a pointer and a size). -/
abbrev Bytes := List Byte

/-- The `yerr_t` codes the modelled functions return (yerror.h). -/
inductive Yerr
  | YENOERR
  | YEIO
  | YENOMEM
  | YEACCESS
  | YENODATA
  | YECONNRESET
deriving DecidableEq, Repr

/-- The C string a buffer holds: its bytes before the first NUL. Every
reader of a `char *` here (`strdup`, the `strlen` inside
`mdb_dbi_open`) stops there. -/
def cString (buf : Bytes) : Bytes := buf.takeWhile (· ≠ 0)

/-- Reading a C string twice is reading it once: the result has no NUL
left to stop at. -/
@[simp] theorem cString_cString (buf : Bytes) :
    cString (cString buf) = cString buf :=
  List.takeWhile_idem

-- ====================================================== length fields

/-- The number a big-endian byte string denotes: `ntohs` on two bytes,
`ntohl` on four, a plain `unsigned char` on one. -/
def beNat (bs : Bytes) : Nat := bs.foldl (fun n b => n * 256 + b.toNat) 0

private theorem beNat_foldl_lt (bs : Bytes) (n : Nat) :
    bs.foldl (fun n (b : Byte) => n * 256 + b.toNat) n
      < (n + 1) * 256 ^ bs.length := by
  induction bs generalizing n with
  | nil => simp
  | cons b bs ih =>
      have hb : b.toNat < 256 := b.toNat_lt
      have hle : n * 256 + b.toNat + 1 ≤ (n + 1) * 256 := by omega
      rw [List.foldl_cons, List.length_cons, Nat.pow_succ', ← Nat.mul_assoc]
      exact lt_of_lt_of_le (ih _) (Nat.mul_le_mul_right _ hle)

/-- A `w`-byte field holds a number below `256 ^ w`. -/
theorem beNat_lt {bs : Bytes} {w : Nat} (hw : bs.length = w) :
    beNat bs < 256 ^ w := by
  have := beNat_foldl_lt bs 0
  rw [hw] at this
  simpa [beNat] using this

/-- A byte string short enough for a `w`-byte length field: what a
decoded request carries, since its length was read from such a field. -/
structure Field (w : Nat) where
  bytes : Bytes
  fits : bytes.length < 256 ^ w
deriving DecidableEq

/-- A field of one byte. -/
def Field.single {w : Nat} (b : Byte) : Field (w + 1) :=
  ⟨[b], Nat.one_lt_pow (Nat.succ_ne_zero w) (by decide)⟩

end FineDB

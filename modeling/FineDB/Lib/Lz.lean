/-
Compression by references to what has been said already.

A sequence is given as a list of items: a literal says its cells, a copy
says that the next `len` cells are those `offset` before them. A copy
may be longer than its offset; it then repeats cells it has itself
produced. So it is not described by the cells it reads but by the
equation every new cell satisfies (`Copies`), which leaves exactly one
result (`Copies.unique`), however the copy is carried out. One that
works in larger pieces is seen as continuing a pattern (`Periodic`).

`Parse items out out'` says that the items lead from `out` to `out'`. A
compressor is right if the items it emits lead from nothing to its input
(`Recurs.copies` is the step for a match it has found); a decompressor
is right if it follows them.
-/
import Mathlib.Data.List.TakeDrop
import Mathlib.Tactic.Common

namespace Lz

variable {α : Type}

-- ================================================================ one copy

/-- `out'` is `out` with `len` more cells, each of them the one `offset`
before it. -/
structure Copies (offset len : Nat) (out out' : List α) : Prop where
  pos : 0 < offset
  reach : offset ≤ out.length
  length : out'.length = out.length + len
  kept : ∀ k, k < out.length → out'[k]? = out[k]?
  back : ∀ k, out.length ≤ k → k < out.length + len →
    out'[k]? = out'[k - offset]?

variable {offset len m n : Nat} {out out₁ out₂ mid out' input : List α}

namespace Copies

theorem unique (h₁ : Copies offset len out out₁)
    (h₂ : Copies offset len out out₂) : out₁ = out₂ := by
  have hcell : ∀ k, k < out.length + len → out₁[k]? = out₂[k]? := by
    intro k
    induction k using Nat.strongRecOn with
    | _ k ih =>
        intro hk
        have hpos := h₁.pos
        by_cases hlt : k < out.length
        · rw [h₁.kept k hlt, h₂.kept k hlt]
        · rw [h₁.back k (by omega) hk, h₂.back k (by omega) hk]
          exact ih _ (by have := h₁.reach; omega) (by omega)
  refine List.ext_getElem? fun k => ?_
  by_cases hk : k < out.length + len
  · exact hcell k hk
  · rw [List.getElem?_eq_none (by rw [h₁.length]; omega),
      List.getElem?_eq_none (by rw [h₂.length]; omega)]

theorem append (h₁ : Copies offset m out mid) (h₂ : Copies offset n mid out') :
    Copies offset (m + n) out out' := by
  have hlen₁ := h₁.length
  have hlen₂ := h₂.length
  refine ⟨h₁.pos, h₁.reach, by omega, ?_, ?_⟩
  · intro k hk
    rw [h₂.kept k (by omega), h₁.kept k hk]
  · intro k hle hlt
    by_cases hmid : k < mid.length
    · rw [h₂.kept k hmid, h₂.kept _ (by omega), h₁.back k hle (by omega)]
    · exact h₂.back k (by omega) (by omega)

/-- A long copy is a short one and then the rest. -/
theorem split (h : Copies offset (m + n) out out') :
    Copies offset m out (out'.take (out.length + m))
      ∧ Copies offset n (out'.take (out.length + m)) out' := by
  have hlen := h.length
  have hmid : (out'.take (out.length + m)).length = out.length + m := by
    rw [List.length_take]
    omega
  have hcell : ∀ k, k < out.length + m →
      (out'.take (out.length + m))[k]? = out'[k]? :=
    fun k hk => List.getElem?_take_of_lt hk
  refine ⟨⟨h.pos, h.reach, hmid, ?_, ?_⟩, ⟨h.pos, ?_, ?_, ?_, ?_⟩⟩
  · intro k hk
    rw [hcell k (by omega), h.kept k hk]
  · intro k hle hlt
    rw [hcell k hlt, hcell _ (by omega), h.back k hle (by omega)]
  · have := h.reach
    omega
  · omega
  · intro k hk
    rw [hcell k (by omega)]
  · intro k hle hlt
    exact h.back k (by omega) (by omega)

end Copies

-- ================================================================ patterns

/-- From `src` to `stop`, the cells repeat the first `offset` of them. -/
def Periodic (l : List α) (src offset stop : Nat) : Prop :=
  ∀ k, src ≤ k → k < stop → l[k]? = l[src + (k - src) % offset]?

namespace Periodic

variable {l l' : List α} {src stop d : Nat}

theorem once (l : List α) (src offset : Nat) :
    Periodic l src offset (src + offset) := by
  intro k hle hlt
  rw [Nat.mod_eq_of_lt (by omega), Nat.add_sub_cancel' hle]

theorem less (h : Periodic l src offset stop) (hle : m ≤ stop) :
    Periodic l src offset m :=
  fun k hsrc hlt => h k hsrc (by omega)

/-- The pattern goes on if the next cells are taken from a multiple of
its length before. -/
theorem extend (h : Periodic l src offset stop) (hpos : 0 < offset)
    (hone : src + offset ≤ stop) (hdvd : offset ∣ d) (hd : src + d ≤ stop)
    (hmd : m ≤ d) (hkept : ∀ k, k < stop → l'[k]? = l[k]?)
    (hnew : ∀ i, i < m → l'[stop + i]? = l[stop - d + i]?) :
    Periodic l' src offset (stop + m) := by
  intro k hle hlt
  have hmod := Nat.mod_lt (k - src) hpos
  rw [hkept (src + (k - src) % offset) (by omega)]
  by_cases hold : k < stop
  · rw [hkept k hold, h k hle hold]
  · have hi := hnew (k - stop) (by omega)
    rw [Nat.add_sub_cancel' (by omega)] at hi
    rw [hi, h (stop - d + (k - stop)) (by omega) (by omega)]
    -- the two are a multiple of the period apart
    obtain ⟨q, rfl⟩ := hdvd
    rw [show k - src
        = stop - offset * q + (k - stop) - src + offset * q by omega,
      Nat.add_mul_mod_self_left]

/-- A pattern over the end of `out` is a copy. -/
theorem copies {op : Nat} (h : Periodic l' (op - offset) offset (op + len))
    (hpos : 0 < offset) (hreach : offset ≤ op) (hop : op ≤ l.length)
    (hlen : op + len ≤ l'.length)
    (hkept : ∀ k, k < op → l'[k]? = l[k]?) :
    Copies offset len (l.take op) (l'.take (op + len)) := by
  have hout : (l.take op).length = op := by
    rw [List.length_take]
    omega
  refine ⟨hpos, by omega, ?_, ?_, ?_⟩
  · rw [hout, List.length_take]
    omega
  · intro k hk
    rw [List.getElem?_take_of_lt (by omega),
      List.getElem?_take_of_lt (by omega), hkept k (by omega)]
  · intro k hle hlt
    rw [List.getElem?_take_of_lt (by omega),
      List.getElem?_take_of_lt (by omega), h k (by omega) (by omega),
      h (k - offset) (by omega) (by omega),
      show k - (op - offset) = k - offset - (op - offset) + offset by omega,
      Nat.add_mod_right]

end Periodic

-- ================================================================= matches

/-- The `len` cells of the input at `candidate` and at `pos` are alike. -/
def Recurs (input : List α) (candidate pos len : Nat) : Prop :=
  ∀ i, i < len → input[candidate + i]? = input[pos + i]?

theorem Recurs.append {candidate pos : Nat}
    (h₁ : Recurs input candidate pos m)
    (h₂ : Recurs input (candidate + m) (pos + m) n) :
    Recurs input candidate pos (m + n) := by
  intro i hi
  by_cases hlt : i < m
  · exact h₁ i hlt
  · have := h₂ (i - m) (by omega)
    rwa [Nat.add_assoc, Nat.add_assoc, Nat.add_sub_cancel' (by omega)]
      at this

theorem Recurs.shorten {candidate pos : Nat} (hmn : m ≤ n)
    (h : Recurs input candidate pos n) :
    Recurs input candidate pos m :=
  fun i hi => h i (by omega)

/-- A match makes the copy produce what the input goes on with. -/
theorem Recurs.copies {candidate pos : Nat} (pre : List α)
    (h : Recurs input candidate pos len) (hlt : candidate < pos)
    (hlen : pos + len ≤ input.length) :
    Copies (pos - candidate) len (pre ++ input.take pos)
      (pre ++ input.take (pos + len)) := by
  have hpos : (pre ++ input.take pos).length = pre.length + pos := by
    rw [List.length_append, List.length_take]
    omega
  have hall : (pre ++ input.take (pos + len)).length
      = pre.length + (pos + len) := by
    rw [List.length_append, List.length_take]
    omega
  -- beyond `pre` the cells are the input's
  have hcell : ∀ i, i < pos + len →
      (pre ++ input.take (pos + len))[pre.length + i]? = input[i]? := by
    intro i hi
    rw [List.getElem?_append_right (by omega), Nat.add_sub_cancel_left,
      List.getElem?_take_of_lt hi]
  refine ⟨by omega, by omega, by omega, ?_, ?_⟩
  · intro k hk
    rw [hpos] at hk
    by_cases hpre : k < pre.length
    · rw [List.getElem?_append_left hpre, List.getElem?_append_left hpre]
    · obtain ⟨i, rfl⟩ : ∃ i, k = pre.length + i := ⟨k - pre.length, by omega⟩
      rw [hcell i (by omega), List.getElem?_append_right (by omega),
        Nat.add_sub_cancel_left, List.getElem?_take_of_lt (by omega)]
  · intro k hle hk
    rw [hpos] at hle hk
    obtain ⟨i, rfl⟩ : ∃ i, k = pre.length + (pos + i) :=
      ⟨k - pre.length - pos, by omega⟩
    rw [hcell _ (by omega),
      show pre.length + (pos + i) - (pos - candidate)
        = pre.length + (candidate + i) by omega,
      hcell _ (by omega), h i (by omega)]

-- =================================================================== items

inductive Item (α : Type)
  | literal (data : List α)
  | copy (offset len : Nat)

/-- What an item makes of what has been said so far. -/
def Item.Expands : Item α → List α → List α → Prop
  | .literal data, out, out' => out' = out ++ data
  | .copy offset len, out, out' => Copies offset len out out'

inductive Parse : List (Item α) → List α → List α → Prop
  | nil (out : List α) : Parse [] out out
  | cons {item : Item α} {items : List (Item α)} {out mid out' : List α}
      (head : item.Expands out mid) (tail : Parse items mid out') :
      Parse (item :: items) out out'

theorem Parse.one {item : Item α} (h : item.Expands out out') :
    Parse [item] out out' :=
  .cons h (.nil out')

theorem Parse.append {items₁ items₂ : List (Item α)}
    (h₁ : Parse items₁ out mid) (h₂ : Parse items₂ mid out') :
    Parse (items₁ ++ items₂) out out' := by
  induction h₁ with
  | nil => exact h₂
  | cons head _ ih => exact .cons head (ih h₂)

theorem Item.Expands.length_le {item : Item α}
    (h : item.Expands out out') : out.length ≤ out'.length := by
  cases item with
  | literal data =>
      rw [Item.Expands] at h
      rw [h, List.length_append]
      omega
  | copy offset len =>
      have := Copies.length h
      omega

theorem Parse.length_le {items : List (Item α)}
    (h : Parse items out out') : out.length ≤ out'.length := by
  induction h with
  | nil => exact Nat.le_refl _
  | cons head _ ih => exact Nat.le_trans head.length_le ih

end Lz

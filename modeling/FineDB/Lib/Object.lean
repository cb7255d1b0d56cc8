/-
Code that works on several objects of memory.

An object is a list of cells, a pointer a position in one. A load or a
store that leaves its object stops the code (`Stop.outside`), as a loop
does that has run out of fuel (`Stop.fuel`): code that is shown to
return touches nothing but its objects, and ends.

Code that produces output holds the pointer it writes to next (`Dest`)
and is a program in `Emit`. `Writes x room data b` says what such code
does whatever the object holds: with `room` cells in front of it, it
returns `b`, keeps what stands behind the pointer and adds `data` to it.
Of the cells beyond nothing is said: within the room, code may write
more than it is asked to.

Code that reads what it has written is looked at cell by cell instead
(`getElem?_overwrite`).
-/
import Mathlib.Data.List.TakeDrop
import Mathlib.Tactic.Common

namespace Object

variable {α β γ : Type}

/-- Why code stops without a result. -/
inductive Stop
  | outside (pt : Nat)
  | fuel
deriving DecidableEq, Repr

/-- `*pt` -/
def get (obj : List α) (pt : Nat) : Except Stop α :=
  match obj[pt]? with
  | some c => .ok c
  | none => .error (.outside pt)

/-- The `n` cells from `pt` on. -/
def load (obj : List α) (pt n : Nat) : Except Stop (List α) :=
  if pt + n ≤ obj.length then .ok ((obj.drop pt).take n)
  else .error (.outside (pt + n))

def overwrite (obj : List α) (pt : Nat) (data : List α) : List α :=
  obj.take pt ++ data ++ obj.drop (pt + data.length)

/-- `data` to the cells from `pt` on. -/
def store (obj : List α) (pt : Nat) (data : List α) :
    Except Stop (List α) :=
  if pt + data.length ≤ obj.length then .ok (overwrite obj pt data)
  else .error (.outside (pt + data.length))

theorem bind_ok {x : Except Stop β} {b : β} (h : x = .ok b)
    (k : β → Except Stop γ) : (x >>= k) = k b := by
  rw [h]
  rfl

variable {obj obj' data data₁ data₂ : List α} {pt op n k : Nat}

theorem get_ok {c : α} (h : obj[pt]? = some c) : get obj pt = .ok c := by
  rw [get, h]

theorem load_ok (h : pt + n ≤ obj.length) :
    load obj pt n = .ok ((obj.drop pt).take n) :=
  if_pos h

theorem store_ok (h : pt + data.length ≤ obj.length) :
    store obj pt data = .ok (overwrite obj pt data) :=
  if_pos h

-- ============================================================= cell by cell

theorem length_overwrite (h : pt + data.length ≤ obj.length) :
    (overwrite obj pt data).length = obj.length := by
  simp only [overwrite, List.length_append, List.length_take,
    List.length_drop]
  omega

theorem take_overwrite (h : pt + data.length ≤ obj.length) :
    (overwrite obj pt data).take (pt + data.length)
      = obj.take pt ++ data := by
  have hlen : (obj.take pt ++ data).length = pt + data.length := by
    rw [List.length_append, List.length_take]
    omega
  rw [overwrite, ← hlen, List.take_left]

theorem getElem?_overwrite_lt (hpt : pt ≤ obj.length) (hk : k < pt) :
    (overwrite obj pt data)[k]? = obj[k]? := by
  rw [overwrite, List.append_assoc, List.getElem?_append_left
    (by rw [List.length_take]; omega), List.getElem?_take_of_lt hk]

theorem getElem?_overwrite_data (hpt : pt ≤ obj.length)
    (hk : k < data.length) :
    (overwrite obj pt data)[pt + k]? = data[k]? := by
  have hlen : (obj.take pt).length = pt := by
    rw [List.length_take]
    omega
  rw [overwrite, List.append_assoc,
    List.getElem?_append_right (by omega), hlen, Nat.add_sub_cancel_left,
    List.getElem?_append_left hk]

theorem getElem?_overwrite_ge (h : pt + data.length ≤ obj.length)
    (hk : pt + data.length ≤ k) :
    (overwrite obj pt data)[k]? = obj[k]? := by
  have hlen : (obj.take pt ++ data).length = pt + data.length := by
    rw [List.length_append, List.length_take]
    omega
  rw [overwrite, List.getElem?_append_right (by omega), hlen,
    List.getElem?_drop, Nat.add_sub_cancel' hk]

theorem mem_overwrite {c : α} (h : c ∈ overwrite obj pt data) :
    c ∈ obj ∨ c ∈ data := by
  rw [overwrite, List.mem_append, List.mem_append] at h
  rcases h with (h | h) | h
  · exact .inl (List.mem_of_mem_take h)
  · exact .inr h
  · exact .inl (List.mem_of_mem_drop h)

-- ================================================================== output

/-- An object and the pointer to it that code writes to next. -/
structure Dest (α : Type) where
  obj : List α
  op : Nat

/-- Code that writes to a `Dest`. -/
abbrev Emit (α : Type) : Type → Type := StateT (Dest α) (Except Stop)

/-- `op` -/
def here : Emit α Nat := fun d => .ok (d.op, d)

/-- `op += n` -/
def advance (n : Nat) : Emit α Unit := fun d => .ok ((), ⟨d.obj, d.op + n⟩)

/-- A store somewhere in the object. -/
def storeAt (pt : Nat) (data : List α) : Emit α Unit := fun d => do
  let obj ← store d.obj pt data
  return ((), ⟨obj, d.op⟩)

/-- A store at `op`, which moves behind it. -/
def put (data : List α) : Emit α Unit := fun d => do
  let obj ← store d.obj d.op data
  return ((), ⟨obj, d.op + data.length⟩)

theorem storeAt_ok {d : Dest α} (h : pt + data.length ≤ d.obj.length) :
    storeAt pt data d = .ok ((), ⟨overwrite d.obj pt data, d.op⟩) := by
  rw [storeAt, store_ok h]
  rfl

theorem put_ok {d : Dest α} (h : d.op + data.length ≤ d.obj.length) :
    put data d
      = .ok ((), ⟨overwrite d.obj d.op data, d.op + data.length⟩) := by
  rw [put, store_ok h]
  rfl

theorem emit_bind {x : Emit α β} {f : β → Emit α γ} {d d' : Dest α} {b : β}
    (h : x d = .ok (b, d')) : (x >>= f) d = f b d' := by
  show (x d >>= fun r => f r.1 r.2) = _
  rw [h]
  rfl

/-- Code that writes nothing. -/
theorem emit_lift {x : Except Stop β} {b : β} (h : x = .ok b)
    (f : β → Emit α γ) : ((x : Emit α β) >>= f) = f b := by
  subst h
  rfl

/-- Between the two, `data` have been written. -/
structure Wrote (d : Dest α) (data : List α) (d' : Dest α) : Prop where
  length : d'.obj.length = d.obj.length
  op : d'.op = d.op + data.length
  inside : d'.op ≤ d.obj.length
  cells : d'.obj.take d'.op = d.obj.take d.op ++ data

namespace Wrote

variable {d d₁ d₂ : Dest α}

theorem nothing (h : d.op ≤ d.obj.length) : Wrote d [] d :=
  ⟨rfl, rfl, h, (List.append_nil _).symm⟩

theorem stored (h : d.op + data.length ≤ d.obj.length) :
    Wrote d data ⟨overwrite d.obj d.op data, d.op + data.length⟩ :=
  ⟨length_overwrite h, rfl, h, take_overwrite h⟩

theorem append (h₁ : Wrote d data₁ d₁) (h₂ : Wrote d₁ data₂ d₂) :
    Wrote d (data₁ ++ data₂) d₂ where
  length := h₂.length.trans h₁.length
  op := by rw [h₂.op, h₁.op, List.length_append, Nat.add_assoc]
  inside := h₁.length ▸ h₂.inside
  cells := by rw [h₂.cells, h₁.cells, List.append_assoc]

/-- The pointer moves less far than has been written. -/
theorem shorten (h : Wrote d (data₁ ++ data₂) d₁) :
    Wrote d data₁ ⟨d₁.obj, d.op + data₁.length⟩ := by
  have hin := h.inside
  have hop := h.op
  rw [List.length_append] at hop
  refine ⟨h.length, rfl, ?_, ?_⟩
  · show d.op + data₁.length ≤ d.obj.length
    omega
  have hlen : (d.obj.take d.op ++ data₁).length = d.op + data₁.length := by
    rw [List.length_append, List.length_take]
    omega
  have hcells := congrArg (List.take (d.op + data₁.length)) h.cells
  rw [List.take_take, Nat.min_eq_left (by omega), ← List.append_assoc,
    ← hlen, List.take_left, hlen] at hcells
  exact hcells

/-- A cell passed at first and written last. -/
theorem before {c : α} (h : Wrote ⟨d.obj, d.op + 1⟩ data d₁) :
    Wrote d (c :: data) ⟨overwrite d₁.obj d.op [c], d₁.op⟩ := by
  have hin : d₁.op ≤ d.obj.length := h.inside
  have hop : d₁.op = d.op + 1 + data.length := h.op
  have hlen : d₁.obj.length = d.obj.length := h.length
  have hcells : d₁.obj.take d₁.op = d.obj.take (d.op + 1) ++ data := h.cells
  have htake : (d₁.obj.take d.op).length = d.op := by
    rw [List.length_take]
    omega
  -- both halves of what `d₁` is known to hold
  have hfront : d₁.obj.take d.op = d.obj.take d.op := by
    have := congrArg (List.take d.op) hcells
    rw [List.take_take, Nat.min_eq_left (by omega),
      List.take_append_of_le_length (by rw [List.length_take]; omega),
      List.take_take, Nat.min_eq_left (by omega)] at this
    exact this
  have hback : (d₁.obj.drop (d.op + 1)).take data.length = data := by
    have := congrArg (List.drop (d.op + 1)) hcells
    rw [List.drop_take, hop, Nat.add_sub_cancel_left,
      List.drop_left' (by rw [List.length_take]; omega)] at this
    exact this
  refine ⟨?_, ?_, hin, ?_⟩
  · rw [length_overwrite (by rw [hlen, List.length_singleton]; omega), hlen]
  · rw [hop, List.length_cons]
    omega
  · show (overwrite d₁.obj d.op [c]).take d₁.op = _
    rw [overwrite, List.append_assoc, List.take_append, htake,
      List.take_of_length_le (by omega), hfront, hop,
      show d.op + 1 + data.length - d.op = data.length + 1 by omega]
    show d.obj.take d.op ++ c :: (d₁.obj.drop (d.op + 1)).take data.length
      = _
    rw [hback]

end Wrote

/-- Whatever the object holds, `x` writes `data` and returns `b`, given
`room` cells. -/
def Writes (x : Emit α β) (room : Nat) (data : List α) (b : β) : Prop :=
  ∀ d, d.op + room ≤ d.obj.length →
    ∃ d', x d = .ok (b, d') ∧ Wrote d data d'

namespace Writes

variable {x : Emit α β} {f : β → Emit α γ} {b : β} {c : γ} {m : Nat}

theorem pure (b : β) : Writes (Pure.pure b : Emit α β) 0 [] b :=
  fun d h => ⟨d, rfl, .nothing h⟩

theorem put (data : List α) : Writes (put data) data.length data () :=
  fun _ h => ⟨_, put_ok h, .stored h⟩

theorem more (h : Writes x m data b) (hle : m ≤ n) : Writes x n data b :=
  fun d hd => h d (by omega)

theorem bind (hx : Writes x m data₁ b) (hf : Writes (f b) k data₂ c)
    (hm : m ≤ n) (hk : data₁.length + k ≤ n) :
    Writes (x >>= f) n (data₁ ++ data₂) c := by
  intro d hd
  obtain ⟨d₁, hx, hw₁⟩ := hx d (by omega)
  have hlen := hw₁.length
  have hop := hw₁.op
  obtain ⟨d₂, hf, hw₂⟩ := hf d₁ (by omega)
  exact ⟨d₂, (emit_bind hx).trans hf, hw₁.append hw₂⟩

end Writes

end Object

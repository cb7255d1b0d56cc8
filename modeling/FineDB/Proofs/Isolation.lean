/-
No session leaks into the next one of its thread.

# What a session starts from

`connectionThreadDisconnect` leaves the thread as `connection_thread_new`
made it, so whatever the connections before did and however they ended,
the next one starts with no transaction, no database name and an empty
buffer.

# What it computes with

Two runs of one byte string are compared: on two threads, after two
pasts, with oracles that agree on every call (`Agree`). Only what was
never written, the content of an uninitialised variable, is left free.
`Alike` relates programs that differ in nothing else: it lets the two
sides go on with different values after such a read and asks that they
meet again before anything is sent or reaches LMDB or the writer.

They do not always meet. The handle `database_get` never set is only
closed, but the length `command_get` never set becomes the length of the
answer if the stream then decodes. `headerRead` is the condition that
excludes it.
-/
import FineDB.Model.System
import FineDB.Proofs.Calls
import FineDB.Proofs.Parse

namespace FineDB

open Effect Mvcc Prog

variable {Dbi : Type}

-- ============================================================= observations

/-- Programs that do the same, up to the reads of uninitialised
variables. -/
inductive Alike {α β : Type} (R : α → β → Prop) :
    Server Dbi α → Server Dbi β → Prop
  | ret {a b} : R a b → Alike R (.ret a) (.ret b)
  | call {c : (serverSig Dbi).Call} {k k'}
      (hsize : c ≠ .other .indeterminateSize)
      (hdbi : c ≠ .other .indeterminateDbi) :
      (∀ r, Alike R (k r) (k' r)) → Alike R (.call c k) (.call c k')
  | shutdown {fd fd' k k'} : Alike R (k ()) (k' ()) →
      Alike R (.call (.other (.shutdown fd)) k)
        (.call (.other (.shutdown fd')) k')
  | indeterminateDbi {k k'} : (∀ d d', Alike R (k d) (k' d')) →
      Alike R (.call (.other .indeterminateDbi) k)
        (.call (.other .indeterminateDbi) k')
  | dbiClose {d d' k k'} : Alike R (k ()) (k' ()) →
      Alike R (.call (.other (.dbiClose d)) k)
        (.call (.other (.dbiClose d')) k')
  | indeterminateSize {k k'} : (∀ n n', Alike R (k n) (k' n')) →
      Alike R (.call (.other .indeterminateSize) k)
        (.call (.other .indeterminateSize) k')
  | ymalloc {n n' k k'} : (∀ ok ok', Alike R (k ok) (k' ok')) →
      Alike R (.call (.other (.ymalloc n)) k)
        (.call (.other (.ymalloc n')) k')
  | snappyUncompress {z buf buf' k k'}
      (hz : snappyUncompressedLength z = none) :
      Alike R (k none) (k' none) →
      Alike R (.call (.other (.snappyUncompress z buf)) k)
        (.call (.other (.snappyUncompress z buf')) k')

section Alike

variable {α β γ δ : Type} {R : α → β → Prop} {T : γ → δ → Prop}

theorem Alike.bind {p : Server Dbi α} {p' : Server Dbi β}
    {f : α → Server Dbi γ} {f' : β → Server Dbi δ} (h : Alike R p p')
    (hf : ∀ a b, R a b → Alike T (f a) (f' b)) :
    Alike T (p >>= f) (p' >>= f') := by
  induction h with
  | ret hab => exact hf _ _ hab
  | call hsize hdbi _ ih => exact .call hsize hdbi ih
  | shutdown _ ih => exact .shutdown ih
  | indeterminateDbi _ ih => exact .indeterminateDbi ih
  | dbiClose _ ih => exact .dbiClose ih
  | indeterminateSize _ ih => exact .indeterminateSize ih
  | ymalloc _ ih => exact .ymalloc ih
  | snappyUncompress hz _ ih => exact .snappyUncompress hz ih

end Alike

-- ================================================================ handlers

variable {th th' : TcpThread}

/-- No decoded byte string changes its connection's descriptor. -/
theorem Stream.exec_fd (s : Stream) (thread : TcpThread) :
    (s.exec thread : Server Dbi _).Ensures
      fun th => th.fd = thread.fd := by
  induction s generalizing thread with
  | done => rfl
  | cut b part =>
      refine ensures_bind.mpr ((ensures_true _).mono fun _ _ => ?_)
      refine ensures_bind.mpr ((ensures_true _).mono fun _ _ => ?_)
      show (if _ then _ else _ : TcpThread).fd = _
      split
      · rfl
      · rfl
  | unknown b => exact fun _ => rfl
  | request b r rest ih =>
      refine ensures_bind.mpr ((Request.exec_fd b thread r).mono ?_)
      intro x hx
      split
      · exact (ih x.2).mono fun th hth => hth.trans hx
      · exact hx

end FineDB

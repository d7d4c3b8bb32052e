import IrixMail.Core.Id
import IrixMail.Http.Challenges
import IrixMail.Library.Pool
import IrixMail.Store.Store
import IrixMail.Store.Ttl

/-!
# Commands and the machine that runs them

The state that the processes share: the record store, the blob store, the id
generator, the clock, and what is kept in memory. Every call of a `Store`, `BlobStore`, `TtlStore` or `PendingChallenges` method is one command, the
unit of interleaving. A batch is one command, conditional or not: the store
commits it in one transaction.

`machine` performs commands without ever failing; the programs themselves also
say what happens when a command fails.
-/

namespace IrixMail.Store
open Library Mail Smtp Http

structure Blob where
  bytes : Bytes
  modified : ℕ
  deriving DecidableEq

abbrev Blobs := AList fun _ : BlobHash => Blob

structure World where
  records : Records
  blobs : Blobs
  ids : IdGenerator
  /-- Milliseconds since the Unix epoch. -/
  clock : ℕ
  /-- What the network is going to answer, in turn. -/
  network : List NetworkReply := []
  /-- The failed logins that are counted. -/
  throttle : TtlStore := ∅
  pending : PendingChallenges := ∅

namespace World

def now (w : World) : ℕ := w.clock / 1000

/-- The clock as the id generator reads it: whole milliseconds since its own
epoch, zero before. -/
def idMillis (w : World) : UInt64 := UInt64.ofNat ((w.clock : ℤ) - epochSeconds * 1000).toNat

def empty (ids : IdGenerator) (clock : ℕ) : World :=
  { records := ∅, blobs := ∅, ids, clock }

/-- What `FsBlobStore::put` leaves under the hash: a blob of the same length is
only touched. -/
def writtenBlob (w : World) (hash : BlobHash) (bytes : Bytes) : Blob :=
  match w.blobs.lookup hash with
  | some b => if b.bytes.length = bytes.length then { b with modified := w.now } else ⟨bytes, w.now⟩
  | none => ⟨bytes, w.now⟩

def putBlob (w : World) (hash : BlobHash) (bytes : Bytes) : World :=
  { w with blobs := w.blobs.insert hash (w.writtenBlob hash bytes) }

@[simp] theorem modified_writtenBlob (w : World) (hash : BlobHash) (bytes : Bytes) :
    (w.writtenBlob hash bytes).modified = w.now := by
  unfold writtenBlob
  repeat' split
  all_goals rfl

theorem bytes_writtenBlob (w : World) (hash : BlobHash) (bytes : Bytes) :
    (w.writtenBlob hash bytes).bytes = bytes ∨
      ∃ b, w.blobs.lookup hash = some b ∧ (w.writtenBlob hash bytes).bytes = b.bytes := by
  unfold writtenBlob
  split
  next b hb =>
    split
    · exact .inr ⟨b, hb, rfl⟩
    · exact .inl rfl
  next => exact .inl rfl

theorem lookup_putBlob (w : World) (hash h : BlobHash) (bytes : Bytes) :
    (w.putBlob hash bytes).blobs.lookup h =
      if h = hash then some (w.writtenBlob hash bytes) else w.blobs.lookup h := by
  unfold putBlob
  split
  next heq => rw [heq, AList.lookup_insert]
  next hne => rw [AList.lookup_insert_ne hne]

end World

inductive Cmd
  | get (l : Loc)
  | put (l : Loc) (v : Val l)
  | delete (l : Loc)
  | iterate (p : KeyPrefix)
  | batch (ops : List WriteOp)
  | batchConditional (asserts : List ValueAssert) (ops : List WriteOp)
  | addAndGet (c : CounterLoc) (amount : ℤ)
  | counter (c : CounterLoc)
  | blobGet (hash : BlobHash)
  | blobPut (bytes : Bytes)
  | blobDelete (hash : BlobHash)
  | blobModifiedAt (hash : BlobHash)
  | blobHashes
  | generate
  | now
  | tick (millis : ℕ)
  /-- An attempt to deliver to a recipient of a queued message: made here, with
  the outcome, or left to the network. -/
  | attempt (rcpt : RecipientRef) (target : String) (here : Option DeliveryAttempt)
  | ttlGet (key : ThrottleKey)
  | ttlSet (key : ThrottleKey) (value ttl : ℕ)
  | ttlRemove (key : ThrottleKey)
  | beginChallenge (username : String) (accountId : ℕ) (kind : SessionKind)
  | takeAttempt (username : String)
  | completeChallenge (username : String)

@[reducible] def Cmd.Res : Cmd → Type
  | get l => Option (Val l)
  | put _ _ => Unit
  | delete _ => Unit
  | iterate _ => List (Sigma Val)
  | batch _ => Unit
  | batchConditional _ _ => Bool
  | addAndGet _ _ => ℤ
  | counter _ => ℤ
  | blobGet _ => Option Bytes
  | blobPut _ => BlobHash
  | blobDelete _ => Unit
  | blobModifiedAt _ => Option ℕ
  | blobHashes => List BlobHash
  | generate => UInt64
  | now => ℕ
  | tick _ => Unit
  | attempt _ _ _ => DeliveryAttempt
  | ttlGet _ => Option ℕ
  | ttlSet _ _ _ => Unit
  | ttlRemove _ => Unit
  | beginChallenge _ _ _ => Unit
  | takeAttempt _ => Option (ℕ × SessionKind)
  | completeChallenge _ => Unit

@[reducible] def sig : Sig := ⟨Cmd, Cmd.Res, Error⟩

abbrev Action := Prog sig

abbrev Access := Σ c : Cmd, c.Res

abbrev Past (ι : Type) := List (Event sig World ι)

abbrev exec (c : Cmd) : Action c.Res := Prog.perform (S := sig) c

def checked {α : Type} : Except Error α → Action α
  | .ok a => .ret a
  | .error e => .fail e

def caught {α : Type} (p : Action α) : Action (Except Error α) := do
  match ← p.attempt with
  | .error .panicked => .fail .panicked
  | r => pure r

theorem returns_checked {α β : Type} {Q : β → Prop} {x : Except Error α} {f : α → Action β}
    (h : ∀ a, x = .ok a → Prog.Returns Q (f a)) : Prog.Returns Q (checked x >>= f) := by
  cases x with
  | error e => exact .fail (S := sig) e
  | ok a => exact h a rfl

theorem returns_checked_last {α : Type} {Q : α → Prop} {x : Except Error α}
    (h : ∀ a, x = .ok a → Q a) : Prog.Returns Q (checked x) := by
  cases x with
  | error e => exact .fail (S := sig) e
  | ok a => exact .ret (h a rfl)

section Exec
variable {α σ : Type} (m : Machine sig σ)

@[simp] theorem run_exec (c : Cmd) (s : σ) : (exec c).run m s = (.ok (m c s).1, (m c s).2) := rfl

@[simp] theorem run_exec_bind (c : Cmd) (f : c.Res → Action α) (s : σ) :
    (exec c >>= f).run m s = (f (m c s).1).run m (m c s).2 :=
  Prog.run_perform_bind m c f s

theorem leadsTo_exec {quiet : Cmd → Prop} {stop : Action α → Prop} {c : Cmd}
    {f : c.Res → Action α} (hc : quiet c) (hf : ∀ r, Prog.LeadsTo quiet stop (f r)) :
    Prog.LeadsTo quiet stop (exec c >>= f) :=
  Prog.LeadsTo.perform hc hf

theorem yields_caught {quiet : Cmd → Prop} {P : α → Prop} {p : Action α}
    (h : Prog.Yields quiet P p) :
    Prog.Yields quiet (fun r => ∃ a, r = .ok a ∧ P a) (caught p) := by
  refine h.attempt.bind ?_
  rintro r ⟨a, rfl, ha⟩
  exact .ret ⟨a, rfl, ha⟩

variable {τ : Type} {m} {f : σ → τ}

theorem keeps_checked (x : Except Error α) : Prog.Keeps m f (checked x) := by
  cases x with
  | error e => exact .fail (S := sig) e
  | ok a => exact .ret a

theorem keeps_caught {p : Action α} (h : Prog.Keeps m f p) : Prog.Keeps m f (caught p) := by
  refine h.attempt.bind fun r => ?_
  split
  · exact .fail (S := sig) _
  · exact .ret _

end Exec

def machine (digest : Digest) : Machine sig World
  | .get l, w => (w.records.lookup l, w)
  | .put l v, w => ((), { w with records := w.records.insert l v })
  | .delete l, w => ((), { w with records := w.records.erase l })
  | .iterate p, w => (w.records.iterate p, w)
  | .batch ops, w => ((), { w with records := w.records.batch ops })
  | .batchConditional asserts ops, w =>
    if asserts.all w.records.meets then (true, { w with records := w.records.batch ops })
    else (false, w)
  | .addAndGet c amount, w =>
    (w.records.counter c + amount, { w with records := (WriteOp.add c amount).apply w.records })
  | .counter c, w => (w.records.counter c, w)
  | .blobGet h, w => ((w.blobs.lookup h).map Blob.bytes, w)
  | .blobPut bytes, w => (digest bytes, w.putBlob (digest bytes) bytes)
  | .blobDelete h, w => ((), { w with blobs := w.blobs.erase h })
  | .blobModifiedAt h, w => ((w.blobs.lookup h).map Blob.modified, w)
  | .blobHashes, w => (w.blobs.keys, w)
  | .generate, w => ((w.ids.generate w.idMillis).1, { w with ids := (w.ids.generate w.idMillis).2 })
  | .now, w => (w.now, w)
  | .tick millis, w => ((), { w with clock := w.clock + millis })
  | .attempt _ _ here, w =>
    (here.getD (w.network.headD .unresolvable).attempt,
      { w with network := here.elim w.network.tail fun _ => w.network })
  | .ttlGet key, w =>
    ((w.throttle.get w.clock key).1, { w with throttle := (w.throttle.get w.clock key).2 })
  | .ttlSet key value ttl, w => ((), { w with throttle := w.throttle.set w.clock key value ttl })
  | .ttlRemove key, w => ((), { w with throttle := w.throttle.remove key })
  | .beginChallenge username accountId kind, w =>
    ((), { w with pending := w.pending.begin w.clock username accountId kind })
  | .takeAttempt username, w =>
    ((w.pending.takeAttempt w.clock username).1,
      { w with pending := (w.pending.takeAttempt w.clock username).2 })
  | .completeChallenge username, w => ((), { w with pending := w.pending.complete username })

namespace Cmd

def writes : Cmd → List WriteOp
  | put l v => [.set l v]
  | delete l => [.delete l]
  | batch ops => ops
  | batchConditional _ ops => ops
  | addAndGet c amount => [.add c amount]
  | _ => []

def written : (c : Cmd) → c.Res → List WriteOp
  | batchConditional _ ops, committed => if committed then ops else []
  | c, _ => c.writes

theorem writes_of_written {c : Cmd} {r : c.Res} {op : WriteOp} (h : op ∈ c.written r) :
    op ∈ c.writes := by
  cases c with
  | batchConditional asserts ops =>
    simp only [written] at h
    split at h
    · exact h
    · simp at h
  | _ => exact h

end Cmd

theorem records_machine (digest : Digest) (c : Cmd) (w : World) :
    (machine digest c w).2.records = w.records.batch (c.written (machine digest c w).1) := by
  cases c with
  | batchConditional asserts ops =>
    simp only [machine]
    split <;> rfl
  | _ => rfl

theorem now_le_machine (digest : Digest) (c : Cmd) (w : World) :
    w.now ≤ (machine digest c w).2.now := by
  cases c with
  | tick millis => exact Nat.div_le_div_right (Nat.le_add_right _ _)
  | batchConditional asserts ops =>
    simp only [machine]
    split <;> exact le_rfl
  | _ => exact le_rfl

theorem lookup_machine_of_ne (digest : Digest) {c : Cmd} {l : Loc} {w : World}
    (h : ∀ op ∈ c.written (machine digest c w).1, op.loc ≠ l) :
    (machine digest c w).2.records.lookup l = w.records.lookup l := by
  rw [records_machine, Records.lookup_batch, WriteOp.effects_of_ne h]

end IrixMail.Store

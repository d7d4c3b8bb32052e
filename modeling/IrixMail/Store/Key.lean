import IrixMail.Core.Error

/-!
# Storage keys

A key is a subspace, an account, a collection, a document and a suffix. Its
encoding writes each number in a fixed width, most significant byte first, so
that the byte order of encodings is the lexicographic order of the fields. Keys
are kept here as their fields; a fixed-width number in a suffix is one field.
-/

namespace IrixMail.Store

inductive Subspace
  | property
  | index
  | changeLog
  | blobRef
  | queue
  | registry
  | counter
  deriving DecidableEq

def Subspace.asByte : Subspace → ℕ
  | property => 112
  | index => 105
  | changeLog => 99
  | blobRef => 98
  | queue => 113
  | registry => 114
  | counter => 110

inductive Collection
  | mailbox
  | email
  | thread
  | identity
  | emailSubmission
  | sieveScript
  | emailVanished
  | pushSubscription
  | calendar
  | calendarEvent
  | addressBook
  | contactCard
  deriving DecidableEq

def Collection.asByte : Collection → ℕ
  | mailbox => 0
  | email => 1
  | thread => 2
  | identity => 3
  | emailSubmission => 4
  | sieveScript => 5
  | emailVanished => 6
  | pushSubscription => 7
  | calendar => 8
  | calendarEvent => 9
  | addressBook => 10
  | contactCard => 11

structure Key where
  subspace : Subspace
  accountId : ℕ
  collection : Collection
  documentId : ℕ
  suffix : List ℕ := []
  deriving DecidableEq

def Key.encode (k : Key) : List ℕ :=
  k.subspace.asByte :: k.accountId :: k.collection.asByte :: k.documentId :: k.suffix

structure KeyPrefix where
  subspace : Subspace
  accountId : Option ℕ := none
  collection : Option Collection := none
  deriving DecidableEq

namespace KeyPrefix

def ofCollection (subspace : Subspace) (accountId : ℕ) (collection : Collection) : KeyPrefix :=
  ⟨subspace, some accountId, some collection⟩

def encode (p : KeyPrefix) : List ℕ :=
  p.subspace.asByte ::
    match p.accountId, p.collection with
    | none, _ => []
    | some a, none => [a]
    | some a, some c => [a, c.asByte]

end KeyPrefix

theorem Collection.asByte_injective : Function.Injective Collection.asByte := by
  intro x y h
  cases x <;> cases y <;> first | rfl | exact absurd h (by decide)

end IrixMail.Store

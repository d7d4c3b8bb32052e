import IrixMail.Store.Key
import IrixMail.Directory.Records
import IrixMail.Http.Records
import IrixMail.Jmap.Records
import IrixMail.Smtp.QueueModel

/-!
# Locations of the store

A location names one record, a typed stand-in for the key of that record. The
type of the value follows from the location, so that a key never holds a value
of another record's type and decoding cannot fail. `Loc.encode` is the key of
the source; only `change a .emailVanished n` and `vanished a n` share one, and
nothing records a change in the vanished partition.
-/

namespace IrixMail.Store
open Mail Smtp Directory Http Jmap

/-- Keys that hold a signed counter. `number` is the plain counter key: with
document `0` it is the change-id sequence of a collection, which document ids
are drawn from as well, and in the email collection it is the UID sequence of
the mailbox of that number. -/
inductive CounterLoc
  | number (accountId : ℕ) (collection : Collection) (documentId : ℕ)
  | quotaBytes (accountId : ℕ)
  | quotaMessages (accountId : ℕ)
  | refCount (hash : BlobHash)
  | link (accountId : ℕ) (hash : BlobHash)
  | inbound (day : ℕ)
  | outbound (day : ℕ)
  deriving DecidableEq

inductive Field
  | combined
  | subject
  | body
  | fromAddr
  | toAddr
  | cc
  | bcc
  deriving DecidableEq

def Field.tag : Field → ℕ
  | combined => 0
  | subject => 1
  | body => 2
  | fromAddr => 3
  | toAddr => 4
  | cc => 5
  | bcc => 6

inductive ChangeKind
  | insert
  | update
  | delete
  deriving DecidableEq

structure ChangeValue where
  documentId : ℕ
  kind : ChangeKind
  deriving DecidableEq

structure VanishedValue where
  mailboxId : ℕ
  uid : ℕ
  deriving DecidableEq

inductive Loc
  | data (accountId documentId : ℕ)
  | metadata (accountId documentId : ℕ)
  | thread (accountId : ℕ) (digest : Bytes)
  | mailbox (accountId mailboxId : ℕ)
  | counter (c : CounterLoc)
  | floor (accountId : ℕ) (collection : Collection)
  | change (accountId : ℕ) (collection : Collection) (changeId : ℕ)
  | vanished (accountId changeId : ℕ)
  | reservation (accountId : ℕ) (hash : BlobHash)
  | posting (accountId : ℕ) (collection : Collection) (field : Field) (term : String)
  | queue (id : ℕ)
  | account (id : ℕ)
  | accountAddress (domainId : ℕ) (localPart : String)
  | domain (id : ℕ)
  | domainName (name : String)
  | addressEntry (address : String)
  | scripts (accountId : ℕ)
  | vacationReply (accountId : ℕ) (sender : String)
  | session (tokenHash : Bytes)
  | credentials (accountId : ℕ)
  | dkimKey (domainId : ℕ)
  | submission (accountId submissionId : ℕ)
  deriving DecidableEq

@[reducible] def Val : Loc → Type
  | .data _ _ => MessageData
  | .metadata _ _ => MessageMetadata
  | .thread _ _ => ℕ
  | .mailbox _ _ => Mailbox
  | .counter _ => ℤ
  | .floor _ _ => ℕ
  | .change _ _ _ => ChangeValue
  | .vanished _ _ => VanishedValue
  | .reservation _ _ => ℕ
  | .posting _ _ _ _ => Finset ℕ
  | .queue _ => QueuedMessage
  | .account _ => Account
  | .accountAddress _ _ => ℕ
  | .domain _ => Domain
  | .domainName _ => ℕ
  | .addressEntry _ => AddressEntry
  | .scripts _ => List StoredScript
  | .vacationReply _ _ => ℕ
  | .session _ => SessionRecord
  | .credentials _ => List Credential
  | .dkimKey _ => DkimKey
  | .submission _ _ => SubmissionRecord

instance : (l : Loc) → DecidableEq (Val l)
  | .data _ _ => inferInstanceAs (DecidableEq MessageData)
  | .metadata _ _ => inferInstanceAs (DecidableEq MessageMetadata)
  | .thread _ _ => inferInstanceAs (DecidableEq ℕ)
  | .mailbox _ _ => inferInstanceAs (DecidableEq Mailbox)
  | .counter _ => inferInstanceAs (DecidableEq ℤ)
  | .floor _ _ => inferInstanceAs (DecidableEq ℕ)
  | .change _ _ _ => inferInstanceAs (DecidableEq ChangeValue)
  | .vanished _ _ => inferInstanceAs (DecidableEq VanishedValue)
  | .reservation _ _ => inferInstanceAs (DecidableEq ℕ)
  | .posting _ _ _ _ => inferInstanceAs (DecidableEq (Finset ℕ))
  | .queue _ => inferInstanceAs (DecidableEq QueuedMessage)
  | .account _ => inferInstanceAs (DecidableEq Account)
  | .accountAddress _ _ => inferInstanceAs (DecidableEq ℕ)
  | .domain _ => inferInstanceAs (DecidableEq Domain)
  | .domainName _ => inferInstanceAs (DecidableEq ℕ)
  | .addressEntry _ => inferInstanceAs (DecidableEq AddressEntry)
  | .scripts _ => inferInstanceAs (DecidableEq (List StoredScript))
  | .vacationReply _ _ => inferInstanceAs (DecidableEq ℕ)
  | .session _ => inferInstanceAs (DecidableEq SessionRecord)
  | .credentials _ => inferInstanceAs (DecidableEq (List Credential))
  | .dkimKey _ => inferInstanceAs (DecidableEq DkimKey)
  | .submission _ _ => inferInstanceAs (DecidableEq SubmissionRecord)

inductive LocKind
  | data
  | metadata
  | thread
  | mailbox
  | number
  | counter
  | floor
  | change
  | vanished
  | reservation
  | posting
  | queue
  | account
  | accountAddress
  | domain
  | domainName
  | addressEntry
  | scripts
  | vacationReply
  | session
  | credentials
  | dkimKey
  | submission
  deriving DecidableEq

def CounterLoc.isNumber : CounterLoc → Bool
  | number _ _ _ => true
  | _ => false

@[simp] theorem CounterLoc.isNumber_number (a : ℕ) (c : Collection) (d : ℕ) :
    (number a c d).isNumber = true := rfl
@[simp] theorem CounterLoc.isNumber_quotaBytes (a : ℕ) : (quotaBytes a).isNumber = false := rfl
@[simp] theorem CounterLoc.isNumber_quotaMessages (a : ℕ) :
    (quotaMessages a).isNumber = false := rfl
@[simp] theorem CounterLoc.isNumber_refCount (h : BlobHash) : (refCount h).isNumber = false := rfl
@[simp] theorem CounterLoc.isNumber_link (a : ℕ) (h : BlobHash) :
    (link a h).isNumber = false := rfl

@[simp] def Loc.kind : Loc → LocKind
  | data _ _ => .data
  | metadata _ _ => .metadata
  | thread _ _ => .thread
  | mailbox _ _ => .mailbox
  | counter c => if c.isNumber then .number else .counter
  | floor _ _ => .floor
  | change _ _ _ => .change
  | vanished _ _ => .vanished
  | reservation _ _ => .reservation
  | posting _ _ _ _ => .posting
  | queue _ => .queue
  | account _ => .account
  | accountAddress _ _ => .accountAddress
  | domain _ => .domain
  | domainName _ => .domainName
  | addressEntry _ => .addressEntry
  | scripts _ => .scripts
  | vacationReply _ _ => .vacationReply
  | session _ => .session
  | credentials _ => .credentials
  | dkimKey _ => .dkimKey
  | submission _ _ => .submission

def bytesOf (b : Bytes) : List ℕ := b.map UInt8.toNat

def codesOf (s : String) : List ℕ := s.toList.map Char.toNat

def CounterLoc.key : CounterLoc → Key
  | number a c d => ⟨.counter, a, c, d, []⟩
  | quotaBytes a => ⟨.counter, a, .email, 0, [98]⟩
  | quotaMessages a => ⟨.counter, a, .email, 0, [99]⟩
  | refCount h => ⟨.blobRef, 0, .email, 0, bytesOf h⟩
  | link a h => ⟨.blobRef, a, .email, 2, bytesOf h⟩
  | inbound day => ⟨.counter, 0, .email, day, [105]⟩
  | outbound day => ⟨.counter, 0, .email, day, [111]⟩

def Loc.encode : Loc → List ℕ
  | data a d => Key.encode ⟨.property, a, .email, d, []⟩
  | metadata a d => Key.encode ⟨.property, a, .email, d, [109]⟩
  | thread a digest => Key.encode ⟨.property, a, .thread, 0, 116 :: bytesOf digest⟩
  | mailbox a id => Key.encode ⟨.property, a, .mailbox, id, []⟩
  | counter c => c.key.encode
  | floor a c => Key.encode ⟨.counter, a, c, 0, codesOf "changelog-floor"⟩
  | change a c n => Key.encode ⟨.changeLog, a, c, 0, [n]⟩
  | vanished a n => Key.encode ⟨.changeLog, a, .emailVanished, 0, [n]⟩
  | reservation a h => Key.encode ⟨.blobRef, a, .email, 1, bytesOf h⟩
  | posting a c f term => Key.encode ⟨.index, a, c, f.tag, codesOf term⟩
  | queue id => Key.encode ⟨.queue, 0, .emailSubmission, id, []⟩
  | account id => [Subspace.registry.asByte, 32, id]
  | accountAddress d l => Subspace.registry.asByte :: 33 :: d :: codesOf l
  | domain id => [Subspace.registry.asByte, 16, id]
  | domainName n => Subspace.registry.asByte :: 17 :: codesOf n
  | addressEntry a => Subspace.registry.asByte :: 48 :: codesOf a
  | scripts id => [Subspace.registry.asByte, 40, id]
  | vacationReply id sender => Subspace.registry.asByte :: 41 :: id :: codesOf sender
  | session h => Subspace.registry.asByte :: 54 :: bytesOf h
  | credentials id => [Subspace.registry.asByte, 34, id]
  | dkimKey id => [Subspace.registry.asByte, 39, id]
  | submission a id => Key.encode ⟨.property, a, .emailSubmission, id, []⟩

end IrixMail.Store

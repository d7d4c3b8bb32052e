import IrixMail.Core.Error

/-! The records of the directory: accounts, domains, the address index, credentials and DKIM keys. -/

namespace IrixMail.Directory

inductive Role
  | admin
  | user
  deriving DecidableEq

structure Forwarding where
  destinations : List String
  keepLocalCopy : Bool
  deriving DecidableEq

def Forwarding.isActive (f : Forwarding) : Bool := !f.destinations.isEmpty

structure VacationResponder where
  enabled : Bool
  subject : String
  body : String
  activeFrom : Option ℕ
  activeTo : Option ℕ
  deriving DecidableEq

structure Account where
  id : ℕ
  localPart : String
  domainId : ℕ
  displayName : String
  enabled : Bool
  role : Role
  aliases : List String
  forwarding : Forwarding
  quotaBytes : ℕ
  quotaMessages : ℕ
  locale : String
  timezone : String
  signature : String
  vacation : VacationResponder
  createdAt : ℕ
  deriving DecidableEq

def Account.plain (id : ℕ) (localPart : String) : Account where
  id := id
  localPart := localPart
  domainId := 1
  displayName := ""
  enabled := true
  role := .user
  aliases := []
  forwarding := ⟨[], false⟩
  quotaBytes := 0
  quotaMessages := 0
  locale := ""
  timezone := ""
  signature := ""
  vacation := ⟨false, "", "", none, none⟩
  createdAt := 0

def Account.mailId (account : Account) : ℕ := asU32 account.id

inductive DnsRecordKind
  | mx
  | a
  | aaaa
  | spf
  | dkim
  | dmarc
  | mtaSts
  | tlsRpt
  deriving DecidableEq

inductive DnsStatus
  | unverified
  | verified (checkedAt : ℕ)
  | failing (checkedAt : ℕ) (missing : List DnsRecordKind)
  deriving DecidableEq

structure Domain where
  id : ℕ
  name : String
  aliases : List String
  enabled : Bool
  catchAllAccountId : Option ℕ
  dkimKeyIds : List ℕ
  dnsStatus : DnsStatus
  createdAt : ℕ
  deriving DecidableEq

/-- Where the address index sends an address. -/
inductive Target
  | account (accountId : ℕ)
  | forward (destination : String)
  | reject
  deriving DecidableEq

structure AddressEntry where
  address : String
  target : Target
  deriving DecidableEq

/-- A Sieve script of an account; the rules are kept as text. -/
structure StoredScript where
  id : String
  name : String
  source : String
  rules : Option String
  active : Bool
  deriving DecidableEq

structure EncryptedSecret where
  nonce : List UInt8
  ciphertext : List UInt8
  deriving DecidableEq

structure PrimaryPassword where
  hash : String
  updatedAt : ℕ
  deriving DecidableEq

structure Totp where
  secret : EncryptedSecret
  enabled : Bool
  recoveryCodes : List String
  enrolledAt : ℕ
  deriving DecidableEq

structure AppPassword where
  id : ℕ
  name : String
  hash : String
  createdAt : ℕ
  lastUsedAt : Option ℕ
  deriving DecidableEq

structure ApiKey where
  id : ℕ
  name : String
  secret : EncryptedSecret
  createdAt : ℕ
  lastUsedAt : Option ℕ
  deriving DecidableEq

inductive Credential
  | primaryPassword (record : PrimaryPassword)
  | totp (record : Totp)
  | appPassword (record : AppPassword)
  | apiKey (record : ApiKey)
  deriving DecidableEq

inductive DkimAlgorithm
  | rsa
  | ed25519
  deriving DecidableEq

structure DkimKey where
  selector : String
  algorithm : DkimAlgorithm
  privatePkcs8Der : List UInt8
  publicKeyB64 : String
  deriving DecidableEq

end IrixMail.Directory

import IrixMail.Directory.Registries

/-!
# Where an address leads

An address is looked up as it stands, under its domain's main name; then the
catch-all of the domain is asked, and at last the role addresses fall back to an
administrator.
-/

namespace IrixMail.Mail
open Library Prog Store Directory

inductive Resolution
  | localTo (accountId : ℕ) (viaCatchAll : Bool)
  | forward (destination : String)
  | rejected
  | unknown
  deriving DecidableEq

def Resolution.isAccepted : Resolution → Bool
  | .localTo _ _ => true
  | .forward _ => true
  | .rejected => false
  | .unknown => false

def domainOf (address : String) : Option String :=
  match rsplitOnce '@' address with
  | some (_, domain) => if trim domain = "" then none else some domain
  | none => none

def canonicalRecipient (recipient : String) : Action String :=
  let trimmed := trim recipient
  match rsplitOnce '@' trimmed with
  | none => pure trimmed
  | some (localPart, domain) =>
    if trim domain = "" then pure trimmed
    else do
      match ← caught (DomainRegistry.canonicalName domain) with
      | .ok (some canonical) =>
        pure (if eqIgnoreAsciiCase canonical domain then trimmed else localPart ++ "@" ++ canonical)
      | _ => pure trimmed

def adminOf (accounts : List Account) : Option ℕ :=
  ((accounts.filter fun account => account.isAdmin && account.enabled).map Account.id).min?

def isPostmaster (localPart : String) : Bool := eqIgnoreAsciiCase localPart "postmaster"
def isRole (localPart : String) : Bool :=
  isPostmaster localPart || eqIgnoreAsciiCase localPart "tlsrpt"

def anyAdmin : Action (Option ℕ) := do
  let accounts ← AccountRegistry.list
  pure (adminOf accounts)

def roleFallback (recipient : String) : Action (Option ℕ) :=
  match rsplitOnce '@' recipient with
  | some (localPart, domain) =>
    if !isRole localPart then pure none
    else do
      match ← DomainRegistry.getByName domain with
      | none => pure none
      | some domain => do
        let accounts ← AccountRegistry.listForDomain domain.id
        match adminOf accounts with
        | some admin => pure (some admin)
        | none => anyAdmin
  | none => if !isPostmaster recipient then pure none else anyAdmin

def resolutionOf (entry : AddressEntry) : Resolution :=
  match entry.target with
  | .account accountId => .localTo accountId false
  | .forward destination => .forward destination
  | .reject => .rejected

def catchAllAccount (recipient : String) : Action (Option ℕ) :=
  match domainOf recipient with
  | none => pure none
  | some domain => do
    let entry ← AddressIndex.catchAll domain
    pure (entry.bind AddressEntry.accountId)

def resolve (recipient : String) : Action Resolution := do
  let recipient ← canonicalRecipient recipient
  match ← AddressIndex.resolve recipient with
  | some entry => pure (resolutionOf entry)
  | none => do
    match ← catchAllAccount recipient with
    | some accountId => pure (.localTo accountId true)
    | none => do
      match ← roleFallback recipient with
      | some accountId => pure (.localTo accountId false)
      | none => pure .unknown

/-! ## Mailboxes -/

def mailboxOfRow : Sigma Val → Option Mailbox
  | ⟨.mailbox _ _, m⟩ => some m
  | _ => none

def loadMailboxes (a : ℕ) : Action (List Mailbox) := do
  let rows ← exec (.iterate ⟨.property, some a, some .mailbox⟩)
  pure ((rows.filterMap mailboxOfRow).insertionSort fun x y => x.id ≤ y.id)

def assignUidValidity (createdAtMillis : ℕ) : ℕ := asU32 (createdAtMillis / 1000)

def provisionMailboxes (createdAtMillis : ℕ) : List Mailbox :=
  [(1, "Inbox", .inbox), (2, "Sent", .sent), (3, "Drafts", .drafts), (4, "Trash", .trash),
    (5, "Spam", .junk)].map fun (id, name, role) =>
      ⟨id, name, role, assignUidValidity createdAtMillis⟩

end IrixMail.Mail

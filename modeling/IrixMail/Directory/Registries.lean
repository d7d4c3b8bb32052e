import IrixMail.Directory.AccountRegistry

/-! What mail routing reads of the directory: addresses, domains, accounts and scripts. -/

namespace IrixMail.Directory
open Library Prog Store

def normalizeName (name : String) : String :=
  toAsciiLowercase (String.ofList (trimEnd (· == '.') (trim name).toList))

def Domain.matchesName (domain : Domain) (name : String) : Bool :=
  eqIgnoreAsciiCase domain.name name || domain.aliases.any fun x => eqIgnoreAsciiCase x name

def Account.isAdmin (account : Account) : Bool := account.role = .admin

namespace AddressIndex

def catchAllAddress (domain : String) : String := "@" ++ domain

def catchAll (domain : String) : Action (Option AddressEntry) :=
  exec (.get (.addressEntry (catchAllAddress (normalizeAddress domain))))

end AddressIndex

namespace DomainRegistry

def lookupIdByName (name : String) : Action (Option ℕ) := exec (.get (.domainName name))

def domainOfRow : Sigma Val → Option Domain
  | ⟨.domain _, domain⟩ => some domain
  | _ => none

def list : Action (List Domain) := do
  let rows ← exec (.iterate ⟨.registry, none, none⟩)
  pure (rows.filterMap domainOfRow)

def getByName (name : String) : Action (Option Domain) := do
  let name := normalizeName name
  match ← lookupIdByName name with
  | some id => do
    let domain ← get id
    pure (some domain)
  | none => do
    let domains ← list
    pure (domains.find? fun domain => domain.matchesName name)

def canonicalName (name : String) : Action (Option String) := do
  let domain ← getByName name
  pure (domain.map Domain.name)

end DomainRegistry

namespace AccountRegistry

def get (id : ℕ) : Action Account := do
  match ← exec (.get (.account id)) with
  | some account => pure account
  | none => .fail (.notFound s!"account {id}")

def accountOfRow : Sigma Val → Option Account
  | ⟨.account _, account⟩ => some account
  | _ => none

def collect (keep : Account → Bool) : Action (List Account) := do
  let rows ← exec (.iterate ⟨.registry, none, none⟩)
  pure ((rows.filterMap accountOfRow).filter keep)

def list : Action (List Account) := collect fun _ => true
def listForDomain (domainId : ℕ) : Action (List Account) :=
  collect fun account => account.domainId = domainId

end AccountRegistry

namespace SieveScriptRegistry

def list (accountId : ℕ) : Action (List StoredScript) := do
  let scripts ← exec (.get (.scripts accountId))
  pure (scripts.getD [])

end SieveScriptRegistry
end IrixMail.Directory

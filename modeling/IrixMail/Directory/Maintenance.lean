import IrixMail.Directory.Registries

/-!
# Changes of the directory

The calls that change accounts and domains, with the registries wired as the server
wires them: accounts keep their addresses in the address index, domains keep their
catch-all there and move the addresses of their accounts when they are renamed.
-/

namespace IrixMail.Directory
open Library Prog Store

namespace AddressIndex

def accountEntryOp (address : String) (accountId : ℕ) : WriteOp :=
  let address := normalizeAddress address
  .set (.addressEntry address) ⟨address, .account accountId⟩

def removeEntryOp (address : String) : WriteOp := .delete (.addressEntry (normalizeAddress address))

def setCatchAllOp (domain : String) (accountId : ℕ) : Except Error WriteOp :=
  let domain := normalizeAddress domain
  if domain = "" then .error (.invalidInput "a catch-all must name a domain")
  else .ok (accountEntryOp (catchAllAddress domain) accountId)

def clearCatchAllOp (domain : String) : WriteOp :=
  removeEntryOp (catchAllAddress (normalizeAddress domain))

end AddressIndex

namespace AccountRegistry

def moveOps (existing account : Account) : Action (List WriteOp) :=
  if account.localPart ≠ existing.localPart ∨ account.domainId ≠ existing.domainId then do
    let other ← lookupIdByAddress account.domainId account.localPart
    if other.any (· != account.id) then
      let localPart := account.localPart
      let domainId := account.domainId
      .fail (.invalidInput s!"an account {localPart} already exists in domain {domainId}")
    else pure [.delete (.accountAddress existing.domainId existing.localPart),
      .set (.accountAddress account.domainId account.localPart) account.id]
  else pure []

def tidied (account : Account) : Account :=
  { account with
    localPart := normalizeLocalPart account.localPart
    aliases := account.aliases.filter fun x => trim x != "" }

@[simp] theorem id_tidied (account : Account) : (tidied account).id = account.id := by
  unfold tidied
  rfl

@[simp] theorem domainId_tidied (account : Account) :
    (tidied account).domainId = account.domainId := by
  unfold tidied
  rfl

def replace (existing account : Account) : Action Unit :=
  if account.localPart = "" then .fail (.invalidInput "an account local part must not be empty")
  else do
    let moved ← moveOps existing account
    let previous ← addressesOf existing
    let current ← addressesOf account
    let maintenance ← AddressIndex.accountAddressOps account.id previous current
    exec (.batch ([.set (.account account.id) account] ++ moved ++ maintenance))

def update (account : Account) : Action Unit := do
  let existing ← get account.id
  replace existing (tidied account)

def delete (id : ℕ) : Action Unit := do
  let account ← get id
  let previous ← addressesOf account
  let maintenance ← AddressIndex.accountAddressOps id previous []
  exec (.batch ([.delete (.account id), .delete (.accountAddress account.domainId account.localPart)] ++
    maintenance))

end AccountRegistry

namespace DomainRegistry

def catchAllOps (previous current : Domain) : Except Error (List WriteOp) := do
  let cleared := if previous.catchAllAccountId.isSome then
    [AddressIndex.clearCatchAllOp previous.name] else []
  match current.catchAllAccountId with
  | some accountId => do
    let op ← AddressIndex.setCatchAllOp current.name accountId
    pure (cleared ++ [op])
  | none => pure cleared

def rekeyOps (oldName newName : String) : List Account → Action (List WriteOp)
  | [] => pure []
  | account :: rest => do
    let newAddress := account.localPart ++ "@" ++ newName
    let entry ← AddressIndex.resolve newAddress
    if entry.any fun entry => entry.accountId ≠ some account.id then
      .fail (.invalidInput s!"the address {newAddress} is already in use")
    else do
      let ops ← rekeyOps oldName newName rest
      pure ([AddressIndex.removeEntryOp (account.localPart ++ "@" ++ oldName),
        AddressIndex.accountEntryOp newAddress account.id] ++ ops)

def rekeyPrimaryOps (oldName newName : String) (domainId : ℕ) : Action (List WriteOp) := do
  let accounts ← AccountRegistry.listForDomain domainId
  rekeyOps oldName newName accounts

def normalizeAliases (aliases : List String) : List String :=
  (aliases.map normalizeName).filter (· != "")

def newDomain (name : String) (aliases : List String) (id : UInt64) : Domain where
  id := id.toNat
  name := normalizeName name
  aliases := normalizeAliases aliases
  enabled := true
  catchAllAccountId := none
  dkimKeyIds := []
  dnsStatus := .unverified
  createdAt := IdGenerator.timestampOf id * 1000

def create (name : String) (aliases : List String) : Action Domain := do
  let normalized := normalizeName name
  if normalized = "" then .fail (.invalidInput "a domain name must not be empty")
  else do
    match ← lookupIdByName normalized with
    | some _ => .fail (.invalidInput s!"a domain named {normalized} already exists")
    | none => do
      let id ← exec .generate
      let domain := newDomain name aliases id
      exec (.batch [.set (.domain domain.id) domain, .set (.domainName domain.name) domain.id])
      pure domain

def renameOps (existing domain : Domain) : Action (List WriteOp) :=
  if domain.name ≠ existing.name then do
    let other ← lookupIdByName domain.name
    if other.any (· != domain.id) then
      let name := domain.name
      .fail (.invalidInput s!"a domain named {name} already exists")
    else do
      let rekeyed ← rekeyPrimaryOps existing.name domain.name domain.id
      pure ([.delete (.domainName existing.name), .set (.domainName domain.name) domain.id] ++
        rekeyed)
  else pure []

def tidied (domain : Domain) : Domain :=
  { domain with
    name := normalizeName domain.name
    aliases := normalizeAliases domain.aliases }

@[simp] theorem id_tidied (domain : Domain) : (tidied domain).id = domain.id := by
  unfold tidied
  rfl

@[simp] theorem catchAllAccountId_tidied (domain : Domain) :
    (tidied domain).catchAllAccountId = domain.catchAllAccountId := by
  unfold tidied
  rfl

def replace (existing domain : Domain) : Action Unit :=
  if domain.name = "" then .fail (.invalidInput "a domain name must not be empty")
  else do
    let renamed ← renameOps existing domain
    let catchAll ← checked (catchAllOps existing domain)
    exec (.batch ([.set (.domain domain.id) domain] ++ renamed ++ catchAll))

def update (domain : Domain) : Action Unit := do
  let existing ← get domain.id
  replace existing (tidied domain)

def delete (id : ℕ) : Action Unit := do
  let domain ← get id
  let accounts ← AccountRegistry.listForDomain id
  if !accounts.isEmpty then
    let name := domain.name
    .fail (.invalidInput s!"the domain {name} still has accounts")
  else exec (.batch ([.delete (.domain id), .delete (.domainName domain.name)] ++
    if domain.catchAllAccountId.isSome then [AddressIndex.clearCatchAllOp domain.name] else []))

end DomainRegistry
end IrixMail.Directory

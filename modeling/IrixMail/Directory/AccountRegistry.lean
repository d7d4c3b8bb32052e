import IrixMail.Store.World

/-!
# Creating accounts

`AccountRegistry::create`: the address is checked, an id is drawn, and the account
record and its address are written in one batch, together with the address-index
entries when the registry maintains them. All mail state of an account is keyed
by `Account.mailId`, the low half of the id.
-/

namespace IrixMail.Directory
open Library Prog Store

def normalizeAddress (address : String) : String := toAsciiLowercase (trim address)
def normalizeLocalPart (localPart : String) : String := toAsciiLowercase (trim localPart)

def AddressEntry.accountId (e : AddressEntry) : Option ℕ :=
  match e.target with
  | .account id => some id
  | .forward _ => none
  | .reject => none

namespace AddressIndex

def resolve (address : String) : Action (Option AddressEntry) :=
  exec (.get (.addressEntry (normalizeAddress address)))

def checkFree (accountId : ℕ) (previous : List String) : List String → Action Unit
  | [] => pure ()
  | address :: rest =>
    if address ∈ previous then checkFree accountId previous rest
    else do
      match ← resolve address with
      | some entry =>
        if entry.accountId ≠ some accountId then
          .fail (.invalidInput s!"the address {address} is already in use")
        else checkFree accountId previous rest
      | none => checkFree accountId previous rest

def accountAddressOps (accountId : ℕ) (previous current : List String) :
    Action (List WriteOp) := do
  let current := current.map normalizeAddress
  let previous := previous.map normalizeAddress
  if current.any (· == "") || previous.any (· == "") then
    .fail (.invalidInput "an account address must not be blank")
  else do
    checkFree accountId previous current
    pure (((previous.filter (· ∉ current)).map fun x => .delete (.addressEntry x)) ++
      current.map fun x => .set (.addressEntry x) ⟨x, .account accountId⟩)

end AddressIndex

namespace DomainRegistry

def get (id : ℕ) : Action Domain := do
  match ← exec (.get (.domain id)) with
  | some domain => pure domain
  | none => .fail (.notFound s!"domain {id}")

end DomainRegistry

namespace AccountRegistry

/-- The addresses of an account that the index keeps; a domain that cannot be
read adds none. -/
def addressesOf (account : Account) : Action (List String) := do
  let aliases := account.aliases.filter fun x => trim x != ""
  match ← (DomainRegistry.get account.domainId).attempt with
  | .ok domain => pure (aliases ++ [account.localPart ++ "@" ++ domain.name])
  | .error _ => pure aliases

def lookupIdByAddress (domainId : ℕ) (localPart : String) : Action (Option ℕ) :=
  exec (.get (.accountAddress domainId localPart))

structure CreateRequest where
  localPart : String
  domainId : ℕ
  displayName : String
  role : Role
  extraOps : ℕ → ℕ → List WriteOp := fun _ _ => []

def newAccount (request : CreateRequest) (id : UInt64) : Account where
  id := id.toNat
  localPart := normalizeLocalPart request.localPart
  domainId := request.domainId
  displayName := request.displayName
  enabled := true
  role := request.role
  aliases := []
  forwarding := ⟨[], false⟩
  quotaBytes := 0
  quotaMessages := 0
  locale := ""
  timezone := ""
  signature := ""
  vacation := ⟨false, "", "", none, none⟩
  createdAt := IdGenerator.timestampOf id * 1000

def maintenanceOps (maintained : Bool) (account : Account) : Action (List WriteOp) :=
  if maintained then do
    let addresses ← addressesOf account
    AddressIndex.accountAddressOps account.id [] addresses
  else pure []

def register (maintained : Bool) (request : CreateRequest) (id : UInt64) : Action Account := do
  let account := newAccount request id
  let maintenance ← maintenanceOps maintained account
  exec (.batch ([.set (.account account.id) account,
    .set (.accountAddress account.domainId account.localPart) account.id] ++
    request.extraOps account.id account.createdAt ++ maintenance))
  pure account

def createWithExtraOps (maintained : Bool) (request : CreateRequest) : Action Account :=
  let localPart := normalizeLocalPart request.localPart
  if localPart = "" then .fail (.invalidInput "an account local part must not be empty")
  else do
    match ← lookupIdByAddress request.domainId localPart with
    | some _ => .fail (.invalidInput
        s!"an account {localPart} already exists in domain {request.domainId}")
    | none => do
      let id ← exec .generate
      register maintained request id

end AccountRegistry
end IrixMail.Directory

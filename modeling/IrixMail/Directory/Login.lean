import IrixMail.Directory.Credentials

/-!
# Logging in

`attempt_login`: failed logins are counted for the address of the client and for
the account, and too many of either lock the login out for a while. The count is
read and written in two steps, and so are the check and the failure it leads to.
-/

namespace IrixMail.Directory
open Library Prog Store

structure ThrottlePolicy where
  maxFailures : ℕ
  /-- Milliseconds. -/
  window : ℕ
  deriving DecidableEq

def ThrottlePolicy.new (maxFailures window : ℕ) : ThrottlePolicy := ⟨max maxFailures 1, window⟩
def ThrottlePolicy.default : ThrottlePolicy := ⟨5, 15 * 60 * 1000⟩

namespace Throttle
variable (policy : ThrottlePolicy)

def count (key : ThrottleKey) : Action ℕ := do
  let found ← exec (.ttlGet key)
  pure (found.getD 0)

/-- `saturating_add` on `u32`. -/
def next (n : ℕ) : ℕ := min (n + 1) (2 ^ 32 - 1)

def bump (key : ThrottleKey) : Action Unit := do
  let n ← count key
  exec (.ttlSet key (next n) policy.window)

def keysOf (ip : Option String) (accountId : Option ℕ) : List ThrottleKey :=
  (ip.map ThrottleKey.ip).toList ++ (accountId.map ThrottleKey.account).toList

def anyLocked : List ThrottleKey → Action Bool
  | [] => pure false
  | key :: rest => do
    let n ← count key
    let others ← anyLocked rest
    pure (policy.maxFailures ≤ n || others)

def isLocked (ip : Option String) (accountId : Option ℕ) : Action Bool :=
  anyLocked policy (keysOf ip accountId)

def recordFailure (ip : Option String) (accountId : Option ℕ) : Action Unit :=
  (keysOf ip accountId).forM (bump policy)

def recordSuccess (ip : Option String) (accountId : Option ℕ) : Action Unit :=
  (keysOf ip accountId).forM fun key => exec (.ttlRemove key)

end Throttle

def AccountRegistry.getByAddress (localPart : String) (domainId : ℕ) : Action (Option Account) := do
  match ← lookupIdByAddress domainId (normalizeLocalPart localPart) with
  | some id => do
    let account ← get id
    pure (some account)
  | none => pure none

inductive LoginAttempt
  | granted (account : Account) (by_ : AuthenticatedBy)
  | denied
  | throttled
  deriving DecidableEq

def resolveUsername (username : String) : Action (Option Account) :=
  match rsplitOnce '@' username with
  | none => pure none
  | some (localPart, domainName) => do
    match ← DomainRegistry.getByName domainName with
    | none => pure none
    | some domain => AccountRegistry.getByAddress localPart domain.id

section
variable (secrets : Secrets) (policy : ThrottlePolicy)

def verifyLogin (ip : Option String) (account : Account) (secret : String)
    (purpose : LoginPurpose) : Action LoginAttempt := do
  let stored ← CredentialRegistry.list account.id
  match ← checked (authenticate secrets account stored purpose secret) with
  | .granted by_ => do
    Throttle.recordSuccess ip (some account.id)
    pure (.granted account by_)
  | .denied => do
    Throttle.recordFailure policy ip (some account.id)
    pure .denied

def attemptLogin (ip : Option String) (username secret : String) (purpose : LoginPurpose) :
    Action LoginAttempt := do
  if ← Throttle.isLocked policy ip none then pure .throttled
  else do
    match ← resolveUsername username with
    | none => do
      Throttle.recordFailure policy ip none
      pure .denied
    | some account => do
      if ← Throttle.isLocked policy ip (some account.id) then pure .throttled
      else verifyLogin secrets policy ip account secret purpose

end
end IrixMail.Directory

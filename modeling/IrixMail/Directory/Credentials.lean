import IrixMail.Directory.Registries

/-!
# Credentials

The credentials of an account are one record. Every change of them reads the
list, edits it and writes it back; the empty list is written as no record.
-/

namespace IrixMail.Directory
open Library Prog Store

/-- The cryptography the directory relies on. -/
structure Secrets where
  /-- `password::verify`, of a secret against a stored hash. -/
  verify : String → String → Except Error Bool
  decrypt : EncryptedSecret → Except Error Bytes
  verifyCode : Bytes → String → ℕ → Except Error Bool
  /-- Of a code against a stored hash. -/
  verifyRecoveryCode : String → String → Except Error Bool

def Credential.isPrimaryPassword : Credential → Bool
  | primaryPassword _ => true
  | _ => false

def Credential.isTotp : Credential → Bool
  | totp _ => true
  | _ => false

def Credential.isAppPassword (id : ℕ) : Credential → Bool
  | appPassword record => record.id == id
  | _ => false

namespace CredentialRegistry

def list (accountId : ℕ) : Action (List Credential) := do
  let found ← exec (.get (.credentials accountId))
  pure (found.getD [])

def writeOp (accountId : ℕ) (credentials : List Credential) : WriteOp :=
  if credentials.isEmpty then .delete (.credentials accountId)
  else .set (.credentials accountId) credentials

def write (accountId : ℕ) (credentials : List Credential) : Action Unit :=
  exec (.batch [writeOp accountId credentials])

def nowMs : Action ℕ := do
  let id ← exec .generate
  pure (IdGenerator.timestampOf id * 1000)

def withPrimaryPassword (hash : String) (updatedAt : ℕ) (credentials : List Credential) :
    List Credential :=
  credentials.filter (! ·.isPrimaryPassword) ++ [.primaryPassword ⟨hash, updatedAt⟩]

def setPrimaryPassword (accountId : ℕ) (hash : String) : Action Unit := do
  let credentials ← list accountId
  let updatedAt ← nowMs
  write accountId (withPrimaryPassword hash updatedAt credentials)

def addAppPassword (accountId : ℕ) (appPassword : AppPassword) : Action Unit := do
  let credentials ← list accountId
  write accountId (credentials ++ [.appPassword appPassword])

def withoutAppPassword (id : ℕ) (credentials : List Credential) : List Credential :=
  credentials.filter (! ·.isAppPassword id)

def revokeAppPassword (accountId id : ℕ) : Action Bool := do
  let credentials ← list accountId
  if (withoutAppPassword id credentials).length = credentials.length then pure false
  else do
    write accountId (withoutAppPassword id credentials)
    pure true

def withTotp (totp : Totp) (credentials : List Credential) : List Credential :=
  credentials.filter (! ·.isTotp) ++ [.totp totp]

def setTotp (accountId : ℕ) (totp : Totp) : Action Unit := do
  let credentials ← list accountId
  write accountId (withTotp totp credentials)

def withoutTotp (credentials : List Credential) : List Credential :=
  credentials.filter (! ·.isTotp)

def clearTotp (accountId : ℕ) : Action Unit := do
  let credentials ← list accountId
  if (withoutTotp credentials).length = credentials.length then pure ()
  else write accountId (withoutTotp credentials)

end CredentialRegistry

/-! ## Second factors -/

namespace TotpFlow
variable (secrets : Secrets)

inductive ChallengeOutcome
  | granted
  | denied
  deriving DecidableEq

/-- What is left of the codes when this one is used up, if it is one of them.
Every stored hash is tried. -/
def consumeRecoveryCode (stored : List String) (code : String) :
    Except Error (Option (List String)) := do
  let hits ← stored.mapM fun hash => secrets.verifyRecoveryCode code hash
  pure ((hits.findIdx? id).map stored.eraseIdx)

def enabledTotp : List Credential → Option Totp
  | [] => none
  | .totp totp :: rest => if totp.enabled then some totp else enabledTotp rest
  | _ :: rest => enabledTotp rest

def replaceTotp (totp : Totp) : List Credential → List Credential
  | [] => []
  | .totp old :: rest => if old.enabled then .totp totp :: rest else .totp old :: replaceTotp totp rest
  | credential :: rest => credential :: replaceTotp totp rest

def complete (credentials : List Credential) (code : String) (unixTime : ℕ) :
    Except Error (ChallengeOutcome × List Credential) :=
  match enabledTotp credentials with
  | none => .ok (.denied, credentials)
  | some totp => do
    let secret ← secrets.decrypt totp.secret
    if ← secrets.verifyCode secret code unixTime then .ok (.granted, credentials)
    else
      match ← consumeRecoveryCode secrets totp.recoveryCodes code with
      | some left =>
        .ok (.granted, replaceTotp { totp with recoveryCodes := left } credentials)
      | none => .ok (.denied, credentials)

def consumed : List Credential → Option Totp
  | [] => none
  | .totp totp :: _ => some totp
  | _ :: rest => consumed rest

/-! What is left of the recovery codes when a code has been granted. -/

def accepts (code hash : String) : Bool :=
  match secrets.verifyRecoveryCode code hash with
  | .ok hit => hit
  | .error _ => false

def accepted (code : String) (credentials : List Credential) : ℕ :=
  match enabledTotp credentials with
  | some totp => totp.recoveryCodes.countP (accepts secrets code)
  | none => 0

theorem enabledTotp_filter {p : Credential → Bool} (hp : ∀ totp, p (.totp totp))
    (cs : List Credential) : enabledTotp (cs.filter p) = enabledTotp cs := by
  induction cs with
  | nil => rfl
  | cons c cs ih =>
    cases c with
    | totp totp => simp only [List.filter_cons, hp totp, if_true, enabledTotp, ih]
    | _ =>
      simp only [List.filter_cons]
      split
      · simp only [enabledTotp, ih]
      · exact ih

theorem enabledTotp_append (cs ds : List Credential) :
    enabledTotp (cs ++ ds) = (enabledTotp cs).or (enabledTotp ds) := by
  induction cs with
  | nil => rfl
  | cons c cs ih =>
    cases c with
    | totp totp =>
      simp only [List.cons_append, enabledTotp]
      split
      · rfl
      · exact ih
    | _ => exact ih

theorem enabledTotp_without (cs : List Credential) :
    enabledTotp (CredentialRegistry.withoutTotp cs) = none := by
  induction cs with
  | nil => rfl
  | cons c cs ih => cases c <;> exact ih

theorem enabledTotp_withTotp (totp : Totp) (cs : List Credential) :
    enabledTotp (CredentialRegistry.withTotp totp cs) = if totp.enabled then some totp else none := by
  rw [show CredentialRegistry.withTotp totp cs = CredentialRegistry.withoutTotp cs ++ [.totp totp]
    from rfl, enabledTotp_append, enabledTotp_without]
  rfl

variable {cs stored : List Credential} {new old totp : Totp} {code : String} {now : ℕ}

/-- The factor that is written back is the one that was checked, unless that is
not the first one; then it is not enabled. -/
theorem consumed_replaceTotp (hold : enabledTotp cs = some old)
    (h : consumed (replaceTotp new cs) = some totp) :
    totp = new ∨ totp.enabled = false := by
  induction cs with
  | nil => cases hold
  | cons c cs ih =>
    cases c with
    | totp first =>
      cases hfirst : first.enabled with
      | true =>
        simp only [replaceTotp, hfirst, if_true, consumed, Option.some.injEq] at h
        exact .inl h.symm
      | false =>
        simp only [replaceTotp, hfirst] at h
        exact .inr (Option.some.inj h ▸ hfirst)
    | _ => exact ih hold h

theorem exists_consumed (hold : enabledTotp cs = some old) : ∃ totp, consumed
    (replaceTotp new cs) = some totp := by
  induction cs with
  | nil => cases hold
  | cons c cs ih =>
    cases c with
    | totp first =>
      simp only [replaceTotp]
      split
      · exact ⟨new, rfl⟩
      · exact ⟨first, rfl⟩
    | _ => exact ih hold

theorem replaceTotp_self (h : enabledTotp cs = some totp) :
    replaceTotp totp cs = cs := by
  induction cs with
  | nil => rfl
  | cons c cs ih =>
    cases c with
    | totp first =>
      cases hfirst : first.enabled with
      | true =>
        simp only [enabledTotp, hfirst, if_true, Option.some.injEq] at h
        subst h
        exact if_pos hfirst
      | false =>
        simp only [enabledTotp, hfirst] at h
        simp [replaceTotp, hfirst, ih h]
    | _ => exact congrArg _ (ih h)

theorem forall₂_of_mapM {α β : Type} {f : α → Except Error β} {xs : List α} {ys : List β}
    (h : xs.mapM f = .ok ys) : List.Forall₂ (fun x y => f x = .ok y) xs ys := by
  induction xs generalizing ys with
  | nil =>
    cases h
    exact .nil
  | cons x xs ih =>
    rw [List.mapM_cons] at h
    cases hx : f x with
    | error e =>
      rw [hx] at h
      cases h
    | ok y =>
      cases hxs : xs.mapM f with
      | error e =>
        rw [hx, hxs] at h
        cases h
      | ok rest =>
        rw [hx, hxs] at h
        cases h
        exact .cons hx (ih hxs)

variable {secrets}

theorem consumeRecoveryCode_some {stored left : List String}
    (h : consumeRecoveryCode secrets stored code = .ok (some left)) :
    ∃ hash, accepts secrets code hash ∧ stored.Perm (hash :: left) := by
  unfold consumeRecoveryCode at h
  cases hhits : stored.mapM fun hash => secrets.verifyRecoveryCode code hash with
  | error e =>
    rw [hhits] at h
    cases h
  | ok hits =>
    rw [hhits] at h
    obtain ⟨i, hi, rfl⟩ := Option.map_eq_some_iff.1 (Except.ok.inj h)
    obtain ⟨hlt, hhit, -⟩ := List.findIdx?_eq_some_iff_getElem.1 hi
    have hall := forall₂_of_mapM hhits
    have hlen : i < stored.length := hall.length_eq ▸ hlt
    have hverify := hall.get hlen hlt
    refine ⟨stored[i], ?_, (List.getElem_cons_eraseIdx_perm hlen).symm⟩
    unfold accepts
    rw [show secrets.verifyRecoveryCode code stored[i] = .ok hits[i] from hverify]
    exact hhit

theorem complete_granted (h : complete secrets cs code now = .ok (.granted, stored)) :
    ∃ totp, enabledTotp cs = some totp ∧
      ((stored = cs ∧ ∃ secret, secrets.verifyCode secret code now = .ok true) ∨
        ∃ left, consumeRecoveryCode secrets totp.recoveryCodes code = .ok (some left) ∧
          stored = replaceTotp { totp with recoveryCodes := left } cs) := by
  unfold complete at h
  split at h
  · cases h
  next totp htotp =>
    refine ⟨totp, htotp, ?_⟩
    cases hsecret : secrets.decrypt totp.secret with
    | error e =>
      rw [hsecret] at h
      cases h
    | ok secret =>
      rw [hsecret] at h
      change (secrets.verifyCode secret code now >>= _) = _ at h
      cases hcode : secrets.verifyCode secret code now with
      | error e =>
        rw [hcode] at h
        cases h
      | ok valid =>
        rw [hcode] at h
        cases valid with
        | true =>
          cases h
          exact .inl ⟨rfl, secret, hcode⟩
        | false =>
          cases hleft : consumeRecoveryCode secrets totp.recoveryCodes code with
          | error e =>
            rw [hleft] at h
            cases h
          | ok left =>
            rw [hleft] at h
            cases left with
            | none => cases h
            | some left =>
              cases h
              exact .inr ⟨left, rfl, rfl⟩

/-- Writing back the factor of a granted login adds no recovery code, and takes
the one away that was used. -/
theorem accepted_withTotp (h : complete secrets cs code now = .ok (.granted, stored))
    (hconsumed : consumed stored = some totp)
    (code' : String) :
    accepted secrets code' (CredentialRegistry.withTotp totp cs) ≤ accepted secrets code' cs ∧
      ((∀ secret, secrets.verifyCode secret code now ≠ .ok true) →
        accepted secrets code (CredentialRegistry.withTotp totp cs) < accepted secrets code cs) := by
  obtain ⟨old, hold, hcase⟩ := complete_granted h
  have hcount (c : String) : accepted secrets c cs = old.recoveryCodes.countP (accepts secrets c) := by
    unfold accepted
    rw [hold]
  have hnew (c : String) : accepted secrets c (CredentialRegistry.withTotp totp cs) =
      if totp.enabled then totp.recoveryCodes.countP (accepts secrets c) else 0 := by
    unfold accepted
    rw [enabledTotp_withTotp]
    cases totp.enabled <;> rfl
  rcases hcase with ⟨rfl, secret, hvalid⟩ | ⟨left, hleft, rfl⟩
  · refine ⟨?_, fun hinvalid => absurd hvalid (hinvalid secret)⟩
    rw [hnew, hcount]
    rw [← replaceTotp_self hold] at hconsumed
    rcases consumed_replaceTotp hold hconsumed with rfl | hdisabled
    · split <;> simp
    · simp [hdisabled]
  · obtain ⟨hash, haccepts, hperm⟩ := consumeRecoveryCode_some hleft
    have hless (c : String) : old.recoveryCodes.countP (accepts secrets c) =
        left.countP (accepts secrets c) + if accepts secrets c hash then 1 else 0 := by
      rw [hperm.countP_eq, List.countP_cons]
    rw [hnew, hnew, hcount, hcount, hless, hless, haccepts]
    rcases consumed_replaceTotp hold hconsumed with rfl | hdisabled
    · dsimp only
      constructor
      · split <;> omega
      · split <;> simp
    · simp [hdisabled]

theorem consumed_of_granted (h : complete secrets cs code now = .ok (.granted, stored)) :
    ∃ totp, consumed stored = some totp := by
  obtain ⟨old, hold, ⟨rfl, -⟩ | ⟨left, -, rfl⟩⟩ := complete_granted h
  · rw [← replaceTotp_self hold]
    exact exists_consumed hold
  · exact exists_consumed hold

end TotpFlow

/-! ## Passwords -/

inductive LoginPurpose
  | interactive
  | mail
  deriving DecidableEq

def LoginPurpose.allowsAppPassword (purpose : LoginPurpose) : Bool := purpose = .mail

inductive AuthenticatedBy
  | primaryPassword (mfaRequired : Bool)
  | appPassword (id : ℕ)
  deriving DecidableEq

def AuthenticatedBy.mfaRequired : AuthenticatedBy → Bool
  | primaryPassword required => required
  | appPassword _ => false

inductive Authentication
  | granted (by_ : AuthenticatedBy)
  | denied
  deriving DecidableEq

def hasEnabledTotp (credentials : List Credential) : Bool :=
  credentials.any fun
    | .totp totp => totp.enabled
    | _ => false

def matchCredential (secrets : Secrets) (credentials : List Credential) (purpose : LoginPurpose)
    (secret : String) : Credential → Except Error (Option AuthenticatedBy)
  | .primaryPassword primary => do
    let hit ← secrets.verify secret primary.hash
    pure (if hit then some (.primaryPassword
      (purpose = .interactive && hasEnabledTotp credentials)) else none)
  | .appPassword app =>
    if purpose.allowsAppPassword then do
      let hit ← secrets.verify secret app.hash
      pure (if hit then some (.appPassword app.id) else none)
    else .ok none
  | .totp _ => .ok none
  | .apiKey _ => .ok none

def authenticate (secrets : Secrets) (account : Account) (credentials : List Credential)
    (purpose : LoginPurpose) (secret : String) : Except Error Authentication :=
  if !account.enabled then .ok .denied
  else do
    let matched ← credentials.mapM (matchCredential secrets credentials purpose secret)
    pure (match matched.findSome? id with
      | some by_ => .granted by_
      | none => .denied)

end IrixMail.Directory

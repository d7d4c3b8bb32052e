import IrixMail.Directory.Login
import IrixMail.Http.Sessions

/-!
# The login endpoints

`login` checks the password and, for an account with a second factor, begins a
challenge; `totp` takes one attempt of the challenge and checks the code. The
token of a new session is drawn at random by the source and a parameter here.
-/

namespace IrixMail.Http
open Library Prog Store Directory

structure RecoveryAdmin where
  user : String
  hash : String

def constantTimeEq (left right : Bytes) : Bool :=
  let difference : UInt8 := .ofNat (left.length ^^^ right.length)
  (List.range (max left.length right.length)).foldl
    (fun d i => d ||| (left.getD i 0 ^^^ right.getD i 0)) difference == 0

namespace RecoveryAdmin

def «matches» (admin : RecoveryAdmin) (identity : String) : Bool :=
  constantTimeEq (utf8Bytes admin.user) (utf8Bytes identity)

def verify (secrets : Secrets) (admin : RecoveryAdmin) (identity secret : String) :
    Except Error Bool := do
  let secretMatches ← secrets.verify secret admin.hash
  pure (admin.matches identity && secretMatches)

end RecoveryAdmin

structure AppState where
  secrets : Secrets
  policy : ThrottlePolicy
  tokenHash : String → Bytes
  recoveryAdmin : Option RecoveryAdmin

inductive Response
  | session (token : String) (isAdmin : Bool)
  | totpRequired
  | error (status : ℕ) (message : String)
  deriving DecidableEq

def adminRequired : Response := .error 403 "administrator access required"
def tooManyFailures : Response := .error 429 "too many failed login attempts"
def invalidCredentials : Response := .error 401 "invalid credentials"
def invalidCode : Response := .error 401 "invalid or expired code"

variable (state : AppState)

def sessionResponse (token : String) (info : TokenInfo) : Action Response := do
  let now ← exec .now
  match ← (Sessions.issueAt state.tokenHash token info now).attempt with
  | .ok token => pure (.session token info.isAdmin)
  | .error _ => pure (.error 500 "could not store the session")

structure LoginBody where
  kind : SessionKind
  username : String
  password : String

def recoveryLogin (ip : Option String) (body : LoginBody) (token : String)
    (admin : RecoveryAdmin) : Action Response :=
  match admin.verify state.secrets body.username body.password with
  | .ok true => do
    Throttle.recordSuccess ip none
    if body.kind ≠ .admin then pure adminRequired
    else sessionResponse state token ⟨0, body.username, true, .admin⟩
  | _ => do
    Throttle.recordFailure state.policy ip none
    pure invalidCredentials

def loginOutcome (body : LoginBody) (token : String) :
    Except Error LoginAttempt → Action Response
  | .ok .throttled => pure tooManyFailures
  | .ok (.granted account by_) =>
    if body.kind = .admin ∧ account.role ≠ .admin then pure adminRequired
    else if by_.mfaRequired then do
      exec (.beginChallenge body.username account.id body.kind)
      pure .totpRequired
    else sessionResponse state token ⟨account.id, body.username, account.role = .admin, body.kind⟩
  | .ok .denied => pure invalidCredentials
  | .error _ => pure invalidCredentials

def login (ip : Option String) (body : LoginBody) (token : String) : Action Response := do
  if ← Throttle.isLocked state.policy ip none then pure tooManyFailures
  else
    match state.recoveryAdmin.filter (·.matches body.username) with
    | some admin => recoveryLogin state ip body token admin
    | none => do
      let outcome ← (attemptLogin state.secrets state.policy ip body.username body.password
        .interactive).attempt
      loginOutcome state body token outcome

structure TotpBody where
  username : String
  code : String

def totpGranted (body : TotpBody) (token : String) (account : Account) (kind : SessionKind)
    (stored : List Credential) : Action Response := do
  match TotpFlow.consumed stored with
  | some totp => do
    match ← (CredentialRegistry.setTotp account.id totp).attempt with
    | .error _ => pure (.error 500 "could not update credentials")
    | .ok _ => finish
  | none => finish
where
  finish : Action Response := do
    exec (.completeChallenge body.username)
    sessionResponse state token ⟨account.id, body.username, account.role = .admin, kind⟩

def totpOutcome (body : TotpBody) (token : String) (account : Account) (kind : SessionKind) :
    Except Error (TotpFlow.ChallengeOutcome × List Credential) → Action Response
  | .ok (.granted, stored) => totpGranted state body token account kind stored
  | .ok (.denied, _) => pure invalidCode
  | .error _ => pure (.error 500 "could not verify the code")

def totpCheck (body : TotpBody) (token : String) (account : Account) (kind : SessionKind) :
    Action Response := do
  match ← (CredentialRegistry.list account.id).attempt with
  | .error _ => pure (.error 500 "could not read credentials")
  | .ok stored => do
    let unixNow ← exec .now
    totpOutcome state body token account kind
      (TotpFlow.complete state.secrets stored (trim body.code) unixNow)

def byteLength (s : String) : ℕ := (s.toList.map Char.utf8Size).sum

def totp (body : TotpBody) (token : String) : Action Response :=
  let code := trim body.code
  if code = "" ∨ 64 < byteLength code then
    pure (.error 400 "a verification code is required")
  else do
    match ← exec (.takeAttempt body.username) with
    | none => pure invalidCode
    | some (accountId, kind) => do
      match ← (AccountRegistry.get accountId).attempt with
      | .error _ => pure invalidCode
      | .ok account => totpCheck state body token account kind

end IrixMail.Http

import IrixMail.Library.Discipline
import IrixMail.Store.World

/-!
# Sessions

`Sessions` of the HTTP server: a session is a record under the hash of its
token. Validation writes the record back with a new time of use once it is an
hour old; revocation deletes it, alone or together with every session of an
account or every expired one.
-/

namespace IrixMail.Http
open Library Prog Store

namespace Sessions
variable (hash : String → Bytes)

def issueAt (token : String) (info : TokenInfo) (now : ℕ) : Action String := do
  exec (.put (.session (hash token))
    ⟨info.accountId, info.username, info.isAdmin, info.kind, now, now⟩)
  pure token

def validateAt (token : String) (now : ℕ) : Action (Option TokenInfo) := do
  match ← (exec (.get (.session (hash token)))).attempt with
  | .error _ => pure none
  | .ok none => pure none
  | .ok (some record) =>
    if record.expired now then do
      let _ ← (exec (.delete (.session (hash token)))).attempt
      pure none
    else if renewAfterSecs ≤ now - record.lastUsedAt then do
      let record := { record with lastUsedAt := now }
      let _ ← (exec (.put (.session (hash token)) record)).attempt
      pure (some record.info)
    else pure (some record.info)

def revoke (token : String) : Action Bool := do
  match ← (exec (.get (.session (hash token)))).attempt with
  | .ok (some _) => do
    let deleted ← (exec (.delete (.session (hash token)))).attempt
    pure deleted.isOk
  | _ => pure false

def registry : KeyPrefix := ⟨.registry, none, none⟩

def doomed (keepOut : SessionRecord → Bool) : Sigma Val → Option WriteOp
  | ⟨.session h, record⟩ => if keepOut record then some (.delete (.session h)) else none
  | _ => none

def removeWhere (keepOut : SessionRecord → Bool) : Action ℕ := do
  let rows ← exec (.iterate registry)
  let doomed := rows.filterMap (doomed keepOut)
  if 0 < doomed.length then do
    exec (.batch doomed)
    pure doomed.length
  else pure doomed.length

def revokeAccount (accountId : ℕ) : Action ℕ := removeWhere fun record => record.accountId == accountId
def sweepExpiredAt (now : ℕ) : Action ℕ := removeWhere fun record => record.expired now

inductive Call
  | issueAt (token : String) (info : TokenInfo) (now : ℕ)
  | validateAt (token : String) (now : ℕ)
  | revoke (token : String)
  | revokeAccount (accountId : ℕ)
  | sweepExpiredAt (now : ℕ)

inductive Reply
  | token (token : String)
  | info (info : Option TokenInfo)
  | revoked (done : Bool)
  | removed (count : ℕ)
  deriving DecidableEq

def Call.prog : Call → Action Reply
  | issueAt token info now => do
    let token ← Sessions.issueAt hash token info now
    pure (.token token)
  | validateAt token now => do
    let info ← Sessions.validateAt hash token now
    pure (.info info)
  | revoke token => do
    let done ← Sessions.revoke hash token
    pure (.revoked done)
  | revokeAccount accountId => do
    let count ← Sessions.revokeAccount accountId
    pure (.removed count)
  | sweepExpiredAt now => do
    let count ← Sessions.sweepExpiredAt now
    pure (.removed count)

/-! ## What each call writes -/

theorem doomed_delete {keepOut : SessionRecord → Bool} {rows : List (Sigma Val)} {op : WriteOp}
    (h : op ∈ rows.filterMap (doomed keepOut)) : op = .delete op.loc := by
  obtain ⟨row, -, hrow⟩ := List.mem_filterMap.1 h
  unfold doomed at hrow
  split at hrow
  · split at hrow
    · obtain rfl := Option.some.inj hrow
      rfl
    · cases hrow
  · cases hrow

theorem registry_session (h : Bytes) : registry.encode <+: (Loc.session h).encode :=
  ⟨54 :: bytesOf h, rfl⟩

end Sessions
end IrixMail.Http

import IrixMail.Core.Error

/-! The record of a session, kept under the hash of its token. -/

namespace IrixMail.Http

inductive SessionKind
  | admin
  | webmail
  deriving DecidableEq

def webmailIdleSecs : ℕ := 90 * 24 * 60 * 60
def adminIdleSecs : ℕ := 12 * 60 * 60
def renewAfterSecs : ℕ := 60 * 60

def SessionKind.idleLimit : SessionKind → ℕ
  | admin => adminIdleSecs
  | webmail => webmailIdleSecs

structure TokenInfo where
  accountId : ℕ
  username : String
  isAdmin : Bool
  kind : SessionKind
  deriving DecidableEq

structure SessionRecord where
  accountId : ℕ
  username : String
  isAdmin : Bool
  kind : SessionKind
  issuedAt : ℕ
  lastUsedAt : ℕ
  deriving DecidableEq

namespace SessionRecord

def expired (record : SessionRecord) (now : ℕ) : Bool :=
  record.kind.idleLimit ≤ now - record.lastUsedAt

def info (record : SessionRecord) : TokenInfo :=
  ⟨record.accountId, record.username, record.isAdmin, record.kind⟩

end SessionRecord
end IrixMail.Http

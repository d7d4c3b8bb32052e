import IrixMail.Mail.Ingest

/-! Copies that a delivery sends on: account forwards and Sieve redirects. -/

namespace IrixMail.Mail
open Directory

structure ForwardRelay where
  mailFrom : String
  rcptTo : String
  message : Bytes
  deriving DecidableEq

structure ForwardPlan where
  relays : List ForwardRelay
  keepLocal : Bool
  deriving DecidableEq

structure SieveOutcome where
  keep : Bool := false
  discarded : Bool := false
  fileInto : List String := []
  redirects : List String := []
  flags : List Keyword := []
  deriving DecidableEq

abbrev Script := Bytes → String → String → SieveOutcome

variable (env : Env)

def deliveredToAddresses (raw : Bytes) : List String :=
  match env.parse raw with
  | none => []
  | some p => (p.deliveredTo.map fun v => toAsciiLowercase (trim v)).filter (· != "")

def collapseFolding (value : String) : String :=
  String.ofList (value.toList.map fun ch => if ch = '\r' ∨ ch = '\n' then ' ' else ch)

def prependDeliveredTo (deliveredToLower : String) (raw : Bytes) : Bytes :=
  utf8Bytes "Delivered-To" ++ utf8Bytes ": " ++ utf8Bytes (collapseFolding deliveredToLower) ++
    utf8Bytes "\r\n" ++ raw

/-- Destinations in turn, leaving out blanks, the address itself, addresses the
message has already been delivered to, and repetitions. -/
def relaysTo (deliveredToLower : String) (already : List String) (mailFrom : String)
    (message : Bytes) : List String → List String → List ForwardRelay
  | _, [] => []
  | seen, destination :: rest =>
    let rcpt := toAsciiLowercase (trim destination)
    if rcpt = "" ∨ rcpt = deliveredToLower ∨ rcpt ∈ already ∨ rcpt ∈ seen then
      relaysTo deliveredToLower already mailFrom message seen rest
    else ⟨mailFrom, rcpt, message⟩ ::
      relaysTo deliveredToLower already mailFrom message (seen ++ [rcpt]) rest

def forwardTo (destinations : List String) (deliveredTo mailFrom : String) (raw : Bytes) :
    List ForwardRelay :=
  let deliveredToLower := toAsciiLowercase (trim deliveredTo)
  relaysTo deliveredToLower (deliveredToAddresses env raw) mailFrom
    (prependDeliveredTo deliveredToLower raw) [] destinations

def planForward (forwarding : Forwarding) (deliveredTo mailFrom : String) (raw : Bytes) :
    ForwardPlan :=
  if !forwarding.isActive then ⟨[], true⟩
  else
    let relays := forwardTo env forwarding.destinations deliveredTo mailFrom raw
    ⟨relays, forwarding.keepLocalCopy || relays.isEmpty⟩

end IrixMail.Mail

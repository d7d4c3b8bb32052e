import IrixMail.Core.Utf8
import IrixMail.Mail.Ingest

/-! The text of a delivery status notification. -/

namespace IrixMail.Smtp
open Mail

structure Rfc822Date where
  weekday : ℕ
  day : ℕ
  month : ℕ
  year : ℤ
  hour : ℕ
  minute : ℕ
  second : ℕ
  deriving DecidableEq

namespace Rfc822Date

def fromTimestamp (timestamp : ℤ) : Rfc822Date :=
  let days := timestamp / 86400
  let seconds := (timestamp % 86400).toNat
  let z := days + 719468
  let era := (if 0 ≤ z then z else z - 146096).tdiv 146097
  let doe := (z - era * 146097).toNat
  let yoe := (doe - doe / 1460 + doe / 36524 - doe / 146096) / 365
  let doy := doe - (365 * yoe + yoe / 4 - yoe / 100)
  let mp := (5 * doy + 2) / 153
  let month := if mp < 10 then mp + 3 else mp - 9
  { weekday := ((days % 7 + 4) % 7).toNat
    day := doy - (153 * mp + 2) / 5 + 1
    month := month
    year := yoe + era * 400 + if month ≤ 2 then 1 else 0
    hour := seconds / 3600
    minute := seconds / 60 % 60
    second := seconds % 60 }

def yearText (year : ℤ) : String :=
  if year < 0 then "-" ++ padded 3 year.natAbs else padded 4 year.natAbs

def months : List String :=
  ["Jan", "Feb", "Mar", "Apr", "May", "Jun", "Jul", "Aug", "Sep", "Oct", "Nov", "Dec"]

def format (d : Rfc822Date) : String :=
  ["Sun", "Mon", "Tue", "Wed", "Thu", "Fri", "Sat"].getD d.weekday "" ++ ", " ++ padded 2 d.day ++
    " " ++ months.getD (d.month - 1) "" ++ " " ++ yearText d.year ++ " " ++ padded 2 d.hour ++ ":" ++
    padded 2 d.minute ++ ":" ++ padded 2 d.second ++ " +0000"

end Rfc822Date

def daemonName : String := "Mail Delivery Subsystem"
def daemonMailbox : String := "MAILER-DAEMON"
def maxReturnedHeaders : ℕ := 4096

abbrev Failure := String × String

def failureOf (rcpt : QueueRecipient) : Option Failure :=
  match rcpt.status with
  | .bounced reason => some (rcpt.address, reason)
  | _ => none

def subjectLine (failures : List Failure) : String :=
  if failures.length = 1 then "Undelivered mail returned to sender"
  else "Undelivered mail returned to sender (multiple recipients)"

def humanSummary (failures : List Failure) : String :=
  failures.foldl (fun text f => text ++ ("  <" ++ f.1 ++ ">: " ++ f.2 ++ "\r\n"))
    "Your message could not be delivered to the following recipients and has been returned:\r\n\r\n"

def leadingCode (reason : String) : Option ℕ :=
  let digits := reason.toList.takeWhile Char.isDigit
  if digits.length = 3 then (String.ofList digits).toNat? else none

def statusCode (reason : String) : String :=
  match leadingCode reason with
  | some 550 => "5.1.1"
  | some 551 => "5.1.6"
  | some 552 => "5.2.2"
  | some 553 => "5.1.3"
  | _ => "5.0.0"

def oneLine (reason : String) : String :=
  let step : List Char × Bool → Char → List Char × Bool := fun (folded, lastWasSpace) ch =>
    if ch = '\r' ∨ ch = '\n' then (if lastWasSpace then folded else folded ++ [' '], true)
    else (folded ++ [ch], false)
  String.ofList (reason.toList.foldl step ([], false)).1

def failureFields (f : Failure) : String :=
  "Final-Recipient: rfc822;" ++ f.1 ++ "\r\nAction: failed\r\nStatus: " ++ statusCode f.2 ++
    "\r\nDiagnostic-Code: smtp;" ++ oneLine f.2 ++ "\r\n\r\n"

def statusPart (message : QueuedMessage) (reportingMta : String) (failures : List Failure) :
    String :=
  failures.foldl (fun text f => text ++ failureFields f)
    ("Reporting-MTA: dns;" ++ reportingMta ++ "\r\nArrival-Date: " ++
      (Rfc822Date.fromTimestamp (asI64 message.created)).format ++ "\r\n\r\n")

def headerEnd : List Char → Option (List Char)
  | [] => none
  | ch :: rest =>
    if "\r\n\r\n".toList.isPrefixOf (ch :: rest) then some "\r\n".toList
    else (headerEnd rest).map (ch :: ·)

def returnedHeaders (env : Env) (original : Bytes) : String :=
  let text := (env.utf8Lossy (original.take maxReturnedHeaders)).toList
  match headerEnd text with
  | some head => String.ofList head
  | none => if '\n' ∈ text then String.ofList (trimEnd (· != '\n') text) else String.ofList text

def boundaryFor (message : QueuedMessage) : String :=
  "=_irixmail_dsn_" ++ hexPadded 16
    (message.blobHash.foldl (fun acc byte => (acc * 31 + byte.toNat) % 2 ^ 64) message.created)

def dsnText (env : Env) (message : QueuedMessage) (reportingMta : String) (original : Bytes)
    (now : ℕ) (failures : List Failure) : String :=
  let boundary := boundaryFor message
  let head := "From: " ++ daemonName ++ " <" ++ daemonMailbox ++ "@" ++ reportingMta ++ ">\r\n" ++
    "To: <" ++ message.returnPath ++ ">\r\n" ++ "Subject: " ++ subjectLine failures ++ "\r\n" ++
    "Date: " ++ (Rfc822Date.fromTimestamp (asI64 now)).format ++ "\r\n" ++
    "Message-ID: <" ++ boundary ++ "." ++ hexPadded 0 now ++ "@" ++ reportingMta ++ ">\r\n" ++
    "Auto-Submitted: auto-replied\r\nMIME-Version: 1.0\r\n" ++
    "Content-Type: multipart/report; report-type=delivery-status;\r\n boundary=\"" ++ boundary ++
    "\"\r\n\r\nThis is a delivery status notification, automatically generated.\r\n\r\n" ++
    "--" ++ boundary ++ "\r\nContent-Type: text/plain; charset=utf-8\r\n\r\n"
  let between := "\r\n--" ++ boundary ++ "\r\nContent-Type: message/delivery-status\r\n\r\n"
  let last := "--" ++ boundary ++ "\r\nContent-Type: text/rfc822-headers\r\n\r\n" ++
    returnedHeaders env original ++ "\r\n--" ++ boundary ++ "--\r\n"
  head ++ humanSummary failures ++ between ++ statusPart message reportingMta failures ++ last

def buildDsn (env : Env) (message : QueuedMessage) (reportingMta : String) (original : Bytes)
    (now : ℕ) : Option Bytes :=
  let failures := message.recipients.filterMap failureOf
  if message.returnPath = "" ∨ failures = [] then none
  else some (utf8Bytes (dsnText env message reportingMta original now failures))

/-! ## Whom a notification names -/

/-- The text says that the message did not reach the recipient, and why, and its status part
has the recipient among those that have failed. -/
def ReportsFailure (dsn : Bytes) (f : Failure) : Prop :=
  utf8Bytes ("  <" ++ f.1 ++ ">: " ++ f.2 ++ "\r\n") <:+: dsn ∧
    utf8Bytes ("Final-Recipient: rfc822;" ++ f.1 ++ "\r\nAction: failed\r\nStatus: ") <:+: dsn

theorem infix_foldl (part : Failure → String) {failures : List Failure} {f : Failure}
    (h : f ∈ failures) (start : String) :
    utf8Bytes (part f) <:+: utf8Bytes (failures.foldl (fun text f => text ++ part f) start) := by
  have hfoldl : ∀ failures start, utf8Bytes (List.foldl (fun text f => text ++ part f) start failures) =
      utf8Bytes start ++ failures.flatMap fun f => utf8Bytes (part f) := by
    intro failures
    induction failures with
    | nil => simp
    | cons f failures ih =>
      intro start
      rw [List.foldl_cons, ih, utf8Bytes_append, List.flatMap_cons, List.append_assoc]
  obtain ⟨before, after, rfl⟩ := List.append_of_mem h
  rw [hfoldl, List.flatMap_append, List.flatMap_cons, ← List.append_assoc, ← List.append_assoc]
  exact List.infix_append _ _ _

theorem reportsFailure_of_buildDsn {env : Env} {message : QueuedMessage} {mta : String}
    {original dsn : Bytes} {now : ℕ} (h : buildDsn env message mta original now = some dsn)
    {f : Failure} (hf : f ∈ message.recipients.filterMap failureOf) : ReportsFailure dsn f := by
  unfold buildDsn at h
  dsimp only at h
  split_ifs at h
  obtain rfl := Option.some.inj h
  generalize message.recipients.filterMap failureOf = failures at *
  have hleft : ∀ {x a b : Bytes}, x <:+: a → x <:+: a ++ b :=
    fun h => h.trans (List.prefix_append _ _).isInfix
  have hright : ∀ {x a b : Bytes}, x <:+: b → x <:+: a ++ b :=
    fun h => h.trans (List.suffix_append _ _).isInfix
  have hsummary : utf8Bytes ("  <" ++ f.1 ++ ">: " ++ f.2 ++ "\r\n") <:+:
      utf8Bytes (humanSummary failures) :=
    infix_foldl (fun f => "  <" ++ f.1 ++ ">: " ++ f.2 ++ "\r\n") hf _
  have hfields : utf8Bytes ("Final-Recipient: rfc822;" ++ f.1 ++
      "\r\nAction: failed\r\nStatus: ") <:+: utf8Bytes (failureFields f) := by
    unfold failureFields
    generalize "\r\nAction: failed\r\nStatus: " = action, "\r\nDiagnostic-Code: smtp;" = code
    simp only [utf8Bytes_append]
    exact hleft (hleft (hleft (hleft List.infix_rfl)))
  have hstatus : _ <:+: utf8Bytes (statusPart message mta failures) :=
    hfields.trans (infix_foldl failureFields hf _)
  unfold dsnText
  extract_lets boundary head between last
  clear_value head between last
  rw [utf8Bytes_append, utf8Bytes_append, utf8Bytes_append, utf8Bytes_append]
  exact ⟨hleft (hleft (hleft (hright hsummary))), hleft (hright hstatus)⟩

end IrixMail.Smtp

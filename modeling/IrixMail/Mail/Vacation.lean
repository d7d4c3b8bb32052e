import IrixMail.Mail.Forward

/-!
# Vacation replies

A reply is suppressed for one reason after another; what is left is answered
with a message that says when it was sent, so that the same sender is not
answered again within the period.
-/

namespace IrixMail.Mail
open Library Prog Store Directory

def defaultPeriodSeconds : ℕ := 7 * 24 * 60 * 60

def lastVacationReply (accountId : ℕ) (sender : String) : Action (Option ℕ) :=
  exec (.get (.vacationReply accountId (toAsciiLowercase (trim sender))))

def recordVacationReply (accountId : ℕ) (sender : String) (repliedAt : ℕ) : Action Unit :=
  exec (.put (.vacationReply accountId (toAsciiLowercase (trim sender))) repliedAt)

structure VacationConfig where
  enabled : Bool
  start : Option ℕ
  finish : Option ℕ
  periodSeconds : ℕ
  subject : Option String
  body : String

inductive SuppressReason
  | disabled
  | outsideWindow
  | noReturnPath
  | ownAddress
  | automatedSender
  | automatedMessage
  | notAddressed
  | recentlyAnswered
  deriving DecidableEq

structure VacationReply where
  recipient : String
  message : Bytes
  sentAt : ℕ
  deriving DecidableEq

inductive VacationDecision
  | suppress (reason : SuppressReason)
  | reply (reply : VacationReply)
  deriving DecidableEq

def VacationConfig.windowIsOpen (config : VacationConfig) (now : ℕ) : Bool :=
  config.start.all (· ≤ now) && config.finish.all (now < ·)

def looksAutomatedSender (senderLower : String) : Bool :=
  "mailer-daemon".toList.isPrefixOf senderLower.toList || "owner-".toList.isPrefixOf senderLower.toList
    || senderLower.toList.tails.any fun rest => "-request@".toList.isPrefixOf rest

def isAutomatedHeader (name value : String) : Bool :=
  if eqIgnoreAsciiCase name "Auto-Submitted" then
    trim value != "" && !eqIgnoreAsciiCase (trim value) "no"
  else if eqIgnoreAsciiCase name "Precedence" then eqIgnoreAsciiCase (trim value) "bulk"
  else if eqIgnoreAsciiCase name "X-Auto-Response-Suppress" then
    (((toAsciiLowercase value).toList.splitOn ',').map fun token => trim (String.ofList token)).any
      fun token => token = "all" || token = "oof"
  else false

def messageIsAutomated (p : ParsedMail) : Bool :=
  p.hasListHeader || p.otherHeaders.any fun h => isAutomatedHeader h.1 h.2

def accountIsAddressed (p : ParsedMail) (recipient : String) : Bool :=
  let recipientLower := toAsciiLowercase (trim recipient)
  recipientLower != "" && p.addressees.any fun x => eqIgnoreAsciiCase x recipientLower

def deriveSubject (p : ParsedMail) : Option String :=
  match p.subject with
  | none => some "Automatic reply"
  | some subject =>
    let trimmed := trim subject
    if trimmed = "" then some "Automatic reply"
    else if trimmed.utf8ByteSize < 3 then some ("Re: " ++ trimmed)
    else (bytePrefix 3 trimmed.toList).map fun start =>
      if eqIgnoreAsciiCase (String.ofList start) "re:" then trimmed else "Re: " ++ trimmed

def civilFromDays (daysSinceEpoch : ℕ) : ℕ × ℕ × ℕ :=
  let z := daysSinceEpoch + 719468
  let era := z / 146097
  let doe := z - era * 146097
  let yoe := (doe - doe / 1460 + doe / 36524 - doe / 146096) / 365
  let doy := doe - (365 * yoe + yoe / 4 - yoe / 100)
  let mp := (5 * doy + 2) / 153
  let month := if mp < 10 then mp + 3 else mp - 9
  (if month ≤ 2 then yoe + era * 400 + 1 else yoe + era * 400, month, doy - (153 * mp + 2) / 5 + 1)

def monthNames : List String :=
  ["Jan", "Feb", "Mar", "Apr", "May", "Jun", "Jul", "Aug", "Sep", "Oct", "Nov", "Dec"]

def formatRfc5322Date (now : ℕ) : String :=
  let (year, month, day) := civilFromDays (now / 86400)
  let weekday := ["Thu", "Fri", "Sat", "Sun", "Mon", "Tue", "Wed"].getD (now / 86400 % 7) ""
  let second := now % 86400
  weekday ++ ", " ++ padded 2 day ++ " " ++ monthNames.getD (month - 1) "" ++ " " ++ toString year ++
    " " ++ padded 2 (second / 3600) ++ ":" ++ padded 2 (second % 3600 / 60) ++ ":" ++
    padded 2 (second % 60) ++ " +0000"

def vacationHeader (name value : String) : String := name ++ ": " ++ value ++ "\r\n"

def buildReply (config : VacationConfig) (p : ParsedMail) (senderLower recipient : String)
    (now : ℕ) : Option Bytes :=
  let subject :=
    match config.subject with
    | some subject => if trim subject = "" then deriveSubject p else some subject
    | none => deriveSubject p
  subject.map fun subject => utf8Bytes (vacationHeader "From" (trim recipient) ++
    vacationHeader "To" senderLower ++ vacationHeader "Subject" (collapseFolding subject) ++
    vacationHeader "Date" (formatRfc5322Date now) ++
    vacationHeader "Auto-Submitted" "auto-replied" ++
    vacationHeader "Content-Type" "text/plain; charset=utf-8" ++ "\r\n" ++ config.body)

variable (env : Env)

def answerParsed (config : VacationConfig) (p : ParsedMail) (senderLower recipient : String)
    (now : ℕ) : Except Error VacationDecision :=
  if messageIsAutomated p then .ok (.suppress .automatedMessage)
  else if !accountIsAddressed p recipient then .ok (.suppress .notAddressed)
  else
    match buildReply config p senderLower recipient now with
    | none => .error .panicked
    | some message => .ok (.reply ⟨senderLower, message, now⟩)

def evaluateVacation (config : VacationConfig) (raw : Bytes) (mailFrom recipient : String)
    (now : ℕ) (lastRepliedAt : Option ℕ) : Except Error VacationDecision :=
  let sender := trim mailFrom
  let senderLower := toAsciiLowercase sender
  if !config.enabled then .ok (.suppress .disabled)
  else if !config.windowIsOpen now then .ok (.suppress .outsideWindow)
  else if sender = "" then .ok (.suppress .noReturnPath)
  else if senderLower = toAsciiLowercase (trim recipient) then .ok (.suppress .ownAddress)
  else if looksAutomatedSender senderLower then .ok (.suppress .automatedSender)
  else if lastRepliedAt.any fun last => now < last || now - last < config.periodSeconds then
    .ok (.suppress .recentlyAnswered)
  else
    match env.parse raw with
    | none => .error (.invalidInput "vacation: message has no parseable headers")
    | some p => answerParsed config p senderLower recipient now

/-- No reason speaks against a reply to the message. -/
structure Replied (config : VacationConfig) (raw : Bytes) (mailFrom recipient : String) (now : ℕ)
    (lastRepliedAt : Option ℕ) (p : ParsedMail) : Prop where
  enabled : config.enabled = true
  isOpen : config.windowIsOpen now = true
  hasSender : trim mailFrom ≠ ""
  toOther : toAsciiLowercase (trim mailFrom) ≠ toAsciiLowercase (trim recipient)
  fromPerson : looksAutomatedSender (toAsciiLowercase (trim mailFrom)) = false
  due : ∀ last ∈ lastRepliedAt, last + config.periodSeconds ≤ now
  parsed : env.parse raw = some p
  byPerson : messageIsAutomated p = false
  addressed : accountIsAddressed p recipient = true

section Evaluate
variable {env} {config : VacationConfig} {raw : Bytes} {mailFrom recipient : String} {now : ℕ}
  {last : Option ℕ}

theorem evaluateVacation_of_replied {p : ParsedMail}
    (h : Replied env config raw mailFrom recipient now last p) :
    evaluateVacation env config raw mailFrom recipient now last =
      match buildReply config p (toAsciiLowercase (trim mailFrom)) recipient now with
      | none => .error .panicked
      | some message => .ok (.reply ⟨toAsciiLowercase (trim mailFrom), message, now⟩) := by
  have hdue : (last.any fun last => now < last || now - last < config.periodSeconds) = false := by
    cases last with
    | none => rfl
    | some last =>
      have hlast := h.due last rfl
      simp only [Option.any_some, Bool.or_eq_false_iff, decide_eq_false_iff_not]
      omega
  simp only [evaluateVacation, h.enabled, h.isOpen, h.hasSender, h.toOther, h.fromPerson, hdue,
    h.parsed, answerParsed, h.byPerson, h.addressed, Bool.not_true, Bool.false_eq_true, if_false]

theorem replied_of_evaluateVacation
    (h : evaluateVacation env config raw mailFrom recipient now last = .error .panicked ∨
      ∃ reply, evaluateVacation env config raw mailFrom recipient now last = .ok (.reply reply)) :
    ∃ p, Replied env config raw mailFrom recipient now last p := by
  unfold evaluateVacation at h
  dsimp only at h
  split_ifs at h with henabled hopen hsender hother hautomated hrecent <;> try simp at h
  split at h
  · simp at h
  rename_i p hp
  unfold answerParsed at h
  split_ifs at h with hmessage haddressed <;> try simp at h
  refine ⟨p, by simpa using henabled, by simpa using hopen, hsender, hother, by simpa using hautomated,
    fun last hlast => ?_, hp, by simpa using hmessage, by simpa using haddressed⟩
  rw [Option.mem_def.1 hlast] at hrecent
  simp only [Option.any_some, Bool.or_eq_true, decide_eq_true_eq] at hrecent
  omega

theorem evaluateVacation_ne_panicked (h : ∀ p, env.parse raw = some p → deriveSubject p ≠ none) :
    evaluateVacation env config raw mailFrom recipient now last ≠ .error .panicked := by
  intro hpanic
  obtain ⟨p, hp⟩ := replied_of_evaluateVacation (.inl hpanic)
  rw [evaluateVacation_of_replied hp] at hpanic
  split at hpanic
  next hnone =>
    have hsubject := h p hp.parsed
    unfold buildReply at hnone
    rw [Option.map_eq_none_iff] at hnone
    split at hnone
    · split at hnone
      · exact hsubject hnone
      · cases hnone
    · exact hsubject hnone
  next => cases hpanic

end Evaluate

end IrixMail.Mail

import IrixMail.Mail.Vacation
import IrixMail.Smtp.HeaderFields
import Mathlib.Data.List.TakeWhile
import Mathlib.Tactic.IntervalCases

/-!
# The header of a vacation reply

The subject of a reply is cleaned of line ends; sender and recipient are only trimmed. So
the header of a reply has its six fields if these two go on in folded lines only, and there
is a reply unless the third byte of the subject lies inside a character.
-/

namespace IrixMail.Smtp
open Mail List

/-! ## The lines of a reply -/

def replyNames : List String := ["From", "To", "Subject", "Date", "Auto-Submitted", "Content-Type"]

def replyLine (name value : String) : Bytes := utf8Bytes (name ++ ": " ++ value)

theorem utf8Bytes_crlf : utf8Bytes "\r\n" = [cr, lf] := by
  rw [utf8Bytes_eq]
  decide

theorem utf8Bytes_vacationHeader (name value : String) :
    utf8Bytes (vacationHeader name value) = replyLine name value ++ [cr, lf] := by
  rw [vacationHeader, utf8Bytes_append, utf8Bytes_crlf, replyLine]

theorem replyLine_eq {name : String} (hname : name ∈ replyNames) (value : String) :
    replyLine name value = asciiBytes name ++ [colon, 32] ++ utf8Bytes value := by
  have hnames : ∀ name ∈ replyNames, utf8Bytes name = asciiBytes name := by
    simp only [utf8Bytes_eq]
    decide
  have hcolon : utf8Bytes ": " = [colon, 32] := by
    rw [utf8Bytes_eq]
    decide
  rw [replyLine, utf8Bytes_append, utf8Bytes_append, hnames name hname, hcolon]

theorem fieldName_reply {name : String} (hname : name ∈ replyNames) (more : Bytes) :
    fieldName (asciiBytes name ++ [colon, 32] ++ more) = asciiBytes name ∧
      isFolded (asciiBytes name ++ [colon, 32] ++ more) = false := by
  simp only [replyNames, mem_cons, not_mem_nil, or_false] at hname
  rcases hname with rfl | rfl | rfl | rfl | rfl | rfl <;> exact ⟨rfl, rfl⟩

theorem rowsOf_replyLine {name : String} (hname : name ∈ replyNames) (value : String) :
    ∃ first, rowsOf (replyLine name value) =
      (asciiBytes name ++ [colon, 32] ++ first) :: (rowsOf (utf8Bytes value)).tail := by
  have hnames : ∀ name ∈ replyNames, lf ∉ asciiBytes name ++ [colon, 32] := by decide
  rw [replyLine_eq hname]
  exact rowsOf_append (hnames name hname) (by simp [cr]) _

/-! ## Folded lines -/

theorem length_unfoldLines (lines : List Bytes) :
    (unfoldLines lines).2.length = lines.countP fun l => !isFolded l := by
  induction lines with
  | nil => rfl
  | cons line lines ih =>
    rw [unfoldLines, countP_cons, ← ih]
    cases isFolded line <;> simp

theorem unfoldLines_folded {folded : List Bytes} (hfolded : ∀ l ∈ folded, isFolded l = true)
    (rest : List Bytes) :
    unfoldLines (folded ++ rest) =
      (folded.flatten ++ (unfoldLines rest).1, (unfoldLines rest).2) := by
  induction folded with
  | nil => rfl
  | cons line folded ih =>
    obtain ⟨hline, hfolded⟩ := forall_mem_cons.1 hfolded
    rw [cons_append, unfoldLines, ih hfolded]
    simp [hline]

theorem unfoldLines_unfolded {lines : List Bytes} (h : ∀ l ∈ lines, isFolded l = false) :
    unfoldLines lines = ([], lines) := by
  induction lines with
  | nil => rfl
  | cons line lines ih =>
    obtain ⟨hline, hlines⟩ := forall_mem_cons.1 h
    simp [unfoldLines, ih hlines, hline]

theorem unbroken_collapseFolding (s : String) : Unbroken (collapseFolding s) := by
  intro h
  rw [collapseFolding, String.toList_ofList] at h
  obtain ⟨c, -, hc⟩ := mem_map.1 h
  split_ifs at hc with hbreak
  · cases hc
  · exact hbreak (.inr hc)

theorem unbroken_formatRfc5322Date (now : ℕ) : Unbroken (formatRfc5322Date now) := by
  have hday (i : ℕ) : Unbroken (["Thu", "Fri", "Sat", "Sun", "Mon", "Tue", "Wed"].getD i "") :=
    unbroken_getD (by decide) i
  have hmonth (i : ℕ) : Unbroken (monthNames.getD i "") := unbroken_getD (by decide) i
  unfold formatRfc5322Date
  obtain ⟨year, month, day⟩ := civilFromDays (now / 86400)
  simp +decide only [unbroken_append, hday, hmonth, unbroken_toString, unbroken_padded, and_self]

section Reply
variable {config : VacationConfig} {p : ParsedMail} {recipient sender : String} {now : ℕ}
  {message : Bytes}

/-- Every further line of the value is folded. -/
def Folds (value : String) : Prop := ∀ row ∈ (rowsOf (utf8Bytes value)).tail, isFolded row = true

def addressRows (recipient sender : String) : List Bytes :=
  rowsOf (replyLine "From" recipient) ++ rowsOf (replyLine "To" sender)

def HasReplyFields (rows : List Bytes) : Prop :=
  (unfoldLines (rows.takeWhile (· ≠ []))).2.map fieldName = replyNames.map asciiBytes

/-- The addresses end the header themselves and have all its fields in them. -/
def SpellsHeader (recipient sender : String) : Prop :=
  [] ∈ addressRows recipient sender ∧ HasReplyFields (addressRows recipient sender)

/-- The fields after the addresses, which are of one line each. -/
def replyRest (subject : String) (now : ℕ) : List Bytes :=
  [replyLine "Subject" (collapseFolding subject), replyLine "Date" (formatRfc5322Date now),
    replyLine "Auto-Submitted" "auto-replied", replyLine "Content-Type" "text/plain; charset=utf-8"]

theorem replyRest_lines (subject : String) (now : ℕ) :
    ∀ l ∈ replyRest subject now, lf ∉ l ∧ l ≠ [] ∧ isFolded l = false := by
  have hline : ∀ name ∈ replyNames, ∀ value, Unbroken value →
      lf ∉ replyLine name value ∧ replyLine name value ≠ [] ∧
        isFolded (replyLine name value) = false := by
    intro name hname value hvalue
    refine ⟨Unbroken.lf_not_mem (unbroken_append.2 ⟨?_, hvalue⟩), ?_, ?_⟩
    · exact (by decide : ∀ name ∈ replyNames, Unbroken (name ++ ": ")) name hname
    · simp [replyLine_eq hname]
    · rw [replyLine_eq hname]
      exact (fieldName_reply hname _).2
  simp only [replyRest, forall_mem_cons, not_mem_nil, false_implies, implies_true, and_true]
  exact ⟨hline _ (by decide) _ (unbroken_collapseFolding _),
    hline _ (by decide) _ (unbroken_formatRfc5322Date _), hline _ (by decide) _ (by decide),
    hline _ (by decide) _ (by decide)⟩

theorem fieldName_replyRest (subject : String) (now : ℕ) :
    (replyRest subject now).map fieldName = (replyNames.drop 2).map asciiBytes := by
  have hline : ∀ name ∈ replyNames, ∀ value, fieldName (replyLine name value) = asciiBytes name := by
    intro name hname value
    rw [replyLine_eq hname]
    exact (fieldName_reply hname _).1
  simp only [replyRest, map_cons, hline _ (show "Subject" ∈ replyNames by decide),
    hline _ (show "Date" ∈ replyNames by decide),
    hline _ (show "Auto-Submitted" ∈ replyNames by decide),
    hline _ (show "Content-Type" ∈ replyNames by decide)]
  rfl

theorem addressRows_eq (recipient sender : String) : ∃ first second,
    addressRows recipient sender =
      (asciiBytes "From" ++ [colon, 32] ++ first) :: (rowsOf (utf8Bytes recipient)).tail ++
        (asciiBytes "To" ++ [colon, 32] ++ second) :: (rowsOf (utf8Bytes sender)).tail := by
  obtain ⟨first, hfirst⟩ := rowsOf_replyLine (show "From" ∈ replyNames by decide) recipient
  obtain ⟨second, hsecond⟩ := rowsOf_replyLine (show "To" ∈ replyNames by decide) sender
  exact ⟨first, second, by rw [addressRows, hfirst, hsecond]⟩

theorem nil_not_mem_addressRows (hrecipient : Folds recipient) (hsender : Folds sender) :
    [] ∉ addressRows recipient sender := by
  obtain ⟨first, second, hrows⟩ := addressRows_eq recipient sender
  have hfolded : isFolded [] = false := rfl
  intro hmem
  simp only [hrows, mem_append, mem_cons] at hmem
  rcases hmem with (hnil | hmem) | hnil | hmem
  · simp at hnil
  · exact absurd (hrecipient _ hmem) (by simp [hfolded])
  · simp at hnil
  · exact absurd (hsender _ hmem) (by simp [hfolded])

/-- The lines begin with the six fields exactly if the addresses are only folded. -/
theorem fieldNames_iff_folds (recipient sender subject : String) (now : ℕ) :
    (unfoldLines (addressRows recipient sender ++ replyRest subject now)).2.map fieldName =
      replyNames.map asciiBytes ↔ Folds recipient ∧ Folds sender := by
  have hrest := replyRest_lines subject now
  obtain ⟨first, second, hrows⟩ := addressRows_eq recipient sender
  have hfrom := fieldName_reply (show "From" ∈ replyNames by decide)
  have hto := fieldName_reply (show "To" ∈ replyNames by decide)
  constructor
  · intro hnames
    -- four fields follow, so that only two of these lines begin a field
    have hlen := congrArg length hnames
    have hfour : (replyRest subject now).countP (fun l => !isFolded l) = 4 :=
      countP_eq_length.2 fun l hl => by simp [(hrest l hl).2.2]
    simp only [length_map, length_unfoldLines, hrows, countP_append, countP_cons, hfrom, hto,
      hfour] at hlen
    have hzero : ((rowsOf (utf8Bytes recipient)).tail ++ (rowsOf (utf8Bytes sender)).tail).countP
        (fun l => !isFolded l) = 0 := by
      have hsix : replyNames.length = 6 := rfl
      simp only [countP_append]
      simp at hlen
      omega
    have hfolded : ∀ l ∈ (rowsOf (utf8Bytes recipient)).tail ++ (rowsOf (utf8Bytes sender)).tail,
        isFolded l = true := by simpa using countP_eq_zero.1 hzero
    exact forall_mem_append.1 hfolded
  · rintro ⟨hrecipient, hsender⟩
    rw [hrows, append_assoc, cons_append, unfoldLines, unfoldLines_folded hrecipient, cons_append,
      unfoldLines, unfoldLines_folded hsender,
      unfoldLines_unfolded fun l hl => (hrest l hl).2.2]
    simp only [(hfrom _).2, (hto _).2, Bool.false_eq_true, if_false, map_cons,
      append_assoc (asciiBytes "From" ++ _), append_assoc (asciiBytes "To" ++ _), (hfrom _).1,
      (hto _).1, fieldName_replyRest]
    rfl

/-- A reply has the six fields exactly if its addresses are only folded, or have all the
fields in themselves. -/
theorem hasReplyFields_iff (recipient sender subject : String) (now : ℕ) :
    HasReplyFields (addressRows recipient sender ++ replyRest subject now) ↔
      Folds recipient ∧ Folds sender ∨ SpellsHeader recipient sender := by
  have hrest := replyRest_lines subject now
  by_cases hend : [] ∈ addressRows recipient sender
  · have hcut : (addressRows recipient sender ++ replyRest subject now).takeWhile (· ≠ []) =
        (addressRows recipient sender).takeWhile (· ≠ []) := by
      rw [takeWhile_append, if_neg]
      intro hlen
      rw [← ( takeWhile_prefix _).eq_of_length hlen] at hend
      simpa using all_eq_true.1 all_takeWhile _ hend
    have hnot : ¬(Folds recipient ∧ Folds sender) := fun h => nil_not_mem_addressRows h.1 h.2 hend
    rw [HasReplyFields, hcut, or_iff_right hnot, SpellsHeader, and_iff_right hend]
    rfl
  · have hall : (addressRows recipient sender ++ replyRest subject now).takeWhile (· ≠ []) =
        addressRows recipient sender ++ replyRest subject now := by
      refine takeWhile_eq_self_iff.2 fun l hl => ?_
      rcases mem_append.1 hl with hl | hl
      · exact decide_eq_true fun hnil => hend (hnil ▸ hl)
      · exact decide_eq_true (hrest l hl).2.1
    rw [HasReplyFields, hall, or_iff_left fun h => hend h.1]
    exact fieldNames_iff_folds recipient sender subject now

/-- The subject of the configuration is used, or the third byte of the subject of the message
ends a character. -/
def HasSubject (config : VacationConfig) (p : ParsedMail) : Prop :=
  (∃ subject ∈ config.subject, trim subject ≠ "") ∨
    ∀ subject ∈ p.subject, 3 ≤ (trim subject).utf8ByteSize →
      bytePrefix 3 (trim subject).toList ≠ none

theorem deriveSubject_ne_none_iff : deriveSubject p ≠ none ↔ ∀ subject ∈ p.subject,
    3 ≤ (trim subject).utf8ByteSize → bytePrefix 3 (trim subject).toList ≠ none := by
  unfold deriveSubject
  cases hsubject : p.subject with
  | none => simp
  | some subject =>
    simp only [Option.mem_some_iff, forall_eq']
    split_ifs with hblank hshort
    · simp [hblank]
    · simp [Nat.not_le.2 hshort]
    · simp [Nat.le_of_not_lt hshort]

theorem buildReply_ne_none_iff : buildReply config p sender recipient now ≠ none ↔
    HasSubject config p := by
  unfold buildReply HasSubject
  rw [Ne, Option.map_eq_none_iff, ← deriveSubject_ne_none_iff]
  cases hsubject : config.subject with
  | none => simp
  | some subject =>
    by_cases hblank : trim subject = "" <;> simp [hblank]

theorem fieldsOf_buildReply (h : buildReply config p sender recipient now = some message) :
    (fieldsOf message).map fieldName = replyNames.map asciiBytes ↔
      Folds (trim recipient) ∧ Folds sender ∨ SpellsHeader (trim recipient) sender := by
  obtain ⟨subject, -, rfl⟩ := Option.map_eq_some_iff.1 h
  have hrest : (replyRest subject now).flatMap rowsOf = replyRest subject now := by
    rw [flatMap_congr fun l hl => rowsOf_eq_singleton (replyRest_lines subject now l hl).1,
      flatMap_singleton']
  have hlines := headerLines_joinLines (replyLine "From" (trim recipient) ::
    replyLine "To" sender :: replyRest subject now) (utf8Bytes config.body)
  rw [flatMap_cons, flatMap_cons, hrest] at hlines
  rw [← hasReplyFields_iff _ _ subject now, HasReplyFields, addressRows, append_assoc, ← hlines]
  simp only [utf8Bytes_append, utf8Bytes_vacationHeader, utf8Bytes_crlf, fieldsOf]
  simp [joinLines, replyRest]

end Reply

/-! ## Dates -/

theorem dayOfYear_le {doe yoe : ℕ} (hdoe : doe < 146097)
    (hyoe : yoe = (doe - doe / 1460 + doe / 36524 - doe / 146096) / 365) :
    365 * yoe + yoe / 4 - yoe / 100 ≤ doe ∧ doe - (365 * yoe + yoe / 4 - yoe / 100) ≤ 366 := by
  have hfour : doe / 146096 ≤ 1 := by omega
  have hcentury : doe / 36524 ≤ 4 := by omega
  generalize hf : doe / 146096 = f at *
  generalize he : doe / 36524 = e at *
  generalize hg : doe / 1460 = g at *
  have hyear : yoe / 100 = e - f := by
    interval_cases f <;> interval_cases e <;> omega
  have hleap : g ≤ yoe / 4 + 1 ∧ yoe / 4 ≤ g := by
    interval_cases f <;> interval_cases e <;> omega
  omega

/-- The month of a date is one of the twelve that the table has. -/
theorem month_mem (days : ℕ) : 1 ≤ (civilFromDays days).2.1 ∧ (civilFromDays days).2.1 ≤ 12 := by
  rw [civilFromDays]
  dsimp only
  generalize hdoe : days + 719468 - (days + 719468) / 146097 * 146097 = doe
  generalize hyoe : (doe - doe / 1460 + doe / 36524 - doe / 146096) / 365 = yoe
  have hday := dayOfYear_le (by omega) hyoe.symm
  split_ifs <;> omega

/-! ## Replies -/

/-- The call returns, its date is in the tables, and a reply has exactly the six fields. -/
def WellHeaded (env : Env) (config : VacationConfig) (raw : Bytes) (mailFrom recipient : String)
    (now : ℕ) (last : Option ℕ) : Prop :=
  evaluateVacation env config raw mailFrom recipient now last ≠ .error .panicked ∧
    (1 ≤ (civilFromDays (now / 86400)).2.1 ∧ (civilFromDays (now / 86400)).2.1 ≤ 12) ∧
    ∀ reply, evaluateVacation env config raw mailFrom recipient now last = .ok (.reply reply) →
      (fieldsOf reply.message).map fieldName = replyNames.map asciiBytes

/-- A call does what is asked of it exactly if, where no reason speaks against a reply, the
reply has a subject and its two addresses keep to their fields. -/
theorem vacation_wellHeaded_iff (env : Env) (config : VacationConfig) (raw : Bytes)
    (mailFrom recipient : String) (now : ℕ) (last : Option ℕ) :
    WellHeaded env config raw mailFrom recipient now last ↔
      ∀ p, Replied env config raw mailFrom recipient now last p → HasSubject config p ∧
        let sender := toAsciiLowercase (trim mailFrom)
        (Folds (trim recipient) ∧ Folds sender ∨ SpellsHeader (trim recipient) sender) := by
  constructor
  · rintro ⟨hpanic, -, hreplies⟩ p hp
    rw [evaluateVacation_of_replied hp] at hpanic hreplies
    cases hbuilt : buildReply config p (toAsciiLowercase (trim mailFrom)) recipient now with
    | none => simp [hbuilt] at hpanic
    | some message =>
      refine ⟨buildReply_ne_none_iff.1 (hbuilt ▸ Option.some_ne_none _), ?_⟩
      rw [hbuilt] at hreplies
      exact (fieldsOf_buildReply hbuilt).1 (hreplies _ rfl)
  · intro h
    refine ⟨fun hpanic => ?_, month_mem _, fun reply hreply => ?_⟩
    · obtain ⟨p, hp⟩ := replied_of_evaluateVacation (.inl hpanic)
      obtain ⟨message, hbuilt⟩ := Option.ne_none_iff_exists'.1 (buildReply_ne_none_iff.2 (h p hp).1)
      rw [evaluateVacation_of_replied hp, hbuilt] at hpanic
      cases hpanic
    · obtain ⟨p, hp⟩ := replied_of_evaluateVacation (.inr ⟨reply, hreply⟩)
      obtain ⟨message, hbuilt⟩ := Option.ne_none_iff_exists'.1 (buildReply_ne_none_iff.2 (h p hp).1)
      rw [evaluateVacation_of_replied hp, hbuilt] at hreply
      obtain rfl := VacationDecision.reply.inj (Except.ok.inj hreply)
      exact (fieldsOf_buildReply hbuilt).2 (h p hp).2

/-- A parser that finds one subject and one addressee. -/
def readingSubject (subject recipient : String) : Env :=
  { Env.plain with
    parse := fun raw => (Env.plain.parse raw).map fun p =>
      { p with subject := some subject, addressees := [recipient] } }

def away : VacationConfig := ⟨true, none, none, defaultPeriodSeconds, none, "away"⟩

/-- A subject whose third byte lies inside a character, and a sender that brings a field of
its own. -/
theorem vacation_illHeaded :
    evaluateVacation (readingSubject "aaé" "r@x") away [] "s@x" "r@x" 0 none = .error .panicked ∧
      ∃ reply, evaluateVacation (readingSubject "hello" "r@x") away [] "s@x\nBcc: v@x" "r@x" 0 none =
          .ok (.reply reply) ∧
        (fieldsOf reply.message).map fieldName =
          (["From", "To", "bcc"] ++ replyNames.drop 2).map asciiBytes := by
  refine ⟨by decide, _, rfl, ?_⟩
  simp only [utf8Bytes_eq]
  decide +kernel

end IrixMail.Smtp

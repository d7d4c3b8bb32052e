import IrixMail.Jmap.EmailSet
import IrixMail.Mail.Stored

/-!
# What a created email is

A creation that is reported has drawn a document id. Whether a message is stored under it
is up to the delivery, which sends the message away when the account forwards without
keeping a copy, turns it down when the account is over its quota, and files it into a
single mailbox. `created_truthful_iff` says when the report can be relied upon.
-/

namespace IrixMail.Jmap
open Library Prog Store Mail Directory

/-! ## Reading only -/

section Reading
variable {digest : Digest}

/-- The program leaves the world as it is. -/
abbrev ReadsOnly (digest : Digest) {α : Type} (p : Action α) : Prop :=
  Keeps (machine digest) id p

theorem readsOnly_fetchBlob (lib : Libraries) (blobId : String) :
    ReadsOnly digest (fetchBlob lib blobId) := by
  refine (keeps_checked _).bind fun hash => ?_
  cases hash with
  | none => exact .ret _
  | some hash =>
    dsimp only
    split
    · exact .perform fun _ => rfl
    · split
      · exact (Keeps.perform fun _ => rfl).bind fun _ => .ret _
      · exact .ret _
    · exact .ret _

theorem readsOnly_attachmentsAfter (lib : Libraries) (entries : List Value) (total : ℕ) :
    ReadsOnly digest (attachmentsAfter lib total entries) := by
  induction entries generalizing total with
  | nil => exact .ret _
  | cons entry entries ih =>
    unfold attachmentsAfter
    split
    · exact ih total
    · refine (readsOnly_fetchBlob lib _).bind fun data => ?_
      cases data with
      | none => exact ih total
      | some data =>
        dsimp only
        split
        · exact .fail (S := sig) _
        · exact (ih _).bind fun _ => .ret _

theorem readsOnly_getAccount (id : ℕ) : ReadsOnly digest (AccountRegistry.get id) := by
  refine (Keeps.perform fun _ => rfl).bind fun account => ?_
  cases account with
  | none => exact .fail (S := sig) _
  | some account => exact .ret _

theorem readsOnly_getDomain (id : ℕ) : ReadsOnly digest (DomainRegistry.get id) := by
  refine (Keeps.perform fun _ => rfl).bind fun domain => ?_
  cases domain with
  | none => exact .fail (S := sig) _
  | some domain => exact .ret _

theorem readsOnly_prepare (lib : Libraries) (accountId : ℕ) (object : Value) :
    ReadsOnly digest (prepare lib accountId object) :=
  (readsOnly_getAccount accountId).bind fun record =>
    (keeps_caught (readsOnly_getDomain record.domainId)).bind fun _ =>
      (readsOnly_attachmentsAfter lib _ 0).bind fun _ => (keeps_checked _).bind fun _ => .ret _

theorem readsOnly_accountMailboxes (a : ℕ) : ReadsOnly digest (accountMailboxes a) := by
  have hload : ReadsOnly digest (loadMailboxes a) :=
    (Keeps.perform fun _ => rfl).bind fun _ => .ret _
  refine (keeps_caught hload).bind fun rows => ?_
  cases rows with
  | error e => exact .ret _
  | ok rows => exact .ret _

theorem readsOnly_collectionState (a : ℕ) (c : Collection) :
    ReadsOnly digest (collectionState a c) := by
  have hlatest : ReadsOnly digest (ChangeLog.latestChangeId a c) :=
    (Keeps.perform fun _ => rfl).bind fun _ => .ret _
  refine (keeps_caught hlatest).bind fun latest => ?_
  cases latest with
  | error e => exact .ret _
  | ok latest => exact .ret _

end Reading

/-! ## The target -/

def namedMailboxes (object : Value) : List String := (mailboxKeys object).getD []

variable {id accountId a d : ℕ} {mailboxes : List Mailbox} {object : Value} {raw : Bytes}
  {w w' : World} {account : Account} {draft : Draft}

theorem deliveryTarget_mailbox (h : deliveryTarget object mailboxes = .ok (.mailbox id)) :
    (∃ key ∈ namedMailboxes object, parseU32 key = some id) ∧ ∃ m ∈ mailboxes, m.id = id := by
  unfold deliveryTarget at h
  cases hkeys : mailboxKeys object with
  | none => simp [hkeys] at h
  | some keys =>
    simp only [hkeys] at h
    split at h
    next found hfound =>
      obtain rfl : found = id := by simpa using h
      have hmem := List.mem_of_find?_eq_some hfound
      have hthere := List.find?_some hfound
      obtain ⟨key, hkey, hparse⟩ := List.mem_filterMap.1 hmem
      obtain ⟨m, hm, hid⟩ := List.any_eq_true.1 hthere
      refine ⟨⟨key, ?_, hparse⟩, m, hm, by simpa using hid⟩
      simpa [namedMailboxes, hkeys] using hkey
    next => cases h

theorem deliveryTarget_role {role : SpecialUse}
    (h : deliveryTarget object mailboxes = .ok (.role role)) : namedMailboxes object = [] := by
  unfold deliveryTarget at h
  cases hkeys : mailboxKeys object with
  | none => simp [namedMailboxes, hkeys]
  | some keys =>
    simp only [hkeys] at h
    split at h <;> simp at h

/-! ## Reports that are true -/

/-- The headers of a message that the report is about, as the parser reads them. -/
structure Headers where
  subject : String
  toAddr : List Address
  cc : List Address
  bcc : List Address
  deriving DecidableEq

def givenHeaders (object : Value) : Headers where
  subject := ((object.get "subject").bind Value.asStr).getD ""
  toAddr := (mailboxesFrom (object.get "to")).map ComposeMailbox.address
  cc := (mailboxesFrom (object.get "cc")).map ComposeMailbox.address
  bcc := (mailboxesFrom (object.get "bcc")).map ComposeMailbox.address

variable (lib : Libraries) (env : Env) (headersOf : Bytes → Option Headers)

/-- What was built is read back, and only what was asked for is built. -/
structure Faithful : Prop where
  headers : ∀ builder raw, lib.writeToVec builder = .ok raw →
    headersOf raw = some ⟨builder.subject, builder.toAddr, builder.cc, builder.bcc⟩
  undelivered : ∀ builder raw, lib.writeToVec builder = .ok raw → deliveredToAddresses env raw = []

/-- Document `d` of the account is the email that the object describes. -/
structure Truthful (object : Value) (a d : ℕ) (data : MessageData) (metadata : MessageMetadata)
    (body : Blob) (w : World) : Prop where
  dataAt : w.records.lookup (.data a d) = some data
  metadataAt : w.records.lookup (.metadata a d) = some metadata
  bodyAt : w.blobs.lookup metadata.blobHash = some body
  headers : headersOf body.bytes = some (givenHeaders object)
  mailboxes : ∀ key, key ∈ namedMailboxes object ↔
    ∃ entry ∈ data.mailboxes, key = toString entry.mailboxId
  keywords : ∀ keyword ∈ keywordsFrom (object.get "keywords"), keyword ∈ data.keywords

def IsTruthful (object : Value) (a d : ℕ) (w : World) : Prop :=
  ∃ data metadata body, Truthful headersOf object a d data metadata body w

/-- Some destination is another address, and no copy is kept. -/
def ForwardsAway (forwarding : Forwarding) (self : String) : Prop :=
  forwarding.keepLocalCopy = false ∧ ∃ destination ∈ forwarding.destinations,
    toAsciiLowercase (trim destination) ≠ "" ∧
      toAsciiLowercase (trim destination) ≠ toAsciiLowercase (trim self)

def NamesOneMailbox (object : Value) : Prop :=
  ∃ id : ℕ, ∀ key, key ∈ namedMailboxes object ↔ key = toString id

/-- The account keeps the message that the object describes, has room for it, and the
object names one mailbox. -/
def Fileable (accountId : ℕ) (object : Value) (w : World) : Prop :=
  ∃ draft, (prepare lib accountId object).run (machine env.digest) w = (.ok draft, w) ∧
    ¬ ForwardsAway draft.account.forwarding draft.selfEmail ∧
    HasRoom draft.account draft.raw.length w.records ∧ NamesOneMailbox object

/-! ## Forwarding -/

theorem relaysTo_eq_nil_iff (self mailFrom : String) (message : Bytes)
    (destinations : List String) :
    relaysTo self [] mailFrom message [] destinations = [] ↔ ∀ destination ∈ destinations,
      toAsciiLowercase (trim destination) = "" ∨ toAsciiLowercase (trim destination) = self := by
  induction destinations with
  | nil => simp [relaysTo]
  | cons destination rest ih =>
    simp only [relaysTo, List.not_mem_nil, or_false]
    split
    next hskipped =>
      rw [ih]
      simp [hskipped]
    next hsent =>
      simp only [reduceCtorEq, false_iff]
      exact fun h => hsent (h destination List.mem_cons_self)

theorem keepLocal_iff {forwarding : Forwarding} {self mailFrom : String}
    (hraw : deliveredToAddresses env raw = []) :
    (planForward env forwarding self mailFrom raw).keepLocal = true ↔
      ¬ ForwardsAway forwarding self := by
  unfold planForward ForwardsAway
  split
  next hinactive =>
    have hnone : forwarding.destinations = [] := by simpa [Forwarding.isActive] using hinactive
    simp [hnone]
  next =>
    simp only [forwardTo, hraw, Bool.or_eq_true, List.isEmpty_iff, relaysTo_eq_nil_iff]
    cases forwarding.keepLocalCopy with
    | true => simp
    | false =>
      simp only [Bool.false_eq_true, false_or, true_and, not_exists, not_and, not_not]
      exact forall₂_congr fun _ _ => Classical.or_iff_not_imp_left

/-! ## A draft -/

structure Prepared (accountId : ℕ) (object : Value) (draft : Draft) (w : World) : Prop where
  account : w.records.lookup (.account accountId) = some draft.account
  built : ∃ builder, lib.writeToVec builder = .ok draft.raw ∧
    givenHeaders object = ⟨builder.subject, builder.toAddr, builder.cc, builder.bcc⟩

theorem run_readsOnly_ok {α β : Type} {p : Action α} (hp : ReadsOnly env.digest p)
    {f : α → Action β} {b : β}
    (h : (p >>= f).run (machine env.digest) w = (.ok b, w')) :
    ∃ x, p.run (machine env.digest) w = (.ok x, w) ∧
      (f x).run (machine env.digest) w = (.ok b, w') := by
  obtain ⟨x, u, hfirst, hrest⟩ := run_bind_ok h
  have hsame : u = w := (congrArg Prod.snd hfirst).symm.trans (hp w)
  subst hsame
  exact ⟨x, hfirst, hrest⟩

theorem run_checked_ok {α β : Type} {x : Except Error α} {f : α → Action β} {b : β}
    (h : (checked x >>= f).run (machine env.digest) w = (.ok b, w')) :
    ∃ a, x = .ok a ∧ (f a).run (machine env.digest) w = (.ok b, w') := by
  cases x with
  | error e => cases (Prod.mk.inj h).1
  | ok a => exact ⟨a, rfl, h⟩

theorem run_getAccount_ok
    (h : (AccountRegistry.get id).run (machine env.digest) w = (.ok account, w')) :
    w.records.lookup (.account id) = some account := by
  unfold AccountRegistry.get at h
  rw [run_exec_bind] at h
  cases hrow : w.records.lookup (.account id) with
  | none => simp [machine, hrow] at h
  | some row =>
    simp only [machine, hrow, pure_eq, run_ret, Prod.mk.injEq, Except.ok.injEq] at h
    rw [h.1]

theorem prepared_of_run
    (h : (prepare lib accountId object).run (machine env.digest) w = (.ok draft, w')) :
    Prepared lib accountId object draft w := by
  obtain ⟨record, hrecord, h⟩ := run_readsOnly_ok env (readsOnly_getAccount accountId) h
  obtain ⟨domain, -, h⟩ := run_readsOnly_ok env
    (keeps_caught (readsOnly_getDomain record.domainId)) h
  obtain ⟨attachments, -, h⟩ := run_readsOnly_ok env (readsOnly_attachmentsAfter lib _ 0) h
  obtain ⟨raw, hraw, h⟩ := run_checked_ok env h
  obtain rfl : _ = draft := Except.ok.inj (Prod.mk.inj h).1
  refine ⟨run_getAccount_ok env hrecord, ?_⟩
  unfold buildMessage at hraw
  split at hraw
  next built hbuilt => exact ⟨_, hbuilt.trans (congrArg _ (Except.ok.inj hraw)), rfl⟩
  next => cases hraw

/-! ## Filing a draft -/

def nextDocumentId (s : Records) (a : ℕ) : ℕ := intAsU32 (emailCounter s a + 1)

def drawn (w : World) (a : ℕ) : World :=
  { w with records := (WriteOp.add (.number a .email 0) 1).apply w.records }

def targetMailbox (mailboxes : List Mailbox) : DeliveryTarget → Mailbox → Mailbox
  | .role role, inbox => (findRole mailboxes role).getD inbox
  | .mailbox id, inbox => (mailboxes.find? fun m => m.id = id).getD inbox

theorem id_targetMailbox (h : ∃ m ∈ mailboxes, m.id = id)
    (inbox : Mailbox) : (targetMailbox mailboxes (.mailbox id) inbox).id = id := by
  unfold targetMailbox
  dsimp only
  cases hfound : mailboxes.find? fun m => m.id = id with
  | none =>
    obtain ⟨m, hm, hid⟩ := h
    exact absurd hid (by simpa using List.find?_eq_none.1 hfound m hm)
  | some m => simpa using List.find?_some hfound

theorem fileDraft_cases
    (h : (fileDraft env a object draft).run (machine env.digest) w = (.ok d, w')) :
    d = nextDocumentId w.records a ∧ ∃ mailboxes target receivedAt o v updated,
      deliveryTarget object mailboxes = .ok target ∧
      (deliver env (requestOf draft mailboxes target d receivedAt)).run (machine env.digest)
        (drawn w a) = (.ok o, v) ∧
      (updateMessage a d (addKeywords object)).run (machine env.digest) v = (.ok updated, w') := by
  obtain ⟨d', u, hdrawn, h⟩ := run_bind_ok h
  obtain ⟨rfl, rfl⟩ : nextDocumentId w.records a = d' ∧ drawn w a = u := by
    have := Prod.mk.inj hdrawn
    exact ⟨Except.ok.inj this.1, this.2⟩
  obtain ⟨mailboxes, -, h⟩ := run_readsOnly_ok env (readsOnly_accountMailboxes a) h
  obtain ⟨target, htarget, h⟩ := run_checked_ok env h
  obtain ⟨receivedAt, -, h⟩ := run_readsOnly_ok env (Keeps.perform fun _ => rfl) h
  obtain ⟨o, v, hdeliver, h⟩ := run_bind_ok h
  obtain ⟨updated, u, hupdate, h⟩ := run_bind_ok h
  obtain ⟨rfl, rfl⟩ : nextDocumentId w.records a = d ∧ u = w' := by
    have := Prod.mk.inj h
    exact ⟨Except.ok.inj this.1, this.2⟩
  exact ⟨rfl, mailboxes, target, receivedAt, o, v, updated, htarget, hdeliver, hupdate⟩

theorem keywords_addKeyword (data : MessageData) (keyword : Keyword) :
    keyword ∈ (data.addKeyword keyword).keywords ∧
      data.keywords ⊆ (data.addKeyword keyword).keywords := by
  unfold MessageData.addKeyword
  split
  next h => exact ⟨h, fun _ => id⟩
  next => exact ⟨by simp, by simp⟩

theorem keywords_foldl_addKeyword (keywords : List Keyword) (data : MessageData) :
    keywords ⊆ (keywords.foldl MessageData.addKeyword data).keywords ∧
      data.keywords ⊆ (keywords.foldl MessageData.addKeyword data).keywords := by
  induction keywords generalizing data with
  | nil => exact ⟨List.nil_subset _, fun _ => id⟩
  | cons keyword keywords ih =>
    obtain ⟨hadded, hkept⟩ := keywords_addKeyword data keyword
    obtain ⟨hlater, hbefore⟩ := ih (data.addKeyword keyword)
    exact ⟨List.cons_subset.2 ⟨hbefore hadded, hlater⟩, fun _ h => hbefore (hkept h)⟩

theorem namedMailboxes_iff {target : DeliveryTarget}
    (htarget : deliveryTarget object mailboxes = .ok target) (inbox : Mailbox) :
    (∀ key, key ∈ namedMailboxes object ↔
      key = toString (targetMailbox mailboxes target inbox).id) ↔ NamesOneMailbox object := by
  constructor
  · exact fun h => ⟨_, h⟩
  rintro ⟨id, hid⟩
  cases target with
  | role role =>
    have hnone := deliveryTarget_role htarget
    have hsome := (hid (toString id)).2 rfl
    simp [hnone] at hsome
  | mailbox n =>
    obtain ⟨⟨key, hkey, hparse⟩, hthere⟩ := deliveryTarget_mailbox htarget
    rw [(hid key).1 hkey] at hparse
    rw [id_targetMailbox hthere, ← eq_of_parseU32_toString hparse]
    exact hid

/-! ## One creation -/

theorem fileable_iff
    (hprepare : (prepare lib accountId object).run (machine env.digest) w = (.ok draft, w)) :
    Fileable lib env accountId object w ↔
      ¬ ForwardsAway draft.account.forwarding draft.selfEmail ∧
        HasRoom draft.account draft.raw.length w.records ∧ NamesOneMailbox object := by
  constructor
  · rintro ⟨draft', hprepare', h⟩
    obtain rfl : draft' = draft :=
      Except.ok.inj (Prod.mk.inj (hprepare'.symm.trans hprepare)).1
    exact h
  · exact fun h => ⟨draft, hprepare, h⟩

theorem isTruthful_iff_of_stored {k uid : ℕ} {data : MessageData}
    (hstored : Stored env a d raw data w)
    (hheaders : headersOf raw = some (givenHeaders object))
    (hkeywords : keywordsFrom (object.get "keywords") ⊆ data.keywords)
    (hmailboxes : data.mailboxes = [⟨k, uid⟩]) :
    IsTruthful headersOf object a d w ↔
      ∀ key, key ∈ namedMailboxes object ↔ key = toString k := by
  constructor
  · rintro ⟨data', metadata, body, htrue⟩
    obtain rfl : data' = data := Option.some.inj (htrue.dataAt.symm.trans hstored.data)
    intro key
    rw [htrue.mailboxes key, hmailboxes]
    simp
  · intro hnames
    obtain ⟨metadata, hmetadata, hhash⟩ := hstored.metadata
    obtain ⟨body, hbody, hbytes⟩ := hstored.body
    refine ⟨data, metadata, body, hstored.data, hmetadata, hhash ▸ hbody, hbytes ▸ hheaders, ?_,
      fun _ h => hkeywords h⟩
    intro key
    rw [hnames key, hmailboxes]
    simp

theorem hasRoom_drawn {size : ℕ} :
    HasRoom account size (drawn w a).records ↔ HasRoom account size w.records := by
  have hcalm : Calm w.records (drawn w a).records := calm_draw w.records a .email 0
  unfold HasRoom usageIn
  rw [hcalm.counter (by simp), hcalm.counter (by simp)]

/-- A reported creation is the email it was asked for exactly when the account keeps the
message, has room for it, and one mailbox is named. -/
theorem createEmail_truthful_iff {headersOf : Bytes → Option Headers}
    (hfaithful : Faithful lib env headersOf) (hrow : ∀ record, w.records.lookup (.account accountId) = some record → record.id = accountId)
    (haddressed : Addressed env.digest w)
    (hvacant : w.records.lookup (.data (asU32 accountId)
      (nextDocumentId w.records (asU32 accountId))) = none)
    (h : (createEmail lib env accountId object).run (machine env.digest) w = (.ok d, w')) :
    IsTruthful headersOf object (asU32 accountId) d w' ↔ Fileable lib env accountId object w := by
  obtain ⟨draft, hprepare, hfile⟩ :=
    run_readsOnly_ok env (readsOnly_prepare lib accountId object) h
  obtain ⟨haccount, builder, hbuilt, hgiven⟩ := prepared_of_run lib env hprepare
  have hheaders : headersOf draft.raw = some (givenHeaders object) :=
    (hfaithful.headers builder draft.raw hbuilt).trans (congrArg some hgiven.symm)
  have hid : draft.account.mailId = asU32 accountId := congrArg asU32 (hrow _ haccount)
  obtain ⟨rfl, mailboxes, target, receivedAt, o, v, updated, htarget, hdeliver, hupdate⟩ :=
    fileDraft_cases env hfile
  have hkeeps : KeepsCopy env (requestOf draft mailboxes target
        (nextDocumentId w.records (asU32 accountId)) receivedAt) ↔
      ¬ ForwardsAway draft.account.forwarding draft.selfEmail :=
    keepLocal_iff env (hfaithful.undelivered builder draft.raw hbuilt)
  have hcalm : Calm w.records (drawn w (asU32 accountId)).records :=
    calm_draw w.records (asU32 accountId) .email 0
  rw [fileable_iff lib env hprepare, ← hkeeps, ← hasRoom_drawn (a := asU32 accountId)]
  rcases deliver_cases env (w := drawn w (asU32 accountId)) haddressed rfl
    (fun inbox => (by cases target <;> rfl : _ = [targetMailbox mailboxes target inbox])) hdeliver with
    ⟨hnot, rfl⟩ | ⟨hkept, hroom, data, inbox, uid, hstored, hmailboxes⟩
  · -- nothing was filed, and the id that was drawn is not in use
    have hnone := (hcalm.data _ _).trans hvacant
    rw [updateMessage_eq, run_exec_bind] at hupdate
    simp only [machine, hnone] at hupdate
    obtain ⟨-, rfl⟩ := Prod.mk.inj hupdate
    constructor
    · rintro ⟨data, metadata, body, htrue⟩
      exact absurd (htrue.dataAt.symm.trans hnone) (by simp)
    · exact fun hfileable => absurd ⟨hfileable.1, hfileable.2.1⟩ hnot
  · have hfiled : Stored env draft.account.mailId (nextDocumentId w.records (asU32 accountId))
        draft.raw data v := hstored
    rw [hid] at hfiled
    have hmutate : addKeywords object data =
        .ok ((keywordsFrom (object.get "keywords")).foldl MessageData.addKeyword data) := rfl
    obtain ⟨u, hrun, hflagged⟩ :=
      hfiled.update env hmutate (MessageData.mailboxes_foldl_addKeyword _ _)
    obtain ⟨-, rfl⟩ := Prod.mk.inj (hrun.symm.trans hupdate)
    rw [isTruthful_iff_of_stored env headersOf hflagged hheaders
      (keywords_foldl_addKeyword _ _).1
      ((MessageData.mailboxes_foldl_addKeyword _ _).trans hmailboxes),
      namedMailboxes_iff htarget inbox]
    exact ⟨fun hnames => ⟨hkept, hroom, hnames⟩, fun hfileable => hfileable.2.2⟩

end IrixMail.Jmap

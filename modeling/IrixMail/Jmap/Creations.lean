import IrixMail.Jmap.Created

/-!
# The creations of a call

`Email/set` goes through the objects of its `create` map one by one. Each of them finds a
store that is in order, because the ones before it have left it so, and what the response
lists under `created` is what `create_email` has returned.
-/

namespace IrixMail.Jmap
open Library Prog Store Mail Directory

variable {w w' : World} {α : Type} {accountId : ℕ}

variable (lib : Libraries) (env : Env)

/-! ## A store in order -/

/-- The account's record carries its id, every blob lies under its digest, and the account
is tidy. -/
structure Sound (accountId : ℕ) (w : World) : Prop where
  row : ∀ record, w.records.lookup (.account accountId) = some record → record.id = accountId
  addressed : Addressed env.digest w
  tidy : Tidy (asU32 accountId) w.records

section Runs
variable {env}

theorem readsOnly_keeps {τ : Type} {p : Action α} (h : ReadsOnly env.digest p) (f : World → τ) :
    Keeps (machine env.digest) f p := fun w => congrArg f (h w)

theorem run_readsOnly_bind {β : Type} {p : Action α} (h : ReadsOnly env.digest p) {f : α → Action β}
    {Q : World → Prop} (hw : Q w) (hf : ∀ x, Q ((f x).run (machine env.digest) w).2) :
    Q ((p >>= f).run (machine env.digest) w).2 := by
  have hsame := h w
  rw [run_bind]
  cases hrun : p.run (machine env.digest) w with
  | mk r u =>
    rw [hrun] at hsame
    obtain rfl : u = w := hsame
    cases r with
    | error e => exact hw
    | ok x => exact hf x

theorem run_bind_pure_snd {β : Type} (p : Action α) (b : β) (w : World) :
    ((p >>= fun _ => pure b).run (machine env.digest) w).2 = (p.run (machine env.digest) w).2 := by
  rw [run_bind]
  split
  next a u heq => rw [heq]; rfl
  next e u heq => rw [heq]

end Runs

/-- The part of `fileDraft` that files under the id `d`. -/
def fileAs (a : ℕ) (object : Value) (draft : Draft) (d : ℕ) : Action ℕ := do
  let mailboxes ← accountMailboxes a
  let target ← checked (deliveryTarget object mailboxes)
  let receivedAt ← exec .now
  let _ ← deliver env (requestOf draft mailboxes target d receivedAt)
  pure d

theorem fileDraft_eq (a : ℕ) (object : Value) (draft : Draft) :
    fileDraft env a object draft =
      (allocateDocumentId a >>= fileAs env a object draft) >>= fun d =>
        updateMessage a d (addKeywords object) >>= fun _ => pure d := by
  unfold fileDraft fileAs
  simp only [bind_assoc, pure_bind]

theorem fileAs_induction {a d : ℕ} {object : Value} {draft : Draft} {Q : World → Prop} (hw : Q w)
    (hdeliver : ∀ mailboxes target receivedAt,
      Q ((deliver env (requestOf draft mailboxes target d receivedAt)).run
      (machine env.digest) w).2)
    : Q ((fileAs env a object draft d).run (machine env.digest) w).2 := by
  refine run_readsOnly_bind (readsOnly_accountMailboxes a) hw fun mailboxes => ?_
  refine run_readsOnly_bind (keeps_checked _) hw fun target => ?_
  refine run_readsOnly_bind (p := exec .now) (Keeps.perform fun _ => rfl) hw fun receivedAt => ?_
  rw [run_bind_pure_snd]
  exact hdeliver mailboxes target receivedAt

theorem step_requestOf (draft : Draft) (mailboxes : List Mailbox) (target : DeliveryTarget)
    (d receivedAt : ℕ) (w : World) :
    MailStep env.digest (fun _ _ _ => True) (fun _ _ => True) w.records
      ((deliver env (requestOf draft mailboxes target d receivedAt)).run
        (machine env.digest) w).2.records :=
  step_deliver env trivial w

theorem step_addKeywords (a d : ℕ) (object : Value) (w : World) :
    MailStep env.digest (fun _ _ _ => True) (fun _ _ => True) w.records
      ((updateMessage a d (addKeywords object)).run (machine env.digest) w).2.records :=
  step_updateMessage env a d (fun _ _ _ => trivial) w

theorem moves_fileDraft {a : ℕ} (object : Value) {draft : Draft}
    (hid : draft.account.mailId = a) : Moves env a (Framed a) (fileDraft env a object draft) := by
  rw [fileDraft_eq]
  refine Moves.bind (fun _ _ => Framed.advances_of) (moves_filing (fun d w k => ?_)
    fun d w hvacant hd => ?_) fun d => Moves.bind (fun _ _ => Framed.advances_of)
      (moves_updateMessage d ?_) fun _ => .ret d
  · refine fileAs_induction env (Q := fun u => w.records.counter (.number a .email k) ≤
      u.records.counter (.number a .email k)) le_rfl fun mailboxes target receivedAt => ?_
    exact (step_requestOf env draft mailboxes target d receivedAt w).number_le a .email k
  · refine fileAs_induction env (Q := fun u => FilesAlone a d w.records u.records)
      (.inl (Still.refl _)) fun mailboxes target receivedAt => ?_
    subst hid
    exact @filed_deliver env w (requestOf draft mailboxes target d receivedAt) hvacant hd
  · intro old new hnew
    obtain rfl := Except.ok.inj hnew
    rw [MessageData.mailboxes_foldl_addKeyword]

theorem keeps_account_createEmail (accountId : ℕ) (object : Value) (id : ℕ) :
    Keeps (machine env.digest) (fun w => w.records.lookup (.account id))
      (createEmail lib env accountId object) := by
  refine (readsOnly_keeps (readsOnly_prepare lib accountId object) _).bind fun draft => ?_
  rw [fileDraft_eq]
  have hallocate : Keeps (machine env.digest) (fun w => w.records.lookup (.account id))
      (allocateDocumentId (asU32 accountId)) :=
    fun w => (calm_draw w.records (asU32 accountId) .email 0).lookup _ (by simp)
  refine (hallocate.bind fun d w => ?_).bind fun d => Keeps.bind (fun w => ?_) fun _ => .ret d
  · refine fileAs_induction env (Q := fun u => u.records.lookup (.account id) =
      w.records.lookup (.account id)) rfl fun mailboxes target receivedAt => ?_
    exact (step_requestOf env draft mailboxes target d receivedAt w).account id
  · exact (step_addKeywords env (asU32 accountId) d object w).account id

theorem run_createEmail_cases (object : Value) (hsound : Sound env accountId w) :
    ((createEmail lib env accountId object).run (machine env.digest) w).2 = w ∨
      ∃ draft, draft.account.mailId = asU32 accountId ∧
        (createEmail lib env accountId object).run (machine env.digest) w =
          (fileDraft env (asU32 accountId) object draft).run (machine env.digest) w := by
  unfold createEmail
  rw [run_bind]
  cases hrun : (prepare lib accountId object).run (machine env.digest) w with
  | mk r u =>
    obtain rfl : u = w :=
      (congrArg Prod.snd hrun).symm.trans (readsOnly_prepare lib accountId object w)
    cases r with
    | error e => exact .inl rfl
    | ok draft =>
      refine .inr ⟨draft, congrArg asU32 (hsound.row _ ?_), rfl⟩
      exact (prepared_of_run lib env hrun).account

theorem sound_createEmail (object : Value) (hsound : Sound env accountId w)
    (hfits : Fits (asU32 accountId)
      ((createEmail lib env accountId object).run (machine env.digest) w).2.records)
    :
    Sound env accountId ((createEmail lib env accountId object).run (machine env.digest) w).2 := by
  refine ⟨fun record hrecord => hsound.row record ?_, hsound.addressed.run _, ?_⟩
  · rw [← hrecord]
    exact (keeps_account_createEmail lib env accountId object accountId w).symm
  · rcases run_createEmail_cases lib env object hsound with heq | ⟨draft, hid, heq⟩
    · rw [heq]
      exact hsound.tidy
    · rw [heq] at hfits ⊢
      exact hsound.tidy.reach (fun _ _ => Framed.advances_of)
        ((moves_fileDraft env object hid).reaches w hsound.tidy hfits) hfits

theorem vacant_of_created {d : ℕ} {object : Value} (hsound : Sound env accountId w)
    (hfits : Fits (asU32 accountId) w'.records)
    (h : (createEmail lib env accountId object).run (machine env.digest) w = (.ok d, w')) :
    w.records.lookup (.data (asU32 accountId) (nextDocumentId w.records (asU32 accountId))) =
      none := by
  obtain ⟨draft, -, hfile⟩ := run_readsOnly_ok env (readsOnly_prepare lib accountId object) h
  obtain ⟨-, mailboxes, target, receivedAt, o, v, updated, -, hdeliver, hupdate⟩ :=
    fileDraft_cases env hfile
  have hdelivered := step_requestOf env draft mailboxes target d receivedAt
    (drawn w (asU32 accountId))
  have hupdated := step_addKeywords env (asU32 accountId) d object v
  rw [hdeliver] at hdelivered
  rw [hupdate] at hupdated
  have hnext : emailCounter (drawn w (asU32 accountId)).records (asU32 accountId) =
      emailCounter w.records (asU32 accountId) + 1 := by
    unfold emailCounter drawn
    rw [WriteOp.counter_apply (WriteOp.additive_add _ _), WriteOp.amountAt, if_pos rfl]
  have hle : emailCounter w.records (asU32 accountId) + 1 ≤ emailCounter w'.records (asU32 accountId) :=
    hnext ▸ (hdelivered.number_le _ .email 0).trans (hupdated.number_le _ .email 0)
  have hlt : emailCounter w'.records (asU32 accountId) < 2 ^ 32 := hfits 0
  by_contra hsome
  have hplaced := (hsound.tidy.placed _ hsome).2
  have hid : (nextDocumentId w.records (asU32 accountId) : ℤ) =
      emailCounter w.records (asU32 accountId) + 1 := by
    unfold nextDocumentId intAsU32
    omega
  omega

/-! ## The creations in turn -/

/-- One creation of a call, with the states before and after it. -/
structure Creation where
  creationId : String
  object : Value
  before : World
  result : Except Error ℕ
  after : World

def creations (accountId : ℕ) : Fields → World → List Creation
  | [], _ => []
  | (creationId, object) :: rest, w =>
    let ran := (createEmail lib env accountId object).run (machine env.digest) w
    ⟨creationId, object, w, ran.1, ran.2⟩ :: creations accountId rest ran.2

theorem creations_sound {create : Fields} (hsound : Sound env accountId w)
    (hfits : ∀ c ∈ creations lib env accountId create w,
      Fits (asU32 accountId) c.after.records)
    :
    ∀ c ∈ creations lib env accountId create w, Sound env accountId c.before ∧
      (createEmail lib env accountId c.object).run (machine env.digest) c.before =
        (c.result, c.after) := by
  induction create generalizing w with
  | nil => simp [creations]
  | cons field rest ih =>
    obtain ⟨creationId, object⟩ := field
    intro c hc
    have hhead := hfits _ List.mem_cons_self
    rcases List.mem_cons.1 hc with rfl | hc
    · exact ⟨hsound, rfl⟩
    · exact ih (sound_createEmail lib env object hsound hhead)
        (fun c hc => hfits c (List.mem_cons_of_mem _ hc)) c hc

/-- Whatever a request creates, or fails to create, the store stays in order. -/
theorem sound_after_creations {create : Fields} (hsound : Sound env accountId w)
    (hfits : ∀ c ∈ creations lib env accountId create w, Fits (asU32 accountId) c.after.records) :
    ∀ c ∈ creations lib env accountId create w, Sound env accountId c.after := by
  intro c hc
  obtain ⟨hbefore, hrun⟩ := creations_sound lib env hsound hfits c hc
  have hafter := sound_createEmail lib env c.object hbefore
  rw [hrun] at hafter
  exact hafter (hfits c hc)

/-! ## The response -/

theorem run_caught_ok {p : Action α} {r : Except Error α}
    (h : (caught p).run (machine env.digest) w = (.ok r, w')) :
    p.run (machine env.digest) w = (r, w') := by
  unfold caught at h
  rw [run_bind, run_attempt] at h
  dsimp only at h
  split at h
  · cases (Prod.mk.inj h).1
  · obtain ⟨hr, hw⟩ := Prod.mk.inj h
    exact Prod.ext (Except.ok.inj hr) hw

def createdObject (d : ℕ) : Value := .object [("id", .str (toString d))]

theorem lookup_createEach {create : Fields} {out out' : SetOutcome}
    (h : (createEach lib env accountId create out).run (machine env.digest) w = (.ok out', w'))
    {creationId : String} {value : Value} (hvalue : out'.created.lookup creationId = some value) :
    out.created.lookup creationId = some value ∨
      ∃ c ∈ creations lib env accountId create w, c.creationId = creationId ∧
        ∃ d, c.result = .ok d ∧ value = createdObject d := by
  induction create generalizing out w with
  | nil =>
    obtain rfl : out = out' := Except.ok.inj (Prod.mk.inj h).1
    exact .inl hvalue
  | cons field rest ih =>
    obtain ⟨r, u, hcaught, h⟩ := run_bind_ok h
    have hran := run_caught_ok env hcaught
    have hresult := congrArg Prod.fst hran
    obtain rfl := congrArg Prod.snd hran
    cases r with
    | error e =>
      rcases ih h with hbefore | ⟨c, hc, hlater⟩
      · exact .inl hbefore
      · exact .inr ⟨c, List.mem_cons_of_mem _ hc, hlater⟩
    | ok d =>
      rcases ih h with hbefore | ⟨c, hc, hlater⟩
      · simp only [Fields.lookup_insert] at hbefore
        split at hbefore
        next heq =>
          exact .inr ⟨_, List.mem_cons_self, heq.symm, d, hresult, (Option.some.inj hbefore).symm⟩
        next => exact .inl hbefore
      · exact .inr ⟨c, List.mem_cons_of_mem _ hc, hlater⟩

theorem returns_updateEachEmail (a : ℕ) (update : Fields) (out : SetOutcome) :
    Returns (fun out' => out'.created = out.created) (updateEachEmail a update out) := by
  induction update generalizing out with
  | nil => exact .ret rfl
  | cons field rest ih =>
    unfold updateEachEmail
    split
    · exact ih _
    · refine (Returns.any _).bind fun r _ => ?_
      split <;> exact ih _

theorem returns_destroyEach (a : ℕ) (ids : List String) (out : SetOutcome) :
    Returns (fun out' => out'.created = out.created) (destroyEach env a ids out) := by
  induction ids generalizing out with
  | nil => exact .ret rfl
  | cons id rest ih =>
    unfold destroyEach
    split
    · exact ih _
    · refine (Returns.any _).bind fun r _ => ?_
      split <;> exact ih _

def createdId (response : Invocation) (creationId : String) : Option String :=
  (((response.arguments.get "created").bind fun created => created.get creationId).bind
    fun entry => entry.get "id").bind Value.asStr

theorem createdId_setResponse (args : Value) (oldState newState callId creationId : String)
    (out : SetOutcome) :
    createdId ⟨"Email/set", setResponse args oldState newState out, callId⟩ creationId =
      (((out.created.lookup creationId).bind fun entry => entry.get "id").bind Value.asStr) := rfl

theorem run_returns {Q : α → Prop} {p : Action α} (hp : Returns Q p) {x : α}
    (h : p.run (machine env.digest) w = (.ok x, w')) : Q x := by
  refine hp (p.replies (machine env.digest) w) x ?_
  have hexec := exec_replies (machine env.digest) p w
  rwa [h] at hexec

theorem creation_of_listed {args : Value} {callId : String} {response : Invocation}
    (h : (emailSet lib env accountId args callId).run (machine env.digest) w = (.ok response, w'))
    {creationId id : String} (hlisted : createdId response creationId = some id) :
    ∃ c ∈ creations lib env accountId (fieldsOf args "create") w, c.creationId = creationId ∧
      ∃ d, c.result = .ok d ∧ id = toString d := by
  obtain ⟨oldState, -, h⟩ := run_readsOnly_ok env (readsOnly_collectionState _ .email) h
  dsimp only at h
  split at h
  · obtain rfl := Except.ok.inj (Prod.mk.inj h).1
    cases hlisted
  obtain ⟨created, u, hcreate, h⟩ := run_bind_ok h
  obtain ⟨updated, v, hupdate, h⟩ := run_bind_ok h
  obtain ⟨out, x, hdestroy, h⟩ := run_bind_ok h
  obtain rfl := Except.ok.inj (Prod.mk.inj h).1
  have hsame : out.created = created.created :=
    (run_returns env (returns_destroyEach env _ _ updated) hdestroy).trans
      (run_returns env (returns_updateEachEmail _ _ created) hupdate)
  rw [createdId_setResponse, hsame] at hlisted
  obtain ⟨entry, hentry, hid⟩ := Option.bind_eq_some_iff.1 hlisted
  obtain ⟨value, hvalue, hentry⟩ := Option.bind_eq_some_iff.1 hentry
  rcases lookup_createEach lib env hcreate hvalue with hnone | ⟨c, hc, hname, d, hresult, rfl⟩
  · cases hnone
  · refine ⟨c, hc, hname, d, hresult, ?_⟩
    obtain rfl : Value.str (toString d) = entry := Option.some.inj hentry
    exact (Option.some.inj hid).symm

/-- An email that the response lists as created is the one that was asked for exactly when,
as its creation started, the account kept what is delivered to it and had room for the
message, and the object named one mailbox. -/
theorem created_truthful_iff {headersOf : Bytes → Option Headers}
    (hfaithful : Faithful lib env headersOf) {accountId : ℕ} {args : Value} {callId : String}
    {response : Invocation} {w w' : World} (hsound : Sound env accountId w)
    (hfits : ∀ c ∈ creations lib env accountId (fieldsOf args "create") w,
      Fits (asU32 accountId) c.after.records)
    (hrun : (emailSet lib env accountId args callId).run (machine env.digest) w =
      (.ok response, w'))
    {creationId : String} {d : ℕ} (hlisted : createdId response creationId = some (toString d)) :
    ∃ c ∈ creations lib env accountId (fieldsOf args "create") w, c.creationId = creationId ∧
      c.result = .ok d ∧ (IsTruthful headersOf c.object (asU32 accountId) d c.after ↔
        Fileable lib env accountId c.object c.before) := by
  obtain ⟨c, hc, hname, d', hresult, hid⟩ := creation_of_listed lib env hrun hlisted
  obtain rfl := toString_injective hid
  obtain ⟨hbefore, hcreated⟩ := creations_sound lib env hsound hfits c hc
  rw [hresult] at hcreated
  refine ⟨c, hc, hname, hresult, ?_⟩
  exact createEmail_truthful_iff lib env hfaithful hbefore.row hbefore.addressed
    (vacant_of_created lib env hbefore (hfits c hc) hcreated) hcreated

/-! ## Runs -/

def draftBuilder : MessageBuilder where
  subject := "Lunch"
  fromAddr := some ⟨none, "alice@"⟩
  toAddr := [⟨some "Bob", "bob@example.org"⟩]
  cc := []
  bcc := []
  textBody := ""
  htmlBody := none
  attachments := []

def draftLibraries : Libraries where
  writeToVec builder := if builder = draftBuilder then .ok [65, 65] else .error "unknown"
  textFromHtml := id
  quotedPrintableDecode := some
  base64Decode := some
  parseEmail _ _ _ := none

def draftIn (mailboxIds : List String) : Value :=
  .object [("subject", .str "Lunch"),
    ("to", .array [.object [("name", .str "Bob"), ("email", .str "bob@example.org")]]),
    ("keywords", .object [("$flagged", .bool true)]),
    ("mailboxIds", .object (mailboxIds.map fun id => (id, .bool true)))]

def createIn (mailboxIds : List String) : Value :=
  .object [("create", .object [("k", draftIn mailboxIds)])]

def worldOf (account : Account) : World :=
  { World.empty (IdGenerator.new 0) 0 with
    records := (∅ : Records).insert (.account account.id) account }

theorem lookup_worldOf {account : Account} {l : Loc} (hl : l.kind ≠ .account) :
    (worldOf account).records.lookup l = none := by
  have hne : l ≠ .account account.id := fun h => hl (h ▸ rfl)
  exact (AList.lookup_insert_ne hne).trans (AList.lookup_empty _)

theorem sound_worldOf (account : Account) : Sound Env.plain account.id (worldOf account) := by
  have hnone : ∀ d, entriesAt (worldOf account).records (asU32 account.id) d = [] := fun d => by
    rfl
  refine ⟨fun record hrecord => ?_, by simp [Addressed, worldOf, World.empty], ?_⟩
  · have hself : (worldOf account).records.lookup (.account account.id) = some account :=
      AList.lookup_insert _
    rw [Option.some.inj (hrecord.symm.trans hself)]
  · refine ⟨fun k => ?_, fun d => ?_, fun d e he => ?_, fun d d' e he => ?_, fun d hd => ?_,
      fun n v hv => ?_, fun n hn => ?_, fun n hn => ?_⟩
    · rfl
    · exact List.nodup_nil
    · simp [hnone] at he
    · simp [hnone] at he
    · exact absurd (lookup_worldOf (by simp)) hd
    · cases hv
    · exact absurd (lookup_worldOf (by simp)) hn
    · exact absurd (lookup_worldOf (by simp)) hn

/-- What a parser reads in the message of `draftLibraries`. -/
def draftHeaders (_ : Bytes) : Option Headers :=
  some ⟨"Lunch", [⟨some "Bob", "bob@example.org"⟩], [], []⟩

theorem faithful_draft : Faithful draftLibraries Env.plain draftHeaders := by
  refine ⟨fun builder raw hraw => ?_, fun _ _ _ => rfl⟩
  simp only [draftLibraries] at hraw
  split at hraw
  next heq => rw [heq]; rfl
  next => cases hraw

theorem sound_after_inbox :
    let made := creations draftLibraries Env.plain 1 [("k", draftIn ["1"]), ("l", draftIn ["9"])]
      (worldOf (.plain 1 "alice"))
    made.map (fun c => c.result.toOption) = [some 1, none] ∧ ∀ c ∈ made, Sound Env.plain 1 c.after := by
  intro made
  have hfits : ∀ c ∈ made, ∀ row ∈ c.after.records.entries, smallNumber row = true := by
    decide +kernel +revert
  exact ⟨rfl, sound_after_creations _ _ (sound_worldOf (.plain 1 "alice")) fun c hc =>
    fits_of_entries (hfits c hc)⟩

theorem created_in_inbox :
    ∃ response w', (emailSet draftLibraries Env.plain 1 (createIn ["1"]) "c").run
        (machine Env.plain.digest) (worldOf (.plain 1 "alice")) = (.ok response, w') ∧
      createdId response "k" = some (toString 1) ∧
      ∃ c ∈ creations draftLibraries Env.plain 1 (fieldsOf (createIn ["1"]) "create")
          (worldOf (.plain 1 "alice")), c.creationId = "k" ∧ c.result = .ok 1 ∧
        (IsTruthful draftHeaders c.object 1 1 c.after ↔
          Fileable draftLibraries Env.plain 1 c.object c.before) := by
  have hlisted : ((emailSet draftLibraries Env.plain 1 (createIn ["1"]) "c").run
      (machine Env.plain.digest) (worldOf (.plain 1 "alice"))).1.toOption.bind
        (createdId · "k") = some (toString 1) := by decide +kernel
  have hfits : ∀ c ∈ creations draftLibraries Env.plain 1 (fieldsOf (createIn ["1"]) "create")
      (worldOf (.plain 1 "alice")), ∀ row ∈ c.after.records.entries, smallNumber row = true := by
    decide +kernel
  cases hrun : (emailSet draftLibraries Env.plain 1 (createIn ["1"]) "c").run
      (machine Env.plain.digest) (worldOf (.plain 1 "alice")) with
  | mk r w' =>
    rw [hrun] at hlisted
    cases r with
    | error e => cases hlisted
    | ok response =>
      exact ⟨response, w', rfl, hlisted, created_truthful_iff draftLibraries Env.plain faithful_draft
        (sound_worldOf (.plain 1 "alice")) (fun c hc => fits_of_entries (hfits c hc)) hrun hlisted⟩

def forwardingAccount : Account :=
  { Account.plain 1 "alice" with forwarding := ⟨["bob@example.org"], false⟩ }

def fullAccount : Account := { Account.plain 1 "alice" with quotaBytes := 1 }

/-- The email is reported under the id 1: when it was forwarded or turned down, no record
has that id, and of two mailboxes the record has one. -/
theorem created_untruthfully :
    let ran (account : Account) (mailboxIds : List String) :=
      (emailSet draftLibraries Env.plain 1 (createIn mailboxIds) "c").run
        (machine Env.plain.digest) (worldOf account)
    let reported (account : Account) (mailboxIds : List String) :=
      (ran account mailboxIds).1.toOption.bind (createdId · "k")
    let mailboxes (account : Account) (mailboxIds : List String) :=
      ((ran account mailboxIds).2.records.lookup (.data 1 1)).map fun data =>
        data.mailboxes.map MailboxUid.mailboxId
    (reported forwardingAccount ["1"] = some "1" ∧ mailboxes forwardingAccount ["1"] = none) ∧
      (reported fullAccount ["1"] = some "1" ∧ mailboxes fullAccount ["1"] = none) ∧
      (reported (.plain 1 "alice") ["1", "2"] = some "1" ∧
        mailboxes (.plain 1 "alice") ["1", "2"] = some [1]) := by
  decide +kernel

end IrixMail.Jmap

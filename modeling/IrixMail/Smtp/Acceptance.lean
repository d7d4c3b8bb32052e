import IrixMail.Mail.Filing
import IrixMail.Smtp.Transactions

/-!
# What a 250 promises

Once a message is accepted, nothing more will be heard of it from the peer. For
every recipient the commands of its acceptance show what has become of it. A
recipient that no longer resolves, or whose account is gone, is left out, and so
is a copy that cannot be queued; a bounce is never sent to the empty sender.
-/

namespace IrixMail.Smtp
open Library Prog Store Mail Directory List

variable {α : Type} {ps : List Prepared}

def Flawless (u : Replies) : Prop := ∀ x ∈ u, ∃ r, x.2 = .ok r

def ResolvedAs (u : Replies) (r : String) (resolution : Resolution) : Prop :=
  ∃ w, w <:+: u ∧ Exec (resolve r) w (.ok resolution)

/-- Whenever the address was resolved, it led to a forward or to an account, and
whenever that account was read, it was there. -/
def Served (u : Replies) (r : String) : Prop :=
  ∀ resolution, ResolvedAs u r resolution →
    match resolution with
    | .localTo accountId _ =>
      ∀ a, (⟨.get (.account accountId), .ok a⟩ : Reply) ∈ u → a ≠ none
    | .forward _ => True
    | _ => False

def BelongsTo (u : Replies) (r : String) (account : Account) : Prop :=
  ∃ accountId viaCatchAll, ResolvedAs u r (.localTo accountId viaCatchAll) ∧
    (⟨.get (.account accountId), .ok (some account)⟩ : Reply) ∈ u

def Queued (u : Replies) (body : Bytes) (returnPath rcpt : String) : Prop :=
  ∃ id m, (⟨.put (.queue id) m, .ok ()⟩ : Reply) ∈ u ∧
    (⟨.blobPut body, .ok m.blobHash⟩ : Reply) ∈ u ∧
    m.returnPath = returnPath ∧ ∃ q ∈ m.recipients, q.address = rcpt

structure DeliveredFor (env : Env) (u : Replies) (mailFrom : String) (raw : Bytes) (r : String)
    (request : DeliveryRequest) (o : DeliveryOutcome) : Prop where
  account : BelongsTo u r request.account
  recipient : request.recipient = r
  mailFrom : request.mailFrom = mailFrom
  raw : request.raw = raw
  ran : ∃ w, w <:+: u ∧ Exec (deliver env request) w (.ok o)

/-- What has become of the message for a recipient. -/
inductive AccountedFor (svc : Services) (u : Replies) (mailFrom : String) (raw : Bytes)
    (r : String) : Prop
  | filed (request : DeliveryRequest) (o : DeliveryOutcome) :
      DeliveredFor svc.toEnv u mailFrom raw r request o →
      Filed request.account.mailId request.documentId raw (performed u) →
      AccountedFor svc u mailFrom raw r
  | discarded (request : DeliveryRequest) (o : DeliveryOutcome) :
      DeliveredFor svc.toEnv u mailFrom raw r request o → (sieveOutcome request).discarded = true →
      AccountedFor svc u mailFrom raw r
  | forwarded (destination : String) : ResolvedAs u r (.forward destination) →
      Queued u raw mailFrom destination → AccountedFor svc u mailFrom raw r
  | relayed (request : DeliveryRequest) (o : DeliveryOutcome) (relay : ForwardRelay) :
      DeliveredFor svc.toEnv u mailFrom raw r request o →
      relay ∈ deliveryRelays svc.toEnv request →
      Queued u relay.message relay.mailFrom relay.rcptTo → AccountedFor svc u mailFrom raw r
  | bounced (dsn : Bytes) : mailFrom ≠ "" → ReportsFailure dsn (r, overQuotaReason) →
      Queued u dsn "" mailFrom → AccountedFor svc u mailFrom raw r
  | overQuota (request : DeliveryRequest) (o : DeliveryOutcome) : mailFrom = "" →
      DeliveredFor svc.toEnv u mailFrom raw r request o → o.isOverQuota = true → o.relays = [] →
      AccountedFor svc u mailFrom raw r

/-! ## Parts of an execution -/

section Parts
variable {β : Type} {u v : Replies}

theorem exec_bind_part {p : Action β} {f : β → Action α} {a : α} (h : Exec (p >>= f) v (.ok a))
    (hv : v <:+: u) :
    ∃ b t t', t <:+: u ∧ t' <:+: u ∧ Exec p t (.ok b) ∧ Exec (f b) t' (.ok a) := by
  obtain ⟨b, t, t', rfl, hp, hf⟩ := h.bind_ok
  exact ⟨b, t, t', (prefix_append t t').isInfix.trans hv, (suffix_append t t').isInfix.trans hv, hp, hf⟩

theorem exec_caught {p : Action α} {r : Except Error α} (h : Exec (caught p) u (.ok r)) :
    Exec p u r := by
  obtain ⟨x, t₁, t₂, rfl, hattempt, hrest⟩ := h.bind_ok
  obtain ⟨y, hy, hp⟩ := hattempt.attempt_cases
  cases hy
  split at hrest
  · cases hrest
  · cases hrest
    rwa [append_nil]

theorem exec_pure {a b : α} (h : Exec (pure a : Action α) u (.ok b)) : a = b := by
  cases h
  rfl

variable (hu : Flawless u) (hv : v <:+: u)
include hu hv

theorem Flawless.exec_bind {c : Cmd} {f : c.Res → Action α} {r : Except Error α}
    (h : Exec (exec c >>= f) v r) :
    ∃ x t, t <:+: u ∧ (⟨c, .ok x⟩ : Reply) ∈ u ∧ Exec (f x) t r := by
  cases h with
  | call reply h =>
    have hmem := hv.subset mem_cons_self
    cases reply with
    | error e =>
      obtain ⟨x, hx⟩ := hu _ hmem
      cases hx
    | ok x => exact ⟨x, _, (suffix_cons _ _).isInfix.trans hv, hmem, h⟩

theorem Flawless.enqueue {raw : Bytes} {request : Enqueue} {r : Except Error Enqueued}
    (h : Exec (Smtp.enqueue raw request) v r) :
    ∀ x ∈ request.recipients, Queued u raw request.returnPath x.1 := by
  obtain ⟨hash, t₁, ht₁, hblob, hrest⟩ := hu.exec_bind hv h
  rw [allocateId, bind_assoc] at hrest
  obtain ⟨next, t₂, ht₂, -, hput⟩ := hu.exec_bind ht₁ hrest
  obtain ⟨_, t₃, -, hqueue, -⟩ := hu.exec_bind ht₂ hput
  intro x hx
  exact ⟨_, request.messageOf raw hash, hqueue, hblob, rfl, _, mem_map_of_mem hx, rfl⟩

theorem Flawless.enqueueForward {mailFrom destination : String} {raw : Bytes} {now : ℕ}
    {r : Except Error Unit} (h : Exec (Smtp.enqueueForward mailFrom destination raw now) v r) :
    Queued u raw mailFrom destination := by
  rcases h.bind_cases with ⟨queued, t₁, t₂, rfl, hexec, -⟩ | ⟨e, hexec, -⟩
  · exact hu.enqueue ((prefix_append t₁ t₂).isInfix.trans hv) hexec _ mem_cons_self
  · exact hu.enqueue hv hexec _ mem_cons_self

end Parts

/-! ## The steps of an acceptance -/

section Steps
variable {services : InboundServices} {mailFrom : String} {raw : Bytes} {now : ℕ} {u v : Replies}

variable {r : String} {n : ℕ} {svc : Services} {o : DeliveryOutcome} {outcome : InboundOutcome}
  {recipients : List String}

theorem returns_prepareLocal {account : Account} :
    Returns (fun p => p.account = account ∧ p.recipient = r)
      (prepareLocal services account r) :=
  (Returns.any _).bind fun _ _ => (Returns.any _).bind fun _ _ => (Returns.any _).bind fun _ _ =>
    .ret ⟨rfl, rfl⟩

theorem exec_deliverEach {requests : List DeliveryRequest} {outcomes : List DeliveryOutcome}
    (hv : v <:+: u) (h : Exec (deliverEach svc requests) v (.ok outcomes)) :
    List.Forall₂ (fun request o => ∃ w, w <:+: u ∧ Exec (deliver svc.toEnv request) w (.ok o))
      requests outcomes := by
  induction requests generalizing v outcomes with
  | nil =>
    cases h
    exact .nil
  | cons request rest ih =>
    obtain ⟨o, t₁, t₂, ht₁, ht₂, hfirst, h⟩ := exec_bind_part h hv
    obtain ⟨others, t₃, t₄, ht₃, -, hrest, hret⟩ := exec_bind_part h ht₂
    cases hret
    exact .cons ⟨t₁, ht₁, hfirst⟩ (ih ht₃ hrest)

variable (hu : Flawless u) (hv : v <:+: u)
include hu hv

theorem exec_prepareRecipient {prepared : Option Prepared} (hr : Served u r)
    (h : Exec (prepareRecipient services mailFrom raw now r) v (.ok (prepared, n))) :
    (∃ p, prepared = some p ∧ p.recipient = r ∧ BelongsTo u r p.account) ∨
      ∃ destination, ResolvedAs u r (.forward destination) ∧
        Queued u raw mailFrom destination := by
  obtain ⟨resolution, t₁, t₂, ht₁, ht₂, hresolve, h⟩ := exec_bind_part h hv
  have hres : ResolvedAs u r resolution := ⟨t₁, ht₁, hresolve⟩
  have hserved := hr resolution hres
  cases resolution with
  | localTo accountId viaCatchAll =>
    left
    obtain ⟨found, t₃, t₄, ht₃, ht₄, hget, h⟩ := exec_bind_part h ht₂
    obtain ⟨x, t₅, -, hx, hfound⟩ := hu.exec_bind ht₃ (exec_caught hget)
    cases x with
    | none => exact absurd rfl (hserved none hx)
    | some account =>
      cases hfound
      obtain ⟨p, t₆, t₇, -, -, hlocal, hret⟩ := exec_bind_part h ht₄
      cases hret
      obtain ⟨haccount, hrecipient⟩ := returns_prepareLocal _ _ hlocal
      exact ⟨p, rfl, hrecipient, accountId, viaCatchAll, hres, haccount ▸ hx⟩
  | forward destination =>
    obtain ⟨queued, t₃, t₄, ht₃, -, hforward, -⟩ := exec_bind_part h ht₂
    exact .inr ⟨destination, hres, hu.enqueueForward ht₃ (exec_caught hforward)⟩
  | rejected => exact hserved.elim
  | unknown => exact hserved.elim

theorem exec_prepareRecipients {rcptTo : List String}
    (h : Exec (prepareRecipients services mailFrom raw now rcptTo) v (.ok (ps, n))) :
    ∀ r ∈ rcptTo, Served u r →
      (∃ p ∈ ps, p.recipient = r ∧ BelongsTo u r p.account) ∨
        ∃ destination, ResolvedAs u r (.forward destination) ∧
          Queued u raw mailFrom destination := by
  induction rcptTo generalizing v ps n with
  | nil => simp
  | cons first rest ih =>
    obtain ⟨⟨prepared, forwarded⟩, t₁, t₂, ht₁, ht₂, hfirst, h⟩ := exec_bind_part h hv
    obtain ⟨⟨others, more⟩, t₃, t₄, ht₃, -, hrest, hret⟩ := exec_bind_part h ht₂
    cases hret
    intro r hr hserved
    rcases mem_cons.1 hr with rfl | hr
    · refine (exec_prepareRecipient hu ht₁ hserved hfirst).imp_left ?_
      rintro ⟨p, rfl, hp⟩
      exact ⟨p, by simp, hp⟩
    · refine (ih ht₃ hrest r hr hserved).imp_left ?_
      rintro ⟨p, hmem, hp⟩
      exact ⟨p, mem_append_right _ hmem, hp⟩

theorem exec_enqueueEach {relays : List ForwardRelay}
    (h : Exec (enqueueEach now relays) v (.ok ())) :
    ∀ relay ∈ relays, Queued u relay.message relay.mailFrom relay.rcptTo := by
  induction relays generalizing v with
  | nil => simp
  | cons first rest ih =>
    obtain ⟨queued, t₁, t₂, ht₁, ht₂, hfirst, hrest⟩ := exec_bind_part h hv
    have hqueued := hu.enqueue ht₁ (exec_caught hfirst) _ mem_cons_self
    exact forall_mem_cons.2 ⟨hqueued, ih ht₂ hrest⟩

theorem exec_bounceOverQuota
    (hsender : mailFrom ≠ "") (ho : (r, o) ∈ recipients.zip outcome.deliveries)
    (hover : o.isOverQuota = true)
    (h : Exec (bounceOverQuota svc recipients outcome mailFrom raw now) v (.ok ())) :
    ∃ dsn, ReportsFailure dsn (r, overQuotaReason) ∧ Queued u dsn "" mailFrom := by
  have hfailure : (r, overQuotaReason) ∈
      (overQuotaReport recipients outcome mailFrom raw now).recipients.filterMap failureOf :=
    mem_filterMap.2 ⟨overQuotaRecipient now r,
      mem_map.2 ⟨(r, o), mem_filter.2 ⟨ho, hover⟩, rfl⟩, rfl⟩
  unfold bounceOverQuota at h
  rw [if_neg hsender] at h
  split at h
  next hnone =>
    simp only [buildDsn] at hnone
    split_ifs at hnone with hempty
    rcases hempty with hempty | hempty
    · exact absurd hempty hsender
    · rw [hempty] at hfailure
      cases hfailure
  next dsn hdsn =>
    obtain ⟨queued, t₁, t₂, ht₁, -, hqueue, -⟩ := exec_bind_part h hv
    exact ⟨dsn, reportsFailure_of_buildDsn hdsn hfailure,
      hu.enqueue ht₁ (exec_caught hqueue) _ mem_cons_self⟩

theorem exec_followUp {disposition : Disposition} {recipients : List Prepared}
    (h : Exec (followUp services mailFrom raw now disposition recipients outcome) v (.ok ())) :
    (∀ o ∈ outcome.deliveries, ∀ relay ∈ o.relays,
      Queued u relay.message relay.mailFrom relay.rcptTo) ∧
    (mailFrom ≠ "" → ∀ r o, (r, o) ∈ (recipients.map Prepared.recipient).zip outcome.deliveries →
      o.isOverQuota = true → ∃ dsn, ReportsFailure dsn (r, overQuotaReason) ∧
        Queued u dsn "" mailFrom) := by
  obtain ⟨_, t₁, t₂, ht₁, ht₂, hrelays, h⟩ := exec_bind_part h hv
  obtain ⟨_, t₃, t₄, ht₃, -, hbounce, -⟩ := exec_bind_part h ht₂
  constructor
  · intro o ho relay hrelay
    obtain ⟨_, t₅, t₆, -, ht₆, -, heach⟩ := exec_bind_part hrelays ht₁
    exact exec_enqueueEach hu ht₆ heach relay (mem_flatMap.2 ⟨o, ho, hrelay⟩)
  · intro hsender r o ho hover
    exact exec_bounceOverQuota hu ht₃ hsender ho hover hbounce

end Steps

/-! ## The fate of a delivery -/

variable {env : Env}

theorem performed_subset {u v : Replies} (h : v <:+: u) :
    performed (S := sig) v ⊆ performed (S := sig) u := by
  rintro ⟨c, r⟩ hx
  exact mem_performed.2 (h.subset (mem_performed.1 hx))

theorem relays_of_keepLocal_eq_false {forwarding : Forwarding}
    {deliveredTo mailFrom : String} {raw : Bytes}
    (h : (planForward env forwarding deliveredTo mailFrom raw).keepLocal = false) :
    ∃ relay, relay ∈ (planForward env forwarding deliveredTo mailFrom raw).relays := by
  unfold planForward at h ⊢
  split_ifs at h ⊢
  obtain ⟨-, hrelays⟩ := Bool.or_eq_false_iff.1 h
  exact exists_mem_of_ne_nil _ (by simpa using hrelays)

theorem exists_outcome {os : List DeliveryOutcome} {f : Prepared → DeliveryRequest}
    {R : DeliveryRequest → DeliveryOutcome → Prop} (h : List.Forall₂ R (ps.map f) os) {p : Prepared}
    (hp : p ∈ ps) : ∃ o, (p.recipient, o) ∈ (ps.map Prepared.recipient).zip os ∧ R (f p) o := by
  induction ps generalizing os with
  | nil => cases hp
  | cons first rest ih =>
    cases h with
    | @cons _ o _ others hfirst hrest =>
      rcases mem_cons.1 hp with rfl | hp
      · exact ⟨o, mem_cons_self, hfirst⟩
      · obtain ⟨o', ho', hR⟩ := ih hrest hp
        exact ⟨o', mem_cons_of_mem _ ho', hR⟩

section Fate
variable {services : InboundServices} {mailFrom : String} {raw : Bytes} {now : ℕ} {u v : Replies}

variable {disposition : Disposition}

theorem exec_deliverPrepared {n : ℕ} (hu : Flawless u) (hv : v <:+: u)
    (h : Exec (deliverPrepared services mailFrom raw now disposition ps n) v (.ok none))
    {p : Prepared} (hp : p ∈ ps) (hbelongs : BelongsTo u p.recipient p.account) :
    AccountedFor services.mail u mailFrom raw p.recipient := by
  have hne : ps.isEmpty = false := by
    cases ps with
    | nil => cases hp
    | cons first rest => rfl
  unfold deliverPrepared at h
  rw [hne] at h
  obtain ⟨outcome, t₁, t₂, ht₁, ht₂, hdeliver, hrest⟩ := exec_bind_part h hv
  obtain ⟨deliveries, t₃, t₄, ht₃, -, heach, hcount⟩ := exec_bind_part hdeliver ht₁
  have hdeliveries : outcome.deliveries = deliveries := by
    obtain ⟨_, _, _, -, -, hcount⟩ := hcount.bind_ok
    obtain ⟨_, _, _, -, -, hret⟩ := hcount.bind_ok
    cases hret
    rfl
  subst hdeliveries
  split at hrest
  · cases hrest
  obtain ⟨_, t₅, t₆, ht₅, -, hfollow, -⟩ := exec_bind_part hrest ht₂
  obtain ⟨hrelays, hbounces⟩ := exec_followUp hu ht₅ hfollow
  obtain ⟨o, ho, w, hw, hexec⟩ := exists_outcome (exec_deliverEach ht₃ heach) hp
  set request := Prepared.request mailFrom raw now disposition p with hrequest
  have hdelivered : DeliveredFor services.mail.toEnv u mailFrom raw p.recipient request o :=
    ⟨hbelongs, rfl, rfl, rfl, w, hw, hexec⟩
  have hfiling := (filingTo_deliver services.mail.toEnv request []).exec hexec
  rw [append_nil] at hfiling
  obtain ⟨-, hsent, hfate⟩ := hfiling
  have hrelayed : ∀ relay ∈ deliveryRelays services.mail.toEnv request,
      AccountedFor services.mail u mailFrom raw p.recipient := by
    intro relay hrelay
    exact .relayed request o relay hdelivered hrelay
      (hrelays o (of_mem_zip ho).2 relay (hsent ▸ hrelay))
  rcases hfate with hover | ⟨-, -, hdiscarded⟩ | ⟨-, hkeep⟩ | ⟨-, hfiled⟩
  · by_cases hsender : mailFrom = ""
    · cases hrelay : o.relays with
      | nil => exact .overQuota request o hsender hdelivered hover hrelay
      | cons relay rest =>
        refine hrelayed relay ?_
        rw [← hsent, hrelay]
        exact mem_cons_self
    · obtain ⟨dsn, hreport, hqueued⟩ := hbounces hsender p.recipient o ho hover
      exact .bounced dsn hsender hreport hqueued
  · exact .discarded request o hdelivered hdiscarded
  · obtain ⟨relay, hrelay⟩ := relays_of_keepLocal_eq_false hkeep
    exact hrelayed relay (mem_append_right _ hrelay)
  · refine .filed request o hdelivered (hfiled.mono fun x hx => ?_)
    exact performed_subset hw (mem_reverse.1 hx)

theorem exec_deliverInbound {rcptTo : List String} (hu : Flawless u)
    (hv : v <:+: u)
    (h : Exec (Session.deliverInbound services mailFrom raw rcptTo disposition) v (.ok none)) :
    ∀ r ∈ rcptTo, Served u r → AccountedFor services.mail u mailFrom raw r := by
  intro r hr hserved
  obtain ⟨now, t₁, t₂, -, ht₂, -, h⟩ := exec_bind_part h hv
  obtain ⟨⟨ps, n⟩, t₃, t₄, ht₃, ht₄, hprepare, hdeliver⟩ := exec_bind_part h ht₂
  rcases exec_prepareRecipients hu ht₃ hprepare r hr hserved with
    ⟨p, hp, rfl, hbelongs⟩ | ⟨destination, hres, hqueued⟩
  · exact exec_deliverPrepared hu ht₄ hdeliver hp hbelongs
  · exact .forwarded destination hres hqueued

end Fate

/-! ## The reply -/

theorem returns_deliverInbound (services : InboundServices) (mailFrom : String) (raw : Bytes)
    (rcptTo : List String) (disposition : Disposition) :
    Returns (fun r => r ≠ some acceptedReply)
      (Session.deliverInbound services mailFrom raw rcptTo disposition) := by
  refine (Returns.any _).bind fun now _ => (Returns.any _).bind fun prepared _ => ?_
  change Returns _ (deliverPrepared services mailFrom raw now disposition prepared.1 prepared.2)
  unfold deliverPrepared
  split
  · split
    · exact .ret (by simp)
    · exact .ret (by decide)
  · refine (Returns.any _).bind fun outcome _ => ?_
    split
    · exact .ret (by decide)
    · exact (Returns.any _).bind fun _ _ => .ret (by simp)

theorem runGauntlet_ne_accepted (v : Verification) (raw : Bytes) (dnsbl : DnsblDecision) :
    runGauntlet v raw dnsbl ≠ .defer acceptedReply ∧
      runGauntlet v raw dnsbl ≠ .reject acceptedReply := by
  unfold runGauntlet decideSpam
  repeat' split
  all_goals decide

variable {lib : Libraries} {answers : Answers}

theorem stored_of_accepted {s s' : Session} {services : InboundServices} {message : Message}
    {u : Replies} (hservices : s.inboundServices = some services)
    (h : Exec (s.acceptInbound answers message) u (.ok (acceptedReply, s'))) :
    ∃ now disposition w, w <:+: u ∧
      let stored := buildReceived s.data.heloDomain s.peer services.hostDomain s.data.isTls now now ++
        prependHeader "Authentication-Results" (answers.verification s.data.heloDomain
          (message.mailFrom.getD "") message.body).authResults message.body
      s'.accepted = some { message with body := stored } ∧
        Exec (Session.deliverInbound services (message.mailFrom.getD "") stored message.rcptTo
          disposition) w (.ok none) := by
  unfold Session.acceptInbound at h
  rw [hservices] at h
  dsimp only at h
  split at h
  · exact absurd (congrArg Prod.fst (exec_pure h))
      (by decide : tooManyMessagesReply ≠ acceptedReply)
  · have hne := runGauntlet_ne_accepted
      (answers.verification s.data.heloDomain (message.mailFrom.getD "") message.body)
      message.body s.dnsbl
    split at h
    next reply hreply =>
      cases h
      exact absurd hreply hne.1
    next reply hreply =>
      cases h
      exact absurd hreply hne.2
    next disposition hdisposition =>
      obtain ⟨now, t₁, t₂, -, ht₂, -, hrest⟩ := exec_bind_part h infix_rfl
      obtain ⟨reply, t₃, t₄, ht₃, -, hdeliver, hret⟩ := exec_bind_part hrest ht₂
      cases reply with
      | some reply =>
        cases hret
        exact absurd rfl (returns_deliverInbound _ _ _ _ _ _ _ hdeliver)
      | none =>
        cases hret
        exact ⟨now, disposition, t₃, ht₃, rfl, hdeliver⟩

theorem exec_conclude {s s' : Session} {services : InboundServices} {message : Message}
    {u : Replies} (hmode : s.mode = .inbound) (hservices : s.inboundServices = some services)
    (h : Exec (s.conclude lib answers message) u (.ok s'))
    (hreply : s'.wire.sent.head? = some acceptedReply) :
    ∃ received results disposition v, v <:+: u ∧
      Exec (Session.deliverInbound services (message.mailFrom.getD "")
        (received ++ prependHeader "Authentication-Results" results message.body)
        message.rcptTo disposition) v (.ok none) := by
  obtain ⟨⟨reply, s₁⟩, t₁, t₂, ht₁, -, haccept, hwrite⟩ := exec_bind_part h infix_rfl
  have hs' : s' = s₁.afterMessage.said reply :=
    returns_checked_last (fun s' hs' => Session.write_eq_ok hs') _ _ hwrite
  obtain rfl : reply = acceptedReply := by
    rw [hs'] at hreply
    exact Option.some.inj hreply
  unfold Session.acceptBody at haccept
  rw [hmode] at haccept
  obtain ⟨now, disposition, v, hv, -, hdeliver⟩ := stored_of_accepted hservices haccept
  exact ⟨_, _, disposition, v, hv.trans ht₁, hdeliver⟩

/-! ## What a session is set up with -/

def Session.Alike (s s' : Session) : Prop := s'.mode = s.mode ∧ s'.services = s.services

namespace Session.Alike
variable {s s₁ s' : Session} {line : Bytes}

theorem trans (h : Session.Alike s s₁) (h' : Session.Alike s₁ s') : Session.Alike s s' :=
  ⟨h'.1.trans h.1, h'.2.trans h.2⟩

theorem readLine {r : Option Bytes} (h : s.readLine = .ok (r, s')) : Session.Alike s s' := by
  unfold Session.readLine at h
  split at h
  · cases h
  · cases h
    exact ⟨rfl, rfl⟩

theorem stay (hr : Received lib line s (.stay s')) : Session.Alike s s' := by
  cases hr with
  | bdat n isLast step hverb hparse hgate hchunk => cases hchunk <;> exact ⟨rfl, rfl⟩
  | _ => exact ⟨rfl, rfl⟩

theorem submit {message : Message} (hr : Received lib line s (.submit message s')) :
    Session.Alike s s' := by
  cases hr with
  | data body rest hverb hgate hstage hread => exact ⟨rfl, rfl⟩
  | bdat n isLast step hverb hparse hgate hchunk =>
    cases hchunk with
    | last hn hstage hlast => exact ⟨rfl, rfl⟩

theorem conclude {message : Message} {u : Replies}
    (h : Exec (s.conclude lib answers message) u (.ok s')) : Session.Alike s s' := by
  obtain ⟨s₁, reply, ⟨accepted, dnsbl, rfl⟩, rfl⟩ := Session.returns_conclude _ _ _ h
  exact ⟨rfl, rfl⟩

theorem conversation {s₀ : Session} {h : List Exchange} (hc : Conversation lib s₀ h s) :
    Session.Alike s₀ s := by
  induction hc with
  | start => exact ⟨rfl, rfl⟩
  | stay _ hline hexec ih =>
    exact (ih.trans (readLine hline)).trans (stay (Session.returns_receive _ _ hexec))
  | submit _ hline hreceive hexec ih =>
    exact ((ih.trans (readLine hline)).trans
      (submit (Session.returns_receive _ _ hreceive))).trans (conclude hexec)

end Session.Alike

section Accepted
variable {s₀ s s₁ s₂ s' : Session} {services : InboundServices} {h : List Exchange} {line : Bytes}
  {t u : Replies} {message : Message}

/-- A message that is answered with a 250 is accounted for, for every recipient that
was accepted since its `MAIL` and is still served, if no command fails meanwhile. -/
theorem accepted_message_accounted_for (hfresh : s₀.Fresh) (hmode : s₀.mode = .inbound)
    (hservices : s₀.services = some (.inbound services)) (hc : Conversation lib s₀ h s)
    (hline : s.readLine = .ok (some line, s₁))
    (hexec : Exec (s₁.receive lib answers line) t (.ok (.submit message s₂)))
    (hconclude : Exec (s₂.conclude lib answers message) u (.ok s'))
    (hreply : s'.wire.sent.head? = some acceptedReply) (hu : Flawless u) :
    ∃ sender m since older received results,
      h = since ++ m :: older ∧ m.sender lib = some sender ∧ (∀ x ∈ since, x.Within) ∧
      ∀ x ∈ since, ∀ r, x.recipient lib = some r → Served u r →
        AccountedFor services.mail u sender
          (received ++ prependHeader "Authentication-Results" results message.body) r := by
  have halike : Session.Alike s₀ s₂ :=
    ((Session.Alike.conversation hc).trans (.readLine hline)).trans
      (.submit (Session.returns_receive _ _ hexec))
  have hinbound : s₂.inboundServices = some services := by
    rw [Session.inboundServices, halike.2, hservices]
  obtain ⟨received, results, disposition, v, hv, hdeliver⟩ :=
    exec_conclude (halike.1.trans hmode) hinbound hconclude hreply
  obtain ⟨sender, since, hopen, hmail, hrcpt, -, -⟩ := hc.openSince hfresh hline hexec
  obtain ⟨m, older, hsplit, hm⟩ := hopen.split
  refine ⟨sender, m, since, older, received, results, hsplit, hm, hopen.within, ?_⟩
  intro x hx r hr hserved
  rw [hmail] at hdeliver
  refine exec_deliverInbound hu hv hdeliver r ?_ hserved
  rw [hrcpt]
  exact List.mem_filterMap.2 ⟨x, List.mem_reverse.2 hx, hr⟩

end Accepted

/-- Mail for the postmaster is forwarded; the account of `b@d` may hold one message
and holds it. -/
def fullAccount : World :=
  { World.empty (.new 0) 0 with
    records := (((AList.insert (.addressEntry "postmaster") ⟨"postmaster", .forward "c@e"⟩ ∅).insert
      (.addressEntry "b@d") ⟨"b@d", .account 2⟩).insert
      (.account 2) { Account.plain 2 "b" with quotaMessages := 1 }).insert
      (.counter (.quotaMessages 2)) 1 }

theorem flawless_replies {σ : Type} (m : Machine sig σ) (p : Action α) (s : σ) :
    Flawless (p.replies m s) := by
  induction p generalizing s with
  | ret a => exact fun x hx => absurd hx (by simp [replies])
  | fail e => exact fun x hx => absurd hx (by simp [replies])
  | call c k ih => exact forall_mem_cons.2 ⟨⟨_, rfl⟩, ih _ _⟩

def forwardEntry : AddressEntry := ⟨"postmaster", .forward "c@e"⟩

def findsForward : Reply → Bool
  | ⟨.get (.addressEntry _), .ok entry⟩ => entry = some forwardEntry
  | _ => true

theorem served_of_findsForward {u : Replies} (h : u.all findsForward = true) :
    Served u "postmaster" := by
  rintro resolution ⟨w, hw, hexec⟩
  obtain ⟨recipient, t₁, t₂, rfl, hcanonical, hexec⟩ := hexec.bind_ok
  obtain ⟨entry, t₃, t₄, rfl, hget, hrest⟩ := hexec.bind_ok
  cases hget with
  | call reply hreply =>
    cases reply with
    | error e => cases hreply
    | ok reply =>
      cases hreply
      have hx := all_eq_true.1 h _ (hw.subset (mem_append_right _
        (mem_append_left _ mem_cons_self)))
      simp only [findsForward, decide_eq_true_eq] at hx
      subst hx
      cases hrest
      trivial

variable (lib) in
def converse (m : Machine sig World) (answers : Answers) :
    ℕ → List Exchange → Session → World → Option (List Exchange × Session × World)
  | 0, h, s, w => some (h, s, w)
  | n + 1, h, s, w =>
    match s.readLine with
    | .ok (some line, s₁) =>
      match (s₁.receive lib answers line).run m w with
      | (.ok (.stay s'), w') => converse m answers n (.between line s₁ s' none :: h) s' w'
      | _ => none
    | _ => none

theorem conversation_converse {m : Machine sig World} {s₀ s s' : Session} {h h' : List Exchange}
    {n : ℕ} {w w' : World} (hc : Conversation lib s₀ h s)
    (hrun : converse lib m answers n h s w = some (h', s', w')) : Conversation lib s₀ h' s' := by
  induction n generalizing h s w with
  | zero =>
    cases hrun
    exact hc
  | succ n ih =>
    unfold converse at hrun
    split at hrun
    next line s₁ hline =>
      split at hrun
      next s₂ w₂ hreceive =>
        have hexec := exec_replies m (s₁.receive lib answers line) w
        rw [hreceive] at hexec
        exact ih (.stay hc hline hexec) hrun
      next => cases hrun
    next => cases hrun

def toPostmaster : Session where
  wire.incoming := asciiBytes "HELO c\r\nMAIL FROM:<>\r\nRCPT TO:<postmaster>\r\nBDAT 2 LAST\r\nhi"
  wire.takes := 9
  services := some (.inbound ⟨.plain, "d"⟩)

/-- The next line of a session that has conversed hands a message over, and what the
session comes to passes a test. -/
def handsOver (lib : Libraries) (answers : Answers)
    (test : List Exchange → Message → Replies → Session → Bool) :
    Option (List Exchange × Session × World) → Bool
  | some (h, s, w) =>
    match s.readLine with
    | .ok (some line, s₁) =>
      match (s₁.receive lib answers line).run (machine id) w with
      | (.ok (.submit message s₂), w₁) =>
        match ((s₂.conclude lib answers message).run (machine id) w₁).1 with
        | .ok s' => test h message ((s₂.conclude lib answers message).replies (machine id) w₁) s'
        | .error _ => false
      | _ => false
    | _ => false
  | none => false

theorem exists_of_handsOver {test : List Exchange → Message → Replies → Session → Bool}
    {s₀ : Session} {n : ℕ} {w : World}
    (hready : handsOver lib answers test (converse lib (machine id) answers n [] s₀ w) = true) :
    ∃ h s line s₁ t message s₂ u s', Conversation lib s₀ h s ∧
      s.readLine = .ok (some line, s₁) ∧
      Exec (s₁.receive lib answers line) t (.ok (.submit message s₂)) ∧
      Exec (s₂.conclude lib answers message) u (.ok s') ∧ Flawless u ∧
      test h message u s' = true := by
  cases hrun : converse lib (machine id) answers n [] s₀ w with
  | none => simp [hrun, handsOver] at hready
  | some r =>
    obtain ⟨h, s, w⟩ := r
    have hc := conversation_converse .start hrun
    rw [hrun] at hready
    unfold handsOver at hready
    dsimp only at hready
    split at hready
    next line s₁ hline =>
      split at hready
      next message s₂ w₁ hreceive =>
        have hexec := exec_replies (machine id) (s₁.receive lib answers line) w
        rw [hreceive] at hexec
        split at hready
        next s' hconclude =>
          have hdone := exec_replies (machine id) (s₂.conclude lib answers message) w₁
          rw [hconclude] at hdone
          exact ⟨h, s, line, s₁, _, message, s₂, _, s', hc, hline, hexec, hdone,
            flawless_replies _ _ _, hready⟩
        next => cases hready
      next => cases hready
    next => cases hready

theorem toPostmaster_accounted_for : ∃ u raw, Flawless u ∧ Served u "postmaster" ∧
    AccountedFor .plain u "" raw "postmaster" := by
  -- the postmaster is the last recipient of the empty sender, and every address is forwarded
  have hready : handsOver .plain .plain
      (fun h _ u s' => h.head?.any (fun x => x.recipient .plain = some "postmaster" &&
          x.sender .plain = none) &&
        h.all (fun y => y.sender .plain = none || y.sender .plain = some "") &&
        u.all findsForward && s'.wire.sent.head? = some acceptedReply)
      (converse .plain (machine id) .plain 3 [] toPostmaster fullAccount) = true := by
    decide +kernel
  obtain ⟨h, s, line, s₁, t, message, s₂, u, s', hc, hline, hexec, hdone, hflawless, htest⟩ :=
    exists_of_handsOver hready
  simp only [Bool.and_eq_true, decide_eq_true_eq, List.all_eq_true,
    Option.any_eq_true] at htest
  obtain ⟨⟨⟨⟨x, hhead, hrecipient, hnone⟩, hsenders⟩, hfinds⟩, hreply⟩ := htest
  have hserved := served_of_findsForward (all_eq_true.2 hfinds)
  obtain ⟨sender, m, since, older, received, results, hsplit, hm, -, haccounted⟩ :=
    accepted_message_accounted_for ⟨rfl, rfl, rfl, rfl⟩ rfl rfl hc hline hexec hdone hreply hflawless
  have hsender : sender = "" := by
    simpa [hm] using hsenders m (hsplit ▸ mem_append_right _ mem_cons_self)
  have hx : x ∈ since := by
    rw [hsplit] at hhead
    cases since with
    | nil =>
      obtain rfl := Option.some.inj hhead
      simp [hnone] at hm
    | cons y since =>
      obtain rfl := Option.some.inj hhead
      exact mem_cons_self
  rw [hsender] at haccounted
  exact ⟨_, _, hflawless, hserved, haccounted x hx _ hrecipient hserved⟩

def nullSender : Session where
  wire.incoming := asciiBytes
    "HELO c\r\nMAIL FROM:<>\r\nRCPT TO:<postmaster>\r\nRCPT TO:<b@d>\r\nBDAT 2 LAST\r\nhi"
  wire.takes := 9
  localDomains := ["d"]
  services := some (.inbound ⟨.plain, "d"⟩)

def nullSenderRun : Except Error (Flow × Session) × World :=
  (nullSender.serve .plain (fun _ => .plain) 6).run (machine id) fullAccount

theorem nullSender_loses_copy :
    (nullSenderRun.1.map fun r => r.2.wire.sent.take 4) =
      .ok [acceptedReply, recipientOk, recipientOk, senderOk] ∧
    nullSenderRun.2.records.keys.filter (fun l => l.kind = .metadata ∨ l.kind = .scripts) = [] ∧
    nullSenderRun.2.records.keys.filter (fun l => l.kind = .queue) = [.queue 1] ∧
    (nullSenderRun.2.records.lookup (.queue 1)).map
      (fun m => m.recipients.map QueueRecipient.address) = some ["c@e"] := by
  decide +kernel

end IrixMail.Smtp

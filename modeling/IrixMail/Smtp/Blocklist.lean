import IrixMail.Smtp.Acceptance

/-!
# Peers on a blocklist

The blocklists are asked once, when a peer connects, and the session keeps the
verdict. A complete message that gets past the rate limiter uses it up: whatever
comes of the message, the verdict is lifted afterwards.
-/

namespace IrixMail.Smtp
open Library Prog Store Mail

/-- What an inbound session makes of a complete message, by the verdict it keeps. -/
inductive Concluded (answers : Answers) (message : Message) (s : Session) :
    Replies → String → DnsblDecision → Option Message → Prop
  | limited : answers.tooManyMessages = true →
      Concluded answers message s [] tooManyMessagesReply s.dnsbl s.accepted
  | looping : answers.tooManyMessages = false → isLooping message.body defaultMaxReceived = true →
      Concluded answers message s [] looping .allow s.accepted
  | blocked (zone : String) : answers.tooManyMessages = false →
      isLooping message.body defaultMaxReceived = false → s.dnsbl = .reject zone →
      Concluded answers message s [] blocklisted .allow s.accepted
  | judged {u : Replies} {reply : String} {accepted : Option Message} :
      answers.tooManyMessages = false → s.dnsbl = .allow → reply ≠ blocklisted →
      reply ≠ tooManyMessagesReply → Concluded answers message s u reply .allow accepted

def DeliveryReply (reply : Option String) : Prop :=
  reply = none ∨ reply = some unroutable ∨ reply = some mailboxFullReply

theorem returns_deliveryReply (services : InboundServices) (mailFrom : String) (raw : Bytes)
    (rcptTo : List String) (disposition : Disposition) :
    Returns DeliveryReply (Session.deliverInbound services mailFrom raw rcptTo disposition) := by
  refine (Returns.any _).bind fun receivedAt _ =>
    (Returns.any _).bind fun ⟨recipients, forwarded⟩ _ => ?_
  change Returns DeliveryReply (deliverPrepared _ _ _ _ _ _ _)
  unfold deliverPrepared
  split
  · split
    · exact .ret (.inl rfl)
    · exact .ret (.inr (.inl rfl))
  · refine (Returns.any _).bind fun outcome _ => ?_
    split
    · exact .ret (.inr (.inr rfl))
    · exact (Returns.any _).bind fun _ _ => .ret (.inl rfl)

theorem exec_checked {α : Type} {x : Except Error α} {t : Replies} {a : α}
    (h : Exec (checked x) t (.ok a)) : t = [] ∧ x = .ok a := by
  cases x with
  | error e => cases h
  | ok b =>
    cases h
    exact ⟨rfl, rfl⟩

variable {lib : Libraries} {answers : Answers} {message : Message} {s s' : Session} {u : Replies}

theorem concluded_of_acceptInbound {services : InboundServices} {reply : String}
    (hservices : s.inboundServices = some services)
    (h : Exec (s.acceptInbound answers message) u (.ok (reply, s'))) :
    Concluded answers message s u reply s'.dnsbl s'.accepted := by
  unfold Session.acceptInbound at h
  rw [hservices] at h
  dsimp only at h
  by_cases hlimit : answers.tooManyMessages = true
  · rw [if_pos hlimit] at h
    cases h
    exact .limited hlimit
  · rw [if_neg hlimit] at h
    have hlimit' : answers.tooManyMessages = false := Bool.of_not_eq_true hlimit
    unfold runGauntlet at h
    by_cases hloop : isLooping message.body defaultMaxReceived = true
    · rw [if_pos hloop] at h
      cases h
      exact .looping hlimit' hloop
    · rw [if_neg hloop] at h
      cases hdnsbl : s.dnsbl with
      | reject zone =>
        rw [hdnsbl] at h
        cases h
        exact .blocked zone hlimit' (Bool.of_not_eq_true hloop) hdnsbl
      | allow =>
        rw [hdnsbl] at h
        unfold decideSpam at h
        dsimp only at h
        split at h
        next text htext =>
          split at htext
          · split at htext
            · cases htext
              cases h
              exact .judged hlimit' hdnsbl (by decide) (by decide)
            · cases htext
          · cases htext
          · cases htext
        next text htext =>
          split at htext
          · split at htext
            · cases htext
            · cases htext
              cases h
              exact .judged hlimit' hdnsbl (by decide) (by decide)
          · cases htext
          · cases htext
        next disposition hdisposition =>
          obtain ⟨now, t₁, t₂, rfl, -, hrest⟩ := h.bind_ok
          obtain ⟨given, t₃, t₄, rfl, hdeliver, hret⟩ := hrest.bind_ok
          rcases returns_deliveryReply _ _ _ _ _ _ _ hdeliver with rfl | rfl | rfl
          all_goals
            cases hret
            exact .judged hlimit' hdnsbl (by decide) (by decide)

theorem concluded_of_conclude {services : InboundServices} (hmode : s.mode = .inbound)
    (hservices : s.inboundServices = some services)
    (h : Exec (s.conclude lib answers message) u (.ok s')) :
    ∃ reply rest, s'.wire.sent = reply :: rest ∧
      Concluded answers message s u reply s'.dnsbl s'.accepted := by
  obtain ⟨⟨reply, s₁⟩, t₁, t₂, rfl, haccept, hwrite⟩ := h.bind_ok
  obtain ⟨rfl, hs'⟩ := exec_checked hwrite
  obtain rfl := Session.write_eq_ok hs'
  unfold Session.acceptBody at haccept
  rw [hmode] at haccept
  rw [List.append_nil]
  have hconcluded : Concluded answers message s t₁ reply s₁.dnsbl s₁.accepted :=
    concluded_of_acceptInbound hservices haccept
  exact ⟨reply, _, rfl, hconcluded⟩

/-! ## The verdict along a session -/

namespace Session

theorem dnsbl_readLine {r : Option Bytes} (h : s.readLine = .ok (r, s')) : s'.dnsbl = s.dnsbl := by
  unfold readLine at h
  split at h
  · cases h
  · cases h
    rfl

theorem dnsbl_stay {line : Bytes} (hr : Received lib line s (.stay s')) : s'.dnsbl = s.dnsbl := by
  cases hr with
  | bdat n isLast step hverb hparse hgate hchunk => cases hchunk <;> rfl
  | _ => rfl

theorem dnsbl_submit {line : Bytes} (hr : Received lib line s (.submit message s')) :
    s'.dnsbl = s.dnsbl := by
  cases hr with
  | data body rest hverb hgate hstage hread => rfl
  | bdat n isLast step hverb hparse hgate hchunk =>
    cases hchunk with
    | last hn hstage hlast => rfl

end Session

/-- Every message so far was held back by the rate limiter. -/
def Exchange.AllLimited (h : List Exchange) : Prop :=
  ∀ x ∈ h, x.submitted.isSome = true → x.reply = tooManyMessagesReply

/-- The session keeps the verdict for as long as no message has used it up. -/
structure KeepsVerdict (zone : String) (h : List Exchange) (s : Session) : Prop where
  listed : Exchange.AllLimited h → s.dnsbl = .reject zone
  lifted : ¬ Exchange.AllLimited h → s.dnsbl = .allow

namespace KeepsVerdict
variable {zone : String} {h : List Exchange}

theorem of_dnsbl_eq (hk : KeepsVerdict zone h s) (heq : s'.dnsbl = s.dnsbl) :
    KeepsVerdict zone h s' :=
  ⟨fun hall => heq.trans (hk.listed hall), fun hnot => heq.trans (hk.lifted hnot)⟩

theorem stay {x : Exchange} (hk : KeepsVerdict zone h s) (hx : x.submitted = none) :
    KeepsVerdict zone (x :: h) s := by
  have hiff : Exchange.AllLimited (x :: h) ↔ Exchange.AllLimited h := by
    simp [Exchange.AllLimited, hx]
  exact ⟨fun hall => hk.listed (hiff.1 hall), fun hnot => hk.lifted fun hall => hnot (hiff.2 hall)⟩

theorem submit {x : Exchange} {reply : String} {accepted : Option Message}
    (hk : KeepsVerdict zone h s) (hx : x.submitted = some message) (hreply : x.reply = reply)
    (hc : Concluded answers message s u reply s'.dnsbl accepted) :
    KeepsVerdict zone (x :: h) s' := by
  have hiff : Exchange.AllLimited (x :: h) ↔ reply = tooManyMessagesReply ∧
      Exchange.AllLimited h := by
    simp [Exchange.AllLimited, hx, hreply]
  generalize hdnsbl : s'.dnsbl = dnsbl at hc
  cases hc with
  | limited hlimit =>
    refine ⟨fun hall => hdnsbl.trans (hk.listed (hiff.1 hall).2), fun hnot => ?_⟩
    exact hdnsbl.trans (hk.lifted fun hall => hnot (hiff.2 ⟨rfl, hall⟩))
  | looping hlimit hloop =>
    exact ⟨fun hall => absurd (hiff.1 hall).1 (by decide), fun _ => hdnsbl⟩
  | blocked zone' hlimit hloop hlisted =>
    exact ⟨fun hall => absurd (hiff.1 hall).1 (by decide), fun _ => hdnsbl⟩
  | judged hlimit hallow hblock hlimited =>
    exact ⟨fun hall => absurd (hiff.1 hall).1 hlimited, fun _ => hdnsbl⟩

theorem conversation {s₀ : Session} {services : InboundServices} (hc : Conversation lib s₀ h s)
    (hmode : s₀.mode = .inbound) (hservices : s₀.services = some (.inbound services))
    (hlisted : s₀.dnsbl = .reject zone) : KeepsVerdict zone h s := by
  induction hc with
  | start => exact ⟨fun _ => hlisted, fun hnot => absurd (by simp [Exchange.AllLimited]) hnot⟩
  | stay _ hline hexec ih =>
    have heq := (Session.dnsbl_stay (Session.returns_receive _ _ hexec)).trans
      (Session.dnsbl_readLine hline)
    exact (ih.of_dnsbl_eq heq).stay rfl
  | submit hc hline hreceive hexec ih =>
    have halike := ((Session.Alike.conversation hc).trans (.readLine hline)).trans
      (.submit (Session.returns_receive _ _ hreceive))
    have heq := (Session.dnsbl_submit (Session.returns_receive _ _ hreceive)).trans
      (Session.dnsbl_readLine hline)
    obtain ⟨reply, rest, hsent, hconcluded⟩ := concluded_of_conclude (halike.1.trans hmode)
      (by rw [Session.inboundServices, halike.2, hservices]) hexec
    refine (ih.of_dnsbl_eq heq).submit rfl ?_ hconcluded
    rw [Exchange.between, hsent]
    rfl

end KeepsVerdict

section Listed
variable {c s₁ s₂ : Session} {services : InboundServices} {arrival : Session.Arrival}
  {zone : String} {h : List Exchange} {line : Bytes} {t : Replies}

/-- A complete message of a listed peer gets the blocklist rejection exactly when it is
the first to get past the rate limiter and does not loop. As long as no message has got
past it, none is accepted and none leads to a store command. -/
theorem listed_peer_rejected_iff (hmode : c.mode = .inbound)
    (hservices : c.services = some (.inbound services)) (hlisted : arrival.dnsbl = .reject zone)
    (hc : Conversation lib (c.checkBlocklist arrival) h s)
    (hline : s.readLine = .ok (some line, s₁))
    (hexec : Exec (s₁.receive lib answers line) t (.ok (.submit message s₂)))
    (hconclude : Exec (s₂.conclude lib answers message) u (.ok s')) :
    (s'.wire.sent.head? = some blocklisted ↔ Exchange.AllLimited h ∧
      answers.tooManyMessages = false ∧ isLooping message.body defaultMaxReceived = false) ∧
    (Exchange.AllLimited h → s'.wire.sent.head? ≠ some acceptedReply ∧
      s'.accepted = s₂.accepted ∧ u = []) := by
  have hcheck : c.checkBlocklist arrival = { c with dnsbl := .reject zone } := by
    simp [Session.checkBlocklist, Session.inboundServices, hservices, hlisted]
  rw [hcheck] at hc
  have hkeeps : KeepsVerdict zone h s := .conversation hc hmode hservices rfl
  have halike := ((Session.Alike.conversation hc).trans (.readLine hline)).trans
    (.submit (Session.returns_receive _ _ hexec))
  have heq := (Session.dnsbl_submit (Session.returns_receive _ _ hexec)).trans
    (Session.dnsbl_readLine hline)
  obtain ⟨reply, rest, hsent, hconcluded⟩ := concluded_of_conclude (halike.1.trans hmode)
    (by rw [Session.inboundServices, halike.2, hservices]) hconclude
  have hlistedNow : Exchange.AllLimited h → s₂.dnsbl ≠ .allow := by
    intro hall
    rw [heq, hkeeps.listed hall]
    simp
  have hliftedNow : s₂.dnsbl ≠ .allow → Exchange.AllLimited h := by
    intro hne
    by_contra hnot
    exact hne (heq.trans (hkeeps.lifted hnot))
  rw [hsent, List.head?_cons]
  generalize s'.dnsbl = dnsbl at hconcluded
  generalize s'.accepted = accepted at hconcluded ⊢
  cases hconcluded with
  | limited hlimit =>
    refine ⟨⟨fun hreply => absurd (Option.some.inj hreply) (by decide), fun hcond => ?_⟩,
      fun _ => ⟨by decide, rfl, rfl⟩⟩
    rw [hlimit] at hcond
    cases hcond.2.1
  | looping hlimit hloop =>
    refine ⟨⟨fun hreply => absurd (Option.some.inj hreply) (by decide), fun hcond => ?_⟩,
      fun _ => ⟨by decide, rfl, rfl⟩⟩
    rw [hloop] at hcond
    cases hcond.2.2
  | blocked zone' hlimit hloop hstill =>
    have hall := hliftedNow (by rw [hstill]; simp)
    exact ⟨⟨fun _ => ⟨hall, hlimit, hloop⟩, fun _ => rfl⟩, fun _ => ⟨by decide, rfl, rfl⟩⟩
  | judged hlimit hallow hblock hlimited =>
    refine ⟨⟨fun hreply => absurd (Option.some.inj hreply) hblock, fun hcond => ?_⟩,
      fun hall => absurd hallow (hlistedNow hall)⟩
    exact absurd hallow (hlistedNow hcond.1)

end Listed

/-! ## Two messages of a listed peer -/

def listedArrival : Session.Arrival := ⟨false, .reject "bl"⟩

theorem first_message_rejected : ∃ (h : List Exchange) (s s' : Session) (message : Message)
    (u : Replies), Conversation .plain (toPostmaster.checkBlocklist listedArrival) h s ∧
      Exchange.AllLimited h ∧ isLooping message.body defaultMaxReceived = false ∧
      s'.wire.sent.head? = some blocklisted ∧ u = [] := by
  have hready : handsOver .plain .plain
      (fun h message _ _ => h.all (fun x => x.submitted.isNone) &&
        !isLooping message.body defaultMaxReceived)
      (converse .plain (machine id) .plain 3 [] (toPostmaster.checkBlocklist listedArrival)
        fullAccount) = true := by
    decide +kernel
  obtain ⟨h, s, line, s₁, t, message, s₂, u, s', hc, hline, hexec, hconclude, -, htest⟩ :=
    exists_of_handsOver hready
  rw [Bool.and_eq_true, List.all_eq_true, Bool.not_eq_true'] at htest
  have hall : Exchange.AllLimited h := by
    intro x hx hsome
    have hnone := htest.1 x hx
    rw [Option.isNone_iff_eq_none] at hnone
    rw [hnone] at hsome
    cases hsome
  obtain ⟨hiff, hnothing⟩ := listed_peer_rejected_iff (c := toPostmaster) rfl rfl rfl hc hline hexec
    hconclude
  exact ⟨h, s, s', message, u, hc, hall, htest.2, hiff.2 ⟨hall, rfl, htest.2⟩, (hnothing hall).2.2⟩

/-- The message of `toPostmaster` twice, in two transactions. -/
def twiceToPostmaster : Session :=
  { toPostmaster with
    wire.incoming := toPostmaster.wire.incoming ++ toPostmaster.wire.incoming.drop 8 }

/-- The first message is rejected for the listing, and the second is accepted and
forwarded. -/
theorem second_message_accepted :
    let ran := (twiceToPostmaster.run .plain listedArrival fun _ => .plain).run (machine id)
      fullAccount
    (ran.1.map fun r => r.2.wire.sent.take 5) =
        .ok [acceptedReply, recipientOk, senderOk, blocklisted, recipientOk] ∧
      (ran.2.records.lookup (.queue 1)).map (fun m => m.recipients.map QueueRecipient.address) =
        some ["c@e"] := by
  decide +kernel

end IrixMail.Smtp

import IrixMail.Smtp.Steps

/-!
# Mail transactions

A transaction begins with an accepted `MAIL` and ends with the message, or with a
command that resets the session. What the session keeps of it is told again by
the exchanges since that `MAIL`: the sender, the recipients that were accepted
and the chunks that were stored.
-/

namespace IrixMail.Smtp
open Library Prog Store Mail Directory List

/-- A command line with the octets that were read after it, the last reply, and
the message that was handed over. -/
structure Exchange where
  line : Bytes
  taken : Bytes
  reply : String
  submitted : Option Message

namespace Exchange

def between (line : Bytes) (s s' : Session) (submitted : Option Message) : Exchange where
  line := line
  taken := s.wire.incoming.take (s.wire.incoming.length - s'.wire.incoming.length)
  reply := s'.wire.sent.headD ""
  submitted := submitted

variable (lib : Libraries) (x : Exchange)

def verb : Verb := Verb.fromLine x.line

def AcceptsMail : Prop := x.verb = .mail ∧ x.reply = senderOk
def Authenticates : Prop := x.verb = .auth ∧ x.reply = successReply

instance : Decidable x.AcceptsMail := inferInstanceAs (Decidable (_ ∧ _))
instance : Decidable x.Authenticates := inferInstanceAs (Decidable (_ ∧ _))

def sender : Option String :=
  match parseCommand lib (terminated x.line) with
  | .ok (.mail params) => if x.AcceptsMail then some params.address else none
  | _ => none

def recipient : Option String :=
  match parseCommand lib (terminated x.line) with
  | .ok (.rcpt params) =>
    if x.verb = .rcpt ∧ x.reply = recipientOk then some (Session.recipientPath params).address
    else none
  | _ => none

def chunk : Option Bytes := if x.verb = .bdat ∧ x.reply = chunkOkReply then some x.taken else none

/-- The exchange neither begins a transaction nor ends one. -/
structure Within : Prop where
  mail : ¬ x.AcceptsMail
  resets : x.verb.resets = false
  submitted : x.submitted = none

variable {lib x}

theorem quiet (h : successOf x.verb ≠ some x.reply ∨ x.verb = .auth) :
    ¬ x.AcceptsMail ∧ x.recipient lib = none ∧ x.chunk = none := by
  have hreply : ∀ verb reply, successOf verb = some reply → verb ≠ .auth →
      ¬ (x.verb = verb ∧ x.reply = reply) := by
    rintro verb reply hsuccess hauth ⟨rfl, rfl⟩
    exact h.elim (absurd hsuccess) (absurd · hauth)
  refine ⟨hreply .mail senderOk rfl (by decide), ?_, ?_⟩
  · unfold recipient
    split
    · rw [if_neg (hreply .rcpt recipientOk rfl (by decide))]
    · rfl
  · rw [chunk, if_neg (hreply .bdat chunkOkReply rfl (by decide))]

end Exchange

variable (lib : Libraries)

/-- The exchanges, newest first, that lead from one session to another. -/
inductive Conversation (s₀ : Session) : List Exchange → Session → Prop
  | start : Conversation s₀ [] s₀
  | stay {h : List Exchange} {s s₁ s' : Session} {line : Bytes} {answers : Answers}
      {t : Replies} :
      Conversation s₀ h s → s.readLine = .ok (some line, s₁) →
      Exec (s₁.receive lib answers line) t (.ok (.stay s')) →
      Conversation s₀ (.between line s₁ s' none :: h) s'
  | submit {h : List Exchange} {s s₁ s₂ s' : Session} {line : Bytes} {answers : Answers}
      {t u : Replies} {message : Message} :
      Conversation s₀ h s → s.readLine = .ok (some line, s₁) →
      Exec (s₁.receive lib answers line) t (.ok (.submit message s₂)) →
      Exec (s₂.conclude lib answers message) u (.ok s') →
      Conversation s₀ (.between line s₁ s' (some message) :: h) s'

/-! ## The transaction that is open -/

def recipientsIn (since : List Exchange) : List String :=
  since.reverse.filterMap (Exchange.recipient lib)

def chunksIn (since : List Exchange) : Bytes := (since.reverse.filterMap Exchange.chunk).flatten

/-- The newest transaction of `h` was begun by `sender`, and `since` came after. -/
structure OpenSince (h : List Exchange) (sender : String) (since : List Exchange) : Prop where
  split : ∃ m older, h = since ++ m :: older ∧ m.sender lib = some sender
  within : ∀ x ∈ since, x.Within

variable {lib}

theorem recipientsIn_cons (x : Exchange) (since : List Exchange) :
    recipientsIn lib (x :: since) = recipientsIn lib since ++ (x.recipient lib).toList := by
  unfold recipientsIn
  rw [reverse_cons, filterMap_append, filterMap_cons]
  cases x.recipient lib <;> rfl

theorem chunksIn_cons (x : Exchange) (since : List Exchange) :
    chunksIn (x :: since) = chunksIn since ++ x.chunk.getD [] := by
  unfold chunksIn
  rw [reverse_cons, filterMap_append, filterMap_cons]
  cases x.chunk <;> simp

theorem OpenSince.cons {h : List Exchange} {sender : String} {since : List Exchange}
    (ho : OpenSince lib h sender since) {x : Exchange} (hx : x.Within) :
    OpenSince lib (x :: h) sender (x :: since) := by
  obtain ⟨m, older, rfl, hm⟩ := ho.split
  exact ⟨⟨m, older, rfl, hm⟩, forall_mem_cons.2 ⟨hx, ho.within⟩⟩

/-- The session keeps what the exchanges tell of the open transaction. -/
structure Tracks (lib : Libraries) (h : List Exchange) (s : Session) : Prop where
  closed : s.data.mailFrom = none →
    s.data.rcptTo = [] ∧ (s.stage = .connected ∨ s.stage = .greeted)
  opened : ∀ sender, s.data.mailFrom = some sender → ∃ since, OpenSince lib h sender since ∧
    s.data.rcptTo = recipientsIn lib since ∧ s.collected = chunksIn since ∧
    (s.data.rcptTo = [] ∧ s.stage = .mail ∧ chunksIn since = [] ∨
      s.data.rcptTo ≠ [] ∧ s.stage = .rcpt)

namespace Tracks
variable {h : List Exchange} {s s' : Session} {line : Bytes}

theorem none_open (hmail : s.data.mailFrom = none) (hrcpt : s.data.rcptTo = [])
    (hstage : s.stage = .connected ∨ s.stage = .greeted) : Tracks lib h s where
  closed _ := ⟨hrcpt, hstage⟩
  opened sender hsender := by
    rw [hmail] at hsender
    cases hsender

theorem idle {x : Exchange} (ht : Tracks lib h s)
    (hdata : s'.data.mailFrom = s.data.mailFrom ∧ s'.data.rcptTo = s.data.rcptTo)
    (hstage : s'.stage = s.stage) (hchunks : s'.collected = s.collected)
    (hx : x.Within) (hrecipient : x.recipient lib = none) (hchunk : x.chunk = none) :
    Tracks lib (x :: h) s' where
  closed hmail := by
    rw [hdata.2, hstage]
    exact ht.closed (hdata.1 ▸ hmail)
  opened sender hsender := by
    obtain ⟨since, hopen, hrcpt, hcollected, hpos⟩ := ht.opened sender (hdata.1 ▸ hsender)
    refine ⟨x :: since, hopen.cons hx, ?_, ?_, ?_⟩
    · rw [hdata.2, hrcpt, recipientsIn_cons, hrecipient]
      simp
    · rw [hchunks, hcollected, chunksIn_cons, hchunk]
      simp
    · rw [hdata.2, hstage, chunksIn_cons, hchunk]
      simpa using hpos

theorem readLine {s₁ : Session} {r : Option Bytes} (ht : Tracks lib h s)
    (hline : s.readLine = .ok (r, s₁)) : Tracks lib h s₁ := by
  unfold Session.readLine at hline
  split at hline
  · cases hline
  · cases hline
    exact ⟨ht.closed, ht.opened⟩

theorem quiet (ht : Tracks lib h s)
    (hdata : s'.data.mailFrom = s.data.mailFrom ∧ s'.data.rcptTo = s.data.rcptTo)
    (hstage : s'.stage = s.stage) (hchunks : s'.collected = s.collected)
    (hreply : successOf (Verb.fromLine line) ≠ some (s'.wire.sent.headD "") ∨
      Verb.fromLine line = .auth) (hresets : (Verb.fromLine line).resets = false) :
    Tracks lib (.between line s s' none :: h) s' := by
  have hquiet : ¬ (Exchange.between line s s' none).AcceptsMail ∧
      (Exchange.between line s s' none).recipient lib = none ∧
      (Exchange.between line s s' none).chunk = none := Exchange.quiet hreply
  exact ht.idle hdata hstage hchunks ⟨hquiet.1, hresets, rfl⟩ hquiet.2.1 hquiet.2.2

theorem mail {params : MailParams} (hverb : Verb.fromLine line = .mail)
    (hparse : parseCommand lib (terminated line) = .ok (.mail params))
    (hs : s' = (s.withSender ⟨params.address, params.smtputf8⟩).said senderOk) :
    Tracks lib (.between line s s' none :: h) s' := by
  subst hs
  refine ⟨by rintro ⟨⟩, ?_⟩
  rintro _ ⟨⟩
  refine ⟨[], ⟨⟨_, h, rfl, ?_⟩, by simp⟩, rfl, rfl, .inl ⟨rfl, rfl, rfl⟩⟩
  simp only [Exchange.sender, Exchange.between, hparse]
  exact if_pos ⟨hverb, rfl⟩

theorem rcpt {params : RcptParams} (ht : Tracks lib h s) (hverb : Verb.fromLine line = .rcpt)
    (hparse : parseCommand lib (terminated line) = .ok (.rcpt params))
    (hmail : s.data.mailFrom.isSome = true)
    (hs : s' = (s.withRecipient (Session.recipientPath params).address).said recipientOk) :
    Tracks lib (.between line s s' none :: h) s' := by
  obtain ⟨sender, hsender⟩ := Option.isSome_iff_exists.1 hmail
  obtain ⟨since, hopen, hrcpt, hcollected, -⟩ := ht.opened sender hsender
  subst hs
  set x : Exchange := .between line s
    ((s.withRecipient (Session.recipientPath params).address).said recipientOk) none with hx
  have hxverb : x.verb = .rcpt := hverb
  have hrecipient : x.recipient lib = some (Session.recipientPath params).address := by
    simp only [Exchange.recipient, hx, Exchange.between, hparse]
    exact if_pos ⟨hverb, rfl⟩
  have hchunk : x.chunk = none := if_neg fun h => by simp [hxverb] at h
  have hwithin : x.Within :=
    ⟨fun h => by simp [Exchange.AcceptsMail, hxverb] at h, by rw [hxverb]; rfl, rfl⟩
  refine ⟨fun hnone => absurd (hsender.symm.trans hnone) (by simp), ?_⟩
  intro sender' hsender'
  obtain rfl : sender = sender' := Option.some.inj (hsender.symm.trans hsender')
  refine ⟨x :: since, hopen.cons hwithin, ?_, ?_, .inr ⟨by simp [Session.said, Session.withRecipient],
    rfl⟩⟩
  · rw [recipientsIn_cons, hrecipient, ← hrcpt]
    rfl
  · rw [chunksIn_cons, hchunk, Option.getD_none, append_nil]
    exact hcollected

theorem chunk {n : ℕ} {isLast : Bool} (ht : Tracks lib h s) (hverb : Verb.fromLine line = .bdat)
    (hr : ChunkReceived s n isLast (.stay s')) :
    Tracks lib (.between line s s' none :: h) s' := by
  cases hr with
  | refused hn hstage =>
    cases hmail : s.data.mailFrom with
    | none => exact none_open hmail (ht.closed hmail).1 (ht.closed hmail).2
    | some sender =>
      obtain ⟨since, -, -, hcollected, hpos⟩ := ht.opened sender hmail
      -- without a recipient no chunk has been stored
      have hnothing : s.collected = [] := by
        rcases hpos with ⟨-, -, hnil⟩ | ⟨-, hrcpt⟩
        · rw [hcollected, hnil]
        · exact absurd hrcpt hstage
      refine ht.quiet ⟨rfl, rfl⟩ rfl hnothing.symm (.inl ?_) (by rw [hverb]; rfl)
      rw [hverb]
      exact (by decide : successOf .bdat ≠ some bdatNeedsRcpt)
  | tooLarge hn => exact none_open rfl rfl (.inr rfl)
  | stored maxSize hn hstage =>
    set s'' : Session := ((s.withIncoming (s.wire.incoming.drop n)).withChunks
      (some ⟨s.collected ++ s.wire.incoming.take n, maxSize⟩)).said chunkOkReply with hs
    have hverb' : (Exchange.between line s s'' none).verb = .bdat := hverb
    have hchunk : (Exchange.between line s s'' none).chunk = some (s.wire.incoming.take n) := by
      have hcount : s.wire.incoming.length - (s.wire.incoming.drop n).length = n := by
        rw [length_drop]
        omega
      rw [← hcount]
      exact if_pos ⟨hverb, rfl⟩
    have hrecipient : (Exchange.between line s s'' none).recipient lib = none := by
      unfold Exchange.recipient
      split
      · exact if_neg fun h => by simp [hverb'] at h
      · rfl
    have hwithin : (Exchange.between line s s'' none).Within :=
      ⟨fun h => by simp [Exchange.AcceptsMail, hverb'] at h, by rw [hverb']; rfl, rfl⟩
    refine ⟨fun hmail => ?_, fun sender hsender => ?_⟩
    · exact absurd (ht.closed hmail).2 (by simp [hstage])
    · obtain ⟨since, hopen, hrcpt, hcollected, hpos⟩ := ht.opened sender hsender
      refine ⟨_ :: since, hopen.cons hwithin, ?_, ?_, ?_⟩
      · rw [recipientsIn_cons, hrecipient, ← hrcpt]
        simp [hs, Session.said, Session.withChunks, Session.withIncoming]
      · rw [chunksIn_cons, hchunk, ← hcollected]
        rfl
      · rcases hpos with ⟨-, hmailStage, -⟩ | hpos
        · rw [hstage] at hmailStage
          cases hmailStage
        · exact .inr hpos

theorem step (ht : Tracks lib h s) (hr : Received lib line s (.stay s')) :
    Tracks lib (.between line s s' none :: h) s' := by
  cases hr with
  | refused reply hsuccess hresets =>
    exact ht.quiet ⟨rfl, rfl⟩ rfl rfl (.inl hsuccess) hresets
  | greeted reply hverb => exact none_open rfl rfl (.inr rfl)
  | mail params hverb hparse hgate hmail hstage => exact mail hverb hparse rfl
  | rcpt params hverb hparse hgate hmail hremote => exact ht.rcpt hverb hparse hmail rfl
  | dataTooLarge rest hverb => exact none_open rfl rfl (.inr rfl)
  | bdat n isLast step hverb hparse hgate hchunk => exact ht.chunk hverb hchunk
  | login wire reply hverb hreply =>
    exact ht.quiet ⟨rfl, rfl⟩ rfl rfl (.inr hverb) (by rw [hverb]; rfl)
  | loggedIn wire account hverb =>
    exact ht.quiet ⟨rfl, rfl⟩ rfl rfl (.inr hverb) (by rw [hverb]; rfl)
  | reset hverb =>
    refine none_open rfl rfl ?_
    simp only [Session.said, Session.reset]
    split <;> simp

theorem conversation {s₀ : Session} (hstart : Tracks lib [] s₀) (hc : Conversation lib s₀ h s) :
    Tracks lib h s := by
  induction hc with
  | start => exact hstart
  | stay _ hline hexec ih =>
    exact (ih.readLine hline).step (Session.returns_receive _ _ hexec)
  | submit _ _ _ hexec _ =>
    obtain ⟨s₁, reply, -, rfl⟩ := Session.returns_conclude _ _ _ hexec
    exact none_open rfl rfl (.inr rfl)

end Tracks

/-! ## Whom the session trusts -/

/-- Until a login succeeds, the session has no remote recipients. -/
structure Trusts (s₀ : Session) (h : List Exchange) (s : Session) : Prop where
  mode : s.mode = s₀.mode
  localDomains : s.localDomains = s₀.localDomains
  unknown : (∀ x ∈ h, ¬ x.Authenticates) → s.data.authenticated = false ∧
    ∀ r ∈ s.data.rcptTo, Session.isRemote s₀.localDomains r = false

namespace Trusts
variable {s₀ s s' : Session} {h : List Exchange} {line : Bytes}

theorem fewer {x : Exchange} (ht : Trusts s₀ h s)
    (hsame : s'.mode = s.mode ∧ s'.localDomains = s.localDomains)
    (hauth : s'.data.authenticated = s.data.authenticated)
    (hrcpt : s'.data.rcptTo ⊆ s.data.rcptTo) : Trusts s₀ (x :: h) s' where
  mode := hsame.1.trans ht.mode
  localDomains := hsame.2.trans ht.localDomains
  unknown hnever := by
    obtain ⟨hunknown, hlocal⟩ := ht.unknown fun y hy => hnever y (mem_cons_of_mem _ hy)
    exact ⟨hauth.trans hunknown, fun r hr => hlocal r (hrcpt hr)⟩

theorem readLine {s₁ : Session} {r : Option Bytes} (ht : Trusts s₀ h s)
    (hline : s.readLine = .ok (r, s₁)) : Trusts s₀ h s₁ := by
  unfold Session.readLine at hline
  split at hline
  · cases hline
  · cases hline
    exact ⟨ht.mode, ht.localDomains, ht.unknown⟩

theorem step (ht : Trusts s₀ h s) (hr : Received lib line s (.stay s')) :
    Trusts s₀ (.between line s s' none :: h) s' := by
  cases hr with
  | refused reply hsuccess hresets => exact ht.fewer ⟨rfl, rfl⟩ rfl fun _ h => h
  | greeted reply hverb => exact ht.fewer ⟨rfl, rfl⟩ rfl (nil_subset _)
  | mail params hverb hparse hgate hmail hstage =>
    exact ht.fewer ⟨rfl, rfl⟩ rfl (nil_subset _)
  | rcpt params hverb hparse hgate hmail hremote =>
    refine ⟨ht.mode, ht.localDomains, fun hnever => ?_⟩
    obtain ⟨hunknown, hlocal⟩ := ht.unknown fun y hy => hnever y (mem_cons_of_mem _ hy)
    refine ⟨hunknown, fun r hr => ?_⟩
    rcases mem_append.1 hr with hr | hr
    · exact hlocal r hr
    · rw [mem_singleton.1 hr, ← ht.localDomains, ← Bool.not_eq_true]
      intro h
      rw [hremote h] at hunknown
      cases hunknown
  | dataTooLarge rest hverb => exact ht.fewer ⟨rfl, rfl⟩ rfl (nil_subset _)
  | bdat n isLast step hverb hparse hgate hchunk =>
    cases hchunk with
    | refused => exact ht.fewer ⟨rfl, rfl⟩ rfl fun _ h => h
    | tooLarge => exact ht.fewer ⟨rfl, rfl⟩ rfl (nil_subset _)
    | stored => exact ht.fewer ⟨rfl, rfl⟩ rfl fun _ h => h
  | login wire reply hverb hreply => exact ht.fewer ⟨rfl, rfl⟩ rfl fun _ h => h
  | loggedIn wire account hverb =>
    exact ⟨ht.mode, ht.localDomains, fun hnever => absurd ⟨hverb, rfl⟩ (hnever _ mem_cons_self)⟩
  | reset hverb => exact ht.fewer ⟨rfl, rfl⟩ rfl (nil_subset _)

end Trusts

/-! ## Handing over -/

structure HandsOver (line : Bytes) (s : Session) (message : Message) (s' : Session) : Prop where
  gate : s.submissionGate = none
  stage : s.stage = .rcpt
  mailFrom : message.mailFrom = s.data.mailFrom
  rcptTo : message.rcptTo = s.data.rcptTo
  body : Verb.fromLine line = .data ∧
      readData s.wire.failure s.wire.incoming = .ok (some message.body, s'.wire.incoming) ∨
    Verb.fromLine line = .bdat ∧ ∃ chunk, s.wire.incoming = chunk ++ s'.wire.incoming ∧
      message.body = s.collected ++ chunk
  kept : s'.mode = s.mode ∧ s'.localDomains = s.localDomains ∧
    s'.data.authenticated = s.data.authenticated

theorem handsOver_of_received {line : Bytes} {s s' : Session} {message : Message}
    (hr : Received lib line s (.submit message s')) : HandsOver line s message s' := by
  cases hr with
  | data body rest hverb hgate hstage hread =>
    exact ⟨hgate, hstage, rfl, rfl, .inl ⟨hverb, hread⟩, rfl, rfl, rfl⟩
  | bdat n isLast step hverb hparse hgate hchunk =>
    cases hchunk with
    | last hn hstage hlast =>
      exact ⟨hgate, hstage, rfl, rfl,
        .inr ⟨hverb, _, (take_append_drop n s.wire.incoming).symm, rfl⟩, rfl, rfl, rfl⟩

theorem Trusts.conversation {s₀ s : Session} {h : List Exchange} (hstart : Trusts s₀ [] s₀)
    (hc : Conversation lib s₀ h s) : Trusts s₀ h s := by
  induction hc with
  | start => exact hstart
  | stay _ hline hexec ih =>
    exact (ih.readLine hline).step (Session.returns_receive _ _ hexec)
  | submit _ hline hreceive hexec ih =>
    obtain ⟨s₁, reply, ⟨accepted, dnsbl, rfl⟩, rfl⟩ := Session.returns_conclude _ _ _ hexec
    have hkept := (handsOver_of_received (Session.returns_receive _ _ hreceive)).kept
    exact (ih.readLine hline).fewer ⟨hkept.1, hkept.2.1⟩ hkept.2.2 (nil_subset _)

structure Session.Fresh (s : Session) : Prop where
  stage : s.stage = .connected
  mailFrom : s.data.mailFrom = none
  rcptTo : s.data.rcptTo = []
  authenticated : s.data.authenticated = false

section HandOver
variable {s₀ s s₁ s' : Session} {h : List Exchange} {line : Bytes} {answers : Answers}
  {t : Replies} {message : Message}

theorem Conversation.openSince (hfresh : s₀.Fresh) (hc : Conversation lib s₀ h s)
    (hline : s.readLine = .ok (some line, s₁))
    (hexec : Exec (s₁.receive lib answers line) t (.ok (.submit message s'))) :
    ∃ sender since, OpenSince lib h sender since ∧ message.mailFrom = some sender ∧
      message.rcptTo = recipientsIn lib since ∧ message.rcptTo ≠ [] ∧
      s₁.collected = chunksIn since := by
  have htracks : Tracks lib h s₁ := ((Tracks.none_open hfresh.mailFrom hfresh.rcptTo
    (.inl hfresh.stage)).conversation hc).readLine hline
  have hover := handsOver_of_received (Session.returns_receive _ _ hexec)
  cases hmail : s₁.data.mailFrom with
  | none => exact absurd (htracks.closed hmail).2 (by simp [hover.stage])
  | some sender =>
    obtain ⟨since, hopen, hrcpt, hcollected, hpos⟩ := htracks.opened sender hmail
    refine ⟨sender, since, hopen, hover.mailFrom.trans hmail, hover.rcptTo.trans hrcpt, ?_,
      hcollected⟩
    rw [hover.rcptTo]
    rcases hpos with ⟨-, hstage, -⟩ | ⟨hne, -⟩
    · rw [hover.stage] at hstage
      cases hstage
    · exact hne

/-- Whatever a peer sends, a message that is handed over is the transaction since
the last accepted `MAIL`; and without a login it has no remote recipients and was
not submitted. -/
theorem handed_over_from_one_transaction (hfresh : s₀.Fresh) (hc : Conversation lib s₀ h s)
    (hline : s.readLine = .ok (some line, s₁))
    (hexec : Exec (s₁.receive lib answers line) t (.ok (.submit message s'))) :
    (∃ sender m since older, h = since ++ m :: older ∧ m.sender lib = some sender ∧
      (∀ x ∈ since, x.Within) ∧ message.mailFrom = some sender ∧
      message.rcptTo = recipientsIn lib since ∧ message.rcptTo ≠ [] ∧
      (Verb.fromLine line = .data ∧
          readData s₁.wire.failure s₁.wire.incoming = .ok (some message.body, s'.wire.incoming) ∨
        Verb.fromLine line = .bdat ∧ ∃ chunk, s₁.wire.incoming = chunk ++ s'.wire.incoming ∧
          message.body = chunksIn since ++ chunk)) ∧
    ((∀ x ∈ h, ¬ x.Authenticates) → s₀.mode ≠ .submission ∧
      ∀ r ∈ message.rcptTo, Session.isRemote s₀.localDomains r = false) := by
  have hover := handsOver_of_received (Session.returns_receive _ _ hexec)
  constructor
  · obtain ⟨sender, since, hopen, hmail, hrcpt, hne, hcollected⟩ :=
      hc.openSince hfresh hline hexec
    obtain ⟨m, older, hsplit, hm⟩ := hopen.split
    exact ⟨sender, m, since, older, hsplit, hm, hopen.within, hmail, hrcpt, hne,
      hcollected ▸ hover.body⟩
  · intro hnever
    have htrusts : Trusts s₀ h s₁ := by
      refine (Trusts.conversation ⟨rfl, rfl, fun _ => ⟨hfresh.authenticated, ?_⟩⟩ hc).readLine hline
      simp [hfresh.rcptTo]
    obtain ⟨hunknown, hlocal⟩ := htrusts.unknown hnever
    refine ⟨fun hmode => ?_, hover.rcptTo ▸ hlocal⟩
    have hauth := Session.submissionGate_eq_none.1 hover.gate (htrusts.mode.trans hmode)
    rw [hunknown] at hauth
    cases hauth

end HandOver

/-- A peer that greets, names a sender and a recipient, and sends a chunk: `HELO c`,
`MAIL FROM:<a@b>`, `RCPT TO:<c@d>`, `BDAT 2 LAST` and two octets. -/
def oneMessage : Session where
  wire.incoming :=
    [72, 69, 76, 79, 32, 99, 13, 10, 77, 65, 73, 76, 32, 70, 82, 79, 77, 58, 60, 97, 64, 98,
      62, 13, 10, 82, 67, 80, 84, 32, 84, 79, 58, 60, 99, 64, 100, 62, 13, 10, 66, 68, 65, 84,
      32, 50, 32, 76, 65, 83, 84, 13, 10, 104, 105]
  wire.takes := 4
  localDomains := ["d"]

theorem oneMessage_handed_over : ∃ (h : List Exchange) (s s₁ s' : Session) (line : Bytes)
    (message : Message), Conversation .plain oneMessage h s ∧
      s.readLine = .ok (some line, s₁) ∧
      Exec (s₁.receive .plain .plain line) [] (.ok (.submit message s')) ∧
      message = ⟨some "a@b", ["c@d"], [104, 105]⟩ ∧
      ∃ since, message.rcptTo = recipientsIn .plain since ∧
        ∀ r ∈ message.rcptTo, Session.isRemote ["d"] r = false := by
  have hgreet := @Conversation.stay .plain oneMessage _ _ _ _ _ .plain [] .start rfl (.ret _)
  have hmail := @Conversation.stay .plain oneMessage _ _ _ _ _ .plain [] hgreet rfl (.ret _)
  have hrcpt := @Conversation.stay .plain oneMessage _ _ _ _ _ .plain [] hmail rfl (.ret _)
  have h := @handed_over_from_one_transaction .plain oneMessage _ _ _ _ _ .plain [] _
    ⟨rfl, rfl, rfl, rfl⟩ hrcpt rfl (.ret _)
  obtain ⟨⟨sender, m, since, older, -, -, -, -, hrecipients, -⟩, htrust⟩ := h
  refine ⟨_, _, _, _, _, _, hrcpt, rfl, .ret _, rfl, since, hrecipients, (htrust ?_).2⟩
  decide +kernel

end IrixMail.Smtp

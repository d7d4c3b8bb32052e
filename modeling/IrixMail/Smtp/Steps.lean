import IrixMail.Smtp.Dispatch

/-!
# What a command line can do

`Received` lists everything that can come of a command line, with the conditions
that the session has checked, whatever the store and the other services answer.
-/

namespace IrixMail.Smtp
open Library Prog Store Mail Directory

abbrev Reply := Σ c : Cmd, Except Error c.Res

abbrev Replies := List Reply

variable {reply : String}

namespace Session

def said (reply : String) (s : Session) : Session :=
  { s with wire := { s.wire with takes := s.wire.takes - 1, sent := reply :: s.wire.sent } }

theorem write_eq_ok {s s' : Session} (h : s.write reply = .ok s') : s' = s.said reply := by
  unfold write at h
  unfold said
  split at h
  · cases h
  next n hn =>
    cases h
    rw [hn]
    rfl

theorem returns_answer {Q : Step → Prop} {s : Session}
    (h : Q (.stay (s.said reply))) : Returns Q (s.answer reply) :=
  returns_checked fun _ hs => .ret (write_eq_ok hs ▸ h)

theorem readData_eq_ok {s s' : Session} {body : Option Bytes} (h : s.readData = .ok (body, s')) :
    ∃ rest, Smtp.readData s.wire.failure s.wire.incoming = .ok (body, rest) ∧
      s' = s.withIncoming rest := by
  unfold readData at h
  split at h
  · cases h
  next rest hread =>
    cases h
    exact ⟨rest, hread, rfl⟩

theorem readChunk_eq_ok {s s' : Session} {n : ℕ} {chunk : Bytes}
    (h : s.readChunk n = .ok (chunk, s')) :
    n ≤ s.wire.incoming.length ∧ chunk = s.wire.incoming.take n ∧
      s' = s.withIncoming (s.wire.incoming.drop n) := by
  unfold readChunk Smtp.readChunk at h
  split_ifs at h with hn
  · cases h
    exact ⟨hn, rfl, rfl⟩

theorem drainChunk_eq_ok {s s' : Session} {n : ℕ} (h : s.drainChunk n = .ok s') :
    n ≤ s.wire.incoming.length ∧ s' = s.withIncoming (s.wire.incoming.drop n) := by
  unfold drainChunk at h
  rw [drainChunk_eq] at h
  split_ifs at h with hn
  · cases h
    exact ⟨hn, rfl⟩

end Session

section RcptReply
variable {params : RcptParams} {pending auth : Bool} {recipient : Recipient} {count limit : ℕ}
  {address reply : String}

theorem rcptReply_eq_reject
    (h : rcptReply params pending recipient auth count limit = .reject reply) :
    reply ≠ recipientOk := by
  cases recipient <;> simp only [rcptReply] at h <;> split_ifs at h <;> cases h <;> decide

theorem rcptReply_eq_accept
    (h : rcptReply params pending recipient auth count limit = .accept address reply) :
    pending = true ∧ address = params.address ∧ reply = recipientOk ∧
      (recipient = .remote → auth = true) := by
  cases recipient <;> simp only [rcptReply] at h <;> split_ifs at h <;> cases h <;> simp_all

end RcptReply

def successOf : Verb → Option String
  | .mail => some senderOk
  | .rcpt => some recipientOk
  | .bdat => some chunkOkReply
  | .auth => some successReply
  | _ => none

def Verb.resets : Verb → Bool
  | .ehlo => true
  | .helo => true
  | .rset => true
  | _ => false

def Session.collected (s : Session) : Bytes := s.chunks.elim [] ChunkReceiver.message

inductive ChunkReceived (s : Session) (n : ℕ) (isLast : Bool) : Step → Prop
  | refused : n ≤ s.wire.incoming.length → s.stage ≠ .rcpt →
      ChunkReceived s n isLast (.stay
        (((s.withChunks none).withIncoming (s.wire.incoming.drop n)).said bdatNeedsRcpt))
  | tooLarge : n ≤ s.wire.incoming.length →
      ChunkReceived s n isLast (.stay
        (((s.afterMessage.withChunks none).withIncoming (s.wire.incoming.drop n)).said
          tooLargeReply))
  | stored (maxSize : ℕ) : n ≤ s.wire.incoming.length → s.stage = .rcpt →
      ChunkReceived s n isLast (.stay
        (((s.withIncoming (s.wire.incoming.drop n)).withChunks
          (some ⟨s.collected ++ s.wire.incoming.take n, maxSize⟩)).said chunkOkReply))
  | last : n ≤ s.wire.incoming.length → s.stage = .rcpt → isLast = true →
      ChunkReceived s n isLast
        (((s.withIncoming (s.wire.incoming.drop n)).withChunks none).handOver
          (s.collected ++ s.wire.incoming.take n))
  | closed (s' : Session) : ChunkReceived s n isLast (.leave .close s')

inductive Received (lib : Libraries) (line : Bytes) (s : Session) : Step → Prop
  | refused (reply : String) : successOf (Verb.fromLine line) ≠ some reply →
      (Verb.fromLine line).resets = false → Received lib line s (.stay (s.said reply))
  | greeted (reply : String) : Verb.fromLine line = .ehlo ∨ Verb.fromLine line = .helo →
      Received lib line s (.stay ((s.greeted lib line).said reply))
  | mail (params : MailParams) : Verb.fromLine line = .mail →
      parseCommand lib (terminated line) = .ok (.mail params) → s.submissionGate = none →
      s.data.mailFrom = none → s.stage ≠ .connected →
      Received lib line s (.stay
        ((s.withSender ⟨params.address, params.smtputf8⟩).said senderOk))
  | rcpt (params : RcptParams) : Verb.fromLine line = .rcpt →
      parseCommand lib (terminated line) = .ok (.rcpt params) → s.submissionGate = none →
      s.data.mailFrom.isSome = true →
      (Session.isRemote s.localDomains (Session.recipientPath params).address = true →
        s.data.authenticated = true) →
      Received lib line s (.stay
        ((s.withRecipient (Session.recipientPath params).address).said recipientOk))
  | data (body rest : Bytes) : Verb.fromLine line = .data → s.submissionGate = none →
      s.stage = .rcpt → readData s.wire.failure s.wire.incoming = .ok (some body, rest) →
      Received lib line s (((s.said dataReady).withIncoming rest).handOver body)
  | dataTooLarge (rest : Bytes) : Verb.fromLine line = .data →
      Received lib line s (.stay
        (((s.said dataReady).withIncoming rest).afterMessage.said tooLargeReply))
  | bdat (n : ℕ) (isLast : Bool) (step : Step) : Verb.fromLine line = .bdat →
      parseCommand lib (terminated line) = .ok (.bdat n isLast) → s.submissionGate = none →
      ChunkReceived s n isLast step → Received lib line s step
  | login (wire : Wire) (reply : String) : Verb.fromLine line = .auth → reply ≠ successReply →
      Received lib line s (.stay ({ s with wire := wire }.said reply))
  | loggedIn (wire : Wire) (account : Account) : Verb.fromLine line = .auth →
      Received lib line s (.stay
        ((({ s with wire := wire } : Session).withAccount account).said successReply))
  | reset : Verb.fromLine line = .rset → Received lib line s (.stay (s.reset.said rsetReply))
  | leave (flow : Flow) (s' : Session) : Received lib line s (.leave flow s')

namespace Session
variable (lib : Libraries) (answers : Answers) (line : Bytes) (s : Session)

theorem submissionGate_eq_some {s : Session} (h : s.submissionGate = some reply) :
    reply = authRequired := by
  unfold submissionGate guardSubmission at h
  split_ifs at h
  cases h
  rfl

theorem submissionGate_eq_none {s : Session} :
    s.submissionGate = none ↔ (s.mode = .submission → s.data.authenticated = true) := by
  unfold submissionGate guardSubmission
  by_cases hmode : s.mode = .submission <;> cases s.data.authenticated <;> simp

theorem returns_checkSender (declared : String) :
    Returns (fun gate => gate = .proceed ∨ gate = .reject fromNotOwned)
      (s.checkSender declared) := by
  have hguard : ∀ owned, guardFrom declared owned = .proceed ∨
      guardFrom declared owned = .reject fromNotOwned := by
    intro owned
    unfold guardFrom
    split_ifs <;> simp
  unfold checkSender
  split
  · exact .ret (.inl rfl)
  · exact (Returns.any _).bind fun owned _ => .ret (hguard owned)

theorem returns_classifyRecipient (address : String) :
    Returns (fun recipient => isRemote s.localDomains address = true → recipient = .remote)
      (s.classifyRecipient address) := by
  unfold classifyRecipient
  split
  · exact .ret fun _ => rfl
  next hlocal =>
    split
    · exact .ret fun h => absurd h hlocal
    · refine (Returns.any _).bind fun resolution _ => ?_
      split <;> exact .ret fun h => absurd h hlocal

variable {lib answers line s}

theorem returns_refused {verb : Verb} (hverb : Verb.fromLine line = verb)
    (h : successOf verb ≠ some reply ∧ verb.resets = false) :
    Returns (Received lib line s) (s.answer reply) := by
  subst hverb
  exact returns_answer (.refused reply h.1 h.2)

theorem returns_gated {verb : Verb} (hverb : Verb.fromLine line = verb)
    (hgate : s.submissionGate = some reply)
    (h : successOf verb ≠ some authRequired ∧ verb.resets = false) :
    Returns (Received lib line s) (s.answer reply) :=
  returns_refused hverb (submissionGate_eq_some hgate ▸ h)

theorem returns_onMail (hverb : Verb.fromLine line = .mail) :
    Returns (Received lib line s) (s.onMail lib line) := by
  unfold onMail
  split
  next reply hgate => exact returns_gated hverb hgate (by decide)
  next hgate =>
    split
    next params hparse =>
      refine (returns_checkSender s params.address).bind fun gate hgate' => ?_
      rcases hgate' with rfl | rfl
      · simp only [acceptSender, mailReply]
        split_ifs with hgreeted hpending hlarge
        · exact returns_refused hverb (by decide)
        · exact returns_refused hverb (by decide)
        · exact returns_refused hverb (by decide)
        · refine returns_answer (.mail params hverb hparse hgate ?_ ?_)
          · simpa using hpending
          · simpa using hgreeted
      · exact returns_refused hverb (by decide)
    next => exact returns_refused hverb (by decide)

theorem returns_onRcpt (hverb : Verb.fromLine line = .rcpt) :
    Returns (Received lib line s) (s.onRcpt lib answers line) := by
  unfold onRcpt
  split
  next reply hgate => exact returns_gated hverb hgate (by decide)
  next hgate =>
    split
    next params hparse =>
      refine (returns_classifyRecipient s _).bind fun recipient hremote => ?_
      unfold acceptRecipient
      split
      next reply hreply =>
        refine returns_refused hverb ⟨?_, rfl⟩
        simpa [successOf] using Ne.symm (rcptReply_eq_reject hreply)
      next address reply hreply =>
        obtain ⟨hpending, rfl, rfl, hauth⟩ := rcptReply_eq_accept hreply
        unfold greylistDefers
        split
        next reply hdefer =>
          split_ifs at hdefer
          cases hdefer
          exact returns_refused hverb (by decide)
        next =>
          exact returns_answer (.rcpt params hverb hparse hgate hpending fun h => hauth (hremote h))
    next => exact returns_refused hverb (by decide)

theorem returns_onData (hverb : Verb.fromLine line = .data) :
    Returns (Received lib line s) s.onData := by
  unfold onData
  split
  next reply hgate => exact returns_gated hverb hgate (by decide)
  next hgate =>
    by_cases hstage : s.stage = .rcpt
    · simp only [hstage]
      refine returns_checked fun s₁ hs₁ => ?_
      obtain rfl := write_eq_ok hs₁
      refine returns_checked fun read hread => ?_
      obtain ⟨body, s₂⟩ := read
      obtain ⟨rest, hdata, rfl⟩ := readData_eq_ok hread
      cases body with
      | some body => exact .ret (.data body rest hverb hgate hstage hdata)
      | none => exact returns_answer (.dataTooLarge rest hverb)
    · simp only [hstage]
      exact returns_refused hverb (by decide)

theorem returns_disposeChunk {Q : Step → Prop} {n : ℕ} (hdrain : n ≤ s.wire.incoming.length →
      Q (.stay ((s.withIncoming (s.wire.incoming.drop n)).said reply)))
    (hclose : ∀ s', Q (.leave .close s')) : Returns Q (s.disposeChunk n reply) := by
  unfold disposeChunk chunkDisposal
  split_ifs
  · exact returns_checked fun s' _ => .ret (hclose s')
  · refine returns_checked fun s' hs' => ?_
    obtain ⟨hn, rfl⟩ := drainChunk_eq_ok hs'
    exact returns_answer (hdrain hn)

theorem returns_onBdat {n : ℕ} {isLast : Bool}
    (hparse : parseCommand lib (terminated line) = .ok (.bdat n isLast))
    (hgate : s.submissionGate = none) :
    Returns (ChunkReceived s n isLast) (s.onBdat lib line) := by
  simp only [onBdat, hgate, hparse, bdatReply]
  by_cases hstage : s.stage = .rcpt
  · simp only [hstage, decide_true, Bool.not_true, Bool.false_eq_true, if_false]
    split_ifs
    · exact returns_disposeChunk (fun hn => .tooLarge hn) .closed
    · refine returns_checked fun read hread => ?_
      obtain ⟨chunk, s'⟩ := read
      obtain ⟨hn, rfl, rfl⟩ := readChunk_eq_ok hread
      have hmessage : ((s.withIncoming (s.wire.incoming.drop n)).chunks.getD
          (.new maxMessageSize)).message = s.collected := by
        change (s.chunks.getD _).message = s.chunks.elim [] ChunkReceiver.message
        cases s.chunks <;> rfl
      simp only [storeChunk, ChunkReceiver.pushChunk, hmessage]
      split_ifs with hlarge hlast
      · exact returns_answer (.tooLarge hn)
      · exact .ret (.last hn hstage hlast)
      · exact returns_answer (.stored _ hn hstage)
  · simp only [hstage]
    exact returns_disposeChunk (fun hn => .refused hn hstage) .closed

/-! ### AUTH -/

def Refuses (step : SaslStep) : Prop := ∀ bytes, step = .reply bytes → bytes ≠ successReply

theorem refuses_advance (exchange : SaslExchange) (response : String) :
    Refuses (exchange.advance lib response).1 := by
  unfold SaslExchange.advance Refuses
  repeat' split
  all_goals
    rintro bytes h
    cases h
    try decide

theorem refuses_begin (mechanism : AuthMechanism) (isTls authenticated : Bool)
    (initialResponse : String) :
    Refuses (SaslExchange.begin lib mechanism isTls authenticated initialResponse).1 := by
  have hstart : ∀ (exchange : SaslExchange) challenge,
      Refuses (exchange.start lib challenge initialResponse).1 := by
    intro exchange challenge
    unfold SaslExchange.start
    split
    · rintro bytes h
      cases h
    · exact refuses_advance _ _
  unfold SaslExchange.begin
  split_ifs
  · rintro bytes ⟨⟩
    decide
  · rintro bytes ⟨⟩
    decide
  · cases mechanism with
    | plain => exact hstart _ _
    | login => exact hstart _ _
    | unsupported =>
      rintro bytes ⟨⟩
      decide

theorem readAuthResponse_eq_ok {s s' : Session} {response : Option String}
    (h : s.readAuthResponse lib = .ok (response, s')) : ∃ wire, s' = { s with wire := wire } := by
  unfold readAuthResponse readLine at h
  split at h
  · cases h
  · cases h
  next line s₁ hline =>
    cases h
    split at hline
    · cases hline
    · cases hline
      exact ⟨_, rfl⟩

theorem returns_runAuth (hverb : Verb.fromLine line = .auth) (n : ℕ)
    (step : SaslStep × SaslExchange) (hstep : Refuses step.1) (wire : Wire) :
    Returns (Received lib line s) (runAuth lib answers n step { s with wire := wire }) := by
  induction n generalizing step wire with
  | zero => exact .fail (S := sig) _
  | succ n ih =>
    obtain ⟨step, exchange⟩ := step
    cases step with
    | challenge bytes =>
      refine returns_checked fun s₁ hs₁ => ?_
      obtain rfl := write_eq_ok hs₁
      refine returns_checked fun read hread => ?_
      obtain ⟨response, s₂⟩ := read
      obtain ⟨wire', rfl⟩ := readAuthResponse_eq_ok hread
      cases response with
      | none => exact returns_answer (.login wire' authCancelled hverb (by decide))
      | some response => exact ih _ (refuses_advance exchange response) wire'
    | reply bytes => exact returns_answer (.login wire bytes hverb (hstep bytes rfl))
    | resolved credentials =>
      refine returns_checked fun attempt _ => ?_
      cases attempt with
      | granted account => exact returns_answer (.loggedIn wire account hverb)
      | denied => exact returns_answer (.login wire _ hverb (by decide))
      | throttled => exact returns_answer (.login wire _ hverb (by decide))

theorem returns_onAuth (hverb : Verb.fromLine line = .auth) :
    Returns (Received lib line s) (s.onAuth lib answers line) := by
  unfold onAuth
  split
  next mechanism initialResponse hparse =>
    exact returns_runAuth hverb _ _ (refuses_begin _ _ _ _) s.wire
  next => exact returns_refused hverb (by decide)

theorem returns_receive : Returns (Received lib line s) (s.receive lib answers line) := by
  unfold receive
  split
  next h => exact returns_answer (.greeted _ (.inl h))
  next h => exact returns_answer (.greeted _ (.inr h))
  next h => exact returns_onMail h
  next h => exact returns_onRcpt h
  next h => exact returns_onData h
  next h =>
    cases hgate : s.submissionGate with
    | some reply =>
      simp only [onBdat, hgate]
      exact returns_gated h hgate (by decide)
    | none =>
      cases hparse : parseCommand lib (terminated line) with
      | error e =>
        simp only [onBdat, hgate, hparse]
        exact returns_refused h (by decide)
      | ok command =>
        cases command with
        | bdat n isLast =>
          exact (returns_onBdat hparse hgate).mono fun step => .bdat n isLast step h hparse hgate
        | _ =>
          simp only [onBdat, hgate, hparse]
          exact returns_refused h (by decide)
  next h =>
    refine returns_checked fun s' hs' => .ret ?_
    obtain rfl := write_eq_ok hs'
    split
    · exact .leave _ _
    · exact .refused _ (by simp [h, successOf]) (by simp [h, Verb.resets])
  next h => exact returns_onAuth h
  next h => exact returns_answer (.reset h)
  next h => exact returns_refused h (by decide)
  next h => exact returns_checked fun s' _ => .ret (.leave _ s')
  next h => exact returns_refused h (by decide)

/-! ### Complete messages -/

/-- The reply is all that the peer learns, and the rest of the session stays. -/
def Judged (s s' : Session) : Prop :=
  ∃ accepted dnsbl, s' = { s with accepted := accepted, dnsbl := dnsbl }

theorem returns_acceptInbound (message : Message) :
    Returns (fun r => s.Judged r.2) (s.acceptInbound answers message) := by
  unfold acceptInbound
  split
  · exact .ret ⟨_, _, rfl⟩
  · split
    · exact .ret ⟨_, _, rfl⟩
    · dsimp only
      split
      · exact .ret ⟨_, _, rfl⟩
      · exact .ret ⟨_, _, rfl⟩
      · refine (Returns.any _).bind fun now _ => (Returns.any _).bind fun reply _ => ?_
        split <;> exact .ret ⟨_, _, rfl⟩

theorem returns_acceptSubmission (message : Message) :
    Returns (fun r => s.Judged r.2) (s.acceptSubmission lib answers message) := by
  unfold acceptSubmission
  split
  · refine (Returns.any _).bind fun now _ => ?_
    split
    · exact .ret ⟨_, _, rfl⟩
    · refine (Returns.any _).bind fun now _ => (Returns.any _).bind fun r _ => ?_
      split <;> exact .ret ⟨_, _, rfl⟩
  · exact .ret ⟨_, _, rfl⟩

theorem returns_conclude (message : Message) :
    Returns (fun s' => ∃ s₁ reply, s.Judged s₁ ∧ s' = s₁.afterMessage.said reply)
      (s.conclude lib answers message) := by
  have haccept : Returns (fun r => s.Judged r.2) (s.acceptBody lib answers message) := by
    unfold acceptBody
    split
    · exact returns_acceptSubmission message
    · exact returns_acceptInbound message
  exact haccept.bind fun r hr => returns_checked_last fun s' hs' =>
    ⟨r.2, r.1, hr, write_eq_ok hs'⟩

end Session
end IrixMail.Smtp

import IrixMail.Smtp.QueueSteps

/-!
# What becomes of a queued message

A message is passed over again and again until none of its recipients waits. In
every pass recipients that wait may be settled, those that are settled stay as
they are, and those that the pass has bounced are reported to the sender in one
message. The record is gone when, and only when, nobody waits.
-/

namespace IrixMail.Smtp
open Library Prog Store Mail

/-! ## Rounds -/

/-- A pass over a record, with what it found and what it made of it. -/
structure Round where
  out : OutboundDelivery
  now : ℕ
  start : World
  before : QueuedMessage
  after : QueuedMessage

def QueuedMessage.BouncedAt (m : QueuedMessage) (j : ℕ) : Prop :=
  ∃ r, m.recipients[j]? = some r ∧ r.status.isBounced = true

def loaded (id : ℕ) (m : QueuedMessage) : Trace sig := [⟨.get (.queue id), some m⟩]

theorem mem_recordsRead_loaded (id : ℕ) (m : QueuedMessage) : (id, m) ∈ recordsRead (loaded id m) :=
  List.mem_flatMap.2 ⟨_, List.mem_cons_self, List.mem_cons_self⟩

theorem not_attempted_loaded (id : ℕ) (m : QueuedMessage) (rcpt : RecipientRef) :
    ¬ Attempted rcpt (loaded id m) := by
  rintro ⟨outcome, target, here, hmem⟩
  simp [loaded] at hmem

theorem Advances.refl (a : List QueueRecipient) : Advances a a := ⟨rfl, fun _ _ h _ => h⟩

namespace Round
variable (digest : Digest) (id : ℕ) (r : Round)

def finish : World := ((processMessage r.out id r.before r.now).run (machine digest) r.start).2

/-- The record was stored with somebody waiting, and the pass has come to its end, or a panic
has cut it short and left the record as it was. -/
structure Ran : Prop where
  stored : r.start.records.lookup (.queue id) = some r.before
  waiting : r.before.isComplete = false
  treated :
    let result := ((treatMessage r.out id r.before r.now).run (machine digest) r.start).1
    result = .ok r.after ∨ result = .error .panicked ∧ r.after = r.before ∧
      (r.finish digest id).records.lookup (.queue id) = some r.before

def trace : Trace sig :=
  (treatMessage r.out id r.before r.now).logged (machine digest) r.start
    (loaded id r.before)

/-- The pass has queued one report, to the return path, and it names the recipient at place
`j`, which the pass has bounced, and the reason. -/
def Lists (j : ℕ) : Prop :=
  r.before.PendingAt j ∧ ∃ rcpt reason dsn report,
    r.after.recipients[j]? = some rcpt ∧ rcpt.status = .bounced reason ∧
    reportsIn (r.trace digest id) = [(dsn, report)] ∧
    report.recipients.map QueueRecipient.address = [r.before.returnPath] ∧
    ReportsFailure dsn (rcpt.address, reason)

variable {digest id r}

theorem bouncedBy_self (m : QueuedMessage) : bouncedBy m m = [] := by
  simpa using bouncedBy_map (f := id) m not_pending_and_bounced

theorem Ran.steps (h : r.Ran digest id) :
    Extends (Toward (fun ref => ref.queueId = id ∧ r.before.PendingAt ref.index) fun _ => True)
        (loaded id r.before) (r.trace digest id) ∧
      Settles r.out r.now r.before r.after (loaded id r.before) (r.trace digest id) := by
  have hsteps := Heeds.obeys (settling_treatMessage r.out r.now (mem_recordsRead_loaded id r.before)
    h.waiting fun _ j => not_attempted_loaded id r.before ⟨id, j⟩)
  rcases h.treated with htreated | ⟨hpanic, hsame, -⟩
  · exact (hsteps.of_run (machine digest) htreated).imp_right And.left
  · have htrace := hsteps.of_run_error (machine digest) hpanic
    refine ⟨unreported htrace, ?_⟩
    rw [hsame]
    refine ⟨rfl, .refl _, [], ?_, reportsIn_of_extends htrace⟩
    rw [Owes, if_pos (.inr (bouncedBy_self _))]

variable {j : ℕ}

theorem Ran.pending_of_attempted (h : r.Ran digest id)
    (hj : Attempted ⟨id, j⟩ (r.trace digest id)) : r.before.PendingAt j := by
  by_contra hpending
  exact not_attempted_loaded id r.before _ (hj.of_extends h.steps.1 fun hP => hpending hP.2)

theorem lookup_commit (w : World) (m : QueuedMessage) :
    ((commit id m).run (machine digest) w).2.records.lookup (.queue id) =
      if m.isComplete then none else some m := by
  unfold commit
  split
  · exact AList.lookup_erase _ _
  · exact AList.lookup_insert _

theorem Ran.lookup_finish (h : r.Ran digest id) :
    (r.finish digest id).records.lookup (.queue id) =
      if r.after.isComplete then none else some r.after := by
  rcases h.treated with htreated | ⟨-, hsame, hkept⟩
  · unfold finish
    rw [processMessage_eq, run_bind]
    generalize (treatMessage r.out id r.before r.now).run (machine digest) r.start = run at htreated
    obtain ⟨_ | m, w⟩ := run
    · cases htreated
    · cases htreated
      exact lookup_commit w r.after
  · rw [hkept, hsame, h.waiting]
    rfl

theorem Ran.lists (h : r.Ran digest id) (hpath : r.before.returnPath ≠ "")
    (hpending : r.before.PendingAt j) (hbounced : r.after.BouncedAt j) : r.Lists digest id j := by
  obtain ⟨rcpt, hrcpt, hstatus⟩ := hbounced
  have hmem : rcpt ∈ bouncedBy r.before r.after := by
    obtain ⟨r₀, hr₀, hwaits⟩ := hpending
    have hzip : (rcpt, true) ∈ r.after.recipients.zip
        (r.before.recipients.map fun r => r.status.isPending) :=
      List.mem_of_getElem? (List.getElem?_zip_eq_some.2 ⟨hrcpt, by simp [hr₀, hwaits]⟩)
    exact List.mem_map.2 ⟨_, List.mem_filter.2 ⟨hzip, by simp [hstatus]⟩, rfl⟩
  obtain ⟨reports, howes, hreports⟩ := h.steps.2.reports
  have howed : ¬ (r.before.returnPath = "" ∨ bouncedBy r.before r.after = []) :=
    not_or.2 ⟨hpath, List.ne_nil_of_mem hmem⟩
  rw [Owes, if_neg howed] at howes
  obtain ⟨original, dsn, hash, hdsn, rfl⟩ := howes
  cases hreason : rcpt.status with
  | bounced reason =>
    have hfailure : failureOf rcpt = some (rcpt.address, reason) := by simp [failureOf, hreason]
    exact ⟨hpending, rcpt, reason, dsn, _, hrcpt, hreason, hreports, rfl,
      reportsFailure_of_buildDsn hdsn (List.mem_filterMap.2 ⟨rcpt, hmem, hfailure⟩)⟩
  | _ =>
    rw [hreason] at hstatus
    cases hstatus

theorem Ran.no_report (h : r.Ran digest id) (hpath : r.before.returnPath = "") :
    reportsIn (r.trace digest id) = [] := by
  obtain ⟨reports, howes, hreports⟩ := h.steps.2.reports
  rw [Owes, if_pos (.inl hpath)] at howes
  rw [hreports, howes]
  rfl

end Round

/-! ## Sequences of rounds -/

theorem Advances.trans {a b c : List QueueRecipient} (h : Advances a b) (h' : Advances b c) :
    Advances a c :=
  ⟨h'.length.trans h.length, fun j r hr hsettled =>
    h'.settled j r (h.settled j r hr hsettled) hsettled⟩

/-- Passes over one record at later and later times, between which nothing else
writes the record. -/
structure Rounds (digest : Digest) (id : ℕ) (rounds : List Round) : Prop where
  ran : ∀ r ∈ rounds, r.Ran digest id
  chain : rounds.IsChain fun r r' => r.now < r'.now ∧
    r'.start.records.lookup (.queue id) = (r.finish digest id).records.lookup (.queue id)

section Rounds
variable {digest : Digest} {id : ℕ} {rounds : List Round}

theorem Round.Ran.before_eq {r r' : Round} (h : r.Ran digest id) (h' : r'.Ran digest id)
    (hstart : r'.start.records.lookup (.queue id) = (r.finish digest id).records.lookup (.queue id)) :
    r'.before = r.after := by
  rw [h'.stored, h.lookup_finish] at hstart
  split at hstart
  · cases hstart
  · exact Option.some.inj hstart

/-- A later round starts from recipients as settled as the earlier one left them. -/
def Later (r r' : Round) : Prop :=
  Advances r.after.recipients r'.before.recipients ∧
    Advances r'.before.recipients r'.after.recipients ∧ r'.before.returnPath = r.before.returnPath

theorem Rounds.tail {r : Round} (h : Rounds digest id (r :: rounds)) : Rounds digest id rounds :=
  ⟨fun r' hr' => h.ran r' (List.mem_cons_of_mem r hr'), h.chain.tail⟩

theorem Rounds.pairwise (h : Rounds digest id rounds) : rounds.Pairwise Later := by
  have htrans : IsTrans Round Later := ⟨fun r r' r'' h h' =>
    ⟨(h.1.trans h.2.1).trans h'.1, h'.2.1, h'.2.2.trans h.2.2⟩⟩
  refine List.isChain_iff_pairwise.1 (h.chain.imp_of_mem_imp fun r r' hr hr' hnext => ?_)
  have hran := h.ran r hr
  have hran' := h.ran r' hr'
  have hbefore := hran.before_eq hran' hnext.2
  refine ⟨?_, hran'.steps.2.advances, ?_⟩
  · rw [hbefore]
    exact .refl _
  · rw [hbefore]
    exact hran.steps.2.path

variable {a b : QueuedMessage} {j : ℕ}

theorem not_pendingAt_of_advances (h : Advances a.recipients b.recipients)
    (ha : a.SettledAt j) : ¬ b.PendingAt j := by
  rintro ⟨r, hr, hpending⟩
  obtain ⟨r', hr', hsettled⟩ := ha
  rw [h.settled j r' hr' hsettled] at hr
  cases hr
  rw [hpending] at hsettled
  cases hsettled

theorem settledAt_of_bouncedAt {m : QueuedMessage} (h : m.BouncedAt j) : m.SettledAt j := by
  obtain ⟨r, hr, hbounced⟩ := h
  refine ⟨r, hr, ?_⟩
  cases hstatus : r.status with
  | bounced reason => rfl
  | _ =>
    rw [hstatus] at hbounced
    cases hbounced

theorem Round.Lists.bouncedAt {r : Round} (h : r.Lists digest id j) : r.after.BouncedAt j := by
  obtain ⟨-, rcpt, reason, -, -, hrcpt, hstatus, -⟩ := h
  exact ⟨rcpt, hrcpt, by rw [hstatus]; rfl⟩

theorem Advances.exists_of_pendingAt (h : Advances a.recipients b.recipients) (ha : a.PendingAt j) :
    ∃ r, b.recipients[j]? = some r := by
  obtain ⟨r, hr, -⟩ := ha
  obtain ⟨hlt, -⟩ := List.getElem?_eq_some_iff.1 hr
  exact ⟨_, List.getElem?_eq_getElem (h.length ▸ hlt)⟩

theorem Rounds.lists_once (h : Rounds digest id rounds) (j : ℕ) :
    rounds.Pairwise fun r r' => r.Lists digest id j → ¬ r'.Lists digest id j := by
  refine h.pairwise.imp fun {r r'} hlater hlists hlists' => ?_
  exact not_pendingAt_of_advances hlater.1 (settledAt_of_bouncedAt hlists.bouncedAt) hlists'.1

theorem Rounds.exists_lists {first : Round} (h : Rounds digest id (first :: rounds))
    (hpath : first.before.returnPath ≠ "") (hpending : first.before.PendingAt j)
    {r : Round} (hr : r ∈ first :: rounds) (hbounced : r.after.BouncedAt j) :
    ∃ r' ∈ first :: rounds, r'.Lists digest id j := by
  induction rounds generalizing first with
  | nil =>
    obtain rfl := List.mem_singleton.1 hr
    exact ⟨r, hr, (h.ran r hr).lists hpath hpending hbounced⟩
  | cons next rest ih =>
    have hfirst := h.ran first List.mem_cons_self
    rcases List.mem_cons.1 hr with rfl | hr'
    · exact ⟨r, hr, hfirst.lists hpath hpending hbounced⟩
    · obtain ⟨rcpt, hrcpt⟩ := hfirst.steps.2.advances.exists_of_pendingAt hpending
      by_cases hwaits : rcpt.status.isPending = true
      · have hnext := (List.isChain_cons_cons.1 h.chain).1
        have hbefore := hfirst.before_eq (h.ran next (by simp)) hnext.2
        obtain ⟨r', hmem, hlists⟩ := ih h.tail
          (by rwa [hbefore, hfirst.steps.2.path]) (by rw [hbefore]; exact ⟨rcpt, hrcpt, hwaits⟩) hr'
        exact ⟨r', List.mem_cons_of_mem first hmem, hlists⟩
      · -- settled by the first round, it stays as it is
        have hlater := (List.pairwise_cons.1 h.pairwise).1 r hr'
        have hsame := (hlater.1.trans hlater.2.1).settled j rcpt hrcpt (by simpa using hwaits)
        obtain ⟨rcpt', hrcpt', hstatus⟩ := hbounced
        rw [hsame] at hrcpt'
        cases hrcpt'
        exact ⟨first, List.mem_cons_self, hfirst.lists hpath hpending ⟨rcpt, hrcpt, hstatus⟩⟩

end Rounds

/-! ## A delivery, and a refusal at the second try -/

def servedAndRefused : Enqueue :=
  ⟨0, "carol@example.com", [("a@example.org", .attempts 9), ("b@example.org", .attempts 9)], 0⟩

/-- The message is queued; the first recipient is going to be served, the second to
be put off and then refused. -/
def queuedForTwo : World :=
  ((enqueue [65] servedAndRefused).run (machine id)
    { World.empty (.new 0) 0 with
      network := [.answered .delivered, .unresolvable, .answered (.bounced "550 no such user")] }).2

def waitingRecipient (address : String) : QueueRecipient := .new address 0 (.attempts 9)

def firstRound : Round where
  out := .plain
  now := 0
  start := queuedForTwo
  before := servedAndRefused.messageOf [65] [65]
  after :=
    { servedAndRefused.messageOf [65] [65] with
      recipients :=
        [{ waitingRecipient "a@example.org" with status := .delivered },
          { waitingRecipient "b@example.org" with
            status := .deferred "no reachable mail exchange", retry := ⟨1, 300⟩ }] }

def secondRound : Round where
  out := .plain
  now := 1000
  start := firstRound.finish id 1
  before := firstRound.after
  after :=
    { firstRound.after with
      recipients :=
        [{ waitingRecipient "a@example.org" with status := .delivered },
          { waitingRecipient "b@example.org" with
            status := .bounced "550 no such user", retry := ⟨1, 300⟩ }] }

theorem ran_firstRound : firstRound.Ran id 1 := ⟨by rfl, by decide, .inl (by rfl)⟩

theorem ran_secondRound : secondRound.Ran id 1 := ⟨by rfl, by decide, .inl (by rfl)⟩

theorem rounds_served_refused : Rounds id 1 [firstRound, secondRound] := by
  refine ⟨fun r hr => ?_, ?_⟩
  · rcases List.mem_pair.1 hr with rfl | rfl
    · exact ran_firstRound
    · exact ran_secondRound
  · exact List.isChain_pair.2 ⟨by decide, rfl⟩

end IrixMail.Smtp

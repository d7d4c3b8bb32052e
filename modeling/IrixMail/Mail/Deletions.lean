import IrixMail.Mail.Ledger

/-!
# Concurrent deletions of one message

Any number of calls delete the same document. A call that has loaded the message
commits its batch whether the message is still there or not, so two calls that
both load it take it off the counters twice. When every batch finds the message
as its call loaded it, the message is taken off once.
-/

namespace IrixMail.Mail
open Library Prog Store WriteOp

variable (env : Env)

theorem yields_deleteMessage (a d : ℕ) :
    Yields (fun _ => True) (fun _ => True) (deleteMessage env a d) := by
  have hquiet : ∀ c, Quiet c → True := fun _ _ => trivial
  refine leadsTo_exec trivial fun r => ?_
  cases r with
  | none => exact Yields.ret trivial
  | some data =>
    refine leadsTo_exec trivial fun held => ?_
    have hlinked := (yields_removalMetadataOps env a d held).weaken hquiet
    have hvanished := (yields_pushVanishedOps a [] data.mailboxes).weaken hquiet
    have hdraw := (yields_allocateChangeId a .email).weaken hquiet
    have hchange : Yields (fun _ => True) (fun _ => True)
        (ChangeLog.recordOp a .email d .delete) := Yields.bind hdraw fun _ _ => .ret trivial
    refine Yields.bind hlinked fun linked _ => Yields.bind hvanished fun vanished _ => ?_
    refine Yields.bind hchange fun change _ => ?_
    refine leadsTo_exec trivial fun _ => ?_
    cases held with
    | none => exact Yields.ret trivial
    | some m =>
      refine LeadsTo.call trivial fun _ => ?_
      exact Yields.ret trivial

theorem yields_delete (a d : ℕ) :
    Yields (fun _ => True) (fun _ => True) ((MailOp.delete a d).program env) :=
  (yields_deleteMessage env a d).bind fun _ _ => .ret trivial

section Runs
variable {ι : Type} [DecidableEq ι] (a d : ℕ)

def deletions (w : World) : Pool sig World ι Reply :=
  Pool.start w fun _ => (MailOp.delete a d).program env

/-- The answer neither commits anything nor misses the message. -/
def Harmless (x : Access) : Prop := ¬ Commit x ∧ x ≠ ⟨.get (.data a d), none⟩

/-- The message records during deletions: untouched, or gone. -/
structure Deleting (w : World) (past : Past ι) (s : Records) : Prop where
  others : ∀ l, (l.kind = .data ∨ l.kind = .metadata) → l ≠ .data a d → l ≠ .metadata a d →
    s.lookup l = w.records.lookup l
  phase : ((∀ e ∈ past, Harmless a d ⟨e.cmd, e.res⟩) ∧
      s.lookup (.data a d) = w.records.lookup (.data a d) ∧
      s.lookup (.metadata a d) = w.records.lookup (.metadata a d)) ∨ Vacant s a d

def FindsLoaded (e : Event sig World ι) (past : Past ι) : Prop :=
  isBatch e.cmd → Unchanged (· = .data a d) e past ∧ Unchanged (· = .metadata a d) e past

instance (e : Event sig World ι) (past : Past ι) :
    Decidable (FindsLoaded a d e past) :=
  inferInstanceAs (Decidable (isBatch e.cmd → _ ∧ _))

/-- The message is taken off every counter once, and what is left is referenced. -/
structure CountedOnce (w : World) (p : Pool sig World ι Reply) : Prop where
  atMostOnce : ∀ c, countsMessages c → w.records.counter c -
    tally a (w.records.lookup (.data a d)) (w.records.lookup (.metadata a d)) c ≤
      p.state.records.counter c
  exactlyOnce : p.Finished → ∀ c, countsMessages c → p.state.records.counter c =
    w.records.counter c -
      tally a (w.records.lookup (.data a d)) (w.records.lookup (.metadata a d)) c
  referenced : Accounted w.records → ∀ b e m,
    p.state.records.lookup (.metadata b e) = some m →
      0 < p.state.records.counter (.refCount m.blobHash)

variable {a d env} {w : World} {past : Past ι}

theorem Deleting.step {e : Event sig World ι} {data : MessageData}
    (hstored : w.records.lookup (.data a d) = some data)
    (hres : e.res = (machine env.digest e.cmd e.before).1)
    (hallows : (MailOp.delete a d).Allows env (traceOf e.who past) e.cmd)
    (h : Deleting a d w past e.before.records) :
    Deleting a d w (e :: past) (machine env.digest e.cmd e.before).2.records := by
  obtain ⟨i, v, cmd, r⟩ := e
  -- a command that commits nothing leaves the phase
  have hkeep : ¬ Commit ⟨cmd, r⟩ → (∀ l, (l.kind = .data ∨ l.kind = .metadata) →
      (machine env.digest cmd v).2.records.lookup l = v.records.lookup l) →
      Deleting a d w (⟨i, v, cmd, r⟩ :: past) (machine env.digest cmd v).2.records := by
    intro hcommit hsame
    refine ⟨fun l hl hdata hmetadata => (hsame l hl).trans (h.others l hl hdata hmetadata), ?_⟩
    rw [hsame _ (.inl rfl), hsame _ (.inr rfl), Vacant, hsame _ (.inl rfl), hsame _ (.inr rfl)]
    refine h.phase.imp_left fun ⟨hharmless, hdata, hmetadata⟩ => ⟨fun e' he' => ?_, hdata, hmetadata⟩
    rcases List.mem_cons.1 he' with rfl | he'
    · refine ⟨hcommit, fun hmiss => ?_⟩
      cases hmiss
      exact absurd (hres.trans (hdata.trans hstored)) nofun
    · exact hharmless e' he'
  cases hallows with
  | quiet hquiet =>
    refine hkeep (not_commit_of_quiet hquiet) fun l hl => (calm_quiet env.digest hquiet v).lookup l ?_
    rintro b k n rfl
    simp at hl
  | put hfiles _ => exact hfiles.elim
  | file hfiles _ => exact hfiles.elim
  | remove hcommit =>
    obtain ⟨linked, vanished, n, hlinked, hvanished, -, rfl⟩ := hcommit.ops
    refine ⟨fun l hl hdata hmetadata => Eq.trans ?_ (h.others l hl hdata hmetadata),
      .inr ⟨lookup_removed_data hvanished, lookup_removed_metadata hvanished⟩⟩
    refine lookup_removed_of_ne (hlinked.unlinkOps env) hvanished ?_ hdata hmetadata
    rcases hl with hl | hl <;> rw [hl] <;> decide
  | @release _ _ _ _ held ops hcommit _ =>
    refine hkeep id fun l hl => @lookup_released v.records (some held) l ?_
    rcases hl with hl | hl <;> rw [hl] <;> decide

omit [DecidableEq ι] in
theorem Deleting.vacant {s : Records} (h : Deleting a d w past s) {t : Trace sig} {reply : Reply}
    (ht : ∀ x ∈ t, ∃ e ∈ past, (⟨e.cmd, e.res⟩ : Access) = x)
    (hreturns : (MailOp.delete a d).Returns t reply) : Vacant s a d := by
  refine h.phase.resolve_left fun ⟨hharmless, _, _⟩ => ?_
  have hall : ∀ x ∈ t, Harmless a d x := by
    intro x hx
    obtain ⟨e, he, rfl⟩ := ht x hx
    exact hharmless e he
  obtain ⟨found, -, hfound, hmissed, -⟩ := hreturns
  cases found with
  | false => exact (hall _ (hmissed rfl)).2 rfl
  | true => exact hfound.1 rfl fun x hx => (hall x hx).1

theorem Deleting.counter_eq {s : Records} (h : Deleting a d w past s) {c : CounterLoc}
    (hdrift : drift s c - owedAt past c = drift w.records c) :
    s.counter c = w.records.counter c -
      tally a (w.records.lookup (.data a d)) (w.records.lookup (.metadata a d)) c +
      tally a (s.lookup (.data a d)) (s.lookup (.metadata a d)) c + owedAt past c := by
  have hcounted := counted_update (s := w.records) (t := s) a d
    (fun b e hbe => h.others _ (.inl rfl) (by simpa using hbe) (by simp))
    (fun b e hbe => h.others _ (.inr rfl) (by simp) (by simpa using hbe)) c
  have hs := Mail.counter_eq s c
  have hw := Mail.counter_eq w.records c
  linarith

variable (env)

/-- In every interleaving of deletions of a stored message in which every batch
finds the message as its call loaded it, the message is counted off once. -/
theorem countedOnce_of_findsLoaded [Nonempty ι] (w : World) (data : MessageData)
    (hdata : w.records.lookup (.data a d) = some data) (is : List ι)
    (h : Always (FindsLoaded a d) ((deletions env a d w).run (machine env.digest) is).past) :
    CountedOnce a d w ((deletions env a d w).run (machine env.digest) is) := by
  have hrun := Pool.obeying_run (machine env.digest) w
    (fun _ : ι => (MailOp.delete a d).obeys_program env) is
  have hyields := Pool.yields_run (machine env.digest) (p := deletions (ι := ι) env a d w)
    (fun _ => yields_delete env a d) is
  change Pool.Obeying _ _ _ _ _ ((deletions env a d w).run (machine env.digest) is) at hrun
  generalize (deletions env a d w).run (machine env.digest) is = p at h hrun hyields
  -- the ledger, and the message records
  have hinv : (∀ c, countsMessages c → drift p.state.records c - owedAt p.past c =
      drift w.records c) ∧ Deleting a d w p.past p.state.records := by
    refine History.invariant (machine env.digest) hrun.history (hrun.events.and h)
      (I := fun past v => (∀ c, countsMessages c → drift v.records c - owedAt past c =
        drift w.records c) ∧ Deleting a d w past v.records) ?_ ?_
    · refine ⟨fun c _ => ?_, ⟨fun _ _ _ _ => rfl, .inl ⟨by simp, rfl, rfl⟩⟩⟩
      cases c <;> simp [owedAt, owed]
    · rintro e t hres - ⟨hallows, hfinds⟩ - ⟨hledger, hdeleting⟩
      refine ⟨fun c hc => ?_, hdeleting.step hdata hres hallows⟩
      exact (drift_step rfl hallows hfinds hc fun _ _ _ hfiles => hfiles.elim).trans (hledger c hc)
  obtain ⟨hledger, hdeleting⟩ := hinv
  constructor
  · intro c hc
    have hcounter := hdeleting.counter_eq (hledger c hc)
    have htally := tally_nonneg a (p.state.records.lookup (.data a d))
      (p.state.records.lookup (.metadata a d)) c
    have howed := owedAt_nonneg p.past c
    omega
  · intro hfinished c hc
    have hreturned : ∀ i, ∃ reply, (MailOp.delete a d).Returns (traceOf i p.past) reply := by
      intro i
      obtain ⟨reply, hthread, -⟩ := Pool.returned_of_ended (hyields i) (hfinished i)
      exact ⟨reply, hrun.returned (machine env.digest) hthread⟩
    obtain ⟨i⟩ := ‹Nonempty ι›
    obtain ⟨reply, hreturns⟩ := hreturned i
    obtain ⟨hgone, hgone'⟩ := hdeleting.vacant (fun x hx => by
      obtain ⟨e, he, -, hx⟩ := mem_traceOf.1 hx
      exact ⟨e, he, hx⟩) hreturns
    have hpaid : owed p.past = [] := owed_eq_nil fun j => by
      obtain ⟨_, _, _, _, _, howed⟩ := hreturned j
      exact howed
    have hcounter := hdeleting.counter_eq (hledger c hc)
    have howed : owedAt p.past c = 0 := by cases c <;> simp [owedAt, hpaid]
    rw [hgone, hgone', tally_none] at hcounter
    omega
  · intro haccounted b e m hm
    have hcounter := counter_eq p.state.records (.refCount m.blobHash)
    have hdrift := hledger (.refCount m.blobHash) rfl
    rw [haccounted.drift_eq rfl] at hdrift
    have hheld : 0 < counted p.state.records (.refCount m.blobHash) := holders_pos hm
    have howed := owedAt_nonneg p.past (.refCount m.blobHash)
    omega

end Runs

/-! ## Two deletions of a message whose body another message shares -/

def sharedBody : World :=
  (MailOp.deliver (.plain 8 1 [65])).perform .plain
    ((MailOp.deliver (.plain 7 1 [65])).perform .plain (.empty (.new 0) 0))

def twoDeletions (schedule : List Bool) : Pool sig World Bool Reply :=
  (deletions .plain 7 1 sharedBody).run (machine Env.plain.digest) schedule

def bothLoad : List Bool := List.replicate 7 false ++ List.replicate 9 true ++ [false, false]

set_option maxRecDepth 4000 in
/-- The message of account 8 is left with a reference count of zero. -/
theorem bothLoad_not_countedOnce :
    ((twoDeletions bothLoad).state.records.lookup (.metadata 8 1)).map MessageMetadata.blobHash =
      some (Env.plain.digest [65]) ∧
    (twoDeletions bothLoad).state.records.counter (.refCount (Env.plain.digest [65])) = 0 ∧
    ¬ CountedOnce 7 1 sharedBody (twoDeletions bothLoad) := by
  refine ⟨by decide, by decide, fun h => ?_⟩
  have honce := h.atMostOnce (.refCount (Env.plain.digest [65])) rfl
  exact absurd honce (by decide)

def oneAfterOther : List Bool := List.replicate 9 false ++ [true]

set_option maxRecDepth 4000 in
theorem countedOnce_oneAfterOther :
    Always (FindsLoaded 7 1) (twoDeletions oneAfterOther).past ∧
      CountedOnce 7 1 sharedBody (twoDeletions oneAfterOther) := by
  have hfinds : Always (FindsLoaded 7 1) (twoDeletions oneAfterOther).past := by decide
  have hdata : sharedBody.records.lookup (.data 7 1) =
      some ((sharedBody.records.lookup (.data 7 1)).get (by decide)) := by simp
  exact ⟨hfinds, countedOnce_of_findsLoaded .plain sharedBody _ hdata oneAfterOther hfinds⟩

end IrixMail.Mail

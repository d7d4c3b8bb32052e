import IrixMail.Smtp.QueueRuns

/-!
# At most one delivery, and removal for good

A pass works on the record that it has read and writes it back whatever has
happened to it since, and a pass that fails while it raises bounces writes nothing
back. Recipients are delivered to at most once, and a removed message stays
removed, in the runs in which no record is written over a change the writer has
not seen, and no message is tried while what was tried before is not on record.
-/

namespace IrixMail.Smtp
open Library Prog Store Mail

section Once
variable {ι : Type} [DecidableEq ι]

/-- The programs that have tried a recipient of the message and have not written
its record since. -/
def trying (id : ℕ) : Past ι → List ι
  | [] => []
  | e :: t =>
    match e.cmd with
    | .attempt rcpt _ _ => if rcpt.queueId = id then e.who :: trying id t else trying id t
    | .put (.queue id') _ => if id' = id then (trying id t).filter (· ≠ e.who) else trying id t
    | .delete (.queue id') => if id' = id then (trying id t).filter (· ≠ e.who) else trying id t
    | _ => trying id t

def removes (id : ℕ) : Cmd → Bool
  | .delete (.queue id') => id' == id
  | _ => false

variable {id : ℕ} {rcpt : RecipientRef} {i : ι}

theorem eq_delete_of_removes {c : Cmd} (h : removes id c = true) :
    c = .delete (.queue id) := by
  unfold removes at h
  split at h
  next id' => rw [show id' = id by simpa using h]
  next => cases h

/-- The message has been removed, by hand or by a pass. -/
def Removed (id : ℕ) (t : Past ι) : Prop := ∃ e ∈ t, removes id e.cmd = true

/-- A record is put over the one that was read; a recipient is tried when its
record is the one that was read and all earlier attempts are on record; only
messages that are or were there are removed; and there is a next id. -/
def Orderly (e : Event sig World ι) (t : Past ι) : Prop :=
  match e.cmd with
  | .put (.queue id) _ => UpToDate e.who id e.before t
  | .attempt rcpt _ _ =>
    UpToDate e.who rcpt.queueId e.before t ∧ ∀ j ∈ trying rcpt.queueId t, j = e.who
  | .delete (.queue id) => (∃ x ∈ recordsRead (traceOf e.who t), x.1 = id) ∨
      (e.before.records.lookup (.queue id)).isSome = true ∨ Removed id t
  | .addAndGet c _ => c = queueIds → e.before.records.counter queueIds + 1 < 2 ^ 32
  | _ => True

instance (id : ℕ) (t : Past ι) : Decidable (Removed id t) :=
  inferInstanceAs (Decidable (∃ e ∈ t, removes id e.cmd = true))

instance (e : Event sig World ι) (t : Past ι) : Decidable (Orderly e t) := by
  unfold Orderly
  obtain ⟨_, _, _ | ⟨⟨⟩, _⟩ | ⟨⟨⟩⟩ | _, _⟩ := e <;> infer_instance

def outcomeIn (rcpt : RecipientRef) : Access → Option DeliveryAttempt
  | ⟨.attempt rcpt' _ _, outcome⟩ => if rcpt' = rcpt then some outcome else none
  | _ => none

def outcomes (rcpt : RecipientRef) (t : Past ι) : List DeliveryAttempt :=
  t.filterMap fun e => outcomeIn rcpt ⟨e.cmd, e.res⟩

def Undelivered (e : Event sig World ι) (t : Past ι) : Prop :=
  match e.cmd with
  | .attempt rcpt _ _ => .delivered ∉ outcomes rcpt t
  | _ => True

instance (e : Event sig World ι) (t : Past ι) : Decidable (Undelivered e t) := by
  unfold Undelivered
  obtain ⟨_, _, ⟨⟩, _⟩ := e <;> infer_instance

/-! ## Attempts and their records -/

variable {t : Past ι}

theorem outcomeIn_eq_some {x : Access} {outcome : DeliveryAttempt}
    (h : outcomeIn rcpt x = some outcome) : ∃ target here, x = ⟨.attempt rcpt target here, outcome⟩ := by
  unfold outcomeIn at h
  split at h
  next rcpt' target here outcome' =>
    split at h
    next heq =>
      cases h
      exact ⟨target, here, by rw [heq]⟩
    next => cases h
  next => cases h

def DeliveredBy (i : ι) (rcpt : RecipientRef) (t : Past ι) : Prop :=
  Tried rcpt .delivered (traceOf i t)

theorem deliveredBy_of_mem_outcomes (h : .delivered ∈ outcomes rcpt t) :
    ∃ i, DeliveredBy i rcpt t := by
  obtain ⟨e, he, hout⟩ := List.mem_filterMap.1 h
  obtain ⟨target, here, heq⟩ := outcomeIn_eq_some hout
  exact ⟨e.who, target, here, mem_traceOf.2 ⟨e, he, rfl, heq⟩⟩

theorem DeliveredBy.of_cons {e : Event sig World ι}
    (h : DeliveredBy i rcpt (e :: t)) : DeliveredBy i rcpt t ∨
      (e.who = i ∧ ∃ target here, e.cmd = .attempt rcpt target here) := by
  obtain ⟨target, here, hmem⟩ := h
  obtain ⟨e', he', rfl, heq⟩ := mem_traceOf.1 hmem
  rcases List.mem_cons.1 he' with rfl | he'
  · exact .inr ⟨rfl, target, here, (Sigma.mk.inj heq).1⟩
  · exact .inl ⟨target, here, mem_traceOf.2 ⟨e', he', rfl, heq⟩⟩

theorem mem_trying_cons {e : Event sig World ι} (h : i ∈ trying id t)
    (hwrite : e.who = i → ¬ WritesQueue id e.cmd) : i ∈ trying id (e :: t) := by
  unfold trying
  split
  next =>
    split
    · exact List.mem_cons_of_mem _ h
    · exact h
  next id' m hcmd =>
    split
    next heq =>
      refine List.mem_filter.2 ⟨h, ?_⟩
      have hne : i ≠ e.who := fun hi => hwrite hi.symm (.inl ⟨m, by rw [hcmd, heq]⟩)
      simpa using hne
    next => exact h
  next id' hcmd =>
    split
    next heq =>
      refine List.mem_filter.2 ⟨h, ?_⟩
      have hne : i ≠ e.who := fun hi => hwrite hi.symm (.inr (by rw [hcmd, heq]))
      simpa using hne
    next => exact h
  next => exact h

/-! ## What runs keep -/

variable {digest : Digest} {w₀ : World}

structure Kept (w₀ : World) (t : Past ι) (w : World) : Prop where
  ids : IdsKept w₀ t w
  once : Always Undelivered t
  known : ∀ i rcpt, DeliveredBy i rcpt t → Known w₀ t rcpt.queueId
  recorded : ∀ i rcpt, DeliveredBy i rcpt t → i ∈ trying rcpt.queueId t ∨
    ∀ m, w.records.lookup (.queue rcpt.queueId) = some m → m.SettledAt rcpt.index
  removed : ∀ id, Removed id t → Known w₀ t id ∧ w.records.lookup (.queue id) = none

theorem writesBack_of_known {e : Event sig World ι} (h : IdsKept w₀ t e.before)
    (hstep : QueueStep (traceOf e.who t) e.cmd) (horderly : Orderly e t) {m : QueuedMessage} (hcmd : e.cmd = .put (.queue id) m) (hknown : Known w₀ t id) :
    ∃ read, e.before.records.lookup (.queue id) = some read ∧
      WritesBack (traceOf e.who t) id read m := by
  obtain ⟨i, w, c, r⟩ := e
  obtain rfl : c = .put (.queue id) m := hcmd
  rcases hstep with hnew | ⟨read, hread, hback⟩
  · exact absurd hknown (h.fresh hnew)
  · exact ⟨read, horderly _ hread rfl, hback⟩

theorem QueuedMessage.SettledAt.advances {read written : QueuedMessage} {j : ℕ}
    (h : Advances read.recipients written.recipients) (hj : read.SettledAt j) :
    written.SettledAt j := by
  obtain ⟨r, hr, hsettled⟩ := hj
  exact ⟨r, h.settled j r hr hsettled, hsettled⟩

section Step
variable {e : Event sig World ι} (hpast : History (machine digest) w₀ t e.before)
  (hstep : QueueStep (traceOf e.who t) e.cmd) (horderly : Orderly e t)
  (h : Kept w₀ t e.before)
include hpast hstep horderly h

theorem Kept.undelivered : Undelivered e t := by
  unfold Undelivered
  split
  next rcpt target here hcmd =>
    rw [hcmd] at hstep
    unfold Orderly at horderly
    rw [hcmd] at horderly
    obtain ⟨⟨read, hread, r, hr, hpending⟩, hnew⟩ := hstep
    obtain ⟨hcurrent, halone⟩ := horderly
    intro hmem
    obtain ⟨i, hi⟩ := deliveredBy_of_mem_outcomes hmem
    rcases h.recorded i rcpt hi with htrying | hsettled
    · -- what is not on record is one's own, and one tries nobody twice
      obtain rfl : i = e.who := halone i htrying
      exact hnew (uniqueRows_traceOf hpast e.who) ⟨_, hi⟩
    · obtain ⟨r', hr', hsettled⟩ := hsettled read (hcurrent _ hread rfl)
      rw [hr] at hr'
      cases hr'
      rw [hpending] at hsettled
      cases hsettled
  next => trivial

theorem Kept.recorded_step (i : ι) (rcpt : RecipientRef) (hi : DeliveredBy i rcpt t) :
    i ∈ trying rcpt.queueId (e :: t) ∨
      ∀ m, (machine digest e.cmd e.before).2.records.lookup (.queue rcpt.queueId) = some m →
        m.SettledAt rcpt.index := by
  by_cases hwrite : WritesQueue rcpt.queueId e.cmd
  · rcases hwrite with ⟨m, hcmd⟩ | hcmd
    · obtain ⟨read, hstored, hback⟩ :=
        writesBack_of_known h.ids hstep horderly hcmd (h.known i rcpt hi)
      have hafter : (machine digest e.cmd e.before).2.records.lookup (.queue rcpt.queueId) =
          some m := by
        rw [hcmd, lookup_put_queue, if_pos rfl]
      rw [hafter]
      by_cases hown : e.who = i
      · refine .inr fun m' hm' => ?_
        cases hm'
        subst hown
        exact hback.delivered (uniqueRows_traceOf hpast e.who) _ hi
      · rcases h.recorded i rcpt hi with htrying | hsettled
        · exact .inl (mem_trying_cons htrying fun hwho => absurd hwho hown)
        · refine .inr fun m' hm' => ?_
          cases hm'
          exact (hsettled read hstored).advances hback.advances
    · refine .inr fun m hm => ?_
      rw [hcmd, lookup_delete_queue, if_pos rfl] at hm
      cases hm
  · rw [lookup_queue_of_step hstep hwrite]
    rcases h.recorded i rcpt hi with htrying | hsettled
    · exact .inl (mem_trying_cons htrying fun _ => hwrite)
    · exact .inr hsettled

variable {id : ℕ}

omit hpast in
theorem Kept.removed_step (hid : Removed id t) :
    (machine digest e.cmd e.before).2.records.lookup (.queue id) = none := by
  obtain ⟨hknown, hnone⟩ := h.removed id hid
  by_cases hwrite : WritesQueue id e.cmd
  · rcases hwrite with ⟨m, hcmd⟩ | hcmd
    · obtain ⟨read, hstored, -⟩ := writesBack_of_known h.ids hstep horderly hcmd hknown
      rw [hnone] at hstored
      cases hstored
    · rw [hcmd, lookup_delete_queue, if_pos rfl]
  · rw [lookup_queue_of_step hstep hwrite, hnone]

omit hpast hstep in
theorem Kept.known_of_removes (hremoves : removes id e.cmd = true) : Known w₀ t id := by
  unfold Orderly at horderly
  rw [eq_delete_of_removes hremoves] at horderly
  rcases horderly with ⟨x, hx, rfl⟩ | hstored | hremoved
  · exact h.ids.known_of_read hx
  · obtain ⟨m, hm⟩ := Option.isSome_iff_exists.1 hstored
    exact h.ids.stored id m hm
  · exact (h.removed id hremoved).1

theorem Kept.step (hres : e.res = (machine digest e.cmd e.before).1) :
    Kept w₀ (e :: t) (machine digest e.cmd e.before).2 := by
  have hroom : e.cmd = .addAndGet queueIds 1 → e.before.records.counter queueIds + 1 < 2 ^ 32 := by
    intro hcmd
    unfold Orderly at horderly
    rw [hcmd] at horderly
    exact horderly rfl
  refine ⟨h.ids.step hres hstep hroom, ⟨h.undelivered hpast hstep horderly, h.once⟩,
    fun i rcpt hi => ?_, fun i rcpt hi => ?_, fun id hid => ?_⟩
  · rcases hi.of_cons with hi | ⟨rfl, target, here, hcmd⟩
    · exact (h.known i rcpt hi).cons e
    · rw [hcmd] at hstep
      obtain ⟨⟨read, hread, -⟩, -⟩ := hstep
      exact (h.ids.known_of_read hread).cons e
  · rcases hi.of_cons with hi | ⟨rfl, target, here, hcmd⟩
    · exact h.recorded_step hpast hstep horderly i rcpt hi
    · exact .inl (by simp [trying, hcmd])
  · obtain ⟨e', he', hremoves⟩ := hid
    rcases List.mem_cons.1 he' with rfl | he'
    · refine ⟨(h.known_of_removes horderly hremoves).cons e', ?_⟩
      rw [eq_delete_of_removes hremoves, lookup_delete_queue, if_pos rfl]
    · have hremoved : Removed id t := ⟨e', he', hremoves⟩
      exact ⟨(h.removed id hremoved).1.cons e, h.removed_step hstep horderly hremoved⟩

end Step

/-! ## Runs -/

structure QueueReady (w : World) : Prop where
  counter : 0 ≤ w.records.counter queueIds
  bound : ∀ id m, w.records.lookup (.queue id) = some m → (id : ℤ) ≤ w.records.counter queueIds

theorem QueueReady.kept (h : QueueReady w₀) : Kept (ι := ι) w₀ [] w₀ := by
  have hdrawn : ∀ (i : ι) (next : ℤ), ¬ Drawn i [] next := by
    rintro i next ⟨u, hu⟩
    cases hu
  have hdelivered : ∀ (i : ι) (rcpt : RecipientRef), ¬ DeliveredBy i rcpt [] := by
    rintro i rcpt ⟨target, here, hmem⟩
    cases hmem
  have hids : IdsKept (ι := ι) w₀ [] w₀ := by
    refine ⟨h.counter, fun id m hm => .inl ⟨m, hm⟩, by simp, fun id hid => ?_,
      fun i next hi => absurd hi (hdrawn i next), fun i next hi => absurd hi (hdrawn i next),
      fun i j next hi => absurd hi (hdrawn i next)⟩
    rcases hid with ⟨m, hm⟩ | ⟨e, he, -⟩
    · exact h.bound id m hm
    · cases he
  refine ⟨hids, trivial, fun i rcpt hi => absurd hi (hdelivered i rcpt),
    fun i rcpt hi => absurd hi (hdelivered i rcpt), ?_⟩
  rintro id ⟨e, he, -⟩
  cases he

def queueRun (digest : Digest) (w : World) (client : ι → QueueClient)
    (turns : List (ι × Option Error)) : Pool sig World ι Unit :=
  (Pool.start w fun i => (client i).program).runFaulty (machine digest) turns

/-- In an orderly run nobody is tried again after a delivery, and a message that
has been removed is not there. -/
theorem delivered_once_and_removed_for_good (digest : Bytes → BlobHash) {w : World}
    (hw : QueueReady w) (client : ι → QueueClient) (turns : List (ι × Option Error))
    (horderly : Always Orderly (queueRun digest w client turns).past) :
    Always Undelivered (queueRun digest w client turns).past ∧
      ∀ id, Removed id (queueRun digest w client turns).past →
        (queueRun digest w client turns).state.records.lookup (.queue id) = none := by
  have hrun := Pool.heeding_runFaulty (machine digest) w (fun i => heeds_program (client i)) turns
  have hkept := hrun.history.invariant (machine digest) (I := Kept w)
    (hrun.events.and horderly) hw.kept fun e t hres hpast hC _ hI =>
      hI.step hpast hC.1 hC.2 hres
  exact ⟨hkept.once, fun id hid => (hkept.removed id hid).2⟩

end Once

/-! ## A message to two recipients -/

section Examples

def twoRecipients : Enqueue :=
  ⟨0, "carol@example.com", [("a@example.org", .attempts 9), ("b@example.org", .attempts 9)], 0⟩

def clientsOf (last : QueueClient) : Fin 4 → QueueClient
  | 0 => .enqueue [65] twoRecipients
  | 1 => .pass .plain
  | 2 => .pass .plain
  | 3 => last

def answering (replies : List DeliveryAttempt) : World :=
  { World.empty (.new 0) 0 with network := replies.map .answered }

def goes (i : Fin 4) (n : ℕ) : List (Fin 4 × Option Error) := List.replicate n (i, none)

/-- The first recipient is served and the second is refused; the store fails when
the bounce is queued, and the next pass starts over. -/
def failedBounce : Pool sig World (Fin 4) Unit :=
  queueRun id (answering [.delivered, .bounced "550", .delivered]) (clientsOf (.remove 1))
    (goes 0 3 ++ goes 1 6 ++ [(1, some (.store "disk full"))] ++ goes 2 4)

def removedMeanwhile : Pool sig World (Fin 4) Unit :=
  queueRun id (answering []) (clientsOf (.remove 1)) (goes 0 3 ++ goes 1 4 ++ goes 3 1 ++ goes 1 2)

set_option maxRecDepth 20000 in
theorem delivered_twice_and_back_after_removal :
    ¬ Always Undelivered failedBounce.past ∧
      Removed 1 removedMeanwhile.past ∧ removedMeanwhile.state.records.lookup (.queue 1) ≠ none := by
  decide +kernel

/-- One recipient is served, the other put off; the delivery is not counted, as the
store fails. The retry is brought forward, and the second pass is the last. -/
def servedInTurn : Pool sig World (Fin 4) Unit :=
  queueRun id (answering [.delivered, .deferred "busy", .delivered]) (clientsOf (.retryNow 1 0))
    (goes 0 3 ++ goes 1 4 ++ [(1, some (.store "disk full"))] ++ goes 1 2 ++ goes 3 2 ++ goes 2 6)

theorem queueReady_answering (replies : List DeliveryAttempt) : QueueReady (answering replies) :=
  ⟨le_rfl, fun id m hm => by cases hm⟩

set_option maxRecDepth 20000 in
theorem servedInTurn_delivers_once :
    Always Orderly servedInTurn.past ∧ Removed 1 servedInTurn.past ∧
      Always Undelivered servedInTurn.past ∧
      ∀ id, Removed id servedInTurn.past →
        servedInTurn.state.records.lookup (.queue id) = none := by
  have horderly : Always Orderly servedInTurn.past := by decide +kernel
  have hremoved : Removed 1 servedInTurn.past := by decide +kernel
  have hkept := delivered_once_and_removed_for_good id (queueReady_answering
    [.delivered, .deferred "busy", .delivered]) (clientsOf (.retryNow 1 0))
    (goes 0 3 ++ goes 1 4 ++ [(1, some (.store "disk full"))] ++ goes 1 2 ++ goes 3 2 ++ goes 2 6)
  exact ⟨horderly, hremoved, hkept horderly⟩

end Examples

end IrixMail.Smtp

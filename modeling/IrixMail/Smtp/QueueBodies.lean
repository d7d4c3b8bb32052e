import IrixMail.Mail.Sweeps
import IrixMail.Smtp.QueueRuns

/-!
# Bodies of queued messages

Nothing but its record refers to the body of a queued message: it has no count
and no reservation. A sweep spares it while its file is young, and takes it when
the message has been put off for longer than the grace period. The bodies of
pending messages are kept in the runs in which every one of them is protected by
something that the sweep respects.
-/

namespace IrixMail.Smtp
open Library Prog Store Mail List

inductive BodyClient
  | queue (client : QueueClient)
  | sweep (grace : ℕ)
  /-- Time passes. -/
  | clock (ticks : List ℕ)

def BodyClient.program : BodyClient → Action Unit
  | queue client => client.program
  | sweep grace => do
    let _ ← Mail.sweep grace
    pure ()
  | clock ticks => tickEach ticks

def BodyClient.Allows (t : Trace sig) : BodyClient → Cmd → Prop
  | queue _, c => QueueStep t c
  | sweep grace, c => Purges grace t c
  | clock _, c => isTick c

theorem BodyClient.obeys_program (client : BodyClient) :
    Obeys (fun t c => client.Allows t c) (fun _ => True) (fun _ _ => True) [] client.program := by
  cases client with
  | queue client => exact (heeds_program client).obeys
  | sweep grace => exact (obeys_sweep grace _).bind fun _ _ _ => .ret trivial
  | clock ticks => exact ((yields_tickEach ticks).obeys (fun _ _ h => h) []).mono fun _ _ _ => trivial

/-! ## What protects a body -/

def reserves (now : ℕ) (h : BlobHash) : Sigma Val → Bool
  | ⟨.reservation _ h', expires⟩ => h' == h && decide (now < expires)
  | _ => false

theorem reserves_eq_true {now : ℕ} {h : BlobHash} {row : Sigma Val}
    (hrow : reserves now h row = true) :
    ∃ a expires, row = ⟨.reservation a h, expires⟩ ∧ now < expires := by
  unfold reserves at hrow
  split at hrow
  next a h' expires =>
    obtain ⟨hh, hlt⟩ := Bool.and_eq_true_iff.1 hrow
    obtain rfl : h' = h := by simpa using hh
    exact ⟨a, expires, rfl, by simpa using hlt⟩
  next => cases hrow

def IsReserved (w : World) (now : ℕ) (h : BlobHash) : Prop :=
  h ≠ [] ∧ (w.records.iterate ⟨.blobRef, none, none⟩).any (reserves now h) = true

/-- The blob's file is there, and younger than the grace period at the time. -/
def IsYoung (w : World) (now grace : ℕ) (h : BlobHash) : Prop :=
  ∃ b ∈ w.blobs.lookup h, now - b.modified < grace

instance (w : World) (now : ℕ) (h : BlobHash) : Decidable (IsReserved w now h) :=
  inferInstanceAs (Decidable (_ ∧ _))

instance (w : World) (now grace : ℕ) (h : BlobHash) : Decidable (IsYoung w now grace h) :=
  inferInstanceAs (Decidable (∃ b ∈ w.blobs.lookup h, now - b.modified < grace))

def isScan : Cmd → Bool
  | .iterate p => p == ⟨.blobRef, none, none⟩
  | _ => false

def looksAtCount (h : BlobHash) : Cmd → Bool
  | .get (.counter (.refCount h')) => h' == h
  | c => isScan c

def looksAtAge (h : BlobHash) : Cmd → Bool
  | .blobModifiedAt h' => h' == h
  | _ => false

def clockReadings (t : Trace sig) : List ℕ :=
  t.filterMap fun
    | ⟨.now, n⟩ => some n
    | _ => none

def pendingBodies (w : World) : List BlobHash :=
  (((w.records.iterate ⟨.queue, none, none⟩).filterMap recordOfRow).filter
    fun x => !x.2.isComplete).map fun x => x.2.blobHash

theorem mem_pendingBodies {w : World} {id : ℕ} {m : QueuedMessage}
    (hm : w.records.lookup (.queue id) = some m) (hpending : m.isComplete = false) :
    m.blobHash ∈ pendingBodies w := by
  refine mem_map.2 ⟨(id, m), mem_filter.2 ⟨mem_filterMap.2 ⟨⟨.queue id, m⟩, ?_, rfl⟩,
    by simp [hpending]⟩, rfl⟩
  exact Records.mem_iterate.2 ⟨⟨_, rfl⟩, hm⟩

def bodyAtHand : Trace sig → List BlobHash
  | ⟨.blobPut _, h⟩ :: _ => [h]
  | ⟨.addAndGet _ _, _⟩ :: ⟨.blobPut _, h⟩ :: _ => [h]
  | _ => []

section Runs
variable {ι : Type} [DecidableEq ι]

def neededBodies (t : Past ι) (w : World) : List BlobHash :=
  pendingBodies w ++ t.flatMap fun e => bodyAtHand (traceOf e.who t)

theorem mem_neededBodies_of_atHand {i : ι} {t : Past ι} {w : World}
    {h : BlobHash} (hmem : h ∈ bodyAtHand (traceOf i t)) : h ∈ neededBodies t w := by
  obtain ⟨x, hx⟩ : ∃ x, x ∈ traceOf i t := by
    refine exists_mem_of_ne_nil _ fun hnil => ?_
    rw [hnil] at hmem
    cases hmem
  obtain ⟨e, he, rfl, -⟩ := mem_traceOf.1 hx
  exact mem_append_right _ (mem_flatMap.2 ⟨e, he, hmem⟩)

/-- At every look that sweep `i` has taken at it, the blob was protected in one and
the same way: by its count, by a reservation or by its age. -/
def Shielded (grace : ℕ) (i : ι) (t : Past ι) (h : BlobHash) : Prop :=
  (∀ e ∈ t, e.who = i → looksAtCount h e.cmd = true →
    0 < e.before.records.counter (.refCount h)) ∨
  (∀ e ∈ t, e.who = i → isScan e.cmd = true →
    ∀ now ∈ clockReadings (traceOf i t), IsReserved e.before now h) ∨
  ∀ e ∈ t, e.who = i → looksAtAge h e.cmd = true →
    ∀ now ∈ clockReadings (traceOf i t), IsYoung e.before now grace h

/-- A record is put over the one that was read, a body is fetched for a message
that is still queued as it was read, and a sweep deletes blobs while the bodies
that are needed have been protected. -/
def BodyClient.Careful (e : Event sig World ι) (t : Past ι) :
    BodyClient → Prop
  | queue _ =>
    match e.cmd with
    | .put (.queue id) _ => UpToDate e.who id e.before t
    | .blobGet h => ∃ x ∈ recordsRead (traceOf e.who t), x.2.blobHash = h ∧
        x.2.isComplete = false ∧ e.before.records.lookup (.queue x.1) = some x.2
    | _ => True
  | sweep grace =>
    match e.cmd with
    | .blobDelete _ => ∀ h ∈ neededBodies t e.before, Shielded grace e.who t h
    | _ => True
  | clock _ => True

instance (grace : ℕ) (i : ι) (t : Past ι) (h : BlobHash) :
    Decidable (Shielded grace i t h) := by
  unfold Shielded
  infer_instance

instance (e : Event sig World ι) (t : Past ι) (client : BodyClient) :
    Decidable (client.Careful e t) := by
  unfold BodyClient.Careful
  obtain ⟨_, _, _ | ⟨⟨⟩, _⟩ | _, _⟩ := e <;> rcases client with ⟨⟩ <;> infer_instance

variable {digest : Digest} {w₀ w : World} {t : Past ι}

theorem answered_of_history {i : ι} {c : Cmd} {r : c.Res}
    (hpast : History (machine digest) w₀ t w) (h : Answered c r (traceOf i t)) :
    ∃ e ∈ t, e.who = i ∧ e.cmd = c ∧ r = (machine digest c e.before).1 := by
  obtain ⟨e, he, hwho, heq⟩ := mem_traceOf.1 h
  have hres := hpast.res_eq _ he
  obtain ⟨rfl, hr⟩ := Sigma.mk.inj heq
  cases hr
  exact ⟨_, he, hwho, rfl, hres⟩

theorem not_shielded_of_foundDead {i : ι} {grace now : ℕ} {rows : List (Sigma Val)}
    {h : BlobHash} (hpast : History (machine digest) w₀ t w)
    (hdead : FoundDead grace now rows h (traceOf i t)) : ¬ Shielded grace i t h := by
  have hreading : now ∈ clockReadings (traceOf i t) :=
    mem_filterMap.2 ⟨_, hdead.started, rfl⟩
  obtain ⟨scan, hscan, hscanWho, hscanCmd, hrows⟩ := answered_of_history hpast hdead.scanned
  rintro (hcount | hreserved | hyoung)
  · rcases hdead.found with ⟨horphan, -⟩ | ⟨-, hnone⟩
    · obtain ⟨n, hn, hle⟩ := RefScan.count_of_orphan horphan
      rw [hrows] at hn
      have hpos := hcount scan hscan hscanWho (by rw [hscanCmd]; rfl)
      rw [Records.counter, (Records.mem_iterate.1 hn).2, Option.getD_some] at hpos
      omega
    · obtain ⟨e, he, hwho, hcmd, hlookup⟩ := answered_of_history hpast hnone
      have hpos := hcount e he hwho (by rw [hcmd]; simp [looksAtCount])
      rw [Records.counter, show e.before.records.lookup (.counter (.refCount h)) = none from
        hlookup.symm] at hpos
      simp at hpos
  · obtain ⟨hne, hany⟩ := hreserved scan hscan hscanWho (by rw [hscanCmd]; rfl) now hreading
    obtain ⟨row, hrow, hlive⟩ := any_eq_true.1 hany
    obtain ⟨a, expires, rfl, hlt⟩ := reserves_eq_true hlive
    refine hdead.unreserved (RefScan.reserved_of_mem (a := a) ?_ hne hlt)
    rw [hrows]
    exact hrow
  · have hfresh : ∀ modified : Option ℕ, Answered (.blobModifiedAt h) modified (traceOf i t) →
        ∃ m ∈ modified, now - m < grace := by
      intro modified hread
      obtain ⟨e, he, hwho, hcmd, hmodified⟩ := answered_of_history hpast hread
      obtain ⟨b, hb, hlt⟩ := hyoung e he hwho (by rw [hcmd]; simp [looksAtAge]) now hreading
      refine ⟨b.modified, ?_, hlt⟩
      rw [hmodified]
      exact Option.mem_map_of_mem Blob.modified hb
    rcases hdead.found with ⟨-, modified, hread, hold⟩ | ⟨⟨m, hread, hold⟩, -⟩
    · obtain ⟨m, hm, hlt⟩ := hfresh modified hread
      have hge := hold m hm
      omega
    · obtain ⟨m', hm', hlt⟩ := hfresh (some m) hread
      obtain rfl := Option.mem_some_iff.1 hm'
      omega

/-! ## What runs keep -/

/-- The bodies of messages that wait are there, and so are those about to be named. -/
structure BodiesHeld (t : Past ι) (w : World) : Prop where
  pending : ∀ id m, w.records.lookup (.queue id) = some m → m.isComplete = false →
    (w.blobs.lookup m.blobHash).isSome = true
  atHand : ∀ i, ∀ h ∈ bodyAtHand (traceOf i t), (w.blobs.lookup h).isSome = true

omit [DecidableEq ι] in
theorem isSome_blobs_machine {c : Cmd} (hc : ∀ k, c ≠ .blobDelete k) {h : BlobHash}
    (hw : (w.blobs.lookup h).isSome = true) :
    ((machine digest c w).2.blobs.lookup h).isSome = true := by
  cases c with
  | blobDelete k => exact absurd rfl (hc k)
  | blobPut raw =>
    change ((w.putBlob (digest raw) raw).blobs.lookup h).isSome = true
    rw [World.lookup_putBlob]
    split
    · rfl
    · exact hw
  | batchConditional asserts ops =>
    simp only [machine]
    split <;> exact hw
  | _ => exact hw

omit [DecidableEq ι] in
theorem bodyAtHand_cons {c : Cmd} {r : c.Res} {u : Trace sig} {h : BlobHash}
    (hmem : h ∈ bodyAtHand (⟨c, r⟩ :: u)) :
    (∃ raw, (⟨c, r⟩ : Access) = ⟨.blobPut raw, h⟩) ∨
      (h ∈ bodyAtHand u ∧ ∀ k, c ≠ .blobDelete k) := by
  unfold bodyAtHand at hmem
  split at hmem
  next raw h' _ heq =>
    obtain rfl : h = h' := by simpa using hmem
    exact .inl ⟨raw, (cons.inj heq).1⟩
  next k n x raw h' v heq =>
    obtain ⟨hc, rfl⟩ := cons.inj heq
    cases hc
    exact .inr ⟨hmem, nofun⟩
  next => cases hmem

omit [DecidableEq ι] in
theorem lookup_queue_of_sweeps {c : Cmd} (h : Sweeps c) (id : ℕ) :
    (machine digest c w).2.records.lookup (.queue id) = w.records.lookup (.queue id) := by
  refine lookup_machine_of_ne digest fun op hop hloc => ?_
  have hop := Cmd.writes_of_written hop
  unfold Sweeps at h
  split at h
  next => cases hop
  next =>
    obtain rfl := mem_singleton.1 hop
    cases hloc
  next =>
    obtain rfl := mem_singleton.1 hop
    cases hloc
  next =>
    obtain rfl := mem_singleton.1 hop
    cases hloc
  next => exact (within_of_quiet h).loc_ne (l := .queue id) (by simp) op hop hloc

theorem isComplete_of_advances {read written : QueuedMessage}
    (h : Advances read.recipients written.recipients) (hread : read.isComplete = true) :
    written.isComplete = true := by
  refine all_eq_true.2 fun r hr => ?_
  obtain ⟨j, hj, rfl⟩ := mem_iff_getElem.1 hr
  have hlt : j < read.recipients.length := h.length ▸ hj
  have hsettled := all_eq_true.1 hread _ (getElem_mem hlt)
  have hpending : read.recipients[j].status.isPending = false := by
    simpa [RecipientStatus.isSettled] using hsettled
  have hsame := h.settled j _ (getElem?_eq_getElem hlt) hpending
  rw [getElem?_eq_getElem hj] at hsame
  rw [Option.some.inj hsame]
  exact hsettled

section Step
variable {e : Event sig World ι} (h : BodiesHeld t e.before)
include h

theorem BodiesHeld.of_kept (hres : e.res = (machine digest e.cmd e.before).1)
    (hdelete : ∀ k, e.cmd ≠ .blobDelete k)
    (hpending : ∀ id m, (machine digest e.cmd e.before).2.records.lookup (.queue id) = some m →
      m.isComplete = false → (e.before.blobs.lookup m.blobHash).isSome = true) :
    BodiesHeld (e :: t) (machine digest e.cmd e.before).2 := by
  refine ⟨fun id m hm hwait => isSome_blobs_machine hdelete (hpending id m hm hwait),
    fun i k hmem => ?_⟩
  by_cases hwho : e.who = i
  · rw [traceOf_cons_self hwho] at hmem
    rcases bodyAtHand_cons hmem with ⟨raw, heq⟩ | ⟨hold, -⟩
    · obtain ⟨j, v, c, r⟩ := e
      obtain ⟨rfl, hr⟩ := Sigma.mk.inj heq
      cases hr
      obtain rfl : r = digest raw := hres
      change ((v.putBlob (digest raw) raw).blobs.lookup (digest raw)).isSome = true
      rw [World.lookup_putBlob, if_pos rfl]
      rfl
    · exact isSome_blobs_machine hdelete (h.atHand i k hold)
  · rw [traceOf_cons_of_ne hwho] at hmem
    exact isSome_blobs_machine hdelete (h.atHand i k hmem)

theorem BodiesHeld.queue_step (hres : e.res = (machine digest e.cmd e.before).1)
    (hstep : QueueStep (traceOf e.who t) e.cmd)
    (hcareful : ∀ id m, e.cmd = .put (.queue id) m → UpToDate e.who id e.before t) :
    BodiesHeld (e :: t) (machine digest e.cmd e.before).2 := by
  refine h.of_kept hres (fun k hk => ?_) fun id m hm hwait => ?_
  · rw [hk] at hstep
    exact hstep
  · by_cases hwrite : WritesQueue id e.cmd
    · rcases hwrite with ⟨m', hcmd⟩ | hcmd
      · rw [hcmd, lookup_put_queue, if_pos rfl] at hm
        cases hm
        have hcurrent := hcareful id m hcmd
        rw [hcmd] at hstep
        rcases hstep with ⟨raw, next, u, hu, -⟩ | ⟨read, hread, hback⟩
        · refine h.atHand e.who _ ?_
          rw [hu]
          exact mem_singleton_self _
        · rw [hback.body]
          refine h.pending id read (hcurrent _ hread rfl) ?_
          by_contra hcomplete
          rw [isComplete_of_advances hback.advances (by simpa using hcomplete)] at hwait
          cases hwait
      · rw [hcmd, lookup_delete_queue, if_pos rfl] at hm
        cases hm
    · rw [lookup_queue_of_step hstep hwrite] at hm
      exact h.pending id m hm hwait

theorem BodiesHeld.sweep_step {grace : ℕ} (hpast : History (machine digest) w₀ t e.before)
    (hres : e.res = (machine digest e.cmd e.before).1)
    (hpurges : Purges grace (traceOf e.who t) e.cmd)
    (hcareful : ∀ k, e.cmd = .blobDelete k → ∀ b ∈ neededBodies t e.before,
      Shielded grace e.who t b) :
    BodiesHeld (e :: t) (machine digest e.cmd e.before).2 := by
  by_cases hdelete : ∃ k, e.cmd = .blobDelete k
  · obtain ⟨k, hcmd⟩ := hdelete
    rw [hcmd] at hpurges
    obtain ⟨now, rows, hdead⟩ := hpurges
    have hunneeded : ∀ b ∈ neededBodies t e.before, b ≠ k := by
      rintro b hb rfl
      exact not_shielded_of_foundDead hpast hdead (hcareful b hcmd b hb)
    have hkept : ∀ b ∈ neededBodies t e.before, (e.before.blobs.lookup b).isSome = true →
        ((machine digest (.blobDelete k) e.before).2.blobs.lookup b).isSome = true := by
      intro b hb hsome
      change ((e.before.blobs.erase k).lookup b).isSome = true
      rw [AList.lookup_erase_ne (hunneeded b hb)]
      exact hsome
    rw [hcmd]
    refine ⟨fun id m hm hwait => ?_, fun i b hb => ?_⟩
    · exact hkept _ (mem_append_left _ (mem_pendingBodies hm hwait)) (h.pending id m hm hwait)
    · by_cases hwho : e.who = i
      · rw [traceOf_cons_self hwho] at hb
        rcases bodyAtHand_cons hb with ⟨raw, heq⟩ | ⟨-, hne⟩
        · exact absurd (hcmd.symm.trans (Sigma.mk.inj heq).1) nofun
        · exact absurd hcmd (hne k)
      · rw [traceOf_cons_of_ne hwho] at hb
        exact hkept b (mem_neededBodies_of_atHand hb) (h.atHand i b hb)
  · refine h.of_kept hres (fun k hk => hdelete ⟨k, hk⟩) fun id m hm hwait => ?_
    rw [lookup_queue_of_sweeps hpurges.sweeps] at hm
    exact h.pending id m hm hwait

end Step

/-! ## Runs -/

/-- Every message that waits has its body. -/
def BodiesPresent (w : World) : Prop :=
  ∀ id m, w.records.lookup (.queue id) = some m → m.isComplete = false →
    (w.blobs.lookup m.blobHash).isSome = true

def foundBody : Access → Bool
  | ⟨.blobGet _, body⟩ => body.isSome
  | _ => true

def bodyRun (digest : Digest) (w : World) (client : ι → BodyClient) (schedule : List ι) :
    Pool sig World ι Unit :=
  (Pool.start w fun i => (client i).program).run (machine digest) schedule

theorem foundBody_of_held {e : Event sig World ι} {client : QueueClient}
    (h : BodiesHeld t e.before) (hres : e.res = (machine digest e.cmd e.before).1)
    (hcareful : (BodyClient.queue client).Careful e t) : foundBody ⟨e.cmd, e.res⟩ = true := by
  obtain ⟨i, v, c, r⟩ := e
  cases c with
  | blobGet k =>
    obtain ⟨x, -, rfl, hwait, hstored⟩ := hcareful
    obtain rfl : r = (v.blobs.lookup x.2.blobHash).map Blob.bytes := hres
    have hpresent := h.pending x.1 x.2 hstored hwait
    simpa [foundBody] using hpresent
  | _ => rfl

variable {client : ι → BodyClient}

theorem BodiesHeld.step {e : Event sig World ι} (h : BodiesHeld t e.before)
    (hpast : History (machine digest) w₀ t e.before)
    (hres : e.res = (machine digest e.cmd e.before).1)
    (hallows : (client e.who).Allows (traceOf e.who t) e.cmd)
    (hcareful : (client e.who).Careful e t) :
    BodiesHeld (e :: t) (machine digest e.cmd e.before).2 := by
  cases hclient : client e.who with
  | queue q =>
    rw [hclient] at hallows hcareful
    refine h.queue_step hres hallows fun id m hcmd => ?_
    unfold BodyClient.Careful at hcareful
    rw [hcmd] at hcareful
    exact hcareful
  | sweep grace =>
    rw [hclient] at hallows hcareful
    refine h.sweep_step hpast hres hallows fun k hcmd => ?_
    unfold BodyClient.Careful at hcareful
    rw [hcmd] at hcareful
    exact hcareful
  | clock ticks =>
    rw [hclient] at hallows
    obtain ⟨i, v, c, r⟩ := e
    cases c with
    | tick n => exact h.of_kept hres nofun h.pending
    | _ => cases hallows

/-- In a careful run every message that waits has its body, and a pass that fetches
a body finds it. -/
theorem bodies_of_queued_messages_kept (digest : Bytes → BlobHash) {w : World}
    (hw : BodiesPresent w) (client : ι → BodyClient) (schedule : List ι)
    (hcareful : Always (fun e t => (client e.who).Careful e t)
      (bodyRun digest w client schedule).past) :
    BodiesPresent (bodyRun digest w client schedule).state ∧
      ∀ e ∈ (bodyRun digest w client schedule).past, ∀ q, client e.who = .queue q →
        foundBody ⟨e.cmd, e.res⟩ = true := by
  have hrun := Pool.obeying_run (machine digest) w (fun i => (client i).obeys_program) schedule
  have hheld := hrun.history.invariant (machine digest)
    (I := fun t v => BodiesHeld t v ∧ ∀ e ∈ t, ∀ q, client e.who = .queue q →
      foundBody ⟨e.cmd, e.res⟩ = true) (hrun.events.and hcareful) ⟨⟨hw, ?_⟩, by simp⟩ ?_
  · exact ⟨hheld.1.pending, hheld.2⟩
  · intro i k hk
    cases hk
  · rintro e t hres hpast ⟨hallows, hcareful⟩ - ⟨hheld, hfound⟩
    refine ⟨hheld.step hpast hres hallows hcareful, fun x hx q hq => ?_⟩
    rcases List.mem_cons.1 hx with rfl | hx
    · rw [hq] at hcareful
      exact foundBody_of_held hheld hres hcareful
    · exact hfound x hx q hq

end Runs

/-! ## A message put off for more than an hour -/

def oneRecipient : Enqueue := ⟨0, "", [("a@example.org", .attempts 9)], 0⟩

def queueAndSweeps : Fin 7 → BodyClient
  | 0 => .queue (.enqueue [65] oneRecipient)
  | 1 => .queue (.pass .plain)
  | 2 => .clock [400000]
  | 3 => .clock [7200000]
  | 4 => .sweep purgeGraceSecs
  | 5 => .queue (.pass .plain)
  | 6 => .sweep purgeGraceSecs

def turnsOf (i : Fin 7) (n : ℕ) : List (Fin 7) := List.replicate n i

def putOff : Pool sig World (Fin 7) Unit :=
  bodyRun id (.empty (.new 0) 0) queueAndSweeps (turnsOf 0 3 ++ turnsOf 1 5 ++ [3] ++ turnsOf 4 6)

def putOffAndBounced : Pool sig World (Fin 7) Unit := putOff.run (machine id) (turnsOf 5 4)

theorem putOff_loses_body :
    ¬ BodiesPresent putOff.state ∧
      putOffAndBounced.past.any (fun e => !foundBody ⟨e.cmd, e.res⟩) = true ∧
      putOffAndBounced.state.records.lookup (.queue 1) = none := by
  refine ⟨fun h => ?_, by decide +kernel, by decide +kernel⟩
  have hbody := h 1 _ (by rfl) (by decide +kernel)
  revert hbody
  decide +kernel

def secondTry : World :=
  { World.empty (.new 0) 0 with network := [.unresolvable, .answered .delivered] }

theorem bodiesPresent_secondTry : BodiesPresent secondTry := fun id m hm => by cases hm

/-- A sweep spares the young body; the second pass delivers, and a later sweep
takes the body. -/
def deliveredInTime : List (Fin 7) :=
  turnsOf 0 3 ++ turnsOf 1 5 ++ turnsOf 4 4 ++ [2] ++ turnsOf 5 6 ++ [3] ++ turnsOf 6 6

def deliveredRun : Pool sig World (Fin 7) Unit := bodyRun id secondTry queueAndSweeps deliveredInTime

theorem delivered_keeps_bodies :
    Always (fun e t => (queueAndSweeps e.who).Careful e t) deliveredRun.past ∧
      (deliveredRun.state.blobs.lookup [65]).isSome = false ∧
      BodiesPresent deliveredRun.state ∧
      ∀ e ∈ deliveredRun.past, ∀ q, queueAndSweeps e.who = .queue q →
        foundBody ⟨e.cmd, e.res⟩ = true := by
  have hcareful : Always (fun e t => (queueAndSweeps e.who).Careful e t) deliveredRun.past := by
    decide +kernel
  have hkept := bodies_of_queued_messages_kept id bodiesPresent_secondTry queueAndSweeps deliveredInTime
  exact ⟨hcareful, by decide +kernel, hkept hcareful⟩

end IrixMail.Smtp

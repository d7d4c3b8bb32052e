import IrixMail.Mail.Ledger
import IrixMail.Mail.Purge

/-!
# Sweeps among deliveries and deletions

A delivery puts its body and commits the reference later; until then the age of
the blob is all that protects it. A sweep deletes what it found to be old and
without references when it looked. When that is still so at each deletion, when
deletions find the messages they loaded, and when deliveries end within the
grace period, every stored message keeps its body and a positive count.
-/

namespace IrixMail.Mail
open Library Prog Store WriteOp

inductive BlobClient
  | mail (op : MailOp) (h : op.Updates = false)
  | sweep
  /-- Time passes. -/
  | clock (ticks : List ℕ)

def tickEach : List ℕ → Action Unit
  | [] => pure ()
  | n :: ns => do
    exec (.tick n)
    tickEach ns

def BlobClient.program (env : Env) : BlobClient → Action Unit
  | mail op _ => do
    let _ ← op.program env
    pure ()
  | sweep => do
    let _ ← purgePass
    pure ()
  | clock ticks => tickEach ticks

def isTick : Cmd → Bool
  | .tick _ => true
  | _ => false

theorem yields_tickEach (ns : List ℕ) :
    Yields (fun c => isTick c = true) (fun _ => True) (tickEach ns) := by
  induction ns with
  | nil => exact .ret trivial
  | cons n ns ih => exact leadsTo_exec rfl fun _ => ih

def BlobClient.Allows (env : Env) (t : Trace sig) : BlobClient → Cmd → Prop
  | mail op _, c => op.Allows env t c
  | sweep, c => Sweeps c
  | clock _, c => isTick c

theorem BlobClient.obeys_program (env : Env) (client : BlobClient) :
    Obeys (fun t c => client.Allows env t c) Uncommitted (fun _ _ => True) []
      (client.program env) := by
  cases client with
  | mail op h => exact (op.obeys_program env).bind fun _ _ _ => .ret trivial
  | sweep =>
    refine ((obeys_sweep purgeGraceSecs Uncommitted).weaken (fun _ _ h => ?_) fun _ h => h).bind
      fun _ _ _ => .ret trivial
    exact h.sweeps
  | clock ticks => exact ((yields_tickEach ticks).obeys (fun _ _ h => h) []).mono fun _ _ _ => trivial

section Runs
variable {ι : Type} [DecidableEq ι]

/-- What a sweep checked before a deletion is still so. -/
def StillOrphan (w : World) : Cmd → Prop
  | .blobDelete h => w.records.counter (.refCount h) ≤ 0 ∧
      ∀ b ∈ w.blobs.lookup h, purgeGraceSecs ≤ w.now - b.modified
  | .delete (.counter (.refCount h)) => w.records.counter (.refCount h) ≤ 0
  | _ => True

/-- The body that the command deletes, or whose count it does. -/
def sweptHash : Cmd → Option (BlobHash × Bool)
  | .blobDelete h => some (h, true)
  | .delete (.counter (.refCount h)) => some (h, false)
  | _ => none

instance StillOrphan.decidable (w : World) (c : Cmd) : Decidable (StillOrphan w c) :=
  decidable_of_iff (∀ x ∈ sweptHash c, w.records.counter (.refCount x.1) ≤ 0 ∧
      (x.2 → ∀ b ∈ w.blobs.lookup x.1, purgeGraceSecs ≤ w.now - b.modified)) <| by
    unfold StillOrphan sweptHash
    split <;> simp

def isPut : Cmd → Bool
  | .blobPut _ => true
  | _ => false

def InGrace (e : Event sig World ι) (past : Past ι) : Prop :=
  ∀ x ∈ past, x.who = e.who → isPut x.cmd → e.before.now < x.before.now + purgeGraceSecs

def BlobClient.Careful (e : Event sig World ι) (past : Past ι) :
    BlobClient → Prop
  | mail op _ => isBatch e.cmd → op.Ready e past ∧ InGrace e past
  | sweep => StillOrphan e.before e.cmd
  | clock _ => True

instance (e : Event sig World ι) (past : Past ι) :
    (client : BlobClient) → Decidable (client.Careful e past)
  | .mail op _ => inferInstanceAs (Decidable (isBatch e.cmd → op.Ready e past ∧ ∀ x ∈ past,
      x.who = e.who → isPut x.cmd → e.before.now < x.before.now + purgeGraceSecs))
  | .sweep => inferInstanceAs (Decidable (StillOrphan e.before e.cmd))
  | .clock _ => .isTrue trivial

/-- Every stored message has its body, and its body a positive count. -/
def BodiesKept (w : World) : Prop :=
  ∀ a d m, w.records.lookup (.metadata a d) = some m →
    (w.blobs.lookup m.blobHash).isSome ∧ 0 < w.records.counter (.refCount m.blobHash)

structure Backing (env : Env) (past : Past ι) (v : World) : Prop where
  references : ∀ h, owedAt past (.refCount h) ≤ drift v.records (.refCount h)
  present : ∀ a d m, v.records.lookup (.metadata a d) = some m →
    (v.blobs.lookup m.blobHash).isSome
  /-- A body that was put is old or still there. -/
  puts : ∀ x ∈ past, ∀ raw, x.cmd = .blobPut raw → x.before.now + purgeGraceSecs ≤ v.now ∨
    ∃ b, v.blobs.lookup (env.digest raw) = some b ∧ x.before.now ≤ b.modified
  times : ∀ x ∈ past, x.before.now ≤ v.now

variable {env : Env} {past : Past ι} {e : Event sig World ι}

theorem Backing.count_ge {v : World} (h : Backing env past v) (hash : BlobHash) :
    holders v.records hash ≤ v.records.counter (.refCount hash) := by
  have hcounter := counter_eq v.records (.refCount hash)
  have howed := owedAt_nonneg past (.refCount hash)
  have hdrift := h.references hash
  have hcounted : counted v.records (.refCount hash) = holders v.records hash := rfl
  omega

theorem Backing.bodiesKept {v : World} (h : Backing env past v) : BodiesKept v := by
  intro a d m hm
  have hheld := holders_pos hm
  have hcount := h.count_ge m.blobHash
  exact ⟨h.present a d m hm, by omega⟩

theorem Backing.not_held {v : World} (h : Backing env past v) {hash : BlobHash}
    (hcount : v.records.counter (.refCount hash) ≤ 0) {a d : ℕ} {m : MessageMetadata}
    (hm : v.records.lookup (.metadata a d) = some m) : m.blobHash ≠ hash := by
  rintro rfl
  have hheld := holders_pos hm
  have hge := h.count_ge m.blobHash
  omega

theorem Backing.puts_step (h : Backing env past e.before)
    (hkept : ∀ hash b, e.before.blobs.lookup hash = some b →
      (∃ b', (machine env.digest e.cmd e.before).2.blobs.lookup hash = some b' ∧
        min b.modified e.before.now ≤ b'.modified) ∨
      b.modified + purgeGraceSecs ≤ (machine env.digest e.cmd e.before).2.now) :
    (∀ x ∈ e :: past, ∀ raw, x.cmd = .blobPut raw →
      x.before.now + purgeGraceSecs ≤ (machine env.digest e.cmd e.before).2.now ∨
      ∃ b, (machine env.digest e.cmd e.before).2.blobs.lookup (env.digest raw) = some b ∧
        x.before.now ≤ b.modified) ∧
    ∀ x ∈ e :: past, x.before.now ≤ (machine env.digest e.cmd e.before).2.now := by
  have hnow := now_le_machine env.digest e.cmd e.before
  constructor
  · intro x hx raw hput
    rcases List.mem_cons.1 hx with rfl | hx
    · obtain ⟨i, v, cmd, r⟩ := x
      obtain rfl : cmd = .blobPut raw := hput
      refine .inr ⟨v.writtenBlob (env.digest raw) raw, ?_, ?_⟩
      · exact (v.lookup_putBlob _ _ _).trans (if_pos rfl)
      · rw [World.modified_writtenBlob]
    · have htime := h.times x hx
      rcases h.puts x hx raw hput with hold | ⟨b, hb, hmodified⟩
      · exact .inl (hold.trans hnow)
      · rcases hkept _ b hb with ⟨b', hb', hmin⟩ | hold
        · exact .inr ⟨b', hb', (le_min hmodified htime).trans hmin⟩
        · exact .inl (by omega)
  · exact List.forall_mem_cons.2 ⟨hnow, fun x hx => (h.times x hx).trans hnow⟩

theorem Backing.of_blobs (h : Backing env past e.before)
    (hblobs : (machine env.digest e.cmd e.before).2.blobs = e.before.blobs)
    (hreferences : ∀ hash, owedAt (e :: past) (.refCount hash) ≤
      drift (machine env.digest e.cmd e.before).2.records (.refCount hash))
    (hpresent : ∀ a d m, (machine env.digest e.cmd e.before).2.records.lookup (.metadata a d) =
      some m → (e.before.blobs.lookup m.blobHash).isSome) :
    Backing env (e :: past) (machine env.digest e.cmd e.before).2 := by
  obtain ⟨hputs, htimes⟩ := h.puts_step fun hash b hb =>
    .inl ⟨b, by rw [hblobs]; exact hb, min_le_left _ _⟩
  exact ⟨hreferences, fun a d m hm => by rw [hblobs]; exact hpresent a d m hm, hputs, htimes⟩

theorem Backing.mail_step {op : MailOp} {w : World} (hop : op.Updates = false)
    (h : Backing env past e.before) (hhistory : History (machine env.digest) w past e.before)
    (hallows : op.Allows env (traceOf e.who past) e.cmd)
    (hcareful : isBatch e.cmd → op.Ready e past ∧ InGrace e past) :
    Backing env (e :: past) (machine env.digest e.cmd e.before).2 := by
  have hreferences : ∀ hash, owedAt (e :: past) (.refCount hash) ≤
      drift (machine env.digest e.cmd e.before).2.records (.refCount hash) := by
    intro hash
    have hstep := drift_step hop hallows (fun hb => (hcareful hb).1) (c := .refCount hash) rfl nofun
    have hdrift := h.references hash
    omega
  obtain ⟨i, v, cmd, r⟩ := e
  dsimp only at h hhistory hallows hreferences ⊢
  cases hallows with
  | quiet hquiet =>
    refine h.of_blobs (blobs_quiet env.digest hquiet v) hreferences fun a d m hm => ?_
    exact h.present a d m (((calm_quiet env.digest hquiet v).metadata a d).symm.trans hm)
  | @put _ _ _ raw hfiles _ =>
    have hput : ∀ hash b, v.blobs.lookup hash = some b →
        ∃ b', (v.putBlob (env.digest raw) raw).blobs.lookup hash = some b' ∧
          min b.modified v.now ≤ b'.modified := by
      intro hash b hb
      rw [World.lookup_putBlob]
      split
      · exact ⟨_, rfl, by simp⟩
      · exact ⟨b, hb, min_le_left _ _⟩
    obtain ⟨hputs, htimes⟩ := Backing.puts_step (e := ⟨i, v, .blobPut raw, r⟩) h
      fun hash b hb => .inl (hput hash b hb)
    refine ⟨hreferences, fun a d m hm => ?_, hputs, htimes⟩
    obtain ⟨b, hb⟩ := Option.isSome_iff_exists.1 (h.present a d m hm)
    obtain ⟨b', hb', -⟩ := hput _ b hb
    exact Option.isSome_iff_exists.2 ⟨b', hb'⟩
  | @file _ a d raw metadata data ops hfiles hcommit =>
    obtain ⟨threading, index, n, hthread, hedits, hn, rfl⟩ := hcommit.ops
    refine h.of_blobs rfl hreferences fun b x m hm => ?_
    by_cases hbx : (b, x) = (a, d)
    · obtain ⟨rfl, rfl⟩ := Prod.mk.inj hbx
      obtain rfl := Option.some.inj ((lookup_filed_metadata hthread hedits.postingOps).symm.trans hm)
      -- the body was put by this thread, within the grace period
      obtain ⟨hash, x, hx, hwho, hput⟩ := hcommit.put env hhistory
      have hgrace : v.now < x.before.now + purgeGraceSecs :=
        (hcareful rfl).2 x hx hwho (by rw [hput]; rfl)
      rcases h.puts x hx raw hput with hold | ⟨blob, hblob, -⟩
      · omega
      · rw [hash]
        exact Option.isSome_iff_exists.2 ⟨blob, hblob⟩
    · have hother : (v.records.batch (filingBatch a d n metadata data raw.length threading
          index)).lookup (.metadata b x) = v.records.lookup (.metadata b x) :=
        lookup_filed_of_ne hthread hedits.postingOps (by simp) (by simp) (by simpa using hbx)
      exact h.present b x m (hother.symm.trans hm)
  | update _ => cases hop
  | updates _ _ => cases hop
  | @remove a d data held ops hcommit =>
    obtain ⟨linked, vanished, n, hlinked, hvanished, hn, rfl⟩ := hcommit.ops
    refine h.of_blobs rfl hreferences fun b x m hm => ?_
    by_cases hbx : (b, x) = (a, d)
    · obtain ⟨rfl, rfl⟩ := Prod.mk.inj hbx
      exact absurd ((lookup_removed_metadata hvanished).symm.trans hm) nofun
    · have hother : (v.records.batch (removalBatch a d n data.size linked vanished)).lookup
          (.metadata b x) = v.records.lookup (.metadata b x) :=
        lookup_removed_of_ne (hlinked.unlinkOps env) hvanished (by simp) (by simp)
          (by simpa using hbx)
      exact h.present b x m (hother.symm.trans hm)
  | @release _ _ _ _ held ops _ _ =>
    refine h.of_blobs rfl hreferences fun b x m hm => ?_
    exact h.present b x m ((@lookup_released v.records (some held) _ (by simp)).symm.trans hm)

theorem owedAt_cons_of_sweeps {i : ι} {v : World} {c : Cmd} {r : c.Res} (h : Sweeps c)
    (past : Past ι) (k : CounterLoc) :
    owedAt (⟨i, v, c, r⟩ :: past) k = owedAt past k := by
  have howed : owed (⟨i, v, c, r⟩ :: past) = owed past := by
    cases c with
    | batch ops => exact h.elim
    | addAndGet k n =>
      cases k with
      | refCount hash => exact h.elim
      | _ => rfl
    | _ => rfl
  cases k <;> simp [owedAt, howed]

theorem drift_erase {s : Records} {l : Loc} (hdata : l.kind ≠ .data)
    (hmetadata : l.kind ≠ .metadata) (c : CounterLoc) :
    drift (s.erase l) c = if l = .counter c then - counted s c else drift s c := by
  have hsame : ∀ k : Loc, k ≠ l → (s.erase l).lookup k = s.lookup k :=
    fun k hk => AList.lookup_erase_ne hk
  have hcounted : counted (s.erase l) c = counted s c := by
    refine counted_congr (fun a d => ?_) (fun a d => ?_) c
    · rw [hsame _ (by rintro rfl; exact hdata rfl)]
    · rw [hsame _ (by rintro rfl; exact hmetadata rfl)]
  rw [drift, hcounted, Records.counter]
  split
  next heq => rw [heq]; simp
  next hne => rw [hsame _ (Ne.symm hne)]; rfl

theorem Backing.delete_step {i : ι} {v : World} {l : Loc} {r : Unit} (h : Backing env past v)
    (hdata : l.kind ≠ .data) (hmetadata : l.kind ≠ .metadata) (hsweeps : Sweeps (.delete l))
    (hcount : ∀ hash, l = .counter (.refCount hash) → v.records.counter (.refCount hash) ≤ 0) :
    Backing env (⟨i, v, .delete l, r⟩ :: past) (machine env.digest (.delete l) v).2 := by
  refine Backing.of_blobs (e := ⟨i, v, .delete l, r⟩) h rfl (fun hash => ?_) fun a d m hm => ?_
  · simp only [machine]
    rw [owedAt_cons_of_sweeps hsweeps, drift_erase hdata hmetadata]
    have hdrift := h.references hash
    split
    next heq =>
      have hcounter := counter_eq v.records (.refCount hash)
      have hnonneg : 0 ≤ counted v.records (.refCount hash) := counted_nonneg v.records _
      have howed := owedAt_nonneg past (.refCount hash)
      have hzero := hcount hash heq
      omega
    next => exact hdrift
  · refine h.present a d m (Eq.trans (AList.lookup_erase_ne ?_).symm hm)
    rintro rfl
    exact hmetadata rfl

theorem Backing.sweep_step (h : Backing env past e.before) (hsweeps : Sweeps e.cmd)
    (horphan : StillOrphan e.before e.cmd) :
    Backing env (e :: past) (machine env.digest e.cmd e.before).2 := by
  obtain ⟨i, v, cmd, r⟩ := e
  dsimp only at h hsweeps horphan ⊢
  have hquiet : Quiet cmd → Backing env (⟨i, v, cmd, r⟩ :: past) (machine env.digest cmd v).2 := by
    intro hquiet
    have hcalm := calm_quiet env.digest hquiet v
    refine Backing.of_blobs (e := ⟨i, v, cmd, r⟩) h (blobs_quiet env.digest hquiet v)
      (fun hash => ?_) fun a d m hm => h.present a d m ((hcalm.metadata a d).symm.trans hm)
    rw [owedAt_cons_of_sweeps hsweeps, drift_calm hcalm rfl]
    exact h.references hash
  unfold Sweeps at hsweeps
  split at hsweeps
  next hash =>
    obtain ⟨hcount, hold⟩ := horphan
    obtain ⟨hputs, htimes⟩ := Backing.puts_step (e := ⟨i, v, .blobDelete hash, r⟩) h fun k b hb => by
      by_cases hk : k = hash
      · subst hk
        have hage := hold b hb
        have hgrace : 0 < purgeGraceSecs := by decide
        have hpast : b.modified + purgeGraceSecs ≤ v.now := by omega
        exact .inr hpast
      · exact .inl ⟨b, (AList.lookup_erase_ne hk).trans hb, min_le_left _ _⟩
    refine ⟨fun k => ?_, fun a d m hm => ?_, hputs, htimes⟩
    · exact h.references k
    · have hne : m.blobHash ≠ hash := h.not_held hcount hm
      simp only [machine]
      rw [AList.lookup_erase_ne hne]
      exact h.present a d m hm
  next hash =>
    refine h.delete_step (by simp) (by simp) trivial fun k hk => ?_
    obtain rfl := CounterLoc.refCount.inj (Loc.counter.inj hk)
    exact horphan
  next a hash => exact h.delete_step (by simp) (by simp) trivial (by simp)
  next a hash => exact h.delete_step (by simp) (by simp) trivial (by simp)
  next => exact hquiet hsweeps

theorem Backing.tick_step (h : Backing env past e.before) (htick : isTick e.cmd) :
    Backing env (e :: past) (machine env.digest e.cmd e.before).2 := by
  obtain ⟨i, v, cmd, r⟩ := e
  cases cmd with
  | tick n => exact Backing.of_blobs (e := ⟨i, v, .tick n, r⟩) h rfl h.references h.present
  | _ => cases htick

structure Backed (w : World) : Prop where
  references : ∀ h, holders w.records h ≤ w.records.counter (.refCount h)
  present : ∀ a d m, w.records.lookup (.metadata a d) = some m →
    (w.blobs.lookup m.blobHash).isSome

variable (env)

def blobClients (clients : ι → BlobClient) (w : World) : Pool sig World ι Unit :=
  Pool.start w fun i => (clients i).program env

/-- In every interleaving of sweeps, deliveries and deletions in which each client
is careful, every stored message keeps its body and a positive count. -/
theorem bodiesKept_of_careful (clients : ι → BlobClient) (w : World) (hw : Backed w)
    (is : List ι)
    (h : Always (fun e past => (clients e.who).Careful e past)
      ((blobClients env clients w).run (machine env.digest) is).past) :
    BodiesKept ((blobClients env clients w).run (machine env.digest) is).state := by
  have hrun := Pool.obeying_run (machine env.digest) w
    (fun i : ι => (clients i).obeys_program env) is
  refine (History.invariant (machine env.digest) hrun.history (hrun.events.and h)
    (I := fun past v => Backing env past v) ?_ ?_).bodiesKept
  · refine ⟨fun hash => ?_, hw.present, by simp, by simp⟩
    have hcount := hw.references hash
    have hcounter := counter_eq w.records (.refCount hash)
    have hcounted : counted w.records (.refCount hash) = holders w.records hash := rfl
    simp only [owedAt, owed, List.countP_nil]
    omega
  · rintro e t - hhistory ⟨hallows, hcareful⟩ - hinv
    cases hclient : clients e.who with
    | mail op hop =>
      rw [hclient] at hallows hcareful
      exact hinv.mail_step hop hhistory hallows hcareful
    | sweep =>
      rw [hclient] at hallows hcareful
      exact hinv.sweep_step hallows hcareful
    | clock ticks =>
      rw [hclient] at hallows
      exact hinv.tick_step hallows

end Runs

/-! ## A sweep and a delivery of the body that it is about to delete -/

/-- Account 7's message with the body `A` was delivered and deleted more than an hour ago. -/
def orphanedBody : World :=
  { (MailOp.delete 7 1).perform .plain
      ((MailOp.deliver (.plain 7 1 [65])).perform .plain (.empty (.new 0) 0)) with clock := 4000000 }

def sweepAndDelivery : Bool → BlobClient
  | false => .sweep
  | true => .mail (.deliver (.plain 8 1 [65])) rfl

def sweepRun (schedule : List Bool) : Pool sig World Bool Unit :=
  (blobClients .plain sweepAndDelivery orphanedBody).run (machine Env.plain.digest) schedule

def deliveredAfterCheck : List Bool :=
  List.replicate 4 false ++ List.replicate 8 true ++ List.replicate 3 false

set_option maxRecDepth 8000 in
/-- The delivery ends within the grace period, and its message loses its body. -/
theorem deliveredAfterCheck_not_bodiesKept :
    (sweepRun deliveredAfterCheck).state.now = orphanedBody.now ∧
      ¬ BodiesKept (sweepRun deliveredAfterCheck).state := by
  refine ⟨by decide, fun h => ?_⟩
  obtain ⟨hpresent, -⟩ := h 8 1 _ rfl
  exact absurd hpresent (by decide)

def hourlySweep : Fin 5 → BlobClient
  | 0 => .mail (.deliver (.plain 7 1 [65])) rfl
  | 1 => .mail (.delete 7 1) rfl
  | 2 => .mail (.deliver (.plain 8 1 [66])) rfl
  | 3 => .clock [4000000]
  | 4 => .sweep

def hourlySchedule : List (Fin 5) :=
  List.replicate 8 0 ++ List.replicate 9 1 ++ List.replicate 8 2 ++ [3] ++ List.replicate 8 4

theorem backed_empty (ids : IdGenerator) (clock : ℕ) : Backed (.empty ids clock) :=
  ⟨fun _ => le_rfl, nofun⟩

abbrev hourlySweepRun : Pool sig World (Fin 5) Unit :=
  (blobClients .plain hourlySweep (.empty (.new 0) 0)).run (machine Env.plain.digest) hourlySchedule

theorem bodiesKept_hourlySweep :
    Always (fun e past => (hourlySweep e.who).Careful e past) hourlySweepRun.past ∧
      BodiesKept hourlySweepRun.state := by
  have hcareful : Always (fun e past => (hourlySweep e.who).Careful e past) hourlySweepRun.past := by
    decide +kernel
  have hkept := bodiesKept_of_careful .plain hourlySweep (.empty (.new 0) 0) (backed_empty _ _)
    hourlySchedule
  exact ⟨hcareful, hkept hcareful⟩

end IrixMail.Mail

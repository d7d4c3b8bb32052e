import IrixMail.Mail.Clients

/-!
# Following the change log

Writers draw a change id and commit the entry under it later; readers take the
latest id as their state and ask for the changes after it. An id that is drawn
before a reader takes its state and committed afterwards is not above that
state. When no reader takes its state in between, every later change is.
-/

namespace IrixMail.Mail
open Library Prog Store WriteOp

inductive LogClient
  | mail (op : MailOp)
  /-- A writer of one entry in the log of any collection. -/
  | logger (a : ℕ) (c : Collection) (d : ℕ) (kind : ChangeKind)
  /-- A reader takes its state, and asks for the changes after it. -/
  | reader (a : ℕ) (c : Collection)

def LogClient.program (env : Env) : LogClient → Action (Option (ℕ × List ChangeLogEntry))
  | mail op => do
    let _ ← op.program env
    pure none
  | logger a c d kind => do
    let (_, op) ← ChangeLog.recordOp a c d kind
    exec (.batch [op])
    pure none
  | reader a c => do
    let since ← ChangeLog.latestChangeId a c
    let changes ← ChangeLog.changesSince a c since
    pure (some (since, changes))

def StepsUp (c : Cmd) : Prop :=
  ∀ op ∈ c.writes, ∀ a k d, op.loc = .counter (.number a k d) → op = .add (.number a k d) 1

variable {c : Cmd} {t : Trace sig}

theorem stepsUp_of_quiet (h : Quiet c) : StepsUp c := by
  cases c with
  | addAndGet k n =>
    cases k with
    | number a c d =>
      obtain rfl : n = 1 := h
      rintro op hop b k e hloc
      obtain rfl := List.mem_singleton.1 hop
      obtain ⟨rfl, rfl, rfl⟩ := CounterLoc.number.inj (Loc.counter.inj hloc)
      rfl
    | _ => exact h.elim
  | put l v => exact h.elim
  | delete l => exact h.elim
  | batch ops => exact h.elim
  | batchConditional asserts ops => exact h.elim
  | _ => simp [StepsUp, Cmd.writes]

theorem stepsUp_of_within {K : List LocKind} (h : Within K c.writes)
    (hnumber : .number ∉ K) : StepsUp c :=
  fun op hop _ _ _ hloc => absurd hloc (h.loc_ne (by simpa using hnumber) op hop)

theorem Attempted.within {a : ℕ} {mutate : ℕ → Mutation} {ds : List ℕ}
    {attempt : UpdateAttempt} (h : Attempted a mutate t ds attempt) :
    Within [.data, .vanished, .change] attempt.ops := by
  induction h with
  | nil => exact within_nil
  | absent _ _ ih => exact ih
  | unchanged _ _ _ ih => exact ih
  | changed _ _ _ hvanished _ _ ih => exact (within_updateBatch hvanished).append ih

theorem MailOp.Allows.stepsUp {env : Env} {op : MailOp} (h : Allows env t op c) : StepsUp c := by
  cases h with
  | quiet h => exact stepsUp_of_quiet h
  | put => exact stepsUp_of_within within_nil (List.not_mem_nil)
  | file hfiles h =>
    obtain ⟨threading, index, n, hthread, hedits, hn, rfl⟩ := h.ops
    exact stepsUp_of_within (within_filingBatch hthread hedits.postingOps) (by simp)
  | update h =>
    obtain ⟨vanished, n, hvanished, hn, rfl⟩ := h.ops
    exact stepsUp_of_within (within_updateBatch hvanished) (by simp)
  | updates hu h => exact stepsUp_of_within h.within (by simp)
  | remove h =>
    obtain ⟨linked, vanished, n, hlinked, hvanished, hn, rfl⟩ := h.ops
    exact stepsUp_of_within (within_removalBatch (hlinked.unlinkOps env) hvanished) (by simp)
  | release h ht =>
    exact stepsUp_of_within (K := [.counter]) (within_nil.cons (by simp)) (by simp)

theorem LogClient.obeys_program (env : Env) (client : LogClient) :
    Obeys (fun _ => StepsUp) (fun _ => True) (fun _ _ => True) [] (client.program env) := by
  cases client with
  | mail op =>
    exact ((op.obeys_program env).weaken (fun _ _ h => h.stepsUp) fun _ _ => trivial).bind
      fun _ _ _ => .ret trivial
  | logger a c d kind =>
    unfold program ChangeLog.recordOp ChangeLog.allocateChangeId
    simp only [bind_assoc]
    have hdraw : Quiet (.addAndGet (.number a c 0) 1) := rfl
    refine .perform (stepsUp_of_quiet hdraw) fun n => ?_
    exact .perform (stepsUp_of_within (K := [.change]) (within_nil.cons (by simp))
      (by simp)) fun _ => .ret trivial
  | reader a c =>
    unfold program ChangeLog.latestChangeId ChangeLog.changesSince ChangeLog.changesPage
    simp only [bind_assoc, pure_bind]
    refine .perform (stepsUp_of_quiet trivial) fun counter => ?_
    rw [if_neg (by simp)]
    simp only [bind_assoc]
    refine .perform (stepsUp_of_quiet trivial) fun rows => ?_
    cases ChangeLog.readPage _ _ _ _ with
    | error e => exact .fail trivial
    | ok page => exact .ret trivial

/-! ## Runs of writers and readers -/

def drawnId : (c : Cmd) → c.Res → Option (ℕ × Collection × ℕ)
  | .addAndGet (.number a c 0) _, r => some (a, c, (max r 1).toNat)
  | _, _ => none

/-- The command reads the counter of the log, as `latestChangeId` does. -/
def takesState (a : ℕ) (c : Collection) : Cmd → Bool
  | .counter (.number b k 0) => b = a && k = c
  | _ => false

def loggedIds (ops : List WriteOp) : List (ℕ × Collection × ℕ) :=
  ops.filterMap fun op =>
    match op.loc with
    | .change a c n => some (a, c, n)
    | _ => none

section Runs
variable {ι : Type} [DecidableEq ι] (env : Env)

/-- Going back, thread `i` draws the id before anyone takes the state of its log. -/
def DrawnSince (i : ι) (id : ℕ × Collection × ℕ) : Past ι → Prop
  | [] => True
  | e :: past => (e.who = i ∧ drawnId e.cmd e.res = some id) ∨
      (takesState id.1 id.2.1 e.cmd = false ∧ DrawnSince i id past)

instance DrawnSince.decidable (i : ι) (id : ℕ × Collection × ℕ) :
    (past : Past ι) → Decidable (DrawnSince i id past)
  | [] => .isTrue trivial
  | _ :: past => @instDecidableOr _ _ _ (@instDecidableAnd _ _ _ (DrawnSince.decidable i id past))

/-- No reader takes its state between the drawing and the commit of an id. -/
def Undisturbed (e : Event sig World ι) (past : Past ι) : Prop :=
  ∀ id ∈ loggedIds (e.cmd.written e.res), DrawnSince e.who id past

instance Undisturbed.decidable (e : Event sig World ι) (past : Past ι) :
    Decidable (Undisturbed e past) :=
  inferInstanceAs (Decidable (∀ id ∈ loggedIds (e.cmd.written e.res), DrawnSince e.who id past))

def stateOf (r : ℤ) : ℕ := (max r 0).toNat

/-- Whatever a log holds now and did not hold when a reader took its state is
among the changes since that state. -/
def NoChangeLost {α : Type} (p : Pool sig World ι α) : Prop :=
  ∀ post i u a c r pre, p.past = post ++ ⟨i, u, .counter (.number a c 0), r⟩ :: pre →
    c ≠ .emailVanished → ∀ n v, p.state.records.lookup (.change a c n) = some v →
      u.records.lookup (.change a c n) ≠ some v →
      ∃ changes, (ChangeLog.changesSince a c (stateOf r)).run (machine env.digest) p.state =
        (.ok changes, p.state) ∧ ⟨n, v.documentId, v.kind⟩ ∈ changes

variable {a n : ℕ} {c : Collection}

omit [DecidableEq ι] in
theorem DrawnSince.drawn {i j : ι} {u : World} {r : ℤ}
    {post pre : Past ι}
    (h : DrawnSince i (a, c, n) (post ++ ⟨j, u, .counter (.number a c 0), r⟩ :: pre)) :
    ∃ e ∈ post, drawnId e.cmd e.res = some (a, c, n) := by
  induction post with
  | nil =>
    rcases h with ⟨-, h⟩ | ⟨h, -⟩
    · simp [drawnId] at h
    · simp [takesState] at h
  | cons e post ih =>
    rcases h with ⟨-, h⟩ | ⟨-, h⟩
    · exact ⟨e, List.mem_cons_self, h⟩
    · obtain ⟨e', he', hdrawn⟩ := ih h
      exact ⟨e', List.mem_cons_of_mem _ he', hdrawn⟩

theorem drawnId_eq {c : Cmd} {r : c.Res} {k : Collection}
    (h : drawnId c r = some (a, k, n)) (hsteps : StepsUp c) :
    ∃ r' : ℤ, (⟨c, r⟩ : Access) = ⟨.addAndGet (.number a k 0) 1, r'⟩ ∧
      n = (max r' 1).toNat := by
  unfold drawnId at h
  split at h
  next b k' amount r =>
    obtain ⟨rfl, rfl, rfl⟩ : b = a ∧ k' = k ∧ _ := by simpa using h
    have hamount := hsteps _ (List.mem_singleton.2 rfl) b k' 0 rfl
    obtain ⟨-, rfl⟩ := WriteOp.add.inj hamount
    exact ⟨r, rfl, rfl⟩
  next => cases h

/-- In every interleaving of writers and readers in which no reader takes its
state between the drawing and the commit of an id, no change is lost. -/
theorem noChangeLost_of_undisturbed (clients : ι → LogClient) (w : World) (is : List ι)
    (h : Always Undisturbed ((Pool.start w fun i => (clients i).program env).run
      (machine env.digest) is).past) :
    NoChangeLost env ((Pool.start w fun i => (clients i).program env).run
      (machine env.digest) is) := by
  have hrun := Pool.obeying_run (machine env.digest) w
    (fun i => (clients i).obeys_program env) is
  generalize (Pool.start w fun i => (clients i).program env).run (machine env.digest) is = p at h hrun
  intro post i u a c r pre hpast hc n v hv hnew
  have hhistory := hrun.history
  have hsafe := hrun.events
  rw [hpast] at hhistory hsafe h
  have hsteps : ∀ e ∈ post, StepsUp e.cmd := fun e he =>
    (hsafe.exists_of_mem (List.mem_append_left _ he)).choose_spec
  -- the read leaves the state alone, and what follows starts from it
  obtain ⟨u', ⟨hu, hr, -⟩, hpost⟩ := hhistory.split
  obtain rfl : u = u' := hu.symm
  obtain rfl : r = u.records.counter (.number a c 0) := hr
  have hne : p.state.records.lookup (.change a c n) ≠ u.records.lookup (.change a c n) :=
    fun heq => hnew (heq.symm.trans hv)
  -- the entry was written since then, under an id drawn since then
  obtain ⟨e, he, op, hop, hloc⟩ := written_of_history hpost hne
  obtain ⟨later, earlier, rfl⟩ := List.append_of_mem he
  rw [List.append_assoc] at h
  obtain ⟨d, hd, hdrawn⟩ := (h.of_split (a, c, n) (List.mem_filterMap.2 ⟨op, hop, by rw [hloc]⟩)).drawn
  have hdmem : d ∈ later ++ e :: earlier := List.mem_append_right _ (List.mem_cons_of_mem _ hd)
  obtain ⟨number, hcmd, rfl⟩ := drawnId_eq hdrawn (hsteps d hdmem)
  have hlt : u.records.counter (.number a c 0) < number := by
    obtain ⟨i', v', cmd, res⟩ := d
    cases hcmd
    exact ((drawn_of_history hpost fun e' he' op hop => hsteps e' he' op hop a c 0).2 i' v' _
      hdmem).1
  have habove : stateOf (u.records.counter (.number a c 0)) < (max number 1).toNat := by
    unfold stateOf
    omega
  exact ⟨_, ChangeLog.run_changesSince env.digest hc _ _, ChangeLog.mem_changesOf.2 ⟨habove, hv⟩⟩

end Runs

/-! ## A delivery and a reader -/

def deliveryAndReader : Bool → LogClient
  | false => .mail (.deliver (.plain 7 1 [65]))
  | true => .reader 7 .email

def deliveryRun (schedule : List Bool) : Pool sig World Bool (Option (ℕ × List ChangeLogEntry)) :=
  (Pool.start (.empty (.new 0) 0) fun i => (deliveryAndReader i).program .plain).run
    (machine Env.plain.digest) schedule

def overtaken : List Bool := List.replicate 7 false ++ [true, false]

theorem overtaken_loses_change : ¬ NoChangeLost .plain (deliveryRun overtaken) := by
  intro h
  have hread : (deliveryRun overtaken).past = (deliveryRun overtaken).past.take 1 ++
      ⟨true, (deliveryRun (List.replicate 7 false)).state, .counter (.number 7 .email 0), 1⟩ ::
        (deliveryRun (List.replicate 7 false)).past := rfl
  obtain ⟨changes, hrun, hmem⟩ := h _ _ _ _ _ _ _ hread (by decide) 1 ⟨1, .insert⟩
    (by decide) (by decide)
  rw [ChangeLog.run_changesSince _ (by decide)] at hrun
  cases hrun
  exact absurd (ChangeLog.mem_changesOf.1 hmem).1 (by decide)

theorem noChangeLost_delivery_first :
    Always Undisturbed (deliveryRun ([true] ++ List.replicate 8 false ++ [true])).past ∧
      NoChangeLost .plain (deliveryRun ([true] ++ List.replicate 8 false ++ [true])) := by
  have h : Always Undisturbed (deliveryRun ([true] ++ List.replicate 8 false ++ [true])).past := by
    decide
  exact ⟨h, noChangeLost_of_undisturbed .plain deliveryAndReader _ _ h⟩

end IrixMail.Mail

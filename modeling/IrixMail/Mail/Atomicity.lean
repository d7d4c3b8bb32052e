import IrixMail.Mail.Clients
import IrixMail.Mail.Revisions

/-!
# Concurrent calls of `updateMessages`

A call asserts the records that it changes and writes them, with the entries of the
change log that tell of them, in one conditional batch. It does not assert a record that
its mutation leaves as it is. So a call takes effect at once on the records it changes; a
record that it leaves alone may have changed by then.
-/

namespace IrixMail.Mail
open Library Prog Store WriteOp List

/-! ## What an attempt gathers -/

/-- A record that an attempt changes, and the ids of the log entries that tell of it. -/
structure Revision where
  documentId : ℕ
  original : MessageData
  data : MessageData
  vanished : List (ℕ × MailboxUid)
  changeId : ℕ

inductive Finding
  | absent (d : ℕ)
  | unchanged (d : ℕ) (data : MessageData)
  | revised (r : Revision)

def tombstoneOp (a : ℕ) (x : ℕ × MailboxUid) : WriteOp := .set (.vanished a x.1) (tombstoneOf x.2)

def droppedEntries (original data : MessageData) : List MailboxUid :=
  original.mailboxes.filter (· ∉ data.mailboxes)

namespace Revision

def ops (a : ℕ) (r : Revision) : List WriteOp :=
  updateBatch a r.documentId r.changeId r.data (r.vanished.map (tombstoneOp a))

def ids (r : Revision) : List ℕ := r.changeId :: (r.vanished.map Prod.fst).reverse

structure By (mutate : ℕ → Mutation) (r : Revision) : Prop where
  mutated : mutate r.documentId r.original = .ok r.data
  changed : r.data ≠ r.original
  dropped : r.vanished.map Prod.snd = droppedEntries r.original r.data

end Revision

namespace Finding

def documentId : Finding → ℕ
  | absent d => d
  | unchanged d _ => d
  | revised r => r.documentId

def results : Finding → List UpdatedMessage
  | absent _ => []
  | unchanged d data => [⟨d, none, data⟩]
  | revised r => [⟨r.documentId, some r.changeId, r.data⟩]

def asserts (a : ℕ) : Finding → List ValueAssert
  | revised r => [⟨.data a r.documentId, some r.original⟩]
  | _ => []

def ops (a : ℕ) : Finding → List WriteOp
  | revised r => r.ops a
  | _ => []

def ids : Finding → List ℕ
  | revised r => r.ids
  | _ => []

def Read (a : ℕ) (mutate : ℕ → Mutation) (t : Trace sig) : Finding → Prop
  | absent d => Got (.data a d) none t
  | unchanged d data => Got (.data a d) (some data) t ∧ mutate d data = .ok data
  | revised r => Got (.data a r.documentId) (some r.original) t ∧ r.By mutate

variable {a : ℕ} {mutate : ℕ → Mutation} {t : Trace sig} {f : Finding}

theorem Read.mono {u : Trace sig} (h : f.Read a mutate t) (htu : t ⊆ u) : f.Read a mutate u := by
  cases f with
  | absent d => exact htu h
  | unchanged d data => exact ⟨htu h.1, h.2⟩
  | revised r => exact ⟨htu h.1, h.2⟩

theorem Read.got (h : f.Read a mutate t) : ∃ x, Got (.data a f.documentId) x t := by
  cases f with
  | absent d => exact ⟨_, h⟩
  | unchanged d data => exact ⟨_, h.1⟩
  | revised r => exact ⟨_, h.1⟩

end Finding

def gathered (a : ℕ) (fs : List Finding) : UpdateAttempt :=
  ⟨fs.flatMap Finding.results, fs.flatMap (Finding.asserts a), fs.flatMap (Finding.ops a)⟩

def drawnIds (a : ℕ) (t : Trace sig) : List ℕ :=
  t.filterMap fun
    | ⟨.addAndGet k n, r⟩ => if k = .number a .email 0 ∧ n = 1 then some (max r 1).toNat else none
    | _ => none

theorem drawnIds_append (a : ℕ) (t u : Trace sig) :
    drawnIds a (t ++ u) = drawnIds a t ++ drawnIds a u :=
  filterMap_append

structure Gathers (a : ℕ) (ds : List ℕ) (mutate : ℕ → Mutation) (t : Trace sig)
    (fs : List Finding) : Prop where
  documents : fs.map Finding.documentId = ds
  read : ∀ f ∈ fs, f.Read a mutate t
  drawn : (fs.reverse.flatMap Finding.ids).Sublist (drawnIds a t)

/-! ## The call obeys this -/

section Obeys
variable {t : Trace sig} {mutate : ℕ → Mutation}

theorem drawnIds_draw (a : ℕ) (r : ℤ) (t : Trace sig) :
    drawnIds a (⟨.addAndGet (.number a .email 0) 1, r⟩ :: t) = (max r 1).toNat :: drawnIds a t := by
  simp [drawnIds]

theorem obeys_tombstones (a : ℕ) (after before : List MailboxUid) (t : Trace sig) :
    Obeys (fun _ => Quiet) (fun _ => True) (fun v ops => ∃ xs : List (ℕ × MailboxUid),
      xs.map Prod.snd = before.filter (· ∉ after) ∧ ops = xs.map (tombstoneOp a) ∧
      drawnIds a v = (xs.map Prod.fst).reverse ++ drawnIds a t) t (pushVanishedOps a after before) := by
  induction before generalizing t with
  | nil => exact .ret ⟨[], rfl, rfl, rfl⟩
  | cons entry before ih =>
    unfold pushVanishedOps
    by_cases hkept : entry ∈ after
    · rw [if_pos hkept]
      refine (ih t).mono ?_
      rintro v ops ⟨xs, hxs, hops, hids⟩
      exact ⟨xs, by simp [hxs, hkept], hops, hids⟩
    · rw [if_neg hkept]
      unfold ChangeLog.recordVanishedOp ChangeLog.allocateChangeId ChangeLog.counterLoc
      simp only [bind_assoc]
      refine .perform rfl fun r => (ih _).bind ?_
      rintro v ops ⟨xs, hxs, rfl, hids⟩
      refine .ret ⟨((max r 1).toNat, entry) :: xs, by simp [hxs, hkept], rfl, ?_⟩
      rw [hids, drawnIds_draw]
      simp

theorem obeys_finding (a d : ℕ) (t : Trace sig) :
    Obeys (fun _ => Quiet) (fun _ => True) (fun v one => ∃ f : Finding,
      f.documentId = d ∧ f.Read a mutate v ∧ one = ⟨f.results, f.asserts a, f.ops a⟩ ∧
      drawnIds a v = f.ids ++ drawnIds a t) t (updateOne a d (mutate d)) := by
  refine .perform trivial fun r => ?_
  cases r with
  | none => exact .ret ⟨.absent d, rfl, mem_cons_self, rfl, rfl⟩
  | some original =>
    dsimp only
    cases hmutate : mutate d original with
    | error e => exact .fail trivial
    | ok data =>
      simp only [checked, ret_bind]
      by_cases hdata : data = original
      · subst hdata
        rw [if_pos rfl]
        exact .ret ⟨.unchanged d data, rfl, ⟨mem_cons_self, hmutate⟩, rfl, rfl⟩
      · rw [if_neg hdata]
        refine (obeys_tombstones a data.mailboxes original.mailboxes _).andThen ?_
        rintro v vanished hv ⟨xs, hxs, rfl, hids⟩
        unfold ChangeLog.recordOp ChangeLog.allocateChangeId ChangeLog.counterLoc
        simp only [bind_assoc]
        refine .perform rfl fun r => .ret ⟨.revised ⟨d, original, data, xs, (max r 1).toNat⟩, rfl,
          ⟨mem_cons_of_mem _ (hv.subset mem_cons_self), hmutate, hdata, hxs⟩, rfl, ?_⟩
        rw [drawnIds_draw, hids]
        rfl

theorem obeys_findings (a : ℕ) (ds : List ℕ) (t : Trace sig) :
    Obeys (fun _ => Quiet) (fun _ => True) (fun v attempt => ∃ fs : List Finding,
      fs.map Finding.documentId = ds ∧ (∀ f ∈ fs, f.Read a mutate v) ∧ attempt = gathered a fs ∧
      drawnIds a v = fs.reverse.flatMap Finding.ids ++ drawnIds a t) t (updateEach a mutate ds) := by
  induction ds generalizing t with
  | nil => exact .ret ⟨[], rfl, by simp, rfl, rfl⟩
  | cons d ds ih =>
    refine (obeys_finding a d t).bind ?_
    rintro v one ⟨f, hd, hread, rfl, hids⟩
    refine (ih v).andThen ?_
    rintro u rest hvu ⟨fs, hds, hreads, rfl, hlater⟩
    refine .ret ⟨f :: fs, by simp [hd, hds], ?_, by simp [gathered], ?_⟩
    · exact forall_mem_cons.2 ⟨hread.mono hvu.subset, hreads⟩
    · rw [hlater, hids]
      simp

/-- How a call may end: with nothing to change, or right after its commit. -/
def Answers (a : ℕ) (ds : List ℕ) (mutate : ℕ → Mutation) (v : Trace sig)
    (messages : List UpdatedMessage) : Prop :=
  ∃ fs, messages = fs.flatMap Finding.results ∧
    (fs.flatMap (Finding.ops a) = [] ∧ Uncommitted v ∧ Gathers a ds mutate v fs ∨
      ∃ u, v = ⟨.batchConditional (gathered a fs).asserts (gathered a fs).ops, true⟩ :: u ∧
        Uncommitted u ∧ Gathers a ds mutate u fs)

theorem obeys_attempts {guard : Trace sig → Cmd → Prop} (hquiet : ∀ t c, Quiet c → guard t c)
    (a : ℕ) (ds : List ℕ) (mutate : ℕ → Mutation) (attempts : ℕ)
    (hallow : ∀ u fs, Uncommitted u → Gathers a ds mutate u fs →
      guard u (.batchConditional (gathered a fs).asserts (gathered a fs).ops))
    (ht : Uncommitted t) :
    Obeys guard Uncommitted (Answers a ds mutate) t (updateRetry a ds mutate attempts) := by
  induction attempts generalizing t with
  | zero => exact .fail ht
  | succ attempts ih =>
    refine ((obeys_findings a ds t).quietly hquiet fun _ => ht.append).bind ?_
    rintro v attempt ⟨⟨fs, hds, hreads, rfl, hids⟩, new, hnew, rfl⟩
    have hv := ht.append hnew
    have hgathers : Gathers a ds mutate (new ++ t) fs :=
      ⟨hds, hreads, hids ▸ sublist_append_left _ _⟩
    split
    next hempty => exact .ret ⟨fs, rfl, .inl ⟨isEmpty_iff.1 hempty, hv, hgathers⟩⟩
    next =>
      refine .perform (hallow _ fs hv hgathers) fun committed => ?_
      cases committed with
      | true => exact .ret ⟨fs, rfl, .inr ⟨_, rfl, hv, hgathers⟩⟩
      | false => exact ih (hv.cons (by simp [Commit]))

end Obeys

structure UpdatesCall where
  accountId : ℕ
  documentIds : List ℕ
  mutate : ℕ → Mutation

namespace UpdatesCall

def program (c : UpdatesCall) : Action (List UpdatedMessage) :=
  updateMessages c.accountId c.documentIds c.mutate

abbrev Gathers (c : UpdatesCall) (t : Trace sig) (fs : List Finding) : Prop :=
  Mail.Gathers c.accountId c.documentIds c.mutate t fs

inductive Allows (c : UpdatesCall) (t : Trace sig) : Cmd → Prop
  | quiet {cmd : Cmd} : Quiet cmd → Allows c t cmd
  | commit {fs : List Finding} : Uncommitted t → c.Gathers t fs →
      Allows c t (.batchConditional (gathered c.accountId fs).asserts (gathered c.accountId fs).ops)

theorem obeys (c : UpdatesCall) {t : Trace sig} (ht : Uncommitted t) : Obeys c.Allows Uncommitted
    (Answers c.accountId c.documentIds c.mutate) t c.program :=
  obeys_attempts (fun _ _ => .quiet) c.accountId c.documentIds c.mutate _ (fun _ _ => .commit) ht

end UpdatesCall

/-! ## Writes -/

variable {a n : ℕ} {op : WriteOp} {r : Revision} {t : Trace sig}

theorem mem_revision_ops :
    op ∈ r.ops a ↔ op = .set (.data a r.documentId) r.data ∨
      (∃ x ∈ r.vanished, op = tombstoneOp a x) ∨ op = changeOp a r.documentId r.changeId .update := by
  simp [Revision.ops, updateBatch, eq_comm]

variable {fs : List Finding}

theorem mem_finding_ops :
    op ∈ fs.flatMap (Finding.ops a) ↔ ∃ r, .revised r ∈ fs ∧ op ∈ r.ops a := by
  rw [mem_flatMap]
  constructor
  · rintro ⟨f, hf, hop⟩
    cases f with
    | absent d => cases hop
    | unchanged d data => cases hop
    | revised r => exact ⟨r, hf, hop⟩
  · rintro ⟨r, hr, hop⟩
    exact ⟨_, hr, hop⟩

theorem within_finding_ops (a : ℕ) (fs : List Finding) :
    Within [.data, .vanished, .change] (fs.flatMap (Finding.ops a)) := by
  intro op hop
  obtain ⟨r, -, hop⟩ := mem_finding_ops.1 hop
  rcases mem_revision_ops.1 hop with rfl | ⟨x, -, rfl⟩ | rfl <;>
    simp [tombstoneOp, changeOp]

theorem UpdatesCall.Allows.draws {c : UpdatesCall} {cmd : Cmd}
    (h : c.Allows t cmd) {k : CounterLoc} (hop : op ∈ cmd.writes)
    (hloc : op.loc = .counter k) : op = .add k 1 := by
  cases h with
  | quiet hq =>
    cases cmd with
    | addAndGet k' n =>
      cases k' with
      | number a c' d =>
        obtain rfl : n = 1 := hq
        obtain rfl := mem_singleton.1 hop
        rw [Loc.counter.inj hloc]
      | _ => exact hq.elim
    | get | iterate | counter | blobGet | blobModifiedAt | blobHashes | now => cases hop
    | _ => exact hq.elim
  | @commit fs =>
    refine absurd hloc ((within_finding_ops c.accountId fs).loc_ne ?_ op hop)
    simp only [Loc.kind]
    split <;> simp

theorem mem_ids_of_loc {b : ℕ} (hop : op ∈ r.ops a)
    (hloc : op.loc = .change b .email n ∨ op.loc = .vanished b n) : b = a ∧ n ∈ r.ids := by
  rcases mem_revision_ops.1 hop with rfl | ⟨x, hx, rfl⟩ | rfl
  · simp at hloc
  · obtain ⟨rfl, rfl⟩ : a = b ∧ x.1 = n := by simpa [tombstoneOp] using hloc
    exact ⟨rfl, mem_cons_of_mem _ (mem_reverse.2 (mem_map_of_mem hx))⟩
  · obtain ⟨rfl, rfl⟩ : a = b ∧ r.changeId = n := by simpa [changeOp] using hloc
    exact ⟨rfl, mem_cons_self⟩

theorem revision_locs (a : ℕ) (r : Revision) : (r.ops a).map WriteOp.loc =
    .data a r.documentId :: ((r.vanished.map Prod.fst).map (Loc.vanished a) ++
      [.change a .email r.changeId]) := by
  simp only [Revision.ops, updateBatch, map_append, map_map]
  rfl

theorem nodup_revision_locs (a : ℕ) (hids : r.ids.Nodup) :
    ((r.ops a).map WriteOp.loc).Nodup := by
  have hfst : (r.vanished.map Prod.fst).Nodup := nodup_reverse.1 (nodup_cons.1 hids).2
  have hvanished : ((r.vanished.map Prod.fst).map (Loc.vanished a)).Nodup :=
    hfst.map fun x y h => (Loc.vanished.inj h).2
  rw [revision_locs, nodup_cons, nodup_append]
  refine ⟨by simp, hvanished, nodup_singleton _, ?_⟩
  rintro l hl l' hl' rfl
  obtain ⟨n, -, rfl⟩ := mem_map.1 hl
  simp at hl'

theorem nodup_finding_locs (a : ℕ) (hdocs : (fs.map Finding.documentId).Nodup)
    (hids : (fs.flatMap Finding.ids).Nodup) :
    ((fs.flatMap (Finding.ops a)).map WriteOp.loc).Nodup := by
  induction fs with
  | nil => exact nodup_nil
  | cons f fs ih =>
    rw [map_cons, nodup_cons] at hdocs
    rw [flatMap_cons, nodup_append] at hids
    rw [flatMap_cons, map_append, nodup_append]
    refine ⟨?_, ih hdocs.2 hids.2.1, ?_⟩
    · cases f with
      | absent d => exact nodup_nil
      | unchanged d data => exact nodup_nil
      | revised r => exact nodup_revision_locs a hids.1
    · rintro l hl l' hl' rfl
      obtain ⟨op, hop, rfl⟩ := mem_map.1 hl
      obtain ⟨op', hop', hloc⟩ := mem_map.1 hl'
      obtain ⟨r', hr', hop'⟩ := mem_finding_ops.1 hop'
      cases f with
      | absent d => cases hop
      | unchanged d data => cases hop
      | revised r =>
        have hid {n : ℕ} (hl : op.loc = .change a .email n ∨ op.loc = .vanished a n) : False :=
          hids.2.2 n (mem_ids_of_loc hop hl).2 n (mem_flatMap.2 ⟨_, hr',
            (mem_ids_of_loc hop' (hloc ▸ hl)).2⟩) rfl
        rcases mem_revision_ops.1 hop with rfl | ⟨x, -, rfl⟩ | rfl
        · rcases mem_revision_ops.1 hop' with rfl | ⟨x, -, rfl⟩ | rfl
          · refine hdocs.1 (mem_map.2 ⟨_, hr', ?_⟩)
            exact (Loc.data.inj hloc).2
          · cases hloc
          · cases hloc
        · exact hid (.inr rfl)
        · exact hid (.inl rfl)

/-! ## Runs -/

/-- The log has no entry above the counter that its ids are drawn from. -/
structure LogBounded (s : Records) (a : ℕ) : Prop where
  counter : 0 ≤ emailCounter s a
  change : ∀ n, s.lookup (.change a .email n) ≠ none → (n : ℤ) ≤ emailCounter s a
  vanished : ∀ n, s.lookup (.vanished a n) ≠ none → (n : ℤ) ≤ emailCounter s a

theorem mem_drawnIds : n ∈ drawnIds a t ↔ Drew a .email n t := by
  simp only [drawnIds, mem_filterMap]
  constructor
  · rintro ⟨⟨cmd, r⟩, hx, hn⟩
    cases cmd with
    | addAndGet k m =>
      simp only [Option.ite_none_right_eq_some, Option.some.injEq] at hn
      obtain ⟨⟨rfl, rfl⟩, rfl⟩ := hn
      exact ⟨r, hx, rfl⟩
    | _ => cases hn
  · rintro ⟨r, hr, rfl⟩
    exact ⟨_, hr, by simp⟩

section Runs
variable {ι : Type} [DecidableEq ι] {digest : Digest} {past : Past ι}
  {w v : World}

def CountsUp (past : Past ι) : Prop :=
  ∀ e ∈ past, ∀ k, ∀ op ∈ e.cmd.writes, op.loc = .counter k → op = .add k 1

variable {a n : ℕ} {i : ι}

theorem event_of_drawn (h : n ∈ drawnIds a (traceOf i past)) :
    ∃ (u : World) (r : ℤ), ⟨i, u, .addAndGet (.number a .email 0) 1, r⟩ ∈ past ∧
      n = (max r 1).toNat := by
  obtain ⟨r, hr, hn⟩ := mem_drawnIds.1 h
  obtain ⟨⟨j, u, cmd, res⟩, he, rfl, heq⟩ := mem_traceOf.1 hr
  cases heq
  exact ⟨u, res, he, hn⟩

variable (hhistory : History (machine digest) w past v) (hup : CountsUp past)
include hhistory hup

omit [DecidableEq ι] in
theorem drawn_eq (hpos : 0 ≤ emailCounter w.records a) {u : World} {r : ℤ}
    (he : ⟨i, u, .addAndGet (.number a .email 0) 1, r⟩ ∈ past) : ((max r 1).toNat : ℤ) = r := by
  have hlt := ((drawn_of_history hhistory fun e he => hup e he _).2 i u r he).1
  unfold emailCounter at hpos
  omega

theorem drawn_range (hpos : 0 ≤ emailCounter w.records a) (h : n ∈ drawnIds a (traceOf i past)) :
    emailCounter w.records a < n ∧ (n : ℤ) ≤ emailCounter v.records a := by
  obtain ⟨u, r, he, rfl⟩ := event_of_drawn h
  rw [drawn_eq hhistory hup hpos he]
  exact (drawn_of_history hhistory fun e he => hup e he _).2 i u r he

theorem drawn_by_one (hpos : 0 ≤ emailCounter w.records a) {j : ι}
    (hi : n ∈ drawnIds a (traceOf i past)) (hj : n ∈ drawnIds a (traceOf j past)) : i = j := by
  obtain ⟨u, r, he, hn⟩ := event_of_drawn hi
  obtain ⟨u', r', he', hn'⟩ := event_of_drawn hj
  have hr := drawn_eq hhistory hup hpos he
  have hr' := drawn_eq hhistory hup hpos he'
  obtain rfl : r = r' := by omega
  exact drawn_once_of_history hhistory (fun e he => hup e he _) he he'

theorem nodup_drawnIds (hpos : 0 ≤ emailCounter w.records a) (i : ι) :
    (drawnIds a (traceOf i past)).Nodup := by
  induction past generalizing v with
  | nil => exact nodup_nil
  | cons e past ih =>
    obtain ⟨-, hres, hpast⟩ := hhistory
    have hrest := ih hpast fun x hx => hup x (mem_cons_of_mem _ hx)
    by_cases hi : e.who = i
    · rw [traceOf_cons_self hi]
      by_cases hdraw : ∃ n, n ∈ drawnIds a [⟨e.cmd, e.res⟩]
      · obtain ⟨n, hn⟩ := hdraw
        obtain ⟨r, hr, rfl⟩ := mem_drawnIds.1 hn
        obtain ⟨j, u, cmd, res⟩ := e
        cases mem_singleton.1 hr
        obtain rfl : res = u.records.counter (.number a .email 0) + 1 := hres
        -- the new id is above all that were drawn before
        have hnew : (max (u.records.counter (.number a .email 0) + 1) 1).toNat ∉
            drawnIds a (traceOf i past) := fun hmem => by
          have hle := (drawn_range hpast (fun x hx => hup x (mem_cons_of_mem _ hx)) hpos hmem).2
          unfold emailCounter at hle
          dsimp only at hle
          omega
        rw [drawnIds_draw]
        exact nodup_cons.2 ⟨hnew, hrest⟩
      · have hnone : drawnIds a [⟨e.cmd, e.res⟩] = [] :=
          eq_nil_iff_forall_not_mem.2 fun n hn => hdraw ⟨n, hn⟩
        rw [← singleton_append, drawnIds_append, hnone]
        exact hrest
    · rw [traceOf_cons_of_ne hi]
      exact hrest

end Runs

section Calls
variable {ι : Type} [DecidableEq ι] {digest : Digest} {calls : ι → UpdatesCall}
  {past : Past ι} {w v : World}

abbrev Obedient (calls : ι → UpdatesCall) : Past ι → Prop :=
  Always fun e t => (calls e.who).Allows (traceOf e.who t) e.cmd

variable {e : Event sig World ι} {n : ℕ} {i : ι} {t : Trace sig}

theorem Obedient.mem (h : Obedient calls past) (he : e ∈ past) :
    ∃ post pre, past = post ++ e :: pre ∧ (calls e.who).Allows (traceOf e.who pre) e.cmd := by
  obtain ⟨post, pre, rfl⟩ := append_of_mem he
  exact ⟨post, pre, rfl, h.of_split⟩

theorem Obedient.countsUp (h : Obedient calls past) : CountsUp past := by
  intro e he k op hop hloc
  obtain ⟨post, pre, -, hallows⟩ := h.mem he
  exact hallows.draws hop hloc

theorem Obedient.written (h : Obedient calls past) (he : e ∈ past)
    {op : WriteOp} (hop : op ∈ e.cmd.written e.res) {b : ℕ}
    (hloc : op.loc = .change b .email n ∨ op.loc = .vanished b n) :
    n ∈ drawnIds b (traceOf e.who past) ∧ Commit ⟨e.cmd, e.res⟩ := by
  obtain ⟨post, pre, rfl, hallows⟩ := h.mem he
  obtain ⟨i, u, cmd, res⟩ := e
  dsimp only at hallows hop ⊢
  cases hallows with
  | quiet hq =>
    have hwithin := within_of_quiet hq
    rcases hloc with hloc | hloc
    · exact absurd hloc (hwithin.loc_ne (by simp) op (Cmd.writes_of_written hop))
    · exact absurd hloc (hwithin.loc_ne (by simp) op (Cmd.writes_of_written hop))
  | @commit fs hu hgathers =>
    cases res with
    | false => simp [Cmd.written] at hop
    | true =>
      have hops : op ∈ fs.flatMap (Finding.ops (calls i).accountId) := hop
      obtain ⟨r, hr, hop⟩ := mem_finding_ops.1 hops
      obtain ⟨rfl, hn⟩ := mem_ids_of_loc hop hloc
      refine ⟨?_, rfl⟩
      have hdrawn : n ∈ drawnIds (calls i).accountId (traceOf i pre) :=
        hgathers.drawn.subset (mem_flatMap.2 ⟨_, mem_reverse.2 hr, hn⟩)
      obtain ⟨r', hr', hn'⟩ := mem_drawnIds.1 hdrawn
      refine mem_drawnIds.2 ⟨r', ?_, hn'⟩
      obtain ⟨x, hx, hwho⟩ := mem_traceOf.1 hr'
      exact mem_traceOf.2 ⟨x, mem_append_right _ (mem_cons_of_mem _ hx), hwho⟩

theorem Obedient.fresh (h : Obedient calls past) (hhistory : History (machine digest) w past v)
    {a : ℕ} (hlog : LogBounded w.records a) (hi : Uncommitted (traceOf i past))
    (hn : n ∈ drawnIds a (traceOf i past)) {l : Loc}
    (hl : l = .change a .email n ∨ l = .vanished a n) : v.records.lookup l = none := by
  by_contra hne
  by_cases hsame : v.records.lookup l = w.records.lookup l
  · have hlt := (drawn_range hhistory h.countsUp hlog.counter hn).1
    have hle : (n : ℤ) ≤ emailCounter w.records a := by
      rw [hsame] at hne
      rcases hl with rfl | rfl
      · exact hlog.change n hne
      · exact hlog.vanished n hne
    omega
  · obtain ⟨e, he, op, hop, hloc⟩ := written_of_history hhistory hsame
    obtain ⟨hdrawn, hcommit⟩ := h.written he hop (b := a) (n := n) (by rw [hloc]; exact hl)
    have hwho := drawn_by_one hhistory h.countsUp hlog.counter hdrawn hn
    exact hi _ (mem_traceOf.2 ⟨e, he, hwho, rfl⟩) hcommit

variable {c : UpdatesCall}

omit [DecidableEq ι] in
theorem UpdatesCall.Allows.calm (h : c.Allows t e.cmd)
    (hres : e.res = (machine digest e.cmd e.before).1)
    (hlost : ¬ Commit ⟨e.cmd, e.res⟩) :
    Calm e.before.records (machine digest e.cmd e.before).2.records := by
  obtain ⟨i, u, cmd, res⟩ := e
  cases h with
  | quiet hq => exact calm_quiet digest hq u
  | commit =>
    have hfalse : res = false := by simpa [Commit] using hlost
    subst hfalse
    rw [records_machine, ← hres]
    exact Calm.refl _

theorem Obedient.calm (h : Obedient calls past) (hhistory : History (machine digest) w past v)
    (hi : Uncommitted (traceOf i past)) (he : e ∈ past)
    (hwho : e.who = i) : Calm e.before.records (machine digest e.cmd e.before).2.records := by
  obtain ⟨post, pre, -, hallows⟩ := h.mem he
  exact hallows.calm (hhistory.res_eq _ he) (hi _ (mem_traceOf.2 ⟨e, he, hwho, rfl⟩))

/-- What a call found of a document: as it was when the call read it, or, if it changes the
document, as it is when it commits. -/
def Finding.Found (c : UpdatesCall) (i : ι) (past : Past ι) : Finding → Prop
  | absent d => ∃ e ∈ past, e.who = i ∧ e.before.records.lookup (.data c.accountId d) = none
  | unchanged d data => (∃ e ∈ past, e.who = i ∧
      e.before.records.lookup (.data c.accountId d) = some data) ∧ c.mutate d data = .ok data
  | revised r => r.By c.mutate

/-- The event is where the call takes effect: the records that it changes are as the
mutation found them, and become what it made of them; every change has one entry in the
log and one tombstone for each mailbox entry that goes, under new ids. -/
structure TakesEffect (digest : Digest) (c : UpdatesCall) (fs : List Finding)
    (e : Event sig World ι) : Prop where
  current : ∀ r, .revised r ∈ fs →
    e.before.records.lookup (.data c.accountId r.documentId) = some r.original
  data : ∀ r, .revised r ∈ fs → (machine digest e.cmd e.before).2.records.lookup
    (.data c.accountId r.documentId) = some r.data
  change : ∀ r, .revised r ∈ fs → (machine digest e.cmd e.before).2.records.lookup
    (.change c.accountId .email r.changeId) = some ⟨r.documentId, .update⟩
  vanished : ∀ r, .revised r ∈ fs → ∀ x ∈ r.vanished,
    (machine digest e.cmd e.before).2.records.lookup (.vanished c.accountId x.1) =
      some (tombstoneOf x.2)
  others : ∀ l, (∀ op ∈ fs.flatMap (Finding.ops c.accountId), op.loc ≠ l) →
    (machine digest e.cmd e.before).2.records.lookup l = e.before.records.lookup l
  apart : (fs.flatMap Finding.ids).Nodup
  fresh : ∀ n ∈ fs.flatMap Finding.ids,
    e.before.records.lookup (.change c.accountId .email n) = none ∧
      e.before.records.lookup (.vanished c.accountId n) = none

theorem Obedient.takesEffect (h : Obedient calls past)
    (hhistory : History (machine digest) w past v) {fs : List Finding}
    (hlog : LogBounded w.records (calls i).accountId) (hnodup : (calls i).documentIds.Nodup)
    (hu : Uncommitted (traceOf i past)) (hgathers : (calls i).Gathers (traceOf i past) fs)
    (hres : true = (machine digest (.batchConditional (gathered (calls i).accountId fs).asserts
      (gathered (calls i).accountId fs).ops) v).1) :
    TakesEffect digest (calls i) fs (⟨i, v, .batchConditional
      (gathered (calls i).accountId fs).asserts (gathered (calls i).accountId fs).ops, true⟩ :
        Event sig World ι) := by
  have hperm : (fs.reverse.flatMap Finding.ids).Perm (fs.flatMap Finding.ids) :=
    fs.reverse_perm.flatMap_right _
  have hapart : (fs.flatMap Finding.ids).Nodup := hperm.nodup_iff.1
    (hgathers.drawn.nodup (nodup_drawnIds hhistory h.countsUp hlog.counter i))
  have hlocs := nodup_finding_locs (calls i).accountId (hgathers.documents ▸ hnodup) hapart
  have hasserts : ∀ x ∈ (gathered (calls i).accountId fs).asserts, v.records.meets x := by
    by_contra hfalse
    simp only [machine] at hres
    rw [if_neg (by simpa using hfalse)] at hres
    cases hres
  have hafter : (machine digest (.batchConditional (gathered (calls i).accountId fs).asserts
      (gathered (calls i).accountId fs).ops) v).2.records =
      v.records.batch (fs.flatMap (Finding.ops (calls i).accountId)) := by
    rw [records_machine, ← hres]
    rfl
  have hset {l : Loc} {x : Val l} {r : Revision} (hr : .revised r ∈ fs)
      (hop : WriteOp.set l x ∈ r.ops (calls i).accountId) :
      (v.records.batch (fs.flatMap (Finding.ops (calls i).accountId))).lookup l = some x := by
    rw [Records.lookup_batch]
    exact effects_of_mem_nodup (mem_finding_ops.2 ⟨r, hr, hop⟩) hlocs _
  refine ⟨fun r hr => ?_, fun r hr => ?_, fun r hr => ?_, fun r hr x hx => ?_, fun l hl => ?_,
    hapart, fun n hn => ?_⟩
  · have hmem : (⟨.data (calls i).accountId r.documentId, some r.original⟩ : ValueAssert) ∈
        (gathered (calls i).accountId fs).asserts :=
      mem_flatMap.2 ⟨_, hr, mem_singleton_self _⟩
    simpa [Records.meets] using hasserts _ hmem
  · rw [hafter]
    exact hset hr (mem_revision_ops.2 (.inl rfl))
  · rw [hafter]
    exact hset hr (mem_revision_ops.2 (.inr (.inr rfl)))
  · rw [hafter]
    exact hset hr (mem_revision_ops.2 (.inr (.inl ⟨x, hx, rfl⟩)))
  · rw [hafter, Records.lookup_batch, effects_of_ne hl]
  · have hdrawn := hgathers.drawn.subset (hperm.mem_iff.2 hn)
    exact ⟨h.fresh hhistory hlog hu hdrawn (.inl rfl), h.fresh hhistory hlog hu hdrawn (.inr rfl)⟩

theorem found_of_read {f : Finding}
    (hhistory : History (machine digest) w past v)
    (h : f.Read c.accountId c.mutate (traceOf i past)) : f.Found c i past := by
  have hheld {d : ℕ} {x : Option MessageData} (hgot : Got (.data c.accountId d) x (traceOf i past)) :
      ∃ e ∈ past, e.who = i ∧ e.before.records.lookup (.data c.accountId d) = x := by
    obtain ⟨⟨j, u, cmd, res⟩, he, hwho, heq⟩ := mem_traceOf.1 hgot
    have hres := hhistory.res_eq _ he
    cases heq
    exact ⟨_, he, hwho, hres.symm⟩
  cases f with
  | absent d => exact hheld h
  | unchanged d data => exact ⟨hheld h.1, h.2⟩
  | revised r => exact h.2

theorem split_of_traceOf {x : Access}
    (h : traceOf i past = x :: t) : ∃ post e pre, past = post ++ e :: pre ∧ e.who = i ∧
      (⟨e.cmd, e.res⟩ : Access) = x ∧ traceOf i pre = t ∧ ∀ y ∈ post, y.who ≠ i := by
  induction past with
  | nil => cases h
  | cons e past ih =>
    by_cases hi : e.who = i
    · rw [traceOf_cons_self hi] at h
      obtain ⟨hx, ht⟩ := cons.inj h
      exact ⟨[], e, past, rfl, hi, hx, ht, by simp⟩
    · rw [traceOf_cons_of_ne hi] at h
      obtain ⟨post, y, pre, rfl, hy, hx, ht, hpost⟩ := ih h
      exact ⟨e :: post, y, pre, rfl, hy, hx, ht, forall_mem_cons.2 ⟨hi, hpost⟩⟩

variable (digest) in
/-- The call changed nothing but number sequences. -/
def LeftAlone (i : ι) (past : Past ι) : Prop :=
  ∀ e ∈ past, e.who = i → Calm e.before.records (machine digest e.cmd e.before).2.records

variable (digest) in
/-- The call did what it reports: it changed nothing, or it took effect on all the records
that it changed in one event. -/
def CarriedOut (c : UpdatesCall) (i : ι) (past : Past ι)
    (messages : List UpdatedMessage) : Prop :=
  ∃ fs : List Finding, fs.map Finding.documentId = c.documentIds ∧
    messages = fs.flatMap Finding.results ∧ (∀ f ∈ fs, f.Found c i past) ∧
    ((∀ r, .revised r ∉ fs) ∧ LeftAlone digest i past ∨
      ∃ post e pre, past = post ++ e :: pre ∧ e.who = i ∧ TakesEffect digest c fs e ∧
        LeftAlone digest i (post ++ pre))

def updatesPool (calls : ι → UpdatesCall) (w : World) : Pool sig World ι (List UpdatedMessage) :=
  Pool.start w fun i => (calls i).program

/-- In every interleaving of calls with distinct documents: a call that returns took effect
at once on the records that it changed, and a call that fails changed nothing. -/
theorem updateMessages_takes_effect (digest : Bytes → BlobHash) (calls : ι → UpdatesCall)
    (hnodup : ∀ i, (calls i).documentIds.Nodup) (w : World) (hlog : ∀ a, LogBounded w.records a)
    (is : List ι) (i : ι) :
    (∀ messages, ((updatesPool calls w).run (machine digest) is).thread i = .ret messages →
      CarriedOut digest (calls i) i ((updatesPool calls w).run (machine digest) is).past messages) ∧
    (∀ e, ((updatesPool calls w).run (machine digest) is).thread i = .fail e →
      LeftAlone digest i ((updatesPool calls w).run (machine digest) is).past) := by
  have hrun := Pool.obeying_run (machine digest) w (fun i : ι => (calls i).obeys uncommitted_nil) is
  change Pool.Obeying _ _ _ _ _ ((updatesPool calls w).run (machine digest) is) at hrun
  generalize (updatesPool calls w).run (machine digest) is = p at hrun
  have hobedient : Obedient calls p.past := hrun.events
  refine ⟨fun messages hret => ?_, fun e hfail x hx hwho => ?_⟩
  · obtain ⟨fs, hmessages, ⟨hnone, hu, hgathers⟩ | ⟨u, htrace, hu, hgathers⟩⟩ :=
      hrun.returned (machine digest) hret
    · refine ⟨fs, hgathers.documents, hmessages,
        fun f hf => found_of_read hrun.history (hgathers.read f hf), .inl ⟨fun r hr => ?_, ?_⟩⟩
      · have hop : WriteOp.set (.data (calls i).accountId r.documentId) r.data ∈
            fs.flatMap (Finding.ops (calls i).accountId) :=
          mem_finding_ops.2 ⟨r, hr, mem_revision_ops.2 (.inl rfl)⟩
        rw [hnone] at hop
        cases hop
      · exact fun x hx hwho => hobedient.calm hrun.history hu hx hwho
    · obtain ⟨post, e, pre, hpast, hwho, heq, rfl, hpost⟩ := split_of_traceOf htrace
      obtain ⟨⟨j, v, cmd, res⟩, rfl⟩ : ∃ e', e = e' := ⟨e, rfl⟩
      cases heq
      obtain rfl : j = i := hwho
      have hhistory := hrun.history
      rw [hpast] at hhistory hobedient
      obtain ⟨t, hpre, -⟩ := hhistory.split
      obtain ⟨-, hres, hbefore⟩ := hpre
      have hpreObedient : Obedient calls pre := (Always.of_append hobedient).2
      have hsub : pre ⊆ p.past := by
        rw [hpast]
        exact fun x hx => List.mem_append_right _ (List.mem_cons_of_mem _ hx)
      refine ⟨fs, hgathers.documents, hmessages, fun f hf => ?_, .inr ⟨post, _, pre, hpast, rfl,
        hpreObedient.takesEffect hbefore (hlog _) (hnodup j) hu hgathers hres, fun x hx hwho => ?_⟩⟩
      · refine found_of_read hrun.history ((hgathers.read f hf).mono fun x hx => ?_)
        obtain ⟨y, hy, hwho⟩ := mem_traceOf.1 hx
        exact mem_traceOf.2 ⟨y, hsub hy, hwho⟩
      · rcases List.mem_append.1 hx with hx | hx
        · exact absurd hwho (hpost x hx)
        · exact hpreObedient.calm hbefore hu hx hwho
  · exact hobedient.calm hrun.history (hrun.failed (machine digest) hfail) hx hwho

end Calls
/-! ## Two calls that cross -/

def oneFlagged : World :=
  { World.empty (.new 0) 0 with
    records := (∅ : Records).batch
      [.set (.data 7 1) ((MessageData.new 1 1).addKeyword .flagged),
        .set (.data 7 2) (MessageData.new 2 1)] }

def flagOrNot : Bool → UpdatesCall
  | false => ⟨7, [1, 2], fun _ data => .ok (data.addKeyword .flagged)⟩
  | true => ⟨7, [1, 2], fun _ data => .ok (data.removeKeyword .flagged)⟩

def flagOrNotRun (schedule : List Bool) : Pool sig World Bool (List UpdatedMessage) :=
  (updatesPool flagOrNot oneFlagged).run (machine Env.plain.digest) schedule

/-- The first call reads the first message; the second reads both and draws its id; the
first goes on with the second message and commits, and then the second commits. -/
def crossing : List Bool := [false, true, true, true, false, false, false, true]

def flags (w : World) : List (Option (List Keyword)) :=
  [1, 2].map fun d => (w.records.lookup (.data 7 d)).map MessageData.keywords

def AppliesToAll (digest : Digest) (c : UpdatesCall) (e : Event sig World Bool) : Prop :=
  ∀ d ∈ c.documentIds, ∀ data ∈ e.before.records.lookup (.data c.accountId d),
    (machine digest e.cmd e.before).2.records.lookup (.data c.accountId d) =
      (c.mutate d data).toOption

instance (digest : Digest) (c : UpdatesCall) (e : Event sig World Bool) :
    Decidable (AppliesToAll digest c e) :=
  inferInstanceAs (Decidable (∀ d ∈ c.documentIds, _))

def flagsAfter (first second : Bool) : List (Option (List Keyword)) :=
  flags ((flagOrNot second).program.run (machine Env.plain.digest)
    ((flagOrNot first).program.run (machine Env.plain.digest) oneFlagged).2).2

/-- Both calls return. The second has no event at which it takes the flag away from what
has it then, and the flags are not what the calls give in either order. -/
theorem crossing_not_atomic :
    (flagOrNotRun crossing).Finished ∧
      ((∃ messages, (flagOrNotRun crossing).thread false = .ret messages) ∧
        ∃ messages, (flagOrNotRun crossing).thread true = .ret messages) ∧
      (¬ ∃ e ∈ (flagOrNotRun crossing).past, e.who = true ∧
        AppliesToAll Env.plain.digest (flagOrNot true) e) ∧
      flags (flagOrNotRun crossing).state ≠ flagsAfter false true ∧
      flags (flagOrNotRun crossing).state ≠ flagsAfter true false := by
  refine ⟨fun i => ?_, ⟨⟨_, rfl⟩, ⟨_, rfl⟩⟩, by decide, by decide, by decide⟩
  cases i <;> exact .inl ⟨_, rfl⟩

theorem logBounded_oneFlagged (a : ℕ) : LogBounded oneFlagged.records a := by
  have hlookup (l : Loc) (hl : l.kind ≠ .data) : oneFlagged.records.lookup l = none := by
    unfold oneFlagged
    rw [Records.lookup_batch, effects_of_ne]
    · rfl
    · intro op hop
      simp only [mem_cons, not_mem_nil, or_false] at hop
      rcases hop with rfl | rfl <;> rintro rfl <;> exact hl rfl
  refine ⟨?_, fun n hn => absurd (hlookup _ (by simp)) hn, fun n hn => absurd (hlookup _ (by simp)) hn⟩
  exact Int.le_refl _

theorem crossing_takes_effect :
    (∀ i, (flagOrNot i).documentIds.Nodup) ∧ (∀ a, LogBounded oneFlagged.records a) ∧
      ∃ messages, CarriedOut Env.plain.digest (flagOrNot false) false
        (flagOrNotRun crossing).past messages := by
  have hnodup : ∀ i, (flagOrNot i).documentIds.Nodup := by decide
  exact ⟨hnodup, logBounded_oneFlagged, _, (updateMessages_takes_effect Env.plain.digest flagOrNot
    hnodup oneFlagged logBounded_oneFlagged crossing false).1 _ rfl⟩

end IrixMail.Mail

import IrixMail.Imap.Interleaved
import IrixMail.Mail.Atomicity

/-!
# STORE with UNCHANGEDSINCE among other programs

The command compares the change ids of the messages with its bound once, in the log as
it reads it. `updateMessages` reads the records anew and makes sure that they are still
as it read them when it commits, but nothing looks at the log again: a change that is
committed between the two reads goes unnoticed.
-/

namespace IrixMail.Imap
open Library Prog Store Mail List

abbrev logPrefix (a : ℕ) : KeyPrefix := .ofCollection .changeLog a .email

structure StoreCall where
  accountId : ℕ
  ranges : List SeqRange
  op : StoreOp
  uidMode : Bool
  since : ℕ

namespace StoreCall
variable (c : StoreCall)

def mutate : ℕ → Mutation := fun _ data =>
  .ok { data with keywords := desiredKeywords data.keywords c.op }

def number (x : Numbered) : ℕ := if c.uidMode then x.uid else x.seqno

/-- What the command has read: the messages that it addresses, and the log, in which the
targets have no change after the bound. -/
structure Examined (t : Trace sig) (hits targets : List Numbered) : Prop where
  shown : ∃ mailboxId rows,
    (⟨.iterate (messagePrefix c.accountId), rows⟩ : Access) ∈ t ∧
    hits = addressed c.ranges c.uidMode (membersIn mailboxId rows)
  unmodified : ∃ rows page, (⟨.iterate (logPrefix c.accountId), rows⟩ : Access) ∈ t ∧
    ChangeLog.readPage 0 none [] rows = .ok page ∧
    ∀ x ∈ targets, (modseqOf page.1 x.entry.documentId).getD 1 ≤ c.since

def updates (targets : List Numbered) : UpdatesCall :=
  ⟨c.accountId, targets.map fun x => x.entry.documentId, c.mutate⟩

inductive Allows (t : Trace sig) : Cmd → Prop
  | quiet {cmd : Cmd} : Quiet cmd → Allows t cmd
  | commit {hits targets : List Numbered} {fs : List Finding} : c.Examined t hits targets →
      (c.updates targets).Gathers t fs → Allows t (.batchConditional
        (gathered c.accountId fs).asserts (gathered c.accountId fs).ops)

/-- The command has ended without a change, or with its commit. -/
def Concludes (hits targets : List Numbered) (v : Trace sig) : Prop :=
  Uncommitted v ∧ c.Examined v hits targets ∨
    ∃ x u fs, v = x :: u ∧ Uncommitted u ∧ c.Examined u hits targets ∧
      (c.updates targets).Gathers u fs

variable {c}

variable {t : Trace sig}

theorem Examined.mono {u : Trace sig} {hits targets : List Numbered}
    (h : c.Examined t hits targets) (htu : t <:+ u) : c.Examined u hits targets := by
  obtain ⟨⟨mailboxId, rows, hrows, hhits⟩, logged, page, hlogged, hpage⟩ := h
  exact ⟨⟨mailboxId, rows, htu.subset hrows, hhits⟩, logged, page, htu.subset hlogged, hpage⟩

theorem Concludes.of_answers {v : Trace sig} {hits targets : List Numbered}
    {messages : List UpdatedMessage} (ht : c.Examined t hits targets)
    (h : Answers c.accountId (targets.map fun x => x.entry.documentId) c.mutate v messages)
    (htv : t <:+ v) (huncommitted : Uncommitted t) : c.Concludes hits targets v := by
  obtain ⟨fs, -, ⟨-, hv, -⟩ | ⟨u, rfl, hu, hgathers⟩⟩ := h
  · exact .inl ⟨hv, ht.mono htv⟩
  · rcases suffix_cons_iff.1 htv with rfl | htu
    · exact absurd rfl (huncommitted _ mem_cons_self)
    · exact .inr ⟨_, u, fs, rfl, hu, ht.mono htu, hgathers⟩

end StoreCall

/-! ## The command obeys this -/

namespace Session
variable (s : Session) {α : Type} {guard : Trace sig → Cmd → Prop} {E : Trace sig → Prop}
  (hquiet : ∀ t c, Quiet c → guard t c)
include hquiet

variable {t : Trace sig}

omit s in
theorem obeys_modseqMap (a : ℕ) (hE : ∀ rows, E (⟨.iterate (logPrefix a), rows⟩ :: t)) :
    Obeys guard E (fun v changes => ∃ rows page, v = ⟨.iterate (logPrefix a), rows⟩ :: t ∧
      ChangeLog.readPage 0 none [] rows = .ok page ∧ changes = page.1) t (modseqMap a) := by
  unfold modseqMap ChangeLog.changesSince ChangeLog.changesPage
  rw [if_neg (by simp), bind_assoc]
  refine .perform (hquiet _ _ trivial) fun rows => ?_
  cases hpage : ChangeLog.readPage 0 none [] rows with
  | error e => exact .fail (hE _)
  | ok page => exact .ret ⟨rows, page, rfl, hpage, rfl⟩

theorem obeys_modseqsFor (hE : ∀ rows, E (⟨.iterate (logPrefix s.accountId), rows⟩ :: t)) :
    Obeys guard E (fun v modseqs => ∃ rows page,
      v = ⟨.iterate (logPrefix s.accountId), rows⟩ :: t ∧
      ChangeLog.readPage 0 none [] rows = .ok page ∧ modseqs = some page.1) t
      (s.modseqsFor true) :=
  (obeys_modseqMap hquiet s.accountId hE).bind fun _ _ ⟨rows, page, hv, hpage, hchanges⟩ =>
    .ret ⟨rows, page, hv, hpage, congrArg some hchanges⟩

omit s in
theorem obeys_canCalculate (a since : ℕ) (t : Trace sig) :
    Obeys guard E (fun v _ => ∃ floor, v = ⟨.get (.floor a .email), floor⟩ :: t) t
      (ChangeLog.canCalculate a .email since) :=
  .call (hquiet _ _ trivial) fun floor => .ret ⟨floor, rfl⟩

end Session

namespace StoreCall
variable (c : StoreCall)

theorem obeys_updateMessages {t : Trace sig} {hits targets : List Numbered}
    (ht : c.Examined t hits targets) (huncommitted : Uncommitted t) :
    Obeys c.Allows Uncommitted (fun v _ => c.Concludes hits targets v) t
      (updateMessages c.accountId (targets.map fun x => x.entry.documentId) c.mutate) := by
  have hcall := ((c.updates targets).obeys huncommitted).extends
  refine (hcall.weaken ?_ fun _ => And.left).mono fun v messages ⟨h, htv⟩ =>
    .of_answers ht h htv huncommitted
  rintro u cmd ⟨hallows, htu⟩
  cases hallows with
  | quiet hq => exact .quiet hq
  | commit _ hgathers => exact .commit (ht.mono htu) hgathers

/-- What the command has done after its reads and its updates. -/
def Answered (v : Trace sig) (lines : List Line) (modified : List ℕ) : Prop :=
  lines = [] ∧ modified = [] ∧ (∀ x ∈ v, x.1 ≠ .iterate (messagePrefix c.accountId)) ∨
    ∃ hits targets, (∀ x ∈ hits, x ∈ targets ∨ c.number x ∈ modified) ∧
      c.Concludes hits targets v

theorem le_since_of_not_isModified {changes : List ChangeLogEntry} (calculable : Bool)
    {since : ℕ} {x : Numbered}
    (h : Session.isModified (some changes) calculable (some since) x = false) :
    (modseqOf changes x.entry.documentId).getD 1 ≤ since := by
  simp only [Session.isModified, Option.any_some, Bool.or_eq_false_iff, decide_eq_false_iff_not,
    not_lt] at h
  exact h.2

theorem obeys_applyStore (s : Session) (hs : s.accountId = c.accountId) :
    Obeys c.Allows Uncommitted (fun v r => c.Answered v r.1 r.2) []
      (s.applyStore c.ranges c.op c.uidMode (some c.since)) := by
  have hquiet : ∀ t cmd, Quiet cmd → c.Allows t cmd := fun _ _ => .quiet
  refine s.obeys_inSelected hquiet (fun _ => .inl ⟨rfl, rfl, by simp⟩)
    (fun _ _ _ _ => .inl ⟨rfl, rfl, by simp [KeyPrefix.ofCollection]⟩)
    fun name named mailbox _ _ => ?_
  refine (s.obeys_members hquiet mailbox.id _).bind ?_
  rintro _ members ⟨latest, rows, rfl, rfl⟩
  have hread : Uncommitted (⟨.iterate (messagePrefix s.accountId), rows⟩ ::
      ⟨.counter (ChangeLog.counterLoc s.accountId .email), latest⟩ ::
      [⟨.iterate (mailboxPrefix s.accountId), named⟩]) :=
    ((uncommitted_nil.cons id).cons id).cons id
  refine (s.obeys_modseqsFor hquiet fun _ => hread.cons id).bind ?_
  rintro _ modseqs ⟨logged, page, rfl, hpage, rfl⟩
  refine (Session.obeys_canCalculate hquiet s.accountId c.since _).bind ?_
  rintro _ calculable ⟨floor, rfl⟩
  generalize hhits : addressed c.ranges c.uidMode (membersIn mailbox.id rows) = hits
  let targets := hits.filter
    fun x => !Session.isModified (some page.1) calculable (some c.since) x
  have hexamined : c.Examined (⟨.get (.floor s.accountId .email), floor⟩ ::
      ⟨.iterate (logPrefix s.accountId), logged⟩ ::
      ⟨.iterate (messagePrefix s.accountId), rows⟩ ::
      ⟨.counter (ChangeLog.counterLoc s.accountId .email), latest⟩ ::
      [⟨.iterate (mailboxPrefix s.accountId), named⟩]) hits targets := by
    refine ⟨⟨mailbox.id, rows, by simp [hs], hhits.symm⟩, logged, page, by simp [hs], hpage,
      fun x hx => le_since_of_not_isModified calculable ?_⟩
    simpa using (mem_filter.1 hx).2
  rw [hs] at hexamined hread ⊢
  refine (c.obeys_updateMessages hexamined ((hread.cons id).cons id)).bind
    fun v results hv => .ret (.inr ⟨hits, targets, fun x hx => ?_, hv⟩)
  by_cases hmodified : Session.isModified (some page.1) calculable (some c.since) x
  · exact .inr (mem_map.2 ⟨x, mem_filter.2 ⟨hx, hmodified⟩, rfl⟩)
  · exact .inl (mem_filter.2 ⟨hx, by simpa using hmodified⟩)

def program (env : Env) (s : Session) : Action (List Line × Session) :=
  s.dispatch env (.store c.ranges c.op c.uidMode (some c.since))

def completed (modified : List ℕ) : Line :=
  .tagged .ok (if modified.isEmpty then none else some (.modified (compressSequence modified)))
    (Session.storeLabel c.uidMode ++ " completed")

def Replies (v : Trace sig) (lines : List Line) : Prop :=
  (∃ text, lines = [refusal text]) ∧ Uncommitted v ∨
    ∃ told modified, lines = told ++ [c.completed modified] ∧ c.Answered v told modified

theorem obeys_program (env : Env) (s : Session) (hs : s.accountId = c.accountId) :
    Obeys c.Allows (fun _ => True) (fun v reply => c.Replies v reply.1) [] (c.program env s) := by
  refine Session.obeys_whenWritable (fun _ => .inl ⟨⟨_, rfl⟩, uncommitted_nil⟩) ?_
  have happly := c.obeys_applyStore
    { s with condstore := s.condstore || (some c.since).isSome } hs
  refine ((obeys_caught happly).weaken (fun _ _ => id) fun _ _ => trivial).bind fun v r hr => ?_
  cases r with
  | error e => exact .ret (.inl ⟨⟨_, rfl⟩, hr.2 e rfl⟩)
  | ok answer => exact .ret (.inr ⟨answer.1, answer.2, rfl, hr.1 answer rfl⟩)

end StoreCall

/-! ## In every interleaving -/

/-- No change of the message after the bound is in the log. -/
def SettledAt (a d since : ℕ) (w : World) : Prop :=
  ∀ n kind, w.records.lookup (.change a .email n) = some ⟨d, kind⟩ → n ≤ since

def documentsRead (a : ℕ) (t : Trace sig) : List ℕ :=
  t.filterMap fun
    | ⟨.get (.data b d), _⟩ => if b = a then some d else none
    | _ => none

def logsRead (a : ℕ) (t : Trace sig) : List (List (Sigma Val)) :=
  t.filterMap fun
    | ⟨.iterate p, rows⟩ => if p = logPrefix a then some rows else none
    | _ => none

def tellsOf (d : ℕ) : Sigma Val → Bool
  | ⟨.change _ _ _, v⟩ => v.documentId == d
  | _ => false

def isConditional : Cmd → Bool
  | .batchConditional _ _ => true
  | _ => false

section Kept
variable {ι : Type} [DecidableEq ι]

/-- When the thread commits, the log tells of the messages it has read only what it told
when the thread read it. -/
def LogKept (a : ℕ) (i : ι) (e : Event sig World ι) (past : Past ι) : Prop :=
  e.who = i → isConditional e.cmd = true → ∀ d ∈ documentsRead a (traceOf i past),
    ∀ rows ∈ logsRead a (traceOf i past), ∀ row ∈ e.before.records.iterate (logPrefix a),
      tellsOf d row = true → row ∈ rows

instance LogKept.decidable (a : ℕ) (i : ι) (e : Event sig World ι)
    (past : Past ι) : Decidable (LogKept a i e past) :=
  inferInstanceAs (Decidable (e.who = i → isConditional e.cmd = true →
    ∀ d ∈ documentsRead a (traceOf i past), ∀ rows ∈ logsRead a (traceOf i past),
      ∀ row ∈ e.before.records.iterate (logPrefix a), tellsOf d row = true → row ∈ rows))

variable {a : ℕ} {t : Trace sig}

theorem le_modseqOf {changes : List ChangeLogEntry}
    (h : changes.Pairwise fun e e' => e.changeId < e'.changeId) {entry : ChangeLogEntry}
    (hentry : entry ∈ changes) :
    ∃ m, modseqOf changes entry.documentId = some m ∧ entry.changeId ≤ m := by
  have hsome : (changes.reverse.find? fun e => e.documentId = entry.documentId).isSome := by
    rw [find?_isSome]
    exact ⟨entry, mem_reverse.2 hentry, by simp⟩
  obtain ⟨last, hlast⟩ := Option.isSome_iff_exists.1 hsome
  refine ⟨last.changeId, by rw [modseqOf, hlast]; rfl, ?_⟩
  obtain ⟨-, later, earlier, hsplit, hnone⟩ := find?_eq_some_iff_append.1 hlast
  have hmem : entry ∈ later ++ last :: earlier := hsplit ▸ mem_reverse.2 hentry
  rcases mem_append.1 hmem with hmem | hmem
  · exact absurd (hnone entry hmem) (by simp)
  · have hsorted := pairwise_reverse.2 h
    rw [hsplit] at hsorted
    rcases mem_cons.1 hmem with rfl | hmem
    · exact le_rfl
    · exact ((pairwise_cons.1 (pairwise_append.1 hsorted).2.1).1 entry hmem).le

end Kept

variable {a d since : ℕ} {v : World}

theorem settledAt_of_modseqOf {page : List ChangeLogEntry × Bool}
    (hpage : ChangeLog.readPage 0 none [] (v.records.iterate (logPrefix a)) = .ok page)
    (h : (modseqOf page.1 d).getD 1 ≤ since) : SettledAt a d since v := by
  have hchanges : page.1 = ChangeLog.changesOf v.records a .email 0 := by
    rw [ChangeLog.readPage_eq 0 (ChangeLog.change_of_mem_iterate (by simp)) [] (by simp)] at hpage
    rw [← Except.ok.inj hpage]
    exact take_of_length_le (Nat.le_succ _)
  rw [hchanges] at h
  intro n kind hlookup
  rcases Nat.eq_zero_or_pos n with rfl | hn
  · exact Nat.zero_le since
  · have hentry : (⟨n, d, kind⟩ : ChangeLogEntry) ∈ ChangeLog.changesOf v.records a .email 0 :=
      ChangeLog.mem_changesOf.2 ⟨hn, hlookup⟩
    obtain ⟨m, hm, hle⟩ := le_modseqOf (ChangeLog.sorted_changesOf v.records a .email 0) hentry
    rw [hm] at h
    exact hle.trans h

theorem SettledAt.of_kept {u : World} (h : SettledAt a d since v)
    (hkept : ∀ row ∈ u.records.iterate (logPrefix a), tellsOf d row = true →
      row ∈ v.records.iterate (logPrefix a)) : SettledAt a d since u := by
  intro n kind hlookup
  have hrow : (⟨.change a .email n, ⟨d, kind⟩⟩ : Sigma Val) ∈ u.records.iterate (logPrefix a) :=
    Records.mem_iterate.2 ⟨⟨[0, n], rfl⟩, hlookup⟩
  exact h n kind (Records.mem_iterate.1 (hkept _ hrow (beq_self_eq_true d))).2

section Runs
variable {ι : Type} [DecidableEq ι] {digest : Digest} {past : Past ι}
  {u w : World} {i : ι} {c : StoreCall} {hits targets : List Numbered}

theorem StoreCall.Examined.settledAt (h : c.Examined (traceOf i past) hits targets)
    (hhistory : History (machine digest) w past u) :
    ∃ e ∈ past, e.who = i ∧ e.cmd = .iterate (logPrefix c.accountId) ∧
      e.before.records.iterate (logPrefix c.accountId) ∈
        logsRead c.accountId (traceOf i past) ∧
      ∀ x ∈ targets, SettledAt c.accountId x.entry.documentId c.since e.before := by
  obtain ⟨rows, page, hrows, hpage, htargets⟩ := h.unmodified
  obtain ⟨e, he, hwho, hcmd, rfl⟩ := exists_scan hhistory hrows
  exact ⟨e, he, hwho, hcmd, mem_filterMap.2 ⟨_, hrows, if_pos rfl⟩, fun x hx =>
    settledAt_of_modseqOf hpage (htargets x hx)⟩

variable {e : Event sig World ι}

theorem StoreCall.Examined.settledAt_commit (h : c.Examined (traceOf i past) hits targets)
    {fs : List Finding}
    (hhistory : History (machine digest) w past e.before)
    (hgathers : (c.updates targets).Gathers (traceOf i past) fs)
    (hkept : LogKept c.accountId i e past) (hwho : e.who = i)
    (hcmd : isConditional e.cmd = true) {x : Numbered} (hx : x ∈ targets) :
    SettledAt c.accountId x.entry.documentId c.since e.before := by
  obtain ⟨r, hr, -, -, hlog, hsettled⟩ := h.settledAt hhistory
  have hdocument : x.entry.documentId ∈ fs.map Finding.documentId := by
    rw [hgathers.documents]
    exact mem_map.2 ⟨x, hx, rfl⟩
  obtain ⟨f, hf, hfx⟩ := mem_map.1 hdocument
  obtain ⟨data, hgot⟩ := (hgathers.read f hf).got
  rw [hfx] at hgot
  exact (hsettled x hx).of_kept (hkept hwho hcmd _ (mem_filterMap.2 ⟨_, hgot, if_pos rfl⟩) _ hlog)

theorem traceOf_eq_of_commit {post pre : Past ι} {x : Access}
    {t : Trace sig} (h : traceOf i (post ++ e :: pre) = x :: t)
    (ht : Uncommitted t) (hwho : e.who = i) (hcommit : Commit ⟨e.cmd, e.res⟩) :
    traceOf i pre = t := by
  have hsplit : traceOf i (post ++ e :: pre) =
      traceOf i post ++ ⟨e.cmd, e.res⟩ :: traceOf i pre := by
    simp [traceOf, hwho]
  rw [hsplit] at h
  cases hpost : traceOf i post with
  | nil =>
    rw [hpost] at h
    exact (cons.inj h).2
  | cons y later =>
    rw [hpost] at h
    have hmem : (⟨e.cmd, e.res⟩ : Access) ∈ t := by
      rw [← (cons.inj h).2]
      exact mem_append_right _ mem_cons_self
    exact absurd hcommit (ht _ hmem)

namespace StoreCall

/-- What a command may have told when it has ended. -/
inductive Reports (c : StoreCall) (i : ι) (past : Past ι) : List Line → Prop
  | refused {text : String} :
      (∀ e ∈ past, e.who = i → ∀ op ∈ e.cmd.written e.res, op.loc.kind ≠ .data) →
      Reports c i past [refusal text]
  | unselected :
      (∀ e ∈ past, e.who = i → e.cmd ≠ .iterate (messagePrefix c.accountId)) →
      Reports c i past [c.completed []]
  | completed {told : List Line} {modified : List ℕ} {r : Event sig World ι} (mailboxId : ℕ) :
      r ∈ past → r.who = i → r.cmd = .iterate (messagePrefix c.accountId) →
      (∀ x ∈ addressed c.ranges c.uidMode (membersIn mailboxId
          (r.before.records.iterate (messagePrefix c.accountId))),
        c.number x ∈ modified ∨
        (∃ e ∈ past, e.who = i ∧ e.cmd = .iterate (logPrefix c.accountId) ∧
          SettledAt c.accountId x.entry.documentId c.since e.before) ∧
        ∀ e ∈ past, e.who = i → Commit ⟨e.cmd, e.res⟩ →
          SettledAt c.accountId x.entry.documentId c.since e.before) →
      Reports c i past (told ++ [c.completed modified])

variable {p : Pool sig World ι (List Line × Session)}

/-- The command among the others. -/
abbrev Running (c : StoreCall) (digest : Digest) (i : ι) (w : World)
    (p : Pool sig World ι (List Line × Session)) : Prop :=
  Pool.Obeying (machine digest) (fun j t cmd => j = i → c.Allows t cmd) (fun _ => True)
    (fun j v reply => j = i → c.Replies v reply.1) w p

theorem Allows.isConditional_of_commit {t : Trace sig} {cmd : Cmd} {r : cmd.Res}
    (h : c.Allows t cmd) (hcommit : Commit ⟨cmd, r⟩) : isConditional cmd = true := by
  cases h with
  | quiet hq => exact absurd hcommit (not_commit_of_quiet hq)
  | commit => rfl

variable {e : Event sig World ι} {pre post : Past ι}

theorem Allows.settledAt (h : c.Allows (traceOf i pre) e.cmd)
    (hhistory : History (machine digest) w pre e.before)
    (hkept : LogKept c.accountId i e pre) (hwho : e.who = i) {op : WriteOp}
    (hop : op ∈ e.cmd.written e.res) {b d : ℕ} (hloc : op.loc = .data b d) :
    b = c.accountId ∧ SettledAt c.accountId d c.since e.before := by
  obtain ⟨j, v, cmd, res⟩ := e
  replace hop := Cmd.writes_of_written hop
  cases h with
  | quiet hq =>
    have hkind := within_of_quiet hq op hop
    rw [hloc] at hkind
    simp at hkind
  | @commit hits targets fs hexamined hgathers =>
    obtain ⟨r, hr, hop⟩ := mem_finding_ops.1 hop
    rcases mem_revision_ops.1 hop with rfl | ⟨x, -, rfl⟩ | rfl
    · obtain ⟨rfl, rfl⟩ := Loc.data.inj hloc
      have hdocument : r.documentId ∈ fs.map Finding.documentId := mem_map.2 ⟨_, hr, rfl⟩
      rw [hgathers.documents] at hdocument
      obtain ⟨x, hx, hxr⟩ := mem_map.1 hdocument
      refine ⟨rfl, ?_⟩
      rw [← hxr]
      exact hexamined.settledAt_commit (e := ⟨j, v, _, res⟩) hhistory hgathers hkept hwho rfl hx
    · cases hloc
    · cases hloc

theorem Running.history_before (h : c.Running digest i w p) (hpast : p.past = post ++ e :: pre) :
    History (machine digest) w pre e.before := by
  obtain ⟨u, ⟨-, -, hpre⟩, -⟩ := (hpast ▸ h.history).split
  exact hpre

theorem Running.allows (h : c.Running digest i w p) (hpast : p.past = post ++ e :: pre)
    (hwho : e.who = i) :
    c.Allows (traceOf i pre) e.cmd := by
  have hevent := (hpast ▸ h.events).of_split hwho
  rwa [hwho] at hevent

theorem Running.not_data_of_uncommitted (h : c.Running digest i w p)
    (huncommitted : Uncommitted (traceOf i p.past)) :
    ∀ e ∈ p.past, e.who = i → ∀ op ∈ e.cmd.written e.res, op.loc.kind ≠ .data := by
  intro e he hwho op hop
  have hcommit : ¬ Commit ⟨e.cmd, e.res⟩ :=
    huncommitted _ (mem_traceOf.2 ⟨e, he, hwho, rfl⟩)
  obtain ⟨post, pre, hpast⟩ := append_of_mem he
  have hallows := h.allows hpast hwho
  obtain ⟨j, v, cmd, res⟩ := e
  cases hallows with
  | quiet hq =>
    have hkind := within_of_quiet hq op (Cmd.writes_of_written hop)
    rw [mem_singleton.1 hkind]
    decide
  | commit =>
    rw [Cmd.written, if_neg (show ¬ res = true from hcommit)] at hop
    cases hop

theorem Running.settledAt_commits (h : c.Running digest i w p)
    (hkept : Always (LogKept c.accountId i) p.past)
    (hconcludes : c.Concludes hits targets (traceOf i p.past)) {x : Numbered} (hx : x ∈ targets) :
    ∀ e ∈ p.past, e.who = i → Commit ⟨e.cmd, e.res⟩ →
      SettledAt c.accountId x.entry.documentId c.since e.before := by
  intro e he hwho hcommit
  obtain ⟨post, pre, hpast⟩ := append_of_mem he
  rcases hconcludes with ⟨hun, -⟩ | ⟨y, u, fs, htrace, hu, hexamined, hgathers⟩
  · exact absurd hcommit (hun _ (mem_traceOf.2 ⟨e, he, hwho, rfl⟩))
  · rw [hpast] at htrace hkept
    obtain rfl := traceOf_eq_of_commit htrace hu hwho hcommit
    exact hexamined.settledAt_commit (h.history_before hpast) hgathers hkept.of_split hwho
      ((h.allows hpast hwho).isConditional_of_commit hcommit) hx

theorem Running.reports (h : c.Running digest i w p)
    (hkept : Always (LogKept c.accountId i) p.past) {reply : List Line × Session}
    (hreply : p.thread i = .ret reply) : c.Reports i p.past reply.1 := by
  rcases h.returned _ hreply rfl with ⟨⟨text, htext⟩, hun⟩ | ⟨told, modified, hlines, hanswered⟩
  · rw [htext]
    exact .refused (h.not_data_of_uncommitted hun)
  rw [hlines]
  rcases hanswered with ⟨rfl, rfl, hunread⟩ | ⟨hits, targets, hhits, hconcludes⟩
  · exact .unselected fun e he hwho => hunread _ (mem_traceOf.2 ⟨e, he, hwho, rfl⟩)
  have hexamined : c.Examined (traceOf i p.past) hits targets := by
    rcases hconcludes with ⟨-, hexamined⟩ | ⟨x, u, fs, htrace, -, hexamined, -⟩
    · exact hexamined
    · rw [htrace]
      exact hexamined.mono (suffix_cons x u)
  obtain ⟨mailboxId, rows, hrows, hshown⟩ := hexamined.shown
  obtain ⟨r, hr, hwho, hcmd, rfl⟩ := exists_scan h.history hrows
  obtain ⟨e, he, hewho, hecmd, -, hsettled⟩ := hexamined.settledAt h.history
  refine .completed mailboxId hr hwho hcmd fun x hx => ?_
  rcases hhits x (hshown ▸ hx) with hx | hx
  · exact .inr ⟨⟨e, he, hewho, hecmd, hsettled x hx⟩, h.settledAt_commits hkept hconcludes hx⟩
  · exact .inl hx

end StoreCall

/-- In every interleaving of a STORE with UNCHANGEDSINCE and any other programs in which,
whenever the command commits, the log tells of the messages it has read only what it told
when the command read it: no message is changed that has a change after the bound, and the
reply names every message addressed for which there is one. -/
theorem store_unchangedSince (env : Env) (s : Session) (ranges : List SeqRange) (op : StoreOp)
    (uidMode : Bool) (since : ℕ) (i : ι) (others : ι → Action (List Line × Session)) (w : World)
    (schedule : List ι)
    (hkept : Always (LogKept s.accountId i) ((Pool.start w (Function.update others i
      (s.dispatch env (.store ranges op uidMode (some since))))).run
        (machine env.digest) schedule).past) :
    let p := (Pool.start w (Function.update others i
      (s.dispatch env (.store ranges op uidMode (some since))))).run (machine env.digest) schedule
    (∀ e ∈ p.past, e.who = i → ∀ write ∈ e.cmd.written e.res, ∀ b d, write.loc = .data b d →
      b = s.accountId ∧ SettledAt s.accountId d since e.before) ∧
    ∀ reply, p.thread i = .ret reply →
      StoreCall.Reports ⟨s.accountId, ranges, op, uidMode, since⟩ i p.past reply.1 := by
  intro p
  let c : StoreCall := ⟨s.accountId, ranges, op, uidMode, since⟩
  have hrun : c.Running env.digest i w p := by
    refine Pool.obeying_run (machine env.digest) w (fun j => ?_) schedule
    by_cases hj : j = i
    · subst hj
      rw [Function.update_self]
      refine ((c.obeys_program env s rfl).weaken (fun _ _ h _ => h) fun _ => id).mono ?_
      exact fun _ _ h _ => h
    · exact .of_forall (fun _ _ h => absurd h hj) (fun _ => trivial) (fun _ _ h => absurd h hj) _ _
  refine ⟨fun e he hwho write hwrite b d hloc => ?_, fun reply hreply => hrun.reports hkept hreply⟩
  obtain ⟨post, pre, hpast⟩ := List.append_of_mem he
  have hevent : LogKept s.accountId i e pre := (hpast ▸ hkept : Always _ _).of_split
  exact (hrun.allows hpast hwho).settledAt (hrun.history_before hpast) hevent hwho hwrite hloc

end Runs

/-! ## Two sessions on one message -/

def oneStored : World :=
  { World.empty (.new 0) 0 with
    records := (∅ : Records).batch
      [.set (.data 7 1) ((MessageData.new 1 1).addMailbox 1 1),
        .set (.change 7 .email 1) ⟨1, .insert⟩, .add (.number 7 .email 0) 1] }

def firstOnly : List SeqRange := [⟨.num 1, .num 1⟩]

/-- One session marks the message as deleted if it has not changed after 1; the other
flags it. -/
def deleteOrFlag : Bool → Command
  | false => .store firstOnly ⟨.add, true, [.deleted]⟩ true (some 1)
  | true => .store firstOnly ⟨.add, true, [.flagged]⟩ true none

def deleteOrFlagRun (schedule : List Bool) : Pool sig World Bool (List Line × Session) :=
  (Pool.start oneStored (Function.update
    (fun i => inboxSession.dispatch .plain (deleteOrFlag i)) false
    (inboxSession.dispatch .plain (deleteOrFlag false)))).run (machine Env.plain.digest) schedule

def flaggedBetween : List Bool :=
  List.replicate 5 false ++ List.replicate 10 true ++ List.replicate 10 false

def flagsOfFirst (w : World) : Option (List Keyword) :=
  (w.records.lookup (.data 7 1)).map MessageData.keywords

/-- The first session commits a change of the message although the log has a change of it
after 1 by then, and reports none. -/
theorem flaggedBetween_changed :
    (∃ e ∈ (deleteOrFlagRun flaggedBetween).past, e.who = false ∧
      e.before.records.lookup (.change 7 .email 2) = some ⟨1, .update⟩ ∧
      flagsOfFirst e.before = some [.flagged] ∧
      flagsOfFirst (machine Env.plain.digest e.cmd e.before).2 = some [.flagged, .deleted]) ∧
    ∃ s, (deleteOrFlagRun flaggedBetween).thread false =
      .ret ([.tagged .ok none "UID STORE completed"], s) :=
  ⟨by decide +kernel, ⟨_, rfl⟩⟩

def flaggedAfter : List Bool :=
  List.replicate 5 false ++ List.replicate 3 true ++ List.replicate 10 false ++
    List.replicate 10 true

theorem flaggedAfter_reports :
    Always (LogKept 7 false) (deleteOrFlagRun flaggedAfter).past ∧
      flagsOfFirst (deleteOrFlagRun flaggedAfter).state = some [.deleted, .flagged] ∧
      StoreCall.Reports ⟨7, firstOnly, ⟨.add, true, [.deleted]⟩, true, 1⟩ false
        (deleteOrFlagRun flaggedAfter).past [.tagged .ok none "UID STORE completed"] := by
  have hkept : Always (LogKept 7 false) (deleteOrFlagRun flaggedAfter).past := by decide +kernel
  refine ⟨hkept, by decide +kernel, ?_⟩
  exact (store_unchangedSince .plain inboxSession firstOnly ⟨.add, true, [.deleted]⟩ true 1 false
    _ oneStored flaggedAfter hkept).2 _ rfl

end IrixMail.Imap

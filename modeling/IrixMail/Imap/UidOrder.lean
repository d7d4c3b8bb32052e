import IrixMail.Imap.Commands
import IrixMail.Mail.Followers

/-!
# The order in which UIDs become visible

A message is filed in two steps: its UID is drawn from the counter of the mailbox,
and later a batch makes it visible. A client that asks for the last UID in between
is told of a UID that it cannot see yet. When nobody asks in between, whatever
becomes visible later has a larger UID.
-/

namespace IrixMail.Imap
open Library Prog Store WriteOp Mail List

abbrev Placement := ℕ × ℕ × MailboxUid

def placementsIn (a d : ℕ) (data : MessageData) : List Placement :=
  data.mailboxes.map fun m => (a, d, m)

def Placed (s : Records) (x : Placement) : Prop :=
  ∃ data, s.lookup (.data x.1 x.2.1) = some data ∧ x.2.2 ∈ data.mailboxes

def placements : WriteOp → List Placement
  | .set (.data a d) data => placementsIn a d data
  | _ => []

def readPlacements : (c : Cmd) → c.Res → List Placement
  | .get (.data a d), some data => placementsIn a d data
  | _, _ => []

def drawnUid : (c : Cmd) → c.Res → Option (ℕ × ℕ × ℕ)
  | .addAndGet (.number a .email k) _, r => some (a, k, intAsU32 (max r 1))
  | _, _ => none

def readsLastUid (a k : ℕ) : Cmd → Bool
  | .counter (.number b .email j) => b = a && j = k
  | _ => false

def uidOf (x : Placement) : ℕ × ℕ × ℕ := (x.1, x.2.2.mailboxId, x.2.2.uid)

variable {d : ℕ} {data : MessageData} {x : Placement} {t : Trace sig} {K : List LocKind} {c : Cmd}

theorem mem_placementsIn {a : ℕ} :
    x ∈ placementsIn a d data ↔ ∃ m ∈ data.mailboxes, (a, d, m) = x := mem_map

/-! ## What the filing operations write -/

def Known (t : Trace sig) (x : Placement) : Prop :=
  (∃ y ∈ t, x ∈ readPlacements y.1 y.2) ∨ ∃ y ∈ t, drawnUid y.1 y.2 = some (uidOf x)

def Places (t : Trace sig) (c : Cmd) : Prop :=
  StepsUp c ∧ ∀ op ∈ c.writes, ∀ x ∈ placements op, Known t x

def AllKnown (a d : ℕ) (t : Trace sig) (data : MessageData) : Prop :=
  ∀ x ∈ placementsIn a d data, Known t x

theorem Known.mono {u : Trace sig} (h : Known t x) (htu : t ⊆ u) : Known u x := by
  rcases h with ⟨y, hy, hread⟩ | ⟨y, hy, hdrawn⟩
  · exact .inl ⟨y, htu hy, hread⟩
  · exact .inr ⟨y, htu hy, hdrawn⟩

theorem AllKnown.mono {a : ℕ} {u : Trace sig} (h : AllKnown a d t data)
    (htu : t ⊆ u) : AllKnown a d u data := fun x hx => (h x hx).mono htu

theorem AllKnown.subset {a : ℕ} {data' : MessageData}
    (h : AllKnown a d t data) (hsub : data'.mailboxes ⊆ data.mailboxes) : AllKnown a d t data' := by
  intro x hx
  obtain ⟨m, hm, rfl⟩ := mem_placementsIn.1 hx
  exact h _ (mem_placementsIn.2 ⟨m, hsub hm, rfl⟩)

theorem AllKnown.addMailbox {a k uid : ℕ} (h : AllKnown a d t data)
    (hnew : Known t (a, d, ⟨k, uid⟩)) :
    AllKnown a d t (data.addMailbox k uid) := by
  intro x hx
  obtain ⟨m, hm, rfl⟩ := mem_placementsIn.1 hx
  rcases MessageData.mem_addMailbox hm with hm | rfl
  · exact h _ (mem_placementsIn.2 ⟨m, hm, rfl⟩)
  · exact hnew

theorem placements_eq_nil {op : WriteOp} (h : op.loc.kind ≠ .data) : placements op = [] := by
  unfold placements
  split
  next => exact absurd rfl h
  next => rfl

theorem places_of_within (h : Within K c.writes)
    (hnumber : .number ∉ K) (hdata : .data ∉ K) : Places t c := by
  refine ⟨stepsUp_of_within h hnumber, fun op hop x hx => ?_⟩
  rw [placements_eq_nil fun hkind => hdata (hkind ▸ h op hop)] at hx
  cases hx

theorem places_of_quiet (h : Quiet c) : Places t c := by
  refine ⟨stepsUp_of_quiet h, fun op hop x hx => ?_⟩
  have hkind : op.loc.kind = .number := mem_singleton.1 (within_of_quiet h op hop)
  have hne : op.loc.kind ≠ .data := by
    rw [hkind]
    decide
  rw [placements_eq_nil hne] at hx
  cases hx

abbrev Filing {α : Type} (Q : Trace sig → α → Prop) (t : Trace sig) (p : Action α) : Prop :=
  Obeys Places (fun _ => True) Q t p

theorem filing_of_yields {α : Type} {P : α → Prop} {p : Action α} (h : Yields Quiet P p)
    (t : Trace sig) : Filing (fun _ x => P x) t p :=
  (h.obeys (fun _ _ => places_of_quiet) t).mono fun _ _ => And.left

theorem filing_nextUid (a : ℕ) (m : Mailbox) (t : Trace sig) :
    Filing (fun u uid => ∀ d, Known u (a, d, ⟨m.id, uid⟩)) t (nextUid a m) := by
  have hdraw : Quiet (.addAndGet (.number a .email m.id) 1) := rfl
  exact .perform (places_of_quiet hdraw) fun r => .ret fun d => .inr ⟨_, mem_cons_self, rfl⟩

theorem places_batch {a : ℕ} {pre post : List WriteOp}
    (hpre : Within K pre) (hpost : Within K post) (hnumber : .number ∉ K)
    (hdata : .data ∉ K) (h : AllKnown a d t data) :
    Places t (.batch (pre ++ .set (.data a d) data :: post)) := by
  constructor
  · refine stepsUp_of_within (K := .data :: K) ?_ (by simpa using hnumber)
    refine Within.append (hpre.mono (by simp)) (Within.cons (by simp) ?_)
    exact hpost.mono (by simp)
  · intro op hop x hx
    rcases mem_append.1 hop with hop | hop
    · exact (places_of_within (t := t) (c := .batch pre) hpre hnumber hdata).2 op hop x hx
    · rcases mem_cons.1 hop with rfl | hop
      · exact h x hx
      · exact (places_of_within (t := t) (c := .batch post) hpost hnumber hdata).2 op hop x hx

theorem filing_commitWith {α : Type} {Q : Trace sig → α → Prop} {a : ℕ} {kind : ChangeKind}
    (pre post : List WriteOp) {k : Action α}
    (hpre : Within K pre) (hpost : Within K post) (hnumber : .number ∉ K)
    (hdata : .data ∉ K) (hchange : .change ∈ K) (h : AllKnown a d t data)
    (hk : ∀ u, Filing Q u k) :
    Filing Q t (commitWith a d kind (pre ++ .set (.data a d) data :: post) k) := by
  unfold commitWith ChangeLog.recordOp ChangeLog.allocateChangeId
  simp only [bind_assoc]
  have hdraw : Quiet (.addAndGet (.number a .email 0) 1) := rfl
  refine .perform (places_of_quiet hdraw) fun r => ?_
  refine .perform ?_ fun _ => hk _
  rw [append_assoc]
  have hentry : Within K [WriteOp.set (.change a .email (max r 1).toNat) ⟨d, kind⟩] :=
    within_nil.cons (by simpa using hchange)
  exact places_batch hpre (hpost.append hentry) hnumber hdata (h.mono (subset_cons_self _ t))

/-! ## Deliveries and appends -/

section Deliveries
variable (env : Env)

theorem filing_fileInto (a d : ℕ) (targets : List Mailbox) (data : MessageData) (t : Trace sig)
    (h : AllKnown a d t data) :
    Filing (fun u filed => AllKnown a d u filed) t (fileInto a targets data) := by
  induction targets generalizing data t with
  | nil => exact .ret h
  | cons m targets ih =>
    refine (filing_nextUid a m t).andThen fun u uid htu huid => ?_
    exact ih _ u ((h.mono htu.subset).addMailbox (huid d))

theorem filing_commitMessage {α : Type} {Q : Trace sig → α → Prop} (a d : ℕ) (raw : Bytes)
    (metadata : MessageMetadata) (data : MessageData) {threading : List WriteOp}
    (hthread : ThreadOps a threading) (t : Trace sig) (h : AllKnown a d t data) (o : α)
    (ho : ∀ u, Q u o) :
    Filing Q t (commitMessage env a d raw metadata data threading >>= fun _ => .ret o) := by
  refine (commitMessage_leadsTo env a d raw metadata data threading (.ret o)).obeys
    (fun _ _ => places_of_quiet) ?_
  rintro u q - ⟨index, hindex, rfl⟩
  refine filing_commitWith [.set (.metadata a d) metadata] _
    (K := [.metadata, .thread, .counter, .posting, .change]) (within_nil.cons (by simp))
    ?_ (by simp) (by simp) (by simp) (h.mono (subset_append_right u t)) fun v => .ret (ho v)
  exact (within_filingTail hthread hindex).mono (by simp)

variable {t : Trace sig}

theorem allKnown_of_nil {a d : ℕ} {data : MessageData}
    (h : data.mailboxes = []) : AllKnown a d t data := by
  intro x hx
  simp [placementsIn, h] at hx

@[simp] theorem mailboxes_flagAttachment (raw : Bytes) (data : MessageData) :
    (flagAttachment env raw data).mailboxes = data.mailboxes := by
  unfold flagAttachment
  split
  · exact MessageData.mailboxes_addKeyword _ _
  · rfl

theorem filing_checked {α β : Type} {Q : Trace sig → β → Prop} {x : Except Error α}
    {f : α → Action β} (h : ∀ y, x = .ok y → Filing Q t (f y)) :
    Filing Q t (checked x >>= f) := by
  cases x with
  | error e => exact .fail trivial
  | ok y => exact h y rfl

theorem filing_fileLocally (request : DeliveryRequest) (metadata : MessageMetadata)
    (inbox : Mailbox) (t : Trace sig) :
    Filing (fun _ _ => True) t (fileLocally env request metadata inbox) := by
  refine (filing_of_yields (yields_usage _) t).bind fun u usage _ => ?_
  dsimp only
  split
  · exact .ret trivial
  · refine .perform (places_of_within within_nil (K := []) (by simp) (by simp)) fun hash => ?_
    refine (filing_of_yields (yields_resolveThread env _ _ _) _).bind fun v threading hv => ?_
    refine (filing_fileInto _ request.documentId _ _ v ?_).bind fun x filed hx => ?_
    · exact allKnown_of_nil (by simp [newData, MessageData.new])
    · exact filing_commitMessage env _ _ _ _ _ hv x (hx.subset (by simp)) _ fun _ => trivial

theorem filing_deliver (request : DeliveryRequest) :
    Filing (fun _ _ => True) [] (deliver env request) := by
  refine filing_checked fun metadata _ => ?_
  dsimp only
  split
  · exact .ret trivial
  · split
    · exact .ret trivial
    · exact filing_checked fun inbox _ => filing_fileLocally env request metadata inbox _

theorem filing_appendMessage (request : AppendRequest) :
    Filing (fun _ _ => True) [] (appendMessage env request) := by
  refine filing_checked fun metadata _ => ?_
  refine (filing_of_yields (yields_usage _) _).bind fun u usage _ => ?_
  dsimp only
  split
  · exact .ret trivial
  · refine .perform (places_of_within within_nil (K := []) (by simp) (by simp)) fun hash => ?_
    refine (filing_nextUid _ _ _).bind fun v uid hv => ?_
    refine (filing_of_yields (yields_resolveThread env _ _ _) v).andThen
      fun x threading hvx hthread => ?_
    refine filing_commitMessage env _ _ _ _ _ hthread x ?_ _ fun _ => trivial
    have hnew : AllKnown request.account.mailId request.documentId v
        (newData env request.raw threading.threadId request.receivedAt) := allKnown_of_nil rfl
    exact ((hnew.addMailbox (hv _)).mono hvx.subset).subset (by simp)

end Deliveries

/-! ## Copies and patches -/

theorem filing_updateMessageWith {a : ℕ} {mutate : MessageData → Action MessageData}
    (h : ∀ u original, t ⊆ u → AllKnown a d u original →
      Filing (fun v data => AllKnown a d v data) u (mutate original)) :
    Filing (fun _ _ => True) t (updateMessageWith a d mutate) := by
  refine .perform (places_of_quiet trivial) fun found => ?_
  cases found with
  | none => exact .ret trivial
  | some original =>
    have hread : AllKnown a d (⟨.get (.data a d), some original⟩ :: t) original :=
      fun x hx => .inl ⟨_, mem_cons_self, hx⟩
    refine (h _ original (subset_cons_self _ t) hread).bind fun u data hdata => ?_
    refine (filing_of_yields (yields_pushVanishedOps a _ _) u).andThen
      fun v vanished huv hvanished => ?_
    exact filing_commitWith [] vanished (K := [.vanished, .change]) within_nil
      (hvanished.within.mono (by simp)) (by simp) (by simp) (by simp) (hdata.mono huv.subset)
      fun _ => .ret trivial

theorem filing_updateMessage {a : ℕ} {mutate : Mutation}
    (h : ∀ u original data, t ⊆ u → AllKnown a d u original → mutate original = .ok data →
      AllKnown a d u data) :
    Filing (fun _ _ => True) t (updateMessage a d mutate) := by
  refine filing_updateMessageWith fun u original htu horiginal => ?_
  cases hmutate : mutate original with
  | error e => exact .fail trivial
  | ok data => exact .ret (h u original data htu horiginal hmutate)

theorem filing_ensureMailbox (a d k : ℕ) (data : MessageData) (t : Trace sig)
    (h : AllKnown a d t data) :
    Filing (fun u new => AllKnown a d u new) t (ensureMailbox a k data) := by
  unfold ensureMailbox
  split
  · exact .ret h
  · refine (filing_nextUid a _ t).andThen fun u uid htu huid => ?_
    exact .ret ((h.mono htu.subset).addMailbox (huid d))

theorem filing_ensureMailboxes (a d : ℕ) (wanted : List ℕ) (data : MessageData) (t : Trace sig)
    (h : AllKnown a d t data) :
    Filing (fun u new => AllKnown a d u new) t (ensureMailboxes a wanted data) := by
  induction wanted generalizing data t with
  | nil => exact .ret h
  | cons k wanted ih => exact (filing_ensureMailbox a d k data t h).bind fun u new => ih new u

theorem mailboxes_foldl_removeMailbox (gone : List ℕ) (data : MessageData) :
    (gone.foldl MessageData.removeMailbox data).mailboxes ⊆ data.mailboxes := by
  induction gone generalizing data with
  | nil => exact List.Subset.refl _
  | cons k gone ih => exact List.Subset.trans (ih _) (data.subset_removeMailbox k)

theorem filing_patchData (a d : ℕ) (fields : List PatchField) (data : MessageData) (t : Trace sig)
    (h : AllKnown a d t data) :
    Filing (fun u new => AllKnown a d u new) t (patchData a fields data) := by
  induction fields generalizing data t with
  | nil => exact .ret h
  | cons field fields ih =>
    have hfield : Filing (fun u new => AllKnown a d u new) t (field.apply a data) := by
      cases field with
      | keywords wanted => exact .ret (h.subset (by simp))
      | keyword k on => cases on <;> exact .ret (h.subset (by simp [MessageData.removeKeyword]))
      | mailboxIds wanted =>
        exact filing_ensureMailboxes a d wanted _ t (h.subset (mailboxes_foldl_removeMailbox _ _))
      | mailboxId k on =>
        cases on with
        | true => exact filing_ensureMailbox a d k data t h
        | false => exact .ret (h.subset (data.subset_removeMailbox k))
      | other => exact .ret h
    exact hfield.bind fun u new => ih new u

theorem filing_copyOne (a sourceId targetId : ℕ) (moveMode : Bool) (entry : MessageCacheEntry)
    (t : Trace sig) :
    Filing (fun _ _ => True) t (Session.copyOne a sourceId targetId moveMode entry) := by
  unfold Session.copyOne
  split
  next dstUid =>
    split
    · refine (filing_updateMessage fun u original data _ horiginal hdata => ?_).bind
        fun _ _ _ => .ret trivial
      cases hdata
      exact horiginal.subset (original.subset_removeMailbox sourceId)
    · exact .ret trivial
  next =>
    refine (filing_nextUid a _ t).bind fun u uid huid => ?_
    refine (filing_updateMessage fun v original data huv horiginal hdata => ?_).bind
      fun _ _ _ => .ret trivial
    cases hdata
    have hadded := horiginal.addMailbox ((huid _).mono huv)
    cases moveMode with
    | true => exact hadded.subset (MessageData.subset_removeMailbox _ sourceId)
    | false => exact hadded

theorem filing_copyEach (a sourceId targetId : ℕ) (moveMode : Bool) (xs : List Numbered)
    (t : Trace sig) :
    Filing (fun _ _ => True) t (Session.copyEach a sourceId targetId moveMode xs) := by
  induction xs generalizing t with
  | nil => exact .ret trivial
  | cons x xs ih =>
    refine (filing_copyOne a sourceId targetId moveMode x.entry t).bind fun u _ _ => ?_
    exact (ih u).bind fun _ _ _ => .ret trivial

namespace Session
variable (s : Session)

theorem yields_mailboxNamed (name : String) :
    Yields Quiet (fun _ => True) (s.mailboxNamed name) := by
  have hload : Yields Quiet (fun _ => True) (loadMailboxes s.accountId) :=
    leadsTo_exec trivial fun _ => Yields.ret trivial
  have hall : Yields Quiet (fun _ => True) s.mailboxes := by
    refine (yields_caught hload).bind fun found _ => ?_
    cases found with
    | error e => exact .ret trivial
    | ok persisted => exact .ret trivial
  exact hall.bind fun _ _ => .ret trivial

theorem yields_members (mailboxId : ℕ) : Yields Quiet (fun _ => True) (s.members mailboxId) := by
  have hlatest : Yields Quiet (fun _ => True) (ChangeLog.latestChangeId s.accountId .email) :=
    leadsTo_exec trivial fun _ => Yields.ret trivial
  have hentries : Yields Quiet (fun _ => True) (MessageStoreCache.entriesOf s.accountId) :=
    hlatest.bind fun _ _ => leadsTo_exec trivial fun _ => Yields.ret trivial
  exact hentries.bind fun _ _ => .ret trivial

theorem filing_copyApply (ranges : List SeqRange) (target : Mailbox) (uidMode moveMode : Bool) :
    Filing (fun _ _ => True) [] (s.copyApply ranges target uidMode moveMode) := by
  unfold copyApply inSelected
  cases s.mailbox with
  | none => exact .ret trivial
  | some name =>
    refine (filing_of_yields (s.yields_mailboxNamed name) []).bind fun u found _ => ?_
    cases found with
    | none => exact .ret trivial
    | some source =>
      refine (filing_of_yields (s.yields_members source.id) u).bind fun v members _ => ?_
      exact (filing_copyEach _ _ _ _ _ v).bind fun _ _ _ => .ret trivial

end Session

/-! ## Filing operations and observers -/

inductive Filer
  | deliver (request : DeliveryRequest)
  | append (request : AppendRequest)
  | copy (session : Session) (ranges : List SeqRange) (target : Mailbox) (uidMode moveMode : Bool)
  | patch (a d : ℕ) (fields : List PatchField)
  | observe (a k : ℕ)

def Filer.program (env : Env) : Filer → Action (Option ℕ)
  | deliver request => do
    let _ ← Mail.deliver env request
    pure none
  | append request => do
    let _ ← appendMessage env request
    pure none
  | copy session ranges target uidMode moveMode => do
    let _ ← session.copyApply ranges target uidMode moveMode
    pure none
  | patch a d fields => do
    let _ ← applyPatch a d fields
    pure none
  | observe a k => do
    let last ← lastUid a k
    pure (some last)

theorem Filer.filing_program (env : Env) (filer : Filer) :
    Filing (fun _ _ => True) [] (filer.program env) := by
  cases filer with
  | deliver request => exact (filing_deliver env request).bind fun _ _ _ => .ret trivial
  | append request => exact (filing_appendMessage env request).bind fun _ _ _ => .ret trivial
  | copy session ranges target uidMode moveMode =>
    exact (session.filing_copyApply ranges target uidMode moveMode).bind fun _ _ _ => .ret trivial
  | patch a d fields =>
    exact (filing_updateMessageWith fun u original _ =>
      filing_patchData a d fields original u).bind fun _ _ _ => .ret trivial
  | observe a k =>
    have hlast : Yields Quiet (fun _ => True) (lastUid a k) :=
      leadsTo_exec trivial fun _ => Yields.ret trivial
    exact (filing_of_yields hlast []).bind fun _ _ _ => .ret trivial

section Runs
variable {ι : Type} [DecidableEq ι]

/-- Going back from a write of thread `i`, its draw of the UID comes before any read
of the counter of the mailbox, if it has drawn the UID at all. -/
def UnreadSince (i : ι) (uid : ℕ × ℕ × ℕ) : Past ι → Prop
  | [] => True
  | e :: past => (e.who = i ∧ drawnUid e.cmd e.res = some uid) ∨
      ((readsLastUid uid.1 uid.2.1 e.cmd = true →
          ∀ e' ∈ past, ¬ (e'.who = i ∧ drawnUid e'.cmd e'.res = some uid)) ∧
        UnreadSince i uid past)

instance UnreadSince.decidable (i : ι) (uid : ℕ × ℕ × ℕ) :
    (past : Past ι) → Decidable (UnreadSince i uid past)
  | [] => .isTrue trivial
  | _ :: past =>
    @instDecidableOr _ _ _ (@instDecidableAnd _ _ _ (UnreadSince.decidable i uid past))

/-- No observer reads the last UID of a mailbox between the draw of a UID in it and the
batch that makes the message visible. -/
def Unobserved (e : Event sig World ι) (past : Past ι) : Prop :=
  ∀ op ∈ e.cmd.written e.res, ∀ x ∈ placements op, UnreadSince e.who (uidOf x) past

instance Unobserved.decidable (e : Event sig World ι) (past : Past ι) :
    Decidable (Unobserved e past) :=
  inferInstanceAs (Decidable (∀ op ∈ e.cmd.written e.res, ∀ x ∈ placements op,
    UnreadSince e.who (uidOf x) past))

/-- What `lastUid` makes of the counter. -/
def lastUidOf (r : ℤ) : ℕ := intAsU32 (max r 0)

def PlacedBefore (u : World) (pre : Past ι) (x : Placement) : Prop :=
  Placed u.records x ∨ ∃ e ∈ pre, Placed e.before.records x

/-- Whatever is in a mailbox now and was not there when an observer read its last UID
or before has a larger UID. -/
def UidsInOrder {α : Type} (p : Pool sig World ι α) : Prop :=
  ∀ post i u a k r pre, p.past = post ++ ⟨i, u, .counter (.number a .email k), r⟩ :: pre →
    ∀ d uid, Placed p.state.records (a, d, ⟨k, uid⟩) →
      ¬ PlacedBefore u pre (a, d, ⟨k, uid⟩) → lastUidOf r < uid

variable {uid : ℕ} {c : Cmd}

omit [DecidableEq ι] in
theorem UnreadSince.drawn {i j : ι} {u : World} {a k : ℕ} {r : ℤ}
    {post pre : Past ι}
    (h : UnreadSince i (a, k, uid) (post ++ ⟨j, u, .counter (.number a .email k), r⟩ :: pre))
    {e : Event sig World ι} (he : e ∈ pre) (hwho : e.who = i)
    (hdrawn : drawnUid e.cmd e.res = some (a, k, uid)) :
    ∃ e' ∈ post, drawnUid e'.cmd e'.res = some (a, k, uid) := by
  induction post with
  | nil =>
    rcases h with ⟨-, h⟩ | ⟨h, -⟩
    · simp [drawnUid] at h
    · exact absurd ⟨hwho, hdrawn⟩ (h (by simp [readsLastUid]) e he)
  | cons e' post ih =>
    rcases h with ⟨-, h⟩ | ⟨-, h⟩
    · exact ⟨e', mem_cons_self, h⟩
    · obtain ⟨later, hlater, heq⟩ := ih h
      exact ⟨later, mem_cons_of_mem _ hlater, heq⟩

theorem drawnUid_eq {r : c.Res} {a k : ℕ}
    (h : drawnUid c r = some (a, k, uid)) (hsteps : StepsUp c) :
    ∃ number : ℤ, (⟨c, r⟩ : Access) = ⟨.addAndGet (.number a .email k) 1, number⟩ ∧
      uid = intAsU32 (max number 1) := by
  unfold drawnUid at h
  split at h
  next b j amount r =>
    obtain ⟨rfl, rfl, rfl⟩ : b = a ∧ j = k ∧ _ := by simpa using h
    have hamount := hsteps _ (mem_singleton.2 rfl) b .email j rfl
    obtain ⟨-, rfl⟩ := WriteOp.add.inj hamount
    exact ⟨r, rfl, rfl⟩
  next => cases h

theorem placed_of_read {digest : Digest} {w : World} {x : Placement}
    (h : x ∈ readPlacements c (machine digest c w).1) : Placed w.records x := by
  unfold readPlacements at h
  split at h
  next a d data heq =>
    obtain ⟨m, hm, rfl⟩ := mem_placementsIn.1 h
    exact ⟨data, heq, hm⟩
  next => cases h

theorem lastUidOf_lt {r number : ℤ} (hlt : r < number) (hfew : number < 2 ^ 32) :
    lastUidOf r < intAsU32 (max number 1) := by
  unfold lastUidOf intAsU32
  omega

section Reads
variable {digest : Digest} {u s : World} {i : ι} {a k : ℕ} {r : ℤ}
  {post pre : Past ι}

/-- What stands in the mailbox at any time after the read was there before, or its UID
was drawn after the read. -/
theorem placed_after_read (hhistory : History (machine digest) u post s)
    (hpre : ∀ e ∈ pre, e.res = (machine digest e.cmd e.before).1)
    (hplaces : Always (fun e t => Places (traceOf e.who t) e.cmd)
      (post ++ ⟨i, u, .counter (.number a .email k), r⟩ :: pre))
    (hun : Always Unobserved (post ++ ⟨i, u, .counter (.number a .email k), r⟩ :: pre))
    (hdraw : ∀ e ∈ post, ∀ uid, drawnUid e.cmd e.res = some (a, k, uid) → lastUidOf r < uid)
    (d uid : ℕ) (h : Placed s.records (a, d, ⟨k, uid⟩) ∨
      ∃ e ∈ post, Placed e.before.records (a, d, ⟨k, uid⟩)) :
    PlacedBefore u pre (a, d, ⟨k, uid⟩) ∨ lastUidOf r < uid := by
  induction post generalizing s with
  | nil =>
    obtain rfl : s = u := hhistory
    rcases h with h | ⟨e, he, -⟩
    · exact .inl (.inl h)
    · cases he
  | cons e post ih =>
    have hreplies : ∀ e' ∈ e :: post, e'.res = (machine digest e'.cmd e'.before).1 :=
      fun _ he' => hhistory.res_eq _ he'
    obtain ⟨rfl, hres, hpast⟩ := hhistory
    have hearlier := ih hpast hplaces.2 hun.2 fun e' he' => hdraw e' (mem_cons_of_mem _ he')
    rcases h with ⟨data, hdata, hm⟩ | ⟨e', he', hplaced⟩
    · rw [records_machine, Records.lookup_batch, ← hres] at hdata
      rcases set_mem_of_effects (by simp) hdata with hsame | hset
      · exact hearlier (.inl ⟨data, hsame, hm⟩)
      have hx : ((a, d, ⟨k, uid⟩) : Placement) ∈ placements (.set (.data a d) data) :=
        mem_placementsIn.2 ⟨_, hm, rfl⟩
      rcases hplaces.1.2 _ (Cmd.writes_of_written hset) _ hx with ⟨y, hy, hread⟩ | ⟨y, hy, hdrawn⟩
      · -- the record had been read with the message in the mailbox
        obtain ⟨e', he', -, rfl⟩ := mem_traceOf.1 hy
        rcases mem_append.1 he' with he' | he'
        · rw [hreplies e' (mem_cons_of_mem _ he')] at hread
          exact hearlier (.inr ⟨e', he', placed_of_read hread⟩)
        · rcases mem_cons.1 he' with rfl | he'
          · cases hread
          · rw [hpre e' he'] at hread
            exact .inl (.inr ⟨e', he', placed_of_read hread⟩)
      · -- the UID had been drawn
        obtain ⟨e', he', hwho, rfl⟩ := mem_traceOf.1 hy
        rcases mem_append.1 he' with he' | he'
        · exact .inr (hdraw e' (mem_cons_of_mem _ he') uid hdrawn)
        · rcases mem_cons.1 he' with rfl | he'
          · cases hdrawn
          · obtain ⟨later, hlater, hagain⟩ := (hun.1 _ hset _ hx).drawn he' hwho hdrawn
            exact .inr (hdraw later (mem_cons_of_mem _ hlater) uid hagain)
    · rcases mem_cons.1 he' with rfl | he'
      · exact hearlier (.inl hplaced)
      · exact hearlier (.inr ⟨e', he', hplaced⟩)

end Reads

/-- In every interleaving of filing operations and observers in which no observer reads
the last UID of a mailbox between the draw of a UID and the batch that makes it visible,
and in which fewer than `2 ^ 32` UIDs have been drawn, UIDs become visible in order. -/
theorem uidsInOrder_of_unobserved (env : Env) (filers : ι → Filer) (w : World) (is : List ι)
    (hun : Always Unobserved ((Pool.start w fun i => (filers i).program env).run
      (machine env.digest) is).past)
    (hfew : ∀ a k, ((Pool.start w fun i => (filers i).program env).run
      (machine env.digest) is).state.records.counter (.number a .email k) < 2 ^ 32) :
    UidsInOrder ((Pool.start w fun i => (filers i).program env).run (machine env.digest) is) := by
  have hrun := Pool.obeying_run (machine env.digest) w (fun i => (filers i).filing_program env) is
  generalize (Pool.start w fun i => (filers i).program env).run (machine env.digest) is = p
    at hun hfew hrun
  intro post i u a k r pre hpast d uid hplaced hbefore
  have hhistory := hrun.history
  have hplaces := hrun.events
  have hreplies : ∀ e ∈ p.past, e.res = (machine env.digest e.cmd e.before).1 :=
    fun e he => hhistory.res_eq _ he
  rw [hpast] at hhistory hplaces hun hreplies
  have hsteps : ∀ e ∈ post, StepsUp e.cmd := fun e he =>
    (hplaces.exists_of_mem (mem_append_left _ he)).choose_spec.1
  -- the read leaves the state alone, and what follows starts from it
  obtain ⟨u', ⟨hu, hr, -⟩, hpost⟩ := hhistory.split
  obtain rfl : u = u' := hu.symm
  obtain rfl : r = u.records.counter (.number a .email k) := hr
  have hdraw : ∀ e ∈ post, ∀ uid, drawnUid e.cmd e.res = some (a, k, uid) →
      lastUidOf (u.records.counter (.number a .email k)) < uid := by
    intro e he uid hdrawn
    obtain ⟨number, hcmd, rfl⟩ := drawnUid_eq hdrawn (hsteps e he)
    obtain ⟨i', v', cmd, res⟩ := e
    cases hcmd
    obtain ⟨hlt, hle⟩ := (drawn_of_history hpost fun e' he' op hop =>
      hsteps e' he' op hop a .email k).2 i' v' _ he
    exact lastUidOf_lt hlt (hle.trans_lt (hfew a k))
  have hpre : ∀ e ∈ pre, e.res = (machine env.digest e.cmd e.before).1 :=
    fun e he => hreplies e (List.mem_append_right _ (List.mem_cons_of_mem _ he))
  exact (placed_after_read hpost hpre hplaces hun hdraw d uid (.inl hplaced)).resolve_left hbefore

end Runs

/-! ## Two deliveries and an observer -/

def deliveriesAndObserver : Fin 3 → Filer
  | 0 => .deliver (.plain 7 1 [65])
  | 1 => .deliver (.plain 7 2 [65])
  | 2 => .observe 7 1

def observedRun (schedule : List (Fin 3)) : Pool sig World (Fin 3) (Option ℕ) :=
  (Pool.start (.empty (.new 0) 0) fun i => (deliveriesAndObserver i).program .plain).run
    (machine Env.plain.digest) schedule

def observedBetween : List (Fin 3) := List.replicate 7 0 ++ [2, 0]

theorem observedBetween_not_uidsInOrder : ¬ UidsInOrder (observedRun observedBetween) := by
  intro h
  have hread : (observedRun observedBetween).past = (observedRun observedBetween).past.take 1 ++
      ⟨2, (observedRun (List.replicate 7 0)).state, .counter (.number 7 .email 1), 1⟩ ::
        (observedRun (List.replicate 7 0)).past := rfl
  have hplaced : Placed (observedRun observedBetween).state.records (7, 1, ⟨1, 1⟩) :=
    ⟨_, rfl, by decide⟩
  have hnew : ∀ e ∈ (observedRun (List.replicate 7 0)).past,
      e.before.records.lookup (.data 7 1) = none := by decide
  refine absurd (h _ _ _ _ _ _ _ hread 1 1 hplaced ?_) (by decide)
  rintro (⟨data, hdata, -⟩ | ⟨e, he, data, hdata, -⟩)
  · cases hdata
  · exact absurd ((hnew e he).symm.trans hdata) (by simp)

def counterBelow (n : ℤ) : Sigma Val → Bool
  | ⟨.counter _, v⟩ => v < n
  | _ => true

theorem counter_lt_of_entries {s : Records} {n : ℤ} (hn : 0 < n)
    (h : ∀ x ∈ s.entries, counterBelow n x = true) (c : CounterLoc) : s.counter c < n := by
  unfold Records.counter
  cases hc : s.lookup (.counter c) with
  | none => exact hn
  | some v => exact of_decide_eq_true (h _ (AList.mem_lookup_iff.1 hc))

def observedInSequence : List (Fin 3) := List.replicate 8 0 ++ 2 :: List.replicate 8 1

theorem observedInSequence_uidsInOrder :
    Placed (observedRun observedInSequence).state.records (7, 2, ⟨1, 2⟩) ∧
      Always Unobserved (observedRun observedInSequence).past ∧
      UidsInOrder (observedRun observedInSequence) := by
  have hun : Always Unobserved (observedRun observedInSequence).past := by decide
  have hfew := counter_lt_of_entries (s := (observedRun observedInSequence).state.records)
    (n := 2 ^ 32) (by decide) (by decide)
  exact ⟨⟨_, rfl, by decide⟩, hun,
    uidsInOrder_of_unobserved .plain deliveriesAndObserver _ _ hun fun _ _ => hfew _⟩

end IrixMail.Imap

import IrixMail.Mail.Ledger

/-!
# The search index under concurrent filings and removals

A filing reads the posting lists of its terms and writes each back with its
document in it; a removal does the same to take its document out. A list that
another call has written in between is overwritten. When every batch finds the
posting lists as its call read them, the index is exact in every state.
-/

namespace IrixMail.Mail
open Library Prog Store WriteOp

variable (env : Env)

def posting (s : Records) (a : ℕ) (k : Fts.TermKey) : Finset ℕ :=
  (s.lookup (.posting a .email k.1 k.2)).getD ∅

/-- The document exists and its text for the field contains the term. -/
def HasTerm (s : Records) (a d : ℕ) (k : Fts.TermKey) : Prop :=
  ∃ m raw, s.lookup (.metadata a d) = some m ∧ m.blobHash = env.digest raw ∧ k ∈ bodyKeys env raw

def IndexExact (s : Records) (a : ℕ) : Prop := ∀ k d, d ∈ posting s a k ↔ HasTerm env s a d k

variable {env} {s t : Records} {a d n : ℕ} {data : MessageData}

theorem IndexExact.congr (h : IndexExact env s a)
    (hposting : ∀ k : Fts.TermKey, t.lookup (.posting a .email k.1 k.2) =
      s.lookup (.posting a .email k.1 k.2))
    (hmetadata : ∀ e, t.lookup (.metadata a e) = s.lookup (.metadata a e)) :
    IndexExact env t a := by
  intro k e
  rw [posting, hposting, HasTerm, hmetadata]
  exact h k e

variable {raw : Bytes}

theorem hasTerm_iff {m : MessageMetadata} (hm : s.lookup (.metadata a d) = some m)
    (hash : m.blobHash = env.digest raw)
    (k : Fts.TermKey) : HasTerm env s a d k ↔ k ∈ bodyKeys env raw := by
  constructor
  · rintro ⟨m', raw', hm', hash', hk⟩
    obtain rfl := Option.some.inj (hm.symm.trans hm')
    rwa [env.digest_injective (hash.symm.trans hash')]
  · exact fun hk => ⟨m, raw, hm, hash, hk⟩

theorem not_hasTerm (hm : s.lookup (.metadata a d) = none) (k : Fts.TermKey) :
    ¬ HasTerm env s a d k := by
  rintro ⟨m, -, hm', -⟩
  exact absurd (hm.symm.trans hm') nofun

theorem hasTerm_congr (hm : t.lookup (.metadata a d) = s.lookup (.metadata a d))
    (k : Fts.TermKey) : HasTerm env t a d k ↔ HasTerm env s a d k := by
  rw [HasTerm, HasTerm, hm]

/-! ## One commit -/

def PostingsHold (s : Records) (a : ℕ) (tr : Trace sig) : Prop :=
  ∀ (k : Fts.TermKey) x, Got (.posting a .email k.1 k.2) x tr →
    s.lookup (.posting a .email k.1 k.2) = x

section Commit
variable {tr : Trace sig} {edit : Finset ℕ → Fts.PostingEdit} {ks : List Fts.TermKey}
  {index : List WriteOp}

theorem EditsRead.posting_eq (h : EditsRead a edit ks tr index)
    (hfresh : PostingsHold s a tr) (k : Fts.TermKey) :
    (effects (.posting a .email k.1 k.2) index (s.lookup (.posting a .email k.1 k.2))).getD ∅ =
      if k ∈ ks then (edit (posting s a k)).result (posting s a k) else posting s a k := by
  obtain ⟨read, rfl, hread, rfl⟩ := h
  refine Fts.getD_effects_edits a .email edit k (fun r hr hk => ?_) (.inl rfl)
  subst hk
  exact (hfresh r.1 r.2 (hread r hr)).symm

variable {metadata : MessageMetadata} {size : ℕ} {threading vanished : List WriteOp} {raw : Bytes}

theorem posting_filed (hthread : ThreadOps a threading)
    (h : EditsRead a (Fts.insertEdit d) ks tr index)
    (hfresh : PostingsHold s a tr) (k : Fts.TermKey) :
    posting (s.batch (filingBatch a d n metadata data size threading index)) a k =
      if k ∈ ks then insert d (posting s a k) else posting s a k := by
  have hhead : Within [.metadata, .data, .thread, .counter] ([.set (.metadata a d) metadata,
      .set (.data a d) data] ++ threading ++ [referenceOp metadata.blobHash,
        accountLinkOp a metadata.blobHash 1] ++ Quota.adjustOps a size 1) := by
    refine .append (.append (.append ?_ (hthread.within.mono (by simp))) ?_)
      ((within_adjustOps _ _).mono (by simp))
    · exact (within_nil.cons (by simp)).cons (by simp)
    · exact (within_nil.cons (by simp [accountLinkOp])).cons
        (by simp [referenceOp])
  have htail : Within [.change] [changeOp a d n .insert] :=
    within_nil.cons (by simp [changeOp])
  rw [posting, Records.lookup_batch, filingBatch, filingOps, effects_append,
    htail.effects_eq (by simp), effects_append, hhead.effects_eq (by simp), h.posting_eq hfresh,
    Fts.result_insertEdit]

theorem posting_removed {linked rest : List WriteOp}
    (hlinked : linked = index ++ rest) (hrest : Within [.counter] rest)
    (hvanished : VanishedOps a vanished) (h : EditsRead a (Fts.removeEdit d) ks tr index)
    (hfresh : PostingsHold s a tr) (k : Fts.TermKey) :
    posting (s.batch (removalBatch a d n size linked vanished)) a k =
      if k ∈ ks then (posting s a k).erase d else posting s a k := by
  have htail : Within [.counter, .data, .metadata, .vanished, .change]
      (rest ++ .delete (.data a d) :: .delete (.metadata a d) ::
        (Quota.adjustOps a (-size) (-1) ++ vanished ++ [changeOp a d n .delete])) :=
    (hrest.mono (by simp)).append (.cons (by simp) (.cons (by simp)
      ((within_removalTail hvanished).mono (by simp))))
  rw [posting, Records.lookup_batch, removalBatch_eq, hlinked, List.append_assoc, effects_append,
    htail.effects_eq (by simp), h.posting_eq hfresh, Fts.result_removeEdit]

theorem IndexExact.file (hs : IndexExact env s a) (hnew : s.lookup (.metadata a d) = none)
    (hash : metadata.blobHash = env.digest raw) (hthread : ThreadOps a threading)
    (h : EditsRead a (Fts.insertEdit d) (bodyKeys env raw) tr index)
    (hfresh : PostingsHold s a tr) :
    IndexExact env (s.batch (filingBatch a d n metadata data size threading index)) a := by
  intro k e
  rw [posting_filed hthread h hfresh]
  by_cases he : e = d
  · subst he
    rw [hasTerm_iff (lookup_filed_metadata hthread h.postingOps) hash]
    split
    next hk => simp [hk]
    next hk => exact iff_of_false (fun hmem => not_hasTerm hnew k ((hs k e).1 hmem)) hk
  · rw [hasTerm_congr (lookup_filed_of_ne hthread h.postingOps (by simp) (by simp)
      (by simpa using he)), ← hs k e]
    split
    next => simp [he]
    next => rfl

theorem IndexExact.remove (hs : IndexExact env s a) {held : MessageMetadata}
    (hheld : s.lookup (.metadata a d) = some held)
    (hash : held.blobHash = env.digest raw) (hvanished : VanishedOps a vanished)
    (h : EditsRead a (Fts.removeEdit d) (bodyKeys env raw) tr index)
    (hfresh : PostingsHold s a tr) :
    IndexExact env (s.batch (removalBatch a d n size
      (index ++ [accountLinkOp a held.blobHash (-1)]) vanished)) a := by
  have hlinked : UnlinkOps a (some held) (index ++ [accountLinkOp a held.blobHash (-1)]) :=
    ⟨index, h.postingOps, rfl⟩
  intro k e
  rw [posting_removed rfl (within_nil.cons (by simp [accountLinkOp])) hvanished h hfresh]
  by_cases he : e = d
  · subst he
    refine iff_of_false ?_ (not_hasTerm (lookup_removed_metadata hvanished) k)
    split
    next => simp
    next hk => rwa [hs k e, hasTerm_iff hheld hash]
  · rw [hasTerm_congr (lookup_removed_of_ne hlinked hvanished (by simp) (by simp)
      (by simpa using he)), ← hs k e]
    split
    next => simp [he]
    next => rfl

end Commit

/-! ## Runs -/

def MailOp.On (a d : ℕ) : MailOp → Prop
  | .deliver request => request.account.mailId = a ∧ request.documentId = d
  | .append request => request.account.mailId = a ∧ request.documentId = d
  | .delete b e => b = a ∧ e = d
  | _ => False

theorem MailOp.On.files {op : MailOp} (h : op.On a d) {b e : ℕ}
    (hfiles : op.Files b e raw) : b = a ∧ e = d := by
  cases op with
  | deliver request => exact ⟨hfiles.1.trans h.1, hfiles.2.1.trans h.2⟩
  | append request => exact ⟨hfiles.1.trans h.1, hfiles.2.1.trans h.2⟩
  | _ => exact hfiles.elim

section Runs
variable {ι : Type} [DecidableEq ι]

/-- The batch finds the posting lists as its call read them. -/
def FindsPostings (e : Event sig World ι) (past : Past ι) : Prop :=
  isBatch e.cmd → Unchanged (fun l => l.kind = .posting) e past

instance (e : Event sig World ι) (past : Past ι) :
    Decidable (FindsPostings e past) :=
  inferInstanceAs (Decidable (isBatch e.cmd → Unchanged (fun l => l.kind = .posting) e past))

/-- What the calls on distinct documents of an account keep true. -/
structure Searching (env : Env) (doc : ι → ℕ) (a : ℕ) (w : World)
    (past : Past ι) (v : World) : Prop where
  exact : IndexExact env v.records a
  addressed : ∀ h b, v.blobs.lookup h = some b → env.digest b.bytes = h
  kept : ∀ h, (w.blobs.lookup h).isSome → (v.blobs.lookup h).isSome
  /-- Nobody else touches a call's document. -/
  own : ∀ i, Uncommitted (traceOf i past) →
    v.records.lookup (.metadata a (doc i)) = w.records.lookup (.metadata a (doc i))
  read : ∀ i x, Uncommitted (traceOf i past) → Got (.metadata a (doc i)) x (traceOf i past) →
    x = w.records.lookup (.metadata a (doc i))
  bodies : ∀ i h (body : Option Bytes),
    (⟨.blobGet h, body⟩ : Access) ∈ traceOf i past → (w.blobs.lookup h).isSome →
      ∃ raw, body = some raw ∧ env.digest raw = h

variable {doc : ι → ℕ} {w : World} {past : Past ι} {e : Event sig World ι}

variable {i : ι}

theorem mem_traceOf_cons {x : Access} (h : x ∈ traceOf i (e :: past)) :
    e.who = i ∧ (⟨e.cmd, e.res⟩ : Access) = x ∨ x ∈ traceOf i past := by
  by_cases hi : e.who = i
  · rw [traceOf_cons_self hi] at h
    exact (List.mem_cons.1 h).imp (fun h => ⟨hi, h.symm⟩) id
  · rw [traceOf_cons_of_ne hi] at h
    exact .inr h

theorem Uncommitted.of_cons (h : Uncommitted (traceOf i (e :: past))) :
    Uncommitted (traceOf i past) ∧ (e.who = i → ¬ Commit ⟨e.cmd, e.res⟩) := by
  by_cases hi : e.who = i
  · rw [traceOf_cons_self hi] at h
    exact ⟨fun x hx => h x (List.mem_cons_of_mem _ hx), fun _ => h _ List.mem_cons_self⟩
  · rw [traceOf_cons_of_ne hi] at h
    exact ⟨h, fun hi' => absurd hi' hi⟩

theorem addressed_putBlob {v : World}
    (h : ∀ h b, v.blobs.lookup h = some b → env.digest b.bytes = h) (raw : Bytes) :
    ∀ h b, (v.putBlob (env.digest raw) raw).blobs.lookup h = some b → env.digest b.bytes = h := by
  intro hash b hb
  rw [World.lookup_putBlob] at hb
  split at hb
  next heq =>
    obtain rfl := Option.some.inj hb
    rcases v.bytes_writtenBlob (env.digest raw) raw with hbytes | ⟨b, hb, hbytes⟩
    · rw [hbytes, heq]
    · rw [hbytes, heq]
      exact h _ b hb
  next => exact h hash b hb

theorem Searching.extend (h : Searching env doc a w past e.before) (hdoc : Function.Injective doc)
    (hres : e.res = (machine env.digest e.cmd e.before).1)
    (hexact : IndexExact env (machine env.digest e.cmd e.before).2.records a)
    (hblobs : (machine env.digest e.cmd e.before).2.blobs = e.before.blobs ∨
      ∃ raw, e.cmd = .blobPut raw)
    (hown : ∀ x, (machine env.digest e.cmd e.before).2.records.lookup (.metadata a x) =
      e.before.records.lookup (.metadata a x) ∨ (Commit ⟨e.cmd, e.res⟩ ∧ x = doc e.who)) :
    Searching env doc a w (e :: past) (machine env.digest e.cmd e.before).2 := by
  obtain ⟨j, u, cmd, r⟩ := e
  refine ⟨hexact, ?_, ?_, fun i hi => ?_, fun i x hi hgot => ?_, fun i hash body hmem hash' => ?_⟩
  · rcases hblobs with hsame | ⟨raw, rfl⟩
    · rw [hsame]
      exact h.addressed
    · exact addressed_putBlob h.addressed raw
  · rcases hblobs with hsame | ⟨raw, rfl⟩
    · rw [hsame]
      exact h.kept
    · intro hash hw
      simp only [machine, World.lookup_putBlob]
      split
      · rfl
      · exact h.kept hash hw
  · obtain ⟨hpast, hcommit⟩ := hi.of_cons
    refine ((hown (doc i)).resolve_right fun hmine => ?_).trans (h.own i hpast)
    exact hcommit (hdoc hmine.2).symm hmine.1
  · rcases mem_traceOf_cons hgot with ⟨hj, heq⟩ | hgot
    · obtain rfl : j = i := hj
      cases heq
      exact hres.trans (h.own j hi.of_cons.1)
    · exact h.read i x hi.of_cons.1 hgot
  · rcases mem_traceOf_cons hmem with ⟨hj, heq⟩ | hmem
    · cases heq
      obtain ⟨b, hb⟩ := Option.isSome_iff_exists.1 (h.kept hash hash')
      refine ⟨b.bytes, hres.trans ?_, h.addressed hash b hb⟩
      simp only [machine, hb, Option.map_some]
    · exact h.bodies i hash body hmem hash'

variable {ops : ι → MailOp}

theorem Searching.step (h : Searching env doc a w past e.before)
    (hhistory : History (machine env.digest) w past e.before) (hdoc : Function.Injective doc)
    (hops : ∀ i, (ops i).On a (doc i))
    (hnew : ∀ i d raw, (ops i).Files a d raw → w.records.lookup (.metadata a d) = none)
    (hheld : ∀ d m, w.records.lookup (.metadata a d) = some m → (w.blobs.lookup m.blobHash).isSome)
    (hres : e.res = (machine env.digest e.cmd e.before).1)
    (hallows : (ops e.who).Allows env (traceOf e.who past) e.cmd) (hfinds : FindsPostings e past) :
    Searching env doc a w (e :: past) (machine env.digest e.cmd e.before).2 := by
  have hon := hops e.who
  -- a command that writes no posting list and no metadata keeps the index
  have hkeep : (∀ l, (l.kind = .posting ∨ l.kind = .metadata) →
      (machine env.digest e.cmd e.before).2.records.lookup l = e.before.records.lookup l) →
      ((machine env.digest e.cmd e.before).2.blobs = e.before.blobs ∨ ∃ raw, e.cmd = .blobPut raw) →
      Searching env doc a w (e :: past) (machine env.digest e.cmd e.before).2 := by
    intro hsame hblobs
    refine h.extend hdoc hres ?_ hblobs fun x => .inl (hsame _ (.inr rfl))
    exact h.exact.congr (fun k => hsame _ (.inl rfl)) fun x => hsame _ (.inr rfl)
  obtain ⟨i, v, cmd, r⟩ := e
  dsimp only at h hres hallows hkeep hon ⊢
  generalize hop : ops i = op at hallows hon
  cases hallows with
  | quiet hquiet =>
    refine hkeep (fun l hl => (calm_quiet env.digest hquiet v).lookup l ?_)
      (.inl (blobs_quiet env.digest hquiet v))
    rintro b k n rfl
    simp at hl
  | put hfiles _ => exact hkeep (fun _ _ => rfl) (.inr ⟨_, rfl⟩)
  | @file _ b d raw metadata data writes hfiles hcommit =>
    obtain ⟨rfl, rfl⟩ := hon.files hfiles
    obtain ⟨threading, index, n, hthread, hedits, hn, rfl⟩ := hcommit.ops
    have habsent : v.records.lookup (.metadata b (doc i)) = none :=
      (h.own i hcommit.uncommitted).trans (hnew i _ raw (hop ▸ hfiles))
    obtain ⟨hstored, -⟩ := hcommit.put env hhistory
    refine h.extend hdoc hres (h.exact.file habsent hstored hthread hedits
      fun _ _ => (hfinds rfl).lookup_eq rfl) (.inl rfl) fun x => ?_
    by_cases hx : x = doc i
    · exact .inr ⟨trivial, hx⟩
    · exact .inl (lookup_filed_of_ne hthread hedits.postingOps (by simp) (by simp)
        (by simpa using hx))
  | update hcommit => exact hon.elim
  | updates _ _ => exact hon.elim
  | @remove b d data held writes hcommit =>
    obtain ⟨rfl, rfl⟩ := hon
    obtain ⟨linked, vanished, n, hlinked, hvanished, hn, rfl⟩ := hcommit.ops
    have hread := h.read i held hcommit.uncommitted hcommit.readMetadata
    have hcurrent : v.records.lookup (.metadata b (doc i)) = held :=
      (h.own i hcommit.uncommitted).trans hread.symm
    have hothers : ∀ x, x ≠ doc i →
        (v.records.batch (removalBatch b (doc i) n data.size linked vanished)).lookup
          (.metadata b x) = v.records.lookup (.metadata b x) := fun x hx =>
      lookup_removed_of_ne (hlinked.unlinkOps env) hvanished (by simp) (by simp) (by simpa using hx)
    refine h.extend hdoc hres ?_ (.inl rfl) fun x => ?_
    · cases held with
      | none =>
        obtain rfl : linked = [] := hlinked
        refine h.exact.congr (fun k => ?_) fun x => ?_
        · exact Records.lookup_batch_within (K := [.data, .metadata, .counter, .vanished, .change])
            (.cons (by simp) (.cons (by simp)
              ((within_removalTail hvanished).mono (by simp)))) (by simp) _
        · by_cases hx : x = doc i
          · subst hx
            exact (lookup_removed_metadata hvanished).trans hcurrent.symm
          · exact hothers x hx
      | some m =>
        obtain ⟨body, index, hbody, hedits, rfl⟩ := hlinked
        obtain ⟨raw, rfl, hash⟩ := h.bodies i _ body hbody (hheld _ m hread.symm)
        exact h.exact.remove hcurrent hash.symm hvanished hedits fun _ _ =>
          (hfinds rfl).lookup_eq rfl
    · by_cases hx : x = doc i
      · exact .inr ⟨trivial, hx⟩
      · exact .inl (hothers x hx)
  | @release _ _ _ _ held writes _ _ =>
    refine hkeep (fun l hl => @lookup_released v.records (some held) l ?_) (.inl rfl)
    rcases hl with hl | hl <;> rw [hl] <;> decide

structure Searchable (env : Env) (a : ℕ) (w : World) : Prop where
  exact : IndexExact env w.records a
  addressed : ∀ h b, w.blobs.lookup h = some b → env.digest b.bytes = h
  bodies : ∀ d m, w.records.lookup (.metadata a d) = some m → (w.blobs.lookup m.blobHash).isSome

variable (env)

def indexCalls (ops : ι → MailOp) (w : World) : Pool sig World ι Reply :=
  Pool.start w fun i => (ops i).program env

/-- In every interleaving of filings of new documents and removals, of distinct
documents of one account, in which every batch finds the posting lists as its
call read them, the index is exact. -/
theorem indexExact_of_findsPostings (a : ℕ) (ops : ι → MailOp) (doc : ι → ℕ)
    (hdoc : Function.Injective doc) (hops : ∀ i, (ops i).On a (doc i)) (w : World)
    (hw : Searchable env a w)
    (hnew : ∀ i d raw, (ops i).Files a d raw → w.records.lookup (.metadata a d) = none)
    (is : List ι)
    (h : Always FindsPostings ((indexCalls env ops w).run (machine env.digest) is).past) :
    IndexExact env ((indexCalls env ops w).run (machine env.digest) is).state.records a := by
  have hrun := Pool.obeying_run (machine env.digest) w (fun i : ι => (ops i).obeys_program env) is
  have hsearching := History.invariant (machine env.digest) hrun.history (hrun.events.and h)
    (I := fun past v => Searching env doc a w past v) ?_ ?_
  · exact hsearching.exact
  · refine ⟨hw.exact, hw.addressed, fun _ hash => hash, fun _ _ => rfl, fun i x _ hgot => ?_,
      fun i hash body hmem => ?_⟩
    · cases hgot
    · cases hmem
  · rintro e t hres hhistory ⟨hallows, hfinds⟩ - hinv
    exact hinv.step hhistory hdoc hops hnew hw.bodies hres hallows hfinds

end Runs

/-! ## Two deliveries that share a word -/

def twoDeliveries : Bool → MailOp
  | false => .deliver (.plain 7 1 [13, 10, 65])
  | true => .deliver (.plain 7 2 [13, 10, 65])

def twoDeliveriesRun (schedule : List Bool) : Pool sig World Bool Reply :=
  (indexCalls .plain twoDeliveries (.empty (.new 0) 0)).run (machine Env.plain.digest) schedule

def overwritten : List Bool := List.replicate 6 false ++ List.replicate 8 true ++ [false, false]

set_option maxRecDepth 4000 in
/-- Both deliveries have ended, and the second message is not found. -/
theorem overwritten_not_indexExact :
    (twoDeliveriesRun overwritten).Finished ∧
      ¬ IndexExact .plain (twoDeliveriesRun overwritten).state.records 7 := by
  refine ⟨fun i => ?_, fun h => ?_⟩
  · cases i <;> exact .inl ⟨_, rfl⟩
  · have hfound := (h (.body, "a") 2).2 ⟨_, [13, 10, 65], rfl, rfl, by decide⟩
    exact absurd hfound (by decide)

def inSequence : List Bool := List.replicate 8 false ++ List.replicate 8 true

set_option maxRecDepth 4000 in
theorem indexExact_inSequence :
    Always FindsPostings (twoDeliveriesRun inSequence).past ∧
      IndexExact .plain (twoDeliveriesRun inSequence).state.records 7 := by
  have hfinds : Always FindsPostings (twoDeliveriesRun inSequence).past := by decide
  refine ⟨hfinds, indexExact_of_findsPostings .plain 7 twoDeliveries (fun i => cond i 2 1) ?_ ?_
    (.empty (.new 0) 0) ⟨fun k d => ?_, nofun, nofun⟩ (fun _ _ _ _ => rfl) inSequence hfinds⟩
  · decide
  · intro i
    cases i <;> exact ⟨rfl, rfl⟩
  · exact iff_of_false (by simp [posting, World.empty]) (not_hasTerm rfl k)

end IrixMail.Mail

import IrixMail.Store.Fts
import Mathlib.Data.Finset.Sort

/-!
# Searching the full-text index

Every text indexed for a field of a document leaves the document in the posting
lists of its terms. A query is evaluated on whole lists: a complement is taken
in the candidates, while the list of a term also names other documents. On the
candidates the outcome is the query read as a predicate on one document.
-/

namespace IrixMail.Store.Fts
open Library Prog Mail List

variable {s : Records}

inductive Query
  | term (field : Field) (word : String)
  | and (children : List Query)
  | or (children : List Query)
  | not (inner : Query)

def postingList (s : Records) (a : ℕ) (c : Collection) (field : Field) (term : String) : Finset ℕ :=
  (s.lookup (.posting a c field term)).getD ∅

section
variable (u : Unicode) (lists : Field → String → Finset ℕ) (univ : Finset ℕ)

mutual
def evaluate : Query → Finset ℕ
  | .term field word =>
    match tokenize u word with
    | [] => ∅
    | first :: tokens => tokens.foldl (fun matched t => matched ∩ lists field t) (lists field first)
  | .and [] => univ
  | .and (first :: rest) => evaluateAnd (evaluate first) rest
  | .or children => evaluateOr ∅ children
  | .not inner => univ \ evaluate inner
def evaluateAnd (matched : Finset ℕ) : List Query → Finset ℕ
  | [] => matched
  | child :: rest => if matched = ∅ then matched else evaluateAnd (matched ∩ evaluate child) rest
def evaluateOr (matched : Finset ℕ) : List Query → Finset ℕ
  | [] => matched
  | child :: rest => evaluateOr (matched ∪ evaluate child) rest
end

end

def search (u : Unicode) (s : Records) (a : ℕ) (c : Collection) (query : Query)
    (candidates : List ℕ) : List ℕ :=
  let univ := candidates.toFinset
  (evaluate u (postingList s a c) univ query ∩ univ).sort (· ≤ ·)

def apply : List WriteOp → Action Unit
  | [] => pure ()
  | .set l v :: ops => do
    exec (.put l v)
    apply ops
  | .delete l :: ops => do
    exec (.delete l)
    apply ops
  | .add _ _ :: _ => .fail (.store "the search index does not use counters")

def index (u : Unicode) (a : ℕ) (c : Collection) (documentId : ℕ) (field : Field) (text : String) :
    Action Unit := do
  apply (← indexOps u a c documentId [(field, text)])

def remove (u : Unicode) (a : ℕ) (c : Collection) (documentId : ℕ) (field : Field)
    (text : String) : Action Unit := do
  apply (← removeOps u a c documentId [(field, text)])

/-! ## The query as a predicate on one document -/

section
variable (u : Unicode) (has : Field → String → Prop)

mutual
def Holds : Query → Prop
  | .term field word => tokenize u word ≠ [] ∧ ∀ t ∈ tokenize u word, has field t
  | .and children => AllHold children
  | .or children => AnyHolds children
  | .not inner => ¬ Holds inner
def AllHold : List Query → Prop
  | [] => True
  | child :: rest => Holds child ∧ AllHold rest
def AnyHolds : List Query → Prop
  | [] => False
  | child :: rest => Holds child ∨ AnyHolds rest
end

variable {u has} {lists : Field → String → Finset ℕ} {univ : Finset ℕ} {d : ℕ}

theorem mem_foldl_inter {α : Type} (f : α → Finset ℕ) (xs : List α) (s : Finset ℕ) :
    d ∈ xs.foldl (fun s x => s ∩ f x) s ↔ d ∈ s ∧ ∀ x ∈ xs, d ∈ f x := by
  induction xs generalizing s with
  | nil => simp
  | cons x xs ih => simp [ih, and_assoc]

theorem mem_evaluate_term (hlists : ∀ f t, d ∈ lists f t ↔ has f t) (field : Field)
    (word : String) :
    d ∈ evaluate u lists univ (.term field word) ↔ Holds u has (.term field word) := by
  rw [evaluate, Holds]
  cases tokenize u word with
  | nil => simp
  | cons first tokens => simp [mem_foldl_inter, hlists]

mutual
theorem mem_evaluate (hd : d ∈ univ) (hlists : ∀ f t, d ∈ lists f t ↔ has f t) :
    ∀ query, d ∈ evaluate u lists univ query ↔ Holds u has query
  | .term field word => mem_evaluate_term hlists field word
  | .and [] => by simp [evaluate, Holds, AllHold, hd]
  | .and (first :: rest) => by
    rw [evaluate, mem_evaluateAnd hd hlists, mem_evaluate hd hlists first, Holds, AllHold]
  | .or children => by rw [evaluate, mem_evaluateOr hd hlists, Holds]; simp
  | .not inner => by simp [evaluate, Holds, hd, mem_evaluate hd hlists inner]
theorem mem_evaluateAnd (hd : d ∈ univ) (hlists : ∀ f t, d ∈ lists f t ↔ has f t)
    {matched : Finset ℕ} : ∀ children,
    d ∈ evaluateAnd u lists univ matched children ↔ d ∈ matched ∧ AllHold u has children
  | [] => by simp [evaluateAnd, AllHold]
  | child :: rest => by
    rw [evaluateAnd, AllHold]
    split
    next h => simp [h]
    next =>
      rw [mem_evaluateAnd hd hlists rest, Finset.mem_inter, mem_evaluate hd hlists child, and_assoc]
theorem mem_evaluateOr (hd : d ∈ univ) (hlists : ∀ f t, d ∈ lists f t ↔ has f t)
    {matched : Finset ℕ} : ∀ children,
    d ∈ evaluateOr u lists univ matched children ↔ d ∈ matched ∨ AnyHolds u has children
  | [] => by simp [evaluateOr, AnyHolds]
  | child :: rest => by
    rw [evaluateOr, AnyHolds, mem_evaluateOr hd hlists rest, Finset.mem_union,
      mem_evaluate hd hlists child, or_assoc]
end

theorem mem_search {a : ℕ} {c : Collection} {query : Query} {candidates : List ℕ}
    (hlists : ∀ f t, d ∈ postingList s a c f t ↔ has f t) :
    d ∈ search u s a c query candidates ↔ d ∈ candidates ∧ Holds u has query := by
  rw [search, Finset.mem_sort, Finset.mem_inter, mem_toFinset, and_comm]
  exact and_congr_right fun hd => mem_evaluate (mem_toFinset.2 hd) hlists query

end

/-! ## What the calls leave in the lists -/

section
variable {digest : Digest} (a : ℕ) (c : Collection) (edit : Finset ℕ → PostingEdit)
  (ks : List TermKey)

def edits (s : Records) : List WriteOp :=
  ks.flatMap fun k => (edit (postingList s a c k.1 k.2)).ops a c k

theorem run_editOps (w : World) :
    (editOps a c edit ks).run (machine digest) w = (.ok (edits a c edit ks w.records), w) := by
  induction ks with
  | nil => rfl
  | cons k ks ih =>
    rw [editOps, readBitmap, bind_assoc, run_exec_bind, pure_bind, run_bind]
    simp only [machine, ih]
    rfl

theorem loc_of_mem_edits {op : WriteOp} (h : op ∈ edits a c edit ks s) :
    ∃ k ∈ ks, op.loc = .posting a c k.1 k.2 := by
  obtain ⟨k, hk, hop⟩ := mem_flatMap.1 h
  exact ⟨k, hk, loc_of_mem_ops hop⟩

theorem records_apply {ops : List WriteOp} (h : ∀ op ∈ ops, ∀ n, op.loc ≠ .counter n) (w : World) :
    ((apply ops).run (machine digest) w).2.records = w.records.batch ops := by
  induction ops generalizing w with
  | nil => rfl
  | cons op ops ih =>
    have hrest := ih fun op hop => h op (mem_cons_of_mem _ hop)
    cases op with
    | add n amount => exact absurd rfl (h _ mem_cons_self n)
    | set l v | delete l =>
      rw [apply, run_exec_bind, hrest]
      rfl

theorem postingList_edits (s : Records) (a' : ℕ) (c' : Collection) (f : Field) (t : String) :
    postingList (s.batch (edits a c edit ks s)) a' c' f t =
      if a' = a ∧ c' = c ∧ (f, t) ∈ ks then
        (edit (postingList s a c f t)).result (postingList s a c f t)
      else postingList s a' c' f t := by
  have hlookup := Records.lookup_batch s (edits a c edit ks s) (.posting a' c' f t)
  by_cases h : a' = a ∧ c' = c
  · obtain ⟨rfl, rfl⟩ := h
    have hread : ∀ r ∈ ks.map fun k => (k, s.lookup (.posting a' c' k.1 k.2)), r.1 = (f, t) →
        r.2 = s.lookup (.posting a' c' f t) := by
      intro r hr hk
      obtain ⟨k, -, rfl⟩ := mem_map.1 hr
      obtain rfl : k = (f, t) := hk
      rfl
    have hedit := getD_effects_edits a' c' edit (f, t) hread (.inl rfl)
    rw [flatMap_map] at hedit
    rw [postingList, hlookup]
    simpa [postingList, edits] using hedit
  · rw [postingList, hlookup, WriteOp.effects_of_ne, if_neg (fun hk => h ⟨hk.1, hk.2.1⟩)]
    · rfl
    · intro op hop heq
      obtain ⟨k, -, hk⟩ := loc_of_mem_edits a c edit ks hop
      obtain ⟨ha, hc, -⟩ := Loc.posting.inj (hk.symm.trans heq)
      exact h ⟨ha.symm, hc.symm⟩

theorem ne_empty_of_edits (hedit : ∀ b, edit b ≠ .replace ∅) {a' : ℕ} {c' : Collection} {f : Field}
    {t : String} (hs : s.lookup (.posting a' c' f t) ≠ some ∅) :
    (s.batch (edits a c edit ks s)).lookup (.posting a' c' f t) ≠ some ∅ := by
  intro h
  rw [Records.lookup_batch] at h
  obtain h | h := WriteOp.set_mem_of_effects (by simp) h
  · exact hs h
  · obtain ⟨k, -, hop⟩ := mem_flatMap.1 h
    cases he : edit (postingList s a c k.1 k.2) with
    | keep | clear => simp [he, PostingEdit.ops] at hop
    | replace b =>
      simp only [he, PostingEdit.ops, mem_singleton, WriteOp.set.injEq] at hop
      obtain ⟨⟨rfl, rfl, rfl, rfl⟩, hb⟩ := hop
      exact hedit _ (eq_of_heq hb ▸ he)

end

theorem insertEdit_ne (d : ℕ) (b : Finset ℕ) : insertEdit d b ≠ .replace ∅ := by
  unfold insertEdit
  split <;> simp

theorem removeEdit_ne (d : ℕ) (b : Finset ℕ) : removeEdit d b ≠ .replace ∅ := by
  unfold removeEdit
  split
  · split
    next => simp
    next h => simpa using h
  · simp

/-! ## A series of calls -/

structure Slot where
  accountId : ℕ
  collection : Collection
  documentId : ℕ
  field : Field
  deriving DecidableEq

inductive Request
  | index
  | remove

structure Call where
  request : Request
  slot : Slot
  text : String

def Call.run (u : Unicode) (e : Call) : Action Unit :=
  match e.request with
  | .index => index u e.slot.accountId e.slot.collection e.slot.documentId e.slot.field e.text
  | .remove => remove u e.slot.accountId e.slot.collection e.slot.documentId e.slot.field e.text

abbrev Texts := Slot → Option String

def Call.after (texts : Texts) (e : Call) : Texts :=
  Function.update texts e.slot (match e.request with
    | .index => some e.text
    | .remove => none)

/-- A text is removed as it was indexed, and before another one is indexed in its place. -/
def Call.Fair (texts : Texts) (e : Call) : Prop := ∀ text, texts e.slot = some text → text = e.text

def FairSeries (texts : Texts) : List Call → Prop
  | [] => True
  | e :: es => e.Fair texts ∧ FairSeries (e.after texts) es

def runCalls (u : Unicode) (digest : Digest) : World → List Call → World :=
  List.foldl fun w e => ((e.run u).run (machine digest) w).2

variable {u : Unicode} {digest : Digest} {w : World} {texts : Texts}

def HasTerm (u : Unicode) (texts : Texts) (p : Slot) (term : String) : Prop :=
  ∃ text, texts p = some text ∧ term ∈ tokenize u text

/-- The posting lists are those of the texts, and none is stored empty. -/
structure Indexed (u : Unicode) (s : Records) (texts : Texts) : Prop where
  mem : ∀ p t, p.documentId ∈ postingList s p.accountId p.collection p.field t ↔ HasTerm u texts p t
  ne : ∀ a c f t, s.lookup (.posting a c f t) ≠ some ∅

def Call.edit (e : Call) : Finset ℕ → PostingEdit :=
  match e.request with
  | .index => insertEdit e.slot.documentId
  | .remove => removeEdit e.slot.documentId

def Call.edits (u : Unicode) (e : Call) (s : Records) : List WriteOp :=
  Fts.edits e.slot.accountId e.slot.collection e.edit (termKeys u [(e.slot.field, e.text)]) s

theorem Call.records_run (e : Call) :
    ((e.run u).run (machine digest) w).2.records = w.records.batch (e.edits u w.records) := by
  have hrun : e.run u = editOps e.slot.accountId e.slot.collection e.edit
      (termKeys u [(e.slot.field, e.text)]) >>= apply := by
    obtain ⟨request, p, text⟩ := e
    cases request <;> rfl
  rw [hrun, run_bind, run_editOps]
  refine records_apply (fun op hop n heq => ?_) w
  obtain ⟨k, -, hk⟩ := loc_of_mem_edits _ _ _ _ hop
  cases hk.symm.trans heq

theorem Call.mem_postingList (e : Call) {p : Slot} {t : String} :
    p.documentId ∈ postingList (s.batch (e.edits u s)) p.accountId p.collection p.field t ↔
      match e.request with
      | .index => p.documentId ∈ postingList s p.accountId p.collection p.field t ∨
          p = e.slot ∧ t ∈ tokenize u e.text
      | .remove => p.documentId ∈ postingList s p.accountId p.collection p.field t ∧
          ¬ (p = e.slot ∧ t ∈ tokenize u e.text) := by
  obtain ⟨request, ⟨a', c', d', f'⟩, text⟩ := e
  obtain ⟨a, c, d, f⟩ := p
  have hkey : (f, t) ∈ termKeys u [(f', text)] ↔ f' = f ∧ t ∈ tokenize u text := by
    simp [mem_termKeys]
  rw [Call.edits, postingList_edits]
  split
  next h =>
    obtain ⟨rfl, rfl, hk⟩ := h
    obtain ⟨rfl, ht⟩ := hkey.1 hk
    cases request <;> simp [Call.edit, ht, or_comm, and_comm]
  next h =>
    have hother : ¬ ((⟨a, c, d, f⟩ : Slot) = ⟨a', c', d', f'⟩ ∧ t ∈ tokenize u text) := by
      rintro ⟨hp, ht⟩
      cases hp
      exact h ⟨rfl, rfl, hkey.2 ⟨rfl, ht⟩⟩
    cases request
    · exact (or_iff_left hother).symm
    · exact (and_iff_left hother).symm

theorem Indexed.step {e : Call} (h : Indexed u s texts) (hfair : e.Fair texts) :
    Indexed u (s.batch (e.edits u s)) (e.after texts) := by
  obtain ⟨request, p, text⟩ := e
  refine ⟨fun q t => ?_, fun a c f t => ne_empty_of_edits _ _ _ _ (fun b => ?_) (h.ne a c f t)⟩
  · rw [Call.mem_postingList, h.mem]
    by_cases hq : q = p
    · subst hq
      cases hq : texts q with
      | none => cases request <;> simp [Call.after, HasTerm, hq]
      | some text' =>
        obtain rfl : text' = text := hfair text' hq
        cases request <;> simp [Call.after, HasTerm, hq]
    · cases request <;> simp [Call.after, HasTerm, hq]
  · cases request
    · exact insertEdit_ne _ b
    · exact removeEdit_ne _ b

theorem Indexed.run {es : List Call} (h : Indexed u w.records texts)
    (hfair : FairSeries texts es) :
    Indexed u (runCalls u digest w es).records (es.foldl Call.after texts) := by
  induction es generalizing w texts with
  | nil => exact h
  | cons e es ih => exact ih (e.records_run ▸ h.step hfair.1) hfair.2

theorem search_iff_holds (hfresh : ∀ a c f t, w.records.lookup (.posting a c f t) = none)
    {es : List Call} (hfair : FairSeries (fun _ => none) es) (a : ℕ) (c : Collection) :
    let s := (runCalls u digest w es).records
    let texts := es.foldl Call.after fun _ => none
    (∀ query candidates, (search u s a c query candidates).SortedLT ∧
      ∀ d, d ∈ search u s a c query candidates ↔
        d ∈ candidates ∧ Holds u (fun f t => HasTerm u texts ⟨a, c, d, f⟩ t) query) ∧
    ∀ f t, (s.lookup (.posting a c f t)).isSome ↔ ∃ d, HasTerm u texts ⟨a, c, d, f⟩ t := by
  intro s texts
  have hstart : Indexed u w.records fun _ => none :=
    ⟨fun p t => by simp [postingList, hfresh, HasTerm], fun a c f t => by simp [hfresh]⟩
  have h : Indexed u s texts := hstart.run hfair
  refine ⟨fun query candidates => ⟨Finset.sortedLT_sort _, fun d => ?_⟩, fun f t => ?_⟩
  · exact mem_search fun f t => h.mem ⟨a, c, d, f⟩ t
  · have hne := h.ne a c f t
    have hmem := fun d => h.mem ⟨a, c, d, f⟩ t
    simp only [← hmem, postingList]
    cases hl : s.lookup (.posting a c f t) with
    | none => simp
    | some b => exact iff_of_true rfl (Finset.nonempty_iff_ne_empty.2 fun hb => hne (hb ▸ hl))

def ascii : Unicode := ⟨Char.isAlphanum, fun ch => [ch.toLower]⟩

/-- A subject that is replaced by another. -/
def replacing (removals : List Call) : List Call :=
  ⟨.index, ⟨7, .email, 3, .subject⟩, "Old"⟩ :: removals ++
    [⟨.index, ⟨7, .email, 3, .subject⟩, "New"⟩]

theorem search_iff_holds_reindexed :
    let es := replacing [⟨.remove, ⟨7, .email, 3, .subject⟩, "Old"⟩]
    let s := (runCalls ascii (fun _ => []) (.empty (.new 0) 0) es).records
    let texts := es.foldl Call.after fun _ => none
    FairSeries (fun _ => none) es ∧
      (∀ query candidates, (search ascii s 7 .email query candidates).SortedLT ∧
        ∀ d, d ∈ search ascii s 7 .email query candidates ↔
          d ∈ candidates ∧ Holds ascii (fun f t => HasTerm ascii texts ⟨7, .email, d, f⟩ t) query) ∧
      ∀ f t, (s.lookup (.posting 7 .email f t)).isSome ↔
        ∃ d, HasTerm ascii texts ⟨7, .email, d, f⟩ t := by
  intro es s texts
  have hfair : FairSeries (fun _ => none) es := by
    simp [es, replacing, FairSeries, Call.Fair, Call.after]
  exact ⟨hfair, search_iff_holds (by simp [World.empty]) hfair 7 .email⟩

/-- Nothing is removed before the new text is indexed; the old words still find the message. -/
theorem search_finds_replaced :
    let s := (runCalls ascii (fun _ => []) (.empty (.new 0) 0) (replacing [])).records
    let texts := (replacing []).foldl Call.after fun _ => none
    search ascii s 7 .email (.term .subject "old") [3] = [3] ∧
      ¬ Holds ascii (fun f t => HasTerm ascii texts ⟨7, .email, 3, f⟩ t) (.term .subject "old") := by
  refine ⟨by decide +kernel, fun h => ?_⟩
  obtain ⟨text, htext, hterm⟩ := h.2 "old" (by decide)
  obtain rfl : "New" = text := Option.some.inj htext
  exact absurd hterm (by decide)

end IrixMail.Store.Fts

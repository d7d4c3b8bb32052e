import IrixMail.Store.World

/-!
# The full-text index

A posting list per field and term holds the ids of the documents. Indexing a
document reads every list it touches and returns the writes that replace them;
the caller commits the writes later, with its batch.
-/

namespace IrixMail.Store
open Library Prog

/-- The character tables of the standard library. -/
structure Unicode where
  isAlphanumeric : Char → Bool
  toLowercase : Char → List Char

namespace Fts

def maxTermLength : ℕ := 64

def utf8Length (s : List Char) : ℕ := (s.map Char.utf8Size).sum

def pushTerm (terms : List String) (current : List Char) : List String :=
  if current = [] then terms
  else if utf8Length current ≤ maxTermLength then terms.insert (String.ofList current)
  else terms

def tokenizeFrom (u : Unicode) (terms : List String) (current : List Char) :
    List Char → List String
  | [] => pushTerm terms current
  | ch :: rest =>
    if u.isAlphanumeric ch then tokenizeFrom u terms (current ++ u.toLowercase ch) rest
    else tokenizeFrom u (pushTerm terms current) [] rest

def tokenize (u : Unicode) (text : String) : List String := tokenizeFrom u [] [] text.toList

abbrev TermKey := Field × String

def termKeys (u : Unicode) (entries : List (Field × String)) : List TermKey :=
  (entries.flatMap fun e => (tokenize u e.2).map fun t => (e.1, t)).dedup.insertionSort
    fun x y => x.1.tag :: codesOf x.2 ≤ y.1.tag :: codesOf y.2

def readBitmap (a : ℕ) (c : Collection) (k : TermKey) : Action (Finset ℕ) := do
  let stored ← exec (.get (.posting a c k.1 k.2))
  pure (stored.getD ∅)

/-- The write that turns a posting list into the edited one. -/
inductive PostingEdit
  | keep
  | clear
  | replace (bitmap : Finset ℕ)

def PostingEdit.ops (a : ℕ) (c : Collection) (k : TermKey) : PostingEdit → List WriteOp
  | keep => []
  | clear => [.delete (.posting a c k.1 k.2)]
  | replace bitmap => [.set (.posting a c k.1 k.2) bitmap]

def editOps (a : ℕ) (c : Collection) (edit : Finset ℕ → PostingEdit) :
    List TermKey → Action (List WriteOp)
  | [] => pure []
  | k :: ks => do
    let bitmap ← readBitmap a c k
    let rest ← editOps a c edit ks
    pure ((edit bitmap).ops a c k ++ rest)

def insertEdit (documentId : ℕ) (bitmap : Finset ℕ) : PostingEdit :=
  if documentId ∈ bitmap then .keep else .replace (insert documentId bitmap)

def removeEdit (documentId : ℕ) (bitmap : Finset ℕ) : PostingEdit :=
  if documentId ∈ bitmap then
    if bitmap.erase documentId = ∅ then .clear else .replace (bitmap.erase documentId)
  else .keep

def indexOps (u : Unicode) (a : ℕ) (c : Collection) (documentId : ℕ)
    (entries : List (Field × String)) : Action (List WriteOp) :=
  editOps a c (insertEdit documentId) (termKeys u entries)

def removeOps (u : Unicode) (a : ℕ) (c : Collection) (documentId : ℕ)
    (entries : List (Field × String)) : Action (List WriteOp) :=
  editOps a c (removeEdit documentId) (termKeys u entries)

/-! ## What the writes leave -/

def PostingEdit.result (bitmap : Finset ℕ) : PostingEdit → Finset ℕ
  | keep => bitmap
  | clear => ∅
  | replace bitmap => bitmap

@[simp] theorem result_insertEdit (d : ℕ) (bitmap : Finset ℕ) :
    (insertEdit d bitmap).result bitmap = insert d bitmap := by
  unfold insertEdit
  split
  next h => exact (Finset.insert_eq_of_mem h).symm
  next => rfl

@[simp] theorem result_removeEdit (d : ℕ) (bitmap : Finset ℕ) :
    (removeEdit d bitmap).result bitmap = bitmap.erase d := by
  unfold removeEdit
  split
  · split
    next h => exact h.symm
    next => rfl
  next h => exact (Finset.erase_eq_of_notMem h).symm

theorem getD_effects_ops (a : ℕ) (c : Collection) (k : TermKey) (edit : PostingEdit)
    {bitmap : Finset ℕ} {y : Option (Finset ℕ)}
    (hy : y.getD ∅ = bitmap ∨ y.getD ∅ = edit.result bitmap) :
    (WriteOp.effects (.posting a c k.1 k.2) (edit.ops a c k) y).getD ∅ = edit.result bitmap := by
  cases edit with
  | keep => exact hy.elim id id
  | clear => simp [PostingEdit.ops, PostingEdit.result]
  | replace b => simp [PostingEdit.ops, PostingEdit.result]

theorem loc_of_mem_ops {a : ℕ} {c : Collection} {k : TermKey} {edit : PostingEdit} {op : WriteOp}
    (h : op ∈ edit.ops a c k) : op.loc = .posting a c k.1 k.2 := by
  cases edit <;> simp_all [PostingEdit.ops, WriteOp.loc]

theorem getD_effects_edits (a : ℕ) (c : Collection) (edit : Finset ℕ → PostingEdit)
    {read : List (TermKey × Option (Finset ℕ))} (k : TermKey) {x : Option (Finset ℕ)}
    (hread : ∀ r ∈ read, r.1 = k → r.2 = x) {y : Option (Finset ℕ)}
    (hy : y.getD ∅ = x.getD ∅ ∨ y.getD ∅ = (edit (x.getD ∅)).result (x.getD ∅)) :
    (WriteOp.effects (.posting a c k.1 k.2)
        (read.flatMap fun r => (edit (r.2.getD ∅)).ops a c r.1) y).getD ∅ =
      if k ∈ read.map Prod.fst then (edit (x.getD ∅)).result (x.getD ∅) else y.getD ∅ := by
  induction read generalizing y with
  | nil => rfl
  | cons r read ih =>
    have hrest := fun r' hr' => hread r' (List.mem_cons_of_mem r hr')
    rw [List.flatMap_cons, WriteOp.effects_append]
    by_cases hk : r.1 = k
    · subst hk
      have hx : r.2 = x := hread r List.mem_cons_self rfl
      have hhead := getD_effects_ops a c r.1 (edit (x.getD ∅)) hy
      rw [hx, ih hrest (.inr hhead), hhead]
      simp
    · have hhead : WriteOp.effects (.posting a c k.1 k.2) ((edit (r.2.getD ∅)).ops a c r.1) y = y := by
        refine WriteOp.effects_of_ne (l := .posting a c k.1 k.2) (fun op hop heq => hk ?_) y
        have hloc := (loc_of_mem_ops hop).symm.trans heq
        obtain ⟨-, -, hfield, hterm⟩ := Loc.posting.inj hloc
        exact Prod.ext hfield hterm
      have hmem : k ∈ (r :: read).map Prod.fst ↔ k ∈ read.map Prod.fst := by
        rw [List.map_cons, List.mem_cons]
        exact or_iff_right (Ne.symm hk)
      rw [hhead, ih hrest hy]
      simp only [hmem]

theorem mem_termKeys {u : Unicode} {entries : List (Field × String)} {k : TermKey} :
    k ∈ termKeys u entries ↔ ∃ e ∈ entries, e.1 = k.1 ∧ k.2 ∈ tokenize u e.2 := by
  obtain ⟨f, t⟩ := k
  simp [termKeys, and_comm]

end Fts
end IrixMail.Store

import IrixMail.Core.Text
import Mathlib.Data.List.Pairwise

/-!
# WebDAV objects

The calendars and the address books of an account are two shelves of the same
shape. PUT looks for another object with the UID before it writes, COPY and
MOVE do not.
-/

namespace IrixMail.Dav
open List

inductive Family
  | cal
  | card
  deriving DecidableEq

structure CollectionView where
  id : ℕ
  name : String

structure ObjectView where
  id : ℕ
  parent : ℕ
  name : String
  uid : Option String
  data : String
  etag : String

/-- What the account stores of one family. -/
structure Shelf where
  collections : List CollectionView
  objects : List ObjectView
  lastId : ℕ

/-- The parsers, of whose outcome only the UID is used here, and the content hash. -/
structure Formats where
  parseObject : Family → String → Option (Option String)
  contentEtag : String → String

namespace Shelf
variable (s : Shelf)

def collection (name : String) : Option CollectionView :=
  (s.collections.insertionSort (·.id ≤ ·.id)).find? (·.name = name)

def objectsIn (parent : ℕ) : List ObjectView :=
  (s.objects.filter (·.parent = parent)).insertionSort (·.id ≤ ·.id)

def object (parent : ℕ) (name : String) : Option ObjectView :=
  (s.objectsIn parent).find? (·.name = name)

def writeRecord (record : ObjectView) : Shelf :=
  { s with objects := s.objects.filter (·.id ≠ record.id) ++ [record] }

def deleteRecord (id : ℕ) : Shelf := { s with objects := s.objects.filter (·.id ≠ id) }

def upsert (etag : String → String) (parent : ℕ) (name data : String) (uid : Option String) :
    Shelf × Bool :=
  match s.object parent name with
  | some old => (s.writeRecord ⟨old.id, parent, name, uid, data, etag data⟩, false)
  | none =>
    let id := (s.lastId + 1) % 2 ^ 32
    ({ s with lastId := s.lastId + 1 }.writeRecord ⟨id, parent, name, uid, data, etag data⟩, true)

def deleteObject (parent : ℕ) (name : String) : Shelf × Bool :=
  match s.object parent name with
  | some object => (s.deleteRecord object.id, true)
  | none => (s, false)

def deleteCollection (id : ℕ) : Shelf where
  collections := s.collections.filter (·.id ≠ id)
  objects := s.objects.filter fun object => object.id ∉ (s.objectsIn id).map ObjectView.id
  lastId := s.lastId

end Shelf

def unquote (value : String) : String :=
  let value := (trim value).toList
  let value := if ['W', '/'] <+: value then value.drop 2 else value
  String.ofList (trimEnd (· = '"') (trimStart (· = '"') value))

/-- A request to an object or a collection; a destination is absent, or what
`parse_target` makes of it. -/
inductive Request
  | put (family : Family) (collection name : String) (body : Bytes)
      (ifMatch ifNoneMatch : Option String)
  | copyOrMove (isMove : Bool) (family : Family) (collection name : String)
      (destination : Option (Option (Family × String × String))) (overwrite : Bool)
  | deleteObject (family : Family) (collection name : String)
  | deleteCollection (family : Family) (name : String)

variable (formats : Formats)

def preconditionFails (existing : Option ObjectView) (ifMatch ifNoneMatch : Option String) : Bool :=
  (ifNoneMatch.map unquote = some "*" && existing.isSome) ||
    (ifMatch.map unquote).any fun condition =>
      !existing.any fun object => condition = "*" || object.etag = condition

def put (s : Shelf) (family : Family) (collection name : String) (body : Bytes)
    (ifMatch ifNoneMatch : Option String) : Shelf × ℕ :=
  match s.collection collection with
  | none => (s, 404)
  | some parent =>
    match (fromUtf8 body).bind fun text => (formats.parseObject family text).map (text, ·) with
    | none => (s, 403)
    | some (text, uid) =>
      if preconditionFails (s.object parent.id name) ifMatch ifNoneMatch then (s, 412)
      else if uid.isSome ∧ (s.objectsIn parent.id).any fun other =>
          other.name ≠ name ∧ other.uid = uid then (s, 409)
      else
        let written := s.upsert formats.contentEtag parent.id name text uid
        (written.1, if written.2 then 201 else 204)

def copyOrMove (s : Shelf) (isMove : Bool) (family : Family) (collection name : String)
    (destination : Option (Option (Family × String × String))) (overwrite : Bool) : Shelf × ℕ :=
  match destination with
  | none => (s, 400)
  | some none => (s, 403)
  | some (some (destFamily, destCollection, destName)) =>
    if destFamily ≠ family then (s, 403) else
    match s.collection collection with
    | none => (s, 404)
    | some parent =>
      match s.object parent.id name with
      | none => (s, 404)
      | some object =>
        match s.collection destCollection with
        | none => (s, 409)
        | some destParent =>
          if (s.object destParent.id destName).isSome ∧ !overwrite then (s, 412) else
          match formats.parseObject family object.data with
          | none => (s, 403)
          | some uid =>
            let written := s.upsert formats.contentEtag destParent.id destName object.data uid
            (if isMove ∧ ¬ (destParent.id = parent.id ∧ destName = name) then
                (written.1.deleteObject parent.id name).1
              else written.1, if written.2 then 201 else 204)

def deleteTarget (s : Shelf) (collection : String) : Option String → Shelf × ℕ
  | some name =>
    match s.collection collection with
    | none => (s, 404)
    | some parent =>
      ((s.deleteObject parent.id name).1, if (s.deleteObject parent.id name).2 then 204 else 404)
  | none =>
    match s.collection collection with
    | none => (s, 404)
    | some view => if s.collections.length ≤ 1 then (s, 403) else (s.deleteCollection view.id, 204)

abbrev Account := Family → Shelf

def Request.family : Request → Family
  | put f _ _ _ _ _ | copyOrMove _ f _ _ _ _ | deleteObject f _ _ | deleteCollection f _ => f

def Request.on (s : Shelf) : Request → Shelf × ℕ
  | put f collection name body ifMatch ifNoneMatch =>
    Dav.put formats s f collection name body ifMatch ifNoneMatch
  | copyOrMove isMove f collection name destination overwrite =>
    Dav.copyOrMove formats s isMove f collection name destination overwrite
  | deleteObject _ collection name => deleteTarget s collection (some name)
  | deleteCollection _ name => deleteTarget s name none

def serve (d : Account) (r : Request) : Account × ℕ :=
  (Function.update d r.family (r.on formats (d r.family)).1, (r.on formats (d r.family)).2)

def serveAll (d : Account) (requests : List Request) : Account :=
  requests.foldl (fun d request => (serve formats d request).1) d

/-! ## One object for a name and for a UID -/

def Apart (x y : ObjectView) : Prop :=
  x.parent = y.parent → x.name ≠ y.name ∧ (x.uid = none ∨ x.uid ≠ y.uid)

instance : DecidableRel Apart := fun x y => inferInstanceAs (Decidable (x.parent = y.parent → _))

instance : Std.Symm Apart where
  symm x y h hp := ⟨(h hp.symm).1.symm, by grind [h hp.symm]⟩

def Shelf.Unique (s : Shelf) : Prop := s.objects.Pairwise Apart

/-- What a COPY or MOVE that is not refused writes has a UID that no other object of the
destination has, other than an object that the MOVE takes away. -/
def Unclaimed (d : Account) : Request → Prop
  | .copyOrMove isMove f collection name (some (some (g, destCollection, destName))) overwrite =>
    ∀ parent object destParent uid, g = f → (d f).collection collection = some parent →
      (d f).object parent.id name = some object →
      (d f).collection destCollection = some destParent →
      (((d f).object destParent.id destName).isSome → overwrite = true) →
      formats.parseObject f object.data = some uid → uid ≠ none →
      ∀ x ∈ (d f).objects, x.parent = destParent.id → x.name ≠ destName → x.uid = uid →
        isMove = true ∧ x = object
  | _ => True

def AllUnclaimed (d : Account) : List Request → Prop
  | [] => True
  | r :: rs => Unclaimed formats d r ∧ AllUnclaimed (serve formats d r).1 rs

variable {formats} {s : Shelf} {parent : ℕ} {name : String}

theorem mem_objectsIn {x : ObjectView} :
    x ∈ s.objectsIn parent ↔ x ∈ s.objects ∧ x.parent = parent := by
  simp [Shelf.objectsIn]

theorem of_object {x : ObjectView} (h : s.object parent name = some x) :
    x ∈ s.objects ∧ x.parent = parent ∧ x.name = name := by
  have hmem := mem_objectsIn.1 (mem_of_find?_eq_some h)
  exact ⟨hmem.1, hmem.2, by simpa using find?_some h⟩

theorem name_ne_of_object (h : s.object parent name = none) {x : ObjectView} (hx : x ∈ s.objects)
    (hparent : x.parent = parent) : x.name ≠ name := by
  simpa using find?_eq_none.1 h x (mem_objectsIn.2 ⟨hx, hparent⟩)

theorem Shelf.Unique.eq (h : s.Unique) {x y : ObjectView} (hx : x ∈ s.objects) (hy : y ∈ s.objects)
    (hparent : x.parent = y.parent) (hname : x.name = y.name) : x = y := by
  by_contra hne
  exact (h.forall hx hy hne hparent).1 hname

/-- An upsert replaces what had the name, or adds a record. -/
theorem Shelf.Unique.upsert (h : s.Unique) (etag : String → String) (parent : ℕ)
    (name data : String) (uid : Option String) :
    ∃ r, r.parent = parent ∧ r.name = name ∧ r.uid = uid ∧
      (∀ x ∈ s.objects, x.parent = r.parent → x.name = r.name → x.id = r.id) ∧
      (s.upsert etag parent name data uid).1.objects = s.objects.filter (·.id ≠ r.id) ++ [r] := by
  rw [Shelf.upsert]
  split
  next old hold =>
    obtain ⟨hmem, rfl, rfl⟩ := of_object hold
    refine ⟨⟨old.id, old.parent, old.name, uid, data, etag data⟩, rfl, rfl, rfl,
      fun x hx hp hn => ?_, rfl⟩
    rw [h.eq hx hmem hp hn]
  next hnone =>
    exact ⟨_, rfl, rfl, rfl, fun x hx hp hn => absurd hn (name_ne_of_object hnone hx hp), rfl⟩

theorem Shelf.Unique.append (h : s.Unique) {l : List ObjectView} {r : ObjectView}
    (hreplaced : ∀ x ∈ s.objects, x.parent = r.parent → x.name = r.name → x.id = r.id)
    (hl : l.Sublist s.objects) (hid : ∀ x ∈ l, x.id ≠ r.id)
    (huid : r.uid ≠ none → ∀ x ∈ l, x.parent = r.parent → x.name ≠ r.name → x.uid ≠ r.uid) :
    (l ++ [r]).Pairwise Apart := by
  refine pairwise_append.2 ⟨h.sublist hl, pairwise_singleton _ _, fun x hx y hy hp => ?_⟩
  obtain rfl := mem_singleton.1 hy
  have hname : x.name ≠ y.name := fun hn => hid x hx (hreplaced x (hl.subset hx) hp hn)
  refine ⟨hname, ?_⟩
  by_cases hnone : y.uid = none
  · rw [hnone]
    exact em _
  · exact .inr (huid hnone x hx hp hname)

theorem unique_put (h : s.Unique) (f : Family) (collection : String) (body : Bytes)
    (ifMatch ifNoneMatch : Option String) :
    (put formats s f collection name body ifMatch ifNoneMatch).1.Unique := by
  rw [put]
  split
  next => exact h
  next parent hparent =>
    split
    next => exact h
    next text uid hparse =>
      split_ifs with hcond hclash
      · exact h
      · exact h
      · obtain ⟨r, hp, rfl, rfl, hreplaced, hobjects⟩ :=
          h.upsert formats.contentEtag parent.id name text uid
        rw [Shelf.Unique, hobjects]
        refine h.append hreplaced filter_sublist (by simp) fun hne x hx hxp hname huid =>
          hclash ⟨Option.isSome_iff_ne_none.2 hne,
            any_eq_true.2 ⟨x, ?_, by simp [hname, huid]⟩⟩
        exact mem_objectsIn.2 ⟨(mem_filter.1 hx).1, hxp.trans hp⟩

theorem unique_deleteObject (h : s.Unique) : (s.deleteObject parent name).1.Unique := by
  rw [Shelf.deleteObject]
  split
  · exact h.sublist filter_sublist
  · exact h

theorem unique_deleteTarget (h : s.Unique) (collection : String) (name : Option String) :
    (deleteTarget s collection name).1.Unique := by
  cases name with
  | some name =>
    rw [deleteTarget]
    split
    · exact h
    · exact unique_deleteObject h
  | none =>
    rw [deleteTarget]
    split
    · exact h
    · split_ifs
      · exact h
      · exact h.sublist filter_sublist

/-- The source of a MOVE is gone, deleted or overwritten, when the MOVE is done. -/
theorem unique_moved (h : s.Unique) {object r : ObjectView} {t : Shelf}
    (hobject : s.object parent name = some object)
    (hreplaced : ∀ x ∈ s.objects, x.parent = r.parent → x.name = r.name → x.id = r.id)
    (ht : t.objects = s.objects.filter (·.id ≠ r.id) ++ [r])
    (hdest : ¬ (r.parent = parent ∧ r.name = name))
    (huid : r.uid ≠ none → ∀ x ∈ s.objects, x.parent = r.parent → x.name ≠ r.name →
      x.uid = r.uid → x = object) : (t.deleteObject parent name).1.Unique := by
  obtain ⟨hmem, rfl, rfl⟩ := of_object hobject
  rw [Shelf.deleteObject]
  split
  next y hy =>
    obtain ⟨hyt, hyp, hyn⟩ := of_object hy
    have hys : y ∈ s.objects ∧ y.id ≠ r.id := by
      rw [ht, mem_append, mem_singleton] at hyt
      simpa using hyt.resolve_right fun he => hdest (he ▸ ⟨hyp, hyn⟩)
    obtain rfl : y = object := h.eq hys.1 hmem hyp hyn
    rw [Shelf.deleteRecord]
    rw [ht, filter_append, filter_filter, filter_singleton]
    simp only [ne_eq, hys.2.symm, not_false_eq_true, decide_true]
    refine h.append hreplaced filter_sublist (by simp) fun hne x hx hp hn hu => ?_
    obtain rfl := huid hne x (mem_filter.1 hx).1 hp hn hu
    simp at hx
  next hnone =>
    rw [Shelf.Unique, ht]
    refine h.append hreplaced filter_sublist (by simp) fun hne x hx hp hn hu => ?_
    obtain rfl := huid hne x (mem_filter.1 hx).1 hp hn hu
    exact name_ne_of_object hnone (ht ▸ mem_append_left _ hx) rfl rfl

theorem unique_copyOrMove {d : Account} (f : Family) (h : (d f).Unique) {isMove : Bool}
    {collection : String} {destination : Option (Option (Family × String × String))}
    {overwrite : Bool}
    (hfree : Unclaimed formats d (.copyOrMove isMove f collection name destination overwrite)) :
    (copyOrMove formats (d f) isMove f collection name destination overwrite).1.Unique := by
  unfold copyOrMove
  split
  next => exact h
  next => exact h
  next destFamily destCollection destName =>
    split_ifs with hfamily
    · exact h
    split
    next => exact h
    next parent hparent =>
      split
      next => exact h
      next object hobject =>
        split
        next => exact h
        next destParent hdest =>
          split
          next => exact h
          next hoverwrite =>
            split
            next => exact h
            next uid huid =>
              have hfree' := hfree parent object destParent uid (not_not.1 hfamily) hparent hobject
                hdest (by simpa using hoverwrite) huid
              obtain ⟨r, hp, rfl, rfl, hreplaced, hobjects⟩ :=
                h.upsert formats.contentEtag destParent.id destName object.data uid
              rw [← hp] at hfree' hobjects ⊢
              dsimp only
              split_ifs with hmove
              · exact unique_moved h hobject hreplaced hobjects hmove.2 fun hne x hx hxp hn hu =>
                  (hfree' hne x hx hxp hn hu).2
              · rw [Shelf.Unique, hobjects]
                refine h.append hreplaced filter_sublist (by simp) fun hne x hx hxp hn hu => ?_
                obtain ⟨hmoves, rfl⟩ := hfree' hne x (mem_filter.1 hx).1 hxp hn hu
                obtain ⟨-, hxp', hxn⟩ := of_object hobject
                exact hmove ⟨hmoves, fun hsame => hn (hxn.trans hsame.2.symm)⟩

theorem unique_serveAll {d : Account} (h : ∀ f, (d f).Unique) {requests : List Request}
    (hfree : AllUnclaimed formats d requests) (f : Family) :
    (serveAll formats d requests f).Unique := by
  induction requests generalizing d with
  | nil => exact h f
  | cons r rs ih =>
    refine ih (fun g => ?_) hfree.2
    by_cases hg : g = r.family
    · subst hg
      simp only [serve, Function.update_self]
      cases r with
      | put f collection name body ifMatch ifNoneMatch => exact unique_put (h f) ..
      | copyOrMove isMove f collection name destination overwrite =>
        exact unique_copyOrMove f (h f) hfree.1
      | deleteObject f collection name => exact unique_deleteTarget (h f) ..
      | deleteCollection f name => exact unique_deleteTarget (h f) ..
    · simp only [serve, Function.update_of_ne hg]
      exact h g

/-- A calendar with one event. -/
def oneEvent : Account := fun _ =>
  ⟨[⟨1, "calendar"⟩], [⟨1, 1, "a.ics", some "u", "", ""⟩], 1⟩

def sameUid : Formats := ⟨fun _ _ => some (some "u"), id⟩

def toB (isMove : Bool) : Request :=
  .copyOrMove isMove .cal "calendar" "a.ics" (some (some (.cal, "calendar", "b.ics"))) true

theorem unique_serveAll_moved :
    AllUnclaimed sameUid oneEvent [toB true] ∧
      (serveAll sameUid oneEvent [toB true] .cal).Unique := by
  have hfree : AllUnclaimed sameUid oneEvent [toB true] := by
    refine ⟨fun _ _ _ _ _ _ hobject _ _ _ _ x hx _ _ _ => ⟨rfl, ?_⟩, trivial⟩
    exact (List.mem_singleton.1 hx).trans (List.mem_singleton.1 (of_object hobject).1).symm
  exact ⟨hfree,
    unique_serveAll (d := oneEvent) (fun _ => List.pairwise_singleton Apart _) hfree .cal⟩

theorem not_unique_copied : ¬ (serveAll sameUid oneEvent [toB false] .cal).Unique := by
  unfold Shelf.Unique
  decide

end IrixMail.Dav

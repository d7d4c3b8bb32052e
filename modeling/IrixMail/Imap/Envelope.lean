import IrixMail.Core.Text
import IrixMail.Library.Parens

/-!
# ENVELOPE

The envelope of a message as a parenthesised list. The values come from the mail
parser, which decodes them: any character can be in them. What the list is meant
to say is a `Node`, and the text of the source spells it.
-/

namespace IrixMail.Imap
open Library.Parens List

structure Addr where
  name : Option String
  address : Option String
  deriving DecidableEq

/-- The headers that an envelope is made of, decoded. A group of addresses is
the list of its members. -/
structure Headers where
  date : Option String := none
  subject : Option String := none
  fromAddress : Option (List Addr) := none
  sender : Option (List Addr) := none
  replyTo : Option (List Addr) := none
  toAddress : Option (List Addr) := none
  cc : Option (List Addr) := none
  bcc : Option (List Addr) := none
  inReplyTo : Option String := none
  messageId : Option String := none
  deriving DecidableEq

def replace (c : Char) (replacement : String) (s : String) : String :=
  String.ofList (s.toList.flatMap fun x => if x = c then replacement.toList else [x])

/-- `join(" ")`, and a format with a space between its arguments. -/
def spaced : List String → String
  | [] => ""
  | [s] => s
  | s :: t :: rest => s ++ " " ++ spaced (t :: rest)

def qstring (value : String) : String :=
  "\"" ++ replace '"' "\\\"" (replace '\\' "\\\\" value) ++ "\""

def nstring : Option String → String
  | some value => qstring value
  | none => "NIL"

def bracketId (id : String) : String :=
  let trimmed := trim id
  if trimmed.toList.head? = some '<' then trimmed else "<" ++ trimmed ++ ">"

def formatAddress (addr : Addr) : String :=
  let name := nstring addr.name
  let (mailbox, host) :=
    match addr.address with
    | some value =>
      match rsplitOnce '@' value with
      | some (mailbox, host) => (nstring (some mailbox), nstring (some host))
      | none => (nstring (some value), "NIL")
    | none => ("NIL", "NIL")
  "(" ++ spaced [name, "NIL", mailbox, host] ++ ")"

def addressList : Option (List Addr) → String
  | none => "NIL"
  | some address =>
    let entries := String.join (address.map formatAddress)
    if entries = "" then "NIL" else "(" ++ entries ++ ")"

def envelopeBody (message : Headers) : String :=
  let sender := if message.sender.isSome then message.sender else message.fromAddress
  let replyTo := if message.replyTo.isSome then message.replyTo else message.fromAddress
  "(" ++ spaced [nstring message.date, nstring message.subject, addressList message.fromAddress,
    addressList sender, addressList replyTo, addressList message.toAddress, addressList message.cc,
    addressList message.bcc, nstring (message.inReplyTo.map bracketId),
    nstring (message.messageId.map bracketId)] ++ ")"

/-! ## What it says -/

def nilNode : Node := .word "NIL".toList

def nstringNode : Option String → Node
  | some value => .quoted value.toList
  | none => nilNode

def Addr.parts (addr : Addr) : Option String × Option String :=
  match addr.address with
  | some value =>
    match rsplitOnce '@' value with
    | some (mailbox, host) => (some mailbox, some host)
    | none => (some value, none)
  | none => (none, none)

def addressNode (addr : Addr) : Node :=
  .list [nstringNode addr.name, nilNode, nstringNode addr.parts.1, nstringNode addr.parts.2]

def addressListNode : Option (List Addr) → Node
  | none => nilNode
  | some [] => nilNode
  | some address => .list (address.map addressNode)

def envelopeNode (message : Headers) : Node :=
  .list [nstringNode message.date, nstringNode message.subject, addressListNode message.fromAddress,
    addressListNode (message.sender.or message.fromAddress),
    addressListNode (message.replyTo.or message.fromAddress), addressListNode message.toAddress,
    addressListNode message.cc, addressListNode message.bcc,
    nstringNode (message.inReplyTo.map bracketId), nstringNode (message.messageId.map bracketId)]

/-! ## The text spells it -/

abbrev Writes (text : String) (items : List Node) : Prop := Spells text.toList items

theorem toList_qstring (value : String) :
    (qstring value).toList = '"' :: (escape value.toList ++ ['"']) := by
  have hone (c : Char) : (if c = '\\' then "\\\\".toList else [c]).flatMap
      (fun x => if x = '"' then "\\\"".toList else [x]) =
      if c = '"' ∨ c = '\\' then ['\\', c] else [c] := by
    by_cases hslash : c = '\\'
    · subst hslash
      decide
    · by_cases hquote : c = '"'
      · subst hquote
        decide
      · simp [hslash, hquote]
  simp only [qstring, replace, String.toList_append, String.toList_ofList, flatMap_assoc, hone]
  rfl

theorem writes_qstring (value : String) : Writes (qstring value) [.quoted value.toList] := by
  unfold Writes
  rw [toList_qstring]
  exact .one_quoted _

theorem writes_nil : Writes "NIL" [nilNode] :=
  .one_word (by decide) (all_eq_true.1 (by decide))

theorem writes_nstring (value : Option String) : Writes (nstring value) [nstringNode value] := by
  cases value with
  | none => exact writes_nil
  | some value => exact writes_qstring value

theorem toList_paren (text : String) :
    ("(" ++ text ++ ")").toList = '(' :: (text.toList ++ [')']) := by
  rw [String.toList_append, String.toList_append]
  rfl

theorem toList_space (s t : String) : (s ++ " " ++ t).toList = s.toList ++ ' ' :: t.toList := by
  rw [String.toList_append, String.toList_append, append_assoc]
  rfl

theorem Writes.paren {text : String} {items : List Node} (h : Writes text items) :
    Writes ("(" ++ text ++ ")") [.list items] := by
  unfold Writes
  rw [toList_paren]
  exact .one_list h

variable {s t : String} {xs ys : List Node} {ts : List String}

theorem Writes.space (hs : Writes s xs) (ht : Writes t ys) :
    Writes (s ++ " " ++ t) (xs ++ ys) := by
  unfold Writes
  rw [toList_space]
  exact hs.append (.space ht) (delimited_cons rfl _)

theorem writes_spaced (h : List.Forall₂ (fun t x => Writes t [x]) ts xs) : Writes
    (spaced ts) xs := by
  induction h with
  | nil => exact .nil
  | @cons t x ts xs ht hts ih =>
    cases hts with
    | nil => exact ht
    | cons _ _ => exact Writes.space ht ih

theorem writes_spaced_map {α : Type} (text : α → String) (nodes : α → List Node)
    (h : ∀ x, Writes (text x) (nodes x)) (xs : List α) :
    Writes (spaced (xs.map text)) (xs.flatMap nodes) := by
  induction xs with
  | nil => exact .nil
  | cons x xs ih =>
    cases xs with
    | nil =>
      rw [flatMap_cons, flatMap_nil, append_nil]
      exact h x
    | cons y ys => exact Writes.space (h x) ih

theorem Writes.optional (hs : Writes s xs) (ht : Writes t ys)
    (b : Bool) : Writes (s ++ if b then " " ++ t else "") (xs ++ if b then ys else []) := by
  cases b with
  | true =>
    rw [if_pos rfl, ← String.append_assoc]
    exact hs.space ht
  | false =>
    rw [if_neg (by simp), if_neg (by simp), String.append_empty, append_nil]
    exact hs

theorem writes_formatAddress (addr : Addr) : Writes (formatAddress addr) [addressNode addr] := by
  have hparts : formatAddress addr = "(" ++ spaced [nstring addr.name, "NIL", nstring addr.parts.1,
      nstring addr.parts.2] ++ ")" := by
    unfold formatAddress Addr.parts
    cases addr.address with
    | none => rfl
    | some value =>
      dsimp only
      cases rsplitOnce '@' value <;> rfl
  rw [hparts]
  refine Writes.paren (writes_spaced ?_)
  exact .cons (writes_nstring _) (.cons writes_nil (.cons (writes_nstring _)
    (.cons (writes_nstring _) .nil)))

theorem delimited_join (h : ∀ t ∈ ts, Delimited t.toList) :
    Delimited (String.join ts).toList := by
  induction ts with
  | nil => exact delimited_nil
  | cons t ts ih =>
    rw [String.join_cons, String.toList_append]
    exact (h t mem_cons_self).append (ih fun u hu => h u (mem_cons_of_mem _ hu))

theorem writes_join {α : Type} (text : α → String) (node : α → Node) (xs : List α)
    (h : ∀ x ∈ xs, Writes (text x) [node x] ∧ Delimited (text x).toList) :
    Writes (String.join (xs.map text)) (xs.map node) := by
  induction xs with
  | nil => exact .nil
  | cons x xs ih =>
    have hrest := ih fun y hy => h y (mem_cons_of_mem _ hy)
    have hdelim : Delimited (String.join (xs.map text)).toList := by
      refine delimited_join fun t ht => ?_
      obtain ⟨y, hy, rfl⟩ := mem_map.1 ht
      exact (h y (mem_cons_of_mem _ hy)).2
    unfold Writes
    rw [map_cons, String.join_cons, String.toList_append]
    exact (h x mem_cons_self).1.append hrest hdelim

theorem delimited_paren (text : String) : Delimited ("(" ++ text).toList := by
  rw [String.toList_append]
  exact delimited_cons rfl _

theorem delimited_formatAddress (addr : Addr) : Delimited (formatAddress addr).toList := by
  unfold formatAddress
  dsimp only
  rw [String.append_assoc]
  exact delimited_paren _

theorem writes_addressList (address : Option (List Addr)) :
    Writes (addressList address) [addressListNode address] := by
  cases address with
  | none => exact writes_nil
  | some address =>
    cases address with
    | nil => exact writes_nil
    | cons addr rest =>
      have hentries := writes_join formatAddress addressNode (addr :: rest)
        fun x _ => ⟨writes_formatAddress x, delimited_formatAddress x⟩
      change Writes (if String.join ((addr :: rest).map formatAddress) = "" then "NIL"
        else "(" ++ String.join ((addr :: rest).map formatAddress) ++ ")") _
      rw [if_neg]
      · exact hentries.paren
      · intro hempty
        rw [hempty] at hentries
        cases hentries

theorem writes_envelopeBody (message : Headers) :
    Writes (envelopeBody message) [envelopeNode message] := by
  have hor (x y : Option (List Addr)) : (if x.isSome then x else y) = x.or y := by cases x <;> rfl
  unfold envelopeBody
  simp only [hor]
  refine Writes.paren (writes_spaced ?_)
  refine .cons (writes_nstring _) (.cons (writes_nstring _) ?_)
  refine .cons (writes_addressList _) (.cons (writes_addressList _) (.cons (writes_addressList _) ?_))
  refine .cons (writes_addressList _) (.cons (writes_addressList _) (.cons (writes_addressList _) ?_))
  exact .cons (writes_nstring _) (.cons (writes_nstring _) .nil)

/-! ## The characters that it shows -/

/-- Neither a line break nor a NUL. -/
def IsPlain (c : Char) : Prop := c ≠ '\r' ∧ c ≠ '\n' ∧ c ≠ '\x00'

instance (c : Char) : Decidable (IsPlain c) := inferInstanceAs (Decidable (_ ∧ _ ∧ _))

def Plain (text : List Char) : Prop := ∀ c ∈ text, IsPlain c

instance (text : List Char) : Decidable (Plain text) := List.decidableBAll IsPlain text

def Addr.values (addr : Addr) : List String := addr.name.toList ++ addr.address.toList

def Headers.values (message : Headers) : List String :=
  message.date.toList ++ message.subject.toList ++
  (message.fromAddress.toList ++ message.sender.toList ++ message.replyTo.toList ++
    message.toAddress.toList ++ message.cc.toList ++ message.bcc.toList).flatten.flatMap Addr.values ++
  (message.inReplyTo.map trim).toList ++ (message.messageId.map trim).toList

def AllPlain (values : List String) : Prop := ∀ s ∈ values, Plain s.toList

instance (values : List String) : Decidable (AllPlain values) :=
  inferInstanceAs (Decidable (∀ s ∈ values, _))

def ShowsPlain (items : List Node) : Prop := ∀ v ∈ textsOf items, Plain v

theorem showsPlain_cons (x : Node) (xs : List Node) :
    ShowsPlain (x :: xs) ↔ ShowsPlain [x] ∧ ShowsPlain xs := by
  simp only [ShowsPlain, textsOf, append_nil, forall_mem_append]

theorem showsPlain_list (xs : List Node) : ShowsPlain [.list xs] ↔ ShowsPlain xs := by
  simp [ShowsPlain, textsOf, Node.texts]

theorem showsPlain_nil : ShowsPlain [nilNode] := by
  intro v hv
  obtain rfl : v = "NIL".toList := by simpa [textsOf, Node.texts, nilNode] using hv
  decide

theorem showsPlain_nstring (value : Option String) :
    ShowsPlain [nstringNode value] ↔ AllPlain value.toList := by
  cases value with
  | none => simp [showsPlain_nil, nstringNode, AllPlain]
  | some value => simp [ShowsPlain, nstringNode, textsOf, Node.texts, AllPlain]

theorem allPlain_append (xs ys : List String) : AllPlain (xs ++ ys) ↔ AllPlain xs ∧ AllPlain ys :=
  forall_mem_append

theorem plain_append (s t : List Char) : Plain (s ++ t) ↔ Plain s ∧ Plain t :=
  forall_mem_append

theorem plain_cons {c : Char} (hc : IsPlain c) (s : List Char) : Plain (c :: s) ↔ Plain s :=
  forall_mem_cons.trans (and_iff_right hc)

theorem allPlain_parts (addr : Addr) :
    AllPlain addr.parts.1.toList ∧ AllPlain addr.parts.2.toList ↔ AllPlain addr.address.toList := by
  unfold Addr.parts
  cases addr.address with
  | none => simp
  | some value =>
    dsimp only
    cases hsplit : rsplitOnce '@' value with
    | none => simp [AllPlain]
    | some parts =>
      have hvalue := toList_of_rsplitOnce hsplit
      simp [AllPlain, hvalue, plain_append, plain_cons (by decide : IsPlain '@')]

theorem showsPlain_address (addr : Addr) : ShowsPlain
    [addressNode addr] ↔ AllPlain addr.values := by
  unfold addressNode Addr.values
  rw [showsPlain_list]
  simp only [showsPlain_cons _ (_ :: _), showsPlain_nstring, showsPlain_nil, true_and, allPlain_append]
  rw [allPlain_parts]

theorem showsPlain_addresses (address : List Addr) :
    ShowsPlain (address.map addressNode) ↔ AllPlain (address.flatMap Addr.values) := by
  induction address with
  | nil => simp [ShowsPlain, textsOf, AllPlain]
  | cons addr rest ih =>
    rw [map_cons, showsPlain_cons, showsPlain_address, ih, flatMap_cons, allPlain_append]

theorem showsPlain_addressList (address : Option (List Addr)) :
    ShowsPlain [addressListNode address] ↔ AllPlain (address.toList.flatten.flatMap Addr.values) := by
  cases address with
  | none => simp [addressListNode, showsPlain_nil, AllPlain]
  | some address =>
    cases address with
    | nil => simp [addressListNode, showsPlain_nil, AllPlain]
    | cons addr rest =>
      have h := showsPlain_addresses (addr :: rest)
      change ShowsPlain [.list ((addr :: rest).map addressNode)] ↔ _
      rw [showsPlain_list, h]
      simp

theorem plain_bracketId (id : String) : Plain (bracketId id).toList ↔ Plain (trim id).toList := by
  unfold bracketId
  dsimp only
  split
  · rfl
  · have hopen : Plain "<".toList := by decide
    have hclose : Plain ">".toList := by decide
    rw [String.toList_append, String.toList_append, plain_append, plain_append]
    exact ⟨fun h => h.1.2, fun h => ⟨⟨hopen, h⟩, hclose⟩⟩

theorem allPlain_bracketId (id : Option String) :
    AllPlain (id.map bracketId).toList ↔ AllPlain (id.map trim).toList := by
  cases id with
  | none => simp only [Option.map_none]
  | some id =>
    simp only [AllPlain, Option.map_some, Option.toList_some, mem_singleton, forall_eq]
    exact plain_bracketId id

theorem allPlain_or (x y : Option (List Addr)) :
    AllPlain (y.toList.flatten.flatMap Addr.values) →
      (AllPlain ((x.or y).toList.flatten.flatMap Addr.values) ↔
        AllPlain (x.toList.flatten.flatMap Addr.values)) := by
  cases x with
  | none => simp [AllPlain]
  | some x => simp

theorem showsPlain_envelope (message : Headers) :
    ShowsPlain [envelopeNode message] ↔ AllPlain message.values := by
  unfold envelopeNode Headers.values
  rw [showsPlain_list]
  simp only [showsPlain_cons _ (_ :: _), showsPlain_nstring, showsPlain_addressList,
    allPlain_bracketId, flatten_append, flatMap_append, allPlain_append]
  constructor
  · rintro ⟨hdate, hsubject, hfrom, hsender, hreply, hto, hcc, hbcc, hin, hid⟩
    rw [allPlain_or _ _ hfrom] at hsender hreply
    exact ⟨⟨⟨⟨hdate, hsubject⟩, ⟨⟨⟨⟨hfrom, hsender⟩, hreply⟩, hto⟩, hcc⟩, hbcc⟩, hin⟩, hid⟩
  · rintro ⟨⟨⟨⟨hdate, hsubject⟩, ⟨⟨⟨⟨hfrom, hsender⟩, hreply⟩, hto⟩, hcc⟩, hbcc⟩, hin⟩, hid⟩
    rw [← allPlain_or _ _ hfrom] at hsender hreply
    exact ⟨hdate, hsubject, hfrom, hsender, hreply, hto, hcc, hbcc, hin, hid⟩

end IrixMail.Imap

import IrixMail.Jmap.Reply
import IrixMail.Store.Search

/-!
# Email/query

A filter is evaluated on sets of message ids: the universe is the account's
cache, a complement is taken in it, and the full-text part of a condition is
searched among the messages that meet its other parts. What the filter and the
order mean is said of the arguments as they are written, message by message.
-/

namespace IrixMail.Jmap
open Store Mail MessageStoreCache

structure EmailFilter where
  unmatchable : Bool := false
  inMailbox : Option ℕ := none
  fts : List Fts.Query := []
  hasKeywords : List Keyword := []
  notKeywords : List Keyword := []
  before : Option ℕ := none
  after : Option ℕ := none
  minSize : Option ℕ := none
  maxSize : Option ℕ := none

def EmailFilter.matches (f : EmailFilter) (entry : MessageCacheEntry) : Bool :=
  !f.unmatchable && f.inMailbox.all (entry.inMailbox ·) &&
    f.hasKeywords.all (entry.hasKeyword ·) && !f.notKeywords.any (entry.hasKeyword ·) &&
    f.before.all (entry.receivedAt < ·) && f.after.all (· ≤ entry.receivedAt) &&
    f.minSize.all (· ≤ entry.size) && f.maxSize.all (entry.size < ·)

namespace EmailFilter

def addTerm (f : EmailFilter) (field : Field) (value : Value) : Option EmailFilter :=
  value.asStr.map fun word => { f with fts := f.fts ++ [.term field word] }

def textField : String → Option Field
  | "text" => some .combined
  | "subject" => some .subject
  | "body" => some .body
  | "from" => some .fromAddr
  | "to" => some .toAddr
  | "cc" => some .cc
  | "bcc" => some .bcc
  | _ => none

def addHas (f : EmailFilter) (keyword : Keyword) : EmailFilter :=
  { f with hasKeywords := f.hasKeywords ++ [keyword] }

def addNot (f : EmailFilter) (keyword : Keyword) : EmailFilter :=
  { f with notKeywords := f.notKeywords ++ [keyword] }

/-- One round of the loop of `parse_condition`. -/
def addProperty (parseDate : String → Option ℕ) (f : EmailFilter) (key : String) (value : Value) :
    Option EmailFilter :=
  match key with
  | "inMailbox" => some <|
    match value.asStr.bind parseU32 with
    | some id => { f with inMailbox := some id }
    | none => { f with unmatchable := true }
  | "hasKeyword" => value.asStr.map fun name => f.addHas (keywordFromJmap name)
  | "notKeyword" => value.asStr.map fun name => f.addNot (keywordFromJmap name)
  | "hasAttachment" => value.asBool.map fun has =>
    if has then f.addHas .hasAttachment else f.addNot .hasAttachment
  | "before" => (value.asStr.bind parseDate).map fun date => { f with before := some date }
  | "after" => (value.asStr.bind parseDate).map fun date => { f with after := some date }
  | "minSize" => value.asU64.map fun size => { f with minSize := some size }
  | "maxSize" => value.asU64.map fun size => { f with maxSize := some size }
  | _ => (textField key).bind fun field => f.addTerm field value

def addProperties (parseDate : String → Option ℕ) : EmailFilter → Fields → Option EmailFilter
  | f, [] => some f
  | f, (key, value) :: rest =>
    (f.addProperty parseDate key value).bind (addProperties parseDate · rest)

end EmailFilter

inductive FilterNode
  | and (nodes : List FilterNode)
  | or (nodes : List FilterNode)
  | not (nodes : List FilterNode)
  | leaf (filter : EmailFilter)

def FilterNode.ofOperator (operator : Value) (nodes : List FilterNode) : Option FilterNode :=
  match operator.asStr with
  | some "AND" => some (.and nodes)
  | some "OR" => some (.or nodes)
  | some "NOT" => some (.not nodes)
  | _ => none

/-- The fields of an object in turn; of several with one name a map has the first. -/
def Fields.entries : Fields → Fields
  | [] => []
  | (key, value) :: rest => (key, value) :: (Fields.entries rest).filter (·.1 ≠ key)

section Parse
variable (parseDate : String → Option ℕ)

def parseCondition (fields : Fields) : Option EmailFilter :=
  ({} : EmailFilter).addProperties parseDate fields.entries

mutual
def parseNode : Value → Option FilterNode
  | .object fields =>
    match fields.lookup "operator" with
    | some operator => (parseConditions fields).bind (FilterNode.ofOperator operator)
    | none => (parseCondition parseDate fields).map .leaf
  | _ => none
/-- The nodes of the field `conditions`. -/
def parseConditions : Fields → Option (List FilterNode)
  | [] => none
  | (key, value) :: rest => if key = "conditions" then parseArray value else parseConditions rest
def parseArray : Value → Option (List FilterNode)
  | .array items => parseNodes items
  | _ => none
def parseNodes : List Value → Option (List FilterNode)
  | [] => some []
  | item :: items => (parseNode item).bind fun node => (parseNodes items).map (node :: ·)
end

/-- A field that is there and not null. -/
def argument (args : Value) (key : String) : Option Value :=
  (args.get key).filter fun | .null => false | _ => true

def parseFilter (args : Value) : Option (Option FilterNode) :=
  match argument args "filter" with
  | none => some none
  | some value => (parseNode parseDate value).map some

end Parse

section
variable (u : Unicode) (s : Records) (a : ℕ) (entries : CacheEntries)

def evalLeaf (filter : EmailFilter) : Finset ℕ :=
  let ids := entries.keys.filter fun d => (entries.lookup d).any filter.matches
  if filter.fts.isEmpty then ids
  else (Fts.search u s a .email (.and filter.fts) (ids.sort (· ≤ ·))).toFinset

mutual
def evalNode : FilterNode → Finset ℕ
  | .and nodes => evalAnd entries.keys nodes
  | .or nodes => evalOr ∅ nodes
  | .not nodes => entries.keys \ evalOr ∅ nodes
  | .leaf filter => evalLeaf u s a entries filter
def evalAnd (ids : Finset ℕ) : List FilterNode → Finset ℕ
  | [] => ids
  | node :: nodes => evalAnd (ids ∩ evalNode node) nodes
def evalOr (ids : Finset ℕ) : List FilterNode → Finset ℕ
  | [] => ids
  | node :: nodes => evalOr (ids ∪ evalNode node) nodes
end

end

inductive SortProperty
  | receivedAt
  | sentAt
  | size

def SortProperty.key (entry : MessageCacheEntry) : SortProperty → ℕ
  | receivedAt => entry.receivedAt
  | sentAt => entry.sentAt
  | size => entry.size

/-- A property and whether it is compared ascending. -/
abbrev Comparators := List (SortProperty × Bool)

def sortProperty : String → Option SortProperty
  | "receivedAt" => some .receivedAt
  | "sentAt" => some .sentAt
  | "size" => some .size
  | _ => none

def parseComparators : List Value → Option Comparators
  | [] => some []
  | comparator :: rest =>
    (((comparator.get "property").bind Value.asStr).bind sortProperty).bind fun property =>
      (parseComparators rest).map
        ((property, ((comparator.get "isAscending").bind Value.asBool).getD true) :: ·)

def parseSort (args : Value) : Option Comparators :=
  match argument args "sort" with
  | none => some []
  | some sort => sort.asArray.bind parseComparators

section
variable (entries : CacheEntries)

def compareKey (c : SortProperty × Bool) (x y : ℕ) : Ordering :=
  let key (d : ℕ) := (entries.lookup d).map (c.1.key ·)
  if c.2 then compare (key x) (key y) else (compare (key x) (key y)).swap

/-- The closure of `sort_ids`: an absent message comes before every other. -/
def compareIds : Comparators → ℕ → ℕ → Ordering
  | [], x, y => compare y x
  | c :: cs, x, y => (compareKey entries c x y).then (compareIds cs x y)

def sortIds (ids : Finset ℕ) (comparators : Comparators) : List ℕ :=
  (ids.sort (· ≤ ·)).mergeSort fun x y => (compareIds entries comparators x y).isLE

end

def queryIds (u : Unicode) (parseDate : String → Option ℕ) (s : Records) (a : ℕ) (args : Value) :
    Except String (List ℕ) :=
  match parseFilter parseDate args with
  | none => .error "unsupportedFilter"
  | some filter =>
    match parseSort args with
    | none => .error "unsupportedSort"
    | some comparators =>
      let entries := (builtFrom s a).entries
      .ok (sortIds entries (filter.elim entries.keys (evalNode u s a entries)) comparators)

/-! ## What a filter means -/

section Meaning
variable (u : Unicode) (parseDate : String → Option ℕ) (s : Records) (a d : ℕ)
  (entry : MessageCacheEntry)

def textProperties : List (String × Field) :=
  [("text", .combined), ("subject", .subject), ("body", .body), ("from", .fromAddr),
    ("to", .toAddr), ("cc", .cc), ("bcc", .bcc)]

/-- The index has the word for the message. -/
def HasWord (field : Field) (word : String) : Prop := d ∈ Fts.postingList s a .email field word

/-- The message `d`, whose cache entry is `entry`, has the property. -/
def PropertyHolds (key : String) (value : Value) : Prop :=
  (key = "inMailbox" → ∃ m ∈ entry.mailboxes, some m.mailboxId = value.asStr.bind parseU32) ∧
  (∀ field, (key, field) ∈ textProperties → ∀ word ∈ value.asStr,
    Fts.Holds u (HasWord s a d) (.term field word)) ∧
  (key = "hasKeyword" → ∀ name ∈ value.asStr, keywordFromJmap name ∈ entry.keywords) ∧
  (key = "notKeyword" → ∀ name ∈ value.asStr, keywordFromJmap name ∉ entry.keywords) ∧
  (key = "hasAttachment" → (value.asBool = some true ↔ .hasAttachment ∈ entry.keywords)) ∧
  (key = "before" → ∀ date ∈ value.asStr.bind parseDate, entry.receivedAt < date) ∧
  (key = "after" → ∀ date ∈ value.asStr.bind parseDate, date ≤ entry.receivedAt) ∧
  (key = "minSize" → ∀ size ∈ value.asU64, size ≤ entry.size) ∧
  (key = "maxSize" → ∀ size ∈ value.asU64, entry.size < size)

def conditionsOf (fields : Fields) : List Value :=
  ((fields.lookup "conditions").bind Value.asArray).getD []

theorem sizeOf_lookup {fields : Fields} {key : String} {value : Value}
    (h : fields.lookup key = some value) : sizeOf value < sizeOf fields := by
  induction fields with
  | nil => cases h
  | cons field rest ih =>
    obtain ⟨name, first⟩ := field
    rw [Fields.lookup_cons] at h
    split at h
    · cases h
      simp
      omega
    · have := ih h
      simp
      omega

theorem sizeOf_conditionsOf (fields : Fields) :
    sizeOf (conditionsOf fields) < sizeOf (Value.object fields) := by
  unfold conditionsOf
  cases hlookup : fields.lookup "conditions" with
  | none => cases fields <;> simp
  | some value =>
    have hvalue := sizeOf_lookup hlookup
    cases value with
    | array items =>
      simp only [Value.array.sizeOf_spec, Value.object.sizeOf_spec, Option.bind_some,
        Value.asArray, Option.getD_some] at hvalue ⊢
      omega
    | _ => cases fields <;> simp [Value.asArray]

/-- The filter holds of the message: all the conditions of an AND, one of those of an OR, none
of those of a NOT, and every property of a condition. -/
def Meets : Value → Prop
  | .object fields =>
    match fields.lookup "operator" with
    | some operator =>
      (operator.asStr = some "AND" → ∀ v, v ∈ conditionsOf fields → Meets v) ∧
      (operator.asStr = some "OR" → ∃ v, ∃ _ : v ∈ conditionsOf fields, Meets v) ∧
      (operator.asStr = some "NOT" → ∀ v, v ∈ conditionsOf fields → ¬ Meets v)
    | none => ∀ key value, fields.lookup key = some value →
      PropertyHolds u parseDate s a d entry key value
  | _ => False
termination_by value => sizeOf value
decreasing_by
  all_goals exact (List.sizeOf_lt_of_mem ‹_›).trans (sizeOf_conditionsOf fields)

/-- The property has a value of its type. -/
def PropertyTyped (key : String) (value : Value) : Prop :=
  key = "inMailbox" ∨
  ((∃ field, (key, field) ∈ textProperties) ∨ key ∈ ["hasKeyword", "notKeyword"]) ∧
    value.asStr.isSome ∨
  key = "hasAttachment" ∧ value.asBool.isSome ∨
  key ∈ ["before", "after"] ∧ (value.asStr.bind parseDate).isSome ∨
  key ∈ ["minSize", "maxSize"] ∧ value.asU64.isSome

/-- The value is a filter: an operator with a list of filters, or a condition. -/
def IsFilter : Value → Prop
  | .object fields =>
    match fields.lookup "operator" with
    | some operator =>
      (∃ name ∈ ["AND", "OR", "NOT"], operator.asStr = some name) ∧
      ((fields.lookup "conditions").bind Value.asArray).isSome ∧
      ∀ v, v ∈ conditionsOf fields → IsFilter v
    | none => ∀ key value, fields.lookup key = some value → PropertyTyped parseDate key value
  | _ => False
termination_by value => sizeOf value
decreasing_by exact (List.sizeOf_lt_of_mem ‹_›).trans (sizeOf_conditionsOf fields)

/-! ## What an order means -/

def sortKey (property : String) (entry : MessageCacheEntry) : ℕ :=
  if property = "receivedAt" then entry.receivedAt
  else if property = "sentAt" then entry.sentAt
  else entry.size

/-- The properties to compare by, and whether they ascend. -/
def comparatorsOf (items : List Value) : List (String × Bool) :=
  items.map fun item => (((item.get "property").bind Value.asStr).getD "",
    ((item.get "isAscending").bind Value.asBool).getD true)

def sortOf (args : Value) : List (String × Bool) :=
  comparatorsOf (((argument args "sort").bind Value.asArray).getD [])

/-- The value is a list of comparators. -/
def IsSort (value : Value) : Prop :=
  ∃ items, value = .array items ∧ ∀ item ∈ items,
    ∃ name ∈ ["receivedAt", "sentAt", "size"], (item.get "property").bind Value.asStr = some name

/-- The message `x` comes before `y`: by the first property in which they differ, or else as
the later one. -/
def Precedes : List (String × Bool) → ℕ → ℕ → Prop
  | [], x, y => y < x
  | (property, ascending) :: rest, x, y =>
    let key (d : ℕ) := (currentEntry s a d).map (sortKey property)
    (if ascending then key x < key y else key y < key x) ∨ key x = key y ∧ Precedes rest x y

end Meaning

/-! ## Conditions -/

section Conditions
variable {u : Unicode} {parseDate : String → Option ℕ} {s : Records} {a d : ℕ}
  {entry : MessageCacheEntry} {f f' : EmailFilter} {fields : Fields} {key : String} {value : Value}

theorem Fields.mem_entries : (key, value) ∈ fields.entries ↔ fields.lookup key = some value := by
  induction fields with
  | nil => simp [Fields.entries]
  | cons field rest ih =>
    obtain ⟨name, first⟩ := field
    rw [Fields.lookup_cons, Fields.entries, List.mem_cons, List.mem_filter, ih]
    by_cases h : key = name
    · simp [h, eq_comm]
    · simp [h]

theorem Fields.nodup_entries (fields : Fields) : (fields.entries.map Prod.fst).Nodup := by
  induction fields with
  | nil => simp [Fields.entries]
  | cons field rest ih =>
    obtain ⟨name, first⟩ := field
    rw [Fields.entries, List.map_cons, List.nodup_cons]
    refine ⟨by simp, ih.sublist (List.filter_sublist.map _)⟩

/-- The values that a later field of the same name would replace. -/
def EmailFilter.slot (f : EmailFilter) (key : String) : Option ℕ :=
  match key with
  | "inMailbox" => f.inMailbox
  | "before" => f.before
  | "after" => f.after
  | "minSize" => f.minSize
  | "maxSize" => f.maxSize
  | _ => none

def EmailFilter.Selects (u : Unicode) (s : Records) (a d : ℕ) (entry : MessageCacheEntry)
    (f : EmailFilter) : Prop :=
  f.matches entry = true ∧ Fts.AllHold u (HasWord s a d) f.fts

theorem allHold_concat {has : Field → String → Prop} {queries : List Fts.Query}
    {query : Fts.Query} : Fts.AllHold u has (queries ++ [query]) ↔
      Fts.AllHold u has queries ∧ Fts.Holds u has query := by
  induction queries with
  | nil => simp [Fts.AllHold]
  | cons first rest ih => rw [List.cons_append, Fts.AllHold, Fts.AllHold, ih, and_assoc]

namespace EmailFilter

theorem mem_textProperties {field : Field} :
    (key, field) ∈ textProperties ↔ textField key = some field := by
  unfold textField
  split
  case h_8 =>
    simp only [textProperties, List.mem_cons, Prod.mk.injEq, List.not_mem_nil, reduceCtorEq]
    tauto
  all_goals simp [textProperties, eq_comm]

theorem exists_addProperty (h : PropertyTyped parseDate key value) :
    ∃ f', f.addProperty parseDate key value = some f' := by
  rcases h with rfl | ⟨hkey, hvalue⟩ | ⟨rfl, hvalue⟩ | ⟨hkey, hvalue⟩ | ⟨hkey, hvalue⟩
  · exact ⟨_, rfl⟩
  · obtain ⟨text, htext⟩ := Option.isSome_iff_exists.1 hvalue
    rcases hkey with ⟨field, hfield⟩ | hkey
    · simp only [textProperties, List.mem_cons, Prod.mk.injEq, List.not_mem_nil,
        or_false] at hfield
      rcases hfield with h | h | h | h | h | h | h <;> obtain ⟨rfl, rfl⟩ := h <;>
        simp [addProperty, textField, addTerm, htext]
    · simp only [List.mem_cons, List.not_mem_nil, or_false] at hkey
      rcases hkey with rfl | rfl <;> simp [addProperty, htext]
  · obtain ⟨b, hb⟩ := Option.isSome_iff_exists.1 hvalue
    simp [addProperty, hb]
  · obtain ⟨date, hdate⟩ := Option.isSome_iff_exists.1 hvalue
    simp only [List.mem_cons, List.not_mem_nil, or_false] at hkey
    rcases hkey with rfl | rfl <;> simp [addProperty, hdate]
  · obtain ⟨size, hsize⟩ := Option.isSome_iff_exists.1 hvalue
    simp only [List.mem_cons, List.not_mem_nil, or_false] at hkey
    rcases hkey with rfl | rfl <;> simp [addProperty, hsize]

theorem exists_addProperties (h : ∀ field ∈ fields, PropertyTyped parseDate field.1 field.2) :
    ∃ f', f.addProperties parseDate fields = some f' := by
  induction fields generalizing f with
  | nil => exact ⟨f, rfl⟩
  | cons field rest ih =>
    obtain ⟨hfirst, hrest⟩ := List.forall_mem_cons.1 h
    obtain ⟨g, hg⟩ := exists_addProperty hfirst
    obtain ⟨f', hf'⟩ := ih hrest
    exact ⟨f', by rw [addProperties, hg]; exact hf'⟩

theorem slot_addProperty {other : String} (h : f.addProperty parseDate key value = some f')
    (hne : other ≠ key) : f'.slot other = f.slot other := by
  unfold addProperty at h
  split at h
  case h_1 =>
    cases h
    split
    · unfold slot
      split <;> first | rfl | exact absurd rfl hne
    · rfl
  case h_9 =>
    obtain ⟨field, -, h⟩ := Option.bind_eq_some_iff.1 h
    obtain ⟨word, -, rfl⟩ := Option.map_eq_some_iff.1 h
    rfl
  all_goals
    obtain ⟨x, -, rfl⟩ := Option.map_eq_some_iff.1 h
    first
      | rfl
      | split <;> rfl
      | unfold slot; split <;> first | rfl | exact absurd rfl hne

theorem matches_addHas (keyword : Keyword) :
    (f.addHas keyword).matches entry = (f.matches entry && entry.hasKeyword keyword) := by
  simp only [EmailFilter.matches, addHas, List.all_append, List.all_cons, List.all_nil,
    Bool.and_true]
  ac_rfl

theorem matches_addNot (keyword : Keyword) :
    (f.addNot keyword).matches entry = (f.matches entry && !entry.hasKeyword keyword) := by
  simp only [EmailFilter.matches, addNot, List.any_append, List.any_cons, List.any_nil,
    Bool.or_false, Bool.not_or]
  ac_rfl

theorem selects_addHas (keyword : Keyword) : (f.addHas keyword).Selects u s a d entry ↔
    f.Selects u s a d entry ∧ keyword ∈ entry.keywords := by
  rw [Selects, matches_addHas, Bool.and_eq_true, and_right_comm]
  simp [Selects, addHas, MessageCacheEntry.hasKeyword]

theorem selects_addNot (keyword : Keyword) : (f.addNot keyword).Selects u s a d entry ↔
    f.Selects u s a d entry ∧ keyword ∉ entry.keywords := by
  rw [Selects, matches_addNot, Bool.and_eq_true, and_right_comm]
  simp [Selects, addNot, MessageCacheEntry.hasKeyword]

theorem selects_addWord (query : Fts.Query) :
    { f with fts := f.fts ++ [query] }.Selects u s a d entry ↔
      f.Selects u s a d entry ∧ Fts.Holds u (HasWord s a d) query := by
  rw [Selects, Selects, allHold_concat, and_assoc]
  rfl

theorem selects_addProperty (h : f.addProperty parseDate key value = some f')
    (hfree : f.slot key = none) : f'.Selects u s a d entry ↔
      f.Selects u s a d entry ∧ PropertyHolds u parseDate s a d entry key value := by
  -- a value that replaces an earlier one adds a condition because its slot was free
  unfold PropertyHolds
  simp only [mem_textProperties]
  unfold addProperty at h
  split at h
  case h_1 =>
    cases h
    cases hid : value.asStr.bind parseU32 with
    | none => simp [Selects, EmailFilter.matches]
    | some id =>
      have hnone : f.inMailbox = none := hfree
      simp [Selects, EmailFilter.matches, hnone, MessageCacheEntry.inMailbox, textField,
        and_assoc, and_comm, and_left_comm]
  case h_2 =>
    obtain ⟨name, hname, rfl⟩ := Option.map_eq_some_iff.1 h
    simp [selects_addHas, hname, textField]
  case h_3 =>
    obtain ⟨name, hname, rfl⟩ := Option.map_eq_some_iff.1 h
    simp [selects_addNot, hname, textField]
  case h_4 =>
    obtain ⟨has, hhas, rfl⟩ := Option.map_eq_some_iff.1 h
    cases has <;> simp [selects_addHas, selects_addNot, hhas, textField]
  case h_9 =>
    obtain ⟨field, hfield, h⟩ := Option.bind_eq_some_iff.1 h
    obtain ⟨word, hword, rfl⟩ := Option.map_eq_some_iff.1 h
    simp only [selects_addWord, hfield, hword, Option.some.injEq, forall_eq', Option.mem_some_iff]
    tauto
  all_goals
    obtain ⟨x, hx, rfl⟩ := Option.map_eq_some_iff.1 h
    have hnone : _ = none := hfree
    simp only [slot] at hnone
    simp [Selects, EmailFilter.matches, textField, hx, hnone, and_assoc, and_comm, and_left_comm]

theorem selects_addProperties (h : f.addProperties parseDate fields = some f')
    (hnodup : (fields.map Prod.fst).Nodup)
    (hfree : ∀ key ∈ fields.map Prod.fst, f.slot key = none) :
    f'.Selects u s a d entry ↔ f.Selects u s a d entry ∧
      ∀ field ∈ fields, PropertyHolds u parseDate s a d entry field.1 field.2 := by
  induction fields generalizing f with
  | nil =>
    cases h
    simp
  | cons field rest ih =>
    obtain ⟨key, value⟩ := field
    obtain ⟨g, hg, hrest⟩ := Option.bind_eq_some_iff.1 h
    obtain ⟨hnew, hnodup⟩ := List.nodup_cons.1 hnodup
    have hfree' : ∀ other ∈ rest.map Prod.fst, g.slot other = none := fun other hother =>
      (slot_addProperty hg fun heq => hnew (heq ▸ hother)).trans (hfree other (.tail _ hother))
    rw [ih hrest hnodup hfree', selects_addProperty hg (hfree key List.mem_cons_self),
      List.forall_mem_cons, and_assoc]

end EmailFilter

theorem selects_parseCondition (h : parseCondition parseDate fields = some f) :
    f.Selects u s a d entry ↔ ∀ key value, fields.lookup key = some value →
      PropertyHolds u parseDate s a d entry key value := by
  have hfree : ∀ key, ({} : EmailFilter).slot key = none := fun key => by
    unfold EmailFilter.slot
    split <;> rfl
  rw [EmailFilter.selects_addProperties h fields.nodup_entries fun key _ => hfree key]
  simp [EmailFilter.Selects, EmailFilter.matches, Fts.AllHold, Fields.mem_entries]

end Conditions

/-! ## Filters -/

section Filters
variable {u : Unicode} {parseDate : String → Option ℕ} {s : Records} {a d : ℕ}
  {entry : MessageCacheEntry} {entries : CacheEntries} {value : Value} {items : List Value}
  {fields : Fields} {nodes : List FilterNode}

/-- The message is in the cache and meets the filter. -/
def Found (u : Unicode) (parseDate : String → Option ℕ) (s : Records) (a : ℕ)
    (entries : CacheEntries) (d : ℕ) (value : Value) : Prop :=
  ∃ entry, entries.lookup d = some entry ∧ Meets u parseDate s a d entry value

theorem mem_keys_iff : d ∈ entries.keys ↔ ∃ entry, entries.lookup d = some entry := by
  rw [Finmap.mem_keys, ← Finmap.lookup_isSome, Option.isSome_iff_exists]

theorem mem_evalLeaf (f : EmailFilter) : d ∈ evalLeaf u s a entries f ↔
    ∃ entry, entries.lookup d = some entry ∧ f.Selects u s a d entry := by
  have hids : d ∈ entries.keys.filter (fun d => (entries.lookup d).any f.matches) ↔
      ∃ entry, entries.lookup d = some entry ∧ f.matches entry = true := by
    simp only [Finset.mem_filter, mem_keys_iff, Option.any_eq_true]
    refine and_iff_right_of_imp ?_
    rintro ⟨entry, hentry, -⟩
    exact ⟨entry, hentry⟩
  unfold evalLeaf EmailFilter.Selects
  split
  next h =>
    rw [hids, List.isEmpty_iff.1 h]
    simp [Fts.AllHold]
  next =>
    rw [List.mem_toFinset, Fts.mem_search fun _ _ => Iff.rfl, Finset.mem_sort, hids, Fts.Holds]
    simp only [← and_assoc, exists_and_right]
    rfl

theorem exists_parseNodes (h : ∀ v ∈ items, ∃ node, parseNode parseDate v = some node) :
    ∃ nodes, parseNodes parseDate items = some nodes := by
  induction items with
  | nil => exact ⟨[], by rw [parseNodes]⟩
  | cons item items ih =>
    obtain ⟨⟨node, hnode⟩, hrest⟩ := List.forall_mem_cons.1 h
    obtain ⟨nodes, hnodes⟩ := ih hrest
    exact ⟨node :: nodes, by rw [parseNodes, hnode, hnodes]; rfl⟩

theorem parseConditions_eq (fields : Fields) : parseConditions parseDate fields =
    ((fields.lookup "conditions").bind Value.asArray).bind (parseNodes parseDate) := by
  induction fields with
  | nil => rfl
  | cons field rest ih =>
    obtain ⟨key, value⟩ := field
    rw [parseConditions, Fields.lookup_cons, ih]
    by_cases heq : key = "conditions"
    · rw [if_pos heq, if_pos heq.symm]
      cases value <;> rfl
    · rw [if_neg heq, if_neg (Ne.symm heq)]

theorem parseNodes_conditionsOf (h : parseConditions parseDate fields = some nodes) :
    parseNodes parseDate (conditionsOf fields) = some nodes := by
  rw [parseConditions_eq] at h
  obtain ⟨items, hitems, hnodes⟩ := Option.bind_eq_some_iff.1 h
  rw [conditionsOf, hitems]
  exact hnodes

theorem exists_parseNode (h : IsFilter parseDate value) :
    ∃ node, parseNode parseDate value = some node := by
  induction hn : sizeOf value using Nat.strong_induction_on generalizing value with
  | _ n ih =>
    cases value with
    | object fields =>
      rw [IsFilter] at h
      rw [parseNode]
      split at h
      next operator hoperator =>
        obtain ⟨⟨name, hname, hop⟩, hsome, heach⟩ := h
        obtain ⟨items, hitems⟩ := Option.isSome_iff_exists.1 hsome
        obtain ⟨nodes, hnodes⟩ := exists_parseNodes fun v hv => ih (sizeOf v)
          (hn ▸ (List.sizeOf_lt_of_mem hv).trans (sizeOf_conditionsOf fields)) (heach v hv) rfl
        rw [conditionsOf, hitems] at hnodes
        rw [parseConditions_eq, hitems, Option.bind_some]
        simp only [Option.getD_some] at hnodes
        rw [hnodes]
        simp only [List.mem_cons, List.not_mem_nil, or_false] at hname
        rcases hname with rfl | rfl | rfl <;> simp [FilterNode.ofOperator, hop]
      next hnone =>
        have htyped : ∀ field ∈ Fields.entries fields, PropertyTyped parseDate field.1 field.2 :=
          fun field hfield => h field.1 field.2 (Fields.mem_entries.1 hfield)
        obtain ⟨f, hf⟩ := EmailFilter.exists_addProperties (f := {}) htyped
        exact ⟨.leaf f, by rw [parseCondition, hf]; rfl⟩
    | _ => simp [IsFilter] at h

theorem mem_evalNodes (h : parseNodes parseDate items = some nodes)
    (heach : ∀ v ∈ items, ∀ node, parseNode parseDate v = some node →
      (d ∈ evalNode u s a entries node ↔ Found u parseDate s a entries d v)) (ids : Finset ℕ) :
    (d ∈ evalAnd u s a entries ids nodes ↔
      d ∈ ids ∧ ∀ v ∈ items, Found u parseDate s a entries d v) ∧
    (d ∈ evalOr u s a entries ids nodes ↔
      d ∈ ids ∨ ∃ v ∈ items, Found u parseDate s a entries d v) := by
  induction items generalizing nodes ids with
  | nil =>
    rw [parseNodes] at h
    cases h
    simp [evalAnd, evalOr]
  | cons item items ih =>
    rw [parseNodes] at h
    obtain ⟨node, hnode, h⟩ := Option.bind_eq_some_iff.1 h
    obtain ⟨rest, hrest, rfl⟩ := Option.map_eq_some_iff.1 h
    obtain ⟨hfirst, heach⟩ := List.forall_mem_cons.1 heach
    rw [evalAnd, evalOr, (ih hrest heach _).1, (ih hrest heach _).2, Finset.mem_inter,
      Finset.mem_union, hfirst node hnode]
    simp [and_assoc, or_assoc]

theorem mem_evalNode {node : FilterNode} (h : parseNode parseDate value = some node) :
    d ∈ evalNode u s a entries node ↔ Found u parseDate s a entries d value := by
  induction hn : sizeOf value using Nat.strong_induction_on generalizing value node with
  | _ n ih =>
    cases value with
    | object fields =>
      rw [parseNode] at h
      unfold Found
      simp only [Meets]
      split at h
      next operator hoperator =>
        obtain ⟨nodes, hnodes, hnode⟩ := Option.bind_eq_some_iff.1 h
        have heach := mem_evalNodes (parseNodes_conditionsOf hnodes) fun v hv node hnode =>
          ih (sizeOf v) (hn ▸ (List.sizeOf_lt_of_mem hv).trans (sizeOf_conditionsOf fields))
            hnode rfl
        -- an AND and a NOT are taken in the cache, an OR has only what a condition found
        have hkeys : d ∈ entries.keys ↔ _ := mem_keys_iff
        unfold FilterNode.ofOperator at hnode
        split at hnode <;> cases hnode
        all_goals
          next hop =>
          rw [evalNode]
          cases hentry : entries.lookup d <;> simp_all [Found]
      next =>
        obtain ⟨f, hf, rfl⟩ := Option.map_eq_some_iff.1 h
        rw [evalNode, mem_evalLeaf]
        simp only [selects_parseCondition hf]
    | _ => simp [parseNode] at h

end Filters

/-! ## The order -/

section
variable (entries : CacheEntries)

theorem transCmp_compareKey (c : SortProperty × Bool) : Std.TransCmp (compareKey entries c) := by
  obtain ⟨p, ascending⟩ := c
  let key (d : ℕ) := (entries.lookup d).map (p.key ·)
  cases ascending
  · have hswap : compareKey entries (p, false) = fun x y => compareOn key y x :=
      funext₂ fun x y => Std.OrientedCmp.eq_swap.symm
    rw [hswap]
    exact Std.TransCmp.opposite
  · exact inferInstanceAs (Std.TransCmp (compareOn key))

theorem transCmp_compareIds (cs : Comparators) : Std.TransCmp (compareIds entries cs) := by
  induction cs with
  | nil => exact inferInstanceAs (Std.TransCmp fun x y : ℕ => compare y x)
  | cons c cs ih =>
    have := transCmp_compareKey entries c
    exact inferInstanceAs (Std.TransCmp (compareLex (compareKey entries c) (compareIds entries cs)))

theorem eq_of_compareIds {cs : Comparators} {x y : ℕ} (h : compareIds entries cs x y = .eq) :
    x = y := by
  induction cs with
  | nil => exact (compare_eq_iff_eq.1 h).symm
  | cons c cs ih => exact ih (Ordering.then_eq_eq.1 h).2

theorem isStrictTotalOrder_compareIds (cs : Comparators) :
    IsStrictTotalOrder ℕ fun x y => compareIds entries cs x y = .lt := by
  have := transCmp_compareIds entries cs
  exact {
    irrefl x h := by simp [Std.ReflCmp.compare_self] at h
    trans x y z := Std.TransCmp.lt_trans
    trichotomous x y hxy hyx := by
      rw [← Std.OrientedCmp.gt_iff_lt] at hyx
      cases h : compareIds entries cs x y with
      | lt => exact absurd h hxy
      | eq => exact eq_of_compareIds entries h
      | gt => exact absurd h hyx }

theorem nodup_sortIds (ids : Finset ℕ) (cs : Comparators) : (sortIds entries ids cs).Nodup :=
  (List.mergeSort_perm _ _).nodup_iff.2 (Finset.sort_nodup _ _)

theorem pairwise_sortIds (ids : Finset ℕ) (cs : Comparators) :
    (sortIds entries ids cs).Pairwise fun x y => compareIds entries cs x y = .lt := by
  have := transCmp_compareIds entries cs
  have htotal : ∀ x y,
      ((compareIds entries cs x y).isLE || (compareIds entries cs y x).isLE) = true := by
    intro x y
    have hswap : compareIds entries cs y x = (compareIds entries cs x y).swap :=
      Std.OrientedCmp.eq_swap
    rw [hswap]
    cases compareIds entries cs x y <;> rfl
  have hsorted := List.pairwise_mergeSort (fun _ _ _ => Std.TransCmp.isLE_trans) htotal
    (ids.sort (· ≤ ·))
  refine (hsorted.and (nodup_sortIds entries ids cs)).imp fun {x y} h => ?_
  cases hxy : compareIds entries cs x y with
  | lt => rfl
  | eq => exact absurd (eq_of_compareIds entries hxy) h.2
  | gt => simp [hxy] at h

end

section Order
variable {u : Unicode} {parseDate : String → Option ℕ} {s : Records} {a : ℕ} {args : Value}

theorem compare_eq_lt_iff (x y : Option ℕ) : compare x y = .lt ↔ x < y := by
  cases x with
  | none => cases y <;> simp [compare]
  | some m =>
    cases y with
    | none => simp [compare]
    | some n => exact compare_lt_iff_lt (a := m)

theorem key_eq_sortKey {name : String} {property : SortProperty}
    (h : sortProperty name = some property) (entry : MessageCacheEntry) :
    property.key entry = sortKey name entry := by
  unfold sortProperty at h
  split at h <;> cases h <;> rfl

theorem lookup_entries (s : Records) (a d : ℕ) :
    (builtFrom s a).entries.lookup d = currentEntry s a d := congrFun (lookup_builtFrom s a) d

theorem compareIds_eq_lt_iff {items : List Value} {cs : Comparators}
    (h : parseComparators items = some cs) (x y : ℕ) :
    compareIds (builtFrom s a).entries cs x y = .lt ↔
      Precedes s a (comparatorsOf items) x y := by
  induction items generalizing cs with
  | nil =>
    cases h
    exact compare_lt_iff_lt
  | cons item items ih =>
    obtain ⟨property, hproperty, h⟩ := Option.bind_eq_some_iff.1 h
    obtain ⟨name, hname, hproperty⟩ := Option.bind_eq_some_iff.1 hproperty
    obtain ⟨cs, hcs, rfl⟩ := Option.map_eq_some_iff.1 h
    have hkey : (fun entry => property.key entry) = sortKey name :=
      funext (key_eq_sortKey hproperty)
    simp only [compareIds, Ordering.then_eq_lt, ih hcs, comparatorsOf, List.map_cons, hname,
      Precedes, compareKey, lookup_entries, hkey, Option.getD_some]
    refine or_congr ?_ (and_congr_left' ?_)
    · split
      · exact compare_eq_lt_iff _ _
      · rw [← Std.OrientedCmp.eq_swap]
        exact compare_eq_lt_iff _ _
    · split
      · exact Std.LawfulEqCmp.compare_eq_iff_eq
      · rw [Ordering.swap_eq_eq]
        exact Std.LawfulEqCmp.compare_eq_iff_eq

theorem exists_parseComparators {items : List Value} (h : IsSort (.array items)) :
    ∃ cs, parseComparators items = some cs := by
  obtain ⟨_, ⟨⟩, heach⟩ := h
  induction items with
  | nil => exact ⟨[], rfl⟩
  | cons item items ih =>
    obtain ⟨⟨name, hname, hitem⟩, hrest⟩ := List.forall_mem_cons.1 heach
    obtain ⟨cs, hcs⟩ := ih hrest
    simp only [List.mem_cons, List.not_mem_nil, or_false] at hname
    rw [parseComparators, hitem, hcs]
    rcases hname with rfl | rfl | rfl <;> exact ⟨_, rfl⟩

theorem compareIds_parseSort {cs : Comparators} (h : parseSort args = some cs) (x y : ℕ) :
    compareIds (builtFrom s a).entries cs x y = .lt ↔ Precedes s a (sortOf args) x y := by
  unfold parseSort at h
  unfold sortOf
  split at h
  next hnone =>
    cases h
    rw [hnone]
    exact compareIds_eq_lt_iff rfl x y
  next sort hsort =>
    obtain ⟨items, hitems, hcs⟩ := Option.bind_eq_some_iff.1 h
    rw [hsort, Option.bind_some, hitems]
    exact compareIds_eq_lt_iff hcs x y

theorem mem_filtered {filter : Option FilterNode} (h : parseFilter parseDate args = some filter)
    (d : ℕ) :
    d ∈ filter.elim (builtFrom s a).entries.keys (evalNode u s a (builtFrom s a).entries) ↔
      ∃ entry, currentEntry s a d = some entry ∧
        ∀ value ∈ argument args "filter", Meets u parseDate s a d entry value := by
  rw [← lookup_entries]
  unfold parseFilter at h
  split at h
  next hnone =>
    cases h
    simpa [hnone] using mem_keys_iff
  next value hvalue =>
    obtain ⟨node, hnode, rfl⟩ := Option.map_eq_some_iff.1 h
    simpa [hvalue, Found] using mem_evalNode hnode

theorem exists_queryIds (hfilter : ∀ value ∈ argument args "filter", IsFilter parseDate value)
    (hsort : ∀ value ∈ argument args "sort", IsSort value) :
    ∃ filter cs, parseFilter parseDate args = some filter ∧ parseSort args = some cs := by
  have hfilter' : ∃ filter, parseFilter parseDate args = some filter := by
    unfold parseFilter
    split
    next => exact ⟨none, rfl⟩
    next value hvalue =>
      obtain ⟨node, hnode⟩ := exists_parseNode (hfilter value hvalue)
      exact ⟨some node, by rw [hnode]; rfl⟩
  have hsort' : ∃ cs, parseSort args = some cs := by
    unfold parseSort
    split
    next => exact ⟨[], rfl⟩
    next value hvalue =>
      obtain ⟨items, rfl, heach⟩ := hsort value hvalue
      exact exists_parseComparators ⟨items, rfl, heach⟩
  obtain ⟨filter, hfilter⟩ := hfilter'
  obtain ⟨cs, hcs⟩ := hsort'
  exact ⟨filter, cs, hfilter, hcs⟩

end Order

/-- The messages that meet the filter are listed, each once, in the order that the comparators
give, which is a strict total one. -/
theorem queryIds_pointwise (u : Unicode) (parseDate : String → Option ℕ) (s : Records) (a : ℕ)
    (args : Value) (hfilter : ∀ value ∈ argument args "filter", IsFilter parseDate value)
    (hsort : ∀ value ∈ argument args "sort", IsSort value) :
    ∃ ids, queryIds u parseDate s a args = .ok ids ∧
      (∀ d, d ∈ ids ↔ ∃ entry, currentEntry s a d = some entry ∧
        ∀ value ∈ argument args "filter", Meets u parseDate s a d entry value) ∧
      ids.Nodup ∧ ids.Pairwise (Precedes s a (sortOf args)) ∧
      IsStrictTotalOrder ℕ (Precedes s a (sortOf args)) := by
  obtain ⟨filter, cs, hparsed, hcs⟩ := exists_queryIds hfilter hsort
  have horder : (fun x y => compareIds (builtFrom s a).entries cs x y = .lt) =
      Precedes s a (sortOf args) := funext₂ fun x y => propext (compareIds_parseSort hcs x y)
  unfold queryIds
  rw [hparsed, hcs, ← horder]
  refine ⟨_, rfl, fun d => ?_, nodup_sortIds _ _ _, pairwise_sortIds _ _ _,
    isStrictTotalOrder_compareIds _ _⟩
  rw [sortIds, List.mem_mergeSort, Finset.mem_sort, mem_filtered hparsed]

def oneReadMessage : Records :=
  (∅ : Records).batch [.set (.data 7 1) (((MessageData.new 1 1).addMailbox 6 1).addKeyword .seen),
    .set (.data 7 2) ((MessageData.new 2 2).addMailbox 6 2)]

/-- The messages of mailbox 6 that are not read, the largest first. -/
def unreadArgs : Value :=
  .object [("filter", .object [("operator", .str "AND"), ("conditions", .array
      [.object [("inMailbox", .str "6")], .object [("operator", .str "NOT"),
        ("conditions", .array [.object [("hasKeyword", .str "$seen")]])]])]),
    ("sort", .array [.object [("property", .str "size"), ("isAscending", .bool false)]])]

theorem queryIds_unread : ∃ ids,
    queryIds Fts.ascii (fun _ => none) oneReadMessage 7 unreadArgs = .ok ids ∧ ids = [2] ∧
      ∀ d, d ∈ ids ↔ ∃ entry, currentEntry oneReadMessage 7 d = some entry ∧
        ∀ value ∈ argument unreadArgs "filter",
          Meets Fts.ascii (fun _ => none) oneReadMessage 7 d entry value := by
  have hfilter : ∀ value ∈ argument unreadArgs "filter", IsFilter (fun _ => none) value := by
    rintro value ⟨⟩
    simp +contextual [IsFilter, conditionsOf, Value.asArray, Value.asStr, PropertyTyped,
      Fields.lookup_cons]
  have hsort : ∀ value ∈ argument unreadArgs "sort", IsSort value := by
    rintro value ⟨⟩
    refine ⟨_, rfl, ?_⟩
    simp [Value.get, Value.asObject, Value.asStr]
  obtain ⟨ids, hids, hmem, -⟩ := queryIds_pointwise Fts.ascii (fun _ => none) oneReadMessage 7
    unreadArgs hfilter hsort
  have hunread : (queryIds Fts.ascii (fun _ => none) oneReadMessage 7 unreadArgs).toOption =
      some [2] := by decide +kernel
  rw [hids] at hunread
  exact ⟨ids, hids, Option.some.inj hunread, hmem⟩

end IrixMail.Jmap

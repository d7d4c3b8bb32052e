import IrixMail.Imap.Envelope

/-!
# BODYSTRUCTURE

The structure of a message, part by part. The parts are the tree that the mail
parser makes of them, with every child in its place; a message without parts has
no root. The sizes are of the slice of the raw message that a part takes.
-/

namespace IrixMail.Imap
open Library.Parens List

structure ContentType where
  ctype : String
  subtype : Option String := none
  attributes : Option (List (String × String)) := none
  deriving DecidableEq

/-- The MIME headers of a part, decoded, and where its body is. -/
structure Mime where
  contentType : Option ContentType := none
  contentId : Option String := none
  contentDescription : Option String := none
  contentTransferEncoding : Option String := none
  contentDisposition : Option ContentType := none
  contentLanguage : Option (List String) := none
  contentLocation : Option String := none
  offsetBody : ℕ := 0
  offsetEnd : ℕ := 0
  deriving DecidableEq

inductive LeafKind
  | text
  | html
  | other
  deriving DecidableEq

inductive Part
  | leaf (mime : Mime) (kind : LeafKind)
  | message (mime : Mime) (headers : Headers) (rawMessage : Bytes) (root : Option Part)
  | multipart (mime : Mime) (children : List Part)

structure Message where
  headers : Headers
  raw : Bytes
  root : Option Part

def partBody (mime : Mime) (raw : Bytes) : Bytes :=
  if mime.offsetBody ≤ mime.offsetEnd ∧ mime.offsetEnd ≤ raw.length then
    (raw.drop mime.offsetBody).take (mime.offsetEnd - mime.offsetBody)
  else []

def lineCount (body : Bytes) : ℕ := body.count 10

def attributesOf (ct : Option ContentType) : List (String × String) :=
  (ct.bind ContentType.attributes).getD []

def paramList (ct : Option ContentType) : String :=
  if (attributesOf ct).isEmpty then "NIL"
  else "(" ++ spaced ((attributesOf ct).map fun attr => spaced [qstring attr.1, qstring attr.2]) ++ ")"

def disposition (mime : Mime) : String :=
  match mime.contentDisposition with
  | some cd => "(" ++ spaced [qstring cd.ctype, paramList (some cd)] ++ ")"
  | none => "NIL"

def language (mime : Mime) : String :=
  match mime.contentLanguage with
  | none => "NIL"
  | some [] => "NIL"
  | some [lang] => qstring lang
  | some list => "(" ++ spaced (list.map qstring) ++ ")"

def extension (mime : Mime) : String :=
  spaced [nstring none, disposition mime, language mime, nstring mime.contentLocation]

def mediaType (mime : Mime) (kind : LeafKind) : String × String :=
  let defaultSubtype :=
    match kind with
    | .html => "html"
    | .text => "plain"
    | .other => "octet-stream"
  let defaultType :=
    match kind with
    | .text => "text"
    | .html => "text"
    | .other => "application"
  match mime.contentType with
  | some ct => (ct.ctype, ct.subtype.getD defaultSubtype)
  | none => (defaultType, defaultSubtype)

def commonFields (mime : Mime) (raw : Bytes) : List String :=
  [paramList mime.contentType, nstring (mime.contentId.map bracketId),
    nstring mime.contentDescription, qstring (mime.contentTransferEncoding.getD "7bit"),
    toString (partBody mime raw).length]

def single (mime : Mime) (kind : LeafKind) (raw : Bytes) (extended : Bool) : String :=
  let (media, subtype) := mediaType mime kind
  "(" ++ (spaced (qstring media :: qstring subtype :: commonFields mime raw) ++
    (if eqIgnoreAsciiCase media "text" then " " ++ toString (lineCount (partBody mime raw)) else "") ++
    (if extended then " " ++ extension mime else "")) ++ ")"

def messagePart (mime : Mime) (envelope inner : String) (raw : Bytes) (extended : Bool) : String :=
  "(" ++ (spaced (qstring "message" :: qstring "rfc822" :: (commonFields mime raw ++ [envelope, inner])) ++
    " " ++ toString (lineCount (partBody mime raw)) ++
    (if extended then " " ++ extension mime else "")) ++ ")"

def multipartFields (mime : Mime) (extended : Bool) : List String :=
  qstring ((mime.contentType.bind ContentType.subtype).getD "mixed") ::
    if extended then
      [paramList mime.contentType, disposition mime, language mime, nstring mime.contentLocation]
    else []

mutual
def partStructure (extended : Bool) : Part → Bytes → String
  | .leaf mime kind, raw => single mime kind raw extended
  | .message mime headers rawMessage root, raw =>
    messagePart mime (envelopeBody headers) (rootStructure extended root rawMessage) raw extended
  | .multipart mime children, raw =>
    "(" ++ (childStructures extended children raw ++ " " ++ spaced (multipartFields mime extended)) ++ ")"

def childStructures (extended : Bool) : List Part → Bytes → String
  | [], _ => ""
  | part :: rest, raw => partStructure extended part raw ++ childStructures extended rest raw

def rootStructure (extended : Bool) : Option Part → Bytes → String
  | none, _ => "NIL"
  | some part, raw => partStructure extended part raw
end

def bodyStructure (message : Message) (extended : Bool) : String :=
  rootStructure extended message.root message.raw

/-! ## What it says -/

def numberNode (n : ℕ) : Node := .word (toString n).toList

def quotedNode (value : String) : Node := .quoted value.toList

def paramNode (ct : Option ContentType) : Node :=
  if (attributesOf ct).isEmpty then nilNode
  else .list ((attributesOf ct).flatMap fun attr => [quotedNode attr.1, quotedNode attr.2])

def dispositionNode (mime : Mime) : Node :=
  match mime.contentDisposition with
  | some cd => .list [quotedNode cd.ctype, paramNode (some cd)]
  | none => nilNode

def languageNode (mime : Mime) : Node :=
  match mime.contentLanguage with
  | none => nilNode
  | some [] => nilNode
  | some [lang] => quotedNode lang
  | some list => .list (list.map quotedNode)

def extensionNodes (mime : Mime) : List Node :=
  [nilNode, dispositionNode mime, languageNode mime, nstringNode mime.contentLocation]

def commonNodes (mime : Mime) (raw : Bytes) : List Node :=
  [paramNode mime.contentType, nstringNode (mime.contentId.map bracketId),
    nstringNode mime.contentDescription, quotedNode (mime.contentTransferEncoding.getD "7bit"),
    numberNode (partBody mime raw).length]

def leafNode (mime : Mime) (kind : LeafKind) (raw : Bytes) (extended : Bool) : Node :=
  .list (quotedNode (mediaType mime kind).1 :: quotedNode (mediaType mime kind).2 ::
    commonNodes mime raw ++
    (if eqIgnoreAsciiCase (mediaType mime kind).1 "text" then
      [numberNode (lineCount (partBody mime raw))] else []) ++
    if extended then extensionNodes mime else [])

def messageNode (mime : Mime) (envelope inner : Node) (raw : Bytes) (extended : Bool) : Node :=
  .list (quotedNode "message" :: quotedNode "rfc822" :: (commonNodes mime raw ++ [envelope, inner]) ++
    [numberNode (lineCount (partBody mime raw))] ++ if extended then extensionNodes mime else [])

def multipartNodes (mime : Mime) (extended : Bool) : List Node :=
  quotedNode ((mime.contentType.bind ContentType.subtype).getD "mixed") ::
    if extended then
      [paramNode mime.contentType, dispositionNode mime, languageNode mime,
        nstringNode mime.contentLocation]
    else []

mutual
def partNode (extended : Bool) : Part → Bytes → Node
  | .leaf mime kind, raw => leafNode mime kind raw extended
  | .message mime headers rawMessage root, raw =>
    messageNode mime (envelopeNode headers) (rootNode extended root rawMessage) raw extended
  | .multipart mime children, raw =>
    .list (childNodes extended children raw ++ multipartNodes mime extended)

def childNodes (extended : Bool) : List Part → Bytes → List Node
  | [], _ => []
  | part :: rest, raw => partNode extended part raw :: childNodes extended rest raw

def rootNode (extended : Bool) : Option Part → Bytes → Node
  | none, _ => nilNode
  | some part, raw => partNode extended part raw
end

def bodyNode (message : Message) (extended : Bool) : Node :=
  rootNode extended message.root message.raw

/-! ## The text spells it -/

theorem mem_number {n : ℕ} {c : Char} (h : c ∈ (toString n).toList) : c.isDigit = true := by
  refine Nat.isDigit_of_mem_toDigits (by decide) (le_refl 10) (n := n) ?_
  exact (String.toList_ofList : (Nat.repr n).toList = _) ▸ h

theorem isWordChar_of_isDigit {c : Char} (h : c.isDigit = true) : isWordChar c := by
  have hne : ∀ x : Char, x.isDigit = false → c ≠ x := by
    rintro x hx rfl
    simp [h] at hx
  simp [isWordChar, hne ' ' (by decide), hne '(' (by decide), hne ')' (by decide),
    hne '"' (by decide)]

theorem writes_number (n : ℕ) : Writes (toString n) [numberNode n] := by
  have hwords : ∀ c ∈ (toString n).toList, isWordChar c := fun c hc =>
    isWordChar_of_isDigit (mem_number hc)
  unfold Writes numberNode
  cases htext : (toString n).toList with
  | nil => exact absurd ((String.toList_ofList : (Nat.repr n).toList = _) ▸ htext) Nat.toDigits_ne_nil
  | cons c w =>
    rw [htext] at hwords
    exact .one_word (hwords c mem_cons_self) fun x hx => hwords x (mem_cons_of_mem _ hx)

theorem writes_paramList (ct : Option ContentType) : Writes (paramList ct) [paramNode ct] := by
  unfold paramList paramNode
  split
  · exact writes_nil
  · refine Writes.paren (writes_spaced_map _ _ (fun attr => ?_) _)
    exact writes_spaced (.cons (writes_qstring _) (.cons (writes_qstring _) .nil))

variable (mime : Mime)

theorem writes_disposition : Writes (disposition mime) [dispositionNode mime] := by
  unfold disposition dispositionNode
  cases mime.contentDisposition with
  | none => exact writes_nil
  | some cd =>
    exact Writes.paren (writes_spaced (.cons (writes_qstring _) (.cons (writes_paramList _) .nil)))

theorem writes_language : Writes (language mime) [languageNode mime] := by
  unfold language languageNode
  match mime.contentLanguage with
  | none => exact writes_nil
  | some [] => exact writes_nil
  | some [lang] => exact writes_qstring lang
  | some (lang :: next :: rest) =>
    have h := writes_spaced_map qstring (fun lang => [quotedNode lang]) writes_qstring
      (lang :: next :: rest)
    rw [← map_eq_flatMap] at h
    exact h.paren

theorem writes_extension : Writes (extension mime) (extensionNodes mime) :=
  writes_spaced (.cons writes_nil (.cons (writes_disposition mime)
    (.cons (writes_language mime) (.cons (writes_nstring _) .nil))))

theorem writes_commonFields (raw : Bytes) {ts : List String} {xs : List Node}
    (h : List.Forall₂ (fun t x => Writes t [x]) ts xs) :
    List.Forall₂ (fun t x => Writes t [x]) (commonFields mime raw ++ ts)
      (commonNodes mime raw ++ xs) :=
  .cons (writes_paramList _) (.cons (writes_nstring _) (.cons (writes_nstring _)
    (.cons (writes_qstring _) (.cons (writes_number _) h))))

theorem writes_single (kind : LeafKind) (raw : Bytes) (extended : Bool) :
    Writes (single mime kind raw extended) [leafNode mime kind raw extended] := by
  have hfields := writes_spaced (.cons (writes_qstring (mediaType mime kind).1)
    (.cons (writes_qstring (mediaType mime kind).2) (writes_commonFields mime raw .nil)))
  exact ((hfields.optional (writes_number _) _).optional (writes_extension mime) extended).paren

theorem writes_messagePart {envelope inner : String} {x y : Node}
    (henvelope : Writes envelope [x]) (hinner : Writes inner [y]) (raw : Bytes) (extended : Bool) :
    Writes (messagePart mime envelope inner raw extended) [messageNode mime x y raw extended] := by
  have hlast : List.Forall₂ (fun t x => Writes t [x]) [envelope, inner] [x, y] :=
    .cons henvelope (.cons hinner .nil)
  have hfields := writes_spaced (.cons (writes_qstring "message") (.cons (writes_qstring "rfc822")
    (writes_commonFields mime raw hlast)))
  exact ((hfields.space (writes_number _)).optional (writes_extension mime) extended).paren

theorem writes_multipartFields (extended : Bool) :
    Writes (spaced (multipartFields mime extended)) (multipartNodes mime extended) := by
  refine writes_spaced (.cons (writes_qstring _) ?_)
  cases extended with
  | false => exact .nil
  | true =>
    exact .cons (writes_paramList _) (.cons (writes_disposition mime)
      (.cons (writes_language mime) (.cons (writes_nstring _) .nil)))

theorem delimited_partStructure (extended : Bool) (part : Part) (raw : Bytes) :
    Delimited (partStructure extended part raw).toList := by
  cases part with
  | leaf mime kind =>
    unfold partStructure single
    dsimp only
    rw [String.append_assoc]
    exact delimited_paren _
  | message mime headers rawMessage root =>
    unfold partStructure messagePart
    rw [String.append_assoc]
    exact delimited_paren _
  | multipart mime children =>
    unfold partStructure
    rw [String.append_assoc]
    exact delimited_paren _

theorem delimited_childStructures (extended : Bool) (parts : List Part) (raw : Bytes) :
    Delimited (childStructures extended parts raw).toList := by
  cases parts with
  | nil => exact delimited_nil
  | cons part rest =>
    unfold childStructures
    rw [String.toList_append]
    exact (delimited_partStructure extended part raw).append
      (delimited_childStructures extended rest raw)

mutual
theorem writes_partStructure (extended : Bool) (part : Part) (raw : Bytes) :
    Writes (partStructure extended part raw) [partNode extended part raw] := by
  match part with
  | .leaf mime kind => exact writes_single mime kind raw extended
  | .message mime headers rawMessage root =>
    exact writes_messagePart mime (writes_envelopeBody headers)
      (writes_rootStructure extended root rawMessage) raw extended
  | .multipart mime children =>
    exact ((writes_childStructures extended children raw).space
      (writes_multipartFields mime extended)).paren

theorem writes_childStructures (extended : Bool) (parts : List Part) (raw : Bytes) :
    Writes (childStructures extended parts raw) (childNodes extended parts raw) := by
  match parts with
  | [] => exact .nil
  | part :: rest =>
    have hpart := writes_partStructure extended part raw
    have hrest := writes_childStructures extended rest raw
    unfold Writes childStructures
    rw [String.toList_append]
    exact hpart.append hrest (delimited_childStructures extended rest raw)

theorem writes_rootStructure (extended : Bool) (root : Option Part) (raw : Bytes) :
    Writes (rootStructure extended root raw) [rootNode extended root raw] := by
  match root with
  | none => exact writes_nil
  | some part => exact writes_partStructure extended part raw
end

/-! ## The characters that it shows -/

def attributeValues (ct : Option ContentType) : List String :=
  (attributesOf ct).flatMap fun attr => [attr.1, attr.2]

def Mime.extensionValues (mime : Mime) : List String :=
  (mime.contentDisposition.map ContentType.ctype).toList ++ attributeValues mime.contentDisposition ++
    mime.contentLanguage.getD [] ++ mime.contentLocation.toList

def Mime.commonValues (mime : Mime) : List String :=
  attributeValues mime.contentType ++ (mime.contentId.map trim).toList ++
    mime.contentDescription.toList ++ mime.contentTransferEncoding.toList

def Mime.typeValues (mime : Mime) : List String :=
  (mime.contentType.map ContentType.ctype).toList ++
    (mime.contentType.bind ContentType.subtype).toList

mutual
def Part.values (extended : Bool) : Part → List String
  | .leaf mime _ =>
    mime.typeValues ++ mime.commonValues ++ if extended then mime.extensionValues else []
  | .message mime headers _ root =>
    mime.commonValues ++ headers.values ++ rootValues extended root ++
      if extended then mime.extensionValues else []
  | .multipart mime children =>
    childValues extended children ++ (mime.contentType.bind ContentType.subtype).toList ++
      if extended then attributeValues mime.contentType ++ mime.extensionValues else []

def childValues (extended : Bool) : List Part → List String
  | [] => []
  | part :: rest => part.values extended ++ childValues extended rest

def rootValues (extended : Bool) : Option Part → List String
  | none => []
  | some part => part.values extended
end

def Message.values (message : Message) (extended : Bool) : List String :=
  message.headers.values ++ rootValues extended message.root

theorem showsPlain_append (xs ys : List Node) :
    ShowsPlain (xs ++ ys) ↔ ShowsPlain xs ∧ ShowsPlain ys := by
  induction xs with
  | nil => simp [ShowsPlain, textsOf]
  | cons x xs ih => rw [cons_append, showsPlain_cons, ih, showsPlain_cons x xs, and_assoc]

theorem showsPlain_quoted (value : String) : ShowsPlain
    [quotedNode value] ↔ Plain value.toList := by
  simp [ShowsPlain, quotedNode, textsOf, Node.texts]

theorem showsPlain_quoted_cons (value : String) (xs : List Node) :
    ShowsPlain (quotedNode value :: xs) ↔ Plain value.toList ∧ ShowsPlain xs := by
  rw [showsPlain_cons, showsPlain_quoted]

theorem showsPlain_number (n : ℕ) : ShowsPlain [numberNode n] := by
  intro v hv c hc
  obtain rfl : v = (toString n).toList := by simpa [textsOf, Node.texts, numberNode] using hv
  have hdigit := mem_number hc
  refine ⟨?_, ?_, ?_⟩ <;> rintro rfl <;> exact absurd hdigit (by decide)

theorem plain_getD (value : Option String) {default : String} (h : Plain default.toList) :
    Plain (value.getD default).toList ↔ AllPlain value.toList := by
  cases value with
  | none => simpa [AllPlain] using h
  | some value => simp [AllPlain]

theorem showsPlain_attributes (attributes : List (String × String)) :
    ShowsPlain (attributes.flatMap fun attr => [quotedNode attr.1, quotedNode attr.2]) ↔
      AllPlain (attributes.flatMap fun attr => [attr.1, attr.2]) := by
  induction attributes with
  | nil => simp [ShowsPlain, textsOf, AllPlain]
  | cons attr rest ih =>
    rw [flatMap_cons, flatMap_cons, showsPlain_append, allPlain_append, ih,
      showsPlain_cons, showsPlain_quoted, showsPlain_quoted]
    simp [AllPlain]

theorem showsPlain_params (ct : Option ContentType) :
    ShowsPlain [paramNode ct] ↔ AllPlain (attributeValues ct) := by
  unfold paramNode attributeValues
  split
  next hempty => simp [isEmpty_iff.1 hempty, showsPlain_nil, AllPlain]
  next => rw [showsPlain_list, showsPlain_attributes]

theorem showsPlain_disposition : ShowsPlain [dispositionNode mime] ↔
    AllPlain ((mime.contentDisposition.map ContentType.ctype).toList ++
      attributeValues mime.contentDisposition) := by
  unfold dispositionNode
  cases mime.contentDisposition with
  | none => simp [showsPlain_nil, AllPlain, attributeValues, attributesOf]
  | some cd =>
    rw [showsPlain_list, showsPlain_cons, showsPlain_quoted, showsPlain_params]
    simp [AllPlain]

theorem showsPlain_quotedAll (values : List String) :
    ShowsPlain (values.map quotedNode) ↔ AllPlain values := by
  induction values with
  | nil => simp [ShowsPlain, textsOf, AllPlain]
  | cons value rest ih =>
    rw [map_cons, showsPlain_cons, showsPlain_quoted, ih]
    simp [AllPlain]

theorem showsPlain_language :
    ShowsPlain [languageNode mime] ↔ AllPlain (mime.contentLanguage.getD []) := by
  unfold languageNode
  match mime.contentLanguage with
  | none => simp [showsPlain_nil, AllPlain]
  | some [] => simp [showsPlain_nil, AllPlain]
  | some [lang] => simp [showsPlain_quoted, AllPlain]
  | some (lang :: next :: rest) =>
    have h := showsPlain_quotedAll (lang :: next :: rest)
    rw [← showsPlain_list] at h
    exact h

theorem showsPlain_extension :
    ShowsPlain (extensionNodes mime) ↔ AllPlain mime.extensionValues := by
  unfold extensionNodes Mime.extensionValues
  simp only [showsPlain_cons _ (_ :: _), showsPlain_nil, true_and, showsPlain_disposition,
    showsPlain_language, showsPlain_nstring, allPlain_append]
  exact ⟨fun ⟨h, hl, hc⟩ => ⟨⟨h, hl⟩, hc⟩, fun ⟨⟨h, hl⟩, hc⟩ => ⟨h, hl, hc⟩⟩

theorem showsPlain_common (raw : Bytes) :
    ShowsPlain (commonNodes mime raw) ↔ AllPlain mime.commonValues := by
  unfold commonNodes Mime.commonValues
  simp only [showsPlain_cons _ (_ :: _), showsPlain_params, showsPlain_nstring, allPlain_bracketId,
    showsPlain_quoted, plain_getD _ (by decide : Plain "7bit".toList), showsPlain_number, and_true,
    allPlain_append, and_assoc]

theorem showsPlain_optional {xs : List Node} {values : List String}
    (h : ShowsPlain xs ↔ AllPlain values) (b : Bool) :
    ShowsPlain (if b then xs else []) ↔ AllPlain (if b then values else []) := by
  cases b with
  | true => exact h
  | false => simp [ShowsPlain, textsOf, AllPlain]

theorem plain_mediaType (kind : LeafKind) :
    Plain (mediaType mime kind).1.toList ∧ Plain (mediaType mime kind).2.toList ↔
      AllPlain mime.typeValues := by
  unfold mediaType Mime.typeValues
  cases mime.contentType with
  | none => cases kind <;> decide
  | some ct =>
    cases kind with
    | text =>
      simp only [plain_getD _ (by decide : Plain "plain".toList)]
      simp [AllPlain]
    | html =>
      simp only [plain_getD _ (by decide : Plain "html".toList), allPlain_append]
      simp [AllPlain]
    | other =>
      simp only [plain_getD _ (by decide : Plain "octet-stream".toList)]
      simp [AllPlain]

theorem showsPlain_leaf (kind : LeafKind) (raw : Bytes) (extended : Bool) :
    ShowsPlain [leafNode mime kind raw extended] ↔ AllPlain ((Part.leaf mime kind).values extended) := by
  have hnumber (b : Bool) (n : ℕ) : ShowsPlain (if b then [numberNode n] else []) := by
    cases b with
    | true => exact showsPlain_number n
    | false => simp [ShowsPlain, textsOf]
  unfold leafNode Part.values
  rw [showsPlain_list]
  simp only [showsPlain_quoted_cons, showsPlain_append, showsPlain_common,
    hnumber, and_true, showsPlain_optional (showsPlain_extension mime), allPlain_append,
    ← plain_mediaType mime kind, and_assoc]

theorem showsPlain_message (x y : Node) (raw : Bytes) (extended : Bool) :
    ShowsPlain [messageNode mime x y raw extended] ↔ AllPlain mime.commonValues ∧
      ShowsPlain [x] ∧ ShowsPlain [y] ∧ AllPlain (if extended then mime.extensionValues else []) := by
  have hmessage : Plain "message".toList := by decide
  have hrfc822 : Plain "rfc822".toList := by decide
  unfold messageNode
  rw [showsPlain_list]
  simp only [showsPlain_quoted_cons, showsPlain_append, showsPlain_common,
    showsPlain_number, showsPlain_cons x [y], hmessage, hrfc822, true_and,
    showsPlain_optional (showsPlain_extension mime), and_assoc]

theorem showsPlain_multipartFields (extended : Bool) :
    ShowsPlain (multipartNodes mime extended) ↔
      AllPlain ((mime.contentType.bind ContentType.subtype).toList ++
        if extended then attributeValues mime.contentType ++ mime.extensionValues else []) := by
  have hextension : ShowsPlain [paramNode mime.contentType, dispositionNode mime, languageNode mime,
      nstringNode mime.contentLocation] ↔
      AllPlain (attributeValues mime.contentType ++ mime.extensionValues) := by
    rw [showsPlain_cons, showsPlain_params, allPlain_append, ← showsPlain_extension]
    unfold extensionNodes
    rw [showsPlain_cons nilNode, and_iff_right showsPlain_nil]
  unfold multipartNodes
  rw [showsPlain_quoted_cons, plain_getD _ (by decide), allPlain_append,
    showsPlain_optional hextension]

mutual
theorem showsPlain_part (extended : Bool) (part : Part) (raw : Bytes) :
    ShowsPlain [partNode extended part raw] ↔ AllPlain (part.values extended) := by
  match part with
  | .leaf mime kind => exact showsPlain_leaf mime kind raw extended
  | .message mime headers rawMessage root =>
    have hroot := showsPlain_root extended root rawMessage
    unfold partNode Part.values
    simp only [showsPlain_message, showsPlain_envelope, hroot, allPlain_append, and_assoc]
  | .multipart mime children =>
    have hchildren := showsPlain_children extended children raw
    unfold partNode Part.values
    simp only [showsPlain_list, showsPlain_append, hchildren, showsPlain_multipartFields,
      allPlain_append, and_assoc]

theorem showsPlain_children (extended : Bool) (parts : List Part) (raw : Bytes) :
    ShowsPlain (childNodes extended parts raw) ↔ AllPlain (childValues extended parts) := by
  match parts with
  | [] => simp [childNodes, childValues, ShowsPlain, textsOf, AllPlain]
  | part :: rest =>
    have hpart := showsPlain_part extended part raw
    have hrest := showsPlain_children extended rest raw
    unfold childNodes childValues
    rw [showsPlain_cons, hpart, hrest, allPlain_append]

theorem showsPlain_root (extended : Bool) (root : Option Part) (raw : Bytes) :
    ShowsPlain [rootNode extended root raw] ↔ AllPlain (rootValues extended root) := by
  match root with
  | none => simp [rootNode, rootValues, showsPlain_nil, AllPlain]
  | some part => exact showsPlain_part extended part raw
end

/-! ## Responses -/

/-- The text is one balanced item that reads back as it was meant, without a line
break or a NUL. -/
structure Faithful (text : String) (item : Node) : Prop where
  reads : parse text.toList = some [item]
  plain : Plain text.toList

theorem faithful_iff {text : String} {item : Node} (h : Writes text [item]) :
    Faithful text item ↔ ShowsPlain [item] := by
  have hmarks : Plain [' ', '(', ')', '"', '\\'] := by decide
  have hchars := Spells.forall_char hmarks h
  exact ⟨fun hf => hchars.1 hf.plain, fun hs => ⟨parse_of_spells h, hchars.2 hs⟩⟩

/-- The ENVELOPE and the BODYSTRUCTURE of a message keep to themselves exactly if
no value that they show has a line break or a NUL in it. -/
theorem responses_faithful_iff (message : Message) (extended : Bool) :
    (Faithful (envelopeBody message.headers) (envelopeNode message.headers) ∧
      Faithful (bodyStructure message extended) (bodyNode message extended)) ↔
    AllPlain (message.values extended) := by
  have hbody : Writes (bodyStructure message extended) [bodyNode message extended] :=
    writes_rootStructure extended message.root message.raw
  have hshown : ShowsPlain [bodyNode message extended] ↔ AllPlain (rootValues extended message.root) :=
    showsPlain_root extended message.root message.raw
  rw [faithful_iff (writes_envelopeBody message.headers), faithful_iff hbody, showsPlain_envelope,
    hshown, Message.values, allPlain_append]

def forged : Message where
  headers := { subject := some "Hi\r\n* 1 EXPUNGE" }
  raw := []
  root := some (.leaf {} .text)

theorem forged_response :
    envelopeBody forged.headers =
      "(NIL \"Hi\r\n* 1 EXPUNGE\" NIL NIL NIL NIL NIL NIL NIL NIL)" ∧
    ¬ Faithful (envelopeBody forged.headers) (envelopeNode forged.headers) := by
  refine ⟨by decide +kernel, fun h => ?_⟩
  exact absurd h.plain (by decide +kernel)

end IrixMail.Imap

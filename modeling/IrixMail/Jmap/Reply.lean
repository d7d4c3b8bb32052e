import IrixMail.Jmap.Context

/-! What the get and changes methods of the JMAP collections share. -/

namespace IrixMail.Jmap
open Library Prog Store Mail

def Value.asU64 : Value → Option ℕ
  | .number n => if 0 ≤ n ∧ n < 2 ^ 64 then some n.toNat else none
  | _ => none

def parseU64 : String → Option ℕ := parseUnsigned (2 ^ 64)

def requestedIds (args : Value) : Option (List String) :=
  match args.get "ids" with
  | some (.array items) => some (items.filterMap Value.asStr)
  | _ => none

/-! ## Changes -/

section Page
variable (entries : List ChangeLogEntry)

def changedDocuments : List ℕ :=
  (entries.map ChangeLogEntry.documentId).dedup.insertionSort (· ≤ ·)

def hasKind (kind : ChangeKind) (d : ℕ) : Bool :=
  entries.any fun entry => entry.documentId = d && entry.kind = kind

def createdDocuments : List ℕ :=
  (changedDocuments entries).filter fun d => hasKind entries .insert d && !hasKind entries .delete d

def destroyedDocuments : List ℕ :=
  (changedDocuments entries).filter fun d => !hasKind entries .insert d && hasKind entries .delete d

def updatedDocuments : List ℕ :=
  (changedDocuments entries).filter fun d =>
    !hasKind entries .insert d && !hasKind entries .delete d && hasKind entries .update d

def stateAfter (since : ℕ) : ℕ := entries.foldl (fun state entry => max state entry.changeId) since

end Page

def idStrings (ids : List ℕ) : Value := .array (ids.map fun d => .str (toString d))

def changesReply (method accountId callId : String) (since : ℕ) (entries : List ChangeLogEntry)
    (hasMore : Bool) : Invocation :=
  ⟨method, .object
    [("accountId", .str accountId), ("created", idStrings (createdDocuments entries)),
      ("destroyed", idStrings (destroyedDocuments entries)), ("hasMoreChanges", .bool hasMore),
      ("newState", .str (toString (stateAfter entries since))), ("oldState", .str (toString since)),
      ("updated", idStrings (updatedDocuments entries))], callId⟩

def sinceOf (args : Value) : ℕ := (((args.get "sinceState").bind Value.asStr).bind parseU64).getD 0

def maxChangesOf (args : Value) : Option ℕ :=
  ((args.get "maxChanges").bind Value.asU64).filter (0 < ·)

/-- The page of changes after `since`. A floor that cannot be read does not stand in the
way, and a log that cannot be read is empty. -/
def changesFrom (a : ℕ) (c : Collection) (method accountId callId : String) (since : ℕ)
    (bound : Option ℕ) : Action Invocation := do
  match ← caught (ChangeLog.canCalculate a c since) with
  | .ok false => pure (methodError "cannotCalculateChanges" callId)
  | _ => do
    let page ← caught (ChangeLog.changesPage a c since bound)
    let (entries, hasMore) := page.toOption.getD ([], false)
    pure (changesReply method accountId callId since entries hasMore)

def collectionChanges (a : ℕ) (args : Value) (method callId : String) (c : Collection) :
    Action Invocation :=
  changesFrom a c method (accountIdOf args) callId (sinceOf args) (maxChangesOf args)

end IrixMail.Jmap

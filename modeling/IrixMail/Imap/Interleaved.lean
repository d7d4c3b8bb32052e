import IrixMail.Imap.Commands
import IrixMail.Store.Histories

/-!
# What a command reads among other programs

Every command reads the mailboxes and the messages anew. Among other programs it knows
only what it has read; here is what the reads leave in its trace, and what they say about
the records at the time.
-/

namespace IrixMail.Imap
open Library Prog Store Mail

abbrev mailboxPrefix (a : ℕ) : KeyPrefix := ⟨.property, some a, some .mailbox⟩

abbrev messagePrefix (a : ℕ) : KeyPrefix := .ofCollection .property a .email

def Session.mailboxIn (s : Session) (name : String) (rows : List (Sigma Val)) : Option Mailbox :=
  (provisionMailboxes s.account.createdAt ++
    ((rows.filterMap mailboxOfRow).insertionSort fun x y => x.id ≤ y.id).filter
      fun m => firstUserMailboxId ≤ m.id).find? (isNamed name)

def membersIn (mailboxId : ℕ) (rows : List (Sigma Val)) : List (ℕ × MessageCacheEntry) :=
  membersOf mailboxId (rows.filterMap MessageStoreCache.cachedEntry)

theorem row_of_numbered {k : ℕ} {rows : List (Sigma Val)} {x : Numbered}
    (h : x ∈ numbered (membersIn k rows)) :
    ∃ b data, (⟨.data b x.entry.documentId, data⟩ : Sigma Val) ∈ rows ∧
      x.entry = .fromData x.entry.documentId data ∧ x.entry.uidIn k = some x.uid := by
  obtain ⟨y, hy, rfl⟩ := List.mem_map.1 h
  have hmember : y.1 ∈ membersIn k rows := List.fst_mem_of_mem_zipIdx hy
  obtain ⟨entry, hentry, hpair⟩ := List.mem_filterMap.1 (List.mem_insertionSort _ |>.1 hmember)
  obtain ⟨uid, huid, hpair⟩ := Option.map_eq_some_iff.1 hpair
  obtain ⟨⟨l, data⟩, hrow, hcached⟩ := List.mem_filterMap.1 (List.mem_filter.1 hentry).1
  rw [← hpair]
  cases l with
  | data b d =>
    obtain rfl : MessageCacheEntry.fromData d data = entry := Option.some.inj hcached
    exact ⟨b, data, hrow, rfl, huid⟩
  | _ => cases hcached

namespace Session
variable (s : Session) {guard : Trace sig → Cmd → Prop} {E : Trace sig → Prop}
  (hquiet : ∀ t c, Quiet c → guard t c)
include hquiet

theorem obeys_mailboxNamed (name : String) (t : Trace sig) :
    Obeys guard E (fun v found => ∃ rows, v = ⟨.iterate (mailboxPrefix s.accountId), rows⟩ :: t ∧
      found = s.mailboxIn name rows) t (s.mailboxNamed name) :=
  .call (hquiet _ _ trivial) fun rows => .ret ⟨rows, rfl, rfl⟩

theorem obeys_members (mailboxId : ℕ) (t : Trace sig) :
    Obeys guard E (fun v members => ∃ (latest : ℤ) (rows : List (Sigma Val)),
      v = ⟨.iterate (messagePrefix s.accountId), rows⟩ ::
        ⟨.counter (ChangeLog.counterLoc s.accountId .email), latest⟩ :: t ∧
      members = membersIn mailboxId rows) t (s.members mailboxId) :=
  .call (hquiet _ _ trivial) fun latest => .call (hquiet _ _ trivial) fun rows =>
    .ret ⟨latest, rows, rfl, rfl⟩

theorem obeys_inSelected {α : Type} {Q : Trace sig → α → Prop} {t : Trace sig} {otherwise : α}
    {f : Mailbox → Action α} (hnone : s.mailbox = none → Q t otherwise)
    (hunknown : ∀ name rows, s.mailbox = some name → s.mailboxIn name rows = none →
      Q (⟨.iterate (mailboxPrefix s.accountId), rows⟩ :: t) otherwise)
    (hfound : ∀ name rows mailbox, s.mailbox = some name → s.mailboxIn name rows = some mailbox →
      Obeys guard E Q (⟨.iterate (mailboxPrefix s.accountId), rows⟩ :: t) (f mailbox)) :
    Obeys guard E Q t (s.inSelected otherwise f) := by
  unfold inSelected
  cases hname : s.mailbox with
  | none => exact .ret (hnone hname)
  | some name =>
    refine (s.obeys_mailboxNamed hquiet name t).bind ?_
    rintro _ found ⟨rows, rfl, rfl⟩
    cases hmailbox : s.mailboxIn name rows with
    | none => exact .ret (hunknown name rows hname hmailbox)
    | some mailbox => exact hfound name rows mailbox hname hmailbox

end Session

namespace Session
variable {s : Session} {guard : Trace sig → Cmd → Prop} {E : Trace sig → Prop}
  {Q : Trace sig → List Line × Session → Prop} {t : Trace sig} {p : Action (List Line × Session)}

theorem obeys_whenSelected (hrefused : ∀ text, Q t ([refusal text], s))
    (hp : Obeys guard E Q t p) : Obeys guard E Q t (s.whenSelected p) := by
  unfold whenSelected
  split
  · exact .ret (hrefused _)
  · exact hp

theorem obeys_whenWritable (hrefused : ∀ text, Q t ([refusal text], s))
    (hp : Obeys guard E Q t p) : Obeys guard E Q t (s.whenWritable p) := by
  refine obeys_whenSelected hrefused ?_
  split
  · exact .ret (hrefused _)
  · exact hp

end Session

section Scans
variable {ι : Type} [DecidableEq ι] {digest : Digest} {past : Past ι}
  {u w : World} {i : ι}

theorem exists_scan (hhistory : History (machine digest) w past u) {p : KeyPrefix}
    {rows : List (Sigma Val)} (h : (⟨.iterate p, rows⟩ : Access) ∈ traceOf i past) :
    ∃ e ∈ past, e.who = i ∧ e.cmd = .iterate p ∧ rows = e.before.records.iterate p := by
  obtain ⟨e, he, hwho, heq⟩ := mem_traceOf.1 h
  have hres := hhistory.res_eq _ he
  obtain ⟨j, v, cmd, r⟩ := e
  cases heq
  exact ⟨_, he, hwho, rfl, hres⟩

end Scans

def inboxSession : Session :=
  { account := .plain 7 "a", state := .selected, mailbox := some "INBOX" }

end IrixMail.Imap

import IrixMail.Smtp.QueueDeliver

/-!
# The parts of a delivery

Finding out where a message goes, and filing it there, is put together from reads, draws
and a few programs of its own with `pure`, `>>=` and `caught`. A property of programs that
these hand on holds of the whole as soon as it holds of the parts.
-/

namespace IrixMail.Smtp
open Library Prog Store Mail Directory

/-- Reads, and counts by one. -/
def Looks : Cmd → Prop
  | .get _ => True
  | .iterate _ => True
  | .counter _ => True
  | .now => True
  | .addAndGet _ n => n = 1
  | _ => False

structure Handed (P : ⦃α : Type⦄ → Action α → Prop) : Prop where
  ret {α : Type} (a : α) : P (pure a : Action α)
  bind {α β : Type} {p : Action α} {f : α → Action β} : P p → (∀ a, P (f a)) → P (p >>= f)
  catches {α : Type} {p : Action α} : P p → P (caught p)
  looks {c : Cmd} : Looks c → P (exec c)
  domain (id : ℕ) : P (DomainRegistry.get id)

section Lookups
variable {P : ⦃α : Type⦄ → Action α → Prop} (h : Handed P)
include h

theorem handed_getByName (name : String) : P (DomainRegistry.getByName name) := by
  refine h.bind (h.looks trivial) fun id => ?_
  split
  · exact h.bind (h.domain _) fun _ => h.ret _
  · exact h.bind (h.bind (h.looks trivial) fun _ => h.ret _) fun _ => h.ret _

variable (recipient : String)

theorem handed_canonicalRecipient : P (canonicalRecipient recipient) := by
  unfold canonicalRecipient
  dsimp only
  split
  · exact h.ret _
  · split
    · exact h.ret _
    · refine h.bind (h.catches (h.bind (handed_getByName h _) fun _ => h.ret _)) fun r => ?_
      split <;> exact h.ret _

theorem handed_collect (keep : Account → Bool) : P (AccountRegistry.collect keep) :=
  h.bind (h.looks trivial) fun _ => h.ret _

theorem handed_anyAdmin : P anyAdmin := h.bind (handed_collect h _) fun _ => h.ret _

theorem handed_roleFallback : P (roleFallback recipient) := by
  unfold roleFallback
  split
  · split
    · exact h.ret _
    · refine h.bind (handed_getByName h _) fun domain => ?_
      split
      · exact h.ret _
      · refine h.bind (handed_collect h _) fun accounts => ?_
        split
        · exact h.ret _
        · exact handed_anyAdmin h
  · split
    · exact h.ret _
    · exact handed_anyAdmin h

theorem handed_catchAllAccount : P (catchAllAccount recipient) := by
  unfold catchAllAccount
  split
  · exact h.ret _
  · exact h.bind (h.looks trivial) fun _ => h.ret _

theorem handed_resolve : P (resolve recipient) := by
  refine h.bind (handed_canonicalRecipient h recipient) fun recipient => ?_
  refine h.bind (h.looks trivial) fun entry => ?_
  split
  · exact h.ret _
  · refine h.bind (handed_catchAllAccount h recipient) fun account => ?_
    split
    · exact h.ret _
    · refine h.bind (handed_roleFallback h recipient) fun account => ?_
      split <;> exact h.ret _

theorem handed_route (hosted : List String) (address : String) : P (route hosted address) := by
  unfold route
  split
  · exact h.ret _
  · exact h.bind (handed_resolve h address) fun _ => h.ret _

theorem handed_hostedDomains : P hostedDomains := by
  refine h.bind (h.catches (h.bind (h.looks trivial) fun _ => h.ret _)) fun domains => ?_
  split <;> exact h.ret _

theorem handed_activeScript (svc : Services) (accountId : ℕ) : P (activeScript svc accountId) := by
  refine h.bind (h.catches (h.bind (h.looks trivial) fun _ => h.ret _)) fun scripts => ?_
  split <;> exact h.ret _

theorem handed_lookupThreads (env : Env) (a : ℕ) (ids : List String) :
    P (lookupThreads env a ids) := by
  induction ids with
  | nil => exact h.ret _
  | cons id ids ih => exact h.bind (h.looks trivial) fun _ => h.bind ih fun _ => h.ret _

theorem handed_fileInto (a : ℕ) (targets : List Mailbox) (data : MessageData) :
    P (fileInto a targets data) := by
  induction targets generalizing data with
  | nil => exact h.ret _
  | cons m ms ih => exact h.bind (h.bind (h.looks rfl) fun _ => h.ret _) fun _ => ih _

theorem handed_editOps (a : ℕ) (c : Collection) (edit : Finset ℕ → Fts.PostingEdit)
    (keys : List Fts.TermKey) : P (Fts.editOps a c edit keys) := by
  induction keys with
  | nil => exact h.ret _
  | cons k ks ih =>
    exact h.bind (h.bind (h.looks trivial) fun _ => h.ret _) fun _ => h.bind ih fun _ => h.ret _

end Lookups

/-- The property also holds of filing a message and of what follows a delivery. -/
structure Delivers (P : ⦃α : Type⦄ → Action α → Prop) (svc : Services) (raw : Bytes) : Prop
    extends Handed P where
  account (id : ℕ) : P (AccountRegistry.get id)
  files (request : DeliveryRequest) : P (deliver svc.toEnv request)
  relays (now : ℕ) (relay : ForwardRelay) : P (enqueue relay.message (relayRequest now relay))
  answers (account : Account) (recipient mailFrom : String) (now : ℕ) :
    P (respondVacation svc account recipient mailFrom raw now)

section Deliveries
variable {P : ⦃α : Type⦄ → Action α → Prop} {svc : Services} {raw : Bytes}
  (h : Delivers P svc raw)
include h

theorem handed_deliverEach (requests : List DeliveryRequest) : P (deliverEach svc requests) := by
  induction requests with
  | nil => exact h.ret _
  | cons request rest ih => exact h.bind (h.files request) fun _ => h.bind ih fun _ => h.ret _

theorem handed_enqueueEach (now : ℕ) (relays : List ForwardRelay) : P (enqueueEach now relays) := by
  induction relays with
  | nil => exact h.ret _
  | cons relay rest ih => exact h.bind (h.catches (h.relays now relay)) fun _ => ih

theorem handed_respondVacations (mailFrom : String) (now : ℕ)
    (deliveries : List ((Account × String) × DeliveryOutcome)) :
    P (respondVacations svc mailFrom raw now deliveries) := by
  induction deliveries with
  | nil => exact h.ret _
  | cons x rest ih =>
    unfold respondVacations
    split
    · exact ih
    · exact h.bind (h.answers _ _ _ _) fun _ => ih

theorem handed_fileLocally (accountId : ℕ) (mailFrom recipient : String) (now : ℕ) :
    P (fileLocally svc accountId mailFrom recipient raw now) := by
  refine h.bind (h.account accountId) fun account => ?_
  refine h.bind (handed_activeScript h.toHanded svc _) fun script => ?_
  refine h.bind (h.bind (h.bind (h.looks trivial) fun _ => h.ret _) fun _ => h.ret _) fun _ => ?_
  refine h.bind (h.bind (h.looks rfl) fun _ => h.ret _) fun documentId => ?_
  refine h.bind ?_ fun outcome => ?_
  · exact h.bind (handed_deliverEach h _) fun _ => h.bind (h.looks trivial) fun _ =>
      h.bind (h.looks rfl) fun _ => h.ret _
  · split
    · exact h.ret _
    · refine h.bind (h.bind (h.looks trivial) fun _ => handed_enqueueEach h _ _) fun _ => ?_
      exact h.bind (handed_respondVacations h _ _ _) fun _ => h.ret _

theorem handed_deliverLocal (accountId : ℕ) (mailFrom recipient : String) (now : ℕ) :
    P (deliverLocal svc accountId mailFrom recipient raw now) := by
  refine h.bind (h.catches (handed_fileLocally h accountId mailFrom recipient now)) fun r => ?_
  split <;> exact h.ret _

theorem handed_followRoutes (hosted : List String) (mailFrom : String) (now hops : ℕ)
    (target : String) : P (followRoutes svc hosted mailFrom raw now hops target) := by
  induction hops generalizing target with
  | zero => exact h.ret _
  | succ hops ih =>
    refine h.bind (h.catches (handed_route h.toHanded hosted target)) fun found => ?_
    split
    · exact h.bind (handed_deliverLocal h _ _ _ _) fun _ => h.ret _
    · exact ih _
    · exact h.ret _
    · exact h.ret _
    · exact h.ret _

end Deliveries

end IrixMail.Smtp

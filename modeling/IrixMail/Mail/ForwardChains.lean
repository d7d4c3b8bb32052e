import IrixMail.Core.Utf8
import IrixMail.Directory.Addresses
import IrixMail.Mail.Deliver

/-!
# Chains of forwarded copies

Every address has its destinations: those of its account's forwarding and those that its
script redirects to. A copy that goes to such an address is delivered there and may be
sent on again. What keeps this from going round is the trail of `Delivered-To` headers:
the address of each delivery is written in front of the message, and no copy goes to an
address that the trail names.
-/

namespace IrixMail.Mail
open Directory List

def trail (env : Env) (raw : Bytes) : List String :=
  ((env.parse raw).map ParsedMail.deliveredTo).getD []

/-- The parser returns what `prependDeliveredTo` has written, and what was there before. -/
def ReadsTrail (env : Env) : Prop :=
  ∀ address raw, trail env (prependDeliveredTo address raw) =
    collapseFolding address :: trail env raw

/-- Where the mail of the local addresses goes on to. -/
structure Routing where
  hosted : List String
  forwarding : String → Forwarding
  redirects : String → List String

namespace Routing

def destinations (r : Routing) (a : String) : List String :=
  (r.redirects a ++ (r.forwarding a).destinations).map normalizeAddress

def addresses (r : Routing) : List String := (r.hosted.flatMap r.destinations).dedup

def SendsTo (r : Routing) (a b : String) : Prop := a ∈ r.hosted ∧ b ∈ r.destinations a

variable (env : Env) (r : Routing)

def relaysOf (delivery : ForwardRelay) : List ForwardRelay :=
  let a := normalizeAddress delivery.rcptTo
  if a ∈ r.hosted then
    forwardTo env (r.redirects a) delivery.rcptTo delivery.mailFrom delivery.message ++
      (planForward env (r.forwarding a) delivery.rcptTo delivery.mailFrom delivery.message).relays
  else []

/-- Deliveries, each of a copy that the one before has sent on. -/
def Chain (first : ForwardRelay) (others : List ForwardRelay) : Prop :=
  (first :: others).IsChain fun x y => y ∈ r.relaysOf env x

/-- The deliveries that come `n` steps after the first. -/
def generation : ℕ → ForwardRelay → List ForwardRelay
  | 0, first => [first]
  | n + 1, first => (r.relaysOf env first).flatMap (generation n)

/-- No address is sent to twice in a chain, so that a chain is no longer than there are
addresses, and the deliveries come to an end. -/
structure LoopFree : Prop where
  once : ∀ first others, r.Chain env first others → (others.map ForwardRelay.rcptTo).Nodup
  bounded : ∀ first others, r.Chain env first others →
    (first :: others).length ≤ r.addresses.length + 1
  ends : ∀ first, r.generation env (r.addresses.length + 1) first = []

end Routing

/-! ## One delivery -/

variable {mailFrom : String} {relay : ForwardRelay} {raw : Bytes} {n : ℕ}

theorem mem_relaysTo {self : String} {already seen destinations : List String}
    {message : Bytes} (h : relay ∈ relaysTo self already mailFrom message seen destinations) :
    relay.message = message ∧ relay.rcptTo ∈ destinations.map normalizeAddress ∧
      relay.rcptTo ≠ "" ∧ relay.rcptTo ≠ self ∧ relay.rcptTo ∉ already := by
  induction destinations generalizing seen with
  | nil => cases h
  | cons destination rest ih =>
    rw [relaysTo] at h
    split_ifs at h with hskip
    · obtain ⟨hmessage, hmem, hrest⟩ := ih h
      exact ⟨hmessage, mem_cons_of_mem _ hmem, hrest⟩
    · rcases mem_cons.1 h with rfl | h
      · simp only [not_or] at hskip
        exact ⟨rfl, mem_cons_self, hskip.1, hskip.2.1, hskip.2.2.1⟩
      · obtain ⟨hmessage, hmem, hrest⟩ := ih h
        exact ⟨hmessage, mem_cons_of_mem _ hmem, hrest⟩

theorem mem_relays_planForward {env : Env} {forwarding : Forwarding}
    {deliveredTo : String} (h : relay ∈ (planForward env forwarding deliveredTo mailFrom raw).relays) :
    relay ∈ forwardTo env forwarding.destinations deliveredTo mailFrom raw := by
  unfold planForward at h
  split_ifs at h
  · cases h
  · exact h

/-- What is known of a copy: it goes to one of the addresses, not to the one it comes from
and to none of the trail, and its own trail is longer by one. -/
structure SentOn (env : Env) (r : Routing) (delivery relay : ForwardRelay) : Prop where
  sends : r.SendsTo (normalizeAddress delivery.rcptTo) relay.rcptTo
  present : relay.rcptTo ≠ ""
  other : relay.rcptTo ≠ normalizeAddress delivery.rcptTo
  unseen : relay.rcptTo ∉ deliveredToAddresses env delivery.message
  message : relay.message = prependDeliveredTo (normalizeAddress delivery.rcptTo) delivery.message

theorem sentOn_of_mem {env : Env} {r : Routing} {delivery : ForwardRelay}
    (h : relay ∈ r.relaysOf env delivery) : SentOn env r delivery relay := by
  unfold Routing.relaysOf at h
  dsimp only at h
  split_ifs at h with hhosted
  · have hsent {destinations : List String}
        (hsub : destinations ⊆ r.redirects (normalizeAddress delivery.rcptTo) ++
          (r.forwarding (normalizeAddress delivery.rcptTo)).destinations)
        (h : relay ∈ forwardTo env destinations delivery.rcptTo delivery.mailFrom
          delivery.message) : SentOn env r delivery relay := by
      obtain ⟨hmessage, hmem, hpresent, hother, hunseen⟩ := mem_relaysTo h
      exact ⟨⟨hhosted, map_subset _ hsub hmem⟩, hpresent, hother, hunseen, hmessage⟩
    rcases mem_append.1 h with h | h
    · exact hsent (subset_append_left _ _) h
    · exact hsent (subset_append_right _ _) (mem_relays_planForward h)
  · cases h

theorem Routing.SendsTo.mem_addresses {r : Routing} {a b : String} (h : r.SendsTo a b) :
    b ∈ r.addresses :=
  mem_dedup.2 (mem_flatMap.2 ⟨a, h⟩)

theorem normalize_of_mem_addresses {r : Routing} {a : String} (h : a ∈ r.addresses) :
    normalizeAddress a = a := by
  obtain ⟨b, -, h⟩ := mem_flatMap.1 (mem_dedup.1 h)
  obtain ⟨c, -, rfl⟩ := mem_map.1 h
  exact (neat_normalizeAddress c).normalize

/-- The address holds a line end, so that the trail spells it in another way. -/
def Broken (s : String) : Prop := ∃ c ∈ s.toList, c = '\r' ∨ c = '\n'

theorem collapseFolding_of_not_broken {s : String} (h : ¬ Broken s) : collapseFolding s = s := by
  have hmap : s.toList.map (fun c => if c = '\r' ∨ c = '\n' then ' ' else c) = s.toList := by
    refine (map_congr_left fun c hc => if_neg fun hbreak => ?_).trans (map_id _)
    exact h ⟨c, hc, hbreak⟩
  rw [collapseFolding, hmap, String.ofList_toList]

theorem deliveredToAddresses_eq (env : Env) (raw : Bytes) :
    deliveredToAddresses env raw = ((trail env raw).map normalizeAddress).filter (· != "") := by
  unfold deliveredToAddresses trail
  cases env.parse raw with
  | none => rfl
  | some p => rfl

/-! ## Chains -/

section
variable {env : Env} {r : Routing} (htrail : ReadsTrail env)
  (hcycles : ∀ a, Broken a → ¬ Relation.TransGen r.SendsTo a a)
include htrail

theorem deliveredToAddresses_subset (address : String) (raw : Bytes) :
    deliveredToAddresses env raw ⊆ deliveredToAddresses env (prependDeliveredTo address raw) := by
  rw [deliveredToAddresses_eq, deliveredToAddresses_eq, htrail]
  intro a ha
  obtain ⟨hmem, hne⟩ := mem_filter.1 ha
  exact mem_filter.2 ⟨mem_cons_of_mem _ hmem, hne⟩

theorem mem_deliveredToAddresses {a : String} (ha : a ∈ r.addresses) (hne : a ≠ "")
    (hbroken : ¬ Broken a) (raw : Bytes) :
    a ∈ deliveredToAddresses env (prependDeliveredTo a raw) := by
  rw [deliveredToAddresses_eq, htrail, collapseFolding_of_not_broken hbroken, map_cons,
    normalize_of_mem_addresses ha]
  exact mem_filter.2 ⟨mem_cons_self, by simpa using hne⟩

include hcycles

variable {first : ForwardRelay} {others : List ForwardRelay}

/-- What keeps a chain that is at `current` from going to the address again: the trail, or
that it is there, or that there is no way back to an address that the trail does not spell. -/
def Kept (env : Env) (r : Routing) (current : ForwardRelay) (a : String) : Prop :=
  a ∈ r.addresses ∧ a ≠ "" ∧ (a ∈ deliveredToAddresses env current.message ∨
    a = normalizeAddress current.rcptTo ∨
    Broken a ∧ Relation.TransGen r.SendsTo a (normalizeAddress current.rcptTo))

theorem Kept.next {current next : ForwardRelay} {a : String} (hsent : SentOn env r current next)
    (h : Kept env r current a) : Kept env r next a ∧ next.rcptTo ≠ a := by
  obtain ⟨haddress, hne, hwhere⟩ := h
  have hnext := normalize_of_mem_addresses hsent.sends.mem_addresses
  rw [Kept, hsent.message, hnext]
  rcases hwhere with hseen | rfl | ⟨hbroken, hway⟩
  · refine ⟨⟨haddress, hne, .inl (deliveredToAddresses_subset htrail _ _ hseen)⟩, ?_⟩
    rintro rfl
    exact hsent.unseen hseen
  · refine ⟨⟨haddress, hne, ?_⟩, hsent.other⟩
    by_cases hbroken : Broken (normalizeAddress current.rcptTo)
    · exact .inr (.inr ⟨hbroken, .single hsent.sends⟩)
    · exact .inl (mem_deliveredToAddresses htrail haddress hne hbroken _)
  · have hway := hway.tail hsent.sends
    refine ⟨⟨haddress, hne, .inr (.inr ⟨hbroken, hway⟩)⟩, ?_⟩
    rintro rfl
    exact hcycles _ hbroken hway

theorem nodup_of_chain (before : List String) (hchain : r.Chain env first others)
    (hbefore : ∀ a ∈ before, Kept env r first a) :
    (others.map ForwardRelay.rcptTo).Nodup ∧
      (∀ a ∈ others.map ForwardRelay.rcptTo, a ∈ r.addresses ∧ a ∉ before) := by
  induction others generalizing first before with
  | nil => simp
  | cons next others ih =>
    obtain ⟨hnext, hrest⟩ := isChain_cons_cons.1 hchain
    have hsent := sentOn_of_mem hnext
    have haddress := hsent.sends.mem_addresses
    have hkept : ∀ a ∈ before, Kept env r next a ∧ next.rcptTo ≠ a := fun a ha =>
      (hbefore a ha).next htrail hcycles hsent
    obtain ⟨hnodup, hothers⟩ := ih (next.rcptTo :: before) hrest (forall_mem_cons.2
      ⟨⟨haddress, hsent.present, .inr (.inl (normalize_of_mem_addresses haddress).symm)⟩,
        fun a ha => (hkept a ha).1⟩)
    refine ⟨?_, ?_⟩
    · rw [map_cons, nodup_cons]
      exact ⟨fun hmem => (hothers _ hmem).2 mem_cons_self, hnodup⟩
    · intro a ha
      rcases mem_cons.1 ha with rfl | ha
      · exact ⟨haddress, fun hmem => (hkept _ hmem).2 rfl⟩
      · exact ⟨(hothers a ha).1, fun hmem => (hothers a ha).2 (mem_cons_of_mem _ hmem)⟩

theorem length_le_of_chain
    (hchain : r.Chain env first others) : others.length ≤ r.addresses.length := by
  obtain ⟨hnodup, hothers⟩ :=
    nodup_of_chain htrail hcycles [] hchain fun a ha => absurd ha not_mem_nil
  have hle := (hnodup.subperm fun a ha => (hothers a ha).1).length_le
  rwa [length_map] at hle

end

theorem exists_chain_of_generation {env : Env} {r : Routing} {first : ForwardRelay}
    (h : r.generation env n first ≠ []) :
    ∃ others, r.Chain env first others ∧ others.length = n := by
  induction n generalizing first with
  | zero => exact ⟨[], isChain_singleton _, rfl⟩
  | succ n ih =>
    obtain ⟨last, hlast⟩ := exists_mem_of_ne_nil _ h
    obtain ⟨next, hnext, hmem⟩ := mem_flatMap.1 hlast
    obtain ⟨others, hchain, hlength⟩ := ih (ne_nil_of_mem hmem)
    exact ⟨next :: others, isChain_cons_cons.2 ⟨hnext, hchain⟩, by simp [hlength]⟩

theorem keepLocal_or_relays (env : Env) (forwarding : Forwarding) (deliveredTo mailFrom : String)
    (raw : Bytes) :
    (planForward env forwarding deliveredTo mailFrom raw).relays ≠ [] ∨
      (planForward env forwarding deliveredTo mailFrom raw).keepLocal = true := by
  unfold planForward
  split_ifs
  · exact .inr rfl
  · by_cases hrelays : forwardTo env forwarding.destinations deliveredTo mailFrom raw = []
    · exact .inr (by simp [hrelays])
    · exact .inl hrelays

def trailHeader : Bytes := utf8Bytes "Delivered-To" ++ utf8Bytes ": "

/-- The values of the `Delivered-To` lines that a message begins with. -/
def readTrail : ℕ → Bytes → List String
  | 0, _ => []
  | n + 1, raw =>
    if trailHeader <+: raw then
      let line := (raw.drop trailHeader.length).takeWhile (· != 13)
      (fromUtf8 line).getD "" :: readTrail n ((raw.drop trailHeader.length).drop (line.length + 2))
    else []

def Env.trailing : Env :=
  { Env.plain with
    parse := fun raw => (Env.plain.parse raw).map fun p =>
      { p with deliveredTo := readTrail raw.length raw } }

theorem trail_trailing (raw : Bytes) : trail .trailing raw = readTrail raw.length raw := rfl

theorem readTrail_enough {m : ℕ} (hn : raw.length ≤ n) (hm : raw.length ≤ m) :
    readTrail n raw = readTrail m raw := by
  have hheader : 0 < trailHeader.length := by
    rw [trailHeader, utf8Bytes_eq]
    decide
  have hnil (n : ℕ) : readTrail n [] = [] := by
    cases n with
    | zero => rfl
    | succ n =>
      rw [readTrail, if_neg]
      intro h
      rw [prefix_nil] at h
      rw [h] at hheader
      exact absurd hheader (by decide)
  induction n generalizing m raw with
  | zero =>
    obtain rfl := length_eq_zero_iff.1 (Nat.le_zero.1 hn)
    rw [hnil, hnil]
  | succ n ih =>
    cases m with
    | zero =>
      obtain rfl := length_eq_zero_iff.1 (Nat.le_zero.1 hm)
      rw [hnil, hnil]
    | succ m =>
      simp only [readTrail]
      split_ifs with h
      · rw [ih]
        · simp only [length_drop]
          omega
        · simp only [length_drop]
          omega
      · rfl

theorem not_mem_utf8Bytes_collapseFolding (address : String) :
    ∀ b ∈ utf8Bytes (collapseFolding address), (b != 13) = true := by
  intro b hb
  rw [bne_iff_ne]
  rintro rfl
  obtain ⟨c, hc, hnat⟩ := (mem_utf8Bytes (by decide)).1 hb
  rw [collapseFolding, String.toList_ofList] at hc
  obtain ⟨c', -, rfl⟩ := mem_map.1 hc
  split_ifs at hnat with h
  · exact absurd hnat (by decide)
  · exact h (.inl (Char.ext (UInt32.toNat_inj.1 hnat)))

theorem readsTrail_trailing : ReadsTrail .trailing := by
  intro address raw
  have hprefix : trailHeader <+: prependDeliveredTo address raw :=
    ⟨utf8Bytes (collapseFolding address) ++ (utf8Bytes "\r\n" ++ raw), by
      simp only [trailHeader, prependDeliveredTo, append_assoc]⟩
  have hcrlf : utf8Bytes "\r\n" = [13, 10] := by
    rw [utf8Bytes_eq]
    decide
  have hdrop : (prependDeliveredTo address raw).drop trailHeader.length =
      utf8Bytes (collapseFolding address) ++ 13 :: 10 :: raw := by
    rw [prependDeliveredTo, hcrlf, append_assoc, append_assoc]
    exact drop_left
  have hline : (utf8Bytes (collapseFolding address) ++ 13 :: 10 :: raw).takeWhile (· != 13) =
      utf8Bytes (collapseFolding address) := by
    rw [takeWhile_append_of_pos (not_mem_utf8Bytes_collapseFolding address),
      takeWhile_cons_of_neg (by simp), append_nil]
  have hrest : (utf8Bytes (collapseFolding address) ++ 13 :: 10 :: raw).drop
      ((utf8Bytes (collapseFolding address)).length + 2) = raw := by
    simp
  obtain ⟨n, hn⟩ : ∃ n, (prependDeliveredTo address raw).length = n + 1 ∧ raw.length ≤ n := by
    refine ⟨(prependDeliveredTo address raw).length - 1, ?_, ?_⟩ <;>
      simp only [prependDeliveredTo, hcrlf, length_append, length_cons] <;> omega
  rw [trail_trailing, trail_trailing, hn.1, readTrail, if_pos hprefix]
  dsimp only
  rw [hdrop, hline, hrest, fromUtf8_utf8Bytes, Option.getD_some, readTrail_enough hn.2 le_rfl]

def mutualRouting (a b : String) : Routing where
  hosted := [a, b]
  forwarding _ := ⟨[], true⟩
  redirects x := if x = a then [b] else [a]

section
variable {a b : String} (m : Bytes)

/-- A copy goes on to the other address as long as the trail does not spell it the way
the redirect does. -/
theorem mem_relaysOf_mutualRouting {x y : String} (hx : normalizeAddress x = x)
    (hy : normalizeAddress y = y) (hne : y ≠ "" ∧ y ≠ x)
    (hxy : x = a ∧ y = b ∨ x = b ∧ y = a) (hab : a ≠ b)
    (htrail : y ∉ deliveredToAddresses .trailing m) :
    ⟨"", y, prependDeliveredTo x m⟩ ∈ (mutualRouting a b).relaysOf .trailing ⟨"", x, m⟩ := by
  have hhosted : x ∈ (mutualRouting a b).hosted := by
    rcases hxy with ⟨rfl, -⟩ | ⟨rfl, -⟩ <;> simp [mutualRouting]
  have hredirects : (mutualRouting a b).redirects x = [y] := by
    rcases hxy with ⟨rfl, rfl⟩ | ⟨rfl, rfl⟩
    · simp [mutualRouting]
    · simp [mutualRouting]
  unfold Routing.relaysOf
  simp only [hx, hhosted, if_true, hredirects]
  refine mem_append_left _ ?_
  have hself : toAsciiLowercase (trim x) = x := hx
  have hother : toAsciiLowercase (trim y) = y := hy
  simp [forwardTo, relaysTo, hself, hother, hne.1, hne.2, htrail]

end

end IrixMail.Mail

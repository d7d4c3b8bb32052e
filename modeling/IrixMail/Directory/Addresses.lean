import IrixMail.Directory.Maintenance
import IrixMail.Library.Claims

/-!
# What the address index has to hold

The index is a table of claims. An account claims its primary address and its aliases,
a domain that has a catch-all account claims the address that starts with an at sign.
Addresses are compared in a normal form: trimmed and in lower case.
-/

namespace IrixMail
open List

section Edges
variable {p : Char → Bool}

/-- The text neither starts nor ends with a character of the kind. -/
def Edged (p : Char → Bool) (cs : List Char) : Prop :=
  (∀ c ∈ cs.head?, p c = false) ∧ ∀ c ∈ cs.getLast?, p c = false

theorem head_dropWhile (cs : List Char) : ∀ c ∈ (cs.dropWhile p).head?, p c = false := by
  intro c hc
  have h := head?_dropWhile_not p cs
  rwa [Option.mem_def.1 hc] at h

theorem dropWhile_of_head {cs : List Char} (h : ∀ c ∈ cs.head?, p c = false) :
    cs.dropWhile p = cs := by
  cases cs with
  | nil => rfl
  | cons c cs => simp [h c rfl]

theorem edged_trim (cs : List Char) : Edged p (trimEnd p (trimStart p cs)) := by
  unfold trimEnd trimStart
  refine ⟨?_, ?_⟩
  · -- What the end loses does not change the first character, unless all is lost.
    have hstart := head_dropWhile (p := p) cs
    generalize cs.dropWhile p = rest at hstart ⊢
    cases rest with
    | nil => simp
    | cons c rest =>
      have hc := hstart c rfl
      rw [reverse_cons, dropWhile_append]
      split
      · simp [hc]
      · simpa using hc
  · rw [getLast?_reverse]
    exact head_dropWhile _

theorem trim_of_edged {cs : List Char} (h : Edged p cs) : trimEnd p (trimStart p cs) = cs := by
  have hlast : ∀ c ∈ cs.reverse.head?, p c = false := by
    rw [head?_reverse]
    exact h.2
  rw [trimStart, dropWhile_of_head h.1, trimEnd, dropWhile_of_head hlast, reverse_reverse]

theorem Edged.append {cs ds : List Char} (h : Edged p cs) (h' : Edged p ds) :
    Edged p (cs ++ ds) := by
  constructor
  · rw [head?_append]
    intro c hc
    rcases Option.or_eq_some_iff.1 hc with hc | ⟨-, hc⟩
    · exact h.1 c hc
    · exact h'.1 c hc
  · rw [getLast?_append]
    intro c hc
    rcases Option.or_eq_some_iff.1 hc with hc | ⟨-, hc⟩
    · exact h'.2 c hc
    · exact h.2 c hc

theorem Edged.map {cs : List Char} (h : Edged p cs) {f : Char → Char} (hf : ∀ c, p (f c) = p c) :
    Edged p (cs.map f) := by
  constructor
  · rw [head?_map]
    intro c hc
    obtain ⟨d, hd, rfl⟩ := Option.map_eq_some_iff.1 hc
    exact (hf d).trans (h.1 d hd)
  · rw [getLast?_map]
    intro c hc
    obtain ⟨d, hd, rfl⟩ := Option.map_eq_some_iff.1 hc
    exact (hf d).trans (h.2 d hd)

end Edges

theorem toLower_toLower (c : Char) : c.toLower.toLower = c.toLower := by
  refine Char.toNat_inj.1 ?_
  rw [toNat_toLower, toNat_toLower]
  split_ifs <;> omega

theorem isWhitespace_toLower (c : Char) : isWhitespace c.toLower = isWhitespace c := by
  unfold isWhitespace
  rw [toNat_toLower]
  split
  next h =>
    have h1 : ∀ n : ℕ, 65 ≤ n → n ≤ 122 → ((9 ≤ n && n ≤ 13) || n = 0x20 || n = 0x85 || n = 0xa0 ||
        n = 0x1680 || (0x2000 ≤ n && n ≤ 0x200a) || n = 0x2028 || n = 0x2029 || n = 0x202f ||
        n = 0x205f || n = 0x3000) = false := by
      simp
      omega
    rw [h1 _ (by omega) (by omega), h1 _ h.1 (by omega)]
  next h => rfl

namespace Directory
open Library Prog Store

/-! ## Normal addresses -/

/-- A text that `normalizeAddress` leaves alone. -/
structure Neat (s : String) : Prop where
  edged : Edged isWhitespace s.toList
  lower : s.toList.map Char.toLower = s.toList

theorem neat_normalizeAddress (s : String) : Neat (normalizeAddress s) := by
  unfold normalizeAddress toAsciiLowercase trim
  constructor
  · simp only [String.toList_ofList]
    exact (edged_trim s.toList).map isWhitespace_toLower
  · simp only [String.toList_ofList, map_map]
    exact map_congr_left fun c _ => toLower_toLower c

theorem Neat.normalize {s : String} (h : Neat s) : normalizeAddress s = s := by
  unfold normalizeAddress toAsciiLowercase trim
  rw [String.toList_ofList, trim_of_edged h.edged, h.lower, String.ofList_toList]

theorem Neat.append {s t : String} (h : Neat s) (h' : Neat t) : Neat (s ++ t) := by
  constructor
  · rw [String.toList_append]
    exact h.edged.append h'.edged
  · rw [String.toList_append, map_append, h.lower, h'.lower]

theorem neat_at : Neat "@" := ⟨by constructor <;> simp <;> decide, by decide⟩

def StartsAt (address : String) : Prop := address.toList.head? = some '@'

instance (address : String) : Decidable (StartsAt address) :=
  inferInstanceAs (Decidable (_ = _))

theorem startsAt_catchAllAddress (domain : String) :
    StartsAt (AddressIndex.catchAllAddress domain) := by
  simp [StartsAt, AddressIndex.catchAllAddress]

def primaryAddress (localPart domain : String) : String := localPart ++ "@" ++ domain

theorem normalize_primaryAddress {localPart domain : String} (h : Neat localPart)
    (h' : Neat domain) :
    normalizeAddress (primaryAddress localPart domain) = primaryAddress localPart domain :=
  ((h.append neat_at).append h').normalize

theorem not_startsAt_primaryAddress {localPart domain : String} (hne : localPart ≠ "")
    (h : ¬ StartsAt localPart) : ¬ StartsAt (primaryAddress localPart domain) := by
  unfold StartsAt primaryAddress at *
  rw [String.toList_append, String.toList_append]
  cases hhead : localPart.toList with
  | nil => exact absurd (String.toList_eq_nil_iff.1 hhead) hne
  | cons c cs =>
    rw [hhead] at h
    simpa using h

/-! ## The claims -/

/-- The addresses of an account as `addressesOf` collects them, in normal form. -/
def addressesIn (s : Records) (account : Account) : List String :=
  ((account.aliases.filter fun x => trim x != "") ++
    ((s.lookup (.domain account.domainId)).map fun domain =>
      primaryAddress account.localPart domain.name).toList).map normalizeAddress

variable {account : Account} {x : String} {new : Option Account} {id : ℕ}

theorem mem_addressesIn {s : Records} :
    x ∈ addressesIn s account ↔ (∃ y ∈ account.aliases, trim y ≠ "" ∧ normalizeAddress y = x) ∨
      ∃ domain, s.lookup (.domain account.domainId) = some domain ∧
        normalizeAddress (primaryAddress account.localPart domain.name) = x := by
  unfold addressesIn
  simp [and_assoc]

theorem addressesIn_congr {s t : Records}
    (h : t.lookup (.domain account.domainId) = s.lookup (.domain account.domainId)) :
    addressesIn t account = addressesIn s account := by
  rw [addressesIn, h, addressesIn]

def accountClaims (s : Records) (id : ℕ) (x : String) (entry : AddressEntry) : Prop :=
  ∃ account, s.lookup (.account id) = some account ∧ x ∈ addressesIn s account ∧
    entry = ⟨x, .account id⟩

def catchAllClaims (s : Records) (id : ℕ) (x : String) (entry : AddressEntry) : Prop :=
  ∃ domain target, s.lookup (.domain id) = some domain ∧ domain.catchAllAccountId = some target ∧
    x = AddressIndex.catchAllAddress domain.name ∧ entry = ⟨x, .account target⟩

def entryIn (s : Records) (x : String) : Option AddressEntry := s.lookup (.addressEntry x)

/-- The names that an account keeps: no alias and no local part looks like a catch-all. -/
structure WellNamed (account : Account) : Prop where
  neat : Neat account.localPart
  nonempty : account.localPart ≠ ""
  localPart : ¬ StartsAt account.localPart
  nonblank : ∀ x ∈ account.aliases, trim x ≠ ""
  aliases : ∀ x ∈ account.aliases, ¬ StartsAt (normalizeAddress x)

/-- The index is right, and so is what it rests on. -/
structure Consistent (s : Records) : Prop where
  account : ∀ id account, s.lookup (.account id) = some account →
    account.id = id ∧ WellNamed account ∧ s.lookup (.domain account.domainId) ≠ none
  domain : ∀ id domain, s.lookup (.domain id) = some domain →
    domain.id = id ∧ Neat domain.name ∧ s.lookup (.domainName domain.name) = some id
  target : ∀ id domain target, s.lookup (.domain id) = some domain →
    domain.catchAllAccountId = some target → s.lookup (.account target) ≠ none
  addresses : Claims.Tracks {x | ¬ StartsAt x} (entryIn s) (accountClaims s)
  catchAlls : Claims.Tracks {x | StartsAt x} (entryIn s) (catchAllClaims s)

section
variable {s t : Records}

theorem WellNamed.not_startsAt (h : WellNamed account)
    (hdomains : ∀ id domain, s.lookup (.domain id) = some domain → Neat domain.name)
    (hx : x ∈ addressesIn s account) : ¬ StartsAt x := by
  obtain ⟨y, hy, rfl⟩ := mem_map.1 hx
  rcases mem_append.1 hy with hy | hy
  · exact h.aliases y (mem_of_mem_filter hy)
  · obtain ⟨domain, hdomain, rfl⟩ := Option.map_eq_some_iff.1 (Option.mem_toList.1 hy)
    rw [normalize_primaryAddress h.neat (hdomains _ _ hdomain)]
    exact not_startsAt_primaryAddress h.nonempty h.localPart

theorem Consistent.entry (h : Consistent s) (haccount : s.lookup (.account id) = some account)
    (hx : x ∈ addressesIn s account) : entryIn s x = some ⟨x, .account id⟩ := by
  have hshape := (h.account id account haccount).2.1.not_startsAt
    (fun id domain hd => (h.domain id domain hd).2.1) hx
  exact (h.addresses x hshape _).2 ⟨id, account, haccount, hx, rfl⟩

theorem Consistent.owner_unique (h : Consistent s) {id' : ℕ} {account' : Account}
    (haccount : s.lookup (.account id) = some account)
    (haccount' : s.lookup (.account id') = some account')
    (hx : x ∈ addressesIn s account) (hx' : x ∈ addressesIn s account') : id = id' := by
  have hentry := (h.entry haccount hx).symm.trans (h.entry haccount' hx')
  simpa using hentry

def addressesOfStored (s : Records) (account : Option Account) : List String :=
  account.elim [] (addressesIn s)

/-- An account is stored, changed or removed, and the index follows. -/
structure Readdressed (id : ℕ) (new : Option Account) (s t : Records) : Prop where
  self : t.lookup (.account id) = new
  others : ∀ o ≠ id, t.lookup (.account o) = s.lookup (.account o)
  domains : ∀ d, t.lookup (.domain d) = s.lookup (.domain d)
  names : ∀ name, t.lookup (.domainName name) = s.lookup (.domainName name)
  entry : ∀ x, entryIn t x =
    if x ∈ addressesOfStored s new then some ⟨x, .account id⟩
    else if x ∈ addressesOfStored s (s.lookup (.account id)) then none else entryIn s x
  free : ∀ x ∈ addressesOfStored s new, x ∉ addressesOfStored s (s.lookup (.account id)) →
    ∀ e, entryIn s x = some e → e.accountId = some id

theorem accountClaims_iff {entry : AddressEntry} : accountClaims s id x entry ↔
      x ∈ addressesOfStored s (s.lookup (.account id)) ∧ entry = ⟨x, .account id⟩ := by
  unfold accountClaims
  cases s.lookup (.account id) with
  | none => simp [addressesOfStored]
  | some account => simp [addressesOfStored]

theorem Readdressed.addressesIn_eq (h : Readdressed id new s t)
    (account : Account) : addressesIn t account = addressesIn s account :=
  addressesIn_congr (h.domains _)

theorem Readdressed.claims_self (h : Readdressed id new s t) {entry : AddressEntry} :
    accountClaims t id x entry ↔ x ∈ addressesOfStored s new ∧ entry = ⟨x, .account id⟩ := by
  have hsame : addressesOfStored t new = addressesOfStored s new := by
    cases new with
    | none => rfl
    | some account => exact h.addressesIn_eq account
  rw [accountClaims_iff, h.self, hsame]

theorem Readdressed.tracks (h : Readdressed id new s t) (hs : Consistent s) :
    Claims.Tracks {x | ¬ StartsAt x} (entryIn t) (accountClaims t) := by
  refine hs.addresses.reassigned (R := {id}) ⟨?_, ?_, ?_, ?_, ?_⟩
  · intro o ho x entry
    unfold accountClaims
    simp only [h.others o ho, h.addressesIn_eq]
  · rintro x - o rfl entry hclaim
    obtain ⟨hx, rfl⟩ := h.claims_self.1 hclaim
    rw [h.entry, if_pos hx]
  · rintro x - hfree ⟨o, rfl, entry, hclaim⟩
    have hx : x ∉ addressesOfStored s new := fun hx => hfree _ rfl _ (h.claims_self.2 ⟨hx, rfl⟩)
    rw [h.entry, if_neg hx, if_pos (accountClaims_iff.1 hclaim).1]
  · rintro x - hfree hnone
    have hx : x ∉ addressesOfStored s new := fun hx => hfree _ rfl _ (h.claims_self.2 ⟨hx, rfl⟩)
    have hx' : x ∉ addressesOfStored s (s.lookup (.account id)) := fun hx =>
      hnone _ rfl _ (accountClaims_iff.2 ⟨hx, rfl⟩)
    rw [h.entry, if_neg hx, if_neg hx']
  · rintro x hx o rfl entry hclaim o' ho' entry' hclaim'
    have hentry' := (hs.addresses x hx entry').2 ⟨o', hclaim'⟩
    obtain ⟨-, rfl⟩ := accountClaims_iff.1 hclaim'
    have howned : x ∈ addressesOfStored s (s.lookup (.account o)) → False := by
      intro hmem
      have hentry := (hs.addresses x hx _).2 ⟨o, accountClaims_iff.2 ⟨hmem, rfl⟩⟩
      rw [hentry] at hentry'
      exact ho' (by simpa using hentry'.symm)
    rcases hclaim with hclaim | hclaim
    · exact howned (accountClaims_iff.1 hclaim).1
    · have hid := h.free x (h.claims_self.1 hclaim).1 howned _ hentry'
      exact ho' (Option.some.inj hid)

theorem Readdressed.consistent (h : Readdressed id new s t) (hs : Consistent s)
    (hnew : ∀ account, new = some account →
      account.id = id ∧ WellNamed account ∧ s.lookup (.domain account.domainId) ≠ none)
    (htarget : new = none → ∀ d domain, s.lookup (.domain d) = some domain →
      domain.catchAllAccountId ≠ some id) : Consistent t where
  account o account ho := by
    rw [h.domains]
    by_cases hid : o = id
    · subst hid
      exact hnew account (h.self ▸ ho)
    · rw [h.others o hid] at ho
      exact hs.account o account ho
  domain d domain hd := by
    rw [h.names]
    rw [h.domains] at hd
    exact hs.domain d domain hd
  target d domain target hd htgt := by
    rw [h.domains] at hd
    by_cases hid : target = id
    · subst hid
      rw [h.self]
      exact fun hnone => htarget hnone d domain hd htgt
    · rw [h.others target hid]
      exact hs.target d domain target hd htgt
  addresses := h.tracks hs
  catchAlls := by
    have hneat : ∀ id domain, s.lookup (.domain id) = some domain → Neat domain.name :=
      fun id domain hd => (hs.domain id domain hd).2.1
    refine hs.catchAlls.congr (fun x hx => ?_) fun d x entry => ?_
    · -- The addresses of accounts do not start with an at sign.
      have hnew' : x ∉ addressesOfStored s new := by
        cases new with
        | none => simp [addressesOfStored]
        | some account => exact fun hmem => (hnew account rfl).2.1.not_startsAt hneat hmem hx
      have hold : x ∉ addressesOfStored s (s.lookup (.account id)) := by
        cases hid : s.lookup (.account id) with
        | none => simp [addressesOfStored]
        | some account =>
          exact fun hmem => (hs.account id account hid).2.1.not_startsAt hneat hmem hx
      rw [h.entry, if_neg hnew', if_neg hold]
    · unfold catchAllClaims
      simp only [h.domains]

def catchAllEntry (domain : Option Domain) (x : String) : Option AddressEntry := do
  let domain ← domain
  let target ← domain.catchAllAccountId
  if x = AddressIndex.catchAllAddress domain.name then some ⟨x, .account target⟩ else none

theorem catchAllClaims_iff {entry : AddressEntry} :
    catchAllClaims s id x entry ↔ catchAllEntry (s.lookup (.domain id)) x = some entry := by
  unfold catchAllClaims catchAllEntry
  cases s.lookup (.domain id) with
  | none => simp
  | some domain =>
    cases htarget : domain.catchAllAccountId with
    | none => simp [htarget]
    | some target =>
      simp only [htarget, Option.some.injEq, Option.bind_eq_bind, Option.bind_some,
        Option.ite_none_right_eq_some]
      constructor
      · rintro ⟨_, _, rfl, htarget', hx, rfl⟩
        rw [htarget] at htarget'
        exact ⟨hx, by rw [Option.some.inj htarget']⟩
      · rintro ⟨hx, rfl⟩
        exact ⟨domain, target, rfl, htarget, hx, rfl⟩

def PrimaryAt (s : Records) (id : ℕ) (name : String) (a : ℕ) (x : String) : Prop :=
  ∃ account, s.lookup (.account a) = some account ∧ account.domainId = id ∧
    normalizeAddress (primaryAddress account.localPart name) = x

/-- A domain is stored, changed or removed, and the index follows. -/
structure Redomained (id : ℕ) (old new : Option Domain) (s t : Records) : Prop where
  before : s.lookup (.domain id) = old
  self : t.lookup (.domain id) = new
  others : ∀ d ≠ id, t.lookup (.domain d) = s.lookup (.domain d)
  accounts : ∀ a, t.lookup (.account a) = s.lookup (.account a)
  free : ∀ d, new = some d → ∀ o, s.lookup (.domainName d.name) = some o → o = id
  name : ∀ d, new = some d → t.lookup (.domainName d.name) = some id
  names : ∀ n, (∀ d, old = some d → d.name ≠ n) → (∀ d, new = some d → d.name ≠ n) →
    t.lookup (.domainName n) = s.lookup (.domainName n)
  catchAll : ∀ x, StartsAt x → entryIn t x =
    (catchAllEntry new x).or (if (catchAllEntry old x).isSome then none else entryIn s x)
  moved : ∀ d, new = some d → ∀ a x, PrimaryAt s id d.name a x → entryIn t x = some ⟨x, .account a⟩
  left : ∀ d, old = some d → ∀ a x, PrimaryAt s id d.name a x →
    (∀ d', new = some d' → ∀ b, ¬ PrimaryAt s id d'.name b x) → entryIn t x = none
  kept : ∀ x, ¬ StartsAt x → (∀ d, old = some d ∨ new = some d → ∀ a, ¬ PrimaryAt s id d.name a x) →
    entryIn t x = entryIn s x
  freeAddress : ∀ d, new = some d → ∀ a x, PrimaryAt s id d.name a x →
    ∀ e, entryIn s x = some e → e.accountId = some a
  occupied : ∀ a account, s.lookup (.account a) = some account → account.domainId = id →
    old ≠ none ∧ new ≠ none

namespace Redomained
variable {id : ℕ} {old new : Option Domain} (h : Redomained id old new s t) (hs : Consistent s)
include h hs

theorem name_ne {o : ℕ} (ho : o ≠ id) {other : Domain} (hother : s.lookup (.domain o) = some other)
    {d : Domain} (hd : old = some d ∨ new = some d) : d.name ≠ other.name := by
  intro hname
  have hindex := (hs.domain o other hother).2.2
  rw [← hname] at hindex
  rcases hd with hd | hd
  · have hself := (hs.domain id d (h.before.trans hd)).2.2
    exact ho (Option.some.inj (hindex.symm.trans hself))
  · exact ho (h.free d hd o hindex)

theorem tracks_catchAlls : Claims.Tracks {x | StartsAt x} (entryIn t) (catchAllClaims t) := by
  have hself : ∀ x entry, catchAllClaims t id x entry ↔ catchAllEntry new x = some entry :=
    fun x entry => by rw [catchAllClaims_iff, h.self]
  have hbefore : ∀ x entry, catchAllClaims s id x entry ↔ catchAllEntry old x = some entry :=
    fun x entry => by rw [catchAllClaims_iff, h.before]
  refine hs.catchAlls.reassigned (R := {id}) ⟨?_, ?_, ?_, ?_, ?_⟩
  · intro o ho x entry
    rw [catchAllClaims_iff, catchAllClaims_iff, h.others o ho]
  · rintro x hx o rfl entry hclaim
    rw [h.catchAll x hx, (hself x entry).1 hclaim]
    rfl
  · rintro x hx hfree ⟨o, rfl, entry, hclaim⟩
    have hnone : catchAllEntry new x = none :=
      Option.eq_none_iff_forall_ne_some.2 fun e he => hfree _ rfl e ((hself x e).2 he)
    rw [h.catchAll x hx, hnone, (hbefore x entry).1 hclaim]
    rfl
  · rintro x hx hfree hunclaimed
    have hnone : catchAllEntry new x = none :=
      Option.eq_none_iff_forall_ne_some.2 fun e he => hfree _ rfl e ((hself x e).2 he)
    have hnone' : catchAllEntry old x = none :=
      Option.eq_none_iff_forall_ne_some.2 fun e he => hunclaimed _ rfl e ((hbefore x e).2 he)
    rw [h.catchAll x hx, hnone, hnone']
    rfl
  · rintro x - o rfl entry hclaim o' ho' entry' ⟨other, -, hother, -, hx', -⟩
    have hnames : ∃ d, (old = some d ∨ new = some d) ∧ x = AddressIndex.catchAllAddress d.name := by
      rcases hclaim with ⟨d, _, hd, _, hx, _⟩ | ⟨d, _, hd, _, hx, _⟩
      · exact ⟨d, .inl (h.before.symm.trans hd), hx⟩
      · exact ⟨d, .inr (h.self.symm.trans hd), hx⟩
    obtain ⟨d, hd, hx⟩ := hnames
    refine h.name_ne hs ho' hother hd ?_
    rw [hx] at hx'
    exact (String.append_right_inj _).1 hx'

omit hs in
theorem mem_after (hdomain : account.domainId = id) :
    x ∈ addressesIn t account ↔ (∃ y ∈ account.aliases, trim y ≠ "" ∧ normalizeAddress y = x) ∨
      ∃ d, new = some d ∧ normalizeAddress (primaryAddress account.localPart d.name) = x := by
  rw [mem_addressesIn, hdomain, h.self]

omit hs in
theorem mem_before (hdomain : account.domainId = id) :
    x ∈ addressesIn s account ↔ (∃ y ∈ account.aliases, trim y ≠ "" ∧ normalizeAddress y = x) ∨
      ∃ d, old = some d ∧ normalizeAddress (primaryAddress account.localPart d.name) = x := by
  rw [mem_addressesIn, hdomain, h.before]

/-- An address that an account of the domain had and does not get is free afterwards;
one that it gets is its own. -/
theorem entry_of_mem {a : ℕ} (haccount : s.lookup (.account a) = some account)
    (hdomain : account.domainId = id)
    (hapart : ∀ d d', old = some d → new = some d' → d.name ≠ d'.name → ∀ y ∈ account.aliases,
      normalizeAddress y ≠ normalizeAddress (primaryAddress account.localPart d.name))
    (hshape : ¬ StartsAt x) (hx : x ∈ addressesIn t account) :
    entryIn t x = some ⟨x, .account a⟩ := by
  by_cases hmoved : ∃ d, new = some d ∧ ∃ b, PrimaryAt s id d.name b x
  · obtain ⟨d, hd, b, hb⟩ := hmoved
    rcases (h.mem_after hdomain).1 hx with halias | ⟨d', hd', hx⟩
    · have hown := hs.entry haccount ((h.mem_before hdomain).2 (.inl halias))
      have hid := h.freeAddress d hd b x hb _ hown
      rw [h.moved d hd b x hb]
      exact congrArg (fun i => some (AddressEntry.mk x (.account i))) (Option.some.inj hid).symm
    · exact h.moved d' hd' a x ⟨account, haccount, hdomain, hx⟩
  · rcases (h.mem_after hdomain).1 hx with halias | ⟨d', hd', hx⟩
    · have hmem := (h.mem_before hdomain).2 (.inl halias)
      rw [h.kept x hshape ?_]
      · exact hs.entry haccount hmem
      · -- Nor is the alias an old primary address: it could only be the account's own.
        rintro d (hd | hd) b hb
        · obtain ⟨account', haccount', hdomain', hx'⟩ := hb
          obtain rfl := hs.owner_unique haccount haccount' hmem
            ((h.mem_before hdomain').2 (.inr ⟨d, hd, hx'⟩))
          obtain rfl := Option.some.inj (haccount.symm.trans haccount')
          obtain ⟨d', hd'⟩ := Option.ne_none_iff_exists'.1 (h.occupied a account haccount hdomain).2
          obtain ⟨y, hy, -, hyx⟩ := halias
          have hname : d.name = d'.name := by
            by_contra hne
            exact hapart d d' hd hd' hne y hy (hyx.trans hx'.symm)
          exact hmoved ⟨d', hd', a, account, haccount, hdomain, hname ▸ hx'⟩
        · exact hmoved ⟨d, hd, b, hb⟩
    · exact (hmoved ⟨d', hd', a, account, haccount, hdomain, hx⟩).elim

/-- The accounts of the domain get their new primary addresses; `hapart` keeps the old ones
from being aliases as well. -/
theorem tracks_addresses
    (hapart : ∀ a account, s.lookup (.account a) = some account → account.domainId = id →
      ∀ d d', old = some d → new = some d' → d.name ≠ d'.name →
      ∀ y ∈ account.aliases, normalizeAddress y ≠
        normalizeAddress (primaryAddress account.localPart d.name)) :
    Claims.Tracks {x | ¬ StartsAt x} (entryIn t) (accountClaims t) := by
  refine hs.addresses.reassigned
    (R := {a | ∃ account, s.lookup (.account a) = some account ∧ account.domainId = id})
    ⟨?_, ?_, ?_, ?_, ?_⟩
  · intro o ho x entry
    unfold accountClaims
    rw [h.accounts]
    refine exists_congr fun account => and_congr_right fun haccount => ?_
    have hdomain : account.domainId ≠ id := fun hid => ho ⟨account, haccount, hid⟩
    rw [addressesIn_congr (h.others _ hdomain)]
  · rintro x hx o ⟨account, haccount, hdomain⟩ entry ⟨account', haccount', hmem, rfl⟩
    rw [h.accounts, haccount] at haccount'
    obtain rfl := Option.some.inj haccount'
    exact h.entry_of_mem hs haccount hdomain (hapart o account haccount hdomain) hx hmem
  · rintro x - hfree ⟨o, ⟨account, haccount, hdomain⟩, entry, account', haccount', hmem, -⟩
    rw [haccount] at haccount'
    obtain rfl := Option.some.inj haccount'
    have hnot : ∀ b account, s.lookup (.account b) = some account → account.domainId = id →
        x ∉ addressesIn t account := fun b account hb hd hmem =>
      hfree b ⟨account, hb, hd⟩ _ ⟨account, (h.accounts b).trans hb, hmem, rfl⟩
    rcases (h.mem_before hdomain).1 hmem with halias | ⟨d, hd, hx⟩
    · exact (hnot o account haccount hdomain ((h.mem_after hdomain).2 (.inl halias))).elim
    · refine h.left d hd o x ⟨account, haccount, hdomain, hx⟩ fun d' hd' b hb => ?_
      obtain ⟨account', haccount', hdomain', hx'⟩ := hb
      exact hnot b account' haccount' hdomain' ((h.mem_after hdomain').2 (.inr ⟨d', hd', hx'⟩))
  · intro x hx hfree hunclaimed
    refine h.kept x hx fun d hd b hb => ?_
    obtain ⟨account, haccount, hdomain, hxb⟩ := hb
    rcases hd with hd | hd
    · exact hunclaimed b ⟨account, haccount, hdomain⟩ _ ⟨account, haccount,
        (h.mem_before hdomain).2 (.inr ⟨d, hd, hxb⟩), rfl⟩
    · exact hfree b ⟨account, haccount, hdomain⟩ _ ⟨account, (h.accounts b).trans haccount,
        (h.mem_after hdomain).2 (.inr ⟨d, hd, hxb⟩), rfl⟩
  · rintro x hx o ⟨account, haccount, hdomain⟩ entry hclaim o' ho' entry' hclaim'
    have hentry' := (hs.addresses x hx entry').2 ⟨o', hclaim'⟩
    obtain ⟨account', haccount', hmem', rfl⟩ := hclaim'
    have hbefore : x ∉ addressesIn s account := by
      intro hmem
      obtain rfl := hs.owner_unique haccount haccount' hmem hmem'
      exact ho' ⟨account, haccount, hdomain⟩
    rcases hclaim with ⟨account₁, haccount₁, hmem, -⟩ | ⟨account₁, haccount₁, hmem, -⟩
    · rw [haccount] at haccount₁
      exact hbefore (Option.some.inj haccount₁ ▸ hmem)
    · rw [h.accounts, haccount] at haccount₁
      obtain rfl := Option.some.inj haccount₁
      rcases (h.mem_after hdomain).1 hmem with halias | ⟨d, hd, hxd⟩
      · exact hbefore ((h.mem_before hdomain).2 (.inl halias))
      · have hid := h.freeAddress d hd o x ⟨account, haccount, hdomain, hxd⟩ _ hentry'
        obtain rfl := Option.some.inj hid
        exact ho' ⟨account, haccount, hdomain⟩

theorem consistent
    (hneat : ∀ d, new = some d → d.id = id ∧ Neat d.name)
    (htarget : ∀ d target, new = some d → d.catchAllAccountId = some target →
      s.lookup (.account target) ≠ none)
    (hapart : ∀ a account, s.lookup (.account a) = some account → account.domainId = id →
      ∀ d d', old = some d → new = some d' → d.name ≠ d'.name →
      ∀ y ∈ account.aliases, normalizeAddress y ≠
        normalizeAddress (primaryAddress account.localPart d.name)) : Consistent t where
  account a account ha := by
    rw [h.accounts] at ha
    obtain ⟨hid, hnamed, hdomain⟩ := hs.account a account ha
    refine ⟨hid, hnamed, ?_⟩
    by_cases hd : account.domainId = id
    · rw [hd, h.self]
      exact (h.occupied a account ha hd).2
    · rw [h.others _ hd]
      exact hdomain
  domain d domain hd := by
    by_cases hid : d = id
    · subst hid
      rw [h.self] at hd
      exact ⟨(hneat domain hd).1, (hneat domain hd).2, h.name domain hd⟩
    · rw [h.others d hid] at hd
      obtain ⟨hkey, hname, hindex⟩ := hs.domain d domain hd
      refine ⟨hkey, hname, ?_⟩
      rw [h.names]
      · exact hindex
      · exact fun o ho => h.name_ne hs hid hd (.inl ho)
      · exact fun o ho => h.name_ne hs hid hd (.inr ho)
  target d domain target hd htgt := by
    rw [h.accounts]
    by_cases hid : d = id
    · subst hid
      rw [h.self] at hd
      exact htarget domain target hd htgt
    · rw [h.others d hid] at hd
      exact hs.target d domain target hd htgt
  addresses := h.tracks_addresses hs hapart
  catchAlls := h.tracks_catchAlls hs

end Redomained

end

end Directory
end IrixMail

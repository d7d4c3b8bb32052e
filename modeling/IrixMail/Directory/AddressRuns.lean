import IrixMail.Directory.AddressUpkeep

/-!
# Runs of the directory

From an empty directory, any sequence of calls on accounts and domains keeps the address
index right as long as no call is one of those that the registries let pass although they
cannot follow them: an account that is still a catch-all is deleted, a catch-all names a
missing account, a domain is renamed under an account with its own primary address as an
alias, or a name looks like a catch-all.
-/

namespace IrixMail.Directory
open Library Prog Store

/-! ## Ids are new -/

def idOfSlot (node slot : ℕ) : ℕ := slot / 2 ^ 12 * 2 ^ 22 + node * 2 ^ 12 + slot % 2 ^ 12

variable {node : ℕ}

theorem idOfSlot_lt {slot slot' : ℕ} (h : slot < slot') :
    idOfSlot node slot < idOfSlot node slot' := by
  unfold idOfSlot
  omega

/-- The generator has a slot left whose millisecond fits into an id. -/
def InTime (w : World) : Prop :=
  max (w.idMillis.toNat * 2 ^ 12) (w.ids.last.toNat + 1) < 2 ^ 54

instance (w : World) : Decidable (InTime w) := inferInstanceAs (Decidable (_ < _))

variable {w : World}

theorem last_generate_of_inTime (h : InTime w) : (w.ids.generate w.idMillis).2.last.toNat =
      max (w.idMillis.toNat * 2 ^ 12) (w.ids.last.toNat + 1) := by
  rw [IdGenerator.last_generate]
  unfold InTime at h
  exact Nat.mod_eq_of_lt (by omega)

theorem idOfSlot_of_fields {ms seq : ℕ} (hms : ms < 2 ^ 42) (hseq : seq < 2 ^ 12)
    (hnode : node < 2 ^ 10) :
    (ms * 2 ^ 22 + (node * 2 ^ 12 + seq)) % 2 ^ 64 =
      idOfSlot node ((ms * 2 ^ 12 + seq) % 2 ^ 64) := by
  unfold idOfSlot
  omega

theorem ms_advance_lt (h : InTime w) :
    (IdGenerator.advance w.idMillis w.ids.last).1.toNat < 2 ^ 42 := by
  have hbits : sequenceBits.toNat % 64 = 12 := by decide
  have hprev : (w.ids.last >>> sequenceBits).toNat = w.ids.last.toNat / 2 ^ 12 := by
    rw [UInt64.toNat_shiftRight, hbits, Nat.shiftRight_eq_div_pow]
  have hone : (1 : UInt64).toNat = 1 := rfl
  unfold InTime at h
  unfold IdGenerator.advance
  dsimp only
  split_ifs with hpassed hseq
  · dsimp only
    omega
  · rw [hprev]
    omega
  · have hmask : sequenceMask.toNat = 2 ^ 12 - 1 := by decide
    have hfull : (w.ids.last &&& sequenceMask).toNat = w.ids.last.toNat % 2 ^ 12 := by
      rw [UInt64.toNat_and, hmask, Nat.and_two_pow_sub_one_eq_mod]
    rw [UInt64.lt_iff_toNat_lt] at hseq
    rw [UInt64.toNat_add]
    omega

theorem toNat_generate_of_inTime (h : InTime w) : (w.ids.generate w.idMillis).1.toNat =
      idOfSlot w.ids.node.toNat (w.ids.generate w.idMillis).2.last.toNat := by
  have hseq := IdGenerator.snd_advance_lt w.idMillis w.ids.last
  rw [IdGenerator.toNat_generate, idOfSlot_of_fields (ms_advance_lt h) hseq w.ids.node_lt]
  exact congrArg _ (IdGenerator.toNat_slotOf hseq).symm

def Issued (w : World) : Prop :=
  ∀ i, w.records.lookup (.account i) ≠ none ∨ w.records.lookup (.domain i) ≠ none →
    i ≤ idOfSlot w.ids.node.toNat w.ids.last.toNat

theorem Issued.lt_next (h : Issued w) (htime : InTime w) {i : ℕ}
    (hi : w.records.lookup (.account i) ≠ none ∨ w.records.lookup (.domain i) ≠ none) :
    i < (w.ids.generate w.idMillis).1.toNat := by
  rw [toNat_generate_of_inTime htime]
  refine (h i hi).trans_lt (idOfSlot_lt ?_)
  rw [last_generate_of_inTime htime]
  omega

theorem Issued.fresh (h : Issued w) (htime : InTime w) :
    w.records.lookup (.account (w.ids.generate w.idMillis).1.toNat) = none ∧
      w.records.lookup (.domain (w.ids.generate w.idMillis).1.toNat) = none := by
  constructor
  · by_contra hne
    exact (h.lt_next htime (.inl hne)).false
  · by_contra hne
    exact (h.lt_next htime (.inr hne)).false

/-! ## The calls -/

inductive DirectoryOp
  | createAccount (localPart : String) (domainId : ℕ) (displayName : String) (role : Role)
  | updateAccount (account : Account)
  | deleteAccount (id : ℕ)
  | createDomain (name : String) (aliases : List String)
  | updateDomain (domain : Domain)
  | deleteDomain (id : ℕ)
  | clock (millis : ℕ)

namespace DirectoryOp
variable (digest : Digest)

def createRequest (localPart : String) (domainId : ℕ) (displayName : String) (role : Role) :
    AccountRegistry.CreateRequest :=
  ⟨localPart, domainId, displayName, role, fun _ _ => []⟩

def perform (w : World) : DirectoryOp → World
  | createAccount localPart domainId displayName role =>
    ((AccountRegistry.createWithExtraOps true
      (createRequest localPart domainId displayName role)).run (machine digest) w).2
  | updateAccount account => ((AccountRegistry.update account).run (machine digest) w).2
  | deleteAccount id => ((AccountRegistry.delete id).run (machine digest) w).2
  | createDomain name aliases => ((DomainRegistry.create name aliases).run (machine digest) w).2
  | updateDomain domain => ((DomainRegistry.update domain).run (machine digest) w).2
  | deleteDomain id => ((DomainRegistry.delete id).run (machine digest) w).2
  | clock millis => { w with clock := millis }

/-- The calls that the registries can follow. -/
def Sound (w : World) : DirectoryOp → Prop
  | createAccount localPart domainId _ _ => InTime w ∧ ¬ StartsAt (normalizeLocalPart localPart) ∧
      w.records.lookup (.domain domainId) ≠ none
  | updateAccount account => ¬ StartsAt (normalizeLocalPart account.localPart) ∧
      (∀ x ∈ account.aliases, ¬ StartsAt (normalizeAddress x)) ∧
      w.records.lookup (.domain account.domainId) ≠ none
  | deleteAccount id => ∀ d domain, w.records.lookup (.domain d) = some domain →
      domain.catchAllAccountId ≠ some id
  | createDomain name _ => InTime w ∧ Neat (normalizeName name)
  | updateDomain domain => Neat (normalizeName domain.name) ∧
      (∀ target, domain.catchAllAccountId = some target →
        w.records.lookup (.account target) ≠ none) ∧
      ∀ existing, w.records.lookup (.domain domain.id) = some existing →
        existing.name ≠ normalizeName domain.name → ∀ a account,
        w.records.lookup (.account a) = some account → account.domainId = domain.id →
        ∀ x ∈ account.aliases, normalizeAddress x ≠
          normalizeAddress (primaryAddress account.localPart existing.name)
  | deleteDomain _ => True
  | clock _ => True

def Names (s : Records) : DirectoryOp → String → Prop
  | createAccount localPart domainId _ _, x => ∃ domain, s.lookup (.domain domainId) = some domain ∧
      x = normalizeAddress (primaryAddress (normalizeLocalPart localPart) domain.name)
  | updateAccount account, x => x ∈ addressesIn s (AccountRegistry.tidied account)
  | updateDomain domain, x => (∃ a, PrimaryAt s domain.id (normalizeName domain.name) a x) ∨
      domain.catchAllAccountId ≠ none ∧
        x = AddressIndex.catchAllAddress (normalizeName domain.name)
  | _, _ => False

end DirectoryOp

structure Sane (w : World) : Prop where
  consistent : Consistent w.records
  issued : Issued w

section Steps
variable {w' : World} {x : String} {e : AddressEntry}

variable {id i : ℕ} {new : Option Account} {s t : Records} {old : Option Domain}

theorem Readdressed.named (h : Readdressed id new s t) (hx : entryIn t x = some e) :
    entryIn s x = some e ∨ x ∈ addressesOfStored s new := by
  by_cases hmem : x ∈ addressesOfStored s new
  · exact .inr hmem
  · rw [h.entry, if_neg hmem] at hx
    split at hx
    · cases hx
    · exact .inl hx

theorem Redomained.named {new : Option Domain} (h : Redomained id old new s t)
    (hx : entryIn t x = some e) :
    entryIn s x = some e ∨ ∃ d, new = some d ∧ ((∃ a, PrimaryAt s id d.name a x) ∨
      d.catchAllAccountId ≠ none ∧ x = AddressIndex.catchAllAddress d.name) := by
  by_cases hshape : StartsAt x
  · rw [h.catchAll x hshape] at hx
    rcases Option.or_eq_some_iff.1 hx with hx | ⟨-, hx⟩
    · simp only [catchAllEntry, Option.bind_eq_bind, Option.bind_eq_some_iff,
        Option.ite_none_right_eq_some] at hx
      obtain ⟨d, hd, target, htarget, hx, -⟩ := hx
      exact .inr ⟨d, hd, .inr ⟨by simp [htarget], hx⟩⟩
    · split at hx
      · cases hx
      · exact .inl hx
  · by_cases hnew : ∃ d, new = some d ∧ ∃ a, PrimaryAt s id d.name a x
    · obtain ⟨d, hd, ha⟩ := hnew
      exact .inr ⟨d, hd, .inl ha⟩
    · by_cases hold : ∃ d, old = some d ∧ ∃ a, PrimaryAt s id d.name a x
      · obtain ⟨d, hd, a, ha⟩ := hold
        rw [h.left d hd a x ha fun d' hd' b hb => hnew ⟨d', hd', b, hb⟩] at hx
        cases hx
      · rw [h.kept x hshape] at hx
        · exact .inl hx
        · rintro d (hd | hd) a ha
          · exact hold ⟨d, hd, a, ha⟩
          · exact hnew ⟨d, hd, a, ha⟩

def Holds (s : Records) (i : ℕ) : Prop := s.lookup (.account i) ≠ none ∨ s.lookup (.domain i) ≠ none

theorem Issued.mono (h : Issued w) (hids : w'.ids = w.ids)
    (hsub : ∀ i, Holds w'.records i → Holds w.records i) : Issued w' := by
  intro i hi
  rw [hids]
  exact h i (hsub i hi)

theorem Issued.next (h : Issued w) (htime : InTime w)
    (hids : w'.ids = (w.ids.generate w.idMillis).2)
    (hsub : ∀ i, Holds w'.records i →
      i = (w.ids.generate w.idMillis).1.toNat ∨ Holds w.records i) : Issued w' := by
  intro i hi
  rw [hids, IdGenerator.node_generate, ← toNat_generate_of_inTime htime]
  rcases hsub i hi with rfl | hold
  · exact le_rfl
  · exact (h.lt_next htime hold).le

theorem Readdressed.holds (h : Readdressed id new s t) (hi : Holds t i) : i = id ∨ Holds s i := by
  by_cases hid : i = id
  · exact .inl hid
  · rw [Holds, h.others i hid, h.domains] at hi
    exact .inr hi

theorem Redomained.holds {new : Option Domain} (h : Redomained id old new s t)
    (hi : Holds t i) : i = id ∨ Holds s i := by
  by_cases hid : i = id
  · exact .inl hid
  · rw [Holds, h.others i hid, h.accounts] at hi
    exact .inr hi

theorem Redomained.holds_before {old : Domain} {new : Option Domain}
    (h : Redomained id (some old) new s t) (hi : Holds t i) : Holds s i := by
  rcases h.holds hi with rfl | hi
  · exact .inr (by simp [h.before])
  · exact hi

end Steps

/-- The state is sane after a sound call, and the call named every address that it gave away. -/
def Follows (op : DirectoryOp) (w w' : World) : Prop :=
  Sane w' ∧ ∀ x e, entryIn w'.records x = some e →
    entryIn w.records x = some e ∨ op.Names w.records x

section Calls
variable {w w' : World} (h : Sane w)
include h

variable {op : DirectoryOp} {id : ℕ}

theorem follows_of_same (hrecords : w'.records = w.records)
    (hids : w'.ids = w.ids) : Follows op w w' := by
  refine ⟨⟨hrecords ▸ h.consistent, h.issued.mono hids fun i hi => ?_⟩, fun x e hx => ?_⟩
  · rwa [hrecords] at hi
  · rw [hrecords] at hx
    exact .inl hx

theorem follows_of_drawn (htime : InTime w) (hrecords : w'.records = w.records)
    (hids : w'.ids = (w.ids.generate w.idMillis).2) : Follows op w w' := by
  refine ⟨⟨hrecords ▸ h.consistent, ?_⟩, fun x e hx => .inl (hrecords ▸ hx)⟩
  exact h.issued.next htime hids fun i hi => .inr (hrecords ▸ hi)

theorem follows_deleteAccount (hsound : (DirectoryOp.deleteAccount id).Sound w)
    (hend : Settled w (Readdressed id none w.records) w') : Follows (.deleteAccount id) w w' := by
  obtain ⟨hids, hrecords | hchange⟩ := hend
  · exact follows_of_same h hrecords hids
  · refine ⟨⟨hchange.consistent h.consistent (by simp) fun _ => hsound, ?_⟩, fun x e hx => ?_⟩
    · refine h.issued.mono hids fun i hi => (hchange.holds hi).elim (fun hid => ?_) fun hi => hi
      subst hid
      rcases hi with hi | hi
      · exact (hi hchange.self).elim
      · rw [hchange.domains] at hi
        exact .inr hi
    · exact .inl ((hchange.named hx).resolve_right (by simp [addressesOfStored]))

theorem follows_updateAccount {account : Account}
    (hsound : (DirectoryOp.updateAccount account).Sound w)
    (hend : Settled w (fun t => w.records.lookup (.account account.id) ≠ none ∧
      (AccountRegistry.tidied account).localPart ≠ "" ∧
      Readdressed account.id (some (AccountRegistry.tidied account)) w.records t) w') :
    Follows (.updateAccount account) w w' := by
  obtain ⟨hlocal, haliases, hdomain⟩ := hsound
  obtain ⟨hids, hrecords | ⟨hexists, hnonempty, hchange⟩⟩ := hend
  · exact follows_of_same h hrecords hids
  · have hnamed : WellNamed (AccountRegistry.tidied account) :=
      ⟨neat_normalizeAddress _, hnonempty, hlocal,
        fun x hx => by simpa using (List.mem_filter.1 hx).2,
        fun x hx => haliases x (List.mem_of_mem_filter hx)⟩
    refine ⟨⟨hchange.consistent h.consistent ?_ (by simp), ?_⟩, fun x e hx => hchange.named hx⟩
    · rintro _ ⟨⟩
      rw [AccountRegistry.domainId_tidied]
      exact ⟨AccountRegistry.id_tidied account, hnamed, hdomain⟩
    · refine h.issued.mono hids fun i hi => (hchange.holds hi).elim (fun hid => ?_) fun hi => hi
      exact .inl (hid ▸ hexists)

theorem follows_createAccount {localPart displayName : String} {domainId : ℕ} {role : Role}
    (hsound : (DirectoryOp.createAccount localPart domainId displayName role).Sound w)
    (hend : Issues w (fun t => normalizeLocalPart localPart ≠ "" ∧
      Readdressed (w.ids.generate w.idMillis).1.toNat (some (AccountRegistry.newAccount
        (DirectoryOp.createRequest localPart domainId displayName role)
        (w.ids.generate w.idMillis).1)) w.records t) w') :
    Follows (.createAccount localPart domainId displayName role) w w' := by
  obtain ⟨htime, hlocal, hdomain⟩ := hsound
  obtain ⟨hids, hrecords⟩ | ⟨hids, hrecords | ⟨hnonempty, hchange⟩⟩ := hend
  · exact follows_of_same h hrecords hids
  · exact follows_of_drawn h htime hrecords hids
  · have hid : ∀ id, (AccountRegistry.newAccount
        (DirectoryOp.createRequest localPart domainId displayName role) id).id = id.toNat := by
      intro id
      rfl
    have hnamed : ∀ id, WellNamed (AccountRegistry.newAccount
        (DirectoryOp.createRequest localPart domainId displayName role) id) := fun id =>
      ⟨neat_normalizeAddress _, hnonempty, hlocal, nofun, nofun⟩
    refine ⟨⟨hchange.consistent h.consistent ?_ (by simp), ?_⟩, fun x e hx => ?_⟩
    · rintro _ ⟨⟩
      exact ⟨hid _, hnamed _, hdomain⟩
    · exact h.issued.next htime hids fun i hi => hchange.holds hi
    · rcases hchange.named hx with hx | hx
      · exact .inl hx
      · rcases mem_addressesIn.1 hx with ⟨y, hy, -⟩ | ⟨domain, hdomain, hx⟩
        · cases hy
        · exact .inr ⟨domain, hdomain, hx.symm⟩

theorem follows_createDomain {name : String} {aliases : List String}
    (hsound : (DirectoryOp.createDomain name aliases).Sound w)
    (hend : Issues w (Redomained (w.ids.generate w.idMillis).1.toNat none
      (some (DomainRegistry.newDomain name aliases (w.ids.generate w.idMillis).1)) w.records) w') :
    Follows (.createDomain name aliases) w w' := by
  obtain ⟨htime, hneat⟩ := hsound
  obtain ⟨hids, hrecords⟩ | ⟨hids, hrecords | hchange⟩ := hend
  · exact follows_of_same h hrecords hids
  · exact follows_of_drawn h htime hrecords hids
  · have hid : ∀ id, (DomainRegistry.newDomain name aliases id).id = id.toNat := by
      intro id
      rfl
    refine ⟨⟨hchange.consistent h.consistent ?_ ?_ (by simp), ?_⟩, fun x e hx => ?_⟩
    · rintro _ ⟨⟩
      exact ⟨hid _, hneat⟩
    · rintro _ target ⟨⟩ htarget
      cases htarget
    · exact h.issued.next htime hids fun i hi => hchange.holds hi
    · rcases hchange.named hx with hx | ⟨_, ⟨⟩, ⟨a, account, ha, hd, -⟩ | ⟨hnone, -⟩⟩
      · exact .inl hx
      · exact ((hchange.occupied a account ha hd).1 rfl).elim
      · exact (hnone rfl).elim

theorem follows_updateDomain {domain : Domain}
    (hsound : (DirectoryOp.updateDomain domain).Sound w)
    (hend : Settled w (fun t => ∃ old, Redomained domain.id (some old)
      (some (DomainRegistry.tidied domain)) w.records t) w') :
    Follows (.updateDomain domain) w w' := by
  obtain ⟨hneat, htarget, hapart⟩ := hsound
  obtain ⟨hids, hrecords | ⟨old, hchange⟩⟩ := hend
  · exact follows_of_same h hrecords hids
  · refine ⟨⟨hchange.consistent h.consistent ?_ ?_ ?_, ?_⟩, fun x e hx => ?_⟩
    · rintro _ ⟨⟩
      exact ⟨DomainRegistry.id_tidied domain, hneat⟩
    · rintro _ target ⟨⟩ hcatch
      rw [DomainRegistry.catchAllAccountId_tidied] at hcatch
      exact htarget target hcatch
    · rintro a account ha hd _ _ ⟨⟩ ⟨⟩ hne x hx
      exact hapart old hchange.before hne a account ha hd x hx
    · exact h.issued.mono hids fun i hi => hchange.holds_before hi
    · rcases hchange.named hx with hx | ⟨_, ⟨⟩, hnames⟩
      · exact .inl hx
      · rw [DomainRegistry.catchAllAccountId_tidied] at hnames
        exact .inr hnames

theorem follows_deleteDomain
    (hend : Settled w (fun t => ∃ old, Redomained id (some old) none w.records t) w') :
    Follows (.deleteDomain id) w w' := by
  obtain ⟨hids, hrecords | ⟨old, hchange⟩⟩ := hend
  · exact follows_of_same h hrecords hids
  · refine ⟨⟨hchange.consistent h.consistent (by simp) (by simp) (by simp), ?_⟩, fun x e hx => ?_⟩
    · exact h.issued.mono hids fun i hi => hchange.holds_before hi
    · rcases hchange.named hx with hx | ⟨_, ⟨⟩, _⟩
      exact .inl hx

theorem follows_perform (digest : Digest) (hop : op.Sound w) :
    Follows op w (op.perform digest w) := by
  cases op with
  | createAccount localPart domainId displayName role =>
    exact follows_createAccount h hop (issues_createAccount digest
      (DirectoryOp.createRequest localPart domainId displayName role) (fun _ _ => rfl) rfl
      (h.issued.fresh hop.1).1)
  | updateAccount account => exact follows_updateAccount h hop (settled_updateAccount digest account)
  | deleteAccount id => exact follows_deleteAccount h hop (settled_deleteAccount digest id)
  | createDomain name aliases =>
    exact follows_createDomain h hop (issues_createDomain digest name aliases h.consistent rfl
      (h.issued.fresh hop.1).2)
  | updateDomain domain =>
    exact follows_updateDomain h hop (settled_updateDomain digest domain h.consistent hop.1)
  | deleteDomain id => exact follows_deleteDomain h (settled_deleteDomain digest id h.consistent)
  | clock millis => exact follows_of_same h rfl rfl

end Calls

/-! ## Runs -/

section Runs
variable (digest : Digest)

/-- Every call of the run is sound in the state that it finds. -/
def AllSound : World → List DirectoryOp → Prop
  | _, [] => True
  | w, op :: ops => op.Sound w ∧ AllSound (op.perform digest w) ops

/-- A call of the run gives the address to an account. -/
def NamedIn (x : String) : World → List DirectoryOp → Prop
  | _, [] => False
  | w, op :: ops => op.Names w.records x ∨ NamedIn x (op.perform digest w) ops

variable {ops : List DirectoryOp}

theorem sane_run (h : Sane w) (hops : AllSound digest w ops) :
    Sane (ops.foldl (DirectoryOp.perform digest) w) := by
  induction ops generalizing w with
  | nil => exact h
  | cons op ops ih => exact ih (follows_perform h digest hops.1).1 hops.2

theorem named_run (h : Sane w) (hops : AllSound digest w ops) {x : String} {e : AddressEntry}
    (hx : entryIn (ops.foldl (DirectoryOp.perform digest) w).records x = some e) :
    entryIn w.records x = some e ∨ NamedIn digest x w ops := by
  induction ops generalizing w with
  | nil => exact .inl hx
  | cons op ops ih =>
    obtain ⟨hsane, hnamed⟩ := follows_perform h digest hops.1
    rcases ih hsane hops.2 hx with hx | hlater
    · exact (hnamed x e hx).imp_right .inl
    · exact .inr (.inr hlater)

theorem sane_of_empty (hnone : ∀ i, ¬ Holds w.records i)
    (hindex : ∀ x, entryIn w.records x = none) : Sane w := by
  have haccount : ∀ i, w.records.lookup (.account i) = none := fun i => by
    by_contra hne
    exact hnone i (.inl hne)
  have hdomain : ∀ i, w.records.lookup (.domain i) = none := fun i => by
    by_contra hne
    exact hnone i (.inr hne)
  refine ⟨⟨?_, ?_, ?_, ?_, ?_⟩, fun i hi => (hnone i hi).elim⟩
  · intro id account h
    rw [haccount] at h
    cases h
  · intro id domain h
    rw [hdomain] at h
    cases h
  · intro id domain target h
    rw [hdomain] at h
    cases h
  · intro x _ v
    simp [hindex, accountClaims, haccount]
  · intro x _ v
    simp [hindex, catchAllClaims, hdomain]

end Runs

structure IndexRight (s : Records) : Prop where
  existing : ∀ x e id, s.lookup (.addressEntry x) = some e → e.accountId = some id →
    s.lookup (.account id) ≠ none
  resolves : ∀ id account domain, s.lookup (.account id) = some account →
    s.lookup (.domain account.domainId) = some domain →
    ∀ x ∈ primaryAddress account.localPart domain.name :: account.aliases,
      s.lookup (.addressEntry (normalizeAddress x)) = some ⟨normalizeAddress x, .account id⟩
  catchAll : ∀ name e, s.lookup (.addressEntry (AddressIndex.catchAllAddress name)) = some e ↔
    ∃ id domain target, s.lookup (.domain id) = some domain ∧ domain.name = name ∧
      domain.catchAllAccountId = some target ∧ s.lookup (.account target) ≠ none ∧
      e = ⟨AddressIndex.catchAllAddress name, .account target⟩

theorem Consistent.indexRight {s : Records} (h : Consistent s) : IndexRight s where
  existing x e id he hid := by
    by_cases hx : StartsAt x
    · obtain ⟨d, domain, target, hdomain, htarget, -, rfl⟩ := (h.catchAlls x hx e).1 he
      rw [← Option.some.inj hid]
      exact h.target d domain target hdomain htarget
    · obtain ⟨a, account, haccount, -, rfl⟩ := (h.addresses x hx e).1 he
      rw [← Option.some.inj hid, haccount]
      simp
  resolves id account domain haccount hdomain x hx := by
    refine h.entry haccount (mem_addressesIn.2 ?_)
    rcases List.mem_cons.1 hx with rfl | hx
    · exact .inr ⟨domain, hdomain, rfl⟩
    · exact .inl ⟨x, hx, (h.account id account haccount).2.1.nonblank x hx, rfl⟩
  catchAll name e := by
    refine (h.catchAlls _ (startsAt_catchAllAddress name) e).trans ⟨?_, ?_⟩
    · rintro ⟨d, domain, target, hdomain, htarget, hname, rfl⟩
      exact ⟨d, domain, target, hdomain, ((String.append_right_inj _).1 hname).symm, htarget,
        h.target d domain target hdomain htarget, rfl⟩
    · rintro ⟨d, domain, target, hdomain, rfl, htarget, -, rfl⟩
      exact ⟨d, domain, target, hdomain, htarget, rfl, rfl⟩

/-- In every run of sound calls from an empty directory the index is right, and an address
changes from one account to another only by a call that names it. -/
theorem address_index_right (digest : Bytes → Mail.BlobHash) {w w₁ w₂ : World}
    {before after : List DirectoryOp} (hnone : ∀ i, ¬ Holds w.records i)
    (hindex : ∀ x, entryIn w.records x = none) (hbefore : AllSound digest w before)
    (hw₁ : before.foldl (DirectoryOp.perform digest) w = w₁) (hafter : AllSound digest w₁ after)
    (hw₂ : after.foldl (DirectoryOp.perform digest) w₁ = w₂) :
    IndexRight w₂.records ∧ ∀ x e₁ e₂, entryIn w₁.records x = some e₁ →
      entryIn w₂.records x = some e₂ → e₁.accountId ≠ e₂.accountId → NamedIn digest x w₁ after := by
  have h₁ : Sane w₁ := hw₁ ▸ sane_run digest (sane_of_empty hnone hindex) hbefore
  have h₂ : Sane w₂ := hw₂ ▸ sane_run digest h₁ hafter
  refine ⟨h₂.consistent.indexRight, fun x e₁ e₂ he₁ he₂ hne => ?_⟩
  rw [← hw₂] at he₂
  rcases named_run digest h₁ hafter he₂ with hsame | hnamed
  · rw [he₁] at hsame
    exact (hne (by rw [Option.some.inj hsame])).elim
  · exact hnamed

/-! ## A catch-all that outlives its account -/

def emptyDirectory : World := .empty (.new 0) 0

def withCatchAll (name : String) : Domain := ⟨1, name, [], true, some 2, [], .unverified, 0⟩

def opening : List DirectoryOp := [.createDomain "x" [], .createAccount "a" 1 "" .user]

def orphaned : World :=
  (opening ++ [DirectoryOp.updateDomain (withCatchAll "x"), .deleteAccount 2]).foldl
    (DirectoryOp.perform id) emptyDirectory

/-- The account is gone, and the index still sends the mail of the domain to it. -/
theorem orphaned_catchAll :
    entryIn orphaned.records "@x" = some ⟨"@x", .account 2⟩ ∧
      orphaned.records.lookup (.account 2) = none := by
  decide +kernel

theorem neat_of_normalize {s : String} (h : normalizeAddress s = s) : Neat s :=
  h ▸ neat_normalizeAddress s

def opened : World := opening.foldl (DirectoryOp.perform id) emptyDirectory

def moved : World :=
  [DirectoryOp.updateDomain (withCatchAll "y")].foldl (DirectoryOp.perform id) opened

theorem allSound_opening : AllSound id emptyDirectory opening := by
  refine ⟨⟨by decide, neat_of_normalize (by decide +kernel)⟩, ⟨?_, ?_, ?_⟩, trivial⟩
  · decide
  · decide +kernel
  · decide +kernel

theorem allSound_moved : AllSound id opened [.updateDomain (withCatchAll "y")] := by
  have haccounts : ((accountsIn opened.records 1).all fun account => account.aliases = []) = true := by
    decide +kernel
  have htarget : opened.records.lookup (.account 2) ≠ none := by decide +kernel
  refine ⟨⟨neat_of_normalize (by decide +kernel), ?_, ?_⟩, trivial⟩
  · rintro _ ⟨⟩
    exact htarget
  · intro existing _ _ a account ha hd x hx
    have hnil := List.all_eq_true.1 haccounts account (mem_accountsIn.2 ⟨⟨a, ha⟩, hd⟩)
    rw [of_decide_eq_true hnil] at hx
    cases hx

/-- A domain gets another name and a catch-all. -/
theorem indexRight_moved :
    IndexRight moved.records ∧ entryIn moved.records "a@y" = some ⟨"a@y", .account 2⟩ := by
  have hright := address_index_right id (fun i hi => hi.elim (· rfl) (· rfl)) (fun x => rfl)
    allSound_opening rfl allSound_moved rfl
  exact ⟨hright.1, by decide +kernel⟩

end IrixMail.Directory

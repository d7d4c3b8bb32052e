import IrixMail.Directory.Addresses
import IrixMail.Library.Triples

/-!
# Calls that keep the address index

Every call reads the records, may refuse, and otherwise ends with one batch. What the
batch does to the index is said by `Readdressed` for the calls on accounts and by
`Renamed` for those on domains.
-/

namespace IrixMail.Directory
open Library Prog Store WriteOp List

theorem effects_map_at {x : String} {f : String → WriteOp} {v : Option AddressEntry}
    (hloc : ∀ y, (f y).loc = .addressEntry y)
    (hv : ∀ entry, (f x).effect (.addressEntry x) entry = v) (xs : List String)
    (entry : Option AddressEntry) :
    effects (.addressEntry x) (xs.map f) entry = if x ∈ xs then v else entry := by
  induction xs generalizing entry with
  | nil => rfl
  | cons y ys ih =>
    rw [map_cons, effects_cons, ih]
    by_cases hy : x = y
    · subst hy
      simp [hv]
    · have hne : (f y).loc ≠ .addressEntry x := by simpa [hloc] using Ne.symm hy
      simp [effect_of_ne hne, hy]

def readdressOps (id : ℕ) (previous current : List String) : List WriteOp :=
  ((previous.filter (· ∉ current)).map fun x => .delete (.addressEntry x)) ++
    current.map fun x => .set (.addressEntry x) ⟨x, .account id⟩

theorem within_readdressOps (id : ℕ) (previous current : List String) :
    Within [.addressEntry] (readdressOps id previous current) := by
  intro op hop
  rcases mem_append.1 hop with hop | hop
  · obtain ⟨x, -, rfl⟩ := mem_map.1 hop
    simp
  · obtain ⟨x, -, rfl⟩ := mem_map.1 hop
    simp

theorem effects_readdressOps (id : ℕ) (previous current : List String) (x : String)
    (entry : Option AddressEntry) :
    effects (.addressEntry x) (readdressOps id previous current) entry =
      if x ∈ current then some ⟨x, .account id⟩ else if x ∈ previous then none else entry := by
  rw [readdressOps, effects_append, effects_map_at (fun _ => rfl) (effect_set_self _ _),
    effects_map_at (fun _ => rfl) (effect_delete_self _)]
  by_cases hx : x ∈ current
  · rw [if_pos hx, if_pos hx]
  · simp [hx]

theorem readdressed_batch {id : ℕ} {old new : Option Account} {s : Records} {ops : List WriteOp}
    (hold : s.lookup (.account id) = old) (hwithin : Within [.account, .accountAddress] ops)
    (hself : effects (.account id) ops old = new)
    (hothers : ∀ o ≠ id, ∀ op ∈ ops, op.loc ≠ .account o)
    (hfree : ∀ x ∈ addressesOfStored s new, x ∉ addressesOfStored s old →
      ∀ e, entryIn s x = some e → e.accountId = some id) :
    Readdressed id new s (s.batch (ops ++
      readdressOps id (addressesOfStored s old) (addressesOfStored s new))) := by
  subst hold
  have hindex := within_readdressOps id (addressesOfStored s (s.lookup (.account id)))
    (addressesOfStored s new)
  have hall := (hwithin.mono (by simp)).append (hindex.mono (by simp)) (K := [.account,
    .accountAddress, .addressEntry])
  refine ⟨?_, fun o ho => ?_, fun d => ?_, fun name => ?_, fun x => ?_, hfree⟩
  · rw [Records.lookup_batch, effects_append, hself]
    exact hindex.effects_eq (by simp) _
  · rw [Records.lookup_batch, effects_append, effects_of_ne (hothers o ho)]
    exact hindex.effects_eq (by simp) _
  · exact Records.lookup_batch_within hall (by simp) s
  · exact Records.lookup_batch_within hall (by simp) s
  · rw [entryIn, Records.lookup_batch, effects_append, hwithin.effects_eq (by simp),
      effects_readdressOps]
    rfl

theorem readdressed_stored {account : Account} {old : Option Account} {s : Records}
    {ops : List WriteOp} (hold : s.lookup (.account account.id) = old)
    (hops : Within [.accountAddress] ops)
    (hfree : ∀ x ∈ addressesIn s account, x ∉ addressesOfStored s old →
      ∀ e, entryIn s x = some e → e.accountId = some account.id) :
    Readdressed account.id (some account) s (s.batch ([.set (.account account.id) account] ++ ops ++
      readdressOps account.id (addressesOfStored s old) (addressesIn s account))) := by
  refine readdressed_batch hold ?_ ?_ (fun o ho op hop => ?_) hfree
  · exact (within_nil.cons (by simp)).append (hops.mono (by simp))
  · rw [effects_append, effects_cons, effect_set_self]
    exact hops.effects_eq (by simp) _
  · rcases mem_append.1 hop with hop | hop
    · rw [mem_singleton.1 hop]
      simp [Ne.symm ho]
    · exact hops.loc_ne (by simp) op hop

section Runs
variable (digest : Digest) {w : World}

theorem reads_get (l : Loc) :
    Reads (machine digest) w (· = w.records.lookup l) (exec (.get l)) :=
  ⟨_, rfl, fun _ h => (Except.ok.inj h).symm⟩

theorem reads_checkFree (id : ℕ) (previous current : List String) :
    Reads (machine digest) w (fun _ => ∀ x ∈ current, x ∉ previous →
      ∀ e, entryIn w.records (normalizeAddress x) = some e → e.accountId = some id)
      (AddressIndex.checkFree id previous current) := by
  induction current with
  | nil => exact .ret (by simp)
  | cons x xs ih =>
    have hcons (h : x ∉ previous → ∀ e, entryIn w.records (normalizeAddress x) = some e →
        e.accountId = some id) := ih.mono fun _ hxs => forall_mem_cons.2 ⟨h, hxs⟩
    unfold AddressIndex.checkFree
    split
    next hx => exact hcons fun hprev => (hprev hx).elim
    next hx =>
      refine (reads_get digest (.addressEntry (normalizeAddress x))).bind ?_
      rintro _ rfl
      cases hentry : w.records.lookup (.addressEntry (normalizeAddress x)) with
      | none => exact hcons fun _ e he => absurd (hentry.symm.trans he) (by simp)
      | some entry =>
        dsimp only
        split
        next hother => exact .fail
        next hown =>
          refine hcons fun _ e he => ?_
          rw [← Option.some.inj (hentry.symm.trans he)]
          exact not_not.1 hown

theorem reads_accountAddressOps (id : ℕ) (previous current : List String) :
    Reads (machine digest) w (fun ops =>
      ops = readdressOps id (previous.map normalizeAddress) (current.map normalizeAddress) ∧
      ∀ x ∈ current.map normalizeAddress, x ∉ previous.map normalizeAddress →
        ∀ e, entryIn w.records x = some e → e.accountId = some id)
      (AddressIndex.accountAddressOps id previous current) := by
  unfold AddressIndex.accountAddressOps
  dsimp only
  split
  · exact .fail
  · refine (reads_checkFree digest id _ _).bind fun _ hfree => .ret ⟨rfl, fun x hx hprev e he => ?_⟩
    refine hfree x hx hprev e ?_
    obtain ⟨y, -, rfl⟩ := mem_map.1 hx
    rwa [(neat_normalizeAddress y).normalize]

def writtenAddresses (s : Records) (account : Account) : List String :=
  (account.aliases.filter fun x => trim x != "") ++
    ((s.lookup (.domain account.domainId)).map fun domain =>
      primaryAddress account.localPart domain.name).toList

theorem reads_addressesOf (account : Account) :
    Reads (machine digest) w (· = writtenAddresses w.records account)
      (AccountRegistry.addressesOf account) := by
  refine ⟨.ok (writtenAddresses w.records account), ?_, fun _ h => (Except.ok.inj h).symm⟩
  unfold AccountRegistry.addressesOf DomainRegistry.get writtenAddresses
  rw [run_bind, run_attempt, run_exec_bind]
  simp only [machine]
  cases w.records.lookup (.domain account.domainId) with
  | none => simp
  | some domain => rfl

theorem reads_account (id : ℕ) : Reads (machine digest) w
    (fun account => w.records.lookup (.account id) = some account) (AccountRegistry.get id) := by
  refine (reads_get digest (.account id)).bind ?_
  rintro _ rfl
  cases h : w.records.lookup (.account id) with
  | none => exact .fail
  | some account => exact .ret rfl

theorem reads_moveOps (existing account : Account) :
    Reads (machine digest) w (Within [.accountAddress])
      (AccountRegistry.moveOps existing account) := by
  unfold AccountRegistry.moveOps
  split
  · refine (reads_get digest (.accountAddress account.domainId account.localPart)).bind fun _ _ => ?_
    split
    · exact .fail
    · exact .ret ((within_nil.cons (by simp)).cons (by simp))
  · exact .ret within_nil

/-- No id was drawn, and the records are as they were or have `R`. -/
def Settled (w : World) (R : Records → Prop) (w' : World) : Prop :=
  w'.ids = w.ids ∧ (w'.records = w.records ∨ R w'.records)

variable {R : Records → Prop}

theorem settled_same : Settled w R w := ⟨rfl, .inl rfl⟩

theorem settled_deleteAccount (id : ℕ) :
    Settled w (Readdressed id none w.records)
      ((AccountRegistry.delete id).run (machine digest) w).2 := by
  refine (reads_account digest id).run_bind settled_same fun account haccount => ?_
  refine (reads_addressesOf digest account).run_bind settled_same ?_
  rintro _ rfl
  refine (reads_accountAddressOps digest id _ []).run_bind settled_same ?_
  rintro _ ⟨rfl, -⟩
  refine ⟨rfl, .inr (readdressed_batch haccount ?_ (by simp [effect]) (fun o ho => ?_)
    (by simp [addressesOfStored]))⟩
  · exact (within_nil.cons (by simp)).cons (by simp)
  · simp [Ne.symm ho]

theorem settled_replace {existing : Account} (account : Account)
    (hexisting : w.records.lookup (.account account.id) = some existing) :
    Settled w (fun t => account.localPart ≠ "" ∧ Readdressed account.id (some account) w.records t)
      ((AccountRegistry.replace existing account).run (machine digest) w).2 := by
  unfold AccountRegistry.replace
  split
  next hempty => exact settled_same
  next hnonempty =>
    refine (reads_moveOps digest existing account).run_bind settled_same fun moved hmoved => ?_
    refine (reads_addressesOf digest existing).run_bind settled_same ?_
    rintro _ rfl
    refine (reads_addressesOf digest account).run_bind settled_same ?_
    rintro _ rfl
    refine (reads_accountAddressOps digest account.id _ _).run_bind settled_same ?_
    rintro _ ⟨rfl, hfree⟩
    exact ⟨rfl, .inr ⟨hnonempty, readdressed_stored hexisting hmoved hfree⟩⟩

theorem settled_updateAccount (account : Account) :
    Settled w (fun t => w.records.lookup (.account account.id) ≠ none ∧
        (AccountRegistry.tidied account).localPart ≠ "" ∧
        Readdressed account.id (some (AccountRegistry.tidied account)) w.records t)
      ((AccountRegistry.update account).run (machine digest) w).2 := by
  have hid := AccountRegistry.id_tidied account
  unfold AccountRegistry.update
  generalize AccountRegistry.tidied account = new at hid ⊢
  rw [← hid]
  refine (reads_account digest new.id).run_bind settled_same fun existing hexisting => ?_
  obtain ⟨hids, hrecords⟩ := settled_replace digest new hexisting
  exact ⟨hids, hrecords.imp_right fun h => ⟨by simp [hexisting], h⟩⟩

/-- The same for a call that draws an id unless it refuses before. -/
def Issues (w : World) (R : Records → Prop) (w' : World) : Prop :=
  w'.ids = w.ids ∧ w'.records = w.records ∨
    Settled { w with ids := (w.ids.generate w.idMillis).2 } R w'

theorem issues_same : Issues w R w := .inl ⟨rfl, rfl⟩

theorem issues_createAccount (request : AccountRegistry.CreateRequest)
    (hextra : ∀ id createdAt, request.extraOps id createdAt = []) {next : UInt64}
    (hnext : (w.ids.generate w.idMillis).1 = next)
    (hfresh : w.records.lookup (.account next.toNat) = none) :
    Issues w (fun t => normalizeLocalPart request.localPart ≠ "" ∧
        Readdressed next.toNat (some (AccountRegistry.newAccount request next)) w.records t)
      ((AccountRegistry.createWithExtraOps true request).run (machine digest) w).2 := by
  unfold AccountRegistry.createWithExtraOps
  dsimp only
  split
  next hempty => exact issues_same
  next hnonempty =>
    refine (reads_get digest (.accountAddress request.domainId _)).run_bind issues_same fun _ _ => ?_
    split
    next => exact issues_same
    next =>
      rw [run_exec_bind]
      simp only [machine, hnext]
      unfold AccountRegistry.register AccountRegistry.maintenanceOps
      generalize hnew : AccountRegistry.newAccount request next = new
      have hid : new.id = next.toNat := by rw [← hnew]; rfl
      rw [← hid] at hfresh ⊢
      dsimp only
      rw [if_pos rfl, bind_assoc]
      refine .inr ((reads_addressesOf digest new).run_bind settled_same ?_)
      rintro _ rfl
      refine (reads_accountAddressOps digest new.id [] _).run_bind settled_same ?_
      rintro _ ⟨rfl, hfree⟩
      have hops : Within [.accountAddress] ([.set (.accountAddress new.domainId new.localPart) new.id] ++
          request.extraOps new.id new.createdAt) := by
        rw [hextra]
        exact within_nil.cons (by simp)
      exact ⟨rfl, .inr ⟨hnonempty, readdressed_stored hfresh hops hfree⟩⟩

end Runs

/-! ## Domains -/

theorem effects_of_set_mem {l : Loc} {v : Val l} {ops : List WriteOp}
    (h : ∀ op ∈ ops, op.loc = l → op = .set l v) (hl : .set l v ∈ ops) (x : Option (Val l)) :
    effects l ops x = some v := by
  induction ops generalizing x with
  | nil => cases hl
  | cons op ops ih =>
    rw [effects_cons]
    have hrest : ∀ o ∈ ops, o.loc = l → o = .set l v := fun o ho => h o (mem_cons_of_mem _ ho)
    by_cases hmem : .set l v ∈ ops
    · exact ih hrest hmem _
    · obtain rfl : op = .set l v := ((mem_cons.1 hl).resolve_right hmem).symm
      rw [effect_set_self, effects_of_ne]
      intro o ho hloc
      exact hmem (hrest o ho hloc ▸ ho)

theorem effect_set_entry (y x : String) (e : AddressEntry) (entry : Option AddressEntry) :
    (set (.addressEntry y) e).effect (.addressEntry x) entry = if x = y then some e else entry := by
  split
  next hx =>
    subst hx
    simp
  next hx => exact effect_set_of_ne (by simpa using Ne.symm hx) _ _

theorem effect_delete_entry (y x : String) (entry : Option AddressEntry) :
    (delete (.addressEntry y)).effect (.addressEntry x) entry = if x = y then none else entry := by
  simp [effect, eq_comm]

theorem accountEntryOp_of_neat {address : String} (h : Neat address) (id : ℕ) :
    AddressIndex.accountEntryOp address id = .set (.addressEntry address) ⟨address, .account id⟩ := by
  unfold AddressIndex.accountEntryOp
  rw [h.normalize]

theorem neat_catchAllAddress {domain : String} (h : Neat domain) :
    Neat (AddressIndex.catchAllAddress domain) := neat_at.append h

section CatchAll
variable {old new : Domain} {ops : List WriteOp} (h : DomainRegistry.catchAllOps old new = .ok ops)
include h

theorem effects_catchAllOps (hold : Neat old.name) (hnew : Neat new.name) (x : String)
    (entry : Option AddressEntry) :
    effects (.addressEntry x) ops entry = (catchAllEntry (some new) x).or
      (if (catchAllEntry (some old) x).isSome then none else entry) := by
  -- First the old entry goes, if there is one.
  have hcleared : effects (.addressEntry x) (if old.catchAllAccountId.isSome then
      [AddressIndex.clearCatchAllOp old.name] else []) entry =
        if (catchAllEntry (some old) x).isSome then none else entry := by
    rw [AddressIndex.clearCatchAllOp, AddressIndex.removeEntryOp, hold.normalize,
      (neat_catchAllAddress hold).normalize]
    cases hcatch : old.catchAllAccountId with
    | none => simp [catchAllEntry, hcatch]
    | some target =>
      by_cases hx : x = AddressIndex.catchAllAddress old.name <;>
        simp [catchAllEntry, hcatch, effect_delete_entry]
  unfold DomainRegistry.catchAllOps at h
  cases hcatch : new.catchAllAccountId with
  | none =>
    rw [hcatch] at h
    rw [← Except.ok.inj h, hcleared]
    simp [catchAllEntry, hcatch]
  | some target =>
    simp only [hcatch, AddressIndex.setCatchAllOp, hnew.normalize,
      accountEntryOp_of_neat (neat_catchAllAddress hnew)] at h
    split at h
    next hempty => cases h
    next hnonempty =>
      rw [← Except.ok.inj h, effects_append, hcleared, effects_cons, effect_set_entry]
      by_cases hx : x = AddressIndex.catchAllAddress new.name <;> simp [catchAllEntry, hcatch, hx]

theorem within_catchAllOps : Within [.addressEntry] ops := by
  have hcleared : Within [.addressEntry] (if old.catchAllAccountId.isSome then
      [AddressIndex.clearCatchAllOp old.name] else []) := by
    split
    · exact within_nil.cons (by simp [AddressIndex.clearCatchAllOp, AddressIndex.removeEntryOp])
    · exact within_nil
  unfold DomainRegistry.catchAllOps at h
  cases hcatch : new.catchAllAccountId with
  | none =>
    rw [hcatch] at h
    exact Except.ok.inj h ▸ hcleared
  | some target =>
    simp only [hcatch, AddressIndex.setCatchAllOp] at h
    split at h
    next hempty => cases h
    next hnonempty =>
      rw [← Except.ok.inj h]
      exact hcleared.append (within_nil.cons (by simp [AddressIndex.accountEntryOp]))

end CatchAll

def accountsIn (s : Records) (domainId : ℕ) : List Account :=
  ((s.iterate ⟨.registry, none, none⟩).filterMap AccountRegistry.accountOfRow).filter
    fun account => account.domainId = domainId

theorem mem_accountsIn {s : Records} {domainId : ℕ} {account : Account} :
    account ∈ accountsIn s domainId ↔
      (∃ a, s.lookup (.account a) = some account) ∧ account.domainId = domainId := by
  unfold accountsIn
  rw [mem_filter, decide_eq_true_iff, mem_filterMap]
  refine and_congr_left fun _ => ⟨?_, ?_⟩
  · rintro ⟨⟨l, v⟩, hrow, haccount⟩
    cases l with
    | account a =>
      obtain rfl : v = account := Option.some.inj haccount
      exact ⟨a, (Records.mem_iterate.1 hrow).2⟩
    | _ => simp [AccountRegistry.accountOfRow] at haccount
  · rintro ⟨a, ha⟩
    refine ⟨⟨.account a, account⟩, Records.mem_iterate.2 ⟨?_, ha⟩, rfl⟩
    simp [KeyPrefix.encode, Loc.encode]

def rekeyPair (oldName newName : String) (account : Account) : List WriteOp :=
  [AddressIndex.removeEntryOp (primaryAddress account.localPart oldName),
    AddressIndex.accountEntryOp (primaryAddress account.localPart newName) account.id]

theorem catchAllEntry_of_not_startsAt (domain : Option Domain) {x : String} (h : ¬ StartsAt x) :
    catchAllEntry domain x = none := by
  refine Option.eq_none_iff_forall_ne_some.2 fun entry hentry => h ?_
  simp only [catchAllEntry, Option.bind_eq_bind, Option.bind_eq_some_iff,
    Option.ite_none_right_eq_some] at hentry
  obtain ⟨domain, -, target, -, rfl, -⟩ := hentry
  exact startsAt_catchAllAddress _

section Primary
variable {s : Records} (hs : Consistent s) {id a b : ℕ} {name x : String}
include hs

theorem PrimaryAt.not_startsAt (hname : Neat name) (h : PrimaryAt s id name a x) : ¬ StartsAt x := by
  obtain ⟨account, haccount, -, rfl⟩ := h
  have hnamed := (hs.account a account haccount).2.1
  rw [normalize_primaryAddress hnamed.neat hname]
  exact not_startsAt_primaryAddress hnamed.nonempty hnamed.localPart

variable {old : Domain} (hold : s.lookup (.domain id) = some old)
include hold

theorem PrimaryAt.entry (h : PrimaryAt s id old.name a x) : entryIn s x = some ⟨x, .account a⟩ := by
  obtain ⟨account, haccount, hdomain, hx⟩ := h
  exact hs.entry haccount (mem_addressesIn.2 (.inr ⟨old, hdomain ▸ hold, hx⟩))

theorem PrimaryAt.unique (hname : Neat name) (h : PrimaryAt s id name a x)
    (h' : PrimaryAt s id name b x) : a = b := by
  obtain ⟨account, haccount, hdomain, hx⟩ := h
  obtain ⟨account', haccount', hdomain', hx'⟩ := h'
  have hlocal : account.localPart = account'.localPart := by
    have heq := hx.trans hx'.symm
    rw [normalize_primaryAddress (hs.account a account haccount).2.1.neat hname,
      normalize_primaryAddress (hs.account b account' haccount').2.1.neat hname] at heq
    exact (String.append_left_inj _).1 ((String.append_left_inj _).1 heq)
  have hentry := PrimaryAt.entry hs hold ⟨account, haccount, hdomain, rfl⟩
  rw [hlocal, PrimaryAt.entry hs hold ⟨account', haccount', hdomain', rfl⟩] at hentry
  simpa using hentry.symm

end Primary

section Update
variable {id : ℕ} {old new : Domain} {s : Records} {renamed catchAll : List WriteOp}
  (hs : Consistent s) (hold : s.lookup (.domain id) = some old) (hnew : Neat new.name)
  (hcatchAll : DomainRegistry.catchAllOps old new = .ok catchAll)
include hs hold hnew hcatchAll

/-- What is left to say of an update is what its renaming does. -/
theorem redomained_update (hrenamed : Within [.domainName, .addressEntry] renamed)
    (hunused : ∀ o, s.lookup (.domainName new.name) = some o → o = id)
    (hname : effects (.domainName new.name) renamed (s.lookup (.domainName new.name)) = some id)
    (hnames : ∀ n, old.name ≠ n → new.name ≠ n → effects (.domainName n) renamed
      (s.lookup (.domainName n)) = s.lookup (.domainName n))
    (hmoved : ∀ a x, PrimaryAt s id new.name a x →
      effects (.addressEntry x) renamed (entryIn s x) = some ⟨x, .account a⟩)
    (hleft : ∀ a x, PrimaryAt s id old.name a x → (∀ b, ¬ PrimaryAt s id new.name b x) →
      effects (.addressEntry x) renamed (entryIn s x) = none)
    (hkept : ∀ x, (∀ a, ¬ PrimaryAt s id old.name a x) → (∀ a, ¬ PrimaryAt s id new.name a x) →
      effects (.addressEntry x) renamed (entryIn s x) = entryIn s x)
    (hfree : ∀ a x, PrimaryAt s id new.name a x →
      ∀ e, entryIn s x = some e → e.accountId = some a) :
    Redomained id (some old) (some new) s
      (s.batch ([.set (.domain id) new] ++ renamed ++ catchAll)) := by
  have hneat := (hs.domain id old hold).2.1
  have hclear := within_catchAllOps hcatchAll
  have hstored : Within [.domain] [WriteOp.set (.domain id) new] :=
    within_nil.cons (by simp)
  have hentry (x : String) : entryIn (s.batch ([.set (.domain id) new] ++ renamed ++ catchAll)) x =
      (catchAllEntry (some new) x).or (if (catchAllEntry (some old) x).isSome then none
        else effects (.addressEntry x) renamed (entryIn s x)) := by
    rw [entryIn, Records.lookup_batch, effects_append, effects_append, hstored.effects_eq (by simp),
      effects_catchAllOps hcatchAll hneat hnew]
    rfl
  have hplain {x : String} (hx : ¬ StartsAt x) :
      entryIn (s.batch ([.set (.domain id) new] ++ renamed ++ catchAll)) x =
        effects (.addressEntry x) renamed (entryIn s x) := by
    rw [hentry, catchAllEntry_of_not_startsAt _ hx, catchAllEntry_of_not_startsAt _ hx]
    rfl
  have hindex (n : String) : (s.batch ([.set (.domain id) new] ++ renamed ++ catchAll)).lookup
      (.domainName n) = effects (.domainName n) renamed (s.lookup (.domainName n)) := by
    rw [Records.lookup_batch, effects_append, effects_append, hclear.effects_eq (by simp),
      hstored.effects_eq (by simp)]
  have hdomain (d : ℕ) : (s.batch ([.set (.domain id) new] ++ renamed ++ catchAll)).lookup
      (.domain d) = (set (.domain id) new).effect (.domain d) (s.lookup (.domain d)) := by
    rw [Records.lookup_batch, effects_append, effects_append, hclear.effects_eq (by simp),
      hrenamed.effects_eq (by simp)]
    rfl
  refine ⟨hold, ?_, fun d hd => ?_, fun a => ?_, ?_, ?_, fun n hn hn' => ?_, fun x hx => ?_, ?_, ?_,
    fun x hx hother => ?_, ?_, fun _ _ _ _ => ⟨by simp, by simp⟩⟩
  · rw [hdomain, effect_set_self]
  · rw [hdomain, effect_set_of_ne (by simpa using Ne.symm hd)]
  · exact Records.lookup_batch_within (((hstored.mono (by simp)).append (hrenamed.mono (by simp))).append
      (hclear.mono (by simp)) (K := [.domain, .domainName, .addressEntry])) (by simp) s
  · rintro d ⟨⟩
    exact hunused
  · rintro d ⟨⟩
    exact (hindex _).trans hname
  · exact (hindex n).trans (hnames n (hn old rfl) (hn' new rfl))
  · -- A catch-all address is nobody's primary address.
    rw [hentry, hkept x (fun a ha => ha.not_startsAt hs hneat hx) fun a ha => ha.not_startsAt hs hnew hx]
  · rintro d ⟨⟩ a x hx
    exact (hplain (hx.not_startsAt hs hnew)).trans (hmoved a x hx)
  · rintro d ⟨⟩ a x hx hunclaimed
    exact (hplain (hx.not_startsAt hs hneat)).trans (hleft a x hx (hunclaimed new rfl))
  · exact (hplain hx).trans (hkept x (hother old (.inl rfl)) (hother new (.inr rfl)))
  · rintro d ⟨⟩
    exact hfree

theorem redomained_same (hname : new.name = old.name) :
    Redomained id (some old) (some new) s (s.batch ([.set (.domain id) new] ++ [] ++ catchAll)) := by
  have hindex := (hs.domain id old hold).2.2
  have hprimary : ∀ a x, PrimaryAt s id new.name a x → entryIn s x = some ⟨x, .account a⟩ :=
    fun a x hx => PrimaryAt.entry hs hold (hname ▸ hx)
  rw [← hname] at hindex
  refine redomained_update hs hold hnew hcatchAll within_nil (fun o ho => ?_) hindex
    (fun _ _ _ => rfl) hprimary (fun a x hx hfree => (hfree a (hname ▸ hx)).elim)
    (fun _ _ _ => rfl) fun a x hx e he => ?_
  · exact Option.some.inj (ho.symm.trans hindex)
  · rw [← Option.some.inj ((hprimary a x hx).symm.trans he)]
    rfl

end Update

section Rename
variable {id : ℕ} {old new : Domain} {s : Records} {catchAll : List WriteOp} (hs : Consistent s)
include hs

theorem mem_rekeyed {oldName newName : String} {op : WriteOp} :
    op ∈ (accountsIn s id).flatMap (rekeyPair oldName newName) ↔ ∃ a x,
      PrimaryAt s id oldName a x ∧ op = .delete (.addressEntry x) ∨
      PrimaryAt s id newName a x ∧ op = .set (.addressEntry x) ⟨x, .account a⟩ := by
  constructor
  · intro hop
    obtain ⟨account, haccount, hop⟩ := mem_flatMap.1 hop
    obtain ⟨⟨a, ha⟩, hd⟩ := mem_accountsIn.1 haccount
    rcases mem_cons.1 hop with rfl | hop
    · exact ⟨a, _, .inl ⟨⟨account, ha, hd, rfl⟩, rfl⟩⟩
    · refine ⟨a, _, .inr ⟨⟨account, ha, hd, rfl⟩, ?_⟩⟩
      rw [mem_singleton.1 hop, AddressIndex.accountEntryOp, (hs.account a account ha).1]
  · rintro ⟨a, x, ⟨⟨account, ha, hd, rfl⟩, rfl⟩ | ⟨⟨account, ha, hd, rfl⟩, rfl⟩⟩ <;>
      refine mem_flatMap.2 ⟨account, mem_accountsIn.2 ⟨⟨a, ha⟩, hd⟩, ?_⟩
    · exact mem_cons_self
    · simp [rekeyPair, AddressIndex.accountEntryOp, (hs.account a account ha).1]

theorem within_rekeyed (id : ℕ) (oldName newName : String) :
    Within [.addressEntry] ((accountsIn s id).flatMap (rekeyPair oldName newName)) := by
  intro op hop
  obtain ⟨a, x, ⟨-, rfl⟩ | ⟨-, rfl⟩⟩ := (mem_rekeyed hs).1 hop <;> simp

omit hs in
def renamedOps (s : Records) (id : ℕ) (oldName newName : String) : List WriteOp :=
  [.delete (.domainName oldName), .set (.domainName newName) id] ++
    (accountsIn s id).flatMap (rekeyPair oldName newName)

variable (hold : s.lookup (.domain id) = some old) (hnew : Neat new.name)
  (hname : new.name ≠ old.name)
  (hfree : ∀ a x, PrimaryAt s id new.name a x → ∀ e, entryIn s x = some e → e.accountId = some a)
include hold hnew hname hfree

theorem PrimaryAt.apart {a b : ℕ} {x : String} (h : PrimaryAt s id old.name a x) :
    ¬ PrimaryAt s id new.name b x := by
  intro h'
  obtain rfl : a = b := Option.some.inj (hfree b x h' _ (PrimaryAt.entry hs hold h))
  obtain ⟨account, ha, -, hx⟩ := h
  obtain ⟨account', ha', -, hx'⟩ := h'
  obtain rfl := Option.some.inj (ha.symm.trans ha')
  have hneat := (hs.account a account ha).2.1.neat
  rw [← hx', normalize_primaryAddress hneat (hs.domain id old hold).2.1,
    normalize_primaryAddress hneat hnew] at hx
  exact hname ((String.append_right_inj _).1 hx).symm

theorem redomained_renamed (hcatchAll : DomainRegistry.catchAllOps old new = .ok catchAll)
    (hunused : ∀ o, s.lookup (.domainName new.name) = some o → o = id) :
    Redomained id (some old) (some new) s (s.batch ([.set (.domain id) new] ++
      renamedOps s id old.name new.name ++ catchAll)) := by
  have hrekeyed := within_rekeyed hs id old.name new.name
  have hentry (x : String) : effects (.addressEntry x) (renamedOps s id old.name new.name)
      (entryIn s x) = effects (.addressEntry x)
        ((accountsIn s id).flatMap (rekeyPair old.name new.name)) (entryIn s x) := by
    rfl
  have hindex (n : String) (o : Option ℕ) : effects (.domainName n)
      (renamedOps s id old.name new.name) o = (set (.domainName new.name) id).effect (.domainName n)
        ((delete (.domainName old.name)).effect (.domainName n) o) := by
    rw [renamedOps, effects_append, hrekeyed.effects_eq (by simp)]
    rfl
  refine redomained_update hs hold hnew hcatchAll ?_ hunused ?_ (fun n hn hn' => ?_)
    (fun a x hx => ?_) (fun a x hx hunclaimed => ?_) (fun x hx hx' => ?_) hfree
  · exact ((within_nil.cons (by simp)).cons (by simp)).append
      (hrekeyed.mono (by simp))
  · rw [hindex, effect_set_self]
  · rw [hindex, effect_set_of_ne (by simpa using hn'), effect_of_ne (by simpa using hn)]
  · refine effects_of_set_mem (fun op hop hloc => ?_) ((mem_rekeyed hs).2 ⟨a, x, .inr ⟨hx, rfl⟩⟩) _
    obtain ⟨b, y, ⟨hy, rfl⟩ | ⟨hy, rfl⟩⟩ := (mem_rekeyed hs).1 hop <;>
      obtain rfl := Loc.addressEntry.inj hloc
    · exact (hy.apart hs hold hnew hname hfree hx).elim
    · rw [hy.unique hs hold hnew hx]
  · refine effects_of_delete_mem (fun op hop hloc => ?_) ((mem_rekeyed hs).2 ⟨a, x, .inl ⟨hx, rfl⟩⟩) _
    obtain ⟨b, y, ⟨hy, rfl⟩ | ⟨hy, rfl⟩⟩ := (mem_rekeyed hs).1 hop <;>
      obtain rfl := Loc.addressEntry.inj hloc
    · rfl
    · exact (hunclaimed b hy).elim
  · rw [hentry]
    refine effects_of_ne (fun op hop hloc => ?_) _
    obtain ⟨b, y, ⟨hy, rfl⟩ | ⟨hy, rfl⟩⟩ := (mem_rekeyed hs).1 hop <;>
      obtain rfl := Loc.addressEntry.inj hloc
    · exact hx b hy
    · exact hx' b hy

end Rename

theorem redomained_created {s : Records} (hs : Consistent s) {new : Domain}
    (hfresh : s.lookup (.domain new.id) = none) (hunused : s.lookup (.domainName new.name) = none)
    (hcatchAll : new.catchAllAccountId = none) :
    Redomained new.id none (some new) s
      (s.batch [.set (.domain new.id) new, .set (.domainName new.name) new.id]) := by
  have hwithin : Within [.domain, .domainName]
      [.set (.domain new.id) new, .set (.domainName new.name) new.id] :=
    (within_nil.cons (by simp)).cons (by simp)
  have hvacant : ∀ a account, s.lookup (.account a) = some account → account.domainId ≠ new.id :=
    fun a account ha hd => (hs.account a account ha).2.2 (hd ▸ hfresh)
  have hnone : ∀ name a x, ¬ PrimaryAt s new.id name a x :=
    fun name a x ⟨account, ha, hd, _⟩ => hvacant a account ha hd
  have hentry : ∀ x, entryIn (s.batch [.set (.domain new.id) new,
      .set (.domainName new.name) new.id]) x = entryIn s x :=
    fun x => Records.lookup_batch_within hwithin (by simp) s
  refine ⟨hfresh, ?_, fun d hd => ?_, fun a => Records.lookup_batch_within hwithin (by simp) s,
    fun d hd o ho => ?_, ?_, fun n _ hn => ?_, fun x _ => ?_,
    fun d _ a x hx => (hnone _ a x hx).elim, fun d _ a x hx _ => (hnone _ a x hx).elim,
    fun x _ _ => hentry x, fun d _ a x hx => (hnone _ a x hx).elim,
    fun a account ha hd => (hvacant a account ha hd).elim⟩
  · simp [Records.lookup_batch, effect_set_of_ne]
  · simp [Records.lookup_batch, effect_set_of_ne, Ne.symm hd]
  · cases hd
    cases hunused.symm.trans ho
  · simp [Records.lookup_batch]
  · simp [Records.lookup_batch, effect_set_of_ne, hn new rfl]
  · rw [hentry x]
    simp [catchAllEntry, hcatchAll]

theorem redomained_deleted {s : Records} (hs : Consistent s) {id : ℕ} {old : Domain}
    (hold : s.lookup (.domain id) = some old) (hvacant : accountsIn s id = []) :
    Redomained id (some old) none s
      (s.batch ([.delete (.domain id), .delete (.domainName old.name)] ++
        if old.catchAllAccountId.isSome then [AddressIndex.clearCatchAllOp old.name] else [])) := by
  have hneat := (hs.domain id old hold).2.1
  -- Removing a catch-all is what an update to a domain without one does.
  obtain ⟨cleared, hcleared, hops⟩ : ∃ cleared, DomainRegistry.catchAllOps old
      { old with catchAllAccountId := none } = .ok cleared ∧ cleared =
        if old.catchAllAccountId.isSome then [AddressIndex.clearCatchAllOp old.name] else [] :=
    ⟨_, rfl, rfl⟩
  rw [← hops]
  have hremoved : Within [.domain, .domainName]
      [.delete (.domain id), .delete (.domainName old.name)] :=
    (within_nil.cons (by simp)).cons (by simp)
  have hclear := within_catchAllOps hcleared
  have hnobody : ∀ a account, s.lookup (.account a) = some account → account.domainId ≠ id := by
    intro a account ha hd
    have hmem := mem_accountsIn.2 ⟨⟨a, ha⟩, hd⟩
    rw [hvacant] at hmem
    cases hmem
  have hentry : ∀ x, entryIn (s.batch ([.delete (.domain id), .delete (.domainName old.name)] ++
      cleared)) x = if (catchAllEntry (some old) x).isSome then none else entryIn s x := by
    intro x
    rw [entryIn, Records.lookup_batch, effects_append, hremoved.effects_eq (by simp),
      effects_catchAllOps hcleared hneat hneat]
    simp [catchAllEntry, entryIn]
  refine ⟨hold, ?_, fun d hd => ?_, fun a => ?_, by simp, by simp, fun n hn _ => ?_,
    fun x _ => hentry x, by simp, fun d _ a x ⟨account, ha, hd, _⟩ => (hnobody a account ha hd).elim,
    fun x hx _ => ?_, by simp, fun a account ha hd => (hnobody a account ha hd).elim⟩
  · rw [Records.lookup_batch, effects_append, hclear.effects_eq (by simp)]
    simp [effect]
  · rw [Records.lookup_batch, effects_append, hclear.effects_eq (by simp)]
    simp [effect, Ne.symm hd]
  · exact Records.lookup_batch_within ((hremoved.mono (by simp)).append (hclear.mono (by simp))
      (K := [.domain, .domainName, .addressEntry])) (by simp) s
  · rw [Records.lookup_batch, effects_append, hclear.effects_eq (by simp)]
    simp [effect, hn old rfl]
  · rw [hentry x, catchAllEntry_of_not_startsAt _ hx]
    rfl

section DomainRuns
variable (digest : Digest) {w : World}

theorem reads_domain (id : ℕ) : Reads (machine digest) w
    (fun domain => w.records.lookup (.domain id) = some domain) (DomainRegistry.get id) := by
  refine (reads_get digest (.domain id)).bind ?_
  rintro _ rfl
  cases h : w.records.lookup (.domain id) with
  | none => exact .fail
  | some domain => exact .ret rfl

theorem reads_listForDomain (id : ℕ) : Reads (machine digest) w (· = accountsIn w.records id)
    (AccountRegistry.listForDomain id) := ⟨_, rfl, fun _ h => (Except.ok.inj h).symm⟩

theorem reads_rekeyOps (oldName newName : String) (accounts : List Account) :
    Reads (machine digest) w (fun ops => ops = accounts.flatMap (rekeyPair oldName newName) ∧
      ∀ account ∈ accounts, ∀ e,
        entryIn w.records (normalizeAddress (primaryAddress account.localPart newName)) = some e →
        e.accountId = some account.id) (DomainRegistry.rekeyOps oldName newName accounts) := by
  induction accounts with
  | nil => exact .ret ⟨rfl, by simp⟩
  | cons account rest ih =>
    refine (reads_get digest (.addressEntry (normalizeAddress
      (primaryAddress account.localPart newName)))).bind ?_
    rintro _ rfl
    split
    next hused => exact .fail
    next hfree =>
      refine ih.bind ?_
      rintro _ ⟨rfl, hrest⟩
      refine .ret ⟨rfl, forall_mem_cons.2 ⟨fun e he => ?_, hrest⟩⟩
      rw [show w.records.lookup (.addressEntry _) = some e from he] at hfree
      simpa using hfree

theorem reads_renameOps (hs : Consistent w.records) (old new : Domain) :
    Reads (machine digest) w (fun ops => new.name = old.name ∧ ops = [] ∨ new.name ≠ old.name ∧
      ops = renamedOps w.records new.id old.name new.name ∧
      (∀ o, w.records.lookup (.domainName new.name) = some o → o = new.id) ∧
      ∀ a x, PrimaryAt w.records new.id new.name a x →
        ∀ e, entryIn w.records x = some e → e.accountId = some a)
      (DomainRegistry.renameOps old new) := by
  unfold DomainRegistry.renameOps
  split
  next hname =>
    refine (reads_get digest (.domainName new.name)).bind ?_
    rintro _ rfl
    split
    next hused => exact .fail
    next hfree =>
      refine Reads.bind (p := DomainRegistry.rekeyPrimaryOps old.name new.name new.id)
        (reads_rekeyOps digest old.name new.name (accountsIn w.records new.id)) ?_
      rintro _ ⟨rfl, hcheck⟩
      refine .ret (.inr ⟨hname, rfl, fun o ho => ?_, ?_⟩)
      · rw [ho] at hfree
        simpa using hfree
      · rintro a _ ⟨account, ha, hd, rfl⟩
        rw [← (hs.account a account ha).1]
        exact hcheck account (mem_accountsIn.2 ⟨⟨a, ha⟩, hd⟩)
  next hname => exact .ret (.inl ⟨not_not.1 hname, rfl⟩)

theorem settled_replaceDomain {old new : Domain} (hs : Consistent w.records)
    (hold : w.records.lookup (.domain new.id) = some old) (hneat : Neat new.name) :
    Settled w (Redomained new.id (some old) (some new) w.records)
      ((DomainRegistry.replace old new).run (machine digest) w).2 := by
  unfold DomainRegistry.replace
  split
  next hempty => exact settled_same
  next hnonempty =>
    refine (reads_renameOps digest hs old new).run_bind settled_same fun renamed hrenamed => ?_
    cases hcatchAll : DomainRegistry.catchAllOps old new with
    | error e => exact settled_same
    | ok catchAll =>
      refine ⟨rfl, .inr ?_⟩
      rcases hrenamed with ⟨hname, rfl⟩ | ⟨hname, rfl, hunused, hfree⟩
      · exact redomained_same hs hold hneat hcatchAll hname
      · exact redomained_renamed hs hold hneat hname hfree hcatchAll hunused

theorem settled_updateDomain (domain : Domain) (hs : Consistent w.records)
    (hneat : Neat (normalizeName domain.name)) :
    Settled w (fun t => ∃ old, Redomained domain.id (some old)
      (some (DomainRegistry.tidied domain)) w.records t)
      ((DomainRegistry.update domain).run (machine digest) w).2 := by
  have hid := DomainRegistry.id_tidied domain
  have hname : Neat (DomainRegistry.tidied domain).name := hneat
  unfold DomainRegistry.update
  generalize DomainRegistry.tidied domain = new at hid hname ⊢
  rw [← hid]
  refine (reads_domain digest new.id).run_bind settled_same fun old hold => ?_
  obtain ⟨hids, hrecords⟩ := settled_replaceDomain digest hs hold hname
  exact ⟨hids, hrecords.imp_right fun h => ⟨old, h⟩⟩

theorem issues_createDomain (name : String) (aliases : List String) (hs : Consistent w.records)
    {next : UInt64} (hnext : (w.ids.generate w.idMillis).1 = next)
    (hfresh : w.records.lookup (.domain next.toNat) = none) :
    Issues w (Redomained next.toNat none (some (DomainRegistry.newDomain name aliases next)) w.records)
      ((DomainRegistry.create name aliases).run (machine digest) w).2 := by
  unfold DomainRegistry.create
  dsimp only
  split
  next hempty => exact issues_same
  next hnonempty =>
    refine (reads_get digest (.domainName (normalizeName name))).run_bind issues_same ?_
    rintro _ rfl
    cases hunused : w.records.lookup (.domainName (normalizeName name)) with
    | some o => exact issues_same
    | none =>
      subst hnext
      exact .inr ⟨rfl, .inr (@redomained_created w.records hs (DomainRegistry.newDomain name aliases
        (w.ids.generate w.idMillis).1) hfresh hunused rfl)⟩

theorem settled_deleteDomain (id : ℕ) (hs : Consistent w.records) :
    Settled w (fun t => ∃ old, Redomained id (some old) none w.records t)
      ((DomainRegistry.delete id).run (machine digest) w).2 := by
  refine (reads_domain digest id).run_bind settled_same fun old hold => ?_
  refine (reads_listForDomain digest id).run_bind settled_same ?_
  rintro _ rfl
  split
  next hoccupied => exact settled_same
  next hvacant => exact ⟨rfl, .inr ⟨old, redomained_deleted hs hold (by simpa using hvacant)⟩⟩

end DomainRuns

end IrixMail.Directory

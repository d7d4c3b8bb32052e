import IrixMail.Directory.AccountRegistry

/-!
# Which accounts share their mail

Mail state is keyed by `Account.mailId`. Along a run of account creations the
`mailId`s are pairwise distinct exactly when the issue slots of the creations are
pairwise incongruent modulo 2²²: two accounts created 1024 milliseconds apart may
read and write each other's mail.
-/

namespace IrixMail.Directory.AccountRegistry
open Library Prog Store
open Mail (BlobHash)

variable (digest : Digest) (maintained : Bool)

structure Creation where
  clock : ℕ
  request : CreateRequest

def creations : World → List Creation → List (World × Account)
  | _, [] => []
  | w, creation :: rest =>
    let before := { w with clock := creation.clock }
    match (createWithExtraOps maintained creation.request).run (machine digest) before with
    | (.ok account, after) => (before, account) :: creations after rest
    | (.error _, after) => creations after rest

def nextSlot (w : World) : ℕ := IdGenerator.issueSlot w.idMillis.toNat w.ids.last.toNat

theorem node_run {α : Type} (p : Action α) (w : World) :
    (p.run (machine digest) w).2.ids.node = w.ids.node := by
  refine run_rel (machine digest) (R := fun s t => t.ids.node = s.ids.node) (fun _ => rfl)
    (fun _ _ _ h h' => h'.trans h) ?_ p w
  intro c s
  cases c with
  | batchConditional asserts ops =>
    simp only [machine]
    split <;> rfl
  | _ => rfl

variable {account : Account} {request : CreateRequest} {w w' : World}

theorem run_register {id : UInt64}
    (h : (register maintained request id).run (machine digest) w = (.ok account, w')) :
    account = newAccount request id := by
  unfold register at h
  obtain ⟨ops, u, -, h⟩ := run_bind_ok h
  rw [run_exec_bind] at h
  simp only [run_ret, pure_eq, Prod.mk.injEq, Except.ok.injEq] at h
  exact h.1.symm

theorem id_of_run_create
    (h : (createWithExtraOps maintained request).run (machine digest) w = (.ok account, w')) :
    account.id = (w.ids.generate w.idMillis).1.toNat := by
  unfold createWithExtraOps lookupIdByAddress at h
  dsimp only at h
  split at h
  · simp at h
  · rw [run_exec_bind] at h
    split at h
    · simp at h
    · rw [run_exec_bind] at h
      rw [run_register digest maintained h]
      rfl

theorem of_mem_creations {calls : List Creation} {x : World × Account}
    (h : x ∈ creations digest maintained w calls) :
    x.1.ids.node = w.ids.node ∧ x.2.id = (x.1.ids.generate x.1.idMillis).1.toNat := by
  induction calls generalizing w with
  | nil => simp [creations] at h
  | cons creation rest ih =>
    unfold creations at h
    dsimp only at h
    split at h
    next account after hrun =>
      rcases List.mem_cons.1 h with rfl | h
      · exact ⟨rfl, id_of_run_create digest maintained hrun⟩
      · obtain ⟨hnode, hid⟩ := ih h
        have hafter := node_run digest (createWithExtraOps maintained creation.request)
          { w with clock := creation.clock }
        rw [hrun] at hafter
        exact ⟨hnode.trans hafter, hid⟩
    next e after hrun =>
      obtain ⟨hnode, hid⟩ := ih h
      have hafter := node_run digest (createWithExtraOps maintained creation.request)
        { w with clock := creation.clock }
      rw [hrun] at hafter
      exact ⟨hnode.trans hafter, hid⟩

/-- In every run of creations the accounts are isolated, pairwise distinct in
`mailId`, exactly when no two of them were issued slots that agree modulo 2²². -/
theorem mailId_pairwise_iff (w : World) (calls : List Creation) :
    (creations digest maintained w calls).Pairwise (fun x y => x.2.mailId ≠ y.2.mailId) ↔
      (creations digest maintained w calls).Pairwise
        (fun x y => ¬ nextSlot x.1 ≡ nextSlot y.1 [MOD 2 ^ 22]) := by
  apply List.Pairwise.iff_of_mem
  intro x y hx hy
  obtain ⟨hxnode, hxid⟩ := of_mem_creations digest maintained hx
  obtain ⟨hynode, hyid⟩ := of_mem_creations digest maintained hy
  rw [Ne, Account.mailId, Account.mailId, hxid, hyid,
    IdGenerator.asU32_generate_eq_iff (hxnode.trans hynode.symm)]
  rfl

def collidingCalls : List Creation :=
  [⟨epochSeconds * 1000 + 1, ⟨"alice", 1, "", .user, fun _ _ => []⟩⟩,
    ⟨epochSeconds * 1000 + 1025, ⟨"bob", 1, "", .user, fun _ _ => []⟩⟩]

set_option maxRecDepth 4000 in
theorem collidingCalls_share_mailId :
    ¬ (creations id false (.empty (.new 0) (epochSeconds * 1000)) collidingCalls).Pairwise
      (fun x y => x.2.mailId ≠ y.2.mailId) := by
  decide

end IrixMail.Directory.AccountRegistry

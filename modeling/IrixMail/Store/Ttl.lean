import Mathlib.Data.List.AList

/-!
# Values that expire

`TtlStore`: a table whose entries end by themselves. An expired entry is dropped
when it is read.
-/

namespace IrixMail.Store

/-- What failed logins are counted for. -/
inductive ThrottleKey
  | ip (ip : String)
  | account (accountId : ℕ)
  deriving DecidableEq

structure TtlEntry where
  value : ℕ
  expiresAt : ℕ
  deriving DecidableEq

def TtlEntry.isExpired (e : TtlEntry) (now : ℕ) : Bool := e.expiresAt ≤ now

abbrev TtlStore := AList fun _ : ThrottleKey => TtlEntry

namespace TtlStore

def set (s : TtlStore) (now : ℕ) (key : ThrottleKey) (value ttl : ℕ) : TtlStore :=
  s.insert key ⟨value, now + ttl⟩

def get (s : TtlStore) (now : ℕ) (key : ThrottleKey) : Option ℕ × TtlStore :=
  match s.lookup key with
  | some entry => if entry.isExpired now then (none, s.erase key) else (some entry.value, s)
  | none => (none, s)

def remove (s : TtlStore) (key : ThrottleKey) : TtlStore := s.erase key

variable {s : TtlStore} {now : ℕ} {key other : ThrottleKey}

def valueAt (s : TtlStore) (key : ThrottleKey) : ℕ := ((s.lookup key).map TtlEntry.value).getD 0

theorem valueAt_set_self (value ttl : ℕ) : valueAt (s.set now key value ttl) key = value := by
  unfold valueAt set
  rw [AList.lookup_insert]
  rfl

theorem valueAt_set_of_ne (h : other ≠ key) (value ttl : ℕ) :
    valueAt (s.set now other value ttl) key = valueAt s key := by
  unfold valueAt set
  rw [AList.lookup_insert_ne h.symm]

theorem valueAt_remove_of_ne (h : other ≠ key) : valueAt (s.remove other) key = valueAt s key := by
  unfold valueAt remove
  rw [AList.lookup_erase_ne h.symm]

theorem valueAt_get_of_ne (h : other ≠ key) : valueAt (s.get now other).2 key = valueAt s key := by
  unfold get
  split
  · split
    · exact valueAt_remove_of_ne h
    · rfl
  · rfl

theorem get_of_live (h : ∀ entry ∈ s.lookup key, entry.isExpired now = false) :
    (s.get now key).1.getD 0 = valueAt s key ∧ (s.get now key).2 = s := by
  unfold get valueAt
  cases hfound : s.lookup key with
  | none => exact ⟨rfl, rfl⟩
  | some entry =>
    simp [h entry hfound]

end TtlStore
end IrixMail.Store

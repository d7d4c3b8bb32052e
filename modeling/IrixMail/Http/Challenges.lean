import IrixMail.Core.Text
import IrixMail.Http.Records
import Mathlib.Data.List.AList

/-!
# Second factors that are still to come

`PendingChallenges`: for each username, whose second factor is awaited, how long,
and how many codes may still be tried. Beginning a challenge replaces the one
before it.
-/

namespace IrixMail.Http

def pendingTotpTtl : ℕ := 5 * 60 * 1000

def pendingTotpAttempts : ℕ := 5

structure PendingChallenge where
  accountId : ℕ
  kind : SessionKind
  expiresAt : ℕ
  attemptsLeft : ℕ
  deriving DecidableEq

abbrev PendingChallenges := AList fun _ : String => PendingChallenge

def challengeKey (username : String) : String := toAsciiLowercase (trim username)

namespace PendingChallenges

def begin (pending : PendingChallenges) (now : ℕ) (username : String) (accountId : ℕ)
    (kind : SessionKind) : PendingChallenges :=
  pending.insert (challengeKey username)
    ⟨accountId, kind, now + pendingTotpTtl, pendingTotpAttempts⟩

def takeAttempt (pending : PendingChallenges) (now : ℕ) (username : String) :
    Option (ℕ × SessionKind) × PendingChallenges :=
  match pending.lookup (challengeKey username) with
  | none => (none, pending)
  | some entry =>
    if entry.expiresAt ≤ now ∨ entry.attemptsLeft = 0 then
      (none, pending.erase (challengeKey username))
    else
      (some (entry.accountId, entry.kind), pending.insert (challengeKey username)
        { entry with attemptsLeft := entry.attemptsLeft - 1 })

def complete (pending : PendingChallenges) (username : String) : PendingChallenges :=
  pending.erase (challengeKey username)

/-! ## The attempts that are left -/

def left (pending : PendingChallenges) (key : String) : ℕ :=
  ((pending.lookup key).map (·.attemptsLeft)).getD 0

theorem left_of_eq {pending pending' : PendingChallenges} {key : String}
    (h : pending'.lookup key = pending.lookup key) : pending'.left key = pending.left key := by
  unfold left
  rw [h]

variable (pending : PendingChallenges)

theorem left_erase (key key' : String) : left (pending.erase key') key ≤ pending.left key := by
  by_cases hkey : key = key'
  · subst hkey
    simp [left]
  · exact Nat.le_of_eq (left_of_eq (AList.lookup_erase_ne hkey))

theorem left_insert_of_ne {key key' : String} (h : key' ≠ key) (pending : PendingChallenges)
    (entry : PendingChallenge) : left (pending.insert key' entry) key = pending.left key :=
  left_of_eq (AList.lookup_insert_ne (Ne.symm h))

theorem left_takeAttempt (now : ℕ) (username key : String) :
    (pending.takeAttempt now username).2.left key +
      (if (pending.takeAttempt now username).1.isSome ∧ challengeKey username = key then 1 else 0) ≤
        pending.left key := by
  unfold takeAttempt
  split
  · simp
  next entry hentry =>
    split
    · simpa using left_erase pending key (challengeKey username)
    next hlive =>
      by_cases hkey : challengeKey username = key
      · subst hkey
        simp only [left, AList.lookup_insert, hentry, Option.map_some, Option.getD_some,
          Option.isSome_some, and_self, if_true]
        omega
      · rw [if_neg fun h => hkey h.2, Nat.add_zero]
        exact Nat.le_of_eq (left_insert_of_ne hkey pending _)

end PendingChallenges
end IrixMail.Http

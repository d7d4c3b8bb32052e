import IrixMail.Library.Reader

/-!
# Promised literals

A line may promise that a number of items follow it. They are a literal: the next thing
that is read takes them all, before another line is looked at.
-/

namespace Library

inductive Kind
  | line (promised : Option ℕ)
  | literal
  /-- Nothing is read. -/
  | aside

structure Framing (ε β : Type) where
  kind : ε → Kind
  items : ε → List β

namespace Framing
variable {β ε α : Type} (f : Framing ε β) (allowed : ε → Prop)

def owedAfter (o : Option ℕ) (e : ε) : Option (Option ℕ) :=
  match f.kind e, o with
  | .line promised, none => some promised
  | .line _, some _ => none
  | .literal, none => some none
  | .literal, some n => if (f.items e).length = n then some none else none
  | .aside, o => some o

def owed : Monitor (Option ℕ) ε β where
  step := f.owedAfter
  allowed := allowed
  idle := (· = none)
  items := f.items

def isRead (e : ε) : Bool :=
  match f.kind e with
  | .aside => false
  | _ => true

/-- Each line that promises `n` items is followed by `n` items read as a literal, before
anything else is read, or the stream is closed; the items are taken in the order in which
they come. -/
structure Framed (stream : List β) (log : List ε) (closed : Prop) : Prop where
  literal : ∀ before e after n, log = before ++ e :: after → f.kind e = .line (some n) →
    (∃ l, after.find? f.isRead = some l ∧ f.kind l = .literal ∧ (f.items l).length = n) ∨
      after.find? f.isRead = none ∧ closed
  inOrder : log.flatMap f.items <+: stream

variable {f allowed}

variable {e : ε} {n : ℕ} {o : Option ℕ} {log : List ε} {stream : List β}

theorem step_literal (he : f.kind e = .literal)
    (ho : o = none ∨ o = some n) (hn : (f.items e).length = n) :
    (f.owed allowed).step o e = some none := by
  rcases ho with rfl | rfl
  · simp [owed, owedAfter, he]
  · simp [owed, owedAfter, he, hn]

theorem step_aside (he : f.kind e = .aside) (o : Option ℕ) :
    (f.owed allowed).step o e = some o := by
  simp [owed, owedAfter, he]

/-- Nothing is owed, and no items were added. -/
def Settled (most : ℕ) : α → List β → Option ℕ → Prop :=
  fun _ rest o => o = none ∧ rest.length ≤ most

theorem meets_settled {r : Reader β ε α} {least most : ℕ} (hle : least ≤ most)
    (h : (f.owed allowed).Meets r stream o (Settled least)) :
    (f.owed allowed).Meets r stream o (Settled most) :=
  h.mono fun _ _ _ hs => ⟨hs.1, Nat.le_trans hs.2 hle⟩

theorem find?_of_follow {n : ℕ} {log : List ε} {o : Option ℕ}
    (h : (f.owed allowed).follow (some n) log = some o) :
    (∃ l, log.find? f.isRead = some l ∧ f.kind l = .literal ∧ (f.items l).length = n) ∨
      log.find? f.isRead = none ∧ o = some n := by
  induction log with
  | nil => exact .inr ⟨rfl, (Option.some.inj h).symm⟩
  | cons e log ih =>
    cases he : f.kind e with
    | line promised => simp [Monitor.follow, owed, owedAfter, he] at h
    | literal =>
      by_cases hlength : (f.items e).length = n
      · exact .inl ⟨e, by simp [isRead, he], he, hlength⟩
      · simp [Monitor.follow, owed, owedAfter, he, hlength] at h
    | aside =>
      have hnext : (f.owed allowed).follow (some n) log = some o := by
        simpa [Monitor.follow, step_aside he] using h
      simpa [isRead, he] using ih hnext

theorem framed_of_follow {closed : Prop}
    (hfollow : (f.owed allowed).follow none log = some o)
    (htaken : log.flatMap f.items <+: stream) (hclosed : o ≠ none → closed) :
    f.Framed stream log closed := by
  refine ⟨?_, htaken⟩
  rintro before e after n rfl he
  rw [Monitor.follow_append] at hfollow
  cases hbefore : (f.owed allowed).follow none before with
  | none => simp [hbefore] at hfollow
  | some o' =>
    rw [hbefore, Option.bind_some] at hfollow
    cases o' with
    | some k => simp [Monitor.follow, owed, owedAfter, he] at hfollow
    | none =>
      have hafter : (f.owed allowed).follow (some n) after = some o := by
        simpa [Monitor.follow, owed, owedAfter, he] using hfollow
      exact (find?_of_follow hafter).imp id fun h =>
        ⟨h.1, hclosed (by rw [h.2]; exact Option.some_ne_none n)⟩

theorem not_framed {before after : List ε} {l : ε} {closed : Prop}
    (hlog : log = before ++ e :: after) (he : f.kind e = .line (some n))
    (hl : after.find? f.isRead = some l) (hline : f.kind l ≠ .literal) :
    ¬ f.Framed stream log closed := by
  intro h
  rcases h.literal before e after n hlog he with ⟨l', hl', hliteral, _⟩ | ⟨hnone, _⟩
  · rw [hl] at hl'
    exact hline (Option.some.inj hl' ▸ hliteral)
  · rw [hl] at hnone
    cases hnone

/-- A reader that ends with nothing owed keeps every promise. -/
theorem framed_of_meets {r : Reader β ε α} {Q : α → List β → Option ℕ → Prop}
    (h : (f.owed allowed).Meets r stream none Q) (hQ : ∀ a rest o, Q a rest o → o = none)
    (hall : ∀ e ∈ (r stream).1, allowed e) :
    f.Framed stream (r stream).1 ((r stream).2.isClosed) := by
  obtain ⟨o, rest, hfollow, htaken, hends⟩ := h hall
  refine framed_of_follow hfollow ⟨rest, htaken⟩ fun hne => ?_
  cases hout : (r stream).2 with
  | ok a left =>
    rw [hout] at hends
    exact absurd (hQ _ _ _ hends.2) hne
  | closed => rfl
  | stuck =>
    rw [hout] at hends
    exact absurd hends hne

end Framing
end Library

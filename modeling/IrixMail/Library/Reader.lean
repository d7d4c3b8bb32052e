import Mathlib.Data.List.Basic

/-!
# Readers of a stream

A reader takes items from the front of a stream and keeps a log of what it does. It
ends with a value, or by closing the stream, or never. A monitor runs over the log:
`Meets` is the triple which says that, as long as the events are ones the monitor
allows, it never rejects one, and that a reader which never ends leaves it idle.
-/

namespace Library
open List

inductive Outcome (β α : Type)
  | ok (a : α) (rest : List β)
  | closed
  | stuck

def Outcome.isClosed {β α : Type} : Outcome β α → Bool
  | .closed => true
  | _ => false

def Reader (β ε α : Type) := List β → List ε × Outcome β α

namespace Reader
variable {β ε α γ : Type}

def ret (a : α) : Reader β ε α := fun input => ([], .ok a input)

def andThen (r : Reader β ε α) (f : α → Reader β ε γ) : Reader β ε γ := fun input =>
  match r input with
  | (log, .ok a rest) => (log ++ (f a rest).1, (f a rest).2)
  | (log, .closed) => (log, .closed)
  | (log, .stuck) => (log, .stuck)

instance : Monad (Reader β ε) where
  pure := ret
  bind := andThen

def emit (e : ε) : Reader β ε Unit := fun input => ([e], .ok () input)

def close : Reader β ε α := fun _ => ([], .closed)

def loopForever : Reader β ε α := fun _ => ([], .stuck)

/-- A loop of which every round takes an item, so that more rounds than there are items
are never made. -/
def rounds (f : ℕ → Reader β ε α) : Reader β ε α := fun input => f (input.length + 1) input

/-- The items as long as `keep` holds, at most `most` of them, and the one after them; at
the end of the stream what there is, `none` if there is nothing. -/
def line (keep : β → Bool) (most : ℕ) (event : List β → Bool → ε) :
    Reader β ε (Option (List β)) := fun input =>
  let text := input.takeWhile keep
  if most < text.length then ([], .closed)
  else
    match input.dropWhile keep with
    | _ :: rest => ([event text true], .ok (some text) rest)
    | [] =>
      if text.length = 0 then ([], .ok none []) else ([event text false], .ok (some text) [])

def exactly (n : ℕ) (event : List β → ε) : Reader β ε (List β) := fun input =>
  if n ≤ input.length then ([event (input.take n)], .ok (input.take n) (input.drop n))
  else ([], .closed)

end Reader

structure Monitor (μ ε β : Type) where
  step : μ → ε → Option μ
  allowed : ε → Prop
  idle : μ → Prop
  /-- The items of the stream that an event takes. -/
  items : ε → List β

namespace Monitor
variable {β ε α γ μ : Type} (m : Monitor μ ε β)

def follow (s : μ) (log : List ε) : Option μ := log.foldlM m.step s

def taken (log : List ε) : List β := log.flatMap m.items

theorem follow_append (s : μ) (log more : List ε) :
    m.follow s (log ++ more) = (m.follow s log).bind (m.follow · more) :=
  foldlM_append ..

theorem taken_append (log more : List ε) : m.taken (log ++ more) = m.taken log ++ m.taken more :=
  flatMap_append

def Ends (Q : α → List β → μ → Prop) (rest : List β) (s : μ) : Outcome β α → Prop
  | .ok a left => left = rest ∧ Q a left s
  | .closed => True
  | .stuck => m.idle s

def Meets (r : Reader β ε α) (input : List β) (s : μ) (Q : α → List β → μ → Prop) : Prop :=
  (∀ e ∈ (r input).1, m.allowed e) → ∃ s' rest, m.follow s (r input).1 = some s' ∧
    m.taken (r input).1 ++ rest = input ∧ m.Ends Q rest s' (r input).2

variable {m} {r : Reader β ε α} {f : α → Reader β ε γ} {input : List β} {s : μ}
  {Q : α → List β → μ → Prop} {R : γ → List β → μ → Prop}

theorem meets_pure {a : α} (h : Q a input s) : m.Meets (pure a) input s Q :=
  fun _ => ⟨s, input, rfl, rfl, rfl, h⟩

theorem meets_close : m.Meets (Reader.close : Reader β ε α) input s Q :=
  fun _ => ⟨s, input, rfl, rfl, trivial⟩

theorem meets_loopForever (h : m.idle s) :
    m.Meets (Reader.loopForever : Reader β ε α) input s Q :=
  fun _ => ⟨s, input, rfl, rfl, h⟩

theorem meets_emit {e : ε} {Q : Unit → List β → μ → Prop} (hitems : m.items e = [])
    (h : m.allowed e → ∃ s', m.step s e = some s' ∧ Q () input s') :
    m.Meets (Reader.emit e) input s Q := by
  intro hall
  obtain ⟨s', hstep, hQ⟩ := h (hall e mem_cons_self)
  refine ⟨s', input, ?_, ?_, rfl, hQ⟩
  · simp [follow, Reader.emit, hstep]
  · simp [taken, Reader.emit, hitems]

theorem Meets.mono {Q' : α → List β → μ → Prop} (h : m.Meets r input s Q)
    (himp : ∀ a rest s', Q a rest s' → Q' a rest s') : m.Meets r input s Q' := by
  intro hall
  obtain ⟨s', rest, hfollow, htaken, hends⟩ := h hall
  refine ⟨s', rest, hfollow, htaken, ?_⟩
  cases hout : (r input).2 with
  | ok a left =>
    rw [hout] at hends
    exact ⟨hends.1, himp _ _ _ hends.2⟩
  | closed => trivial
  | stuck =>
    rw [hout] at hends
    exact hends

theorem Meets.bind (h : m.Meets r input s Q)
    (hf : ∀ a rest s', Q a rest s' → m.Meets (f a) rest s' R) : m.Meets (r >>= f) input s R := by
  change m.Meets (Reader.andThen r f) input s R
  intro hall
  unfold Meets at h
  simp only [Reader.andThen] at hall ⊢
  generalize r input = run at h hall ⊢
  obtain ⟨log, out⟩ := run
  cases out with
  | ok a left =>
    simp only [mem_append] at hall
    obtain ⟨s', rest, hfollow, htaken, rfl, hQ⟩ := h fun e he => hall e (.inl he)
    obtain ⟨s'', rest', hfollow', htaken', hends⟩ :=
      hf a left s' hQ fun e he => hall e (.inr he)
    refine ⟨s'', rest', ?_, ?_, hends⟩
    · rw [follow_append, hfollow]
      exact hfollow'
    · rw [taken_append, append_assoc, htaken']
      exact htaken
  | closed => exact h hall
  | stuck => exact h hall

theorem meets_bind (h : m.Meets r input s fun a rest s' => m.Meets (f a) rest s' R) :
    m.Meets (r >>= f) input s R :=
  h.bind fun _ _ _ h => h

theorem meets_line {keep : β → Bool} {most : ℕ} {event : List β → Bool → ε}
    {Q : Option (List β) → List β → μ → Prop}
    (hended : ∀ text b, keep b = false → m.items (event text true) = text ++ [b])
    (hpart : ∀ text, m.items (event text false) = text)
    (hsome : ∀ text ended rest, m.allowed (event text ended) → rest.length < input.length →
      ∃ s', m.step s (event text ended) = some s' ∧ Q (some text) rest s')
    (hnone : input = [] → Q none [] s) :
    m.Meets (Reader.line keep most event) input s Q := by
  intro hall
  have hsplit := takeWhile_append_dropWhile (p := keep) (l := input)
  have hhead := head?_dropWhile_not keep input
  unfold Reader.line at hall ⊢
  generalize input.takeWhile keep = text at hall hsplit ⊢
  generalize input.dropWhile keep = left at hall hsplit hhead ⊢
  by_cases hlong : most < text.length
  · rw [if_pos hlong]
    exact ⟨s, input, rfl, rfl, trivial⟩
  · rw [if_neg hlong] at hall ⊢
    cases left with
    | cons b rest =>
      have hb : keep b = false := by simpa using hhead
      have hshorter : rest.length < input.length := by
        rw [← hsplit, length_append, length_cons]
        omega
      obtain ⟨s', hstep, hQ⟩ := hsome text true rest (hall _ mem_cons_self) hshorter
      refine ⟨s', rest, ?_, ?_, rfl, hQ⟩
      · simp [follow, hstep]
      · rw [← hsplit]
        simp [taken, hended text b hb]
    | nil =>
      rw [append_nil] at hsplit
      subst hsplit
      by_cases hempty : text.length = 0
      · rw [if_pos hempty]
        have htext := length_eq_zero_iff.mp hempty
        exact ⟨s, [], rfl, htext.symm, rfl, hnone htext⟩
      · rw [if_neg hempty] at hall ⊢
        obtain ⟨s', hstep, hQ⟩ := hsome text false [] (hall _ mem_cons_self)
          (Nat.pos_of_ne_zero hempty)
        refine ⟨s', [], ?_, ?_, rfl, hQ⟩
        · simp [follow, hstep]
        · simp [taken, hpart]

theorem meets_exactly {n : ℕ} {event : List β → ε} {Q : List β → List β → μ → Prop}
    (hitems : ∀ items, m.items (event items) = items)
    (h : ∀ items rest, items.length = n → rest.length ≤ input.length →
      ∃ s', m.step s (event items) = some s' ∧ Q items rest s') :
    m.Meets (Reader.exactly n event) input s Q := by
  intro _
  unfold Reader.exactly
  split_ifs with hlength
  · obtain ⟨s', hstep, hQ⟩ := h (input.take n) (input.drop n)
      (length_take_of_le hlength) (by simp)
    refine ⟨s', input.drop n, ?_, ?_, rfl, hQ⟩
    · simp [follow, hstep]
    · simp [taken, hitems]
  · exact ⟨s, input, rfl, rfl, trivial⟩

theorem Meets.rounds {f : ℕ → Reader β ε α}
    (h : ∀ n, input.length < n → m.Meets (f n) input s Q) :
    m.Meets (Reader.rounds f) input s Q :=
  h _ (Nat.lt_succ_self _)

end Monitor
end Library

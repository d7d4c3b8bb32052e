import IrixMail.Dav.Objects
import Mathlib.Algebra.Order.Ring.Int

/-!
# Time ranges of calendar queries

A stored event carries the first and the last instant of its occurrences, as far as
`parse_ics` has expanded them. A calendar query compares its range with these two alone.
-/

namespace IrixMail.Dav
open List

@[irreducible] def maxExpansions : ℕ := 4096
def i64Max : ℤ := 9223372036854775807
def i64Min : ℤ := -9223372036854775808

structure RecurrenceRule where
  untilTime : Option ℤ
  count : Option ℕ

/-- What is read of a parsed calendar: its UIDs, the recurrence rules among the values of
RRULE entries, and its occurrences in order, which need not come to an end. -/
structure ICalendar where
  uids : List String
  rules : List RecurrenceRule
  occurrence : ℕ → Option (ℤ × ℤ)
  ended : ∀ n, occurrence n = none → occurrence (n + 1) = none

def ICalendar.expandDates (ical : ICalendar) (limit : ℕ) : List (ℤ × ℤ) :=
  (range limit).filterMap ical.occurrence

def hasUnboundedRrule (ical : ICalendar) : Bool :=
  ical.rules.any fun rule => rule.untilTime.isNone && rule.count.isNone

structure IcsInfo where
  uid : String
  startsMin : ℤ
  endsMax : ℤ

/-- The earliest start and the latest end. -/
def envelope (events : List (ℤ × ℤ)) (bounds : ℤ × ℤ := (i64Max, i64Min)) : ℤ × ℤ :=
  events.foldl (fun bounds event => (min bounds.1 event.1, max bounds.2 event.2)) bounds

def parseIcs (entry : String → Option ICalendar) (raw : String) :
    Except Error (ICalendar × IcsInfo) :=
  match entry raw with
  | none => .error (.invalidInput "not a calendar object")
  | some ical =>
    match ical.uids.head? with
    | none => .error (.invalidInput "calendar object has no uid")
    | some uid =>
      let bounds := envelope (ical.expandDates maxExpansions)
      if bounds.1 = i64Max then
        .error (.invalidInput "calendar object has no dated components")
      else .ok (ical, ⟨uid, bounds.1, if hasUnboundedRrule ical then i64Max else bounds.2⟩)

structure EventView extends ObjectView where
  startsMin : ℤ
  endsMax : ℤ

def calendarQuery (objects : List EventView) (timeRange : Option (Option ℤ × Option ℤ)) :
    List EventView :=
  objects.filter fun object =>
    match timeRange with
    | some (start, finish) =>
      object.startsMin < finish.getD i64Max && start.getD i64Min < object.endsMax
    | none => true

/-- The bounds are those that `parse_ics` found when it accepted the event's data. -/
def EventView.Stored (entry : String → Option ICalendar) (object : EventView)
    (ical : ICalendar) : Prop :=
  ∃ uid, parseIcs entry object.data = .ok (ical, ⟨uid, object.startsMin, object.endsMax⟩)

/-- Whether the range meets an occurrence, after RFC 4791: one that takes no time is met where
it starts, any other in what comes before its end. -/
def Overlaps (timeRange : Option ℤ × Option ℤ) (event : ℤ × ℤ) : Prop :=
  event.1 < timeRange.2.getD i64Max ∧
    if event.1 = event.2 then timeRange.1.getD i64Min ≤ event.1
    else timeRange.1.getD i64Min < event.2

/-! ## The bounds of what was expanded -/

theorem le_envelope_iff {events : List (ℤ × ℤ)} {bounds : ℤ × ℤ} {m : ℤ} :
    m ≤ (envelope events bounds).1 ↔ m ≤ bounds.1 ∧ ∀ event ∈ events, m ≤ event.1 := by
  induction events generalizing bounds with
  | nil => simp [envelope]
  | cons event events ih => rw [forall_mem_cons, ← and_assoc, ← le_min_iff]; exact ih

theorem envelope_le_iff {events : List (ℤ × ℤ)} {bounds : ℤ × ℤ} {m : ℤ} :
    (envelope events bounds).2 ≤ m ↔ bounds.2 ≤ m ∧ ∀ event ∈ events, event.2 ≤ m := by
  induction events generalizing bounds with
  | nil => simp [envelope]
  | cons event events ih => rw [forall_mem_cons, ← and_assoc, ← max_le_iff]; exact ih

variable {ical : ICalendar} {event : ℤ × ℤ} {n : ℕ}

theorem ICalendar.mem_expandDates {limit : ℕ} (hn : n < limit)
    (h : ical.occurrence n = some event) : event ∈ ical.expandDates limit :=
  mem_filterMap.2 ⟨n, mem_range.2 hn, h⟩

theorem EventView.Stored.bounds {entry : String → Option ICalendar} {object : EventView}
    (h : object.Stored entry ical) (hbounded : hasUnboundedRrule ical = false) :
    envelope (ical.expandDates maxExpansions) = (object.startsMin, object.endsMax) := by
  obtain ⟨uid, h⟩ := h
  unfold parseIcs at h
  split at h
  · cases h
  split at h
  · cases h
  dsimp only at h
  split at h
  · cases h
  · obtain ⟨rfl, hinfo⟩ := Prod.mk.inj (Except.ok.inj h)
    rw [hbounded] at hinfo
    exact Prod.ext (IcsInfo.mk.inj hinfo).2.1 (IcsInfo.mk.inj hinfo).2.2

/-- The object is in the answer to every query whose range meets one of the occurrences. -/
def EventView.Found (object : EventView) (ical : ICalendar) : Prop :=
  ∀ objects timeRange n event, object ∈ objects → ical.occurrence n = some event →
    Overlaps timeRange event → object ∈ calendarQuery objects (some timeRange)

/-- A bounded event is found exactly if the occurrences that were not expanded lie within the
stored bounds, and those that take no time come before the later one. -/
theorem found_iff {entry : String → Option ICalendar} {object : EventView}
    (hstored : object.Stored entry ical) (hbounded : hasUnboundedRrule ical = false) :
    object.Found ical ↔
      (∀ n event, maxExpansions ≤ n → ical.occurrence n = some event →
        object.startsMin ≤ event.1 ∧ event.2 ≤ object.endsMax) ∧
      ∀ n event, ical.occurrence n = some event → event.1 = event.2 →
        event.2 < object.endsMax := by
  have hquery : ∀ {objects timeRange}, object ∈ calendarQuery objects (some timeRange) ↔
      object ∈ objects ∧ object.startsMin < timeRange.2.getD i64Max ∧
        timeRange.1.getD i64Min < object.endsMax := by
    simp [calendarQuery]
  constructor
  · intro hfound
    -- the narrowest ranges that meet an occurrence
    refine ⟨fun n event _ hevent => ?_, fun n event hevent hinstant => ?_⟩
    · have hin := hfound [object] (some (event.2 - 1), some (event.1 + 1)) n event mem_cons_self
        hevent ⟨by simp, by split <;> simp only [Option.getD_some] <;> omega⟩
      have := (hquery.1 hin).2
      simp only [Option.getD_some] at this
      omega
    · have hin := hfound [object] (some event.1, some (event.1 + 1)) n event mem_cons_self hevent
        ⟨by simp, by simp [hinstant]⟩
      exact hinstant ▸ (hquery.1 hin).2.2
  · rintro ⟨hlater, hinstants⟩ objects timeRange n event hobject hevent ⟨hfinish, hstart⟩
    have hbounds := hstored.bounds hbounded
    have hwithin : object.startsMin ≤ event.1 ∧ event.2 ≤ object.endsMax := by
      by_cases hn : n < maxExpansions
      · have hmem := ICalendar.mem_expandDates hn hevent
        exact ⟨(le_envelope_iff.1 (congrArg Prod.fst hbounds).ge).2 event hmem,
          (envelope_le_iff.1 (congrArg Prod.snd hbounds).le).2 event hmem⟩
      · exact hlater n event (not_lt.1 hn) hevent
    refine hquery.2 ⟨hobject, hwithin.1.trans_lt hfinish, ?_⟩
    split at hstart
    next hinstant => exact hstart.trans_lt (hinstant ▸ hinstants n event hevent hinstant)
    next => exact hstart.trans_le hwithin.2

/-! ## An event on every day -/

def daily (count : ℕ) (duration : ℤ) : ICalendar where
  uids := ["daily"]
  rules := [⟨none, some count⟩]
  occurrence n := if n < count then some (86400 * n, 86400 * n + duration) else none
  ended n h := by
    simp only [ite_eq_right_iff, reduceCtorEq, imp_false, not_lt] at h ⊢
    omega

def dailyEvent (count : ℕ) (duration : ℤ) : EventView :=
  let bounds := envelope ((daily count duration).expandDates maxExpansions)
  ⟨⟨1, 1, "daily.ics", some "daily", "", ""⟩, bounds.1, bounds.2⟩

section
variable {count : ℕ} {duration m : ℤ}

theorem dailyEvent_ends_le (hm : i64Min ≤ m)
    (h : ∀ n : ℕ, n < maxExpansions → n < count → 86400 * n + duration ≤ m) :
    (dailyEvent count duration).endsMax ≤ m := by
  refine envelope_le_iff.2 ⟨hm, fun event hevent => ?_⟩
  obtain ⟨n, hn, heq⟩ := mem_filterMap.1 hevent
  simp only [daily, Option.ite_none_right_eq_some, Option.some.injEq] at heq
  rw [← heq.2]
  exact h n (mem_range.1 hn) heq.1

theorem stored_dailyEvent : (dailyEvent (count + 1) duration).Stored
    (fun _ => some (daily (count + 1) duration)) (daily (count + 1) duration) := by
  have hfirst := ICalendar.mem_expandDates (n := 0) (by simp [maxExpansions] : 0 < maxExpansions)
    (show (daily (count + 1) duration).occurrence 0 = some (0, 0 + duration) by simp [daily])
  have hstarts : (dailyEvent (count + 1) duration).startsMin ≤ 0 :=
    (le_envelope_iff.1 (le_refl _)).2 _ hfirst
  exact ⟨"daily", if_neg (hstarts.trans_lt (by decide)).ne⟩

end

theorem dailyEvent_found : (dailyEvent 3 3600).Found (daily 3 3600) := by
  refine (found_iff stored_dailyEvent rfl).2 ⟨fun n event hn hevent => ?_, ?_⟩
  · rw [show maxExpansions = 4096 by simp [maxExpansions]] at hn
    simp [daily, show ¬n < 3 by omega] at hevent
  · simp [daily]

/-- A bounded event with an occurrence in the range that the query leaves out. -/
def Missed (count : ℕ) (duration start : ℤ) (n : ℕ) : Prop :=
  let object := dailyEvent count duration
  object.Stored (fun _ => some (daily count duration)) (daily count duration) ∧
    hasUnboundedRrule (daily count duration) = false ∧
    (∃ event, (daily count duration).occurrence n = some event ∧
      Overlaps (some start, none) event) ∧
    object ∉ calendarQuery [object] (some (some start, none))

theorem missed_of_ends_le {count n : ℕ} {duration start : ℤ} (hn : n < count + 1)
    (hoverlaps : Overlaps (some start, none) (86400 * n, 86400 * n + duration))
    (hends : (dailyEvent (count + 1) duration).endsMax ≤ start) :
    Missed (count + 1) duration start n := by
  refine ⟨stored_dailyEvent, rfl, ⟨_, if_pos hn, hoverlaps⟩, fun h => ?_⟩
  have hin := (mem_filter.1 h).2
  simp only [Bool.and_eq_true, decide_eq_true_eq, Option.getD_some] at hin
  omega

/-- The last of 4097 occurrences, and an occurrence that takes no time where the range
starts. -/
theorem dailyEvent_missed : Missed 4097 3600 (86400 * 4096) 4096 ∧ Missed 1 0 0 0 := by
  constructor
  · refine missed_of_ends_le (by decide) ⟨by decide, by decide⟩
      (dailyEvent_ends_le (by decide) fun n hn _ => ?_)
    rw [show maxExpansions = 4096 by simp [maxExpansions]] at hn
    omega
  · refine missed_of_ends_le (by decide) ⟨by decide, by decide⟩
      (dailyEvent_ends_le (by decide) fun n _ hn => ?_)
    omega

end IrixMail.Dav

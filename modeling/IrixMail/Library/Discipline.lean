import IrixMail.Library.Pool

/-!
# Programs told by their own past

Among other programs, a program knows the shared state only through the replies
it got. `Obeys guard E Q t p` says that `p`, which has the trace `t` behind it,
issues a command only when `guard` allows it after the trace so far, fails only
after a trace with `E`, and returns only values that `Q` allows. In a pool of such programs every event is one its
thread's guard allows, so that what holds of a run is proved from its events
alone, with `History` for what the machine does between them.
-/

namespace Library
open List
variable {S : Sig} {σ ι α β : Type}

/-- The commands a program has issued, with their replies, newest first. -/
abbrev Trace (S : Sig) := List (Σ c : S.Cmd, S.Res c)

namespace Prog

inductive Obeys (guard : Trace S → S.Cmd → Prop) (E : Trace S → Prop) (Q : Trace S → α → Prop) :
    Trace S → Prog S α → Prop
  | ret {t : Trace S} {a : α} : Q t a → Obeys guard E Q t (.ret a)
  | fail {t : Trace S} {e : S.Err} : E t → Obeys guard E Q t (.fail e)
  | call {t : Trace S} {c : S.Cmd} {k : Except S.Err (S.Res c) → Prog S α} :
      guard t c → (∀ r, Obeys guard E Q (⟨c, r⟩ :: t) (k (.ok r))) → Obeys guard E Q t (.call c k)

section
variable {guard : Trace S → S.Cmd → Prop} {E : Trace S → Prop} {Q : Trace S → α → Prop}
  {R : Trace S → β → Prop}

variable {p : Prog S α} {t : Trace S} {quiet : S.Cmd → Prop}

theorem Obeys.bind {f : α → Prog S β} (hp : Obeys guard E Q t p)
    (hf : ∀ u a, Q u a → Obeys guard E R u (f a)) : Obeys guard E R t (p >>= f) := by
  induction hp with
  | ret h => exact hf _ _ h
  | fail h => exact .fail h
  | call hc _ ih => exact .call hc ih

theorem Obeys.perform {c : S.Cmd} {f : S.Res c → Prog S β} (hc : guard t c)
    (hf : ∀ r, Obeys guard E R (⟨c, r⟩ :: t) (f r)) :
    Obeys guard E R t (Prog.perform c >>= f) := by
  exact .call hc hf

theorem Obeys.mono {Q' : Trace S → α → Prop} (hp : Obeys guard E Q t p)
    (h : ∀ u a, Q u a → Q' u a) : Obeys guard E Q' t p := by
  induction hp with
  | ret hq => exact .ret (h _ _ hq)
  | fail he => exact .fail he
  | call hc _ ih => exact .call hc ih

variable {E' : Trace S → Prop}

theorem Obeys.weaken {guard' : Trace S → S.Cmd → Prop} (hp : Obeys guard E Q t p)
    (h : ∀ u c, guard u c → guard' u c)
    (hE : ∀ u, E u → E' u) : Obeys guard' E' Q t p := by
  induction hp with
  | ret hq => exact .ret hq
  | fail he => exact .fail (hE _ he)
  | call hc _ ih => exact .call (h _ _ hc) ih

theorem Obeys.extends_of_suffix {base : Trace S} (hp : Obeys guard E Q t p)
    (hbase : base <:+ t) : Obeys (fun u c => guard u c ∧ base <:+ u) (fun u => E u ∧ base <:+ u)
      (fun u a => Q u a ∧ base <:+ u) t p := by
  induction hp with
  | ret hq => exact .ret ⟨hq, hbase⟩
  | fail he => exact .fail ⟨he, hbase⟩
  | call hc _ ih => exact .call ⟨hc, hbase⟩ fun r => ih r (hbase.trans (suffix_cons _ _))

theorem Obeys.extends (hp : Obeys guard E Q t p) :
    Obeys (fun u c => guard u c ∧ t <:+ u) (fun u => E u ∧ t <:+ u) (fun u a => Q u a ∧ t <:+ u)
      t p :=
  hp.extends_of_suffix suffix_rfl

/-- What comes next has the trace so far behind it. -/
theorem Obeys.andThen {f : α → Prog S β} (hp : Obeys guard E Q t p)
    (hf : ∀ u a, t <:+ u → Q u a → Obeys guard E R u (f a)) : Obeys guard E R t (p >>= f) :=
  (hp.extends.weaken (fun _ _ => And.left) fun _ => And.left).bind fun u a h => hf u a h.2 h.1

/-- A program that runs after others knows what it has done itself. -/
theorem Obeys.after (hp : Obeys guard E Q t p) (base : Trace S) :
    Obeys (fun u c => ∃ v, u = v ++ base ∧ guard v c) (fun u => ∃ v, u = v ++ base ∧ E v)
      (fun u a => ∃ v, u = v ++ base ∧ Q v a) (t ++ base) p := by
  induction hp with
  | ret hq => exact .ret ⟨_, rfl, hq⟩
  | fail he => exact .fail ⟨_, rfl, he⟩
  | call hc _ ih => exact .call ⟨_, rfl, hc⟩ ih

/-- A caught error comes after a trace that the error may come after. -/
theorem Obeys.attempt (hp : Obeys guard E Q t p) :
    Obeys guard E' (fun v r => (∀ a, r = .ok a → Q v a) ∧ ∀ e, r = .error e → E v) t p.attempt := by
  induction hp with
  | ret hq => exact .ret ⟨fun a ha => Except.ok.inj ha ▸ hq, nofun⟩
  | fail he => exact .ret ⟨nofun, fun _ _ => he⟩
  | call hc _ ih => exact .call hc ih

theorem Obeys.of_forall (hguard : ∀ t c, guard t c) (hE : ∀ t, E t) (hQ : ∀ t a, Q t a)
    (t : Trace S) (p : Prog S α) : Obeys guard E Q t p := by
  induction p generalizing t with
  | ret a => exact .ret (hQ t a)
  | fail e => exact .fail (hE t)
  | call c k ih => exact .call (hguard t c) fun r => ih _ _

/-- A quiet prefix is allowed by a guard that allows quiet commands. -/
theorem LeadsTo.obeys {stop : Prog S α → Prop} (hp : LeadsTo quiet stop p) (hquiet : ∀ t c, quiet c → guard t c) (hstop : ∀ u q, (∀ x ∈ u, quiet x.1) → stop q → Obeys guard E Q (u ++ t) q) :
    Obeys guard E Q t p := by
  induction hp generalizing t with
  | here hs => exact hstop [] _ (by simp) hs
  | @call c k hc _ ih =>
    refine .call (hquiet t c hc) fun r => ih r fun u q hu hs => ?_
    have hlonger : u ++ ⟨c, r⟩ :: t = (u ++ [⟨c, r⟩]) ++ t := by simp
    rw [hlonger]
    refine hstop _ q (fun x hx => ?_) hs
    rcases mem_append.1 hx with hx | hx
    · exact hu x hx
    · rw [mem_singleton.1 hx]
      exact hc

theorem Yields.obeys {P : α → Prop} (hp : Yields quiet P p) (hquiet : ∀ t c, quiet c → guard t c)
    (t : Trace S) :
    Obeys guard E (fun v a => P a ∧ ∃ u, (∀ x ∈ u, quiet x.1) ∧ v = u ++ t) t p :=
  LeadsTo.obeys hp hquiet fun u _ hu ⟨_, hq, ha⟩ => hq ▸ .ret ⟨ha, u, hu, rfl⟩

/-- What a program adds to its trace when all its commands are quiet. -/
theorem Obeys.quietly (hp : Obeys (fun _ => quiet) (fun _ => True) Q t p)
    (hquiet : ∀ t c, quiet c → guard t c) (hE : ∀ u, (∀ x ∈ u, quiet x.1) → E (u ++ t)) :
    Obeys guard E (fun v a => Q v a ∧ ∃ u, (∀ x ∈ u, quiet x.1) ∧ v = u ++ t) t p := by
  induction hp with
  | ret hq => exact .ret ⟨hq, [], by simp, rfl⟩
  | fail => exact .fail (hE [] (by simp))
  | @call t c k hc _ ih =>
    have hlonger {u : Trace S} (hu : ∀ x ∈ u, quiet x.1) (r : S.Res c) :
        ∀ x ∈ u ++ [⟨c, r⟩], quiet x.1 := forall_mem_append.2 ⟨hu, by simpa using hc⟩
    refine .call (hquiet t c hc) fun r =>
      (ih r fun u hu => by simpa using hE _ (hlonger hu r)).mono ?_
    rintro v a ⟨hq, u, hu, rfl⟩
    exact ⟨hq, _, hlonger hu r, by simp⟩

/-- What every allowed command preserves, a run of the program on its own preserves. -/
theorem Obeys.run_rel (hp : Obeys guard E Q t p) (m : Machine S σ)
    {R : σ → σ → Prop} (hrefl : ∀ s, R s s) (htrans : ∀ s t u, R s t → R t u → R s u)
    (hstep : ∀ t c s, guard t c → R s (m c s).2) (s : σ) : R s (p.run m s).2 := by
  induction hp generalizing s with
  | ret _ => exact hrefl s
  | fail _ => exact hrefl s
  | call hc _ ih => exact htrans _ _ _ (hstep _ _ s hc) (ih _ _)

/-- The trace that a program has behind it when it has run on its own. -/
def logged (m : Machine S σ) : Prog S α → σ → Trace S → Trace S
  | .ret _, _, t => t
  | .fail _, _, t => t
  | .call c k, s, t => logged m (k (.ok (m c s).1)) (m c s).2 (⟨c, (m c s).1⟩ :: t)

theorem Obeys.of_run (hp : Obeys guard E Q t p) (m : Machine S σ)
    {s : σ} {a : α} (h : (p.run m s).1 = .ok a) : Q (p.logged m s t) a := by
  induction hp generalizing s with
  | ret hq =>
    cases h
    exact hq
  | fail => cases h
  | call _ _ ih => exact ih _ h

theorem Obeys.of_run_error (hp : Obeys guard E Q t p) (m : Machine S σ)
    {s : σ} {e : S.Err} (h : (p.run m s).1 = .error e) : E (p.logged m s t) := by
  induction hp generalizing s with
  | ret => cases h
  | fail he => exact he
  | call _ _ ih => exact ih _ h

end
end Prog

/-! ## Histories -/

section
variable (m : Machine S σ)

/-- The events, newest first, lead the machine from `s₀` to `s`. -/
def History (s₀ : σ) : List (Event S σ ι) → σ → Prop
  | [], s => s = s₀
  | e :: t, s => s = (m e.cmd e.before).2 ∧ e.res = (m e.cmd e.before).1 ∧ History s₀ t e.before

variable {C : Event S σ ι → List (Event S σ ι) → Prop} {past post pre : List (Event S σ ι)}
  {s₀ s : σ} {e : Event S σ ι}

theorem History.invariant {I : List (Event S σ ι) → σ → Prop} (h : History m s₀ past s)
    (hC : Always C past) (hstart : I [] s₀)
    (hstep : ∀ e t, e.res = (m e.cmd e.before).1 → History m s₀ t e.before → C e t → Always C t →
      I t e.before → I (e :: t) (m e.cmd e.before).2) : I past s := by
  induction past generalizing s with
  | nil =>
    obtain rfl : s = s₀ := h
    exact hstart
  | cons e t ih =>
    obtain ⟨rfl, hres, hpast⟩ := h
    exact hstep e t hres hpast hC.1 hC.2 (ih hpast hC.2)

theorem History.split
    (h : History m s₀ (post ++ pre) s) : ∃ u, History m s₀ pre u ∧ History m u post s := by
  induction post generalizing s with
  | nil => exact ⟨s, h, rfl⟩
  | cons e post ih =>
    obtain ⟨hs, hres, hpast⟩ := h
    obtain ⟨u, hpre, hpost⟩ := ih hpast
    exact ⟨u, hpre, hs, hres, hpost⟩

theorem History.res_eq (h : History m s₀ past s)
    (he : e ∈ past) : e.res = (m e.cmd e.before).1 := by
  induction past generalizing s with
  | nil => cases he
  | cons e' past ih =>
    obtain ⟨-, hres, hpast⟩ := h
    rcases mem_cons.1 he with rfl | he
    · exact hres
    · exact ih hpast he

theorem Always.of_split (h : Always C (post ++ e :: pre)) : C e pre :=
  h.of_append.1

theorem Always.exists_of_mem (h : Always C past) (he : e ∈ past) :
    ∃ t, C e t := by
  obtain ⟨post, pre, rfl⟩ := append_of_mem he
  exact ⟨pre, h.of_split⟩

theorem Always.of_forall_split (h : ∀ post e t, past = post ++ e :: t → C e t) :
    Always C past := by
  induction past with
  | nil => trivial
  | cons e past ih =>
    refine ⟨h [] e past rfl, ih fun post x t hpast => ?_⟩
    exact h (e :: post) x t (by rw [hpast]; rfl)

theorem Always.and {D : Event S σ ι → List (Event S σ ι) → Prop} {t : List (Event S σ ι)}
    (hC : Always C t) (hD : Always D t) : Always (fun e u => C e u ∧ D e u) t := by
  induction t with
  | nil => trivial
  | cons e t ih => exact ⟨⟨hC.1, hD.1⟩, ih hC.2 hD.2⟩

end

variable [DecidableEq ι]

/-- What a thread has done, as it knows it itself. -/
def traceOf (i : ι) (past : List (Event S σ ι)) : Trace S :=
  (past.filter fun e => e.who = i).map fun e => ⟨e.cmd, e.res⟩

variable {e : Event S σ ι} {i : ι} {past : List (Event S σ ι)} {x : Σ c : S.Cmd, S.Res c}

theorem traceOf_cons_self (h : e.who = i)
    (past : List (Event S σ ι)) : traceOf i (e :: past) = ⟨e.cmd, e.res⟩ :: traceOf i past := by
  simp [traceOf, h]

theorem traceOf_cons_of_ne (h : e.who ≠ i)
    (past : List (Event S σ ι)) : traceOf i (e :: past) = traceOf i past := by
  simp [traceOf, h]

theorem exists_of_traceOf_eq {v u : Trace S}
    (h : traceOf i past = v ++ x :: u) :
    ∃ post e pre, past = post ++ e :: pre ∧ e.who = i ∧ ⟨e.cmd, e.res⟩ = x ∧ traceOf i pre = u := by
  induction past generalizing v with
  | nil => cases v <;> cases h
  | cons e past ih =>
    by_cases hwho : e.who = i
    · rw [traceOf_cons_self hwho] at h
      cases v with
      | nil => exact ⟨[], e, past, rfl, hwho, (cons.inj h).1, (cons.inj h).2⟩
      | cons y v =>
        obtain ⟨post, e', pre, hpast, he'⟩ := ih (cons.inj h).2
        exact ⟨e :: post, e', pre, by rw [hpast, cons_append], he'⟩
    · rw [traceOf_cons_of_ne hwho] at h
      obtain ⟨post, e', pre, hpast, he'⟩ := ih h
      exact ⟨e :: post, e', pre, by rw [hpast, cons_append], he'⟩

theorem mem_traceOf :
    x ∈ traceOf i past ↔ ∃ e ∈ past, e.who = i ∧ (⟨e.cmd, e.res⟩ : Σ c : S.Cmd, S.Res c) = x := by
  simp [traceOf, and_assoc]

namespace Pool
variable (m : Machine S σ) {guard : ι → Trace S → S.Cmd → Prop} {E : Trace S → Prop}
  {Q : ι → Trace S → α → Prop}

structure Obeying (guard : ι → Trace S → S.Cmd → Prop) (E : Trace S → Prop)
    (Q : ι → Trace S → α → Prop) (s₀ : σ) (p : Pool S σ ι α) : Prop where
  history : History m s₀ p.past p.state
  events : Always (fun e t => guard e.who (traceOf e.who t) e.cmd) p.past
  threads : ∀ i, Prog.Obeys (guard i) E (Q i) (traceOf i p.past) (p.thread i)

variable {p : Pool S σ ι α} {s₀ : σ} {i : ι}

theorem Obeying.step (h : Obeying m guard E Q s₀ p) (i : ι) :
    Obeying m guard E Q s₀ (p.step m i) := by
  rcases step_cases m p i with hsame | ⟨c, k, hthread⟩
  · rw [hsame]
    exact h
  · have hi := h.threads i
    rw [hthread] at hi
    rw [step_call m hthread]
    cases hi with
    | call hguard hk =>
      refine ⟨⟨rfl, rfl, h.history⟩, ⟨hguard, h.events⟩, fun j => ?_⟩
      dsimp only
      by_cases hj : j = i
      · subst hj
        rw [Function.update_self, traceOf_cons_self (by rfl)]
        exact hk (m c p.state).1
      · rw [Function.update_of_ne hj, traceOf_cons_of_ne (Ne.symm hj)]
        exact h.threads j

/-- Programs that obey their guards on their own obey them in every interleaving. -/
theorem obeying_run (s₀ : σ) {thread : ι → Prog S α}
    (h : ∀ i, Prog.Obeys (guard i) E (Q i) [] (thread i)) (is : List ι) :
    Obeying m guard E Q s₀ ((start s₀ thread).run m is) := by
  have hstart : Obeying m guard E Q s₀ (start s₀ thread) := ⟨rfl, trivial, h⟩
  generalize start s₀ thread = p at hstart
  induction is generalizing p with
  | nil => exact hstart
  | cons i is ih => exact ih (p.step m i) (hstart.step m i)

theorem history_run (s₀ : σ) (thread : ι → Prog S α) (is : List ι) :
    History m s₀ ((start s₀ thread).run m is).past ((start s₀ thread).run m is).state := by
  have hrun : Obeying m (fun _ _ _ => True) (fun _ => True) (fun _ _ _ => True) s₀ _ :=
    obeying_run m s₀ (fun i => .of_forall (fun _ _ => trivial) (fun _ => trivial)
      (fun _ _ => trivial) [] (thread i)) is
  exact hrun.history

theorem Obeying.returned (h : Obeying m guard E Q s₀ p) {a : α}
    (hi : p.thread i = .ret a) : Q i (traceOf i p.past) a := by
  have hthread := h.threads i
  rw [hi] at hthread
  cases hthread with
  | ret hq => exact hq

theorem Obeying.failed (h : Obeying m guard E Q s₀ p) {e : S.Err} (hi : p.thread i = .fail e) : E
    (traceOf i p.past) := by
  have hthread := h.threads i
  rw [hi] at hthread
  cases hthread with
  | fail he => exact he

end Pool
end Library

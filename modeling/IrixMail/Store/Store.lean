import IrixMail.Library.Table
import IrixMail.Store.Location

/-!
# The record store

The store is a finite table from locations to values. A batch applies its write
operations in order; what it leaves at a location is the composition of the
effects of its operations there, so a batch is read off one location at a time.
-/

namespace IrixMail.Store
open Library List

abbrev Records := AList Val

def Records.counter (s : Records) (c : CounterLoc) : ℤ := (s.lookup (.counter c)).getD 0

inductive WriteOp
  | set (l : Loc) (v : Val l)
  | delete (l : Loc)
  | add (c : CounterLoc) (amount : ℤ)

variable {ops : List WriteOp}

namespace WriteOp

def loc : WriteOp → Loc
  | set l _ => l
  | delete l => l
  | add c _ => .counter c

@[simp] theorem loc_set (l : Loc) (v : Val l) : (set l v).loc = l := rfl
@[simp] theorem loc_delete (l : Loc) : (delete l).loc = l := rfl
@[simp] theorem loc_add (c : CounterLoc) (n : ℤ) : (add c n).loc = .counter c := rfl

def apply (s : Records) : WriteOp → Records
  | set l v => s.insert l v
  | delete l => s.erase l
  | add c amount => s.insert (.counter c) (s.counter c + amount)

def effect (l : Loc) : WriteOp → Option (Val l) → Option (Val l)
  | set k v, x => if h : k = l then some (h ▸ v) else x
  | delete k, x => if k = l then none else x
  | add c amount, x =>
    match l, x with
    | .counter c', x => if c = c' then some (x.getD 0 + amount) else x
    | _, x => x

@[simp] theorem effect_set_self (l : Loc) (v : Val l) (x : Option (Val l)) :
    (set l v).effect l x = some v := by
  simp [effect]

@[simp] theorem effect_delete_self (l : Loc) (x : Option (Val l)) :
    (delete l).effect l x = none := by
  simp [effect]

@[simp] theorem effect_add_self (c : CounterLoc) (amount : ℤ) (x : Option ℤ) :
    (add c amount).effect (.counter c) x = some (x.getD 0 + amount) := by
  simp [effect]

variable {l : Loc}

theorem effect_of_ne {op : WriteOp} (h : op.loc ≠ l) (x : Option (Val l)) :
    op.effect l x = x := by
  cases op with
  | set k v => exact dif_neg h
  | delete k => exact if_neg h
  | add c amount =>
    cases l with
    | counter c' => exact if_neg fun hc => h (congrArg Loc.counter hc)
    | _ => rfl

theorem effect_set_of_ne {k : Loc} (h : k ≠ l) (v : Val k) (x : Option (Val l)) :
    (set k v).effect l x = x := dif_neg h

theorem lookup_apply (s : Records) (op : WriteOp) (l : Loc) :
    (op.apply s).lookup l = op.effect l (s.lookup l) := by
  by_cases h : op.loc = l
  · subst h
    cases op with
    | set k v => simp [apply]
    | delete k => simp [apply]
    | add c amount => simp [apply, Records.counter]
  · rw [effect_of_ne h]
    cases op with
    | set k v => exact AList.lookup_insert_ne (Ne.symm h)
    | delete k => exact AList.lookup_erase_ne (Ne.symm h)
    | add c amount => exact AList.lookup_insert_ne (Ne.symm h)

def effects (l : Loc) (ops : List WriteOp) (x : Option (Val l)) : Option (Val l) :=
  ops.foldl (fun x op => op.effect l x) x

@[simp] theorem effects_nil (l : Loc) (x : Option (Val l)) : effects l [] x = x := rfl
@[simp] theorem effects_cons (l : Loc) (op : WriteOp) (ops : List WriteOp) (x : Option (Val l)) :
    effects l (op :: ops) x = effects l ops (op.effect l x) := rfl
@[simp] theorem effects_append (l : Loc) (ops ops' : List WriteOp) (x : Option (Val l)) :
    effects l (ops ++ ops') x = effects l ops' (effects l ops x) := foldl_append

theorem effects_of_ne (h : ∀ op ∈ ops, op.loc ≠ l) (x : Option (Val l)) : effects l ops x = x := by
  induction ops with
  | nil => rfl
  | cons op ops ih =>
    rw [effects_cons, effect_of_ne (h op mem_cons_self)]
    exact ih fun o ho => h o (mem_cons_of_mem _ ho)

variable {post : List WriteOp}

theorem effects_set_last {v : Val l} (h : ∀ op ∈ post, op.loc ≠ l) (pre : List WriteOp)
    (x : Option (Val l)) :
    effects l (pre ++ set l v :: post) x = some v := by
  rw [effects_append, effects_cons, effect_set_self, effects_of_ne h]

theorem effects_delete_last (h : ∀ op ∈ post, op.loc ≠ l)
    (pre : List WriteOp) (x : Option (Val l)) :
    effects l (pre ++ delete l :: post) x = none := by
  rw [effects_append, effects_cons, effect_delete_self, effects_of_ne h]

theorem effects_none (h : ∀ op ∈ ops, op.loc = l → op = delete l) : effects l ops none = none := by
  induction ops with
  | nil => rfl
  | cons op ops ih =>
    have hfirst : op.effect l none = none := by
      by_cases hl : op.loc = l
      · rw [h op mem_cons_self hl, effect_delete_self]
      · exact effect_of_ne hl none
    rw [effects_cons, hfirst]
    exact ih fun o ho => h o (mem_cons_of_mem _ ho)

theorem effects_of_delete_mem
    (h : ∀ op ∈ ops, op.loc = l → op = delete l) (hl : delete l ∈ ops) (x : Option (Val l)) :
    effects l ops x = none := by
  obtain ⟨pre, post, rfl⟩ := append_of_mem hl
  rw [effects_append, effects_cons, effect_delete_self]
  refine effects_none fun op hop => h op ?_
  exact mem_append_right _ (mem_cons_of_mem _ hop)

theorem set_mem_of_effects (hl : ∀ c, l ≠ .counter c)
    {x : Option (Val l)} {v : Val l} (h : effects l ops x = some v) :
    x = some v ∨ set l v ∈ ops := by
  induction ops generalizing x with
  | nil => exact .inl h
  | cons op ops ih =>
    rcases ih h with hop | hmem
    · cases op with
      | set k w =>
        by_cases hk : k = l
        · subst hk
          obtain rfl : w = v := Option.some.inj ((effect_set_self k w x).symm.trans hop)
          exact .inr mem_cons_self
        · exact .inl ((effect_set_of_ne hk w x).symm.trans hop)
      | delete k =>
        by_cases hk : k = l
        · subst hk
          exact absurd ((effect_delete_self k x).symm.trans hop) (by simp)
        · exact .inl ((effect_of_ne (show (delete k).loc ≠ l from hk) x).symm.trans hop)
      | add c amount =>
        have hne : (add c amount).loc ≠ l := (hl c).symm
        exact .inl ((effect_of_ne hne x).symm.trans hop)
    · exact .inr (mem_cons_of_mem _ hmem)

end WriteOp

def Records.batch (s : Records) (ops : List WriteOp) : Records := ops.foldl WriteOp.apply s

theorem Records.batch_append (s : Records) (ops ops' : List WriteOp) :
    s.batch (ops ++ ops') = (s.batch ops).batch ops' := foldl_append

theorem Records.lookup_batch (s : Records) (ops : List WriteOp) (l : Loc) :
    (s.batch ops).lookup l = WriteOp.effects l ops (s.lookup l) := by
  induction ops generalizing s with
  | nil => rfl
  | cons op ops ih =>
    rw [WriteOp.effects_cons, ← WriteOp.lookup_apply]
    exact ih _

/-! ## Counters under a batch -/

namespace WriteOp

def amountAt (c : CounterLoc) : WriteOp → ℤ
  | add c' n => if c' = c then n else 0
  | _ => 0

theorem amountAt_add (c c' : CounterLoc) (n : ℤ) :
    (add c' n).amountAt c = if c' = c then n else 0 := rfl

def Additive : WriteOp → Prop
  | set l _ => ∀ c, l ≠ .counter c
  | delete l => ∀ c, l ≠ .counter c
  | add _ _ => True

theorem additive_add (c : CounterLoc) (n : ℤ) : (add c n).Additive := trivial

variable {op : WriteOp} {c : CounterLoc}

theorem additive_of_loc (h : ∀ c, op.loc ≠ .counter c) : op.Additive := by
  cases op with
  | set l v => exact h
  | delete l => exact h
  | add c n => exact (h c rfl).elim

theorem amountAt_of_ne (h : op.loc ≠ .counter c) :
    op.amountAt c = 0 := by
  cases op with
  | set l v => rfl
  | delete l => rfl
  | add c' n => exact if_neg fun hc => h (congrArg Loc.counter hc)

theorem sum_amountAt_of_ne (h : ∀ op ∈ ops, op.loc ≠ .counter c) :
    (ops.map (amountAt c)).sum = 0 := by
  apply sum_eq_zero
  intro x hx
  obtain ⟨op, hop, rfl⟩ := mem_map.1 hx
  exact amountAt_of_ne (h op hop)

theorem counter_apply (h : op.Additive) (s : Records) (c : CounterLoc) :
    (op.apply s : Records).counter c = s.counter c + op.amountAt c := by
  unfold Records.counter
  rw [lookup_apply]
  by_cases hc : op.loc = .counter c
  · cases op with
    | set l v => exact (h c hc).elim
    | delete l => exact (h c hc).elim
    | add c' n =>
      obtain rfl : c' = c := Loc.counter.inj hc
      simp [amountAt]
  · rw [effect_of_ne hc, amountAt_of_ne hc, add_zero]

end WriteOp

theorem Records.counter_batch (h : ∀ op ∈ ops, op.Additive) (s : Records) (c : CounterLoc) :
    (s.batch ops).counter c = s.counter c + (ops.map (WriteOp.amountAt c)).sum := by
  induction ops generalizing s with
  | nil => exact (add_zero _).symm
  | cons op ops ih =>
    have hop : op.Additive := h op mem_cons_self
    have hops := ih (fun o ho => h o (mem_cons_of_mem _ ho)) (op.apply s)
    rw [map_cons, sum_cons, ← add_assoc, ← WriteOp.counter_apply hop]
    exact hops

/-! ## Batches that stay within some kinds of records -/

namespace WriteOp

/-- The operations write only at locations of the listed kinds. -/
def Within (K : List LocKind) (ops : List WriteOp) : Prop := ∀ op ∈ ops, op.loc.kind ∈ K

variable {K : List LocKind} {ops ops' : List WriteOp}

theorem Within.mono {K' : List LocKind} (h : Within K ops) (hK : K ⊆ K') :
    Within K' ops :=
  fun op hop => hK (h op hop)

theorem Within.append (h : Within K ops) (h' : Within K ops') : Within K (ops ++ ops') :=
  forall_mem_append.2 ⟨h, h'⟩

theorem Within.cons {op : WriteOp} (hop : op.loc.kind ∈ K) (h : Within K ops) :
    Within K (op :: ops) :=
  forall_mem_cons.2 ⟨hop, h⟩

theorem within_nil : Within K [] := by simp [Within]

variable {l : Loc}

theorem Within.loc_ne (h : Within K ops) (hl : l.kind ∉ K) :
    ∀ op ∈ ops, op.loc ≠ l :=
  fun op hop heq => hl (heq ▸ h op hop)

theorem Within.effects_eq (h : Within K ops) (hl : l.kind ∉ K) (x : Option (Val l)) :
    effects l ops x = x :=
  effects_of_ne (h.loc_ne hl) x

theorem kind_counter_not_mem (hcounter : .counter ∉ K) (hnumber : .number ∉ K) (c : CounterLoc) :
    (Loc.counter c).kind ∉ K := by
  cases hc : c.isNumber with
  | true => simpa [hc] using hnumber
  | false => simpa [hc] using hcounter

theorem Within.additive (h : Within K ops) (hcounter : .counter ∉ K) (hnumber : .number ∉ K) :
    ∀ op ∈ ops, op.Additive :=
  fun op hop => additive_of_loc fun c => h.loc_ne (kind_counter_not_mem hcounter hnumber c) op hop

theorem Within.sum_amountAt (h : Within K ops) (hcounter : .counter ∉ K) (hnumber : .number ∉ K)
    (c : CounterLoc) : (ops.map (amountAt c)).sum = 0 :=
  sum_amountAt_of_ne fun op hop => h.loc_ne (kind_counter_not_mem hcounter hnumber c) op hop

end WriteOp

variable {l : Loc}

theorem Records.lookup_batch_within {K : List LocKind}
    (h : WriteOp.Within K ops) (hl : l.kind ∉ K) (s : Records) :
    (s.batch ops).lookup l = s.lookup l := by
  rw [Records.lookup_batch, h.effects_eq hl]

structure ValueAssert where
  loc : Loc
  expected : Option (Val loc)

def Records.meets (s : Records) (a : ValueAssert) : Bool := decide (s.lookup a.loc = a.expected)

def Records.iterate (s : Records) (p : KeyPrefix) : List (Sigma Val) :=
  Table.scan Loc.encode p.encode s

theorem Records.mem_iterate {s : Records} {p : KeyPrefix} {v : Val l} :
    (⟨l, v⟩ : Sigma Val) ∈ s.iterate p ↔ p.encode <+: l.encode ∧ s.lookup l = some v :=
  Table.mem_scan Loc.encode

end IrixMail.Store

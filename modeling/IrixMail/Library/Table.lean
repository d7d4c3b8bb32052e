import Mathlib.Data.List.AList
import Mathlib.Data.List.Sort
import Mathlib.Algebra.BigOperators.Group.Finset.Basic
import Mathlib.Algebra.Order.BigOperators.Group.List
import Mathlib.Algebra.Order.Ring.Int

/-!
# Finite tables with typed entries

Two ways to look at a whole table. `total` adds up a weight over its entries; it
depends on the lookups alone, so an update is accounted for at the locations it
changes. `scan` lists the entries whose key starts with given fields, in the
order of their keys.
-/

namespace Library.Table
open List
variable {α : Type} {β : α → Type}

def weigh (f : (a : α) → β a → ℤ) (a : α) : Option (β a) → ℤ
  | none => 0
  | some b => f a b

@[simp] theorem weigh_none (f : (a : α) → β a → ℤ) (a : α) : weigh f a none = 0 := rfl
@[simp] theorem weigh_some (f : (a : α) → β a → ℤ) (a : α) (b : β a) :
    weigh f a (some b) = f a b := rfl

def total (f : (a : α) → β a → ℤ) (s : AList β) : ℤ := (s.entries.map fun e => f e.1 e.2).sum

theorem total_nonneg {f : (a : α) → β a → ℤ} (hf : ∀ a b, 0 ≤ f a b) (s : AList β) :
    0 ≤ total f s := by
  refine sum_nonneg fun x hx => ?_
  obtain ⟨e, -, rfl⟩ := mem_map.1 hx
  exact hf e.1 e.2

section
variable [DecidableEq α]

theorem weight_le_total {f : (a : α) → β a → ℤ} (hf : ∀ a b, 0 ≤ f a b) {s : AList β} {a : α}
    {b : β a}
    (h : s.lookup a = some b) : f a b ≤ total f s := by
  refine single_le_sum (fun x hx => ?_) _ (mem_map.2 ⟨⟨a, b⟩, ?_, rfl⟩)
  · obtain ⟨e, -, rfl⟩ := mem_map.1 hx
    exact hf e.1 e.2
  · exact AList.mem_lookup_iff.1 h

variable (f : (a : α) → β a → ℤ)

theorem total_eq_sum_keys (s : AList β) :
    total f s = ∑ a ∈ s.keys.toFinset, weigh f a (s.lookup a) := by
  have hentries : s.entries.map (fun e => f e.1 e.2) =
      s.keys.map fun a => weigh f a (s.lookup a) := by
    rw [AList.keys, keys, map_map]
    apply map_congr_left
    rintro ⟨a, b⟩ he
    have hb : s.lookup a = some b := AList.mem_lookup_iff.2 he
    simp [hb]
  rw [total, hentries, ← sum_toFinset _ s.keys_nodup]

theorem total_eq_sum (s : AList β) {K : Finset α}
    (hK : ∀ a ∈ s, a ∈ K) : total f s = ∑ a ∈ K, weigh f a (s.lookup a) := by
  rw [total_eq_sum_keys]
  apply Finset.sum_subset
  · intro a ha
    exact hK a (AList.mem_keys.2 (mem_toFinset.1 ha))
  · intro a _ ha
    have hnone : s.lookup a = none :=
      AList.lookup_eq_none.2 fun h => ha (mem_toFinset.2 (AList.mem_keys.1 h))
    simp [hnone]

/-- Where nothing else of weight changes, the total changes by what changes at `a`. -/
theorem total_update (f : (a : α) → β a → ℤ) {s t : AList β} (a : α)
    (h : ∀ b, b ≠ a → t.lookup b = s.lookup b ∨ ∀ v, f b v = 0) :
    total f t = total f s - weigh f a (s.lookup a) + weigh f a (t.lookup a) := by
  let K : Finset α := insert a (s.keys.toFinset ∪ t.keys.toFinset)
  have hs : ∀ b ∈ s, b ∈ K := fun b hb => by simp [K, AList.mem_keys.1 hb]
  have ht : ∀ b ∈ t, b ∈ K := fun b hb => by simp [K, AList.mem_keys.1 hb]
  have ha : a ∈ K := Finset.mem_insert_self _ _
  have hweigh : ∀ b, b ≠ a → weigh f b (t.lookup b) = weigh f b (s.lookup b) := by
    intro b hb
    rcases h b hb with hlookup | hzero
    · rw [hlookup]
    · cases s.lookup b <;> cases t.lookup b <;> simp [hzero]
  have hrest : ∑ b ∈ K.erase a, weigh f b (t.lookup b) =
      ∑ b ∈ K.erase a, weigh f b (s.lookup b) :=
    Finset.sum_congr rfl fun b hb => hweigh b (Finset.ne_of_mem_erase hb)
  rw [total_eq_sum f s hs, total_eq_sum f t ht, ← Finset.add_sum_erase K _ ha,
    ← Finset.add_sum_erase K _ ha]
  omega

theorem total_congr {s t : AList β}
    (h : ∀ a, weigh f a (t.lookup a) = weigh f a (s.lookup a)) : total f t = total f s := by
  let K : Finset α := s.keys.toFinset ∪ t.keys.toFinset
  have hs : ∀ b ∈ s, b ∈ K := fun b hb => by simp [K, AList.mem_keys.1 hb]
  have ht : ∀ b ∈ t, b ∈ K := fun b hb => by simp [K, AList.mem_keys.1 hb]
  rw [total_eq_sum f s hs, total_eq_sum f t ht]
  exact Finset.sum_congr rfl fun b _ => h b

end

section Scan
variable (key : α → List ℕ)

def scan (fields : List ℕ) (s : AList β) : List (Sigma β) :=
  (s.entries.filter fun e => fields.isPrefixOf (key e.1)).insertionSort
    fun x y => key x.1 ≤ key y.1

theorem mem_scan [DecidableEq α] {fields : List ℕ} {s : AList β} {a : α} {b : β a} :
    (⟨a, b⟩ : Sigma β) ∈ scan key fields s ↔ fields <+: key a ∧ s.lookup a = some b := by
  rw [scan, mem_insertionSort, mem_filter, ← AList.mem_lookup_iff,
    isPrefixOf_iff_prefix, and_comm]
  rfl

theorem nodup_scan (fields : List ℕ) (s : AList β) : (scan key fields s).Nodup :=
  (perm_insertionSort _ _).nodup_iff.2 (s.nodupKeys.nodup.filter _)

theorem pairwise_scan (fields : List ℕ) (s : AList β) :
    (scan key fields s).Pairwise fun x y => key x.1 ≤ key y.1 := by
  exact pairwise_insertionSort _ _

/-- What a scan lists of a kind, counted over the whole table. -/
theorem countP_scan (p : Sigma β → Bool) (fields : List ℕ) (s : AList β) :
    ((scan key fields s).countP p : ℤ) =
      total (fun a b => if fields.isPrefixOf (key a) && p ⟨a, b⟩ then 1 else 0) s := by
  have hperm := (perm_insertionSort (fun x y : Sigma β => key x.1 ≤ key y.1)
    (s.entries.filter fun e => fields.isPrefixOf (key e.1))).countP_eq p
  rw [scan, hperm, countP_filter, total]
  generalize s.entries = entries
  induction entries with
  | nil => rfl
  | cons e rest ih =>
    rw [countP_cons, map_cons, sum_cons, ← ih, Bool.and_comm]
    split <;> simp [add_comm]

/-- A scan depends only on what is stored under the fields, if keys tell entries apart there. -/
theorem scan_congr [DecidableEq α] {fields : List ℕ} {s t : AList β}
    (hkey : ∀ a b, fields <+: key a → fields <+: key b → key a = key b → a = b)
    (h : ∀ a, fields <+: key a → s.lookup a = t.lookup a) :
    scan key fields s = scan key fields t := by
  refine List.Perm.eq_of_pairwise ?_ (pairwise_scan key fields s) (pairwise_scan key fields t) ?_
  · rintro ⟨a, x⟩ ⟨b, y⟩ ha hb hle hge
    obtain ⟨hfa, hx⟩ := (mem_scan key).1 ha
    obtain ⟨hfb, hy⟩ := (mem_scan key).1 hb
    obtain rfl := hkey a b hfa hfb (le_antisymm hle hge)
    rw [h a hfa, hy] at hx
    rw [Option.some.inj hx]
  · refine (perm_ext_iff_of_nodup (nodup_scan key fields s) (nodup_scan key fields t)).2 ?_
    rintro ⟨a, x⟩
    rw [mem_scan, mem_scan]
    exact and_congr_right fun hfields => by rw [h a hfields]

end Scan
end Library.Table

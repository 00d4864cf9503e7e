import Mathlib

/-!
# Finite maps

`Std.ExtTreeMap` over a type with a lawful comparison, with its lemmas in the form the proofs use: lookups after
`insert` and `erase` as an `if` on equality of keys, and the sum of a function over all entries, which changes at one
key only when one entry changes.
-/

namespace Maps

open Std List

variable {α β : Type} {cmp : α → α → Ordering} [TransCmp cmp]

theorem mem_iff_getElem? {m : ExtTreeMap α β cmp} {k : α} : k ∈ m ↔ ∃ v, m[k]? = some v := by
  rw [ExtTreeMap.mem_iff_isSome_getElem?, Option.isSome_iff_exists]

theorem contains_iff {m : ExtTreeMap α β cmp} {k : α} : m.contains k = true ↔ ∃ v, m[k]? = some v := by
  rw [ExtTreeMap.contains_iff_mem, mem_iff_getElem?]

theorem contains_of_some {m : ExtTreeMap α β cmp} {k : α} {v : β} (h : m[k]? = some v) : m.contains k = true :=
  contains_iff.mpr ⟨v, h⟩

theorem contains_eq_false_iff {m : ExtTreeMap α β cmp} {k : α} : m.contains k = false ↔ m[k]? = none := by
  rw [← ExtTreeMap.isSome_getElem?_eq_contains, Option.isSome_eq_false_iff, Option.isNone_iff_eq_none]

variable (m : ExtTreeMap α β cmp)

theorem values_eq : m.values = m.toList.map Prod.snd := by
  obtain ⟨inner⟩ := m
  induction inner using ExtDTreeMap.inductionOn with
  | mk t =>
    show t.inner.values = (DTreeMap.Internal.Impl.Const.toList t.inner).map Prod.snd
    simp [DTreeMap.Internal.Impl.values_eq_map_snd, DTreeMap.Internal.Impl.Const.toList_eq_toListModel_map]

variable [LawfulEqCmp cmp]

/-- The order in which a map runs over its keys: any rearrangement of them. -/
structure Iteration (α : Type) where
  order : List α → List α
  perm : ∀ keys, (order keys).Perm keys

/-- The order of the keys themselves. -/
def Iteration.sorted (α : Type) : Iteration α := ⟨fun keys => keys, fun _ => .refl _⟩

variable (it : Iteration α)

/-- The entries of a map, as an iteration meets them. -/
def Iteration.entries (m : ExtTreeMap α β cmp) : List (α × β) :=
  (it.order m.keys).filterMap fun k => m[k]?.map fun v => (k, v)

def Iteration.values (m : ExtTreeMap α β cmp) : List β := (it.entries m).map Prod.snd

theorem Iteration.entries_perm (m : ExtTreeMap α β cmp) : (it.entries m).Perm m.toList := by
  have hsorted : m.keys.filterMap (fun k => m[k]?.map fun v => (k, v)) = m.toList := by
    rw [← ExtTreeMap.map_fst_toList_eq_keys, filterMap_map]
    refine (filterMap_congr fun _ he => ?_).trans filterMap_some
    rw [Function.comp_apply, ExtTreeMap.mem_toList_iff_getElem?_eq_some.mp he]
    rfl
  rw [← hsorted]
  exact (it.perm m.keys).filterMap _

theorem Iteration.values_perm (m : ExtTreeMap α β cmp) : (it.values m).Perm m.values := by
  rw [values_eq]
  exact (it.entries_perm m).map Prod.snd

theorem Iteration.mem_entries {it : Iteration α} {m : ExtTreeMap α β cmp} {k : α} {v : β} :
    (k, v) ∈ it.entries m ↔ m[k]? = some v := by
  rw [(it.entries_perm m).mem_iff, ExtTreeMap.mem_toList_iff_getElem?_eq_some]

theorem keys_nodup : m.keys.Nodup := by
  refine m.distinct_keys.imp fun h heq => h ?_
  exact LawfulEqCmp.compare_eq_iff_eq.mpr heq

theorem Iteration.entries_nodup (m : ExtTreeMap α β cmp) : ((it.entries m).map Prod.fst).Nodup := by
  rw [((it.entries_perm m).map Prod.fst).nodup_iff, ExtTreeMap.map_fst_toList_eq_keys]
  exact keys_nodup m

theorem mem_values {m : ExtTreeMap α β cmp} {v : β} : v ∈ m.values ↔ ∃ k : α, m[k]? = some v := by
  simp only [values_eq, mem_map, Prod.exists, ExtTreeMap.mem_toList_iff_getElem?_eq_some, exists_eq_right]

theorem Iteration.mem_values {it : Iteration α} {m : ExtTreeMap α β cmp} {v : β} :
    v ∈ it.values m ↔ ∃ k : α, m[k]? = some v := by
  rw [(it.values_perm m).mem_iff, Maps.mem_values]

/-- Where the values know their keys, mapping the values gives the keys. -/
theorem map_values {m : ExtTreeMap α β cmp} {f : β → α} (h : ∀ (k : α) (v : β), m[k]? = some v → f v = k) :
    m.values.map f = m.keys := by
  rw [values_eq, ← ExtTreeMap.map_fst_toList_eq_keys, map_map]
  exact map_congr_left fun e he => h e.1 e.2 (ExtTreeMap.mem_toList_iff_getElem?_eq_some.mp he)

variable [DecidableEq α]

/-- A list that holds at most one value for each key holds the value of `k`, if there is one. -/
theorem filter_eq_toList {l : List β} {f : β → α} {k : α} {o : Option β} (hnodup : (l.map f).Nodup)
    (hmem : ∀ v, v ∈ l ∧ f v = k ↔ o = some v) : l.filter (f · = k) = o.toList := by
  have hmem' : ∀ v, v ∈ l.filter (f · = k) ↔ o = some v := fun v => by
    rw [mem_filter, decide_eq_true_eq]
    exact hmem v
  have hnodup' : (l.filter (f · = k)).Nodup := (List.Nodup.of_map f hnodup).filter _
  cases o with
  | none => exact eq_nil_iff_forall_not_mem.mpr fun v hv => by cases (hmem' v).mp hv
  | some v =>
    refine perm_singleton.mp ((perm_ext_iff_of_nodup hnodup' (nodup_singleton v)).mpr fun _ => ?_)
    rw [hmem', mem_singleton, Option.some.injEq, eq_comm]

@[simp] theorem getElem?_insert (k a : α) (v : β) :
    (m.insert k v)[a]? = if k = a then some v else m[a]? := by
  rw [ExtTreeMap.getElem?_insert]
  simp only [LawfulEqCmp.compare_eq_iff_eq]

@[simp] theorem getElem?_erase (k a : α) :
    (m.erase k)[a]? = if k = a then none else m[a]? := by
  rw [ExtTreeMap.getElem?_erase]
  simp only [LawfulEqCmp.compare_eq_iff_eq]

section total

variable {M : Type} [AddCommMonoid M]

/-- The sum of `f` over all entries. -/
def total (f : α → β → M) : M := (m.toList.map fun e => f e.1 e.2).sum

/-- The sum over the entries is the sum over any finite set that holds the keys. -/
theorem total_eq_sum (f : α → β → M) {s : Finset α} (hs : ∀ k ∈ m.keys, k ∈ s) :
    total m f = ∑ k ∈ s, m[k]?.elim 0 (f k) := by
  have hkeys := keys_nodup m
  have hmap : m.toList.map (fun e => f e.1 e.2) = m.keys.map fun k => m[k]?.elim 0 (f k) := by
    rw [← ExtTreeMap.map_fst_toList_eq_keys, map_map]
    refine map_congr_left fun e he => ?_
    rw [Function.comp_apply, ExtTreeMap.mem_toList_iff_getElem?_eq_some.mp he, Option.elim_some]
  rw [total, hmap, ← sum_toFinset _ hkeys]
  refine Finset.sum_subset (fun k hk => hs k (mem_toFinset.mp hk)) fun k _ hk => ?_
  rw [mem_toFinset, ExtTreeMap.mem_keys, mem_iff_getElem?] at hk
  cases h : m[k]? with
  | none => rfl
  | some v => exact absurd ⟨v, h⟩ hk

/-- When two maps differ at `k` only, their sums differ by the entries at `k`. -/
theorem total_eq_of_eq_off {m m' : ExtTreeMap α β cmp} {k : α} (f : α → β → M)
    (h : ∀ a, a ≠ k → m'[a]? = m[a]?) :
    total m' f + m[k]?.elim 0 (f k) = total m f + m'[k]?.elim 0 (f k) := by
  have hs : ∀ a ∈ m.keys, a ∈ insert k (m.keys.toFinset ∪ m'.keys.toFinset) := fun a ha => by simp [ha]
  have hs' : ∀ a ∈ m'.keys, a ∈ insert k (m.keys.toFinset ∪ m'.keys.toFinset) := fun a ha => by simp [ha]
  have hrest : ∀ t : Finset α, ∑ a ∈ t.erase k, m'[a]?.elim 0 (f a) = ∑ a ∈ t.erase k, m[a]?.elim 0 (f a) :=
    fun t => Finset.sum_congr rfl fun a ha => by rw [h a (Finset.ne_of_mem_erase ha)]
  rw [total_eq_sum m f hs, total_eq_sum m' f hs', ← Finset.sum_erase_add _ _ (Finset.mem_insert_self k _),
    ← Finset.sum_erase_add (a := k) _ _ (Finset.mem_insert_self k _), hrest, add_assoc, add_assoc]
  congr 1
  exact add_comm _ _

end total

end Maps

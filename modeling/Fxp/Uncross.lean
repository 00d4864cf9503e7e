import Fxp.Auction
import Mathlib

/-!
# The clearing price is optimal

The executable volume at a price `p` is the smaller of the quantity that buys at `p` and the quantity that sells at
`p`, as functions of every integer `p`.
-/

namespace Fxp.Auction

open Checked List

variable {orders : List AuctionOrder}

/-- The quantity of the orders that satisfy `P`. -/
def quantityOf (orders : List AuctionOrder) (P : AuctionOrder → Bool) : Nat :=
  ((orders.filter P).map (·.quantity)).sum

def isMarket (side : AuctionSide) (o : AuctionOrder) : Bool := o.side = side && o.limitPrice.isNone

/-- Whether the order is a limit order of this side with a limit price in `K`. -/
def isLimit (side : AuctionSide) (K : Int → Bool) (o : AuctionOrder) : Bool := o.side = side && o.limitPrice.any K

/-- Market buys and the limit buys with a limit of at least `p`. -/
def demand (orders : List AuctionOrder) (p : Int) : Nat :=
  quantityOf orders fun o => isMarket .buy o || isLimit .buy (p ≤ ·) o

/-- Market sells and the limit sells with a limit of at most `p`. -/
def supply (orders : List AuctionOrder) (p : Int) : Nat :=
  quantityOf orders fun o => isMarket .sell o || isLimit .sell (· ≤ p) o

def volumeAt (orders : List AuctionOrder) (p : Int) : Nat := min (demand orders p) (supply orders p)

def imbalanceAt (orders : List AuctionOrder) (p : Int) : Int := demand orders p - supply orders p

def IsLimitPrice (orders : List AuctionOrder) (p : Int) : Prop := ∃ o ∈ orders, o.limitPrice = some p

/-- The elements of `s` at which `f` is smallest. -/
def leastBy (f : Int → Nat) (s : Set Int) : Set Int := {p | p ∈ s ∧ ∀ q ∈ s, f p ≤ f q}

/-- The limit prices with this executable volume, the smallest imbalance and, among these, the smallest distance to
the reference price. -/
def bestPrices (orders : List AuctionOrder) (referencePrice : Option Int) (volume : Nat) : Set Int :=
  let balanced := leastBy (fun p => (imbalanceAt orders p).natAbs)
    {p | IsLimitPrice orders p ∧ volumeAt orders p = volume}
  match referencePrice with
  | none => balanced
  | some reference => leastBy (fun p => (p - reference).natAbs) balanced

/-- What a clearing result has to be. -/
structure Clears (orders : List AuctionOrder) (referencePrice : Option Int) (r : AuctionResult) : Prop where
  volume : (∃ p, IsLimitPrice orders p) → IsGreatest (Set.range (volumeAt orders)) r.volume
  imbalance : (∃ p, IsLimitPrice orders p) → 0 < r.volume → r.imbalance = imbalanceAt orders r.price
  highest : (∃ p, IsLimitPrice orders p) → 0 < r.volume →
    (∀ p ∈ bestPrices orders referencePrice r.volume, 0 < imbalanceAt orders p) →
    IsGreatest (bestPrices orders referencePrice r.volume) r.price
  lowest : (∃ p, IsLimitPrice orders p) → 0 < r.volume →
    ¬ (∀ p ∈ bestPrices orders referencePrice r.volume, 0 < imbalanceAt orders p) →
    IsLeast (bestPrices orders referencePrice r.volume) r.price
  market : ¬ (∃ p, IsLimitPrice orders p) →
    r.volume = (if referencePrice.isSome then
      min (quantityOf orders (isMarket .buy)) (quantityOf orders (isMarket .sell)) else 0) ∧
    (0 < r.volume → referencePrice = some r.price)
  noCross : r.volume = 0 →
    r.price = 0 ∧ r.imbalance = (quantityOf orders (·.side = .buy) : Int) - quantityOf orders (·.side = .sell)

theorem quantityOf_append_singleton (orders : List AuctionOrder) (o : AuctionOrder) (P : AuctionOrder → Bool) :
    quantityOf (orders ++ [o]) P = quantityOf orders P + if P o then o.quantity else 0 := by
  by_cases h : P o <;> simp [quantityOf, filter_append, h]

theorem quantityOf_or {P Q : AuctionOrder → Bool} (orders : List AuctionOrder) (h : ∀ o, P o → Q o → False) :
    quantityOf orders (fun o => P o || Q o) = quantityOf orders P + quantityOf orders Q := by
  induction orders using List.reverseRecOn with
  | nil => rfl
  | append_singleton _ o ih =>
    simp only [quantityOf_append_singleton, ih]
    cases hp : P o <;> cases hq : Q o
    · simp
    · simp; omega
    · simp; omega
    · exact absurd (h o hp hq) id

private theorem isMarket_isLimit {side} {K : Int → Bool} {o} (h : isMarket side o)
    (h' : isLimit side K o) : False := by
  cases hl : o.limitPrice <;> simp_all [isMarket, isLimit]

/-- The quantity of one side in an entry of the price table. -/
def sideOf : AuctionSide → Nat × Nat → Nat
  | .buy, e => e.1
  | .sell, e => e.2

private theorem totals_append (orders : List AuctionOrder) (o : AuctionOrder) :
    totals (orders ++ [o]) = (totals orders).add o := by
  simp [totals]

private theorem add_levels (t : Totals) (o : AuctionOrder) : (t.add o).levels = addLimit t.levels o := by
  cases h : o.side <;> simp [Totals.add, h]

private theorem totals_buys (orders : List AuctionOrder) :
    (totals orders).buys = quantityOf orders (·.side = .buy) := by
  induction orders using List.reverseRecOn with
  | nil => rfl
  | append_singleton _ o ih =>
    rw [totals_append, quantityOf_append_singleton, ← ih]
    cases h : o.side <;> simp [Totals.add, h]

private theorem totals_sells (orders : List AuctionOrder) :
    (totals orders).sells = quantityOf orders (isMarket .sell) := by
  induction orders using List.reverseRecOn with
  | nil => rfl
  | append_singleton _ o ih =>
    rw [totals_append, quantityOf_append_singleton, ← ih]
    cases h : o.side <;> cases h' : o.limitPrice <;> simp [Totals.add, isMarket, h, h']

private theorem totals_totalSells (orders : List AuctionOrder) :
    (totals orders).totalSells = quantityOf orders (·.side = .sell) := by
  induction orders using List.reverseRecOn with
  | nil => rfl
  | append_singleton _ o ih =>
    rw [totals_append, quantityOf_append_singleton, ← ih]
    cases h : o.side <;> simp [Totals.add, h]

private theorem mem_addLimit {levels o} {p : Int} :
    p ∈ addLimit levels o ↔ p ∈ levels ∨ o.limitPrice = some p := by
  rcases hl : o.limitPrice with _ | _
  · simp [addLimit, hl]
  cases hs : o.side <;>
    simp only [addLimit, hl, hs, Std.ExtTreeMap.mem_insert, Std.compare_eq_iff_eq, Option.some.injEq] <;>
    exact or_comm

private theorem mem_totals_levels {p : Int} :
    p ∈ (totals orders).levels ↔ IsLimitPrice orders p := by
  induction orders using List.reverseRecOn with
  | nil => simp [totals, IsLimitPrice]
  | append_singleton _ o ih =>
    rw [totals_append, add_levels, mem_addLimit, ih]
    simp only [IsLimitPrice, mem_append, mem_singleton]
    constructor
    · rintro (⟨o', ho', h⟩ | h)
      · exact ⟨o', .inl ho', h⟩
      · exact ⟨o, .inr rfl, h⟩
    · rintro ⟨o', ho' | rfl, h⟩
      · exact .inl ⟨o', ho', h⟩
      · exact .inr h

private theorem total_addLimit (levels : PriceTable) (o : AuctionOrder) (side : AuctionSide) (K : Int → Bool) :
    Maps.total (addLimit levels o) (fun k e => if K k then sideOf side e else 0) =
      Maps.total levels (fun k e => if K k then sideOf side e else 0) + if isLimit side K o then o.quantity else 0 := by
  rcases hl : o.limitPrice with _ | k
  · simp [addLimit, isLimit, hl]
  have hoff : ∀ a, a ≠ k → (addLimit levels o)[a]? = levels[a]? := by
    intro a ha
    cases hs : o.side <;> simp [addLimit, hl, hs, Ne.symm ha]
  have h := Maps.total_eq_of_eq_off (fun k e => if K k then sideOf side e else 0) hoff
  -- at `k` the entry grows by the quantity on the side of the order
  have hk : (addLimit levels o)[k]?.elim 0 (fun e => if K k then sideOf side e else 0) =
      levels[k]?.elim 0 (fun e => if K k then sideOf side e else 0) + if isLimit side K o then o.quantity else 0 := by
    cases hs : o.side <;> cases side <;> cases hK : K k <;> cases hlev : levels[k]? <;>
      simp [addLimit, isLimit, hl, hs, hK, hlev, sideOf]
  omega

private theorem total_levels (orders : List AuctionOrder) (side : AuctionSide) (K : Int → Bool) :
    Maps.total (totals orders).levels (fun k e => if K k then sideOf side e else 0) =
      quantityOf orders (isLimit side K) := by
  induction orders using List.reverseRecOn with
  | nil => rfl
  | append_singleton _ _ ih =>
    rw [totals_append, add_levels, total_addLimit, ih, quantityOf_append_singleton]

private theorem demand_eq (orders : List AuctionOrder) (p : Int) :
    demand orders p = quantityOf orders (isMarket .buy) + quantityOf orders (isLimit .buy (p ≤ ·)) :=
  quantityOf_or orders fun _ => isMarket_isLimit

private theorem supply_eq (orders : List AuctionOrder) (p : Int) :
    supply orders p = quantityOf orders (isMarket .sell) + quantityOf orders (isLimit .sell (· ≤ p)) :=
  quantityOf_or orders fun _ => isMarket_isLimit

def resultAt (orders : List AuctionOrder) (p : Int) : AuctionResult :=
  { price := p, volume := volumeAt orders p, imbalance := imbalanceAt orders p }

section sweep

variable {T pre L : List (Int × Nat × Nat)} {e : Int × Nat × Nat} (f : Nat × Nat → Nat)

section

variable (hT : T.Pairwise fun a b => a.1 < b.1) (h : T = pre ++ e :: L)
include hT h

private theorem sum_from : (T.map fun x => if e.1 ≤ x.1 then f x.2 else 0).sum = ((e :: L).map fun x => f x.2).sum := by
  subst h
  obtain ⟨-, hL, hpre⟩ := pairwise_append.mp hT
  have hzero : (pre.map fun x => if e.1 ≤ x.1 then f x.2 else 0).sum = 0 := by
    refine sum_eq_zero fun _ hn => ?_
    obtain ⟨x, hx, rfl⟩ := mem_map.mp hn
    exact if_neg (by have := hpre x hx e mem_cons_self; omega)
  have hrest : (L.map fun x => if e.1 ≤ x.1 then f x.2 else 0) = L.map fun x => f x.2 := by
    refine map_congr_left fun x hx => if_pos ?_
    have := rel_of_pairwise_cons hL hx
    omega
  rw [map_append, sum_append, hzero, map_cons, hrest, if_pos le_rfl, zero_add, map_cons]

private theorem sum_upto : (T.map fun x => if x.1 ≤ e.1 then f x.2 else 0).sum =
    (pre.map fun x => f x.2).sum + f e.2 := by
  subst h
  obtain ⟨-, hL, hpre⟩ := pairwise_append.mp hT
  have hzero : (L.map fun x => if x.1 ≤ e.1 then f x.2 else 0).sum = 0 := by
    refine sum_eq_zero fun _ hn => ?_
    obtain ⟨_, hx, rfl⟩ := mem_map.mp hn
    exact if_neg (by have := rel_of_pairwise_cons hL hx; omega)
  have hfirst : (pre.map fun x => if x.1 ≤ e.1 then f x.2 else 0) = pre.map fun x => f x.2 := by
    refine map_congr_left fun x hx => if_pos ?_
    have := hpre x hx e mem_cons_self
    omega
  rw [map_append, sum_append, hfirst, map_cons, sum_cons, hzero, if_pos le_rfl, add_zero]

end

end sweep

private theorem levels_sorted (levels : PriceTable) : levels.toList.Pairwise fun a b => a.1 < b.1 :=
  levels.ordered_keys_toList.imp fun h => Std.compare_eq_lt.mp h

/-- The sweep from the entry after `pre` on: the running totals are the market orders and the limits ahead (buys) or
passed (sells). -/
theorem candidates_suffix {pre L}
    (h : (totals orders).levels.toList = pre ++ L) :
    candidates L (quantityOf orders (isMarket .buy) + (L.map fun x => x.2.1).sum)
      (quantityOf orders (isMarket .sell) + (pre.map fun x => x.2.2).sum) =
        .ok (L.map fun x => resultAt orders x.1) := by
  induction L generalizing pre with
  | nil => rfl
  | cons e L ih =>
    have hsorted := levels_sorted (totals orders).levels
    have hd : demand orders e.1 = quantityOf orders (isMarket .buy) + (e.2.1 + (L.map fun x => x.2.1).sum) := by
      have hfrom := sum_from (sideOf .buy) hsorted h
      have htot := total_levels orders .buy (e.1 ≤ ·)
      simp only [Maps.total, decide_eq_true_eq] at htot
      rw [demand_eq, ← htot, hfrom, map_cons, sum_cons]
      rfl
    have hs : supply orders e.1 = quantityOf orders (isMarket .sell) + ((pre.map fun x => x.2.2).sum + e.2.2) := by
      have hupto := sum_upto (sideOf .sell) hsorted h
      have htot := total_levels orders .sell (· ≤ e.1)
      simp only [Maps.total, decide_eq_true_eq] at htot
      rw [supply_eq, ← htot, hupto]
      rfl
    have hnext := @ih (pre ++ [e]) (by simpa using h)
    have hsub : sub (quantityOf orders (isMarket .buy) + (e.2.1 + (L.map fun x => x.2.1).sum)) e.2.1 =
        .ok (quantityOf orders (isMarket .buy) + (L.map fun x => x.2.1).sum) := by
      rw [sub, if_pos (by omega)]
      congr 1
      omega
    rw [map_append, sum_append, map_singleton, sum_singleton] at hnext
    rw [map_cons, sum_cons, map_cons, candidates, hsub]
    simp only [ok_bind, add_assoc, hnext]
    rw [resultAt, volumeAt, imbalanceAt, hd, hs]

private theorem candidates_eq (orders : List AuctionOrder) :
    candidates (totals orders).levels.toList (totals orders).buys (totals orders).sells =
      .ok ((totals orders).levels.keys.map (resultAt orders)) := by
  have hbuys : (totals orders).buys =
      quantityOf orders (isMarket .buy) + ((totals orders).levels.toList.map fun x => x.2.1).sum := by
    have htot := total_levels orders .buy fun _ => true
    simp only [Maps.total, if_true] at htot
    rw [totals_buys, show ((totals orders).levels.toList.map fun x => x.2.1).sum = _ from htot,
      ← quantityOf_or orders fun _ => isMarket_isLimit]
    congr 1
    funext o
    cases hl : o.limitPrice <;> simp [isMarket, isLimit, hl]
  have h := @candidates_suffix orders [] _ (nil_append _).symm
  rw [map_nil, sum_nil, add_zero, ← totals_sells, ← hbuys] at h
  rw [h, ← Std.ExtTreeMap.map_fst_toList_eq_keys, map_map]
  rfl

theorem quantityOf_mono {P Q : AuctionOrder → Bool} (h : ∀ o ∈ orders, P o → Q o) :
    quantityOf orders P ≤ quantityOf orders Q := by
  induction orders using List.reverseRecOn with
  | nil => exact le_rfl
  | append_singleton _ o ih =>
    rw [quantityOf_append_singleton, quantityOf_append_singleton]
    refine Nat.add_le_add (ih fun o' ho' => h o' (mem_append_left _ ho')) ?_
    by_cases hp : P o
    · rw [if_pos hp, if_pos (h o (by simp) hp)]
    · rw [if_neg hp]
      exact Nat.zero_le _

private theorem volumeAt_le {p q : Int}
    (hbuy : ∀ l, IsLimitPrice orders l → p ≤ l → q ≤ l) (hsell : ∀ l, IsLimitPrice orders l → l ≤ p → l ≤ q) :
    volumeAt orders p ≤ volumeAt orders q := by
  refine min_le_min (quantityOf_mono fun o ho h => ?_) (quantityOf_mono fun o ho h => ?_)
  · rcases hl : o.limitPrice with _ | l
    · simpa [isMarket, isLimit, hl] using h
    simp only [isMarket, isLimit, hl, Option.isNone_some, Option.any_some, Bool.and_false, Bool.false_or,
      Bool.and_eq_true, decide_eq_true_eq] at h ⊢
    exact ⟨h.1, hbuy l ⟨o, ho, hl⟩ h.2⟩
  · rcases hl : o.limitPrice with _ | l
    · simpa [isMarket, isLimit, hl] using h
    simp only [isMarket, isLimit, hl, Option.isNone_some, Option.any_some, Bool.and_false, Bool.false_or,
      Bool.and_eq_true, decide_eq_true_eq] at h ⊢
    exact ⟨h.1, hsell l ⟨o, ho, hl⟩ h.2⟩

/-- Every price is matched by a limit price: the next limit above it or, above all limits, the highest one. -/
theorem exists_limitPrice (h : ∃ l, IsLimitPrice orders l) (p : Int) :
    ∃ l, IsLimitPrice orders l ∧ volumeAt orders p ≤ volumeAt orders l := by
  by_cases hup : ∃ l, IsLimitPrice orders l ∧ p ≤ l
  · obtain ⟨k, ⟨hk, hpk⟩, hleast⟩ :=
      Int.exists_least_of_bdd (P := fun l => IsLimitPrice orders l ∧ p ≤ l) ⟨p, fun l hl => hl.2⟩ hup
    exact ⟨k, hk, volumeAt_le (fun l hl hpl => hleast l ⟨hl, hpl⟩) fun l _ hlp => hlp.trans hpk⟩
  have hbelow : ∀ l, IsLimitPrice orders l → l ≤ p := fun l hl => by
    by_contra hlp
    exact hup ⟨l, hl, by omega⟩
  obtain ⟨k, hk, hgreatest⟩ := Int.exists_greatest_of_bdd (P := IsLimitPrice orders) ⟨p, hbelow⟩ h
  exact ⟨k, hk, volumeAt_le (fun l hl hpl => absurd ⟨l, hl, hpl⟩ hup) fun l hl _ => hgreatest l hl⟩

/-- `l` lists the candidates at the prices in `s`, in increasing price. -/
structure Lists (orders : List AuctionOrder) (l : List AuctionResult) (s : Set Int) : Prop where
  sorted : l.Pairwise fun a b => a.price < b.price
  mem : ∀ r, r ∈ l ↔ r.price ∈ s ∧ r = resultAt orders r.price

variable {orders : List AuctionOrder} {l : List AuctionResult} {s : Set Int}

theorem Lists.filter (h : Lists orders l s) {P : AuctionResult → Bool} {Q : Int → Prop}
    (hPQ : ∀ r ∈ l, P r ↔ Q r.price) : Lists orders (l.filter P) {p | p ∈ s ∧ Q p} where
  sorted := h.sorted.filter P
  mem r := by
    rw [mem_filter, Set.mem_ofPred_eq]
    constructor
    · rintro ⟨hr, hP⟩
      obtain ⟨hs, hres⟩ := (h.mem r).mp hr
      exact ⟨⟨hs, (hPQ r hr).mp hP⟩, hres⟩
    · rintro ⟨⟨hs, hQ⟩, hres⟩
      have hr := (h.mem r).mpr ⟨hs, hres⟩
      exact ⟨hr, (hPQ r hr).mpr hQ⟩

theorem Lists.resultAt_mem (h : Lists orders l s) {p : Int} (hp : p ∈ s) : resultAt orders p ∈ l :=
  (h.mem _).mpr ⟨hp, rfl⟩

section

variable (h : Lists orders l s) (hne : l ≠ [])
include h hne

private theorem closestBy_spec {f : AuctionResult → Nat} {g : Int → Nat} (hfg : ∀ r ∈ l, f r = g r.price) :
    ∃ l', closestBy f l = .ok l' ∧ l' ≠ [] ∧ Lists orders l' (leastBy g s) := by
  obtain ⟨m, hm⟩ : ∃ m, (l.map f).min? = some m := by
    rw [← Option.isSome_iff_exists, Option.isSome_iff_ne_none]
    simpa [min?_eq_none_iff] using hne
  obtain ⟨hmem, hleast⟩ := min?_eq_some_iff.mp hm
  obtain ⟨r, hr, hrm⟩ := mem_map.mp hmem
  refine ⟨l.filter (f · = m), by rw [closestBy, hm, get_some, ok_bind], ?_, ?_⟩
  · exact ne_nil_of_mem (mem_filter.mpr ⟨hr, by simpa using hrm⟩)
  refine h.filter (P := (f · = m)) (Q := fun p => ∀ q ∈ s, g p ≤ g q) fun r' hr' => ?_
  rw [decide_eq_true_eq, hfg r' hr']
  constructor
  · intro heq q hq
    rw [heq]
    have hq' := h.resultAt_mem hq
    have := hleast _ (mem_map_of_mem hq')
    rwa [hfg _ hq'] at this
  · intro hall
    have h1 := hall r.price ((h.mem r).mp hr).1
    have h2 := hleast _ (mem_map_of_mem hr')
    rw [hfg r' hr'] at h2
    rw [← hfg r hr, hrm] at h1
    omega

theorem Lists.head? : ∃ r, l.head? = some r ∧ IsLeast s r.price ∧ r = resultAt orders r.price := by
  rcases l with _ | ⟨r, _⟩
  · exact absurd rfl hne
  obtain ⟨hs, hres⟩ := (h.mem r).mp mem_cons_self
  refine ⟨r, rfl, ⟨hs, fun _ hp => ?_⟩, hres⟩
  rcases mem_cons.mp (h.resultAt_mem hp) with heq | hmem
  · rw [← heq]
    exact le_rfl
  · exact (rel_of_pairwise_cons h.sorted hmem).le

theorem Lists.getLast? : ∃ r, l.getLast? = some r ∧ IsGreatest s r.price ∧ r = resultAt orders r.price := by
  obtain ⟨r, hr⟩ : ∃ r, l.getLast? = some r := ⟨l.getLast hne, getLast?_eq_some_getLast hne⟩
  obtain ⟨_, rfl⟩ := getLast?_eq_some_iff.mp hr
  obtain ⟨hs, hres⟩ := (h.mem r).mp (by simp)
  refine ⟨r, hr, ⟨hs, fun _ hp => ?_⟩, hres⟩
  rcases mem_append.mp (h.resultAt_mem hp) with hmem | hmem
  · exact ((pairwise_append.mp h.sorted).2.2 _ hmem r (by simp)).le
  · rw [← mem_singleton.mp hmem]
    exact le_rfl

private theorem choose_spec (referencePrice : Option Int) :
    let balanced := leastBy (fun p => (imbalanceAt orders p).natAbs) s
    let best :=
      match referencePrice with
      | none => balanced
      | some reference => leastBy (fun p => (p - reference).natAbs) balanced
    ∃ r, choose l referencePrice = .ok r ∧ r = resultAt orders r.price ∧
      ((∀ p ∈ best, 0 < imbalanceAt orders p) → IsGreatest best r.price) ∧
      (¬ (∀ p ∈ best, 0 < imbalanceAt orders p) → IsLeast best r.price) := by
  intro balanced best
  obtain ⟨l₁, hl₁, hne₁, h₁⟩ := closestBy_spec h hne (f := (·.imbalance.natAbs))
    (g := fun p => (imbalanceAt orders p).natAbs) fun r hr => by rw [((h.mem r).mp hr).2]; rfl
  obtain ⟨l₂, hl₂, hne₂, h₂⟩ : ∃ l₂, choose l referencePrice =
      (if l₂.all (0 < ·.imbalance) then get l₂.getLast? else get l₂.head?) ∧ l₂ ≠ [] ∧ Lists orders l₂ best := by
    rcases referencePrice with _ | reference
    · exact ⟨l₁, by simp only [choose, hl₁, ok_bind], hne₁, h₁⟩
    obtain ⟨l₂, hl₂, hne₂, h₂⟩ := closestBy_spec h₁ hne₁ (f := fun r => (r.price - reference).natAbs)
      (g := fun p => (p - reference).natAbs) fun r _ => rfl
    exact ⟨l₂, by simp only [choose, hl₁, hl₂, ok_bind], hne₂, h₂⟩
  have hall : l₂.all (0 < ·.imbalance) ↔ ∀ p ∈ best, 0 < imbalanceAt orders p := by
    simp only [all_eq_true, decide_eq_true_eq]
    constructor
    · exact fun hpos p hp => hpos _ (h₂.resultAt_mem hp)
    intro hpos r hr
    obtain ⟨hp, hres⟩ := (h₂.mem r).mp hr
    rw [hres]
    exact hpos _ hp
  rw [hl₂]
  by_cases hpos : l₂.all (0 < ·.imbalance)
  · obtain ⟨r, hr, hgreatest, hres⟩ := h₂.getLast? hne₂
    exact ⟨r, by rw [if_pos hpos, hr, get_some], hres, fun _ => hgreatest, fun hn => absurd (hall.mp hpos) hn⟩
  · obtain ⟨r, hr, hleast, hres⟩ := h₂.head? hne₂
    exact ⟨r, by rw [if_neg hpos, hr, get_some], hres, fun hp => absurd (hall.mpr hp) hpos, fun _ => hleast⟩

end

private theorem levels_isEmpty :
    (totals orders).levels.isEmpty ↔ ¬ ∃ p, IsLimitPrice orders p := by
  rw [Std.ExtTreeMap.isEmpty_iff, Std.ExtTreeMap.eq_empty_iff_forall_not_mem]
  simp only [mem_totals_levels, not_exists]

private theorem lists_keys (orders : List AuctionOrder) :
    Lists orders ((totals orders).levels.keys.map (resultAt orders)) {p | IsLimitPrice orders p} where
  sorted := by
    rw [pairwise_map]
    exact (totals orders).levels.ordered_keys.imp fun h => Std.compare_eq_lt.mp h
  mem r := by
    simp only [mem_map, Std.ExtTreeMap.mem_keys, mem_totals_levels, Set.mem_ofPred_eq]
    constructor
    · rintro ⟨_, hp, rfl⟩
      exact ⟨hp, rfl⟩
    · rintro ⟨hp, hres⟩
      exact ⟨r.price, hp, hres.symm⟩

theorem Clears.of_market {referencePrice : Option Int} {r : AuctionResult}
    (h : ¬ ∃ p, IsLimitPrice orders p)
    (hvolume : r.volume = if referencePrice.isSome then
      min (quantityOf orders (isMarket .buy)) (quantityOf orders (isMarket .sell)) else 0)
    (hprice : 0 < r.volume → referencePrice = some r.price)
    (hzero : r.volume = 0 → r.price = 0 ∧
      r.imbalance = (quantityOf orders (·.side = .buy) : Int) - quantityOf orders (·.side = .sell)) :
    Clears orders referencePrice r where
  volume hl := absurd hl h
  imbalance hl := absurd hl h
  highest hl := absurd hl h
  lowest hl := absurd hl h
  market _ := ⟨hvolume, hprice⟩
  noCross := hzero

private theorem uncross_market (h : ¬ ∃ p, IsLimitPrice orders p)
    (referencePrice : Option Int) :
    ∃ r, uncross orders referencePrice = .ok r ∧ Clears orders referencePrice r := by
  have hempty : (totals orders).levels.isEmpty := levels_isEmpty.mpr h
  have hbuys : quantityOf orders (·.side = .buy) = quantityOf orders (isMarket .buy) := by
    refine le_antisymm (quantityOf_mono fun o ho hside => ?_) (quantityOf_mono fun o ho hside => ?_)
    · cases hl : o.limitPrice with
      | none => simpa [isMarket, hl] using hside
      | some p => exact absurd ⟨p, o, ho, hl⟩ h
    · simp only [isMarket, Bool.and_eq_true] at hside
      exact hside.1
  have hnet : ((totals orders).buys : Int) - (totals orders).totalSells =
      (quantityOf orders (·.side = .buy) : Int) - quantityOf orders (·.side = .sell) := by
    rw [totals_buys, totals_totalSells]
  have hmin : min (totals orders).buys (totals orders).sells =
      min (quantityOf orders (isMarket .buy)) (quantityOf orders (isMarket .sell)) := by
    rw [totals_buys, totals_sells, hbuys]
  unfold uncross
  simp only [if_pos hempty, hmin, hnet]
  rcases referencePrice with _ | _
  · exact ⟨_, rfl, Clears.of_market h rfl (fun h0 => absurd h0 (lt_irrefl 0)) fun _ => ⟨rfl, rfl⟩⟩
  by_cases hpos : 0 < min (quantityOf orders (isMarket .buy)) (quantityOf orders (isMarket .sell))
  · exact ⟨_, if_pos hpos, Clears.of_market h rfl (fun _ => rfl) fun h0 => absurd h0 hpos.ne'⟩
  · exact ⟨_, if_neg hpos, Clears.of_market h (Nat.eq_zero_of_not_pos hpos).symm
      (fun h0 => absurd h0 (lt_irrefl 0)) fun _ => ⟨rfl, rfl⟩⟩

/-- With a limit order the sweep finds the largest volume over all prices, and `choose` breaks the ties. -/
theorem uncross_limit (h : ∃ p, IsLimitPrice orders p) (referencePrice : Option Int) :
    ∃ r, uncross orders referencePrice = .ok r ∧ Clears orders referencePrice r := by
  have hlists := lists_keys orders
  obtain ⟨p₀, hp₀⟩ := h
  have hne := ne_nil_of_mem (hlists.resultAt_mem hp₀)
  have hempty : ¬ (totals orders).levels.isEmpty := fun he => levels_isEmpty.mp he ⟨p₀, hp₀⟩
  generalize hl : (totals orders).levels.keys.map (resultAt orders) = l at hlists hne
  obtain ⟨m, hm⟩ : ∃ m, (l.map (·.volume)).max? = some m := by
    rw [← Option.isSome_iff_exists, Option.isSome_iff_ne_none]
    simpa [max?_eq_none_iff] using hne
  obtain ⟨hmem, hgreatest⟩ := max?_eq_some_iff.mp hm
  obtain ⟨r₀, hr₀, hvol₀⟩ := mem_map.mp hmem
  have hvol : ∀ r ∈ l, r.volume = volumeAt orders r.price := fun r hr => by rw [((hlists.mem r).mp hr).2]; rfl
  have hmax : IsGreatest (Set.range (volumeAt orders)) m := by
    refine ⟨⟨r₀.price, (hvol r₀ hr₀).symm.trans hvol₀⟩, ?_⟩
    rintro _ ⟨p, rfl⟩
    obtain ⟨_, hk, hle⟩ := exists_limitPrice ⟨p₀, hp₀⟩ p
    exact hle.trans (hgreatest _ (mem_map.mpr ⟨_, hlists.resultAt_mem hk, rfl⟩))
  have huncross : uncross orders referencePrice =
      if m = 0 then
        .ok { price := 0, volume := 0, imbalance := (totals orders).buys - (totals orders).totalSells }
      else choose (l.filter (·.volume = m)) referencePrice := by
    unfold uncross
    simp only [if_neg hempty, candidates_eq, ok_bind, hl, hm, get_some]
  rw [huncross]
  by_cases hzero : m = 0
  · subst hzero
    refine ⟨_, if_pos rfl, fun _ => hmax, fun _ h0 => absurd h0 (lt_irrefl 0), fun _ h0 => absurd h0 (lt_irrefl 0),
      fun _ h0 => absurd h0 (lt_irrefl 0), fun hno => absurd ⟨p₀, hp₀⟩ hno, fun _ => ⟨rfl, ?_⟩⟩
    simp only [totals_buys, totals_totalSells]
  rw [if_neg hzero]
  have hfilter := hlists.filter (P := (·.volume = m)) (Q := fun p => volumeAt orders p = m) fun r hr => by
    rw [decide_eq_true_eq, hvol r hr]
  have hne' : l.filter (·.volume = m) ≠ [] :=
    ne_nil_of_mem (mem_filter.mpr ⟨hr₀, by simpa using hvol₀⟩)
  obtain ⟨r, hr, hres, hhigh, hlow⟩ := choose_spec hfilter hne' referencePrice
  have hrm : r.volume = m := by
    have hbest : r.price ∈ bestPrices orders referencePrice m := by
      by_cases hpos : ∀ p ∈ bestPrices orders referencePrice m, 0 < imbalanceAt orders p
      · exact (hhigh hpos).1
      · exact (hlow hpos).1
    rw [hres]
    cases referencePrice with
    | none => exact hbest.1.2
    | some => exact hbest.1.1.2
  refine ⟨r, hr, fun _ => by rwa [hrm], fun _ _ => by rw [hres]; rfl, fun _ _ => by rwa [hrm],
    fun _ _ => by rwa [hrm], fun hno => absurd ⟨p₀, hp₀⟩ hno, fun h0 => absurd (hrm.symm.trans h0) hzero⟩

theorem exists_clears (orders : List AuctionOrder) (referencePrice : Option Int) :
    ∃ r, uncross orders referencePrice = .ok r ∧ Clears orders referencePrice r := by
  by_cases hlimit : ∃ p, IsLimitPrice orders p
  · exact uncross_limit hlimit referencePrice
  · exact uncross_market hlimit referencePrice

end Fxp.Auction

namespace Fxp

open Auction in
/-- `uncross` never underflows and returns the optimal clearing of any orders. -/
theorem uncross_clears (orders : List AuctionOrder) (referencePrice : Option Int) :
    ∃ r, uncross orders referencePrice = .ok r ∧ Clears orders referencePrice r :=
  exists_clears orders referencePrice

end Fxp

import Fxp.Safety

/-!
# Fill or kill

A sweep can reach all of the levels before the first own order of the aggressor, and of that order's level the slices
in front of it. `reach` is this quantity.
-/

namespace Fxp.OrderBook

open List

variable {b b' : OrderBook} {order : Order}

/-- The levels that an order crosses, the best price first. -/
structure Ladder (b : OrderBook) (order : Order) (l : List (Int × List Order)) : Prop where
  sorted : l.Pairwise fun x y => better order.side.opposite x.1 y.1 ∧ x.1 ≠ y.1
  mem : ∀ p q, (p, q) ∈ l ↔ b.queue order.side.opposite p = q ∧ q ≠ [] ∧ crosses order p = true

theorem Ladder.price_eq {l} (h : Ladder b order l) (hwf : b.WF) {p : Int} {q}
    (hq : (p, q) ∈ l) {o} (ho : o ∈ q) : o.price = p := by
  obtain ⟨hqueue, -⟩ := (h.mem p q).mp hq
  rw [← hqueue] at ho
  exact (hwf.placed _ _ o ho).2

private theorem exists_ladder (h : b.NoEmpty) (order : Order) :
    ∃ l, Ladder b order l ∧ b.crossing order = l.flatMap Prod.snd := by
  have hmem : ∀ (s : OrderSide) (p : Int) (q : List Order), (p, q) ∈ (b.levels s).toList ↔
      b.queue s p = q ∧ q ≠ [] := by
    intro s p q
    rw [Std.ExtTreeMap.mem_toList_iff_getElem?_eq_some, levels_getElem? h]
    constructor
    · intro heq
      split at heq
      · cases heq
      rename_i hne
      cases heq
      exact ⟨rfl, hne⟩
    · rintro ⟨rfl, hne⟩
      rw [if_neg hne]
  have hsorted : ∀ s : OrderSide, (b.levels s).toList.Pairwise fun x y => x.1 < y.1 := by
    intro s
    refine (Std.ExtTreeMap.ordered_keys_toList (t := b.levels s)).imp fun {x y} hxy => ?_
    exact Std.compare_eq_lt.mp hxy
  cases hs : order.side with
  | buy =>
    refine ⟨b.sellOrders.toList.filter fun e => e.1 ≤ order.price, ⟨?_, fun p q => ?_⟩, by simp [crossing, hs]⟩
    · refine ((hsorted .sell).filter _).imp fun {x y} hxy => ?_
      rw [hs]
      exact ⟨hxy.le, hxy.ne⟩
    · rw [mem_filter, show b.sellOrders = b.levels .sell from rfl, hmem, hs, and_assoc]
      simp [crosses, hs, OrderSide.opposite]
  | sell =>
    refine ⟨(b.buyOrders.toList.filter fun e => order.price ≤ e.1).reverse, ⟨?_, fun p q => ?_⟩, by simp [crossing, hs]⟩
    · rw [pairwise_reverse]
      refine ((hsorted .buy).filter _).imp fun {x y} hxy => ?_
      rw [hs]
      exact ⟨hxy.le, hxy.ne'⟩
    · rw [mem_reverse, mem_filter, show b.buyOrders = b.levels .buy from rfl, hmem, hs, and_assoc]
      simp [crosses, hs, OrderSide.opposite]

private theorem crosses_of_better {p q : Int} (h : better order.side.opposite p q) (hq : crosses order q = true) :
    crosses order p = true := by
  unfold crosses at hq ⊢
  cases hs : order.side with
  | buy | sell =>
    simp only [hs, OrderSide.opposite, better, decide_eq_true_eq] at h hq ⊢
    omega

/-- The quantity that can trade before the first own order, and whether there is one. -/
def reach (b : OrderBook) (order : Order) : List (Int × List Order) → Nat × Bool
  | [] => (0, false)
  | (_, queue) :: l =>
    if queue.any (selfMatch order) then (((queue.takeWhile (!selfMatch order ·)).map b.visible).sum, true)
    else ((queue.map Order.quantity).sum + (reach b order l).1, (reach b order l).2)

private theorem reach_congr {l} (h : ∀ x ∈ l, ∀ o ∈ x.2, b'.visible o = b.visible o) :
    reach b' order l = reach b order l := by
  induction l with
  | nil => rfl
  | cons x _ ih =>
    obtain ⟨_, queue⟩ := x
    have hhead : (queue.takeWhile (!selfMatch order ·)).map b'.visible =
        (queue.takeWhile (!selfMatch order ·)).map b.visible :=
      map_congr_left fun o ho => h _ mem_cons_self o ((List.takeWhile_prefix _).subset ho)
    rw [reach, reach, hhead, ih fun x hx => h x (mem_cons_of_mem _ hx)]

section scan

variable {want : Nat}

private theorem fokLevel_foreign {queue} (hself : queue.any (selfMatch order) = false) (available : Nat) :
    ∃ n, b.fokLevel order want false queue available = (n, none) ∧
      (n = available + (queue.map Order.quantity).sum ∨
        (want ≤ n ∧ n ≤ available + (queue.map Order.quantity).sum)) := by
  induction queue generalizing available with
  | nil => exact ⟨available, rfl, .inl rfl⟩
  | cons o _ ih =>
    rw [any_cons, Bool.or_eq_false_iff] at hself
    rw [fokLevel, map_cons, sum_cons]
    split
    · rename_i hwant
      exact ⟨available, rfl, .inr ⟨hwant, Nat.le_add_right ..⟩⟩
    rw [if_neg (by simp [hself.1])]
    obtain ⟨n, hn, _⟩ := ih hself.2 (available + o.quantity)
    exact ⟨n, hn, by omega⟩

private theorem fokLevel_own {queue} (hself : queue.any (selfMatch order) = true) (available : Nat) :
    if want ≤ available + ((queue.takeWhile (!selfMatch order ·)).map b.visible).sum then
      ∃ n, b.fokLevel order want true queue available = (n, none) ∧ want ≤ n
    else ∃ n id, b.fokLevel order want true queue available = (n, some id) := by
  induction queue generalizing available with
  | nil => cases hself
  | cons o queue ih =>
    rw [fokLevel]
    by_cases hwant : want ≤ available
    · rw [if_pos hwant, if_pos (by omega)]
      exact ⟨available, rfl, hwant⟩
    rw [if_neg hwant]
    by_cases ho : selfMatch order o
    · have htake : (o :: queue).takeWhile (!selfMatch order ·) = [] := by simp [ho]
      rw [htake, if_pos ho, if_neg (by simpa using hwant)]
      exact ⟨_, _, rfl⟩
    have htake : (o :: queue).takeWhile (!selfMatch order ·) = o :: queue.takeWhile (!selfMatch order ·) := by simp [ho]
    rw [any_cons, Bool.or_eq_true] at hself
    have hrest := ih (hself.resolve_left ho) (available + b.visible o)
    rw [htake, map_cons, sum_cons, ← Nat.add_assoc, if_neg ho]
    exact hrest

private theorem span_level {p : Int} {queue : List Order} {l : List (Int × List Order)} (hq : ∀ o ∈ queue, o.price = p)
    (hl : ∀ x ∈ l, ∀ o ∈ x.2, o.price ≠ p) :
    (queue ++ l.flatMap Prod.snd).span (·.price = p) = (queue, l.flatMap Prod.snd) := by
  have hpos : ∀ o ∈ queue, decide (o.price = p) = true := fun o ho => by simp [hq o ho]
  have hnone : (l.flatMap Prod.snd).takeWhile (·.price = p) = [] ∧ (l.flatMap Prod.snd).dropWhile (·.price = p) =
      l.flatMap Prod.snd := by
    rcases hflat : l.flatMap Prod.snd with _ | ⟨o, _⟩
    · exact ⟨rfl, rfl⟩
    have ho : o ∈ l.flatMap Prod.snd := by rw [hflat]; exact mem_cons_self
    obtain ⟨x, hx, hox⟩ := mem_flatMap.mp ho
    have hne := hl x hx o hox
    simp [hne]
  rw [span_eq_takeWhile_dropWhile, takeWhile_append_of_pos hpos, dropWhile_append_of_pos hpos, hnone.1, hnone.2,
    append_nil]

/-- The scan finds out whether the quantity within reach covers what is wanted. -/
theorem fokScan_spec {l : List (Int × List Order)} (hprice : ∀ x ∈ l, x.2 ≠ [] ∧ ∀ o ∈ x.2, o.price = x.1)
    (hsorted : l.Pairwise fun x y => x.1 ≠ y.1) {fuel : Nat} (hfuel : (l.flatMap Prod.snd).length ≤ fuel)
    (available : Nat) :
    if want ≤ available + (reach b order l).1 then
      ∃ n, b.fokScan order want fuel (l.flatMap Prod.snd) available = (n, none) ∧ want ≤ n
    else if (reach b order l).2 then ∃ n id, b.fokScan order want fuel (l.flatMap Prod.snd) available = (n, some id)
    else b.fokScan order want fuel (l.flatMap Prod.snd) available = (available + (reach b order l).1, none) := by
  have hdone : ∀ (fuel : Nat) (l : List Order) (n : Nat), want ≤ n → b.fokScan order want fuel l n = (n, none) := by
    intro fuel l n hn
    rcases fuel with _ | fuel
    · rfl
    cases l with
    | nil => rfl
    | cons => rw [fokScan, if_pos hn]
  induction l generalizing fuel available with
  | nil =>
    have hscan : b.fokScan order want fuel [] available = (available, none) := by cases fuel <;> rfl
    simp only [reach, Nat.add_zero, flatMap_nil, hscan, Bool.false_eq_true, if_false]
    split
    · rename_i hwant
      exact ⟨available, rfl, hwant⟩
    · trivial
  | cons x l ih =>
    obtain ⟨p, queue⟩ := x
    obtain ⟨hne, hp⟩ := hprice _ mem_cons_self
    simp only at hne hp
    obtain ⟨hhead, htail⟩ := pairwise_cons.mp hsorted
    by_cases hwant : want ≤ available
    · rw [if_pos (by omega)]
      exact ⟨available, hdone _ _ _ hwant, hwant⟩
    rcases hqueue : queue with _ | ⟨first, _⟩
    · exact absurd hqueue hne
    have hfirst : first.price = p := hp first (by simp [hqueue])
    simp only [flatMap_cons, length_append] at hfuel
    have hlength : 0 < queue.length := length_pos_of_ne_nil hne
    obtain ⟨fuel, rfl⟩ : ∃ f, fuel = f + 1 := ⟨fuel - 1, by omega⟩
    have hspan := span_level (l := l) hp fun y hy o ho => by
      rw [(hprice y (mem_cons_of_mem _ hy)).2 o ho]
      exact (hhead y hy).symm
    have hscan {n : Nat} {own : Option String}
        (h : b.fokLevel order want (queue.any (selfMatch order)) queue available = (n, own)) :
        b.fokScan order want (fuel + 1) (((p, queue) :: l).flatMap Prod.snd) available =
          own.elim (b.fokScan order want fuel (l.flatMap Prod.snd) n) fun id => (n, some id) := by
      rw [flatMap_cons, hqueue, cons_append, fokScan, if_neg hwant, ← cons_append, ← hqueue, hfirst, hspan]
      simp only [h]
      cases own <;> rfl
    rw [← hqueue]
    have hrest := ih (fun x hx => hprice x (mem_cons_of_mem _ hx)) htail (show _ ≤ fuel by omega)
    cases hself : queue.any (selfMatch order) with
    | true =>
      have hlevel := @fokLevel_own b order want queue hself available
      simp only [reach, hself, if_true] at hlevel hscan ⊢
      split
      · rename_i hcover
        rw [if_pos hcover] at hlevel
        obtain ⟨n, hn, hle⟩ := hlevel
        exact ⟨n, (hscan hn).trans (hdone _ _ _ hle), hle⟩
      · rename_i hcover
        rw [if_neg hcover] at hlevel
        obtain ⟨n, id, hn⟩ := hlevel
        exact ⟨n, id, hscan hn⟩
    | false =>
      obtain ⟨n, hn, hsum⟩ := @fokLevel_foreign b order want queue hself available
      rw [hself] at hscan
      simp only [reach, hself, Bool.false_eq_true, if_false, hscan hn, Option.elim_none]
      rcases hsum with rfl | ⟨hle, _⟩
      · rw [← Nat.add_assoc]
        exact hrest _
      · rw [if_pos (by omega)]
        exact ⟨n, hdone _ _ _ hle, hle⟩

end scan

section sweep

variable {price : Int} {top : Order} {rest : List Order} {l : List (Int × List Order)}

theorem Ladder.first (h : Ladder b order l) (hqueue : b.queue order.side.opposite price = top :: rest)
    (hcross : crosses order price = true)
    (hbest : ∀ q, b.queue order.side.opposite q ≠ [] → better order.side.opposite price q) :
    ∃ l', l = (price, top :: rest) :: l' := by
  have hmem : (price, top :: rest) ∈ l := (h.mem _ _).mpr ⟨hqueue, by simp, hcross⟩
  rcases l with _ | ⟨x, l'⟩
  · cases hmem
  rcases mem_cons.mp hmem with rfl | hmem
  · exact ⟨l', rfl⟩
  obtain ⟨hbetter, _⟩ := (pairwise_cons.mp h.sorted).1 _ hmem
  obtain ⟨hx, hxne, -⟩ := (h.mem x.1 x.2).mp mem_cons_self
  have hback := hbest x.1 (by rw [hx]; exact hxne)
  exfalso
  cases hs : order.side.opposite with
  | buy | sell =>
    simp only [hs, better] at hbetter hback
    omega

theorem Ladder.edit {queue queue'} (h : Ladder b order ((price, queue) :: l))
    (hhere : b'.queue order.side.opposite price = queue')
    (helse : ∀ p, price ≠ p → b'.queue order.side.opposite p = b.queue order.side.opposite p) :
    Ladder b' order (if queue' = [] then l else (price, queue') :: l) := by
  obtain ⟨hhead, htail⟩ := pairwise_cons.mp h.sorted
  obtain ⟨-, -, hcross⟩ := (h.mem price queue).mp mem_cons_self
  have hothers : ∀ p q, (p, q) ∈ l ↔ price ≠ p ∧ b'.queue order.side.opposite p = q ∧ q ≠ [] ∧
      crosses order p = true := by
    intro p q
    constructor
    · intro hpq
      have hne := (hhead _ hpq).2
      rw [helse p hne]
      exact ⟨hne, (h.mem p q).mp (mem_cons_of_mem _ hpq)⟩
    rintro ⟨hne, hq⟩
    rw [helse p hne] at hq
    rcases mem_cons.mp ((h.mem p q).mpr hq) with heq | hpq
    · cases heq
      exact absurd rfl hne
    · exact hpq
  split
  · rename_i hnil
    refine ⟨htail, fun p q => ?_⟩
    rw [hothers]
    refine ⟨fun hq => hq.2, fun hq => ⟨?_, hq⟩⟩
    rintro rfl
    rw [hhere, hnil] at hq
    exact hq.2.1 hq.1.symm
  · rename_i hne
    refine ⟨pairwise_cons.mpr ⟨hhead, htail⟩, fun p q => ?_⟩
    rw [mem_cons, hothers, Prod.mk.injEq]
    by_cases hp : price = p
    · subst hp
      rw [hhere]
      constructor
      · rintro (⟨-, rfl⟩ | ⟨hcontra, -⟩)
        · exact ⟨rfl, hne, hcross⟩
        · exact absurd rfl hcontra
      · rintro ⟨rfl, -⟩
        exact .inl ⟨rfl, rfl⟩
    · constructor
      · rintro (⟨rfl, -⟩ | ⟨-, hq⟩)
        · exact absurd rfl hp
        · exact hq
      · exact fun hq => .inr ⟨hp, hq⟩

private theorem takeWhile_append_own {queue queue' : List Order} (h : queue.any (selfMatch order) = true) :
    (queue ++ queue').takeWhile (!selfMatch order ·) = queue.takeWhile (!selfMatch order ·) := by
  induction queue with
  | nil => cases h
  | cons _ _ ih =>
    rw [cons_append, takeWhile_cons, takeWhile_cons]
    split
    · rename_i ho
      rw [any_cons, Bool.or_eq_true] at h
      rw [ih (h.resolve_left (by simpa using ho))]
    · rfl

theorem selfMatch_withQuantity (newer older : Order) (n : Nat) :
    selfMatch newer (older.withQuantity n) = selfMatch newer older := rfl

theorem HeadEdit.reach_taken {q v : Nat} (hwf : b.WF) (hladder : Ladder b order ((price, top :: rest) :: l))
    (hself : selfMatch order top = false) (hv : b.visible top = v) (hq : q ≤ v)
    (h : HeadEdit b top rest (afterFill top (top.quantity - q) (v - q)) q (refreshed top (top.quantity - q) (v - q))
      b') :
    ∃ l', Ladder b' order l' ∧ (reach b' order l').1 + q = (reach b order ((price, top :: rest) :: l)).1 ∧
      (reach b' order l').2 = (reach b order ((price, top :: rest) :: l)).2 := by
  obtain ⟨hqueue, -⟩ := (hladder.mem _ _).mp mem_cons_self
  obtain ⟨hside, hprice, hlook, hids⟩ := hwf.head hqueue
  obtain ⟨-, hpos, hle, hplain⟩ := hwf.visible_eq hlook
  rw [hv] at hpos hle hplain
  have hhere : b'.queue order.side.opposite price =
      settled top rest (top.quantity - q) (refreshed top (top.quantity - q) (v - q)) := by
    rw [← hside, ← hprice, h.queue, afterFill_elim]
  have helse : ∀ p, price ≠ p → b'.queue order.side.opposite p = b.queue order.side.opposite p :=
    fun p hp => h.elsewhere _ _ fun hat => hp (hprice ▸ hat.2)
  have hladder' := hladder.edit hhere helse
  -- the other orders show what they showed
  have hvisible : ∀ o : Order, o.orderId ≠ top.orderId → b'.visible o = b.visible o := by
    intro o ho
    rw [visible, visible, h.displayed, if_neg (Ne.symm ho)]
  have hothers : reach b' order l = reach b order l := by
    refine reach_congr fun x hx o ho => hvisible o fun hid => ?_
    obtain ⟨hxq, -⟩ := (hladder.mem x.1 x.2).mp (mem_cons_of_mem _ hx)
    have hmem : o ∈ b.queue order.side.opposite x.1 := by rw [hxq]; exact ho
    have heq : o = top := hwf.eq_of_orderId (hqueue.symm ▸ mem_cons_self) hmem hid
    have hne := ((pairwise_cons.mp hladder.sorted).1 x hx).2
    exact hne (hprice.symm.trans ((hwf.placed _ _ o hmem).2 ▸ heq ▸ rfl))
  refine ⟨_, hladder', ?_⟩
  obtain ⟨n, hn⟩ : ∃ n, n = top.quantity - q := ⟨_, rfl⟩
  rw [← hn] at h ⊢
  cases hany : rest.any (selfMatch order) with
  | true =>
    have hrest : (rest.takeWhile (!selfMatch order ·)).map b'.visible =
        (rest.takeWhile (!selfMatch order ·)).map b.visible :=
      map_congr_left fun o ho => hvisible o (hids o ((List.takeWhile_prefix _).subset ho))
    have hold : reach b order ((price, top :: rest) :: l) =
        (v + ((rest.takeWhile (!selfMatch order ·)).map b.visible).sum, true) := by
      simp [reach, hany, hself, hv]
    have hne : rest ≠ [] := by
      rintro rfl
      cases hany
    rw [hold]
    by_cases hzero : n = 0
    · have hset : settled top rest n (refreshed top n (v - q)) = rest := if_pos hzero
      rw [hset, if_neg hne]
      simp only [reach, hany, if_true, hrest, and_true]
      omega
    cases hrefresh : refreshed top n (v - q) with
    | true =>
      have hset : settled top rest n true = rest ++ [top.withQuantity n] := by simp [settled, hzero]
      have hvq : v - q = 0 := by
        simp only [refreshed, Bool.and_eq_true, decide_eq_true_eq] at hrefresh
        exact hrefresh.2
      rw [hset, if_neg (by simp)]
      simp only [reach, any_append, hany, Bool.true_or, if_true, takeWhile_append_own hany, hrest, and_true]
      omega
    | false =>
      have hset : settled top rest n false = top.withQuantity n :: rest := by simp [settled, hzero]
      have hvq : v - q ≠ 0 := by
        intro hvq
        have hd : top.displayQuantity = 0 := by simpa [refreshed, hzero, hvq] using hrefresh
        have := hplain hd
        omega
      have hslice : b'.visible (top.withQuantity n) = v - q := by
        rw [visible, h.displayed, Order.withQuantity_orderId, if_pos rfl, afterFill, if_neg hzero,
          nextSlice, if_neg hvq]
        rfl
      rw [hset, if_neg (by simp)]
      simp only [reach, any_cons, hany, Bool.or_true, if_true, takeWhile_cons, selfMatch_withQuantity, hself,
        Bool.not_false, map_cons, sum_cons, hslice, hrest, and_true]
      omega
  | false =>
    have hsum := sum_settled top rest n (refreshed top n (v - q))
    have hnone : (settled top rest n (refreshed top n (v - q))).any (selfMatch order) = false := by
      unfold settled
      split
      · exact hany
      · split <;> simp [hany, hself, selfMatch_withQuantity]
    have hold : reach b order ((price, top :: rest) :: l) =
        (top.quantity + (rest.map Order.quantity).sum + (reach b order l).1, (reach b order l).2) := by
      simp [reach, hany, hself]
    rw [hold]
    split
    · rename_i hnil
      rw [hnil, map_nil, sum_nil] at hsum
      rw [hothers]
      exact ⟨by simp only; omega, rfl⟩
    · simp only [reach, hnone, Bool.false_eq_true, if_false, hothers, and_true, hsum]
      omega

def printed (fills : List ExecutionReport) : Nat := (fills.map (·.tradeQuantity)).sum

/-- A sweep for `want` that can reach `avail`: what it printed is gone from that, until it meets an own order. -/
structure Approach (order : Order) (base : OrderBook) (want avail : Nat) (own : Bool) (b : OrderBook) (sw : Sweep) :
    Prop where
  filled : printed sw.fills + sw.remaining = want
  going : sw.stopped = false → b.stp = base.stp ∧
    ∃ l, Ladder b order l ∧ printed sw.fills + (reach b order l).1 = avail ∧ (reach b order l).2 = own
  stopped : sw.stopped = true → printed sw.fills = avail ∧ own = true ∧ 0 < sw.remaining

private theorem takeReport_quantity (aggressor : Order) (price : Int) (top : Order) (q remaining : Nat) :
    (takeReport aggressor price top q remaining).tradeQuantity = q := by
  unfold takeReport
  split <;> rfl

private theorem fillStep_approach {base} {want avail : Nat} {own : Bool} {s s'}
    (hmode : order.stp.mode = .none ∨ order.stp.mode = .cancelNewest ∨ want ≤ avail)
    (hcross : crosses order price = true) (hwf : (assembled order price s).WF)
    (hbest : ∀ q, (assembled order price s).queue order.side.opposite q ≠ [] → better order.side.opposite price q)
    (h : fillStep order price s = some s') (hs : Approach order base want avail own (assembled order price s) s.sweep) :
    Approach order base want avail own (assembled order price s') s'.sweep := by
  obtain ⟨hlive, top, rest, hlevel, hcases⟩ := fillStep_cases hwf h
  simp only [Sweep.live, Bool.and_eq_true, decide_eq_true_eq, Bool.not_eq_true'] at hlive
  obtain ⟨hside, hprice, -, -, -, -, hqueue⟩ := assembled_head hwf hlevel
  rw [hside, hprice] at hqueue
  obtain ⟨hstp, _, hladder, hreach, hown⟩ := hs.going hlive.2
  obtain ⟨l', rfl⟩ := hladder.first hqueue hcross hbest
  have hvis := assembled_visible order price s top
  rcases hcases with ⟨hself, hp⟩ | ⟨hself, ht⟩
  · -- an own order is next: nothing is left within reach
    have hzero : reach (assembled order price s) order ((price, top :: rest) :: l') = (0, true) := by
      simp [reach, hself]
    rw [hzero] at hreach hown
    have hfilled := hs.filled
    rcases hmode with hmode | hmode | _
    · simp [selfMatch, hmode] at hself
    · have hsweep := hp.sweep
      rw [hmode] at hsweep
      simp only [stpLeft, if_true] at hsweep
      rw [hsweep]
      exact ⟨hfilled, fun hgo => by simp at hgo, fun _ => ⟨hreach, hown.symm, hlive.1⟩⟩
    · simp only at hreach
      omega
  · obtain ⟨l'', hladder', _, hown'⟩ := ht.book.reach_taken hwf hladder hself hvis (Nat.min_le_left ..)
    have hprinted : printed s'.sweep.fills = printed s.sweep.fills + min (s.book.visible top) s.sweep.remaining := by
      rw [ht.fills, printed, printed, map_append, sum_append, map_singleton, sum_singleton,
        takeReport_quantity]
    have hfilled := hs.filled
    have hstp' : (assembled order price s').stp = (assembled order price s).stp := by
      rw [assembled, assembled, withQueue_stp, withQueue_stp, ht.stp]
    refine ⟨?_, fun _ => ⟨hstp'.trans hstp, l'', hladder', ?_, hown'.trans hown⟩, fun hstop => ?_⟩
    · rw [hprinted, ht.remaining]
      omega
    · rw [hprinted]
      omega
    · rw [ht.stopped, hlive.2] at hstop
      cases hstop

/-- A sweep trades the smaller of what is wanted and what it can reach; it is stopped if an own order is in the way.
-/
theorem executeIoc_reach (hwf : b.WF) (hladder : Ladder b order l)
    (hmode : order.stp.mode = .none ∨ order.stp.mode = .cancelNewest ∨ order.quantity ≤ (reach b order l).1) :
    printed (b.executeIoc order).2.fills = min order.quantity (reach b order l).1 ∧
      (b.executeIoc order).2.stpCanceled = (decide ((reach b order l).1 < order.quantity) && (reach b order l).2) ∧
      (order.quantity ≤ (reach b order l).1 → (b.executeIoc order).2.unfilledQty = 0 ∧
        (b.executeIoc order).1.stp = b.stp) := by
  obtain ⟨b', sw, heq, happroach, hwf', hend⟩ := sweep_induct
    (P := Approach order b order.quantity (reach b order l).1 (reach b order l).2)
    (fun _ _ _ hcross hwf hbest hstep hs => fillStep_approach hmode hcross hwf hbest hstep hs) hwf
    ⟨Nat.zero_add _, fun _ => ⟨rfl, l, hladder, Nat.zero_add _, rfl⟩, fun hstop => by cases hstop⟩
  rw [executeIoc, heq]
  simp only [Sweep.finish]
  have hfilled := happroach.filled
  cases hstop : sw.stopped with
  | true =>
    obtain ⟨hall, hown, _⟩ := happroach.stopped hstop
    have hlt : (reach b order l).1 < order.quantity := by omega
    refine ⟨?_, ?_, fun hle => ?_⟩
    · rw [hall]
      omega
    · simp [hlt, hown]
    · omega
  | false =>
    obtain ⟨hstp, l', hladder', hreach, hown⟩ := happroach.going hstop
    by_cases hzero : sw.remaining = 0
    · have hnot : ¬ (reach b order l).1 < order.quantity := by omega
      refine ⟨by omega, by simp [hnot], fun _ => ⟨by simpa using hzero, hstp⟩⟩
    -- the order could go on, so no level is left that it crosses
    have hcannot := hend.resolve_left (by simp [Sweep.live, hstop, Nat.pos_of_ne_zero hzero])
    have hnil : l' = [] := by
      rcases hl' : l' with _ | ⟨x, _⟩
      · rfl
      obtain ⟨hq, hne, hcross⟩ := (hladder'.mem x.1 x.2).mp (by simp [hl'])
      rw [← hq] at hne
      rcases hbest : b'.bestPrice order.side.opposite with _ | p
      · exact absurd ((bestPrice_eq_none hwf'.noEmpty).mp hbest x.1) hne
      have hbetter := ((bestPrice_eq_some hwf'.noEmpty).mp hbest).2 x.1 hne
      have hnot := hcannot p hbest
      rw [crosses_of_better hbetter hcross] at hnot
      cases hnot
    rw [hnil] at hreach hown
    simp only [reach, Nat.add_zero] at hreach hown
    have hlt : (reach b order l).1 < order.quantity := by omega
    refine ⟨by omega, by simp [← hown], fun hle => by omega⟩

end sweep

end Fxp.OrderBook

namespace Fxp

open OrderBook

/-- The order with prevention that cancels only itself: it tells when an own order is reached. -/
def Order.yielding (o : Order) : Order :=
  if o.stp.mode = .none then o else { o with stp := { o.stp with mode := .cancelNewest } }

private theorem selfMatch_yielding (o : Order) : selfMatch o.yielding = selfMatch o := by
  funext older
  unfold Order.yielding
  split
  · rfl
  rename_i hmode
  have hactive : (o.stp.mode != .none) = true := by simpa using hmode
  rw [selfMatch, selfMatch, hactive]
  rfl

private theorem reach_yielding (b : OrderBook) (o : Order) (l : List (Int × List Order)) :
    reach b o.yielding l = reach b o l := by
  induction l with
  | nil => rfl
  | cons x _ ih =>
    obtain ⟨_, _⟩ := x
    rw [reach, reach, selfMatch_yielding, ih]

theorem OrderBook.Ladder.yielding {b o l} (h : Ladder b o l) :
    Ladder b o.yielding l := by
  unfold Order.yielding
  split
  · exact h
  · exact ⟨h.sorted, h.mem⟩

/-- What a fill-or-kill order must do: it is filled if the sweep that stops at the first own order gets its whole
quantity, and otherwise killed, with the book as it was. -/
def OrderBook.FillsOrKills (b : OrderBook) (order : Order) : Prop :=
  (printed (b.executeIoc order.yielding).2.fills = order.quantity ∧
    printed (b.executeFok order).2.fills = order.quantity ∧ (b.executeFok order).2.unfilledQty = 0 ∧
    (b.executeFok order).2.stpCanceled = false ∧ (b.executeFok order).1.stp = b.stp) ∨
  (printed (b.executeIoc order.yielding).2.fills < order.quantity ∧
    (b.executeFok order).2.fills = [] ∧ (b.executeFok order).2.fillUpdates = [] ∧
    (b.executeFok order).1 = { b with stp := (b.executeFok order).1.stp } ∧
    (b.executeFok order).2.stpCanceled = (b.executeIoc order.yielding).2.stpCanceled ∧
    (b.executeFok order).2.unfilledQty = if (b.executeIoc order.yielding).2.stpCanceled then 0 else order.quantity)

theorem OrderBook.WF.fillsOrKills {b : OrderBook} (hwf : b.WF) (order : Order) : b.FillsOrKills order := by
  obtain ⟨l, hladder, hcrossing⟩ := exists_ladder hwf.noEmpty order
  have hyielding : order.yielding.quantity = order.quantity := by
    unfold Order.yielding
    split <;> rfl
  have hmode : order.yielding.stp.mode = .none ∨ order.yielding.stp.mode = .cancelNewest := by
    unfold Order.yielding
    split
    · rename_i h
      exact .inl h
    · exact .inr rfl
  obtain ⟨htrial, hcanceled, -⟩ := executeIoc_reach hwf hladder.yielding (hmode.imp_right .inl)
  rw [reach_yielding, hyielding] at htrial hcanceled
  have hscan := @fokScan_spec b order order.quantity l (fun x hx => by
    obtain ⟨-, hne, -⟩ := (hladder.mem x.1 x.2).mp hx
    exact ⟨hne, fun _ ho => hladder.price_eq hwf hx ho⟩) (hladder.sorted.imp fun h => h.2) _ le_rfl 0
  rw [← hcrossing, Nat.zero_add] at hscan
  unfold OrderBook.FillsOrKills
  rw [htrial, hcanceled]
  by_cases hcover : order.quantity ≤ (reach b order l).1
  · left
    rw [if_pos hcover] at hscan
    obtain ⟨_, hn, _⟩ := hscan
    obtain ⟨hfills, hstop, hend⟩ := executeIoc_reach hwf hladder (.inr (.inr hcover))
    obtain ⟨hunfilled, hstp⟩ := hend hcover
    have hfok : b.executeFok order = ((b.executeIoc order).1, { (b.executeIoc order).2 with restOnBook := false }) := by
      rw [executeFok]
      simp only [hn]
      rw [if_neg (by omega)]
    rw [hfok]
    exact ⟨Nat.min_eq_left hcover, by rw [hfills, Nat.min_eq_left hcover], hunfilled, by simp [hstop, hcover], hstp⟩
  · right
    rw [if_neg hcover] at hscan
    have hlt : (reach b order l).1 < order.quantity := by omega
    refine ⟨by omega, ?_⟩
    cases hown : (reach b order l).2 with
    | true =>
      rw [hown, if_pos rfl] at hscan
      obtain ⟨_, _, hn⟩ := hscan
      rw [executeFok]
      simp [hn, hlt, pushStpEvent]
    | false =>
      rw [hown] at hscan
      simp only [Bool.false_eq_true, if_false] at hscan
      rw [executeFok]
      simp [hscan, hlt]

def Order.sample (orderId traderId : String) (side : OrderSide) (price : Int) (quantity : Nat) : Order :=
  { orderId := orderId, traderId := traderId, symbol := "S", price := price, quantity := quantity, displayQuantity := 0
    side := side, orderType := .limit, timeInForce := .gtc, timestamp := 0, stopPrice := 0, expireDate := ""
    account := "", clientOrderId := "", stp := { mode := .none, group := "" } }

end Fxp

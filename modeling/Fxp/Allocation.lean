import Fxp.Uncross
import Mathlib

/-!
# The allocation of an auction

`allocate` serves the two queues from the front, so at every moment all orders before the head of a queue are filled
and all orders behind it have nothing.
-/

namespace Fxp.Auction

open Checked List

variable {o : AuctionOrder} {referencePrice : Option Int}

def idOf (side : AuctionSide) (f : AuctionFill) : String :=
  match side with
  | .buy => f.buyId
  | .sell => f.sellId

def tradedBy (fills : List AuctionFill) (side : AuctionSide) (id : String) : Nat :=
  ((fills.filter (idOf side · = id)).map (·.quantity)).sum

theorem tradedBy_append (fills fills' : List AuctionFill) (side : AuctionSide) (id : String) :
    tradedBy (fills ++ fills') side id = tradedBy fills side id + tradedBy fills' side id := by
  simp [tradedBy]

theorem tradedBy_singleton (f : AuctionFill) (side : AuctionSide) (id : String) :
    tradedBy [f] side id = if idOf side f = id then f.quantity else 0 := by
  by_cases h : idOf side f = id <;> simp [tradedBy, h]

/-- The queue `l` is served from the front, up to `rest`, with `used` for its head and `total` altogether. -/
structure Served (l : List AuctionOrder) (side : AuctionSide) (fills : List AuctionFill) (rest : List AuctionOrder)
    (used total : Nat) : Prop where
  done : ∃ done, l = done ++ rest ∧ (∀ o ∈ done, tradedBy fills side o.id = o.quantity) ∧
    (done.map (·.quantity)).sum + used = total
  head : ∀ o rest', rest = o :: rest' → used < o.quantity ∧ tradedBy fills side o.id = used ∧
    ∀ o' ∈ rest', tradedBy fills side o'.id = 0
  empty : rest = [] → used = 0
  fills : ∀ f ∈ fills, 0 < f.quantity ∧ ∃ o ∈ l, o.id = idOf side f

section served

variable {l rest : List AuctionOrder} {side : AuctionSide} {fills : List AuctionFill} {o : AuctionOrder}
  {used total : Nat}

theorem Served.start (hpos : ∀ o ∈ l, 0 < o.quantity) : Served l side [] l 0 0 where
  done := ⟨[], rfl, fun o ho => absurd ho not_mem_nil, rfl⟩
  head o rest' h := ⟨hpos o (by simp [h]), rfl, fun _ _ => rfl⟩
  empty _ := rfl
  fills f hf := by cases hf

theorem Served.step (h : Served l side fills (o :: rest) used total) (hnodup : (l.map (·.id)).Nodup)
    (hpos : ∀ o ∈ l, 0 < o.quantity) {f} (hf : idOf side f = o.id) (hq : 0 < f.quantity)
    (hle : f.quantity ≤ o.quantity - used) :
    Served l side (fills ++ [f]) (if used + f.quantity = o.quantity then rest else o :: rest)
      (if used + f.quantity = o.quantity then 0 else used + f.quantity) (total + f.quantity) := by
  obtain ⟨done, hl, hdone, _⟩ := h.done
  obtain ⟨_, htraded, hzero⟩ := h.head o rest rfl
  have htr : ∀ id, tradedBy (fills ++ [f]) side id = tradedBy fills side id + if o.id = id then f.quantity else 0 := by
    intro id
    rw [tradedBy_append, tradedBy_singleton, hf]
  rw [hl, map_append, map_cons, nodup_append, nodup_cons] at hnodup
  obtain ⟨-, ⟨hrest, -⟩, hdisj⟩ := hnodup
  have hne : ∀ o' ∈ done, o.id ≠ o'.id := fun o' ho' heq =>
    hdisj o'.id (mem_map_of_mem ho') o.id mem_cons_self heq.symm
  have hne' : ∀ o' ∈ rest, o.id ≠ o'.id := fun o' ho' heq => hrest (mem_map.mpr ⟨o', ho', heq.symm⟩)
  have hfills : ∀ f' ∈ fills ++ [f], 0 < f'.quantity ∧ ∃ o' ∈ l, o'.id = idOf side f' := by
    intro f' hf'
    rcases mem_append.mp hf' with hf' | hf'
    · exact h.fills f' hf'
    · rw [mem_singleton.mp hf']
      exact ⟨hq, o, by simp [hl], hf.symm⟩
  by_cases hfull : used + f.quantity = o.quantity
  · rw [if_pos hfull, if_pos hfull]
    refine ⟨⟨done ++ [o], by simp [hl], fun o' ho' => ?_, ?_⟩, fun o' rest' heq => ?_, fun _ => rfl, hfills⟩
    · rw [htr]
      rcases mem_append.mp ho' with ho' | ho'
      · rw [if_neg (hne o' ho'), hdone o' ho', Nat.add_zero]
      · rw [mem_singleton.mp ho', if_pos rfl, htraded, hfull]
    · simp only [map_append, map_cons, map_nil, sum_append, sum_cons, sum_nil]
      omega
    have hmem : ∀ o'' ∈ rest, tradedBy (fills ++ [f]) side o''.id = 0 := fun o'' ho'' => by
      rw [htr, if_neg (hne' o'' ho''), hzero o'' ho'']
    refine ⟨hpos o' (by simp [hl, heq]), hmem o' (by simp [heq]), fun o'' ho'' => hmem o'' (by simp [heq, ho''])⟩
  · rw [if_neg hfull, if_neg hfull]
    refine ⟨⟨done, hl, fun o' ho' => ?_, by omega⟩, fun o' rest' heq => ?_, fun heq =>
      absurd heq (cons_ne_nil _ _), hfills⟩
    · rw [htr, if_neg (hne o' ho'), hdone o' ho', Nat.add_zero]
    cases heq
    refine ⟨by omega, by rw [htr, if_pos rfl, htraded], fun o'' ho'' => ?_⟩
    rw [htr, if_neg (hne' o'' ho''), hzero o'' ho'']

theorem Served.traded_le (h : Served l side fills rest used total) (ho : o ∈ l) :
    tradedBy fills side o.id ≤ o.quantity := by
  obtain ⟨_, hl, hdone, -⟩ := h.done
  rw [hl] at ho
  rcases mem_append.mp ho with ho | ho
  · exact (hdone o ho).le
  rcases hrest : rest with _ | ⟨o₁, rest'⟩
  · simp [hrest] at ho
  obtain ⟨_, _, hzero⟩ := h.head o₁ rest' hrest
  rw [hrest] at ho
  rcases mem_cons.mp ho with rfl | ho
  · omega
  · rw [hzero o ho]
    exact Nat.zero_le _

/-- An order with something left stands behind orders that, with it, ask for more than what was served. -/
theorem Served.behind (h : Served l side fills rest used total) (hpos : ∀ o ∈ l, 0 < o.quantity) (ho : o ∈ l)
    (hleft : tradedBy fills side o.id < o.quantity) :
    ∃ pre post, l = pre ++ o :: post ∧ total < (pre.map (·.quantity)).sum + o.quantity := by
  obtain ⟨done, hl, hdone, _⟩ := h.done
  have hrest : o ∈ rest := by
    rw [hl] at ho
    rcases mem_append.mp ho with ho | ho
    · have := hdone o ho
      omega
    · exact ho
  obtain ⟨pre, post, hsplit⟩ := append_of_mem hrest
  refine ⟨done ++ pre, post, by rw [hl, hsplit, append_assoc], ?_⟩
  rw [map_append, sum_append]
  rcases pre with _ | ⟨o₁, pre⟩
  · obtain ⟨_, -⟩ := h.head o post hsplit
    simp only [map_nil, sum_nil]
    omega
  obtain ⟨_, -⟩ := h.head o₁ (pre ++ o :: post) hsplit
  have := hpos o ho
  simp only [map_cons, sum_cons]
  omega

end served

section both

variable {buys sells : List AuctionOrder} {price : Int} {volume : Nat}

/-- Both queues are served with what is allocated so far. -/
structure Allocating (buys sells : List AuctionOrder) (volume : Nat) (s : AllocState) : Prop where
  buys : Served buys .buy s.fills s.buys s.buyUsed (volume - s.remaining)
  sells : Served sells .sell s.fills s.sells s.sellUsed (volume - s.remaining)
  le : s.remaining ≤ volume

theorem Allocating.step {s s'} (h : Allocating buys sells volume s) (hstep : allocStep price s = some s')
    (hbn : (buys.map (·.id)).Nodup) (hsn : (sells.map (·.id)).Nodup) (hbp : ∀ o ∈ buys, 0 < o.quantity)
    (hsp : ∀ o ∈ sells, 0 < o.quantity) : Allocating buys sells volume s' := by
  have hle := h.le
  unfold allocStep at hstep
  split at hstep
  · rename_i hrem
    split at hstep
    · rename_i buy restB sell restS hb hs
      have hB := h.buys
      have hS := h.sells
      rw [hb] at hB
      rw [hs] at hS
      obtain ⟨_, -⟩ := hB.head buy restB rfl
      obtain ⟨_, -⟩ := hS.head sell restS rfl
      obtain ⟨q, hq⟩ : ∃ q, q = min (min (buy.quantity - s.buyUsed) (sell.quantity - s.sellUsed)) s.remaining :=
        ⟨_, rfl⟩
      simp only [← hq, Option.some.injEq] at hstep
      have htotal : volume - s.remaining + q = volume - (s.remaining - q) := by omega
      have hB' := @Served.step buys restB .buy s.fills buy s.buyUsed (volume - s.remaining) hB hbn hbp
        { buyId := buy.id, sellId := sell.id, quantity := q, price := price } rfl (by simp only; omega)
        (by simp only; omega)
      have hS' := @Served.step sells restS .sell s.fills sell s.sellUsed (volume - s.remaining) hS hsn hsp
        { buyId := buy.id, sellId := sell.id, quantity := q, price := price } rfl (by simp only; omega)
        (by simp only; omega)
      simp only [htotal] at hB' hS'
      rw [← hstep]
      exact ⟨hB', hS', by simp only; omega⟩
    · cases hstep
  · cases hstep

/-- The orders that the allocation can still turn to. -/
def AllocState.open (s : AllocState) : Nat := if s.remaining = 0 then 0 else s.buys.length + s.sells.length

theorem Allocating.open_lt {s s'} (h : Allocating buys sells volume s)
    (hstep : allocStep price s = some s') : s'.open < s.open := by
  unfold allocStep at hstep
  split at hstep
  · rename_i hrem
    split at hstep
    · rename_i buy restB sell restS hb hs
      obtain ⟨_, -⟩ := h.buys.head buy restB hb
      obtain ⟨_, -⟩ := h.sells.head sell restS hs
      obtain ⟨q, hq⟩ : ∃ q, q = min (min (buy.quantity - s.buyUsed) (sell.quantity - s.sellUsed)) s.remaining :=
        ⟨_, rfl⟩
      simp only [← hq, Option.some.injEq] at hstep
      have hopen : s.open = restB.length + 1 + (restS.length + 1) := by
        rw [AllocState.open, if_neg (by omega), hb, hs, length_cons, length_cons]
      rw [hopen, ← hstep]
      simp only [AllocState.open]
      by_cases hleft : s.remaining - q = 0
      · rw [if_pos hleft]
        omega
      -- the volume is not used up, so one of the two orders at the head is filled
      rw [if_neg hleft]
      by_cases hfullB : s.buyUsed + q = buy.quantity
      · have hlen : (if s.sellUsed + q = sell.quantity then restS else sell :: restS).length ≤ restS.length + 1 := by
          split <;> simp
        rw [if_pos hfullB]
        omega
      · have hfullS : s.sellUsed + q = sell.quantity := by omega
        rw [if_neg hfullB, if_pos hfullS, length_cons]
        omega
    · cases hstep
  · cases hstep

private theorem allocStep_none {s} (h : allocStep price s = none) :
    s.remaining = 0 ∨ s.buys = [] ∨ s.sells = [] := by
  unfold allocStep at h
  split at h
  · split at h
    · cases h
    rename_i hnot
    rcases hb : s.buys with _ | ⟨b, restB⟩
    · exact .inr (.inl rfl)
    cases hs : s.sells with
    | nil => exact .inr (.inr rfl)
    | cons a restS => exact absurd hs (hnot b restB a restS hb)
  · rename_i hrem
    exact .inl (Nat.eq_zero_of_not_pos hrem)

theorem Allocating.run (hbn : (buys.map (·.id)).Nodup) (hsn : (sells.map (·.id)).Nodup)
    (hbp : ∀ o ∈ buys, 0 < o.quantity) (hsp : ∀ o ∈ sells, 0 < o.quantity) :
    ∃ s, Loop.run (allocStep price) (buys.length + sells.length + 1)
        { buys := buys, sells := sells, remaining := volume } = s ∧ Allocating buys sells volume s ∧
      (s.remaining = 0 ∨ s.buys = [] ∨ s.sells = []) := by
  have hstart : Allocating buys sells volume { buys := buys, sells := sells, remaining := volume } := by
    refine ⟨?_, ?_, le_rfl⟩ <;> rw [Nat.sub_self]
    · exact .start hbp
    · exact .start hsp
  refine ⟨_, rfl, Loop.run_induct (fun s s' h hstep => h.step hstep hbn hsn hbp hsp) _ hstart, ?_⟩
  have hdone := @Loop.run_done _ (allocStep price) (Allocating buys sells volume) AllocState.open
    (fun s s' h hstep => ⟨h.step hstep hbn hsn hbp hsp, h.open_lt hstep⟩) _ _ hstart
    (show AllocState.open _ < buys.length + sells.length + 1 by
      simp only [AllocState.open]
      split <;> omega)
  exact allocStep_none hdone

end both

section queues

variable {orders : List AuctionOrder} {side : AuctionSide} {price : Int}

/-- Whether the order counts at a price: market orders and the limits that allow the price. -/
def counts (side : AuctionSide) (p : Int) (o : AuctionOrder) : Bool :=
  match side with
  | .buy => isMarket .buy o || isLimit .buy (p ≤ ·) o
  | .sell => isMarket .sell o || isLimit .sell (· ≤ p) o

private theorem eligible_iff :
    eligible side price o = true ↔ counts side price o = true ∧ 0 < o.quantity := by
  unfold eligible counts isMarket isLimit
  cases side <;> cases o.limitPrice <;> simp <;> tauto

private theorem priority_eq (side : AuctionSide) : priority side =
    compareLex (compareOn fun o : AuctionOrder => o.limitPrice.isSome)
      (compareLex (match side with
        | .buy => fun a b => compareOn (fun o : AuctionOrder => o.limitPrice) b a
        | .sell => compareOn fun o : AuctionOrder => o.limitPrice)
      (compareLex (compareOn (·.seq)) (compareOn (·.id)))) := by
  cases side <;> rfl

instance (side : AuctionSide) : Std.TransCmp (priority side) := by
  rw [priority_eq]
  have hprice : Std.TransCmp (compareOn fun o : AuctionOrder => o.limitPrice) := inferInstance
  cases side with
  | buy =>
    have hopposite : Std.TransCmp (fun a b => compareOn (fun o : AuctionOrder => o.limitPrice) b a) := .opposite
    exact inferInstance
  | sell => exact inferInstance

private theorem queue_sorted : (queue orders side price).Pairwise fun a b => (priority side a b).isLE := by
  have htotal : Std.Total fun a b => ((priority side a b).isLE : Prop) := by
    refine ⟨fun a b => ?_⟩
    have hswap : priority side a b = (priority side b a).swap := Std.OrientedCmp.eq_swap
    cases h : priority side b a <;> simp_all
  have htrans : IsTrans AuctionOrder fun a b => ((priority side a b).isLE : Prop) :=
    ⟨fun _ _ _ h h' => Std.TransCmp.isLE_trans h h'⟩
  exact pairwise_insertionSort _ _

private theorem mem_queue : o ∈ queue orders side price ↔ o ∈ orders ∧ eligible side price o = true := by
  rw [queue, mem_insertionSort, mem_filter]

private theorem queue_ids_nodup (h : (orders.map (·.id)).Nodup) : ((queue orders side price).map (·.id)).Nodup := by
  refine ((perm_insertionSort _ _).map _).nodup_iff.mpr ?_
  exact h.sublist (filter_sublist.map _)

private theorem queue_positive : ∀ o ∈ queue orders side price, 0 < o.quantity :=
  fun _ ho => (eligible_iff.mp (mem_queue.mp ho).2).2

/-- What stands before a limit order in its queue counts at its limit price. -/
theorem counts_of_priority {o'} {p : Int} (hp : o.limitPrice = some p) (ho' : o'.side = side)
    (h : (priority side o' o).isLE = true) : counts side p o' = true := by
  rcases hl : o'.limitPrice with _ | q
  · cases side <;> simp [counts, isMarket, hl, ho']
  have hcmp : (match side with
      | .buy => compare (some p) (some q)
      | .sell => compare (some q) (some p)).isLE = true := by
    simp only [priority, hl, hp, Option.isSome_some] at h
    rw [show compare true true = Ordering.eq from rfl, Ordering.then] at h
    cases side with
    | buy =>
      cases hc : compare (some p) (some q) <;> simp_all [Ordering.then]
    | sell =>
      cases hc : compare (some q) (some p) <;> simp_all [Ordering.then]
  cases side with
  | buy =>
    have hle : p ≤ q := Std.isLE_compare.mp (show (compare p q).isLE = true from hcmp)
    simp [counts, isLimit, hl, ho', hle]
  | sell =>
    have hle : q ≤ p := Std.isLE_compare.mp (show (compare q p).isLE = true from hcmp)
    simp [counts, isLimit, hl, ho', hle]

private theorem counts_side {p : Int} (h : counts side p o = true) : o.side = side := by
  unfold counts isMarket isLimit at h
  cases side <;> simp only [Bool.or_eq_true, Bool.and_eq_true, decide_eq_true_eq] at h <;> tauto

end queues

section quantities

variable {orders : List AuctionOrder} {P Q : AuctionOrder → Bool}

private theorem le_quantityOf (ho : o ∈ orders) (hP : P o = true) : o.quantity ≤ quantityOf orders P :=
  le_sum_of_mem (mem_map_of_mem (mem_filter.mpr ⟨ho, hP⟩))

private theorem quantityOf_lt (h : ∀ o ∈ orders, P o = true → Q o = true) (ho : o ∈ orders)
    (hP : P o = false) (hQ : Q o = true) (hpos : 0 < o.quantity) : quantityOf orders P < quantityOf orders Q := by
  have hsplit := quantityOf_or (P := P) (Q := fun o => Q o && !P o) orders fun o hp hq => by simp [hp] at hq
  have hle := le_quantityOf (P := fun o => Q o && !P o) ho (by simp [hP, hQ])
  have hmono := @quantityOf_mono orders (fun o => P o || (Q o && !P o)) Q fun o ho hpq => by
    rw [Bool.or_eq_true, Bool.and_eq_true] at hpq
    rcases hpq with hp | ⟨hq, -⟩
    · exact h o ho hp
    · exact hq
  omega

private theorem quantityOf_sublist {l l'} (h : l.Sublist l') : quantityOf l P ≤ quantityOf l' P :=
  ((h.filter P).map _).sum_le_sum fun _ _ => Nat.zero_le _

private theorem quantityOf_all {l} (h : ∀ o ∈ l, P o = true) :
    quantityOf l P = (l.map (·.quantity)).sum := by
  rw [quantityOf, filter_eq_self.mpr h]

private theorem quantityOf_perm {l l'} (h : l.Perm l') : quantityOf l P = quantityOf l' P :=
  ((h.filter P).map _).sum_eq

end quantities

section allocated

variable {orders : List AuctionOrder} {r : AuctionResult}

section

variable (hnodup : (orders.map (·.id)).Nodup)
include hnodup

private theorem allocate_served (r : AuctionResult) :
    ∃ s, allocate orders r = s.fills ∧ Allocating (queue orders .buy r.price) (queue orders .sell r.price) r.volume s ∧
      (s.remaining = 0 ∨ s.buys = [] ∨ s.sells = []) := by
  obtain ⟨s, hs, halloc, hend⟩ := @Allocating.run (queue orders .buy r.price) (queue orders .sell r.price) r.price
    r.volume (queue_ids_nodup hnodup) (queue_ids_nodup hnodup) queue_positive queue_positive
  exact ⟨s, by rw [← hs]; rfl, halloc, hend⟩

private theorem allocate_side (r : AuctionResult) (side : AuctionSide) :
    ∃ rest used total, Served (queue orders side r.price) side (allocate orders r) rest used total := by
  obtain ⟨_, hs, halloc, -⟩ := allocate_served hnodup r
  rw [hs]
  cases side with
  | buy => exact ⟨_, _, _, halloc.buys⟩
  | sell => exact ⟨_, _, _, halloc.sells⟩

theorem eq_of_id {o'} (ho : o ∈ orders) (ho' : o' ∈ orders) (h : o.id = o'.id) :
    o = o' := inj_on_of_nodup_map hnodup ho ho' h

theorem allocate_fills (r : AuctionResult) (side : AuctionSide) {f}
    (hf : f ∈ allocate orders r) : 0 < f.quantity ∧ ∃ o ∈ orders, o.side = side ∧ o.id = idOf side f := by
  obtain ⟨_, _, _, hserved⟩ := allocate_side hnodup r side
  obtain ⟨hq, o, ho, hid⟩ := hserved.fills f hf
  obtain ⟨ho', helig⟩ := mem_queue.mp ho
  exact ⟨hq, o, ho', counts_side (eligible_iff.mp helig).1, hid⟩

private theorem allocate_not_queued (r : AuctionResult) {side}
    (ho : o ∈ orders) (hq : o ∉ queue orders side r.price) :
    tradedBy (allocate orders r) side o.id = 0 := by
  obtain ⟨_, _, _, hserved⟩ := allocate_side hnodup r side
  have hnone : (allocate orders r).filter (idOf side · = o.id) = [] := by
    rw [filter_eq_nil_iff]
    intro f hf hid
    obtain ⟨-, _, ho', hid'⟩ := hserved.fills f hf
    rw [decide_eq_true_eq, ← hid'] at hid
    rw [eq_of_id hnodup (mem_queue.mp ho').1 ho hid] at ho'
    exact hq ho'
  rw [tradedBy, hnone]
  rfl

private theorem allocate_other_side (r : AuctionResult) {side}
    (ho : o ∈ orders) (hside : o.side ≠ side) : tradedBy (allocate orders r) side o.id = 0 :=
  allocate_not_queued hnodup r ho fun hq => hside (counts_side (eligible_iff.mp (mem_queue.mp hq).2).1)

theorem allocate_traded_le (r : AuctionResult) (ho : o ∈ orders) :
    tradedBy (allocate orders r) .buy o.id + tradedBy (allocate orders r) .sell o.id ≤ o.quantity := by
  have hle : ∀ side, tradedBy (allocate orders r) side o.id ≤ o.quantity := by
    intro side
    by_cases hq : o ∈ queue orders side r.price
    · obtain ⟨_, _, _, hserved⟩ := allocate_side hnodup r side
      exact hserved.traded_le hq
    · rw [allocate_not_queued hnodup r ho hq]
      exact Nat.zero_le _
  cases hs : o.side with
  | buy =>
    rw [allocate_other_side hnodup r ho (show o.side ≠ .sell by simp [hs]), Nat.add_zero]
    exact hle .buy
  | sell =>
    rw [allocate_other_side hnodup r ho (show o.side ≠ .buy by simp [hs]), Nat.zero_add]
    exact hle .sell

end

/-- At the clearing price both sides offer the volume. -/
theorem Clears.volume_le (h : Clears orders referencePrice r) (hpos : 0 < r.volume)
    (side : AuctionSide) : r.volume ≤ quantityOf orders (counts side r.price) := by
  by_cases hlimit : ∃ p, IsLimitPrice orders p
  swap
  · -- only market orders, which count at every price
    obtain ⟨hvolume, -⟩ := h.market hlimit
    have hmarket : r.volume ≤ quantityOf orders (isMarket side) := by
      split at hvolume
      · rw [hvolume]
        cases side with
        | buy => exact Nat.min_le_left _ _
        | sell => exact Nat.min_le_right _ _
      · omega
    refine hmarket.trans (quantityOf_mono fun _ _ ho => ?_)
    cases side <;> simp [counts, ho]
  have hbest : r.price ∈ bestPrices orders referencePrice r.volume := by
    by_cases hall : ∀ p ∈ bestPrices orders referencePrice r.volume, 0 < imbalanceAt orders p
    · exact (h.highest hlimit hpos hall).1
    · exact (h.lowest hlimit hpos hall).1
  have hvolume : volumeAt orders r.price = r.volume := by
    unfold bestPrices at hbest
    cases referencePrice with
    | none => exact hbest.1.2
    | some => exact hbest.1.1.2
  rw [← hvolume]
  cases side with
  | buy => exact Nat.min_le_left _ _
  | sell => exact Nat.min_le_right _ _

private theorem sum_queue (orders : List AuctionOrder) (side : AuctionSide) (price : Int) :
    ((queue orders side price).map (·.quantity)).sum = quantityOf orders (counts side price) := by
  have hfilter : ∀ l : List AuctionOrder, quantityOf l (eligible side price) = quantityOf l (counts side price) := by
    intro l
    induction l using List.reverseRecOn with
    | nil => rfl
    | append_singleton _ o ih =>
      rw [quantityOf_append_singleton, quantityOf_append_singleton, ih]
      by_cases hzero : o.quantity = 0
      · simp [hzero]
      have heq : eligible side price o = counts side price o := by
        rw [Bool.eq_iff_iff, eligible_iff]
        exact ⟨fun h => h.1, fun h => ⟨h, Nat.pos_of_ne_zero hzero⟩⟩
      rw [heq]
  rw [← hfilter]
  exact ((perm_insertionSort _ _).map _).sum_eq

section

variable (h : Clears orders referencePrice r) (hnodup : (orders.map (·.id)).Nodup)
include h hnodup

private theorem allocate_total (side : AuctionSide) :
    ∃ rest used, Served (queue orders side r.price) side (allocate orders r) rest used r.volume := by
  obtain ⟨s, hs, halloc, hend⟩ := allocate_served hnodup r
  have hzero : s.remaining = 0 := by
    by_contra hrem
    have hle := halloc.le
    have hempty : ∀ (side : AuctionSide) (used : Nat),
        ¬ Served (queue orders side r.price) side s.fills [] used (r.volume - s.remaining) := by
      intro side used hserved
      obtain ⟨_, hl, -, _⟩ := hserved.done
      have hsum := sum_queue orders side r.price
      have hvol := h.volume_le (by omega) side
      rw [hl, append_nil] at hsum
      have := hserved.empty rfl
      omega
    rcases hend with h0 | hb | hs'
    · exact hrem h0
    · have := halloc.buys
      rw [hb] at this
      exact hempty .buy _ this
    · have := halloc.sells
      rw [hs'] at this
      exact hempty .sell _ this
  have htotal : r.volume - s.remaining = r.volume := by omega
  rw [hs]
  cases side with
  | buy => exact ⟨_, _, htotal ▸ halloc.buys⟩
  | sell => exact ⟨_, _, htotal ▸ halloc.sells⟩

/-- Where an order has something left, more than the volume wants to trade. -/
theorem volume_lt_of_left (hpos : ∀ o ∈ orders, 0 < o.quantity) {p : Int}
    (ho : o ∈ orders) (hp : o.limitPrice = some p) (hleft : tradedBy (allocate orders r) o.side o.id < o.quantity) :
    r.volume < quantityOf orders (counts o.side p) := by
  have hself : counts o.side p o = true := by
    cases hs : o.side <;> simp [counts, isLimit, hs, hp]
  by_cases hq : o ∈ queue orders o.side r.price
  · obtain ⟨_, _, hserved⟩ := allocate_total h hnodup o.side
    obtain ⟨pre, _, hl, hlt⟩ := hserved.behind queue_positive hq hleft
    have hsorted := @queue_sorted orders o.side r.price
    have hbefore : ∀ o' ∈ pre, counts o.side p o' = true := by
      intro o' ho'
      rw [hl, pairwise_append] at hsorted
      have hmem : o' ∈ queue orders o.side r.price := by rw [hl]; simp [ho']
      exact counts_of_priority hp (counts_side (eligible_iff.mp (mem_queue.mp hmem).2).1)
        (hsorted.2.2 o' ho' o mem_cons_self)
    calc r.volume < (pre.map (·.quantity)).sum + o.quantity := hlt
      _ = quantityOf (pre ++ [o]) (counts o.side p) := by
        rw [quantityOf_append_singleton, quantityOf_all hbefore, if_pos hself]
      _ ≤ quantityOf (queue orders o.side r.price) (counts o.side p) := by
        refine quantityOf_sublist ?_
        rw [hl]
        exact List.Sublist.append_left (singleton_sublist.mpr mem_cons_self) _
      _ = quantityOf (orders.filter (eligible o.side r.price)) (counts o.side p) :=
        quantityOf_perm (perm_insertionSort _ _)
      _ ≤ quantityOf orders (counts o.side p) := quantityOf_sublist filter_sublist
  · -- the limit of the order is worse than the clearing price
    have hnot : counts o.side r.price o = false := by
      by_contra hc
      exact hq (mem_queue.mpr ⟨ho, eligible_iff.mpr ⟨by simpa using hc, hpos o ho⟩⟩)
    by_cases hv : r.volume = 0
    · have := le_quantityOf ho hself
      have := hpos o ho
      omega
    refine lt_of_le_of_lt (h.volume_le (Nat.pos_of_ne_zero hv) o.side) (quantityOf_lt ?_ ho hnot hself (hpos o ho))
    intro o' ho' hc
    cases hs : o.side with
    | buy | sell =>
      simp only [hs, counts, isMarket, isLimit, hp] at hnot hc ⊢
      cases hl : o'.limitPrice with
      | none => simp_all
      | some =>
        simp_all
        omega

theorem allocate_uncrossed (hpos : ∀ o ∈ orders, 0 < o.quantity) {bid ask} {p q : Int}
    (hbid : bid ∈ orders) (hask : ask ∈ orders) (hbs : bid.side = .buy) (has : ask.side = .sell)
    (hp : bid.limitPrice = some p) (hq : ask.limitPrice = some q)
    (hbl : tradedBy (allocate orders r) .buy bid.id < bid.quantity)
    (hal : tradedBy (allocate orders r) .sell ask.id < ask.quantity) : p < q := by
  by_contra hcross
  have hdemand := volume_lt_of_left h hnodup hpos hbid hp (hbs ▸ hbl)
  have hsupply := volume_lt_of_left h hnodup hpos hask hq (has ▸ hal)
  rw [hbs] at hdemand
  rw [has] at hsupply
  -- at the price of the ask all of this demand meets all of this supply
  have hmono : quantityOf orders (counts .buy p) ≤ demand orders q := by
    refine quantityOf_mono fun o _ ho => ?_
    simp only [counts, isMarket, isLimit] at ho ⊢
    cases hl : o.limitPrice with
    | none => simp_all
    | some =>
      simp_all
      omega
  have hmax := (h.volume ⟨p, bid, hbid, hp⟩).2 ⟨q, rfl⟩
  have hvol : r.volume < volumeAt orders q := lt_min (lt_of_lt_of_le hdemand hmono) hsupply
  exact absurd hmax (not_le.mpr hvol)

end

end allocated

/-- The order may trade at the price. -/
def Accepts (o : AuctionOrder) (price : Int) : Prop :=
  ∀ p, o.limitPrice = some p →
    match o.side with
    | .buy => price ≤ p
    | .sell => p ≤ price

/-- Market orders come first, then the better limit, then the earlier arrival. -/
def Outranks (side : AuctionSide) (a b : AuctionOrder) : Prop :=
  match a.limitPrice, b.limitPrice with
  | none, none => a.seq < b.seq
  | none, some _ => True
  | some _, none => False
  | some p, some q =>
    match side with
    | .buy => q < p ∨ (p = q ∧ a.seq < b.seq)
    | .sell => p < q ∨ (p = q ∧ a.seq < b.seq)

/-- What the fills of an auction have to be. -/
structure Allocated (orders : List AuctionOrder) (r : AuctionResult) (fills : List AuctionFill) : Prop where
  positive : ∀ f ∈ fills, 0 < f.quantity ∧ f.price = r.price
  between : ∀ f ∈ fills, ∀ side, ∃ o ∈ orders, o.side = side ∧ o.id = idOf side f ∧ Accepts o r.price
  total : ∀ side, (orders.map fun o => tradedBy fills side o.id).sum = r.volume
  sum : (fills.map (·.quantity)).sum = r.volume
  bounded : ∀ o ∈ orders, tradedBy fills .buy o.id + tradedBy fills .sell o.id ≤ o.quantity
  strict : ∀ side, ∀ a ∈ orders, ∀ b ∈ orders, a.side = side → b.side = side → Accepts a r.price → Outranks side a b →
    0 < tradedBy fills side b.id → tradedBy fills side a.id = a.quantity

section priority

variable {orders l rest : List AuctionOrder} {side : AuctionSide} {price : Int} {fills : List AuctionFill}
  {used total : Nat} {a b : AuctionOrder} {r : AuctionResult}

private theorem eligible_of_accepts (hside : o.side = side) (h : Accepts o price) (hpos : 0 < o.quantity) :
    eligible side price o = true := by
  unfold eligible
  subst hside
  cases hl : o.limitPrice with
  | none => simp [hpos]
  | some p =>
    have hp := h p hl
    cases hs : o.side <;> simp [hs, hpos] at hp ⊢ <;> exact hp

private theorem accepts_of_eligible (h : eligible side price o = true) : Accepts o price := by
  intro p hp
  simp only [eligible, hp, Bool.and_eq_true, decide_eq_true_eq] at h
  obtain ⟨⟨hside, -⟩, hlimit⟩ := h
  rw [hside]
  cases side <;> simpa using hlimit

theorem Outranks.priority (h : Outranks side a b) : priority side a b = .lt := by
  unfold Outranks at h
  unfold Auction.priority
  cases hp : a.limitPrice with
  | none =>
    cases hq : b.limitPrice with
    | none =>
      simp only [hp, hq] at h
      have hseq : compare a.seq b.seq = .lt := Nat.compare_eq_lt.mpr h
      cases side <;> simp [hseq, Ordering.then]
    | some => rfl
  | some p =>
    rcases hq : b.limitPrice with _ | q
    · simp [hp, hq] at h
    simp only [hp, hq] at h
    cases side with
    | buy =>
      rcases h with hlt | ⟨rfl, hseq⟩
      · have hcmp : compare (some q) (some p) = .lt := Int.compare_eq_lt.mpr hlt
        simp [hcmp, Ordering.then]
      · simp [Nat.compare_eq_lt.mpr hseq, Ordering.then]
    | sell =>
      rcases h with hlt | ⟨rfl, hseq⟩
      · have hcmp : compare (some p) (some q) = .lt := Int.compare_eq_lt.mpr hlt
        simp [hcmp, Ordering.then]
      · simp [Nat.compare_eq_lt.mpr hseq, Ordering.then]

theorem Served.strict (h : Served l side fills rest used total)
    (hsorted : l.Pairwise fun a b => (Auction.priority side a b).isLE) (ha : a ∈ l) (hb : b ∈ l)
    (hlt : Auction.priority side a b = .lt) (htraded : 0 < tradedBy fills side b.id) :
    tradedBy fills side a.id = a.quantity := by
  have hnot : ¬ (Auction.priority side b a).isLE = true := by
    rw [show Auction.priority side b a = (Auction.priority side a b).swap from Std.OrientedCmp.eq_swap, hlt]
    decide
  obtain ⟨_, hl, hdone, -⟩ := h.done
  rw [hl] at ha hb hsorted
  obtain ⟨-, hrest, hacross⟩ := pairwise_append.mp hsorted
  rcases mem_append.mp ha with hadone | harest
  · exact hdone a hadone
  rcases mem_append.mp hb with hbdone | hbrest
  · exact absurd (hacross b hbdone a harest) hnot
  rcases hr : rest with _ | ⟨o, rest'⟩
  · simp [hr] at harest
  obtain ⟨-, -, hzero⟩ := h.head o rest' hr
  rw [hr] at harest hbrest hrest
  rcases mem_cons.mp hbrest with rfl | hbtail
  · rcases mem_cons.mp harest with rfl | hatail
    · rw [hlt] at hnot
      exact absurd rfl hnot
    · exact absurd ((pairwise_cons.mp hrest).1 a hatail) hnot
  · rw [hzero b hbtail] at htraded
    exact absurd htraded (lt_irrefl 0)

theorem Served.sum (h : Served l side fills rest used total) :
    (l.map fun o => tradedBy fills side o.id).sum = total := by
  obtain ⟨_, hl, hdone, htotal⟩ := h.done
  rw [hl, map_append, sum_append, map_congr_left hdone]
  rcases hr : rest with _ | ⟨o, rest'⟩
  · rw [h.empty hr] at htotal
    simpa using htotal
  obtain ⟨-, hused, hzero⟩ := h.head o rest' hr
  rw [map_cons, sum_cons, hused, map_congr_left hzero, map_const', sum_replicate]
  simpa using htotal

private theorem allocate_price {f} (hf : f ∈ allocate orders r) : f.price = r.price := by
  refine Loop.run_induct (P := fun s : AllocState => ∀ f ∈ s.fills, f.price = r.price) (fun s _ hs hstep => ?_) _
    (fun f hf => by cases hf) f hf
  unfold allocStep at hstep
  split at hstep
  · split at hstep
    · cases hstep
      intro g hg
      rcases mem_append.mp hg with hg | hg
      · exact hs g hg
      · rw [mem_singleton.mp hg]
    · cases hstep
  · cases hstep

private theorem sum_tradedBy (fills : List AuctionFill) (side : AuctionSide) (hnodup : (orders.map (·.id)).Nodup)
    (h : ∀ f ∈ fills, ∃ o ∈ orders, o.id = idOf side f) :
    (orders.map fun o => tradedBy fills side o.id).sum = (fills.map (·.quantity)).sum := by
  induction fills with
  | nil => simp [tradedBy]
  | cons f fills ih =>
    have hsplit : ∀ id, tradedBy (f :: fills) side id =
        (if idOf side f = id then f.quantity else 0) + tradedBy fills side id := fun id => by
        rw [← tradedBy_singleton, ← tradedBy_append]
        rfl
    obtain ⟨o, ho, hid⟩ := h f mem_cons_self
    have hone : (orders.map fun o => if idOf side f = o.id then f.quantity else 0).sum = f.quantity := by
      have hmap : (orders.map fun o => if idOf side f = o.id then f.quantity else 0) =
          (orders.map (·.id)).map fun id => if idOf side f = id then f.quantity else 0 := by
        rw [map_map]
        rfl
      have hmem : idOf side f ∈ orders.map (·.id) := by
        rw [← hid]
        exact mem_map_of_mem ho
      rw [hmap, sum_map_eq_nsmul_single (idOf side f) _ fun id hne _ => if_neg (Ne.symm hne),
        count_eq_one_of_mem hnodup hmem, if_pos rfl, one_nsmul]
    simp only [hsplit, sum_map_add, hone, ih fun f hf => h f (mem_cons_of_mem _ hf), map_cons, sum_cons]

end priority

end Fxp.Auction

namespace Fxp

open Auction

/-- `allocate` distributes the volume of `uncross` by priority. -/
theorem allocate_by_priority {orders : List AuctionOrder} {referencePrice : Option Int} {r : AuctionResult}
    (hnodup : (orders.map (·.id)).Nodup) (hr : uncross orders referencePrice = .ok r) :
    Allocated orders r (allocate orders r) := by
  obtain ⟨_, hr', hclears⟩ := exists_clears orders referencePrice
  rw [hr] at hr'
  cases hr'
  have htotal := allocate_total hclears hnodup
  have hbetween : ∀ f ∈ allocate orders r, ∀ side, ∃ o ∈ orders, o.side = side ∧ o.id = idOf side f ∧
      Accepts o r.price := by
    intro f hf side
    obtain ⟨_, _, hserved⟩ := htotal side
    obtain ⟨-, o, ho, hid⟩ := hserved.fills f hf
    obtain ⟨hmem, helig⟩ := mem_queue.mp ho
    exact ⟨o, hmem, counts_side (eligible_iff.mp helig).1, hid, accepts_of_eligible helig⟩
  have hvolume : ((allocate orders r).map (·.quantity)).sum = r.volume := by
    obtain ⟨_, _, hserved⟩ := htotal .buy
    rw [← sum_tradedBy _ .buy (queue_ids_nodup hnodup) fun f hf => (hserved.fills f hf).2]
    exact hserved.sum
  have hsum : ∀ side, (orders.map fun o => tradedBy (allocate orders r) side o.id).sum = r.volume := by
    intro side
    rw [← hvolume]
    refine sum_tradedBy _ side hnodup fun f hf => ?_
    obtain ⟨o, ho, -, hid, -⟩ := hbetween f hf side
    exact ⟨o, ho, hid⟩
  refine ⟨fun f hf => ?_, hbetween, hsum, hvolume, fun o ho => allocate_traded_le hnodup r ho, ?_⟩
  · exact ⟨(allocate_fills hnodup r .buy hf).1, allocate_price hf⟩
  intro side a ha b hb haside hbside haccepts hout htraded
  obtain ⟨_, _, hserved⟩ := htotal side
  have hbq : b ∈ queue orders side r.price := by
    by_contra hnot
    rw [allocate_not_queued hnodup r hb hnot] at htraded
    exact absurd htraded (lt_irrefl 0)
  by_cases hzero : a.quantity = 0
  · have hle := allocate_traded_le hnodup r ha
    cases side <;> omega
  · have haq := mem_queue.mpr ⟨ha, eligible_of_accepts haside haccepts (Nat.pos_of_ne_zero hzero)⟩
    exact hserved.strict queue_sorted haq hbq hout.priority htraded

/-- A market order, two limits at one price and one that is too low: the later of the two limits gets nothing. -/
theorem allocate_by_priority_mixed :
    let orders : List AuctionOrder :=
      [{ id := "A", side := .buy, limitPrice := some 101, quantity := 5, seq := 2 },
        { id := "B", side := .buy, limitPrice := none, quantity := 3, seq := 3 },
        { id := "C", side := .sell, limitPrice := some 100, quantity := 6, seq := 1 },
        { id := "D", side := .buy, limitPrice := some 99, quantity := 4, seq := 4 },
        { id := "E", side := .buy, limitPrice := some 101, quantity := 2, seq := 5 }]
    (orders.map (·.id)).Nodup ∧ uncross orders none = .ok { price := 101, volume := 6, imbalance := 4 } ∧
      Allocated orders { price := 101, volume := 6, imbalance := 4 }
        (allocate orders { price := 101, volume := 6, imbalance := 4 }) := by
  refine ⟨by decide, by decide +kernel, @allocate_by_priority _ none _ (by decide) (by decide +kernel)⟩

end Fxp

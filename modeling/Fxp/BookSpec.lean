import Fxp.Matcher

/-!
# What the book operations do

`OrderBook.WF` ties the price levels and the tables of the book together: every live order stands exactly once, at its
own side and price, and shows a positive part of what is left of it.
-/

namespace Fxp

open List

variable {s : OrderSide} {id : String}

def Order.withQuantity (o : Order) (n : Nat) : Order := { o with quantity := n }

@[simp] theorem Order.withQuantity_orderId (o : Order) (n : Nat) : (o.withQuantity n).orderId = o.orderId := rfl
@[simp] theorem Order.withQuantity_quantity (o : Order) (n : Nat) : (o.withQuantity n).quantity = n := rfl
@[simp] theorem Order.withQuantity_displayQuantity (o : Order) (n : Nat) :
    (o.withQuantity n).displayQuantity = o.displayQuantity := rfl

namespace Levels

section

variable (levels : Levels)
include levels

private theorem queue_put (p q : Int) (l : List Order) :
    (levels.put p l).queue q = if p = q then l else levels.queue q := by
  unfold put queue
  split
  · rename_i hempty
    rw [Maps.getElem?_erase]
    split
    · rw [isEmpty_iff.mp hempty]
      rfl
    · rfl
  · rw [Maps.getElem?_insert]
    split <;> rfl

theorem getElem?_put (p q : Int) (l : List Order) :
    (levels.put p l)[q]? = if p = q then (if l.isEmpty then none else some l) else levels[q]? := by
  unfold put
  split
  · rw [Maps.getElem?_erase]
  · rw [Maps.getElem?_insert]

private theorem insert_eq_put (p : Int) {l} (h : l ≠ []) : levels.insert p l = levels.put p l := by
  rw [put, if_neg (by simpa using h)]

private theorem put_put (p : Int) (l l' : List Order) : (levels.put p l).put p l' = levels.put p l' := by
  refine Std.ExtTreeMap.ext_getElem? fun {q} => ?_
  simp only [getElem?_put]
  split <;> rfl

theorem erase_put (p : Int) (l : List Order) : Levels.put (levels.erase p) p l = levels.put p l := by
  refine Std.ExtTreeMap.ext_getElem? fun {q} => ?_
  simp only [getElem?_put, Maps.getElem?_erase]
  split <;> rfl

end

end Levels

namespace OrderBook

def withQueue (b : OrderBook) (side : OrderSide) (price : Int) (l : List Order) : OrderBook :=
  b.setLevels side ((b.levels side).put price l)

section fields

variable (b : OrderBook) (side : OrderSide) (levels : Levels)

@[simp] theorem setLevels_symbol : (b.setLevels side levels).symbol = b.symbol := by cases side <;> rfl
@[simp] theorem setLevels_orderLookup : (b.setLevels side levels).orderLookup = b.orderLookup := by cases side <;> rfl
@[simp] theorem setLevels_cumFilled : (b.setLevels side levels).cumFilled = b.cumFilled := by cases side <;> rfl
@[simp] theorem setLevels_displayed : (b.setLevels side levels).displayed = b.displayed := by cases side <;> rfl
@[simp] theorem setLevels_arrival : (b.setLevels side levels).arrival = b.arrival := by cases side <;> rfl
@[simp] theorem setLevels_nextArrival : (b.setLevels side levels).nextArrival = b.nextArrival := by cases side <;> rfl
@[simp] theorem setLevels_stp : (b.setLevels side levels).stp = b.stp := by cases side <;> rfl

theorem levels_setLevels (s : OrderSide) :
    (b.setLevels side levels).levels s = if side = s then levels else b.levels s := by
  cases side <;> cases s <;> rfl

@[simp] theorem levels_setLevels_self : (b.setLevels side levels).levels side = levels := by
  rw [levels_setLevels, if_pos rfl]

@[simp] theorem setLevels_setLevels (levels' : Levels) :
    (b.setLevels side levels).setLevels side levels' = b.setLevels side levels' := by
  cases side <;> rfl

variable (p : Int) (l : List Order)

@[simp] theorem withQueue_symbol : (b.withQueue side p l).symbol = b.symbol := setLevels_symbol ..
@[simp] theorem withQueue_orderLookup : (b.withQueue side p l).orderLookup = b.orderLookup := setLevels_orderLookup ..
@[simp] theorem withQueue_cumFilled : (b.withQueue side p l).cumFilled = b.cumFilled := setLevels_cumFilled ..
@[simp] theorem withQueue_displayed : (b.withQueue side p l).displayed = b.displayed := setLevels_displayed ..
@[simp] theorem withQueue_arrival : (b.withQueue side p l).arrival = b.arrival := setLevels_arrival ..
@[simp] theorem withQueue_stp : (b.withQueue side p l).stp = b.stp := setLevels_stp ..
theorem queue_withQueue (s : OrderSide) (q : Int) :
    (b.withQueue side p l).queue s q = if side = s ∧ p = q then l else b.queue s q := by
  unfold withQueue queue
  rw [levels_setLevels]
  by_cases hs : side = s
  · subst hs
    simp only [if_pos, Levels.queue_put, true_and]
  · rw [if_neg hs, if_neg (by simp [hs])]

@[simp] theorem withQueue_withQueue (l' : List Order) :
    (b.withQueue side p l).withQueue side p l' = b.withQueue side p l' := by
  unfold withQueue
  rw [levels_setLevels_self, setLevels_setLevels, Levels.put_put]

end fields

def NoEmpty (b : OrderBook) : Prop := ∀ (s : OrderSide) (p : Int), (b.levels s)[p]? ≠ some []

theorem NoEmpty.withQueue {b : OrderBook} (h : b.NoEmpty) (side : OrderSide) (p : Int) (l : List Order) :
    (b.withQueue side p l).NoEmpty := by
  intro s q
  unfold OrderBook.withQueue
  rw [levels_setLevels]
  by_cases hs : side = s
  · subst hs
    rw [if_pos rfl, Levels.getElem?_put]
    split
    · cases l <;> simp
    · exact h side q
  · rw [if_neg hs]
    exact h s q

theorem NoEmpty.queue_ne_nil {b : OrderBook} (h : b.NoEmpty) {p : Int} :
    b.queue s p ≠ [] ↔ p ∈ b.levels s := by
  rw [Maps.mem_iff_getElem?]
  cases hl : (b.levels s)[p]? with
  | none => simp [queue, Levels.queue, hl]
  | some l =>
    have : l ≠ [] := fun hnil => h s p (hnil ▸ hl)
    simp [queue, Levels.queue, hl, this]

/-- The resting orders are those with an arrival number, and only of them it is kept what was filled. -/
structure Kept (lookup : HashMap Order) (arrival filled : HashMap Nat) : Prop where
  arrival : ∀ id : String, arrival[id]? = none ↔ lookup[id]? = none
  filled : ∀ (id : String) (n : Nat), filled[id]? = some n → n < 2 ^ 32 ∧ lookup[id]? ≠ none

namespace Kept

variable {lookup : HashMap Order} {arrival filled : HashMap Nat} (h : Kept lookup arrival filled) (id : String)
include h

theorem filled_lt : filled[id]?.getD 0 < 2 ^ 32 := by
  rcases hn : filled[id]? with _ | n
  · decide
  · exact (h.filled id n hn).1

private theorem erase : Kept (lookup.erase id) (arrival.erase id) (filled.erase id) := by
  refine ⟨fun id' => ?_, fun id' n hn => ?_⟩
  · have := h.arrival id'
    grind [Maps.getElem?_erase]
  · have := h.filled id' n
    grind [Maps.getElem?_erase]

private theorem insert (o : Order) (n : Nat) : Kept (lookup.insert id o) (arrival.insert id n) filled := by
  refine ⟨fun id' => ?_, fun id' n hn => ?_⟩
  · have := h.arrival id'
    grind [Maps.getElem?_insert]
  · have := h.filled id' n
    grind [Maps.getElem?_insert]

variable {id} (hid : lookup[id]? ≠ none)
include hid

private theorem touch (o : Order) : Kept (lookup.insert id o) arrival filled := by
  refine ⟨fun id' => ?_, fun id' n hn => ?_⟩
  · have := h.arrival id'
    grind [Maps.getElem?_insert]
  · have := h.filled id' n
    grind [Maps.getElem?_insert]

private theorem renumber (n : Nat) : Kept lookup (arrival.insert id n) filled := by
  refine ⟨fun id' => ?_, h.filled⟩
  have := h.arrival id'
  grind [Maps.getElem?_insert]

private theorem fill {n : Nat} (hn : n < 2 ^ 32) : Kept lookup arrival (filled.insert id n) := by
  refine ⟨h.arrival, fun id' m hm => ?_⟩
  have := h.filled id' m
  grind [Maps.getElem?_insert]

end Kept

structure WF (b : OrderBook) : Prop where
  noEmpty : b.NoEmpty
  placed : ∀ s p o, o ∈ b.queue s p → o.side = s ∧ o.price = p
  distinct : ∀ s p, ((b.queue s p).map Order.orderId).Nodup
  found : ∀ (id : String) (o : Order), b.orderLookup[id]? = some o ↔ o.orderId = id ∧ o ∈ b.queue o.side o.price
  positive : ∀ (id : String) (o : Order), b.orderLookup[id]? = some o → 0 < o.quantity
  shown : ∀ (id : String) (o : Order), b.orderLookup[id]? = some o → ∃ d, b.displayed[id]? = some d ∧
    0 < d ∧ d ≤ o.quantity ∧ (o.displayQuantity = 0 → d = o.quantity)
  unknown : ∀ id : String, b.orderLookup[id]? = none → b.displayed[id]? = none
  kept : Kept b.orderLookup b.arrival b.cumFilled

def others (b : OrderBook) (o : Order) : List Order := (b.queue o.side o.price).filter (·.orderId ≠ o.orderId)

/-- From `b` to `b'` the tables changed at `o`: it has the quantity and the slice in `left`, or was dropped, and
`traded` of it was filled. -/
structure TableEdit (b : OrderBook) (o : Order) (left : Option (Nat × Nat)) (traded : Nat) (b' : OrderBook) : Prop where
  lookup : ∀ id : String, b'.orderLookup[id]? = if o.orderId = id then left.map fun l => o.withQuantity l.1
    else b.orderLookup[id]?
  displayed : ∀ id : String, b'.displayed[id]? = if o.orderId = id then left.map Prod.snd else b.displayed[id]?
  cumFilled : ∀ id : String, b'.cumFilled[id]?.getD 0 =
    if o.orderId = id then (if left.isSome then Checked.wrapU32 (b.cumFilled[id]?.getD 0 + traded) else 0)
    else b.cumFilled[id]?.getD 0
  symbol : b'.symbol = b.symbol
  kept : Kept b.orderLookup b.arrival b.cumFilled → Kept b'.orderLookup b'.arrival b'.cumFilled

/-- The tables and the levels changed at the live order `o`; the other orders keep their places. -/
structure Edited (b : OrderBook) (o : Order) (left : Option (Nat × Nat)) (traded : Nat) (b' : OrderBook) : Prop
    extends TableEdit b o left traded b' where
  elsewhere : ∀ s p, ¬ (o.side = s ∧ o.price = p) → b'.queue s p = b.queue s p
  others : b'.others o = b.others o
  here : (b'.queue o.side o.price).filter (·.orderId = o.orderId) = (left.map fun l => o.withQuantity l.1).toList
  noEmpty : b'.NoEmpty

/-- From `b` to `b'` the order `o` came to rest at the back of its level; `filled` of it was filled before. -/
structure Added (b : OrderBook) (o : Order) (filled : Nat) (b' : OrderBook) : Prop where
  queue : ∀ s p, b'.queue s p = if o.side = s ∧ o.price = p then b.queue s p ++ [o] else b.queue s p
  noEmpty : b'.NoEmpty
  lookup : ∀ id : String, b'.orderLookup[id]? = if o.orderId = id then some o else b.orderLookup[id]?
  displayed : ∀ id : String, b'.displayed[id]? = if o.orderId = id then some (firstSlice o) else b.displayed[id]?
  cumFilled : ∀ id : String, b'.cumFilled[id]?.getD 0 = if o.orderId = id then filled else b.cumFilled[id]?.getD 0
  symbol : b'.symbol = b.symbol
  kept : Kept b.orderLookup b.arrival b.cumFilled → Kept b'.orderLookup b'.arrival b'.cumFilled

variable {b b' : OrderBook} {o : Order}

@[simp] theorem queue_new (symbol : String) (s : OrderSide) (p : Int) : (new symbol).queue s p = [] := by
  cases s <;> simp [new, queue, Levels.queue, levels]

theorem wf_new (symbol : String) : (new symbol).WF where
  noEmpty s p := by cases s <;> simp [new, levels]
  placed s p o h := by cases s <;> simp [new, queue, levels, Levels.queue] at h
  distinct s p := by cases s <;> simp [new, queue, levels, Levels.queue]
  found id o := by cases o.side <;> simp [new, queue, levels, Levels.queue]
  positive id o h := by simp [new] at h
  shown id o h := by simp [new] at h
  unknown id _ := by simp [new]
  kept := ⟨fun id => by simp [new], fun id n h => by simp [new] at h⟩

namespace WF

theorem mem_queue (h : b.WF) (ho : b.orderLookup[id]? = some o) : o ∈ b.queue o.side o.price :=
  ((h.found id o).mp ho).2

theorem orderId_eq (h : b.WF) (ho : b.orderLookup[id]? = some o) : o.orderId = id :=
  ((h.found id o).mp ho).1

theorem lookup_of_mem (h : b.WF) {p : Int} (ho : o ∈ b.queue s p) :
    b.orderLookup[o.orderId]? = some o := by
  obtain ⟨rfl, rfl⟩ := h.placed s p o ho
  exact (h.found o.orderId o).mpr ⟨rfl, ho⟩

theorem eq_of_orderId (h : b.WF) {s'} {p p' : Int} {x} (ho : o ∈ b.queue s p)
    (hx : x ∈ b.queue s' p') (hid : x.orderId = o.orderId) : x = o := by
  have h1 := h.lookup_of_mem ho
  have h2 := h.lookup_of_mem hx
  rw [hid, h1, Option.some.injEq] at h2
  exact h2.symm

theorem visible_eq (h : b.WF) (ho : b.orderLookup[id]? = some o) :
    b.displayed[id]? = some (b.visible o) ∧ 0 < b.visible o ∧ b.visible o ≤ o.quantity ∧
      (o.displayQuantity = 0 → b.visible o = o.quantity) := by
  obtain ⟨d, hd, hrest⟩ := h.shown id o ho
  have hvis : b.visible o = d := by rw [visible, h.orderId_eq ho, hd, Option.getD_some]
  rw [hvis]
  exact ⟨hd, hrest⟩

theorem unfilled (h : b.WF) (hid : b.orderLookup[id]? = none) : b.cumFilled[id]?.getD 0 = 0 := by
  rcases hn : b.cumFilled[id]? with _ | n
  · rfl
  · exact absurd hid (h.kept.filled id n hn).2

end WF

namespace Edited

variable {left : Option (Nat × Nat)} {traded : Nat}

theorem mem_queue (h : Edited b o left traded b') {p : Int} {x} (hwf : b.WF)
    (ho : b.orderLookup[o.orderId]? = some o) :
    x ∈ b'.queue s p ↔
      (x.orderId = o.orderId ∧ o.side = s ∧ o.price = p ∧ ∃ l, left = some l ∧ x = o.withQuantity l.1) ∨
      (x.orderId ≠ o.orderId ∧ x ∈ b.queue s p) := by
  by_cases hhere : o.side = s ∧ o.price = p
  · obtain ⟨rfl, rfl⟩ := hhere
    by_cases hid : x.orderId = o.orderId
    · have : x ∈ b'.queue o.side o.price ↔ x ∈ (b'.queue o.side o.price).filter (·.orderId = o.orderId) := by
        simp [hid]
      rw [this, h.here, Option.mem_toList, Option.map_eq_some_iff]
      simp only [hid, ne_eq, not_true_eq_false, false_and, or_false, true_and, eq_comm]
    have hiff : ∀ c : OrderBook, x ∈ c.queue o.side o.price ↔ x ∈ c.others o := by
      intro c
      simp [OrderBook.others, hid]
    rw [hiff b', h.others, ← hiff b]
    simp [hid]
  · rw [h.elsewhere s p hhere]
    constructor
    · intro hx
      refine .inr ⟨fun hid => hhere ?_, hx⟩
      have := hwf.eq_of_orderId (hwf.mem_queue ho) hx hid
      subst this
      exact hwf.placed s p x hx
    · rintro (⟨-, hs, hp, -⟩ | ⟨-, hx⟩)
      · exact absurd ⟨hs, hp⟩ hhere
      · exact hx

/-- What is left of an order is a positive part of it, and a fully displayed order shows all of it. -/
def Fits (o : Order) (left : Option (Nat × Nat)) : Prop :=
  ∀ n d, left = some (n, d) → 0 < d ∧ d ≤ n ∧ (o.displayQuantity = 0 → d = n)

theorem wf (h : Edited b o left traded b') (hwf : b.WF) (ho : b.orderLookup[o.orderId]? = some o)
    (hfits : Fits o left) : b'.WF where
  noEmpty := h.noEmpty
  placed s p x hx := by
    rcases (h.mem_queue hwf ho).mp hx with ⟨-, hs, hp, _, -, rfl⟩ | ⟨-, hx⟩
    · exact ⟨hs, hp⟩
    · exact hwf.placed s p x hx
  distinct s p := by
    by_cases hhere : o.side = s ∧ o.price = p
    · obtain ⟨rfl, rfl⟩ := hhere
      -- the order stands at most once, and the others keep their places
      rw [nodup_iff_count_le_one]
      intro id
      by_cases hid : id = o.orderId
      · have hcount : ((b'.queue o.side o.price).map Order.orderId).count id =
            ((b'.queue o.side o.price).filter (·.orderId = o.orderId)).length := by
          rw [count_eq_countP, countP_map, countP_eq_length_filter, hid]
          rfl
        rw [hcount, h.here]
        cases left <;> simp
      · have hcount : ∀ c : OrderBook, ((c.queue o.side o.price).map Order.orderId).count id =
            ((c.others o).map Order.orderId).count id := by
          intro c
          simp only [OrderBook.others, count_eq_countP, countP_map, countP_filter]
          refine countP_congr fun x _ => ?_
          by_cases hx : x.orderId = id <;> simp [hx, hid]
        rw [hcount, h.others, ← hcount]
        exact nodup_iff_count_le_one.mp (hwf.distinct o.side o.price) id
    · rw [h.elsewhere s p hhere]
      exact hwf.distinct s p
  found id x := by
    rw [h.lookup, h.mem_queue hwf ho]
    by_cases hid : o.orderId = id
    · subst hid
      rw [if_pos rfl, Option.map_eq_some_iff]
      constructor
      · rintro ⟨l, hl, rfl⟩
        exact ⟨rfl, .inl ⟨rfl, rfl, rfl, l, hl, rfl⟩⟩
      rintro ⟨hxid, ⟨-, -, -, l, hl, hx⟩ | ⟨hne, -⟩⟩
      · exact ⟨l, hl, hx.symm⟩
      · exact absurd hxid hne
    · rw [if_neg hid, hwf.found]
      constructor
      · rintro ⟨rfl, hx⟩
        exact ⟨rfl, .inr ⟨Ne.symm hid, hx⟩⟩
      rintro ⟨rfl, ⟨heq, -⟩ | ⟨-, hx⟩⟩
      · exact absurd heq.symm hid
      · exact ⟨rfl, hx⟩
  positive id x hx := by
    rw [h.lookup] at hx
    split at hx
    · obtain ⟨⟨n, d⟩, hl, rfl⟩ := Option.map_eq_some_iff.mp hx
      obtain ⟨_, _, -⟩ := hfits n d hl
      show 0 < n
      omega
    · exact hwf.positive id x hx
  shown id x hx := by
    rw [h.displayed]
    rw [h.lookup] at hx
    split at hx
    · rename_i hid
      obtain ⟨⟨n, d⟩, hl, rfl⟩ := Option.map_eq_some_iff.mp hx
      rw [if_pos hid, hl]
      exact ⟨d, rfl, hfits n d hl⟩
    · rename_i hid
      rw [if_neg hid]
      exact hwf.shown id x hx
  unknown id hx := by
    rw [h.lookup] at hx
    rw [h.displayed]
    split at hx
    · rename_i hid
      rw [if_pos hid]
      cases left with
      | none => rfl
      | some => cases hx
    · rename_i hid
      rw [if_neg hid]
      exact hwf.unknown id hx
  kept := h.kept hwf.kept

end Edited

theorem Added.wf {filled : Nat} (h : Added b o filled b') (hwf : b.WF) (hnew : b.orderLookup[o.orderId]? = none)
    (hpos : 0 < o.quantity) : b'.WF where
  noEmpty := h.noEmpty
  placed s p x hx := by
    rw [h.queue] at hx
    split at hx
    · rename_i hhere
      rcases mem_append.mp hx with hx | hx
      · exact hwf.placed s p x hx
      · rw [mem_singleton.mp hx]
        exact hhere
    · exact hwf.placed s p x hx
  distinct s p := by
    rw [h.queue]
    split
    · rw [map_append, nodup_append]
      refine ⟨hwf.distinct s p, by simp, ?_⟩
      intro id hid id' hid' heq
      obtain ⟨_, hx, rfl⟩ := mem_map.mp hid
      have hlook := hwf.lookup_of_mem hx
      rw [heq, mem_singleton.mp hid', hnew] at hlook
      cases hlook
    · exact hwf.distinct s p
  found id x := by
    rw [h.lookup, h.queue]
    by_cases hid : o.orderId = id
    · subst hid
      rw [if_pos rfl, Option.some.injEq]
      constructor
      · rintro rfl
        refine ⟨rfl, ?_⟩
        rw [if_pos ⟨rfl, rfl⟩]
        exact mem_append_right _ (mem_singleton_self o)
      rintro ⟨hxid, hx⟩
      split at hx
      · rcases mem_append.mp hx with hx | hx
        · have hlook := hwf.lookup_of_mem hx
          rw [hxid, hnew] at hlook
          cases hlook
        · exact (mem_singleton.mp hx).symm
      · have hlook := hwf.lookup_of_mem hx
        rw [hxid, hnew] at hlook
        cases hlook
    · rw [if_neg hid, hwf.found]
      refine and_congr_right fun hxid => ?_
      have hne : x ≠ o := fun heq => hid (heq ▸ hxid)
      split
      · simp [hne]
      · rfl
  positive id x hx := by
    rw [h.lookup] at hx
    split at hx
    · cases hx
      exact hpos
    · exact hwf.positive id x hx
  shown id x hx := by
    rw [h.lookup] at hx
    rw [h.displayed]
    split at hx
    · rename_i hid
      cases hx
      rw [if_pos hid]
      refine ⟨firstSlice o, rfl, ?_⟩
      unfold firstSlice
      split <;> omega
    · rename_i hid
      rw [if_neg hid]
      exact hwf.shown id x hx
  unknown id hx := by
    rw [h.lookup] at hx
    split at hx
    · cases hx
    rename_i hid
    rw [h.displayed, if_neg hid]
    exact hwf.unknown id hx
  kept := h.kept hwf.kept

/-- The sum over a level of a weight of the orders and the slices they show. -/
def weighed (b : OrderBook) (w : Order → Nat → Nat) (s : OrderSide) (p : Int) : Nat :=
  ((b.queue s p).map fun o => w o (b.visible o)).sum

def shownAt (b : OrderBook) (s : OrderSide) (p : Int) : Nat := b.weighed (fun _ d => d) s p

private theorem sum_map_split {l : List Order} (f : Order → Nat) :
    (l.map f).sum = ((l.filter (·.orderId = id)).map f).sum + ((l.filter (·.orderId ≠ id)).map f).sum := by
  induction l with
  | nil => rfl
  | cons x _ ih =>
    by_cases hx : x.orderId = id
    · simp [hx, ih]
      omega
    · simp [hx, ih]
      omega

section

variable {left : Option (Nat × Nat)} {traded : Nat} (h : Edited b o left traded b') (hwf : b.WF)
    (ho : b.orderLookup[o.orderId]? = some o) (w : Order → Nat → Nat)
include h hwf ho w

theorem Edited.weighed_elsewhere {p : Int}
    (hsp : ¬ (o.side = s ∧ o.price = p)) : b'.weighed w s p = b.weighed w s p := by
  unfold weighed
  rw [h.elsewhere s p hsp]
  refine congrArg List.sum (map_congr_left fun x hx => ?_)
  have hne : o.orderId ≠ x.orderId := by
    intro heq
    have := hwf.eq_of_orderId (hwf.mem_queue ho) hx heq.symm
    subst this
    exact hsp (hwf.placed s p x hx)
  rw [visible, visible, h.displayed, if_neg hne]

theorem Edited.weighed_here : b'.weighed w o.side o.price + w o (b.visible o) =
      b.weighed w o.side o.price + left.elim 0 fun l => w (o.withQuantity l.1) l.2 := by
  have hown : (b.queue o.side o.price).filter (·.orderId = o.orderId) = [o] := by
    have hmem := hwf.mem_queue ho
    have hle : ((b.queue o.side o.price).filter (·.orderId = o.orderId)).length ≤ 1 := by
      have := nodup_iff_count_le_one.mp (hwf.distinct o.side o.price) o.orderId
      rw [count_eq_countP, countP_map, countP_eq_length_filter] at this
      exact this
    have hin : o ∈ (b.queue o.side o.price).filter (·.orderId = o.orderId) := by simp [hmem]
    obtain ⟨_, hx⟩ := length_eq_one_iff.mp (Nat.le_antisymm hle (length_pos_of_mem hin))
    rw [hx] at hin ⊢
    rw [mem_singleton.mp hin]
  have hrest :
      ((b'.others o).map fun x => w x (b'.visible x)).sum = ((b.others o).map fun x => w x (b.visible x)).sum := by
    rw [h.others]
    refine congrArg List.sum (map_congr_left fun x hx => ?_)
    have hne : x.orderId ≠ o.orderId := by simpa using (mem_filter.mp hx).2
    rw [visible, visible, h.displayed, if_neg (Ne.symm hne)]
  have hnew : (((left.map fun l => o.withQuantity l.1).toList).map fun x => w x (b'.visible x)).sum =
      left.elim 0 fun l => w (o.withQuantity l.1) l.2 := by
    rcases hl : left with _ | l
    · rfl
    have hvis : b'.visible (o.withQuantity l.1) = l.2 := by
      rw [visible, h.displayed, Order.withQuantity_orderId, if_pos rfl, hl, Option.map_some, Option.getD_some]
    simp [hvis]
  have h1 := @sum_map_split o.orderId (b'.queue o.side o.price) fun x => w x (b'.visible x)
  have h2 := @sum_map_split o.orderId (b.queue o.side o.price) fun x => w x (b.visible x)
  rw [h.here, hnew] at h1
  rw [hown, map_singleton, sum_singleton] at h2
  simp only [OrderBook.others] at hrest
  unfold weighed
  omega

end

theorem Added.weighed {filled : Nat} (h : Added b o filled b') (hwf : b.WF)
    (hnew : b.orderLookup[o.orderId]? = none) (w : Order → Nat → Nat) (s : OrderSide) (p : Int) :
    b'.weighed w s p = b.weighed w s p + if o.side = s ∧ o.price = p then w o (firstSlice o) else 0 := by
  have hold : ((b.queue s p).map fun x => w x (b'.visible x)) = (b.queue s p).map fun x => w x (b.visible x) := by
    refine map_congr_left fun x hx => ?_
    have hne : o.orderId ≠ x.orderId := by
      intro heq
      have := hwf.lookup_of_mem hx
      rw [← heq, hnew] at this
      cases this
    rw [visible, visible, h.displayed, if_neg hne]
  have hvis : b'.visible o = firstSlice o := by
    rw [visible, h.displayed, if_pos rfl, Option.getD_some]
  unfold OrderBook.weighed
  rw [h.queue]
  split
  · rw [map_append, sum_append, hold, map_singleton, sum_singleton, hvis]
  · rw [hold, Nat.add_zero]

theorem addOrder_spec (hwf : b.WF) (hnew : b.orderLookup[o.orderId]? = none) : Added b o 0 (b.addOrder o).1 := by
  have hlevels : (b.levels o.side).insert o.price (b.queue o.side o.price ++ [o]) =
      (b.levels o.side).put o.price (b.queue o.side o.price ++ [o]) := Levels.insert_eq_put _ _ (by simp)
  have hqueue : ∀ s p, (b.addOrder o).1.queue s p =
      (b.withQueue o.side o.price (b.queue o.side o.price ++ [o])).queue s p := by
    intro s p
    unfold withQueue
    rw [← hlevels]
    rfl
  constructor
  · intro s p
    rw [hqueue, queue_withQueue]
    split
    · rename_i h
      obtain ⟨rfl, rfl⟩ := h
      rfl
    · rfl
  · intro s p
    have := (hwf.noEmpty.withQueue o.side o.price (b.queue o.side o.price ++ [o])) s p
    unfold withQueue at this
    rw [← hlevels] at this
    exact this
  · intro id
    simp [addOrder]
  · intro id
    simp [addOrder]
  · intro id
    have hzero := hwf.unfilled hnew
    simp only [addOrder, setLevels_cumFilled]
    split
    · rename_i h
      rw [← h, hzero]
    · rfl
  · simp [addOrder]
  · intro h
    simpa [addOrder] using h.insert o.orderId o _

theorem addOrder_stp (b : OrderBook) (o : Order) : (b.addOrder o).1.stp = b.stp := by
  simp only [addOrder, setLevels_stp]

theorem cancelOrder_none (h : b.orderLookup[id]? = none) : b.cancelOrder id = none := by
  simp [cancelOrder, h]

theorem cancelOrder_spec (hwf : b.WF) (ho : b.orderLookup[id]? = some o) :
    ∃ b', b.cancelOrder id = some (b', b.generateIncrementalUpdate .cancelOrder o.price (b.visible o) o.side) ∧
      Edited b o none 0 b' ∧ b'.stp = b.stp := by
  have hid := hwf.orderId_eq ho
  subst hid
  have hmem := hwf.mem_queue ho
  obtain ⟨l, hl⟩ : ∃ l, (b.levels o.side)[o.price]? = some l := by
    rw [← Maps.mem_iff_getElem?, ← hwf.noEmpty.queue_ne_nil]
    exact ne_nil_of_mem hmem
  have hlq : b.queue o.side o.price = l := by simp [queue, Levels.queue, hl]
  have hlevels : ∀ s, ({ b with
      orderLookup := b.orderLookup.erase o.orderId
      displayed := b.displayed.erase o.orderId
      cumFilled := b.cumFilled.erase o.orderId
      arrival := b.arrival.erase o.orderId } : OrderBook).levels s = b.levels s := fun s => by cases s <;> rfl
  refine ⟨({ b with
      orderLookup := b.orderLookup.erase o.orderId
      displayed := b.displayed.erase o.orderId
      cumFilled := b.cumFilled.erase o.orderId
      arrival := b.arrival.erase o.orderId } : OrderBook).withQueue o.side o.price (b.others o), ?_, ?_,
      withQueue_stp ..⟩
  · simp only [cancelOrder, ho, hlevels, hl, withQueue, others, hlq]
    simp [generateIncrementalUpdate, visible]
  constructor
  · constructor
    · intro id
      simp
    · intro id
      simp
    · intro id
      simp only [withQueue_cumFilled, Maps.getElem?_erase]
      split <;> simp
    · simp
    · intro h
      simpa using h.erase o.orderId
  · intro s p hsp
    rw [queue_withQueue, if_neg hsp]
    simp [queue, hlevels]
  · simp [others, queue_withQueue]
  · rw [queue_withQueue, if_pos ⟨rfl, rfl⟩]
    simp [others]
  refine NoEmpty.withQueue ?_ _ _ _
  intro s p
  rw [hlevels]
  exact hwf.noEmpty s p

/-- The queue `l` is the level of `o` with `o` changed to `new`, or without it. -/
def Requeued (b : OrderBook) (o : Order) (new : Option Order) (l : List Order) : Prop :=
  l.filter (·.orderId ≠ o.orderId) = b.others o ∧ l.filter (·.orderId = o.orderId) = new.toList

variable {left : Option (Nat × Nat)} {traded : Nat}

theorem TableEdit.edited (h : TableEdit b o left traded b') {l}
    (hqueue : ∀ s p, b'.queue s p = if o.side = s ∧ o.price = p then l else b.queue s p) (hempty : b'.NoEmpty)
    (hl : b.Requeued o (left.map fun l => o.withQuantity l.1) l) : Edited b o left traded b' where
  toTableEdit := h
  elsewhere s p hsp := by rw [hqueue, if_neg hsp]
  others := by
    rw [OrderBook.others, hqueue, if_pos ⟨rfl, rfl⟩]
    exact hl.1
  here := by
    rw [hqueue, if_pos ⟨rfl, rfl⟩]
    exact hl.2
  noEmpty := hempty

theorem TableEdit.of_fields {b₁ b₁'} (h : TableEdit b o left traded b')
    (hlookup : b₁.orderLookup = b.orderLookup) (hdisplayed : b₁.displayed = b.displayed)
    (hcum : b₁.cumFilled = b.cumFilled) (hsymbol : b₁.symbol = b.symbol) (harrival : b₁.arrival = b.arrival)
    (hlookup' : b₁'.orderLookup = b'.orderLookup) (hdisplayed' : b₁'.displayed = b'.displayed)
    (hcum' : b₁'.cumFilled = b'.cumFilled) (hsymbol' : b₁'.symbol = b'.symbol) (harrival' : b₁'.arrival = b'.arrival) :
    TableEdit b₁ o left traded b₁' where
  lookup id := by rw [hlookup', hlookup, h.lookup]
  displayed id := by rw [hdisplayed', hdisplayed, h.displayed]
  cumFilled id := by rw [hcum', hcum, h.cumFilled]
  symbol := by rw [hsymbol', hsymbol, h.symbol]
  kept := by
    rw [hlookup', harrival', hcum', hlookup, harrival, hcum]
    exact h.kept

theorem WF.head (hwf : b.WF) {p : Int} {rest} (h : b.queue s p = o :: rest) :
    o.side = s ∧ o.price = p ∧ b.orderLookup[o.orderId]? = some o ∧ ∀ x ∈ rest, x.orderId ≠ o.orderId := by
  have hmem : o ∈ b.queue s p := by rw [h]; exact mem_cons_self
  obtain ⟨hs, hp⟩ := hwf.placed s p o hmem
  refine ⟨hs, hp, hwf.lookup_of_mem hmem, fun x hx hid => ?_⟩
  have hnodup := hwf.distinct s p
  rw [h, map_cons, nodup_cons] at hnodup
  exact hnodup.1 (mem_map.mpr ⟨x, hx, hid⟩)

section requeue

variable {rest : List Order} (hq : b.queue o.side o.price = o :: rest) (hne : ∀ x ∈ rest, x.orderId ≠ o.orderId)
include hq hne

private theorem others_of_head : b.others o = rest := by
  rw [others, hq, filter_cons_of_neg (by simp), filter_eq_self]
  simpa using hne

theorem requeued_none : b.Requeued o none rest := by
  constructor
  · rw [others_of_head hq hne, filter_eq_self]
    simpa using hne
  · rw [Option.toList_none, filter_eq_nil_iff]
    simpa using hne

theorem requeued_front (n : Nat) : b.Requeued o (some (o.withQuantity n)) (o.withQuantity n :: rest) := by
  obtain ⟨h1, h2⟩ := requeued_none hq hne
  constructor
  · rw [filter_cons_of_neg (by simp)]
    exact h1
  · rw [filter_cons_of_pos (by simp), h2]
    rfl

theorem requeued_back (n : Nat) : b.Requeued o (some (o.withQuantity n)) (rest ++ [o.withQuantity n]) := by
  obtain ⟨h1, h2⟩ := requeued_none hq hne
  constructor
  · rw [filter_append, h1, filter_cons_of_neg (by simp), filter_nil, append_nil]
  · rw [filter_append, h2, filter_cons_of_pos (by simp)]
    rfl

end requeue

/-- The slice shown of an iceberg after `v` of the old slice is left: the next one when the old one is used up. -/
def nextSlice (o : Order) (n v : Nat) : Nat := if v = 0 then min n o.displayQuantity else v

/-- What a fill leaves of an order: `n` of its quantity, of which `v` of the old slice is shown. -/
def afterFill (o : Order) (n v : Nat) : Option (Nat × Nat) := if n = 0 then none else some (n, nextSlice o n v)

/-- What self-trade prevention leaves of an order that showed `v`. -/
def afterCut (n v : Nat) : Option (Nat × Nat) := if n = 0 then none else some (n, min v n)

theorem afterFill_fits (hwf : b.WF) (ho : b.orderLookup[o.orderId]? = some o) {q : Nat} (hq : q ≤ b.visible o) :
    Edited.Fits o (afterFill o (o.quantity - q) (b.visible o - q)) := by
  obtain ⟨-, _, _, hfull⟩ := hwf.visible_eq ho
  intro n d h
  unfold afterFill at h
  split at h
  · cases h
  cases h
  unfold nextSlice
  refine ⟨?_, ?_, ?_⟩
  · split
    · have : o.displayQuantity ≠ 0 := fun hz => by have := hfull hz; omega
      omega
    · omega
  · split <;> omega
  intro hz
  have := hfull hz
  split <;> omega

theorem afterCut_fits (hwf : b.WF) (ho : b.orderLookup[o.orderId]? = some o) {n : Nat} (hn : n ≤ o.quantity) :
    Edited.Fits o (afterCut n (b.visible o)) := by
  obtain ⟨-, _, _, hfull⟩ := hwf.visible_eq ho
  intro m d h
  unfold afterCut at h
  split at h
  · cases h
  cases h
  refine ⟨by omega, by omega, fun hz => ?_⟩
  have := hfull hz
  omega

theorem syncVisibleFill_spec (ho : b.orderLookup[o.orderId]? = some o) (n t v : Nat) :
    TableEdit b o (if n = 0 then none else some (n, v)) t (b.syncVisibleFill (o.withQuantity n) t v) := by
  by_cases hn : n = 0
  · subst hn
    constructor
    · intro id
      simp [syncVisibleFill, syncFill]
    · intro id
      simp [syncVisibleFill, syncFill]
    · intro id
      simp only [syncVisibleFill, syncFill, Order.withQuantity_quantity, if_pos, Order.withQuantity_orderId,
        Maps.getElem?_erase]
      split <;> rfl
    · simp [syncVisibleFill, syncFill]
    · intro h
      simpa [syncVisibleFill, syncFill] using h.erase o.orderId
  · constructor
    · intro id
      simp [syncVisibleFill, syncFill, hn, ho, Order.withQuantity]
    · intro id
      simp [syncVisibleFill, syncFill, hn, ho]
    · intro id
      simp only [syncVisibleFill, syncFill, Order.withQuantity_quantity, if_neg hn, Order.withQuantity_orderId, ho,
        Maps.getElem?_insert]
      split
      · rename_i hid
        subst hid
        rfl
      · rfl
    · simp [syncVisibleFill, syncFill, hn, ho]
    · intro h
      have hid : b.orderLookup[o.orderId]? ≠ none := by simp [ho]
      have hfilled := (h.fill hid (Checked.wrapU32_lt (b.cumFilled[o.orderId]?.getD 0 + t))).touch hid
        { o with quantity := n }
      simpa [syncVisibleFill, syncFill, hn, ho] using hfilled

theorem syncVisibleFill_levels (b : OrderBook) (o : Order) (t v : Nat) (s : OrderSide) :
    (b.syncVisibleFill o t v).levels s = b.levels s := by
  unfold syncVisibleFill syncFill
  cases s
  · split
    · rfl
    · split <;> rfl
  · split
    · rfl
    · split <;> rfl

theorem syncVisibleFill_stp (b : OrderBook) (o : Order) (t v : Nat) : (b.syncVisibleFill o t v).stp = b.stp := by
  unfold syncVisibleFill syncFill
  split
  · rfl
  · split <;> rfl

/-- Whether `replenish` shows a new slice. -/
def refreshes (b : OrderBook) (o : Order) : Bool :=
  o.quantity ≠ 0 && o.displayQuantity ≠ 0 && b.visible o = 0

section

variable (b o)

theorem replenish_eq : b.replenish o = if b.refreshes o then ({ b with
            displayed := b.displayed.insert o.orderId (min o.quantity o.displayQuantity)
            nextArrival := b.nextArrival + 1
            arrival := b.arrival.insert o.orderId (b.nextArrival + 1) },
          some (b.generateIncrementalUpdate .newOrder o.price (min o.quantity o.displayQuantity) o.side))
      else (b, none) := by
  unfold replenish refreshes
  by_cases h : o.quantity = 0 ∨ o.displayQuantity = 0 ∨ 0 < b.visible o
  · rw [if_pos h, if_neg]
    simp only [Bool.and_eq_true, decide_eq_true_eq]
    omega
  · rw [if_neg h, if_pos]
    simp only [Bool.and_eq_true, decide_eq_true_eq]
    omega

theorem replenish_levels (s : OrderSide) : (b.replenish o).1.levels s = b.levels s := by
  rw [replenish_eq]
  split
  · cases s <;> rfl
  · rfl

theorem replenish_orderLookup : (b.replenish o).1.orderLookup = b.orderLookup := by
  rw [replenish_eq]
  split <;> rfl

theorem replenish_cumFilled : (b.replenish o).1.cumFilled = b.cumFilled := by
  rw [replenish_eq]
  split <;> rfl

theorem replenish_symbol : (b.replenish o).1.symbol = b.symbol := by
  rw [replenish_eq]
  split <;> rfl

theorem replenish_kept (ho : o.quantity ≠ 0 → b.orderLookup[o.orderId]? ≠ none)
    (h : Kept b.orderLookup b.arrival b.cumFilled) :
    Kept (b.replenish o).1.orderLookup (b.replenish o).1.arrival (b.replenish o).1.cumFilled := by
  rw [replenish_eq]
  split
  · rename_i hrefresh
    simp only [refreshes, Bool.and_eq_true, decide_eq_true_eq] at hrefresh
    exact h.renumber (ho hrefresh.1.1) _
  · exact h

theorem replenish_displayed (id : String) : (b.replenish o).1.displayed[id]? =
      if b.refreshes o ∧ o.orderId = id then some (min o.quantity o.displayQuantity) else b.displayed[id]? := by
  rw [replenish_eq]
  by_cases h : b.refreshes o
  · rw [if_pos h, Maps.getElem?_insert]
    simp [h]
  · rw [if_neg h, if_neg (by simp [h])]

end

/-- Showing the next slice after a fill completes the tables of a filled order. -/
theorem TableEdit.replenish {n v : Nat} (h : TableEdit b o (if n = 0 then none else some (n, v)) traded b') :
    TableEdit b o (afterFill o n v) traded (b'.replenish (o.withQuantity n)).1 where
  lookup id := by
    rw [replenish_orderLookup, h.lookup, afterFill]
    split
    · split <;> rfl
    · rfl
  displayed id := by
    have hvis : n ≠ 0 → b'.visible (o.withQuantity n) = v := by
      intro hn
      rw [visible, h.displayed, Order.withQuantity_orderId, if_pos rfl, if_neg hn]
      rfl
    rw [replenish_displayed, h.displayed, afterFill]
    by_cases hn : n = 0
    · simp [refreshes, hn]
    simp only [refreshes, Order.withQuantity_quantity, Order.withQuantity_displayQuantity,
      Order.withQuantity_orderId, hvis hn, if_neg hn, Option.map_some, nextSlice]
    by_cases hid : o.orderId = id
    · simp only [hid, and_true, if_true]
      by_cases hv : v = 0
      · by_cases hd : o.displayQuantity = 0 <;> simp [hn, hv, hd]
      · simp [hv]
    · simp [hid]
  cumFilled id := by
    rw [replenish_cumFilled, h.cumFilled, afterFill]
    split
    · split <;> rfl
    · rfl
  symbol := by rw [replenish_symbol, h.symbol]
  kept hb := by
    refine replenish_kept b' _ (fun hn => ?_) (h.kept hb)
    rw [h.lookup, Order.withQuantity_orderId, if_pos rfl, if_neg (show n ≠ 0 from hn)]
    exact Option.some_ne_none _

theorem requeue_eq (b : OrderBook) (o : Order) (back : Bool) :
    b.requeue o back =
      if o.quantity = 0 then b
      else b.withQueue o.side o.price
        (if back then b.queue o.side o.price ++ [o] else o :: b.queue o.side o.price) := by
  unfold requeue withQueue
  split
  · rfl
  · rw [← Levels.insert_eq_put _ _ (by split <;> simp)]
    rfl

/-- Whether `p` is at least as good a price as `q` for an order of this side. -/
def better : OrderSide → Int → Int → Prop
  | .buy, p, q => q ≤ p
  | .sell, p, q => p ≤ q

theorem bestPrice_eq_some (h : b.NoEmpty) {p : Int} :
    b.bestPrice s = some p ↔ b.queue s p ≠ [] ∧ ∀ q, b.queue s q ≠ [] → better s p q := by
  simp only [h.queue_ne_nil]
  cases s with
  | buy =>
    simp only [bestPrice, ← Std.ExtTreeMap.maxKey?_eq_getLast?_keys,
      Std.ExtTreeMap.maxKey?_eq_some_iff_mem_and_forall, levels, better, Std.isLE_compare]
  | sell =>
    simp only [bestPrice, ← Std.ExtTreeMap.minKey?_eq_head?_keys,
      Std.ExtTreeMap.minKey?_eq_some_iff_mem_and_forall, levels, better, Std.isLE_compare]

theorem bestPrice_eq_none (h : b.NoEmpty) : b.bestPrice s = none ↔ ∀ p, b.queue s p = [] := by
  have hkeys : b.bestPrice s = none ↔ (b.levels s).keys = [] := by
    cases s
    · exact getLast?_eq_none_iff
    · exact head?_eq_none_iff
  rw [hkeys, eq_nil_iff_forall_not_mem]
  refine forall_congr' fun p => ?_
  rw [Std.ExtTreeMap.mem_keys, ← h.queue_ne_nil]
  exact not_not

theorem popBest_eq (h : b.NoEmpty) {p : Int} (hp : b.bestPrice s = some p) :
    ∃ o rest, b.queue s p = o :: rest ∧ b.popBest s = some (o, b.withQueue s p rest) := by
  rcases hq : b.queue s p with _ | ⟨o, rest⟩
  · exact absurd hq ((bestPrice_eq_some h).mp hp).1
  refine ⟨o, rest, rfl, ?_⟩
  simp only [popBest, hp, hq]
  rfl

/-- The market data of a cut: the slice that is no longer shown. -/
def cutUpdate (b : OrderBook) (o : Order) (price : Int) (left : Nat) : List MarketDataIncrementalUpdate :=
  if min (b.visible o) left < b.visible o ∧ left < o.quantity then
    [b.generateIncrementalUpdate .cancelOrder price (b.visible o - min (b.visible o) left) o.side]
  else []

def cutEvent (o : Order) (left : Nat) (opposing : String) (mode : StpMode) (beforeFill : Nat) : List StpEvent :=
  if left < o.quantity then
    [{ opposingOrder := opposing
       orderId := o.orderId
       action := if left = 0 then .canceled else .restated (o.quantity - left)
       mode := mode
       beforeFill := beforeFill }]
  else []

theorem stpCut_spec (ho : b.orderLookup[o.orderId]? = some o) (hdisp : b.displayed[o.orderId]? = some (b.visible o))
    (hpos : 0 < b.visible o) (hle : b.visible o ≤ o.quantity)
    (hfilled : ∀ id : String, b.cumFilled[id]?.getD 0 < 2 ^ 32)
    {n : Nat} (hn : n ≤ o.quantity) (price : Int) (opposing : String) (mode : StpMode) (beforeFill : Nat) :
    (b.stpCut o price n opposing mode beforeFill).2 = o.withQuantity n ∧
    TableEdit b o (afterCut n (b.visible o)) 0 (b.stpCut o price n opposing mode beforeFill).1 ∧
    (∀ s, (b.stpCut o price n opposing mode beforeFill).1.levels s = b.levels s) ∧
    (b.stpCut o price n opposing mode beforeFill).1.stp =
      { events := b.stp.events ++ cutEvent o n opposing mode beforeFill
        updates := b.stp.updates ++ b.cutUpdate o price n } := by
  by_cases hcut : o.quantity - n = 0
  · -- nothing is cut: the tables are as before
    have hq : n = o.quantity := by omega
    have heq : b.stpCut o price n opposing mode beforeFill = (b, o) := by
      unfold stpCut
      simp only [hcut, if_true]
    rw [heq, cutEvent, cutUpdate, if_neg (by omega), if_neg (by omega), afterCut,
      if_neg (by omega), Nat.min_eq_left (by omega), hq]
    refine ⟨rfl, ⟨fun id => ?_, fun id => ?_, fun id => ?_, rfl, fun h => h⟩, fun _ => rfl, by simp⟩
    · split
      · rename_i hid
        rw [← hid, ho]
        rfl
      · rfl
    · split
      · rename_i hid
        rw [← hid, hdisp]
        rfl
      · rfl
    · split
      · exact (Checked.wrapU32_of_lt (hfilled id)).symm
      · rfl
  · have hlt : n < o.quantity := by omega
    -- the book after the market data of the cut, if there is any
    obtain ⟨u, hu⟩ : ∃ u, u = if min (b.visible o) n < b.visible o then b.pushStpUpdate
        (b.generateIncrementalUpdate .cancelOrder price (b.visible o - min (b.visible o) n) o.side) else b := ⟨_, rfl⟩
    have hlevels : ∀ s, u.levels s = b.levels s := fun s => by rw [hu]; split <;> cases s <;> rfl
    have hlookup : u.orderLookup = b.orderLookup := by rw [hu]; split <;> rfl
    have hdisplayed : u.displayed = b.displayed := by rw [hu]; split <;> rfl
    have hcum : u.cumFilled = b.cumFilled := by rw [hu]; split <;> rfl
    have hsymbol : u.symbol = b.symbol := by rw [hu]; split <;> rfl
    have harrival : u.arrival = b.arrival := by rw [hu]; split <;> rfl
    have hstp : u.stp = { events := b.stp.events, updates := b.stp.updates ++ b.cutUpdate o price n } := by
      rw [hu, cutUpdate]
      by_cases hvis : min (b.visible o) n < b.visible o
      · rw [if_pos hvis, if_pos ⟨hvis, hlt⟩]
        rfl
      · rw [if_neg hvis, if_neg (fun h => hvis h.1), append_nil]
    have heq : b.stpCut o price n opposing mode beforeFill =
        ((u.syncVisibleFill (o.withQuantity n) 0 (min (b.visible o) n)).pushStpEvent
          { opposingOrder := opposing
            orderId := o.orderId
            action := if n = 0 then .canceled else .restated (o.quantity - n)
            mode := mode
            beforeFill := beforeFill }, o.withQuantity n) := by
      rw [hu]
      unfold stpCut
      simp only [hcut, if_false]
      rfl
    have htab := syncVisibleFill_spec (hlookup ▸ ho : u.orderLookup[o.orderId]? = some o) n 0 (min (b.visible o) n)
    rw [heq, cutEvent, if_pos hlt]
    refine ⟨rfl, ?_, fun s => ?_, ?_⟩
    · exact htab.of_fields hlookup.symm hdisplayed.symm hcum.symm hsymbol.symm harrival.symm rfl rfl rfl rfl rfl
    · rw [← hlevels, ← syncVisibleFill_levels u (o.withQuantity n) 0 (min (b.visible o) n)]
      cases s <;> rfl
    unfold pushStpEvent
    simp only
    rw [syncVisibleFill_stp, hstp]

private theorem replaceF_split {pre post x} {f : Order → Option Order}
    (hpre : ∀ y ∈ pre, f y = none) (ho : f o = some x) : (pre ++ o :: post).replaceF f = pre ++ x :: post := by
  induction pre with
  | nil => simp [ho]
  | cons y _ ih =>
    simp only [cons_append, List.replaceF, hpre y mem_cons_self]
    rw [ih fun z hz => hpre z (mem_cons_of_mem _ hz)]

/-- What an auction fill leaves of an order: all of it is shown. -/
def afterAuction (n : Nat) : Option (Nat × Nat) := if n = 0 then none else some (n, n)

theorem afterAuction_fits (o : Order) (n : Nat) : Edited.Fits o (afterAuction n) := by
  intro m d h
  unfold afterAuction at h
  split at h
  · cases h
  · cases h
    exact ⟨by omega, le_rfl, fun _ => rfl⟩

theorem applyAuctionFill_spec (hwf : b.WF) (ho : b.orderLookup[id]? = some o) {q : Nat}
    (hq : q ≤ o.quantity) :
    ∃ b', b.applyAuctionFill id q = .ok (b', b.generateIncrementalUpdate .modifyOrder o.price q o.side) ∧
      Edited b o (afterAuction (o.quantity - q)) q b' ∧ b'.stp = b.stp := by
  have hid := hwf.orderId_eq ho
  subst hid
  obtain ⟨l, hl⟩ : ∃ l, (b.levels o.side)[o.price]? = some l := by
    rw [← Maps.mem_iff_getElem?, ← hwf.noEmpty.queue_ne_nil]
    exact ne_nil_of_mem (hwf.mem_queue ho)
  have hlq : b.queue o.side o.price = l := by simp [queue, Levels.queue, hl]
  obtain ⟨pre, post, hsplit⟩ := append_of_mem (hlq ▸ hwf.mem_queue ho)
  have hnodup := hwf.distinct o.side o.price
  rw [hlq, hsplit, map_append, map_cons, nodup_append, nodup_cons] at hnodup
  have hpre : ∀ y ∈ pre, y.orderId ≠ o.orderId := fun y hy heq =>
    hnodup.2.2 _ (mem_map_of_mem hy) _ mem_cons_self heq
  have hpost : ∀ y ∈ post, y.orderId ≠ o.orderId := fun y hy heq =>
    hnodup.2.1.1 (mem_map.mpr ⟨y, hy, heq⟩)
  have hposall : ∀ y ∈ l, 0 < y.quantity := fun y hy => by
    rw [← hlq] at hy
    exact hwf.positive _ _ (hwf.lookup_of_mem hy)
  have hfind : l.find? (·.orderId = o.orderId) = some o := by
    rw [hsplit, find?_append, find?_eq_none.mpr (by simpa using hpre), find?_cons_of_pos (by simp)]
    rfl
  have hrepl :
      (l.replaceF fun y => if y.orderId = o.orderId then some { y with quantity := o.quantity - q } else none) =
      pre ++ o.withQuantity (o.quantity - q) :: post := by
    rw [hsplit]
    exact replaceF_split (fun y hy => if_neg (hpre y hy)) (if_pos rfl)
  have hothers : b.others o = pre ++ post := by
    rw [others, hlq, hsplit, filter_append, filter_cons_of_neg (by simp),
      filter_eq_self.mpr (by simpa using hpre), filter_eq_self.mpr (by simpa using hpost)]
  have hreq : b.Requeued o ((afterAuction (o.quantity - q)).map fun l => o.withQuantity l.1)
      ((pre ++ o.withQuantity (o.quantity - q) :: post).filter (0 < ·.quantity)) := by
    have hpre0 : pre.filter (0 < ·.quantity) = pre :=
      filter_eq_self.mpr fun y hy => by simpa using hposall y (by simp [hsplit, hy])
    have hpost0 : post.filter (0 < ·.quantity) = post :=
      filter_eq_self.mpr fun y hy => by simpa using hposall y (by simp [hsplit, hy])
    rw [filter_append, filter_cons, hpre0, hpost0, Requeued, hothers, afterAuction]
    have hne1 : (pre ++ post).filter (·.orderId ≠ o.orderId) = pre ++ post := by
      rw [← hothers, others, filter_filter]
      simp
    have hne2 : (pre ++ post).filter (·.orderId = o.orderId) = [] := by
      rw [filter_eq_nil_iff]
      intro y hy
      rcases mem_append.mp hy with hy | hy
      · simpa using hpre y hy
      · simpa using hpost y hy
    by_cases hn : o.quantity - q = 0
    · rw [if_neg (by simp [hn]), if_pos hn]
      exact ⟨hne1, hne2⟩
    have hn' : 0 < o.quantity - q := by omega
    rw [filter_append] at hne1 hne2
    obtain ⟨hpre2, hpost2⟩ := append_eq_nil_iff.mp hne2
    simp only [Order.withQuantity_quantity, hn', decide_true, if_true, if_neg hn, Option.map_some, Option.toList_some]
    constructor
    · rw [filter_append, filter_cons_of_neg (by simp)]
      exact hne1
    · rw [filter_append, filter_cons_of_pos (by simp), hpre2, hpost2]
      rfl
  -- the tables are those of a visible fill that shows everything
  obtain ⟨new, hnew⟩ : ∃ new, new = (pre ++ o.withQuantity (o.quantity - q) :: post).filter (0 < ·.quantity) := ⟨_, rfl⟩
  rw [← hnew] at hreq
  have htab := syncVisibleFill_spec ho (o.quantity - q) q (o.quantity - q)
  have hlevels := syncVisibleFill_levels b (o.withQuantity (o.quantity - q)) q (o.quantity - q)
  refine ⟨(b.syncVisibleFill (o.withQuantity (o.quantity - q)) q (o.quantity - q)).withQueue o.side o.price new, ?_, ?_,
    (withQueue_stp ..).trans (syncVisibleFill_stp ..)⟩
  rotate_left
  · refine TableEdit.edited ?_ (fun s p => ?_) (NoEmpty.withQueue ?_ _ _ _) hreq
    · exact htab.of_fields rfl rfl rfl rfl rfl (withQueue_orderLookup ..) (withQueue_displayed ..)
        (withQueue_cumFilled ..) (withQueue_symbol ..) (withQueue_arrival ..)
    · rw [queue_withQueue]
      simp only [queue, hlevels]
    intro s p
    rw [hlevels]
    exact hwf.noEmpty s p
  simp only [applyAuctionFill, ho, hl, hfind, Checked.subU32_of_le hq, Checked.get_some, Checked.ok_bind, hrepl, ← hnew]
  simp only [withQueue, syncVisibleFill, syncFill, Order.withQuantity_quantity, Order.withQuantity_orderId, ho,
    setLevels_orderLookup]
  cases hside : o.side <;> by_cases hn : o.quantity - q = 0 <;>
    simp [hn, setLevels, levels, generateIncrementalUpdate]

private theorem swapOrder_spec (hwf : b.WF) {origId orig new} {filled : Nat} (hfilled : filled < 2 ^ 32)
    (ho : b.orderLookup[origId]? = some orig) (hnew : new.orderId ≠ origId → b.orderLookup[new.orderId]? = none) :
    ∃ b₁ b', b.swapOrder origId new filled =
        (b', new,
          { symbol := b.symbol
            changes :=
              [{ updateType := .cancelOrder, price := orig.price, quantity := b.visible orig, side := orig.side },
               { updateType := .newOrder, price := new.price, quantity := firstSlice new, side := new.side }] }) ∧
      Edited b orig none 0 b₁ ∧ Added b₁ new filled b' ∧ b₁.stp = b.stp ∧ b'.stp = b.stp := by
  obtain ⟨b₁, hcancel, hedit, hstp⟩ := cancelOrder_spec hwf ho
  have hid := hwf.orderId_eq ho
  have hwf₁ : b₁.WF := hedit.wf hwf (hid ▸ ho) (fun _ _ h => by cases h)
  have hfresh : b₁.orderLookup[new.orderId]? = none := by
    rw [hedit.lookup, hid]
    split
    · rfl
    · rename_i hne
      exact hnew (Ne.symm hne)
  have hadd := addOrder_spec hwf₁ hfresh
  have hsymbol : (b₁.addOrder new).1.symbol = b.symbol := by rw [hadd.symbol, hedit.symbol]
  refine ⟨b₁, if 0 < filled then { (b₁.addOrder new).1 with
    cumFilled := (b₁.addOrder new).1.cumFilled.insert new.orderId filled } else (b₁.addOrder new).1, ?_,
    hedit, ?_, hstp, ?_⟩
  · rw [swapOrder, hcancel]
    simp only [Option.map_some, Option.getD_some]
    congr 2
    rw [MarketDataIncrementalUpdate.mk.injEq]
    exact ⟨hsymbol, rfl⟩
  · split
    · constructor
      · exact hadd.queue
      · exact hadd.noEmpty
      · exact hadd.lookup
      · exact hadd.displayed
      · intro id
        rw [Maps.getElem?_insert]
        split
        · rfl
        · rename_i hne
          rw [hadd.cumFilled, if_neg hne]
      · exact hadd.symbol
      · intro h
        refine (hadd.kept h).fill ?_ hfilled
        rw [hadd.lookup, if_pos rfl]
        exact Option.some_ne_none _
    · have hzero : filled = 0 := by omega
      rw [hzero]
      exact hadd
  · rw [← hstp, ← addOrder_stp b₁ new]
    split <;> rfl

/-- An accepted replace takes the original off the book and adds the replacement, which keeps what was filled. -/
theorem replaceOrder_ok (hwf : b.WF) {origId newId owner changes r inc}
    (h : b.replaceOrder origId newId changes owner = .ok (b', r, inc)) : ∃ orig b₁ leaves filled,
      b.orderLookup[origId]? = some orig ∧ orig.traderId = owner ∧
      (newId ≠ origId → b.orderLookup[newId]? = none) ∧
      filled = b.cumFilled[origId]?.getD 0 ∧
      leaves = (if changes.newTotalQty = 0 then orig.quantity else changes.newTotalQty - filled) ∧
      (changes.newTotalQty ≠ 0 → filled < changes.newTotalQty) ∧
      r = replacement orig newId changes leaves ∧
      Edited b orig none 0 b₁ ∧ Added b₁ r filled b' ∧ b₁.stp = b.stp ∧ b'.stp = b.stp ∧ 0 < r.quantity ∧
      inc.changes =
        [{ updateType := .cancelOrder, price := orig.price, quantity := b.visible orig, side := orig.side },
         { updateType := .newOrder, price := r.price, quantity := firstSlice r, side := r.side }] := by
  unfold replaceOrder checkOwner at h
  rcases ho : b.orderLookup[origId]? with _ | orig
  · simp [ho, bind, Except.bind] at h
  by_cases hown : orig.traderId ≠ owner
  · simp [ho, hown, bind, Except.bind] at h
  by_cases hdup : newId ≠ origId ∧ b.orderLookup.contains newId
  · simp [ho, not_not.mp hown, hdup.1, hdup.2, bind, Except.bind] at h
  simp only [ho, if_neg hown, if_neg hdup, Checked.ok_bind] at h
  obtain ⟨leaves, hleaves, hswap⟩ := Checked.bind_eq_ok.mp h
  have hfresh : newId ≠ origId → b.orderLookup[newId]? = none := by
    intro hne
    exact Maps.contains_eq_false_iff.mp (Bool.eq_false_of_not_eq_true fun hc => hdup ⟨hne, hc⟩)
  obtain ⟨b₁, _, heq, hedit, hadd, hstp, hstp'⟩ :=
    @swapOrder_spec b hwf origId orig (replacement orig newId changes leaves) (b.cumFilled[origId]?.getD 0)
      (hwf.kept.filled_lt origId) ho hfresh
  rw [heq] at hswap
  cases hswap
  have hpos := hwf.positive _ _ ho
  unfold replaceLeaves at hleaves
  refine ⟨orig, b₁, leaves, _, rfl, not_not.mp hown, hfresh, rfl, ?_, ?_, rfl, hedit, hadd, hstp, hstp', ?_, rfl⟩
  · split at hleaves
    · cases hleaves
      rw [if_pos ‹_›]
    split at hleaves
    · cases hleaves
      rw [if_neg ‹_›]
    · cases hleaves
  · intro hne
    rw [if_neg hne] at hleaves
    split at hleaves
    · assumption
    · cases hleaves
  · show 0 < leaves
    split at hleaves
    · cases hleaves
      exact hpos
    split at hleaves
    · cases hleaves
      omega
    · cases hleaves

end OrderBook

end Fxp

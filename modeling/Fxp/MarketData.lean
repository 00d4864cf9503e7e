import Fxp.Lib.Prefixes
import Fxp.Safety

/-!
# Market data

The market data adds up to what the book displays.  While a call is in progress the changes that are not sent yet are
counted as well.
-/

namespace Fxp

open OrderBook Checked List

variable {R : Type}

/-- What a change adds to the level it names: a new order adds, a modified or a canceled one takes away. -/
def MdChange.delta (c : MdChange) : Int := if c.updateType = 0 then c.quantity else -c.quantity

def deltasAt (price : Int) (changes : List MdChange) : List Int := (changes.filter (·.price = price)).map MdChange.delta

def netAt (price : Int) (changes : List MdChange) : Int := (deltasAt price changes).sum

/-- The changes at one price of one side that wait to be sent. -/
def waitingAt (side : OrderSide) (price : Int) (l : List MarketOrderUpdate) : List Int :=
  deltasAt price ((l.filter (·.side = side)).map MarketOrderUpdate.toWire)

section lists

variable {s : OrderSide} {p : Int}

@[simp] theorem deltasAt_append (l l' : List MdChange) : deltasAt p (l ++ l') = deltasAt p l ++ deltasAt p l' := by
  simp [deltasAt]

@[simp] theorem netAt_append (l l' : List MdChange) : netAt p (l ++ l') = netAt p l + netAt p l' := by
  simp [netAt]

@[simp] theorem waitingAt_nil : waitingAt s p [] = [] := rfl

@[simp] theorem waitingAt_append (l l' : List MarketOrderUpdate) :
    waitingAt s p (l ++ l') = waitingAt s p l ++ waitingAt s p l' := by
  simp [waitingAt]

/-- What one change adds, with its quantity as it is. -/
def MarketOrderUpdate.signed (u : MarketOrderUpdate) : Int :=
  match u.updateType with
  | .newOrder => u.quantity
  | .modifyOrder | .cancelOrder => -u.quantity

theorem waitingAt_cons {u} (hu : u.quantity < 2 ^ 31) (l : List MarketOrderUpdate) :
    waitingAt s p (u :: l) = (if u.side = s ∧ u.price = p then [u.signed] else []) ++ waitingAt s p l := by
  have hdelta : u.toWire.delta = u.signed := by
    obtain ⟨ty, _, _, _⟩ := u
    cases ty <;> simp [MarketOrderUpdate.toWire, MarketUpdateType.toWire, MdChange.delta, MarketOrderUpdate.signed,
      asI32_of_lt hu]
  have hprice : u.toWire.price = u.price := rfl
  by_cases hs : u.side = s
  · by_cases hp : u.price = p
    · simp [waitingAt, deltasAt, hs, hprice, hp, hdelta]
    · simp [waitingAt, deltasAt, hs, hprice, hp]
  · simp [waitingAt, hs]

@[simp] theorem mdChanges_append (out out' : List (Output R)) : mdChanges s (out ++ out') = mdChanges s out ++
    mdChanges s out' := by
  simp [mdChanges]

theorem mdChanges_silent {out : List (Output R)} (h : ∀ o ∈ out, mdOf o = []) : mdChanges s out = [] := by
  have hflat : out.flatMap mdOf = [] := flatMap_eq_nil_iff.mpr h
  rw [mdChanges, hflat]
  rfl

end lists

/-- What is shown of an order after an edit. -/
def Edit.shows (o : Order) (v : Nat) (k : Edit) : Nat := (k.left o v).elim 0 Prod.snd

section edit

variable {o : Order} {v : Nat} {k : Edit} (hwithin : k.Within o v) (hle : v ≤ o.quantity) (hsmall : o.quantity < 2 ^ 31)
  (hplain : o.displayQuantity = 0 → v = o.quantity) (hauction : ∀ q, k = .auction q → o.displayQuantity = 0)

include hwithin hle hplain hauction

theorem Edit.signed_changes :
    ((k.restedChanges o v ++ k.stpChanges o v ++ k.fillChanges o v).map MarketOrderUpdate.signed).sum =
      (k.shows o v : Int) - v := by
  cases k with
  | fill q =>
    simp only [Edit.Within] at hwithin
    simp only [Edit.restedChanges, Edit.stpChanges, Edit.fillChanges, Edit.shows, Edit.left, afterFill, refreshChange,
      nil_append, map_cons, sum_cons, fillChange, MarketOrderUpdate.signed, nextSlice, refreshed]
    by_cases hn : o.quantity - q = 0
    · simp [hn]
      omega
    by_cases hv : v - q = 0
    · have hd : o.displayQuantity ≠ 0 := fun h => by have := hplain h; omega
      simp [hn, hv, hd, MarketOrderUpdate.signed]
      omega
    · simp [hn, hv]
      omega
  | auction q =>
    simp only [Edit.Within] at hwithin
    have hv := hplain (hauction q rfl)
    simp only [Edit.restedChanges, Edit.stpChanges, Edit.fillChanges, Edit.shows, Edit.left, afterAuction, nil_append,
      map_cons, sum_cons, fillChange, MarketOrderUpdate.signed]
    by_cases hn : o.quantity - q = 0
    · simp [hn]
      omega
    · simp [hn]
      omega
  | cut n =>
    simp only [Edit.Within] at hwithin
    simp only [Edit.restedChanges, Edit.stpChanges, Edit.fillChanges, Edit.shows, Edit.left, afterCut, nil_append,
      append_nil]
    by_cases hn : n = 0
    · by_cases hv : 0 < v
      · simp [hn, hv, MarketOrderUpdate.signed]
      · simp [hn, hv]
        omega
    · by_cases hv : min v n < v
      · simp [hn, hv, MarketOrderUpdate.signed]
      · simp [hn, hv]
        omega
  | drop =>
    simp [Edit.restedChanges, Edit.stpChanges, Edit.fillChanges, Edit.shows, Edit.left, MarketOrderUpdate.signed]

end edit

/-- The changes of an edit are about the level of the order, and of quantities that the wire can carry. -/
theorem Edit.mem_changes {o : Order} {v : Nat} {k : Edit} (hwithin : k.Within o v) (hpos : 0 < v) (hle : v ≤ o.quantity)
    {u : MarketOrderUpdate} (hu : u ∈ k.restedChanges o v ++ k.stpChanges o v ++ k.fillChanges o v) :
    u.side = o.side ∧ u.price = o.price ∧ 0 < u.quantity ∧ u.quantity ≤ o.quantity := by
  cases k with
  | fill =>
    simp only [Edit.Within] at hwithin
    simp only [Edit.restedChanges, Edit.stpChanges, Edit.fillChanges, nil_append, mem_cons, refreshChange] at hu
    rcases hu with rfl | hu
    · exact ⟨rfl, rfl, hwithin.1, le_trans hwithin.2 hle⟩
    split at hu
    · rename_i hr
      simp only [refreshed, Bool.and_eq_true, decide_eq_true_eq] at hr
      cases mem_singleton.mp hu
      refine ⟨rfl, rfl, ?_, ?_⟩ <;> simp only <;> omega
    · cases hu
  | auction =>
    simp only [Edit.Within] at hwithin
    simp only [Edit.restedChanges, Edit.stpChanges, Edit.fillChanges, nil_append] at hu
    cases mem_singleton.mp hu
    exact ⟨rfl, rfl, hwithin⟩
  | cut =>
    simp only [Edit.restedChanges, Edit.stpChanges, Edit.fillChanges, nil_append, append_nil] at hu
    split at hu
    · cases mem_singleton.mp hu
      refine ⟨rfl, rfl, ?_, ?_⟩ <;> simp only <;> omega
    · cases hu
  | drop =>
    cases mem_singleton.mp hu
    exact ⟨rfl, rfl, hpos, hle⟩

theorem waitingAt_level {l side} {price : Int}
    (h : ∀ u ∈ l, u.side = side ∧ u.price = price ∧ u.quantity < 2 ^ 31) (s : OrderSide) (p : Int) :
    waitingAt s p l = if side = s ∧ price = p then l.map MarketOrderUpdate.signed else [] := by
  induction l with
  | nil => split <;> rfl
  | cons u _ ih =>
    obtain ⟨hside, hprice, hsmall⟩ := h u mem_cons_self
    rw [waitingAt_cons hsmall, ih fun u hu => h u (mem_cons_of_mem _ hu), hside, hprice]
    split <;> rfl

theorem firstSlice_le (o : Order) : firstSlice o ≤ o.quantity := by
  unfold firstSlice
  split
  · exact le_rfl
  · exact Nat.min_le_right ..

/-- The changes sent since the start, with those that wait, lead from `k₀` to what the book displays. -/
def Progress.Balanced (k₀ : OrderSide → Int → Int) (base : List (Output R)) (w : Progress R) : Prop :=
  ∀ s p, k₀ s p + netAt p (mdChanges s (base ++ w.call.out)) + (waitingAt s p (w.rested ++ w.stp ++ w.fills)).sum =
    w.call.engine.book.shownAt s p

section balanced

variable {x : Context R} {w w' : Progress R} {k₀ : OrderSide → Int → Int} {base : List (Output R)}

theorem Inv.resting (hinv : Inv x w) {id : String} {o : Order} (ho : w.call.engine.book.orderLookup[id]? = some o) :
    w.call.engine.book.orderLookup[o.orderId]? = some o ∧ o.quantity < 2 ^ 31 ∧ 0 < w.call.engine.book.visible o ∧
      w.call.engine.book.visible o ≤ o.quantity ∧
      (o.displayQuantity = 0 → w.call.engine.book.visible o = o.quantity) := by
  have hid := hinv.book.orderId_eq ho
  obtain ⟨-, hpos, hle, hplain⟩ := hinv.book.visible_eq ho
  rw [← hid] at ho
  obtain ⟨_, -, hagrees, -⟩ := hinv.on_book ho
  exact ⟨ho, hagrees.small, hpos, hle, hplain⟩

/-- What an edit of a resting order adds to the changes that wait. -/
theorem Edit.waitingAt_changes (hinv : Inv x w) (hw : w.Discreet) {id : String} {o : Order} {k : Edit}
    (ho : w.call.engine.book.orderLookup[id]? = some o) (hwithin : k.Within o (w.call.engine.book.visible o))
    (hauction : ∀ q, k = .auction q → w.auction = true) (s : OrderSide) (p : Int) :
    (waitingAt s p (k.restedChanges o (w.call.engine.book.visible o) ++ k.stpChanges o (w.call.engine.book.visible o) ++
        k.fillChanges o (w.call.engine.book.visible o))).sum =
      if o.side = s ∧ o.price = p then (k.shows o (w.call.engine.book.visible o) : Int) - w.call.engine.book.visible o
      else 0 := by
  obtain ⟨-, hsmall, hpos, hle, hplain⟩ := hinv.resting ho
  have hplain' : ∀ q, k = .auction q → o.displayQuantity = 0 := fun q hq =>
    hw.plain (.inr (hauction q hq)) id .book o (by simp [Progress.slot, ho])
  rw [waitingAt_level fun _ hu => by
    obtain ⟨hside, hprice, -, hq⟩ := Edit.mem_changes hwithin hpos hle hu
    exact ⟨hside, hprice, lt_of_le_of_lt hq hsmall⟩]
  split
  · exact Edit.signed_changes hwithin hle hplain hplain'
  · rfl

theorem Shift.balanced {id : String} {o : Order} {k : Edit} {pl : Place} (hinv : Inv x w) (hdiscreet : w.Discreet)
    (h : Shift x w id o k pl w') (hw : w.Balanced k₀ base) : w'.Balanced k₀ base := by
  cases h with
  | @book b ho hedit _ hwithin hauction =>
    intro s p
    have hbefore := hw s p
    have hchanges := Edit.waitingAt_changes hinv hdiscreet ho hwithin hauction s p
    obtain ⟨ho', -⟩ := hinv.resting ho
    simp only [waitingAt_append, sum_append] at hbefore hchanges
    simp only [waitingAt_append, sum_append, Call.onEngine_engine, Call.onEngine_out]
    by_cases hlevel : o.side = s ∧ o.price = p
    · obtain ⟨rfl, rfl⟩ := hlevel
      have hshown : b.shownAt o.side o.price + w.call.engine.book.visible o = w.call.engine.book.shownAt o.side
          o.price + k.shows o (w.call.engine.book.visible o) := hedit.weighed_here hinv.book ho' fun _ d => d
      rw [if_pos ⟨rfl, rfl⟩] at hchanges
      omega
    · have hshown : b.shownAt s p = w.call.engine.book.shownAt s p := hedit.weighed_elsewhere hinv.book ho' _ hlevel
      rw [if_neg hlevel] at hchanges
      omega
  | _ => exact hw

theorem Progress.Balanced.silent (hw : w.Balanced k₀ base) {l : List (Output R)} (hout : w'.call.out = w.call.out ++ l)
    (hsilent : ∀ o ∈ l, mdOf o = []) (hwaiting : w'.rested ++ w'.stp ++ w'.fills = w.rested ++ w.stp ++ w.fills)
    (hshown : ∀ s p, w'.call.engine.book.shownAt s p = w.call.engine.book.shownAt s p) : w'.Balanced k₀ base := by
  intro s p
  have hbefore := hw s p
  rw [hout, hwaiting, hshown, ← append_assoc, mdChanges_append, mdChanges_silent hsilent, append_nil]
  exact hbefore

theorem SameBook.weighed {b b'} (h : SameBook b b') (f : Order → Nat → Nat) (s : OrderSide) (p : Int) :
    b'.weighed f s p = b.weighed f s p := by
  unfold OrderBook.weighed
  rw [h.queue]
  refine congrArg List.sum (map_congr_left fun _ _ => ?_)
  rw [visible, visible, h.displayed]

theorem Step.balanced (hinv : Inv x w) (hdiscreet : w.Discreet) (h : Step x w w') (hw : w.Balanced k₀ base) :
    w'.Balanced k₀ base := by
  cases h with
  | edit _ hshift =>
    have hw₁ := hshift.balanced hinv hdiscreet hw
    exact hw₁.silent rfl (fun o ho => by rw [mem_singleton.mp ho]; rfl) rfl fun _ _ => rfl
  | @swap _ _ _ _ _ _ _ _ _ _ hshift =>
    have hw₁ := hshift.balanced hinv hdiscreet hw
    refine hw₁.silent (l := [_, _]) (append_assoc ..) (fun o ho => ?_) rfl fun _ _ => rfl
    simp only [mem_cons, not_mem_nil, or_false] at ho
    rcases ho with rfl | rfl <;> rfl
  | @enter _ _ _ _ _ ack =>
    cases ack
    · exact hw.silent (l := []) (append_nil _).symm (fun o ho => absurd ho not_mem_nil) rfl fun _ _ => rfl
    · exact hw.silent rfl (fun o ho => by rw [mem_singleton.mp ho]; rfl) rfl fun _ _ => rfl
  | @rest _ _ t _ b ht _ _ _ _ hadd =>
    obtain ⟨_, -, hagrees, -, hslot⟩ := hinv.in_transit (t := t) (by simp [ht])
    have hfresh := Progress.slot_book.mp (hslot .book (by decide))
    intro s p
    have hbefore := hw s p
    have hshown := hadd.weighed hinv.book hfresh (fun _ d => d) s p
    have hslice : firstSlice t.order < 2 ^ 31 := lt_of_le_of_lt (firstSlice_le t.order) hagrees.small
    simp only [waitingAt_append, sum_append, Call.onEngine_out] at hbefore ⊢
    rw [waitingAt_cons hslice, waitingAt_nil, append_nil]
    show _ = ((b.shownAt s p : Nat) : Int)
    rw [shownAt, hshown]
    simp only [shownAt] at hbefore
    split
    · simp only [MarketOrderUpdate.signed, sum_singleton]
      omega
    · rw [sum_nil]
      omega
  | note hquiet =>
    obtain ⟨_, hout, hl⟩ := hquiet.out
    exact hw.silent hout (fun o ho => (hl o ho).2.1) rfl fun s p => hquiet.book.weighed _ s p
  | @flush _ _ hout =>
    intro s p
    have hbefore := hw s p
    rw [Call.send_out, ← append_assoc, mdChanges_append, hout s, netAt_append]
    simp only [waitingAt_nil, append_nil, sum_nil, Int.add_zero, ← Int.add_assoc]
    exact hbefore
  | setPhase =>
    unfold Call.setPhase
    split
    · exact hw
    · exact hw.silent rfl (fun o ho => by rw [mem_singleton.mp ho]; rfl) rfl fun _ _ => rfl
  | print | reject => exact hw.silent rfl (fun o ho => by rw [mem_singleton.mp ho]; rfl) rfl fun _ _ => rfl
  | _ => exact hw

end balanced

/-- Any request but the operator's call. -/
def noOperatorCall (_ _ : Engine R) : Op R → Prop
  | .beginOpeningCall _ => False
  | _ => True

instance (e e' : Engine R) : (op : Op R) → Decidable (noOperatorCall e e' op)
  | .beginOpeningCall _ => inferInstanceAs (Decidable (False))
  | .newOrder .. | .cancel _ | .cancelReplace _ | .massCancel _ | .subscribe _ | .tick => instDecidableTrue

theorem callsWithoutIcebergs_of_none {e e' : Engine R} {op : Op R} (h : noOperatorCall e e' op) :
    callsWithoutIcebergs e e' op := by
  cases op with
  | beginOpeningCall => cases h
  | _ => trivial

/-- Without an operator's call, the market data of a run adds up to what the book displays, at every price of both
sides. -/
theorem market_data_sums_to_book {cfg : Settings} {e : Engine R} {out : List (Output R)}
    (h : Run noOperatorCall (Engine.new cfg) e out)
    (side : OrderSide) (price : Int) :
    netAt price (mdChanges side out) = ((e.book.queue side price).map e.book.visible).sum := by
  obtain ⟨-, -, hbalanced⟩ := h.invariant (J := fun base w => w.Discreet ∧ w.Balanced (fun _ _ => 0) base) (.new ..)
    ⟨.start .., fun s p => by simp [idle, Engine.new, shownAt, weighed, mdChanges, netAt, deltasAt]⟩
    (fun _ hok hinv hstep hw =>
      ⟨hstep.discreet (hok.mono fun _ _ _ => callsWithoutIcebergs_of_none) hinv hw.1, hstep.balanced hinv hw.1 hw.2⟩)
    (fun hmarket hout hw =>
      ⟨hw.1.sameMarket hmarket, hw.2.silent (l := []) (by simp [idle, hout]) (fun _ ho => absurd ho not_mem_nil) rfl
      fun s p => by simp only [idle]; rw [hmarket]⟩)
    (fun hw => ⟨hw.1.restart, fun s p => by simpa [idle] using hw.2 s p⟩)
  have hsum := hbalanced side price
  simp only [idle, append_nil, waitingAt_nil, sum_nil, Int.add_zero, Int.zero_add] at hsum
  exact hsum

/-- An iceberg is filled through two slices. -/
theorem market_data_sums_to_book_iceberg : ∃ e out, Run noOperatorCall (Engine.sample none) e out ∧
    ((e.book.queue .sell 100).map e.book.visible).sum = 2 ∧
    netAt 100 (mdChanges .sell out) = ((e.book.queue .sell 100).map e.book.visible).sum := by
  obtain ⟨e, out, hrun, hshown⟩ := Run.of_computed noOperatorCall (Engine.sample none)
    [(.at 1, .newOrder { NewOrderSingle.sample "A" "a" .sell 100 10 with displayQuantity := 2 } 0),
      orderAt 2 "B" "b" .buy 100 4]
    (fun e _ => ((e.book.queue .sell 100).map e.book.visible).sum = 2) (by decide +kernel)
  exact ⟨e, out, hrun, hshown, market_data_sums_to_book hrun .sell 100⟩

/-- Past an overflow two orders of the id `G` rest on the book, and it has one displayed quantity for both. -/
theorem market_data_off : ∃ e out, Calls noOperatorCall (Engine.sample (some .sample)) e out ∧
    netAt 100 (mdChanges .sell out) = 2147483643 ∧ ((e.book.queue .sell 100).map e.book.visible).sum = 4 :=
  Calls.of_computed noOperatorCall (Engine.sample (some .sample))
    (overflowCalls ++ [orderAt 173050 "H" "c" .buy 100 1, orderAt 173052 "G" "d" .sell 101 7,
      orderAt 173053 "J" "c" .buy 100 3]) _ (by decide +kernel)

end Fxp

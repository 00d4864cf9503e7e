import Fxp.Gateway.Ownership
import Fxp.Rejects
import Fxp.Status

/-!
# The scope of self-trade prevention

The gateway puts the trader in front of a client's STP group, and the length of the trader's name in front of that, so
that a name with the separator in it cannot look like another one.
-/

namespace Fxp

open List

namespace Gateway

/-- The key that the core gives an order of a trader with this group of the client. -/
def scopeKey (trader group : String) : StpKey :=
  if group = "" then .owner trader else .group (stpGroupID trader group)

/-- What stands before the first separator is determined, and so is the rest. -/
theorem append_separator_inj {α : Type} {a : α} {l l' rest rest' : List α} (hl : a ∉ l) (hl' : a ∉ l')
    (h : l ++ a :: rest = l' ++ a :: rest') : l = l' ∧ rest = rest' := by
  induction l generalizing l' with
  | nil =>
    cases l' with
    | nil => exact ⟨rfl, (List.cons.inj h).2⟩
    | cons => exact absurd ((List.cons.inj h).1 ▸ mem_cons_self) hl'
  | cons _ _ ih =>
    rcases l' with _ | ⟨_, l'⟩
    · exact absurd ((List.cons.inj h).1 ▸ mem_cons_self) hl
    obtain ⟨hb, htail⟩ := List.cons.inj h
    obtain ⟨hll, hrest⟩ := ih (fun h => hl (mem_cons_of_mem _ h)) (fun h => hl' (mem_cons_of_mem _ h)) htail
    exact ⟨by rw [hb, hll], hrest⟩

/-- Of two beginnings of a text with the same size neither goes on after the other. -/
theorem append_inj_of_utf8ByteSize {s t u v : String} (h : s ++ u = t ++ v) (hsize : s.utf8ByteSize = t.utf8ByteSize) :
    s = t ∧ u = v := by
  -- the longer one would have at least one more byte
  have hlonger : ∀ {s t : String} {more : List Char}, t.toList = s.toList ++ more → s.utf8ByteSize = t.utf8ByteSize →
      s = t := by
    intro s t more ht hsize
    have htext : t = s ++ String.ofList more := String.toList_inj.mp (by simp [ht])
    rw [htext, String.utf8ByteSize_append] at hsize
    have hempty : String.ofList more = "" := String.utf8ByteSize_eq_zero_iff.mp (by omega)
    rw [htext, hempty, String.append_empty]
  have hlist : s.toList ++ u.toList = t.toList ++ v.toList := by
    rw [← String.toList_append, ← String.toList_append, h]
  have hst : s = t := by
    rcases append_eq_append_iff.mp hlist with ⟨more, ht, -⟩ | ⟨more, hs, -⟩
    · exact hlonger ht hsize
    · exact (hlonger hs hsize.symm).symm
  subst hst
  exact ⟨rfl, String.toList_inj.mp (append_cancel_left hlist)⟩

private theorem colon_not_mem_toString (n : Nat) : ':' ∉ (toString n).toList := by
  intro h
  rw [Nat.toString_eq_ofList_toDigits, String.toList_ofList] at h
  exact absurd (Nat.isDigit_of_mem_toDigits (by decide) (by decide) h) (by decide)

private theorem stpGroupID_toList {T g} (hg : g ≠ "") : (stpGroupID T g).toList =
    (toString T.utf8ByteSize).toList ++ ':' :: (T ++ (ownerSep ++ g)).toList := by
  rw [stpGroupID, if_neg hg]
  simp only [String.toList_append, append_assoc]
  rfl

private theorem stpGroupID_ne_empty {T g} (hg : g ≠ "") : stpGroupID T g ≠ "" := by
  intro h
  have hlist := stpGroupID_toList (T := T) hg
  rw [h] at hlist
  simp at hlist

/-- The group that the core sees determines the trader and the client's group. -/
theorem stpGroupID_inj {T U g h : String} (hg : g ≠ "") (hh : h ≠ "") (heq : stpGroupID T g = stpGroupID U h) :
    T = U ∧ g = h := by
  have hlist : (toString T.utf8ByteSize).toList ++ ':' :: (T ++ (ownerSep ++ g)).toList =
      (toString U.utf8ByteSize).toList ++ ':' :: (U ++ (ownerSep ++ h)).toList := by
    rw [← stpGroupID_toList hg, ← stpGroupID_toList hh, heq]
  obtain ⟨hlength, hrest⟩ := append_separator_inj (colon_not_mem_toString _) (colon_not_mem_toString _) hlist
  have hsize : T.utf8ByteSize = U.utf8ByteSize := by
    have hvalue := congrArg (fun digits => Nat.ofDigitChars 10 digits 0) hlength
    simpa [Nat.toString_eq_ofList_toDigits] using hvalue
  obtain ⟨hTU, hgroups⟩ := append_inj_of_utf8ByteSize (String.toList_inj.mp hrest) hsize
  exact ⟨hTU, (append_inj_of_utf8ByteSize hgroups rfl).2⟩

private theorem scopeKey_inj {T U g h} : scopeKey T g = scopeKey U h ↔ T = U ∧ g = h := by
  constructor
  · intro heq
    unfold scopeKey at heq
    by_cases hg : g = ""
    · by_cases hh : h = ""
      · rw [if_pos hg, if_pos hh] at heq
        exact ⟨StpKey.owner.inj heq, hg.trans hh.symm⟩
      · rw [if_pos hg, if_neg hh] at heq
        cases heq
    · by_cases hh : h = ""
      · rw [if_neg hg, if_pos hh] at heq
        cases heq
      · rw [if_neg hg, if_neg hh] at heq
        exact stpGroupID_inj hg hh (StpKey.group.inj heq)
  · rintro ⟨rfl, rfl⟩
    rfl

variable {R : Type}

private theorem orderOf_bound {T : String} {m order : NewOrderSingle}
    (hbound : bindOwner T (.newOrder m) = .newOrder order)
    {e : Engine R} {ts : Time} {o : Order} (ho : Call.orderOf e order ts = .ok o) :
    o.traderId = T ∧ o.stpKey = scopeKey T m.stpGroup := by
  cases hbound
  unfold Call.orderOf at ho
  split at ho
  · cases ho
    refine ⟨rfl, ?_⟩
    simp only [Order.stpKey, scopeKey, String.isEmpty_iff]
    by_cases hg : m.stpGroup = ""
    · rw [if_pos hg, if_pos (by rw [stpGroupID, if_pos hg])]
    · rw [if_neg hg, if_neg (stpGroupID_ne_empty hg)]
  · cases ho

/-- The new orders of the requests come from the gateway. -/
def boundCall (_ _ : Engine R) (op : Op R) : Prop :=
  ∀ order owner, op = .newOrder order owner → ∃ T m, T ≠ "" ∧ bindOwner T (.newOrder m) = .newOrder order

end Gateway

/-- What self-trade prevention reads of an order, with the id of the order and its trader. -/
structure Party where
  orderId : String
  trader : String
  side : OrderSide
  stp : Stp

def Order.party (o : Order) : Party := { orderId := o.orderId, trader := o.traderId, side := o.side, stp := o.stp }

namespace Party

def key (p : Party) : StpKey := if p.stp.group.isEmpty then .owner p.trader else .group p.stp.group

/-- The orders are kept from trading with each other. -/
def Opposes (p q : Party) : Prop :=
  p.side ≠ q.side ∧ p.key = q.key ∧ (p.stp.mode ≠ .none ∨ q.stp.mode ≠ .none)

end Party

variable {R : Type}

/-- The order that a request brings to the market: a new one, or the replacement of a live one. -/
def Op.Enters (e : Engine R) (p : Party) : Op R → Prop
  | .newOrder order _ => ∃ ts o, Call.orderOf e order ts = .ok o ∧ p = o.party
  | .cancelReplace m => ∃ o ∈ e.containers m.orderId, p = { o.party with orderId := m.newOrderId }
  | .cancel _ | .massCancel _ | .subscribe _ | .beginOpeningCall _ | .tick => False

/-- The order is live in the engine, or the request brings it. -/
def Engine.Meets (e : Engine R) (request : Option (Op R)) (p : Party) : Prop :=
  (∃ o ∈ e.containers p.orderId, o.party = p) ∨ ∃ op, request = some op ∧ op.Enters e p

/-- The report says that self-trade prevention canceled or reduced the order. -/
def Report.StpAction (r : Report) : Prop := r.executionType ≠ .rejected ∧ StpReason r.rejectReason

/-- Self-trade prevention acted on orders with an opposing order in the call, and all of these have the same trader.
-/
def Engine.StpWithin (e : Engine R) (request : Option (Op R)) (out : List (Output R)) : Prop :=
  ∀ r ∈ reportsOf out, r.StpAction → ∃ p, e.Meets request p ∧ p.orderId = r.orderId ∧
    (∃ q, e.Meets request q ∧ p.Opposes q) ∧ ∀ q, e.Meets request q → p.Opposes q → q.trader = p.trader

private theorem mem_containers {c : Call R} {id : String} {pl : Place} {o : Order}
    (ho : o ∈ (idle false c).slot id pl) : o ∈ c.engine.containers id := by
  rw [Engine.containers_eq]
  refine mem_flatMap.mpr ⟨pl, ?_, ?_⟩
  · cases pl with
    | transit => simp [Progress.slot, idle] at ho
    | _ => simp
  · cases pl <;> exact ho

private theorem of_mem_containers {e : Engine R} {id : String} {o : Order} (ho : o ∈ e.containers id) :
    ∃ pl, o ∈ (idle false { engine := e }).slot id pl := by
  rw [Engine.containers_eq] at ho
  obtain ⟨pl, -, ho⟩ := mem_flatMap.mp ho
  exact ⟨pl, ho⟩

section call

variable {e : Engine R} {request : Option (Op R)} {w w' : Progress R}

/-- Every live order is one that the call met. -/
def Progress.Met (e : Engine R) (request : Option (Op R)) (w : Progress R) : Prop :=
  ∀ id pl, ∀ o ∈ w.slot id pl, e.Meets request o.party

theorem Step.met (hinv : Inv (e.context request) w) (h : Step (e.context request) w w') (hw : w.Met e request) :
    w'.Met e request := by
  intro id pl o ho
  cases h.origin hinv ho with
  | kept ho' heq =>
    have hold := hw _ _ _ ho'
    rw [heq]
    exact hold
  | entered hreq hof heq =>
    rw [heq]
    exact .inr ⟨_, hreq, _, _, hof, rfl⟩
  | @replaced m _ o' hreq ho' hid hscope =>
    have hparty : o.party = { o'.party with orderId := m.newOrderId } := by
      simp only [Order.party, hid, hscope.1, hscope.2.1, hscope.2.2]
    obtain ⟨-, _, -, hagrees, -⟩ := (hinv.tracked m.orderId).of_mem ho'
    rcases hw _ _ _ ho' with ⟨o₀, ho₀, heq⟩ | ⟨_, hop, henters⟩
    · have hid' : o'.party.orderId = m.orderId := hagrees.orderId
      exact .inr ⟨_, hreq, o₀, hid' ▸ ho₀, by rw [hparty, heq]⟩
    cases hop.symm.trans hreq
    obtain ⟨o₀, ho₀, heq⟩ := henters
    exact .inr ⟨_, hreq, o₀, ho₀, by rw [hparty, heq]⟩

theorem Engine.Sound.meets (hsound : e.Sound) {t : Traits} (ht : (e.context request).known t) :
    ∃ q, e.Meets request q ∧ q.side = t.side ∧ q.key = t.stpKey ∧ q.stp.mode = t.stpMode := by
  have hlive : ∀ {id : String} {pl : Place} {o : Order}, o ∈ (idle false { engine := e }).slot id pl →
      e.Meets request o.party := by
    intro id pl o ho
    obtain ⟨-, _, -, hagrees, -⟩ := (hsound.tracked id).of_mem ho
    have hid : o.party.orderId = id := hagrees.orderId
    exact .inl ⟨o, hid ▸ mem_containers ho, rfl⟩
  rcases ht with ⟨_, _, o, ho, rfl⟩ | ⟨op, hop, hbrings⟩
  · exact ⟨o.party, hlive ho, rfl, rfl, rfl⟩
  cases op with
  | newOrder =>
    obtain ⟨ts, o, ho, rfl⟩ := hbrings
    exact ⟨o.party, .inr ⟨_, hop, ts, o, ho, rfl⟩, rfl, rfl, rfl⟩
  | cancelReplace m =>
    obtain ⟨o, ho, rfl⟩ := hbrings
    have hslot : o ∈ (idle false { engine := e }).slot m.orderId .book := Progress.mem_book.mpr ho
    exact ⟨o.party, hlive hslot, rfl, rfl, rfl⟩
  | _ => cases hbrings

theorem Shift.opposed {x w₁ pl id o} {n : Nat}
    (h : Shift x w id o (.cut n) pl w₁) : ∃ t, x.known t ∧ Traits.Conflict o.traits t := by
  cases h with
  | book _ _ _ _ _ _ hcut | transit _ _ _ _ _ hcut => exact hcut n rfl
  | call _ _ hkind =>
    rcases hkind with h | ⟨_, h⟩ <;> cases h
  | stops _ _ hkind | held _ hkind => cases hkind

/-- What a step reports of self-trade prevention is about two orders that the call met. -/
theorem Step.stpReports (hsound : e.Sound) (hinv : Inv (e.context request) w) (h : Step (e.context request) w w')
    (hw : w.Met e request) : ∃ l, w'.call.out = w.call.out ++ l ∧ ∀ r ∈ reportsOf l, r.StpAction →
      ∃ p q, e.Meets request p ∧ e.Meets request q ∧ p.orderId = r.orderId ∧ p.Opposes q := by
  have hquiet : ∀ {l : List (Output R)}, w'.call.out = w.call.out ++ l → (∀ r ∈ reportsOf l, ¬ r.StpAction) →
      ∃ l, w'.call.out = w.call.out ++ l ∧ ∀ r ∈ reportsOf l, r.StpAction →
        ∃ p q, e.Meets request p ∧ e.Meets request q ∧ p.orderId = r.orderId ∧ p.Opposes q :=
    fun hl hno => ⟨_, hl, fun r hr hact => absurd hact (hno r hr)⟩
  have hplain : ∀ {r : Report}, r.rejectReason = "" → ¬ r.StpAction :=
    fun hr hact => not_stpReason_empty (hr ▸ hact.2)
  cases h.reported with
  | silent hout hl => exact hquiet hout fun r hr => absurd hr (hl ▸ not_mem_nil)
  | @edited _ _ id o _ st _ _ _ _ _ _ hshift _ _ _ hreason hout =>
    refine ⟨_, hout, fun r hr hact => ?_⟩
    rw [mem_singleton.mp hr] at hact ⊢
    obtain ⟨_, rfl⟩ := hreason hact.2
    obtain ⟨_, ht, hside, hkey, hmode⟩ := hshift.opposed
    obtain ⟨q, hq, hqs, hqk, hqm⟩ := hsound.meets ht
    obtain ⟨-, _, -, hagrees, -⟩ := (hinv.tracked id).of_mem hshift.mem_slot
    refine ⟨o.party, q, hw _ _ _ hshift.mem_slot, hq, hagrees.orderId, ?_, ?_, ?_⟩
    · rw [hqs]
      exact hside
    · rw [hqk]
      exact hkey
    · rw [hqm]
      exact hmode
  | @entered _ _ _ _ _ ack _ _ _ _ _ _ hout =>
    refine hquiet hout fun r hr => ?_
    cases ack with
    | false => cases hr
    | true =>
      rw [mem_singleton.mp hr]
      exact hplain rfl
  | swapped _ _ _ _ _ hout =>
    refine hquiet hout fun r hr => ?_
    rcases mem_cons.mp hr with rfl | hr
    · exact hplain rfl
    · rw [mem_singleton.mp hr]
      exact hplain rfl
  | rejected _ hev hout =>
    refine hquiet hout fun r hr hact => ?_
    rw [mem_singleton.mp hr] at hact
    exact hact.1 hev

theorem Path.stpReports (hsound : e.Sound) (hinv : Inv (e.context request) w) (h : Path (e.context request) w w')
    (hw : w.Met e request) : w'.Met e request ∧ ∃ l, w'.call.out = w.call.out ++ l ∧ ∀ r ∈ reportsOf l, r.StpAction →
      ∃ p q, e.Meets request p ∧ e.Meets request q ∧ p.orderId = r.orderId ∧ p.Opposes q := by
  induction h with
  | refl => exact ⟨hw, [], (append_nil _).symm, fun r hr => by cases hr⟩
  | tail hpath hlast ih =>
    obtain ⟨hmet, l, hl, hreports⟩ := ih
    obtain ⟨l', hl', hreports'⟩ := hlast.stpReports hsound (Path.inv hpath hinv) hmet
    refine ⟨hlast.met (Path.inv hpath hinv) hmet, l ++ l', by rw [hl', hl, append_assoc], fun r hr => ?_⟩
    rw [reportsOf_append] at hr
    exact (mem_append.mp hr).elim (hreports r) (hreports' r)

theorem Engine.Sound.met {c : Call R} (hsound : c.engine.Sound) : (idle false c).Met c.engine request := by
  intro id pl o ho
  obtain ⟨-, _, -, hagrees, -⟩ := ((hsound.inv none c.out).tracked id).of_mem ho
  have hid : o.party.orderId = id := hagrees.orderId
  exact .inl ⟨o, hid ▸ mem_containers ho, rfl⟩

end call

section runs

open Gateway

variable {cfg : Settings}

/-- The key of an order is one that the gateway makes for its trader. -/
def Party.Scoped (p : Party) : Prop := ∃ group, p.key = scopeKey p.trader group

/-- Every live order is in the scope of its trader. -/
def Progress.Scoped (w : Progress R) : Prop := ∀ id pl, ∀ o ∈ w.slot id pl, o.party.Scoped

theorem Gateway.boundCall.scoped {e e' e₁ : Engine R} {order : NewOrderSingle} {owner : R} {ts : Time} {o : Order}
    (h : boundCall e e' (.newOrder order owner)) (ho : Call.orderOf e₁ order ts = .ok o) : o.party.Scoped := by
  obtain ⟨T, m, -, hbound⟩ := h order owner rfl
  obtain ⟨htrader, hkey⟩ := orderOf_bound hbound ho
  refine ⟨m.stpGroup, ?_⟩
  rw [show o.party.trader = T from htrader]
  exact hkey

theorem Step.scoped {x : Context R} {w w' : Progress R} (hok : x.Allowed boundCall) (hinv : Inv x w) (h : Step x w w')
    (hw : w.Scoped) : w'.Scoped := by
  intro id pl o ho
  cases h.origin hinv ho with
  | kept ho' heq =>
    have hold := hw _ _ _ ho'
    rw [heq]
    exact hold
  | entered hreq hof heq =>
    obtain ⟨_, hbound⟩ := hok _ hreq
    have hnew := hbound.scoped hof
    rw [heq]
    exact hnew
  | @replaced _ _ o' _ ho' _ hscope =>
    obtain ⟨group, hkey⟩ := hw _ _ _ ho'
    have htrader : o.party.trader = o'.party.trader := hscope.1
    have hstp : o.party.stp = o'.party.stp := hscope.2.2
    refine ⟨group, ?_⟩
    rw [htrader, ← hkey, Party.key, Party.key, htrader, hstp]

/-- In the calls of a run with orders from the gateway, self-trade prevention stays within the orders of one trader.
-/
theorem Progress.Scoped.within {c c' : Call R} {request : Option (Op R)} {l : List (Output R)}
    (hsound : c.engine.Sound) (hscoped : (idle false c).Scoped)
    (hok : (c.engine.context request).Allowed boundCall) (h : Leads (c.engine.context request) c c')
    (hl : c'.out = c.out ++ l) : c.engine.StpWithin request l := by
  have hmeets : ∀ {p : Party}, c.engine.Meets request p → p.Scoped := by
    rintro _ (⟨o, ho, rfl⟩ | ⟨op, hop, henters⟩)
    · obtain ⟨pl, hslot⟩ := of_mem_containers ho
      exact hscoped _ pl o (by cases pl <;> exact hslot)
    cases op with
    | newOrder =>
      obtain ⟨_, _, ho, rfl⟩ := henters
      obtain ⟨_, hbound⟩ := hok _ hop
      exact hbound.scoped ho
    | cancelReplace =>
      obtain ⟨o, ho, rfl⟩ := henters
      obtain ⟨pl, hslot⟩ := of_mem_containers ho
      exact hscoped _ pl o (by cases pl <;> exact hslot)
    | _ => cases henters
  obtain ⟨-, l', hl', hreports⟩ := Path.stpReports hsound (hsound.inv request c.out) h hsound.met
  obtain rfl : l = l' := append_cancel_left (hl.symm.trans hl')
  intro r hr hact
  obtain ⟨p, q, hp, hq, hid, hopposes⟩ := hreports r hr hact
  refine ⟨p, hp, hid, ⟨q, hq, hopposes⟩, fun _ hq' hopposes' => ?_⟩
  -- equal keys are keys of one trader
  obtain ⟨_, hkey⟩ := hmeets hp
  obtain ⟨_, hkey'⟩ := hmeets hq'
  exact ((scopeKey_inj.mp (hkey ▸ hkey' ▸ hopposes'.2.1)).1).symm

theorem Run.scoped {e : Engine R} {out : List (Output R)}
    (h : Run boundCall (Engine.new cfg) e out) :
    e.Sound ∧ (idle false { engine := e } : Progress R).Scoped := by
  refine Run.invariant (J := fun _ w => w.Scoped) (.new ..) ?_ (fun _ hok hinv hstep hw => hstep.scoped hok hinv hw) ?_
    (fun hw => hw) h
  · intro id pl o ho
    cases pl <;> simp [Progress.slot, idle, Engine.new, OrderBook.new] at ho
  · intro _ c c' hmarket _ hw id pl o ho
    exact hw id pl o (by rwa [hmarket.slot false false] at ho)

def Gateway.bound (trader : String) (m : NewOrderSingle) : NewOrderSingle :=
  { m with sender := trader, orderId := namespacedOrderID trader m.orderId, stpGroup := stpGroupID trader m.stpGroup }

theorem Gateway.boundCall_of_sample {orders : List (String × NewOrderSingle)} (h : ∀ x ∈ orders, x.1 ≠ "")
    {e e' : Engine R} {op : Op R} (hop : sampleCall (orders.map fun x => bound x.1 x.2) e e' op) :
    boundCall e e' op := by
  rintro _ _ rfl
  obtain ⟨x, hx, rfl⟩ := mem_map.mp hop
  exact ⟨x.1, x.2, h x hx, rfl⟩

/-- An order with the group `g` that cancels itself when it meets an order of its group. -/
def Gateway.grouped (id : String) (side : OrderSide) (quantity : Int32) : NewOrderSingle :=
  { NewOrderSingle.sample id "" side 100 quantity with stpMode := 2, stpGroup := "g" }

/-- The orders of the calls below, with their traders. -/
def Gateway.boundOrders : List (String × NewOrderSingle) :=
  [("a", .sample "b::A" "" .sell 100 2147483647), ("b", .sample "B" "" .buy 100 2147483646),
    ("b", .sample "E" "" .buy 100 2147483646), ("c", .sample "H" "" .buy 100 1),
    ("c", .sample "I" "" .buy 100 2147483641),
    ("a::b", .sample "G" "" .sell 101 100), ("a", { NewOrderSingle.sample "K" "" .buy 100 50 with stpMode := 3 })]

/-- The `n`-th of these orders is entered at second `t`. -/
def Gateway.boundAt (t : Int) (n : Fin 7) : Clock × Op Nat :=
  (.at t, .newOrder (bound (boundOrders.get n).1 (boundOrders.get n).2) 0)

end runs

end Fxp

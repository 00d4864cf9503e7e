import Fxp.RequestChecks
import Fxp.SessionSteps

/-!
# Requests as paths

A request is rejected, or it is a path between two idle calls.  The lookups on the way find what they look for.
-/

namespace Fxp

open OrderBook Checked List

variable {R : Type} {x : Context R} {c : Call R}

/-- Since the tick of the call, nothing happened but that the request got its arrival number. -/
def Context.Begun (x : Context R) (c : Call R) : Prop :=
  c.engine = { x.start with nextArrival := x.start.nextArrival + 1 }

theorem Context.Begun.frame (h : x.Begun c) : c.engine.states = x.start.states ∧ c.engine.phase = x.start.phase ∧
    c.engine.book.orderLookup = x.start.book.orderLookup := by
  rw [h]
  exact ⟨rfl, rfl, rfl⟩

theorem Context.Begun.issued (h : x.Begun c) : c.engine.issued = x.start.issued := by rw [h]

theorem Context.Begun.arrival (h : x.Begun c) : c.engine.nextArrival = x.start.nextArrival + 1 := by rw [h]

/-- What may be entered is decided in the state that the tick has left. -/
theorem Context.Begun.entry (h : x.Begun c) (ty : OrderType) (tif : TimeInForce) :
    entryReason c.engine.phase c.engine.auctionsEnabled ty tif =
      entryReason x.start.phase x.start.auctionsEnabled ty tif := by
  rw [h]
  rfl

private theorem rejectRequest_leads {id} (hreq : x.request.bind Op.target = some id) (owner : R)
    (requestId reason : String) (ts : Time) : Leads x c (c.rejectRequest owner id requestId reason ts) :=
  .single (.reject hreq ⟨rfl, rfl⟩)

theorem StopBook.ownedBy_ok {stops : StopBook} {id owner : String} {o : Order} (h : stops.ownedBy id owner = .ok o) :
    o ∈ stops.parked.filter (·.orderId = id) ∧ o.traderId = owner := by
  unfold StopBook.ownedBy at h
  rcases hfind : stops.parked.find? (·.orderId = id) with _ | o'
  · simp [hfind] at h
  by_cases hown : o'.traderId = owner
  · simp only [hfind, hown, ne_eq, not_true_eq_false, if_false, Except.ok.injEq] at h
    subst h
    exact ⟨mem_filter.mpr ⟨mem_of_find?_eq_some hfind, by simpa using find?_some hfind⟩, hown⟩
  · simp [hfind, hown] at h

theorem Inv.withMarket {w} (hinv : Inv x w) :
    w.call = w.call.withMarket w.call.engine.book.calm w.call.engine.stopBook w.call.engine.lastTradePrice := by
  rw [OrderBook.calm_eq hinv.stp]
  rfl

theorem Path.execute {t order} (hinv : Inv x (moving c [t])) (ht : t.order = triggeredType order)
    (hfilled : t.filled = some 0) (triggered : List String)
    (hacked : (c.engine.book.processAggressive (triggeredType order)).2.restOnBook = true → t.acked = true)
    (ts : Time) :
    ∃ r c', c.engine.book.executeInto order { triggered := triggered } = .ok r ∧
      r.2.2 = (c.engine.book.processAggressive (triggeredType order)).2.restOnBook ∧
      Call.cascade ts r.2.1 { c with engine := { c.engine with book := r.1 } } = .ok c' ∧
      Path x (moving c [t]) (idle false c') := by
  have hstart : Shadow ts c c.engine.book c.engine.stopBook c.engine.lastTradePrice { triggered := triggered } [t]
      (moving c [t]) := ⟨hinv.withMarket, nofun, .refl _, .refl _, .refl _, .refl _, rfl, rfl⟩
  obtain ⟨r, _, _, hr, hrested, hpath, hs, hcrossed, hstp, hcancels⟩ :=
    hstart.executeInto hinv hinv.stp rfl ht hfilled hacked
  rw [append_nil] at hs
  obtain ⟨c', hc', hlast⟩ := Shadow.cascade (hpath.inv hinv) (hs.rebase rfl) hcancels hstp hcrossed
  exact ⟨r, c', hr, hrested, hc', hpath.trans hlast⟩

theorem Path.matchAll {crossed : Bool} (hinv : Inv x { call := c, crossed := crossed }) (ts : Time) :
    ∃ r c', c.engine.book.matchInto {} = .ok r ∧
      Call.cascade ts r.2 { c with engine := { c.engine with book := r.1 } } = .ok c' ∧
      Path x { call := c, crossed := crossed } (idle false c') := by
  have hstart : Shadow ts c c.engine.book c.engine.stopBook c.engine.lastTradePrice {} []
      { call := c, crossed := crossed } := ⟨hinv.withMarket, nofun, .refl _, .refl _, .refl _, .refl _, rfl, rfl⟩
  obtain ⟨r, _, hr, hpath, hs, hcrossed, hstp, hcancels⟩ := hstart.matchInto hinv
  obtain ⟨c', hc', hlast⟩ := Shadow.cascade (hpath.inv hinv) (hs.rebase rfl) hcancels hstp hcrossed
  exact ⟨r, c', hr, hc', hpath.trans hlast⟩

private theorem fireStop_safe (hinv : Inv x (idle false c)) {stop}
    (hstop : stop ∈ c.engine.stopBook.parked) (ts : Time) : Safe (c.fireStop stop ts) (Leads x c) := by
  have hmem : stop ∈ (idle false c).slot stop.orderId .stops := mem_filter.mpr ⟨hstop, decide_eq_true rfl⟩
  have hslot := ((hinv.tracked stop.orderId).of_mem hmem).1 .stops
  rw [if_pos rfl] at hslot
  obtain ⟨pre, post, hparked, hcancel⟩ := StopBook.cancelFor_spec hslot
  have hperm : ([stop] ++ (pre ++ post)).Perm c.engine.stopBook.parked := by
    rw [show c.engine.stopBook.parked = _ from hparked]
    exact (@perm_middle _ stop pre post).symm
  have htrigger : Step x (idle false c) (moving (c.onEngine fun e => { e with stopBook := { parked := pre ++ post } })
      [triggeredTransit stop]) := @Step.trigger R x (idle false c) [stop] (pre ++ post) hperm
  obtain ⟨r, _, hr, -, hcascade, hpath⟩ := Path.execute (htrigger.inv hinv) rfl rfl [stop.orderId] (fun _ => rfl) ts
  rw [Call.fireStop, show c.engine.stopBook.cancelFor stop.orderId stop.traderId = _ from hcancel]
  exact .of_eq (bind_eq_ok.mpr ⟨r, hr, hcascade⟩) (.head htrigger hpath)

section cancel

variable {m : CancelMsg R} (clock : Clock)

private theorem preflightCancel_safe (hinv : Inv x (idle false c)) (hreq : x.request = some (.cancel m)) {pl o}
    (hpl : pl ≠ .book) (ho : o ∈ (idle false c).slot m.orderId pl) : Safe (c.preflightCancel clock m) (Leads x c) := by
  obtain ⟨hslot, st, hst, -⟩ := (hinv.tracked m.orderId).of_mem ho
  have hbook := Progress.slot_book.mp ((hslot .book).trans (if_neg hpl))
  replace hst : c.engine.states[m.orderId]? = some st := hst
  simp only [Call.preflightCancel, hst, get_some, ok_bind]
  split
  · exact rejectRequest_leads (by rw [hreq]; rfl) ..
  obtain ⟨_, _, hremove, hstates, -, hmd, hpath⟩ := removeLive_spec hinv hst
  obtain rfl := hmd hbook
  simp only [hremove, ok_bind, hstates, hst, get_some]
  exact (hpath m.outputTx _ (clock .report) (.of_type (.inl rfl) rfl rfl rfl not_stpReason_empty)).1

/-- The cancel of an order on the book or of a parked stop takes it out as `removeLive` does. -/
theorem cancelLive_ok {e : Engine R} {sender : String} {md : Option MarketDataIncrementalUpdate}
    (hinv : Inv x (idle false c)) {id : String} (h : Call.cancelLive c.engine id sender = .ok (e, md)) :
    c.engine.removeLive id = .ok (e, md) ∧ ∃ st, c.engine.states[id]? = some st := by
  cases ho : c.engine.book.orderLookup[id]? with
  | some o =>
    obtain ⟨-, st, hst, -⟩ := (hinv.tracked id).of_mem (Progress.mem_book.mpr ho)
    obtain ⟨_, hb, -⟩ := cancelOrder_spec hinv.book ho
    replace hb : c.engine.book.cancelOrder id = _ := hb
    by_cases hown : o.traderId = sender
    · simp [Call.cancelLive, cancelOrderFor, checkOwner, ho, hown, hb] at h
      exact ⟨by rw [Engine.removeLive, hb, ← h.1, ← h.2], st, hst⟩
    · simp [Call.cancelLive, cancelOrderFor, checkOwner, ho, hown, bind, Except.bind] at h
  | none =>
    simp only [Call.cancelLive, cancelOrderFor, checkOwner, ho, bind, Except.bind] at h
    rcases hcancel : c.engine.stopBook.cancelFor id sender with _ | r
    · simp [hcancel] at h
    obtain ⟨_, o⟩ := r
    simp only [hcancel, Except.ok.injEq, Prod.mk.injEq] at h
    obtain ⟨_, howned, hr⟩ := bind_eq_ok.mp (show (_ >>= _) = _ from hcancel)
    cases hr
    obtain ⟨hmem, hsender⟩ := StopBook.ownedBy_ok howned
    obtain ⟨hslot, st, hst, hagrees, -⟩ := (hinv.tracked id).of_mem (show o ∈ (idle false c).slot id .stops from hmem)
    have hcall := Progress.slot_call.mp (hslot .call)
    have hheld := Progress.slot_held.mp (hslot .held)
    replace hst : c.engine.states[id]? = some st := hst
    refine ⟨?_, st, hst⟩
    rw [Engine.removeLive, cancelOrder_none ho]
    simp only [Maps.contains_eq_false_iff.mpr (show c.engine.callMarkets[id]? = none from hcall),
      Maps.contains_eq_false_iff.mpr (show c.engine.heldClose[id]? = none from hheld), Bool.false_eq_true, if_false,
      hst, get_some, ok_bind, ← hagrees.trader, hsender, hcancel, h.1, h.2]

private theorem processCancel_leads (hinv : Inv x (idle false c)) (hreq : x.request = some (.cancel m)) :
    Leads x c (c.processCancel clock m) := by
  unfold Call.processCancel
  rcases hcancel : Call.cancelLive c.engine m.orderId m.sender with _ | r
  · exact rejectRequest_leads (by rw [hreq]; rfl) ..
  obtain ⟨_, _⟩ := r
  obtain ⟨hremove, _, hst⟩ := cancelLive_ok hinv hcancel
  obtain ⟨_, _, hremove', hstates, -, -, hpath⟩ := removeLive_spec hinv hst
  rw [hremove] at hremove'
  cases hremove'
  simp only [hstates, hst]
  exact (hpath m.outputTx _ (clock .request) (.of_type (.inl rfl) rfl rfl rfl not_stpReason_empty)).1

end cancel

section replace

variable {m : CancelReplaceMsg R} {st : OrderState R} {newTif : Option TimeInForce} (clock : Clock)

/-- The live order of a replace, in its container. -/
theorem Replaceable.live (hr : Replaceable c.engine m st newTif) (hinv : Inv x (idle false c)) {pl o}
    (ho : o ∈ (idle false c).slot m.orderId pl) :
    (∀ pl', (idle false c).slot m.orderId pl' = if pl = pl' then [o] else []) ∧ Agrees m.orderId o st ∧ pl.Holds o st ∧
      x.known o.traits := by
  obtain ⟨hslot, _, hst, hlive⟩ := (hinv.tracked m.orderId).of_mem ho
  rw [show (idle false c).call.engine.states[m.orderId]? = some st from hr.state] at hst
  cases hst
  exact ⟨hslot, hlive⟩

theorem Replaceable.entered (hr : Replaceable c.engine m st newTif) (hbegun : x.Begun c) {o}
    (hagrees : Agrees m.orderId o st) : entryReason x.start.phase x.start.auctionsEnabled (c.engine.liveType m.orderId)
      (newTif.getD o.timeInForce) = none := by
  rw [← hbegun.entry, hagrees.timeInForce]
  exact hr.entry

theorem Agrees.no_display {id o} (h : Agrees id o st) (hty : o.orderType ≠ .limit) :
    o.displayQuantity = 0 := by
  by_contra hd
  exact hty (h.iceberg hd).1

/-- The replacement of a market order that is queued for an auction. -/
def queuedReplacement (clock : Clock) (m : CancelReplaceMsg R) (newTif : Option TimeInForce) (old : Order)
    (quantity : Nat) : Order :=
  { old with
    orderId := m.newOrderId
    quantity := quantity
    timeInForce := newTif.getD old.timeInForce
    timestamp := (clock .request).asMillis
    clientOrderId := m.clientReplaceId }

private theorem replaceCallMarket_safe (hinv : Inv x (idle false c)) (hbegun : x.Begun c)
    (hreq : x.request = some (.cancelReplace m)) (hr : Replaceable c.engine m st newTif) {old}
    (hold : c.engine.callMarkets[m.orderId]? = some old) : Safe (c.replaceCallMarket clock m old) (Leads x c) := by
  have hmem : old ∈ (idle false c).slot m.orderId .call := Progress.mem_call.mpr hold
  obtain ⟨-, hagrees, hmarket, hknown⟩ := hr.live hinv hmem
  have hcall := hinv.calls m.orderId old hold
  have hdisplay := hagrees.no_display (show old.orderType ≠ .limit by rw [show old.orderType = _ from hmarket]; decide)
  have hentry := (entryReason_none hr.entry).2.2 hcall
  simp only [Call.replaceCallMarket, hr.state, get_some, ok_bind]
  split
  · exact rejectRequest_leads (by rw [hreq]; rfl) ..
  rename_i hfilled
  simp only [hr.parse, Except.toOption, get_some, ok_bind]
  obtain ⟨quantity, hquantity⟩ : ∃ q, q = if 0 < m.newQuantity then asU32 m.newQuantity.toInt - st.cumQty else
    old.quantity := ⟨_, rfl⟩
  rw [← hquantity]
  have htotal := hagrees.total
  have hleft := hagrees.quantity
  obtain ⟨hpos, hsmall, hrange⟩ : 0 < quantity ∧ quantity < 2 ^ 31 ∧ st.cumQty + quantity < 2 ^ 32 := by
    rw [hquantity]
    split
    · rename_i hpos
      have hzero : (0 : Int32).toInt < m.newQuantity.toInt := Int32.lt_iff_toInt_lt.mp hpos
      have hlt := asU32_int32 (Int.le_of_lt hzero)
      have : st.cumQty < asU32 m.newQuantity.toInt := by
        by_contra hle
        exact hfilled ⟨hpos, by omega⟩
      omega
    · exact ⟨hagrees.positive, hagrees.small, by omega⟩
  refine (addU32_safe fun _ => hrange).bind fun orderQty ⟨hqty, htotal⟩ => ?_
  obtain ⟨st', hst'⟩ : ∃ st' : OrderState R, st' =
    { st with
      orderQty := orderQty
      timeInForce := newTif.getD old.timeInForce
      clientOrderId := m.clientReplaceId
      outputTx := m.outputTx
      arrival := c.engine.nextArrival } := ⟨_, rfl⟩
  have hagrees' : Agrees m.newOrderId (queuedReplacement clock m newTif old quantity) st' := by
    rw [hst']
    exact ⟨rfl, (Nat.add_comm ..).trans hqty.symm, hpos, hsmall, htotal, hagrees.trader, hagrees.side, rfl,
      hagrees.display, hagrees.displaySmall, fun hd => absurd hdisplay hd⟩
  have hswap : Step x (idle false c) (moving (.takeOver m st' (clock .report)
      (c.onEngine fun e => { e with callMarkets := e.callMarkets.erase m.orderId }))
      [.unfilled (queuedReplacement clock m newTif old quantity)]) :=
    @Step.swap R x (idle false c) _ .call m newTif old (.unfilled (queuedReplacement clock m newTif old quantity)) st
      st' (clock .report) hreq (.call hold trivial (.inl rfl)) hr.state hbegun.frame rfl hr.parse rfl hr.fresh hagrees'
      hknown (by rw [hst']; exact hr.sender) (fun hd => absurd hdisplay hd) rfl rfl rfl
      ⟨fun h => absurd h (by decide), fun _ => by rw [hst']; exact ⟨rfl, rfl⟩⟩ rfl hbegun.issued
      ⟨_, hr.entered hbegun hagrees⟩ (by rw [hst']; exact hbegun.arrival) ⟨rfl, rfl, rfl⟩
  rw [← hst']
  split
  · rename_i hclose
    exact .head hswap (.single (@Step.hold R x _ [] [] (.unfilled (queuedReplacement clock m newTif old quantity)) rfl
      rfl (Option.some_ne_none _) (.inl hmarket) hclose.1 hclose.2))
  rw [← hagrees.timeInForce] at hentry
  rw [← Call.takeOver_phase _ m st' (clock .report)] at hcall
  exact .head hswap (.single (@Step.queue R x _ [] [] (.unfilled (queuedReplacement clock m newTif old quantity)) rfl
    rfl hmarket hcall hentry))

theorem StopBook.replaceFor_ok {stops stops' : StopBook} {origId newId owner : String} {changes : StopReplace}
    {idInUse : Bool} {r : Order} (h : stops.replaceFor origId newId changes owner idInUse = .ok (stops', r)) :
    ∃ orig, stops.ownedBy origId owner = .ok orig ∧ r = StopBook.replacement orig newId changes ∧
      stops' = (stops.remove origId).park r := by
  obtain ⟨orig, howned, h⟩ := bind_eq_ok.mp h
  by_cases hdup : newId ≠ origId ∧ (idInUse ∨ stops.contains newId)
  · simp only [if_pos hdup, bind, Except.bind] at h
    cases h
  simp only [if_neg hdup] at h
  cases h
  exact ⟨orig, howned, rfl, rfl⟩

theorem asU32_max_lt (n : Int32) : asU32 (max n.toInt 0) < 2 ^ 31 := by
  have := n.toInt_lt
  unfold asU32
  omega

private theorem replaceStop_safe (hinv : Inv x (idle false c)) (hbegun : x.Begun c)
    (hreq : x.request = some (.cancelReplace m)) (hr : Replaceable c.engine m st newTif) {arrival : Nat}
    (harrival : arrival = x.start.nextArrival + 1) :
    Safe (c.replaceStop clock m newTif arrival) (Leads x c) := by
  simp only [Call.replaceStop]
  split
  · exact rejectRequest_leads (by rw [hreq]; rfl) ..
  rename_i stops replacement hreplace
  obtain ⟨orig, howned, hrepl, hstops⟩ := StopBook.replaceFor_ok hreplace
  obtain ⟨hmem, hsender⟩ := StopBook.ownedBy_ok howned
  obtain ⟨hslot, hagrees, hholds, hknown⟩ :=
    hr.live hinv (show orig ∈ (idle false c).slot m.orderId .stops from hmem)
  have hone := hslot .stops
  rw [if_pos rfl, Progress.slot, ← hagrees.orderId] at hone
  obtain ⟨pre, post, hparked, hcancel⟩ := StopBook.cancelFor_spec hone
  have hrem : c.engine.stopBook.remove m.orderId = { parked := pre ++ post } := by
    obtain ⟨_, -, hremove⟩ := bind_eq_ok.mp (show (_ >>= _) = _ from hcancel)
    rw [← hagrees.orderId]
    exact (Prod.mk.inj (Except.ok.inj hremove)).1
  have hstop : orig.orderType = .stop ∨ orig.orderType = .stopLimit := hholds.1
  have hdisplay := hagrees.no_display (show orig.orderType ≠ .limit by rcases hstop with h | h <;> rw [h] <;> decide)
  have hquantity : 0 < replacement.quantity ∧ replacement.quantity < 2 ^ 31 := by
    rw [hrepl]
    simp only [StopBook.replacement]
    split
    · exact ⟨‹_›, asU32_max_lt _⟩
    · exact ⟨hagrees.positive, hagrees.small⟩
  have hstop' : replacement.orderType = .stop ∨ replacement.orderType = .stopLimit := by rw [hrepl]; exact hstop
  have hdisplay' : replacement.displayQuantity = 0 := by rw [hrepl]; exact hdisplay
  have hid : replacement.orderId = m.newOrderId := by rw [hrepl]; rfl
  obtain ⟨st', hst'⟩ : ∃ st', st' = Call.replacementState m arrival replacement replacement.quantity 0 0 := ⟨_, rfl⟩
  rw [← hst']
  have hagrees' : Agrees m.newOrderId replacement st' := by
    rw [hst']
    exact ⟨hid, rfl, hquantity.1, hquantity.2, lt_trans hquantity.2 (by decide), rfl, rfl, rfl, rfl,
      by rw [hdisplay']; decide, fun hd => absurd hdisplay' hd⟩
  have hswap : Step x (idle false c) (moving (.takeOver m st' (clock .request)
      (c.onEngine fun e => { e with stopBook := { parked := pre ++ post } })) [.unfilled replacement]) :=
    @Step.swap R x (idle false c) _ .stops m newTif orig (.unfilled replacement) st st' (clock .request)
      hreq (.stops hparked hagrees.orderId rfl) hr.state hbegun.frame rfl hr.parse (by rw [hrepl]; rfl) hr.fresh
      hagrees' (by rw [hrepl]; exact hknown) (by rw [hst', hrepl]; exact hsender) (fun hd => absurd hdisplay' hd) rfl
      rfl rfl ⟨fun _ => by rw [hst']; exact ⟨rfl, rfl⟩, fun h => absurd rfl h⟩ (by rw [hrepl]; rfl) hbegun.issued
      ⟨_, by rw [hrepl]; exact hr.entered hbegun hagrees⟩ (by rw [hst']; exact harrival)
      (by rw [hrepl]; exact ⟨rfl, rfl, rfl⟩)
  obtain ⟨c₁, hc₁⟩ : ∃ c₁, c₁ = Call.takeOver m st' (clock .request)
    (c.onEngine fun e => { e with stopBook := stops }) := ⟨_, rfl⟩
  have hpark : Step x (moving (.takeOver m st' (clock .request)
      (c.onEngine fun e => { e with stopBook := { parked := pre ++ post } })) [.unfilled replacement])
      (idle false c₁) := by
    have hcum : ∀ s, (moving (.takeOver m st' (clock .request) (c.onEngine fun e => { e with
        stopBook := { parked := pre ++ post } })) [.unfilled replacement]).call.engine.states[replacement.orderId]? =
        some s → s.cumQty = 0 := by
      intro s hs
      rw [hid, moving, Call.takeOver_states, if_pos rfl, hst'] at hs
      cases hs
      rfl
    have hstep := @Step.park R x _ [] [] (.unfilled replacement) rfl rfl rfl hstop' hcum
    rw [hc₁, hstops, hrem]
    exact hstep
  have hpath : Leads x c c₁ := .head hswap (.single hpark)
  split
  · have hparked₁ : replacement ∈ c₁.engine.stopBook.parked := by
      rw [hc₁]
      show replacement ∈ stops.parked
      rw [hstops]
      exact mem_append_right _ mem_cons_self
    have hfire := fireStop_safe (hpath.inv hinv) hparked₁ (clock .request)
    rw [hc₁] at hfire
    exact hfire.mono fun _ hc' => (hc₁ ▸ hpath).trans hc'
  · rw [hc₁] at hpath
    exact hpath

theorem OrderBook.Added.undone {b b₁ b₂ o} {filled : Nat} (hwf : b.WF)
    (hnew : b.orderLookup[o.orderId]? = none) (hadd : Added b o filled b₁) (hedit : Edited b₁ o none 0 b₂) :
    SameBook b b₂ where
  queue s p := by
    by_cases hsp : o.side = s ∧ o.price = p
    · obtain ⟨rfl, rfl⟩ := hsp
      have hother : ∀ a ∈ b.queue o.side o.price, a.orderId ≠ o.orderId := by
        intro a ha heq
        have := (hwf.found a.orderId a).mpr ⟨rfl, by
          obtain ⟨hside, hprice⟩ := hwf.placed _ _ _ ha
          rw [hside, hprice]
          exact ha⟩
        rw [heq, hnew] at this
        cases this
      have hgone : ∀ a ∈ b₂.queue o.side o.price, a.orderId ≠ o.orderId := by
        intro a ha
        simpa using (filter_eq_nil_iff.mp hedit.here) a ha
      have hleft := hedit.others
      rw [others, others, filter_eq_self.mpr (by simpa using hgone), hadd.queue, if_pos ⟨rfl, rfl⟩,
        filter_append, filter_eq_self.mpr (by simpa using hother), filter_cons_of_neg (by simp),
        filter_nil, append_nil] at hleft
      exact hleft
    · rw [hedit.elsewhere s p hsp, hadd.queue, if_neg hsp]
  lookup id := by
    rw [hedit.lookup, hadd.lookup]
    split
    · rename_i h
      rw [← h, hnew]
      rfl
    · rfl
  displayed id := by
    rw [hedit.displayed, hadd.displayed]
    split
    · rename_i h
      rw [← h, hwf.unknown _ hnew]
      rfl
    · rfl
  cumFilled id := by
    rw [hedit.cumFilled, hadd.cumFilled]
    split
    · rename_i h
      rw [← h, hwf.unfilled hnew]
      rfl
    · rfl
  noEmpty := hedit.noEmpty
  kept hkept := hedit.kept (hadd.kept hkept)

/-- The replacement of a resting order has left the book, and its replacement has not come to rest. -/
def replacing (c : Call R) (t : Transit) (orig : Order) (visible : Nat) : Progress R :=
  { call := c
    transit := [t]
    rested := [{ updateType := .cancelOrder, price := orig.price, quantity := visible, side := orig.side }] }

/-- The replacement of a resting order, with the quantity `leaves`. -/
def restingReplacement (clock : Clock) (m : CancelReplaceMsg R) (newTif : Option TimeInForce) (orig : Order)
    (leaves : Nat) : Order :=
  OrderBook.replacement orig m.newOrderId (Call.bookChanges clock m newTif) leaves

/-- The replacement of a resting order between leaving the book and coming to rest. -/
def restingTransit (clock : Clock) (m : CancelReplaceMsg R) (newTif : Option TimeInForce) (orig : Order)
    (leaves filled : Nat) : Transit :=
  { order := restingReplacement clock m newTif orig leaves, filled := some filled, replaced := true, acked := true }

theorem Replaceable.restingDisplay (hr : Replaceable c.engine m st newTif) {orig}
    (hagrees : Agrees m.orderId orig st) {leaves : Nat}
    (hd : (restingReplacement clock m newTif orig leaves).displayQuantity ≠ 0) :
    c.engine.auctionsEnabled = false ∧
      (newTif.getD st.timeInForce = .day ∨ newTif.getD st.timeInForce = .gtc ∨ newTif.getD st.timeInForce = .gtd) := by
  have hdisplay := hr.display
  unfold Engine.replaceDisplayReason at hdisplay
  split at hdisplay
  · cases hdisplay
  obtain ⟨-, hkind⟩ := icebergReason_none hdisplay
  have hne : (m.newDisplayQuantity.map Int32.toInt).getD (asI32 st.displayQuantity) ≠ 0 := by
    cases hnew : m.newDisplayQuantity with
    | none =>
      simp only [restingReplacement, OrderBook.replacement, Call.bookChanges, hnew, Option.map_none,
        Option.getD_none] at hd ⊢
      have hsmall := hagrees.displaySmall
      rw [hagrees.display] at hd hsmall
      unfold asI32
      split <;> omega
    | some =>
      simp only [restingReplacement, OrderBook.replacement, Call.bookChanges, hnew, Option.map_some,
        Option.getD_some] at hd ⊢
      intro hz
      rw [hz] at hd
      exact hd rfl
  obtain ⟨-, hauctions, -, htif⟩ := hkind hne
  exact ⟨hauctions, htif⟩

theorem Replaceable.swap (hinv : Inv x (idle false c)) (hbegun : x.Begun c) (hreq : x.request = some (.cancelReplace m))
    (hr : Replaceable c.engine m st newTif) {orig b} {leaves orderQty : Nat}
    (ho : c.engine.book.orderLookup[m.orderId]? = some orig) (howner : orig.traderId = m.sender)
    (hedit : Edited c.engine.book orig none 0 b) (hstp : b.stp = c.engine.book.stp) (hpos : 0 < leaves)
    (hsmall : leaves < 2 ^ 31) (hqty : orderQty = st.cumQty + leaves ∧ orderQty < 2 ^ 32)
    (hknown : x.known (restingReplacement clock m newTif orig leaves).traits) {arrival : Nat}
    (harrival : arrival = x.start.nextArrival + 1) (ts : Time) :
    Step x (idle false c) (replacing
      (.takeOver m (Call.replacementState m arrival (restingReplacement clock m newTif orig leaves) orderQty st.cumQty
        st.notional) ts (c.onEngine fun e => { e with book := b }))
      (restingTransit clock m newTif orig leaves (c.engine.book.cumFilled[m.orderId]?.getD 0)) orig
      (c.engine.book.visible orig)) := by
  have hmem : orig ∈ (idle false c).slot m.orderId .book := Progress.mem_book.mpr ho
  obtain ⟨-, hagrees, hlimit, -⟩ := hr.live hinv hmem
  have hagrees' : Agrees m.newOrderId (restingReplacement clock m newTif orig leaves)
      (Call.replacementState m arrival (restingReplacement clock m newTif orig leaves) orderQty st.cumQty
        st.notional) := by
    refine ⟨rfl, (Nat.add_comm ..).trans hqty.1.symm, hpos, hsmall, hqty.2, rfl, rfl, rfl, rfl, ?_,
      fun hd => ⟨hlimit, ?_⟩⟩
    · simp only [restingReplacement, OrderBook.replacement, Call.bookChanges]
      cases m.newDisplayQuantity with
      | none => exact hagrees.displaySmall
      | some q => exact asU32_int32_lt q
    · have htif := (hr.restingDisplay clock hagrees hd).2
      rw [← hagrees.timeInForce] at htif
      exact htif
  exact @Step.swap R x (idle false c) _ .book m newTif orig (restingTransit clock m newTif orig leaves _) st _ ts hreq
    (.book ho hedit (hstp.trans hinv.stp) trivial (fun _ h => by cases h) (fun _ => ⟨rfl, rfl, rfl⟩)
      fun _ h => by cases h) hr.state hbegun.frame rfl hr.parse rfl hr.fresh hagrees' hknown howner
      (fun hd => ⟨(hr.restingDisplay clock hagrees hd).1, rfl⟩) rfl rfl rfl
    ⟨nofun, fun _ => ⟨rfl, rfl⟩⟩ rfl hbegun.issued ⟨_, hr.entered hbegun hagrees⟩ harrival ⟨rfl, rfl, rfl⟩

section replacing

variable {t : Transit} {orig : Order} {v filled : Nat} {b : OrderBook}

private theorem replacing_fresh (hinv : Inv x (replacing c t orig v)) :
    c.engine.book.orderLookup[t.order.orderId]? = none :=
  hinv.not_on_book (t := t) mem_cons_self

/-- The replacement is held for the close; it was on the book for a moment. -/
theorem Path.replaceHeld (hinv : Inv x (replacing c t orig v)) (hlimit : t.order.orderType = .limit)
    (hacked : t.acked = true) (hfilled : t.filled ≠ none) (htif : t.order.timeInForce = .atClose)
    (hphase : c.engine.phase ≠ .closingCall) (hadd : Added c.engine.book t.order filled b)
    (hstp : b.stp = {}) (ts : Time) : Path x (replacing c t orig v) (idle false (Call.pushMd ts
      { c with
        engine :=
          { c.engine with
            book := ((b.cancelOrder t.order.orderId).map (·.1)).getD b
            heldClose := c.engine.heldClose.insert t.order.orderId t.order } }
      ((((b.cancelOrder t.order.orderId).map (·.1)).getD b).generateIncrementalUpdate .cancelOrder orig.price v
        orig.side))) := by
  obtain ⟨_, -, hagrees, -⟩ := hinv.in_transit (t := t) mem_cons_self
  have hnew := replacing_fresh hinv
  obtain ⟨b', hcancel, hedit, hstp'⟩ := cancelOrder_spec (hadd.wf hinv.book hnew hagrees.positive)
    (show b.orderLookup[t.order.orderId]? = some t.order by rw [hadd.lookup, if_pos rfl])
  simp only [hcancel, Option.map_some, Option.getD_some]
  have hhold := @Step.hold R x (replacing c t orig v) [] [] t rfl hacked hfilled (.inr hlimit) htif hphase
  have hquiet : ∀ u, Quiet (Call.pushMd ts (c.onEngine fun e => { e with
      heldClose := e.heldClose.insert t.order.orderId t.order }) u)
      (Call.pushMd ts (c.onEngine fun e => { e with
        book := b'
        heldClose := e.heldClose.insert t.order.orderId t.order }) u) := fun u =>
    ⟨rfl, hadd.undone hinv.book hnew hedit, hstp'.trans hstp, ⟨[], (append_nil _).symm,
      fun _ h => absurd h not_mem_nil⟩, fun _ h => h⟩
  refine .tail
    (.head hhold (@Path.flush R x ts _ [b'.generateIncrementalUpdate .cancelOrder orig.price v orig.side] ?_))
    (.note (hquiet _) fun _ => rfl)
  exact fun _ => rfl

theorem Path.replaceRested (hlimit : t.order.orderType = .limit)
    (hacked : t.acked = true) (hreplaced : t.replaced = true) (hfilled : t.filled = some filled)
    (hadd : Added c.engine.book t.order filled b) (hstp : b.stp = {}) {inc}
    (hinc : inc.changes =
      [{ updateType := .cancelOrder, price := orig.price, quantity := v, side := orig.side },
       { updateType := .newOrder, price := t.order.price, quantity := firstSlice t.order, side := t.order.side }])
    (ts : Time) :
    Path x (replacing c t orig v)
      { call := Call.pushMd ts { c with engine := { c.engine with book := b } } inc, crossed := true } := by
  have hrest := @Step.rest R x (replacing c t orig v) [] [] t filled b rfl hacked hlimit hfilled
    (.inl hreplaced) hadd hstp
  refine .head hrest (@Path.flush R x ts _ [inc] ?_)
  intro s
  simp [replacing, changesOf, hinc]

end replacing

section

variable {arrival : Nat} (hinv : Inv x (idle false c)) (hbegun : x.Begun c)
    (hreq : x.request = some (.cancelReplace m)) (hr : Replaceable c.engine m st newTif)
    (hknown : ∀ orig leaves, c.engine.book.orderLookup[m.orderId]? = some orig →
      x.known (restingReplacement clock m newTif orig leaves).traits) (harrival : arrival = x.start.nextArrival + 1)
  (hrange : c.engine.inRange (.cancelReplace m))
include hinv hbegun hreq hr hknown harrival hrange

private theorem replaceResting_safe : Safe (c.replaceResting clock m newTif arrival) (Leads x c) := by
  simp only [Call.replaceResting]
  split
  · exact rejectRequest_leads (by rw [hreq]; rfl) ..
  rename_i b r inc hreplace
  have hwf : c.engine.book.WF := hinv.book
  obtain ⟨orig, b₁, leaves, filled, ho, howner, hfresh, hfilled, hleaves, -, hrepl, hedit, hadd, hstp₁, hstp, hpos,
    hinc⟩ := replaceOrder_ok hwf hreplace
  replace hrepl : r = restingReplacement clock m newTif orig leaves := hrepl
  obtain ⟨-, hagrees, hlimit, -⟩ := hr.live hinv (Progress.mem_book.mpr ho)
  have hsmall : leaves < 2 ^ 31 := by
    rw [hleaves]
    split
    · exact hagrees.small
    · exact Nat.lt_of_le_of_lt (Nat.sub_le ..) (asU32_max_lt m.newQuantity)
  simp only [hr.state, ho, Option.elim_some]
  have hsum : c.engine.arithmetic = .wrapping → st.cumQty + leaves < 2 ^ 32 := by
    intro hm
    rw [hleaves]
    split
    · have := hagrees.total
      have := hagrees.quantity
      omega
    · simpa [Engine.inRange, hm, Maps.contains_iff.mpr ⟨_, ho⟩, hr.state, ← hfilled, Call.bookChanges] using hrange
  rw [hrepl]
  refine (addU32_safe hsum).bind fun orderQty hqty => ?_
  subst hrepl hfilled
  have hswap := hr.swap clock hinv hbegun hreq ho howner hedit hstp₁ hpos hsmall hqty (hknown orig leaves ho) harrival
    (clock .request)
  split
  · rename_i hclose
    exact .head hswap (Path.replaceHeld (hswap.inv hinv) hlimit rfl (Option.some_ne_none _) hclose.1 hclose.2 hadd
      (hstp.trans hinv.stp)
      (clock .request))
  have hpath := Relation.ReflTransGen.head hswap (Path.replaceRested
    (t := restingTransit clock m newTif orig leaves _) hlimit rfl rfl rfl hadd (hstp.trans hinv.stp) hinc
    (clock .request))
  split
  · rename_i hphase
    exact hpath.tail (.settle (.inl (isCall_iff.mpr ⟨hphase, hr.phase⟩)))
  obtain ⟨c₁, hc₁⟩ : ∃ c₁, c₁ = Call.pushMd (clock .request) (Call.takeOver m (Call.replacementState m arrival
    (restingReplacement clock m newTif orig leaves) orderQty st.cumQty st.notional) (clock .request)
      (c.onEngine fun e => { e with book := b })) inc := ⟨_, rfl⟩
  replace hpath : Path x (idle false c) { call := c₁, crossed := true } := by rw [hc₁]; exact hpath
  obtain ⟨r, _, hr, hcascade, hmatch⟩ := Path.matchAll (hpath.inv hinv) (clock .request)
  rw [hc₁] at hr hcascade
  exact .of_eq (bind_eq_ok.mpr ⟨r, hr, hcascade⟩) (hpath.trans hmatch)

private theorem processReplace_safe : Safe (c.processReplace clock m arrival) (Leads x c) := by
  simp only [Call.processReplace, hr.parse]
  split
  · exact rejectRequest_leads (by rw [hreq]; rfl) ..
  split
  · exact replaceStop_safe clock hinv hbegun hreq hr harrival
  · exact replaceResting_safe clock hinv hbegun hreq hr hknown harrival hrange

end

end replace

section order

theorem Path.queueOrder {o} (hinv : Inv x (moving c [.unfilled o]))
    (htype : o.orderType = .market ∨ o.orderType = .limit)
    (hphase : ¬ (o.timeInForce = .atClose ∧ c.engine.phase ≠ .closingCall) → isCall c.engine.phase = true)
    (htif : isCall c.engine.phase = true → o.timeInForce ≠ .ioc ∧ o.timeInForce ≠ .fok) (ts : Time) :
    Path x (moving c [.unfilled o]) (idle false (c.queueOrder o ts)) := by
  simp only [Call.queueOrder]
  split
  · rename_i hclose
    exact .single (@Step.hold R x _ [] [] (.unfilled o) rfl rfl (Option.some_ne_none _) htype hclose.1 hclose.2)
  rename_i hclose
  have hcall := hphase hclose
  split
  · rename_i hmarket
    exact .single (@Step.queue R x _ [] [] (.unfilled o) rfl rfl hmarket hcall (htif hcall))
  rename_i hmarket
  have hlimit := htype.resolve_left hmarket
  exact Path.restInCall (t := .unfilled o) hinv hcall hlimit rfl rfl (htif hcall) ts

/-- An order that rests is acknowledged before anything that it triggers is reported. -/
theorem executeOrder_eq (c : Call R) (owner : R) {o} (st : OrderState R) (ts : Time)
    {r} (hr : c.engine.book.executeInto o {} = .ok r) :
    (c.setState o.orderId st).executeOrder owner o ts =
      Call.cascade ts r.2.1 (((if r.2.2 then c.acknowledge owner o.orderId st ts else c).setState o.orderId
        st).onEngine fun e => { e with book := r.1 }) := by
  have hst : (c.setState o.orderId st).engine.states[o.orderId]? = some st := Std.ExtTreeMap.getElem?_insert_self
  obtain ⟨book, exec, rested⟩ := r
  simp only [Call.executeOrder, hst, show (c.setState o.orderId st).engine.book.executeInto o {} = _ from hr, ok_bind]
  cases rested <;> rfl

/-- Since `pre` was put out, there is a report about the order `id`, or it has just been entered. -/
def Progress.Mentioned (id : String) (pre : List (Output R)) (w : Progress R) : Prop :=
  ∃ l, w.call.out = pre ++ l ∧ ((∃ t ∈ w.transit, t.order.orderId = id ∧ t.acked = false) ∨
    ∃ r ∈ l.filterMap Engine.reportOf, r.orderId = id)

/-- A path whose first step mentions the order `id`. -/
def Opens (x : Context R) (id : String) (c c' : Call R) : Prop :=
  ∃ w, Step x (idle false c) w ∧ w.Mentioned id c.out ∧ Path x w (idle false c')

theorem Opens.leads {id c'} (h : Opens x id c c') : Leads x c c' := by
  obtain ⟨_, hstep, -, hpath⟩ := h
  exact .head hstep hpath

theorem Opens.of_reject {id} (hreq : x.request.bind Op.target = some id) {owner st ev ts}
    (hev : ev.execType = .rejected ∧ ev.lastQty = 0) : Opens x id c (c.report owner id st ev ts) :=
  ⟨_, .reject hreq hev, ⟨_, rfl, .inr ⟨_, mem_singleton_self _, rfl⟩⟩, .refl⟩

variable {order : NewOrderSingle} {owner : R} (clock : Clock)

theorem processOrder_safe (hinv : Inv x (idle false c)) (hbegun : x.Begun c)
    (hreq : x.request = some (.newOrder order owner))
    (hknown : ∀ ts o, Call.orderOf x.start order ts = .ok o → x.known o.traits) {arrival : Nat}
    (harrival : arrival = x.start.nextArrival + 1) :
    Safe (c.processOrder clock order owner arrival) (Opens x order.orderId c) := by
  have htarget : x.request.bind Op.target = some order.orderId := by rw [hreq]; rfl
  simp only [Call.processOrder]
  split
  · exact .of_reject htarget ⟨rfl, rfl⟩
  rename_i hvalid
  obtain ⟨_, _, _, _, hadm⟩ := invalidReason_none hvalid
  obtain ⟨o, hof, hid, hty, htif, hagrees, hdisplay⟩ := hadm.orderOf (clock .request) owner arrival
  obtain ⟨hopen, hclose, hcall⟩ := entryReason_none hadm.entry
  have hentered : entryReason x.start.phase x.start.auctionsEnabled o.orderType o.timeInForce = none := by
    rw [← hbegun.entry, hty, htif]
    exact hadm.entry
  rw [← hty, ← htif] at hclose
  rw [← htif] at hcall
  rw [hof, ok_bind]
  have hof' : Call.orderOf x.start order (clock .request) = .ok o := by
    rw [hbegun] at hof
    exact hof
  have hnew : c.engine.states[o.orderId]? = none := by
    rw [hid]
    exact hadm.fresh
  -- the order enters the market, as it is or as `triggeredType` says
  have henter : ∀ o' ack, o' = o ∨ o' = triggeredType o →
      Step x (idle false c) (moving
        ((if ack then c.acknowledge owner o.orderId (OrderState.new order o.quantity owner arrival) (clock .request)
          else c).setState o.orderId (OrderState.new order o.quantity owner arrival))
        [{ order := o', filled := some 0, replaced := false, acked := ack }]) := by
    intro o' ack ho'
    refine .enter hreq hof' ho' hnew (hknown _ _ hof') ?_ (fun hd => ⟨hdisplay hd, rfl⟩) hbegun.issued hentered
      harrival
    rcases ho' with rfl | rfl
    · exact hagrees
    · exact triggeredType_agrees hagrees
  have hmention : ∀ o' ack, o' = o ∨ o' = triggeredType o →
      (moving ((if ack then c.acknowledge owner o.orderId (OrderState.new order o.quantity owner arrival)
        (clock .request)
          else c).setState o.orderId (OrderState.new order o.quantity owner arrival))
        [{ order := o', filled := some 0, replaced := false, acked := ack }]).Mentioned order.orderId c.out := by
    intro o' ack ho'
    cases ack with
    | false =>
      refine ⟨[], (append_nil _).symm, .inl ⟨_, mem_singleton_self _, ?_, rfl⟩⟩
      rw [← hid]
      rcases ho' with rfl | rfl
      · rfl
      · exact (triggeredType_agrees hagrees).orderId
    | true => exact ⟨_, rfl, .inr ⟨_, mem_singleton_self _, hid⟩⟩
  split
  · exact .of_reject htarget ⟨rfl, rfl⟩
  rename_i hprice
  split
  · rename_i hstop
    have hcum : ∀ st, ((c.acknowledge owner o.orderId (OrderState.new order o.quantity owner arrival)
        (clock .request)).setState o.orderId
          (OrderState.new order o.quantity owner arrival)).engine.states[o.orderId]? = some st → st.cumQty = 0 := by
      intro st hst
      rw [Call.setState, Std.ExtTreeMap.getElem?_insert_self] at hst
      cases hst
      rfl
    exact ⟨_, henter o true (.inl rfl), hmention o true (.inl rfl),
      .single (@Step.park R x _ [] [] (.unfilled o) rfl rfl rfl hstop.1 hcum)⟩
  · rename_i hstop
    split
    · rename_i hwait
      have hnot : ¬ (o.orderType = .stop ∨ o.orderType = .stopLimit) := by
        intro hs
        have hcont : c.engine.phase = .continuous := by
          by_contra h
          exact hstop ⟨hs, fun h' => h h'.1⟩
        obtain ⟨h₁, h₂⟩ := hclose (hwait.resolve_left fun h => h hcont)
        exact hs.elim h₁ h₂
      have htype : o.orderType = .market ∨ o.orderType = .limit := by
        cases h : o.orderType <;> simp_all
      have hphase : ¬ (o.timeInForce = .atClose ∧ c.engine.phase ≠ .closingCall) → isCall c.engine.phase = true := by
        intro hheld
        refine isCall_iff.mpr ⟨fun hcont => ?_, hopen⟩
        exact hheld ⟨hwait.resolve_left fun h => h hcont, by rw [hcont]; decide⟩
      exact ⟨_, henter o true (.inl rfl), hmention o true (.inl rfl),
        Path.queueOrder ((henter o true (.inl rfl)).inv hinv) htype hphase hcall (clock .request)⟩
    · obtain ⟨ack, hack⟩ : ∃ ack, ack = (c.engine.book.processAggressive (triggeredType o)).2.restOnBook := ⟨_, rfl⟩
      have hexec := henter (triggeredType o) ack (.inr rfl)
      have hmentioned := hmention (triggeredType o) ack (.inr rfl)
      generalize hc₁ : (if ack then c.acknowledge owner o.orderId (OrderState.new order o.quantity owner arrival)
        (clock .request) else c).setState o.orderId (OrderState.new order o.quantity owner arrival) = c₁
        at hexec hmentioned
      have hbook : c₁.engine.book = c.engine.book := by
        rw [← hc₁]
        cases ack <;> rfl
      obtain ⟨r, _, hr, hrested, hcascade, hpath⟩ := @Path.execute R x c₁ _ o (hexec.inv hinv) rfl rfl []
        (by rw [hbook, hack]; exact fun h => h) (clock .request)
      rw [hbook] at hr hrested
      refine Safe.of_eq ?_ ⟨_, hexec, hmentioned, hpath⟩
      rw [executeOrder_eq _ _ _ _ hr, hrested, ← hack, hc₁]
      exact hcascade

end order

def Op.brings (e : Engine R) (t : Traits) : Op R → Prop
  | .newOrder order _ => ∃ ts o, Call.orderOf e order ts = .ok o ∧ t = o.traits
  | .cancelReplace m => ∃ o, e.book.orderLookup[m.orderId]? = some o ∧
    t = { o.traits with iceberg := ((m.newDisplayQuantity.map fun q => asU32 q.toInt).getD o.displayQuantity) != 0 }
  | .cancel _ | .massCancel _ | .subscribe _ | .beginOpeningCall _ | .tick => False

/-- The orders that the request can bring to the market are known. -/
def Context.Complete (x : Context R) : Prop := ∀ op t, x.request = some op → op.brings x.start t → x.known t

section requests

variable (clock : Clock)

def SymbolMsg.op : SymbolMsg R → Op R
  | .order o owner => .newOrder o owner
  | .cancel m => .cancel m
  | .cancelReplace m => .cancelReplace m

private theorem dispatch_safe {msg} (hinv : Inv x (idle false c)) (hbegun : x.Begun c)
    (hreq : x.request = some msg.op) (hknown : x.Complete) {arrival : Nat}
    (harrival : arrival = x.start.nextArrival + 1) (hrange : c.engine.inRange msg.op) :
    Safe (c.dispatch clock msg arrival) (Leads x c) := by
  cases msg with
  | order order =>
    exact (processOrder_safe clock hinv hbegun hreq
      (fun ts o ho => hknown _ _ hreq ⟨ts, o, ho, rfl⟩) harrival).mono fun _ h => h.leads
  | cancel m =>
    simp only [Call.dispatch, Call.preflight]
    split
    · rename_i hqueued
      have hsafe : Safe (c.preflightCancel clock m) (Leads x c) := by
        rcases hqueued with h | h
        · obtain ⟨_, ho⟩ := Maps.contains_iff.mp h
          exact preflightCancel_safe clock hinv hreq (show Place.call ≠ .book by decide)
            (Progress.mem_call.mpr ho)
        · obtain ⟨_, ho⟩ := Maps.contains_iff.mp h
          exact preflightCancel_safe clock hinv hreq (show Place.held ≠ .book by decide)
            (Progress.mem_held.mpr ho)
      exact (hsafe.bind fun c' hc' => (show Safe (.ok (c', true)) fun r => r.2 = true ∧ Leads x c r.1 from
        ⟨rfl, hc'⟩)).bind fun r hr => by rw [if_pos hr.1]; exact hr.2
    · exact processCancel_leads clock hinv hreq
  | cancelReplace =>
    simp only [Call.dispatch, Call.preflight]
    split
    · exact rejectRequest_leads (by rw [hreq]; rfl) ..
    rename_i hreason
    obtain ⟨_, _, hr⟩ := replaceReason_none hreason
    split
    · refine processReplace_safe clock hinv hbegun hreq hr (fun orig _ ho => hknown _ _ hreq ⟨orig, ?_, rfl⟩) harrival
        hrange
      rw [← hbegun.frame.2.2]
      exact ho
    rename_i old hold
    exact ((replaceCallMarket_safe clock hinv hbegun hreq hr hold).bind fun c' hc' =>
      (show Safe (.ok (c', true)) fun r => r.2 = true ∧ Leads x c r.1 from ⟨rfl, hc'⟩)).bind fun r hr => by
        rw [if_pos hr.1]; exact hr.2

theorem Quiet.reports {c c' : Call R} (h : Quiet c c') :
    c'.out.filterMap Engine.reportOf = c.out.filterMap Engine.reportOf := by
  obtain ⟨_, hl, hsilent⟩ := h.out
  rw [hl, filterMap_append, filterMap_eq_nil_iff.mpr fun o ho => (hsilent o ho).1, append_nil]

theorem Leads.publish {c₁} (hpath : Leads x c c₁) (hinv : Inv x (idle false c)) (instant : Time) :
    Safe (c₁.publishIndicative instant) fun c₂ => Leads x c c₂ ∧ Quiet c₁ c₂ :=
  (publishIndicative_safe (hpath.inv hinv) instant).mono fun c₂ hc₂ =>
    ⟨hpath.tail (.note hc₂.1 fun _ => by rw [hc₂.2]; rfl), hc₂.1⟩

/-- A request gets its arrival number. -/
theorem Inv.begun (hinv : Inv x (idle false c)) (hstart : c.engine = x.start) :
    ∃ c₀, c₀ = c.onEngine (fun e => { e with nextArrival := e.nextArrival + 1 }) ∧ Leads x c c₀ ∧ x.Begun c₀ := by
  refine ⟨_, rfl, .single (.note (hinv.silent rfl rfl rfl) fun _ => rfl), ?_⟩
  rw [Context.Begun, ← hstart]
  rfl

private theorem process_safe {msg} (hinv : Inv x (idle false c)) (hstart : c.engine = x.start)
    (hreq : x.request = some msg.op) (hknown : x.Complete) (hrange : c.engine.inRange msg.op) :
    Safe (c.process clock msg) (Leads x c) := by
  obtain ⟨_, hc₀, hbump, hbegun⟩ := hinv.begun hstart
  have hsafe := dispatch_safe clock (hbump.inv hinv) hbegun hreq hknown
    (show c.engine.nextArrival + 1 = x.start.nextArrival + 1 by rw [hstart]) (by rw [hc₀]; exact hrange)
  rw [hc₀] at hsafe
  refine hsafe.bind fun c₁ hc₁ => ?_
  rw [← hc₀] at hc₁
  have hpath : Leads x c c₁ := hbump.trans hc₁
  exact (hpath.publish hinv (clock .publish)).mono fun _ hc₂ => hc₂.1

theorem not_stpReason_massCancel (m : MassCancelMsg) :
    ¬ StpReason (if m.reason = 2 then "cancel on disconnect" else "mass cancel") := by
  rintro ⟨mode, h⟩
  split at h <;> cases mode <;> exact absurd h (by decide)

private theorem massCancel_safe (m : MassCancelMsg) (hinv : Inv x (idle false c)) :
    Safe (c.massCancel clock m) fun c' => ∃ c₁, Leads x c c₁ ∧ c' = c₁.rememberStatus := by
  simp only [Call.massCancel]
  refine (foldlM_finish hinv (nodup_targets _ _) (fun id hid => ?_) fun c id st hinv hst =>
    finish_safe hinv hst OrderState.outputTx (.of_type (.inl rfl) rfl rfl rfl (not_stpReason_massCancel m)) _).bind ?_
  · obtain ⟨st, hst, -⟩ := mem_targets.mp hid
    exact ⟨st, hst⟩
  rintro c₁ ⟨hpath, -⟩
  generalize c.engine.targets _ = targets
  have hinv₁ := hpath.inv hinv
  have hcount : Leads x c (c₁.push (.massCancelCount (targets.length % 2 ^ 32))) :=
    hpath.tail (.note (hinv₁.quiet rfl _ rfl (fun o ho => by rw [mem_singleton.mp ho]; exact ⟨rfl, rfl, rfl⟩)
      fun _ h => h.extend rfl (fun o ho => by rw [mem_singleton.mp ho]; rfl) fun _ hr => .inl ⟨hr, rfl⟩) fun _ => rfl)
  exact (hcount.publish hinv (clock .publish)).bind fun c₂ hc₂ => ⟨c₂, hc₂.1, rfl⟩

private theorem levelSizes_safe (b : OrderBook) (m : Arithmetic) (side : OrderSide) :
    Safe (b.levelSizes m side) fun _ => True := by
  refine (Safe.mapM (Q := fun _ => True) fun _ _ => ?_).mono fun _ _ => trivial
  exact (sumU32_wrap ..).bind fun _ _ => trivial

private theorem snapshot_safe (m : Arithmetic) (b : OrderBook) (now : Time) :
    Safe (snapshot m b now) fun _ => True := by
  refine Safe.bind (P := fun _ => True) ?_ fun _ _ => trivial
  exact (levelSizes_safe b m .buy).bind fun _ _ => (levelSizes_safe b m .sell).bind fun _ _ => trivial

theorem welcome_quiet (hinv : Inv x (idle false c)) (owner : R) (snap : MdSnapshot) (ts : Time) :
    Quiet c (((c.push (.snapshot owner snap)).push (.tradingSessionStatus
      { symbol := c.engine.symbol, phase := c.engine.phase, timestamp := ts })).onEngine
        fun e => { e with lastIndicative := none }) := by
  refine hinv.quiet rfl [_, _] (append_assoc ..) (fun _ ho => ?_) fun _ _ _ hr => by cases hr
  rcases mem_cons.mp ho with rfl | ho
  · exact ⟨rfl, rfl, rfl⟩
  · rw [mem_singleton.mp ho]
    exact ⟨rfl, rfl, rfl⟩

private theorem subscribe_safe (owner : R) (hinv : Inv x (idle false c)) :
    Safe (c.subscribe clock owner) fun c' => Leads x c c' ∧
      c'.out.filterMap Engine.reportOf = c.out.filterMap Engine.reportOf := by
  simp only [Call.subscribe]
  refine (snapshot_safe ..).bind fun snap _ => ?_
  obtain ⟨c₁, hc₁⟩ : ∃ c₁, c₁ = ((c.push (.snapshot owner snap)).push (.tradingSessionStatus
    { symbol := c.engine.symbol, phase := c.engine.phase, timestamp := clock .request })).onEngine
      fun e => { e with lastIndicative := none } := ⟨_, rfl⟩
  have hquiet : Quiet c c₁ := hc₁ ▸ welcome_quiet hinv owner snap (clock .request)
  have hpath : Leads x c c₁ := .single (.note hquiet fun _ => by rw [hc₁]; rfl)
  have hpublish := hpath.publish hinv (clock .request)
  rw [hc₁] at hpublish
  refine hpublish.mono fun _ hc₂ => ⟨hc₂.1, ?_⟩
  rw [← hc₁] at hc₂
  exact hc₂.2.reports.trans hquiet.reports

private theorem beginOpeningCall_safe {seconds : Nat} (hinv : Inv x (idle false c)) (hstart : c.engine = x.start)
    (hreq : x.request = some (.beginOpeningCall seconds)) :
    Safe (c.beginOpeningCall clock seconds) fun c' => c' = c ∨ ∃ c₁, Leads x c c₁ ∧ c' = c₁.rememberStatus := by
  simp only [Call.beginOpeningCall]
  split
  · exact .inl rfl
  rename_i hnot
  rw [not_or] at hnot
  have hphase : isCall x.start.phase = false := by
    rw [← hstart]
    simpa using hnot.2
  obtain ⟨c₁, hc₁⟩ : ∃ c₁, c₁ = c.onEngine fun e =>
    { e with callUntil := some (Time.ofSeconds ((clock .request).seconds + seconds)) } := ⟨_, rfl⟩
  have hbegin : Step x (idle false c) (idle false c₁) := by
    rw [hc₁]
    exact .beginCall hreq hnot.1 hphase (by rw [← hstart]; rfl) rfl
  have hpath : Leads x c (c₁.setPhase .openingCall (clock .request)) :=
    .head hbegin (.single (.enterCall c₁ rfl (fun _ hop => by rw [hreq] at hop; cases hop; rfl) (clock .request)))
  have hpublish := hpath.publish hinv (clock .request)
  rw [hc₁] at hpublish
  exact hpublish.bind fun c₂ hc₂ => .inr ⟨c₂, hc₂.1, rfl⟩

/-- The owner of the status of the order that a request enters. -/
def Op.bindStatus : Op R → Call R → Call R
  | .newOrder order _ => Call.bindStatusOwner order.orderId order.sender
  | .cancelReplace m => Call.bindStatusOwner m.newOrderId m.sender
  | .cancel _ | .massCancel _ | .subscribe _ | .beginOpeningCall _ | .tick => fun c => c

/-- The end of a call that began in `c`: its reports are remembered, or it has put out none. -/
inductive Answered (op : Op R) (c c₁ : Call R) : Call R → Prop
  | silent (h : c₁.out.filterMap Engine.reportOf = c.out.filterMap Engine.reportOf) (hop : op.newId = none) :
      Answered op c c₁ c₁
  | remembered : Answered op c c₁ (op.bindStatus c₁).rememberStatus

/-- Every call is a path between two idle calls, up to the status history. -/
theorem handle_safe {op} (hinv : Inv x (idle false c)) (hstart : c.engine = x.start) (hreq : x.request = some op)
    (hknown : x.Complete) (hrange : c.engine.inRange op) :
    Safe (c.handle clock op) fun c' => ∃ c₁, Leads x c c₁ ∧ Answered op c c₁ c' := by
  have hprocess : ∀ msg : SymbolMsg R, msg.op = op → Safe (c.process clock msg) (Leads x c) := by
    rintro msg rfl
    exact process_safe clock hinv hstart hreq hknown hrange
  cases op with
  | newOrder order owner => exact (hprocess (.order order owner) rfl).bind fun c₁ hc₁ => ⟨c₁, hc₁, .remembered⟩
  | cancel m => exact (hprocess (.cancel m) rfl).bind fun c₁ hc₁ => ⟨c₁, hc₁, .remembered⟩
  | cancelReplace m => exact (hprocess (.cancelReplace m) rfl).bind fun c₁ hc₁ => ⟨c₁, hc₁, .remembered⟩
  | massCancel m =>
    refine (massCancel_safe clock m hinv).mono ?_
    rintro _ ⟨c₁, hpath, rfl⟩
    exact ⟨c₁, hpath, .remembered⟩
  | subscribe owner => exact (subscribe_safe clock owner hinv).mono fun c' h => ⟨c', h.1, .silent h.2 rfl⟩
  | beginOpeningCall =>
    refine (beginOpeningCall_safe clock hinv hstart hreq).mono ?_
    rintro c' (rfl | ⟨c₁, hpath, rfl⟩)
    · exact ⟨c', .refl, .silent rfl rfl⟩
    · exact ⟨c₁, hpath, .remembered⟩
  | tick => exact ⟨c, .refl, .silent rfl rfl⟩

end requests

end Fxp

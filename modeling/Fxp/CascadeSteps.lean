import Fxp.Shadow

/-!
# The stop cascade as a path

Prints trigger parked stops, triggered stops execute, and in the end everything that happened is reported and the
market data is sent. Every stop that executes was parked when the cascade started, so the cascade ends by itself.
-/

namespace Fxp

open OrderBook List

variable {R : Type} {x : Context R} {ts : Time} {c : Call R}

def triggeredTransit (o : Order) : Transit :=
  { order := triggeredType o, filled := some 0, replaced := false, acked := true }

theorem drainTriggered_perm (stops : StopBook) (price : Int) :
    ((stops.drainTriggered price).1 ++ (stops.drainTriggered price).2.parked).Perm stops.parked := by
  simp only [StopBook.drainTriggered, drainTriggeredStops, partition_eq_filter_filter]
  exact ((perm_insertionSort _ _).append_right _).trans (filter_append_perm _ _)

/-- The cascade in the middle of its work: the triggered stops are in transit, with what is to be canceled. -/
def CascadeState.Shadowed (ts : Time) (c : Call R) (s : CascadeState) (w : Progress R) : Prop :=
  ∃ dead, Shadow ts c s.book s.stops s.lastTradePrice s.out (s.queue.map triggeredTransit ++ dead) w ∧
    s.out.cancels = dead.map (fun t => t.order.orderId) ∧ s.book.stp = {} ∧ w.crossed = false

def CascadeState.pending (s : CascadeState) : Nat := s.queue.length + s.stops.parked.length

section scan

variable {w : Progress R} {s : CascadeState}

theorem CascadeState.Shadowed.scanPrint (hinv : Inv x w) (h : s.Shadowed ts c w) (fill : ExecutionReport) :
    ∃ w', Path x w w' ∧ (s.scanPrint fill).Shadowed ts c w' := by
  obtain ⟨dead, hs, hcancels, hstp, hcrossed⟩ := h
  have hstops : w.call.engine.stopBook = s.stops := by rw [hs.call]; rfl
  have hbook : w.call.engine.book = s.book.calm := by rw [hs.call]; rfl
  obtain ⟨w₁, hw₁⟩ : ∃ w₁ : Progress R, w₁ = { w with
    call := w.call.onEngine fun e =>
      { e with stopBook := { parked := (s.stops.drainTriggered fill.tradePrice).2.parked } }
    transit := (s.stops.drainTriggered fill.tradePrice).1.map triggeredTransit ++ w.transit } := ⟨_, rfl⟩
  have step₁ : Step x w w₁ := by
    rw [hw₁]
    exact .trigger (by rw [hstops]; exact drainTriggered_perm ..)
  have hinv₁ := step₁.inv hinv
  have step₂ :
    Step x w₁ { w₁ with call := w₁.call.onEngine fun e => { e with lastTradePrice := some fill.tradePrice } } :=
    .note (hinv₁.silent rfl rfl rfl) fun _ => rfl
  refine ⟨_, (Relation.ReflTransGen.single step₁).tail step₂, dead, ⟨?_, hs.timed, ?_, ?_, ?_, ?_, ?_, ?_⟩,
    hcancels, hstp, ?_⟩
  all_goals rw [hw₁]
  · rw [hs.call]
    rfl
  · show (_ ++ w.transit).Perm _
    rw [CascadeState.scanPrint, map_append, append_assoc]
    exact (hs.transit.append_left _).trans (perm_append_comm_assoc ..)
  · exact hs.rested
  · exact hs.stp
  · exact hs.fills
  · exact hs.auction
  · exact hs.printed
  · exact hcrossed

theorem CascadeState.scanPrint_pending (s : CascadeState) (fill : ExecutionReport) :
    (s.scanPrint fill).pending = s.pending := by
  have hlength := (drainTriggered_perm s.stops fill.tradePrice).length_eq
  simp only [pending, scanPrint, length_append] at hlength ⊢
  omega

theorem CascadeState.Shadowed.scan (hinv : Inv x w) (h : s.Shadowed ts c w) :
    ∃ w', Path x w w' ∧ s.scan.Shadowed ts c w' := by
  have hfold : ∀ (fills : List ExecutionReport) (s : CascadeState) (w : Progress R), Inv x w → s.Shadowed ts c w →
      ∃ w', Path x w w' ∧ (fills.foldl CascadeState.scanPrint s).Shadowed ts c w' := by
    intro fills
    induction fills with
    | nil => exact fun s w _ h => ⟨w, .refl, h⟩
    | cons f _ ih =>
      intro s w hinv h
      obtain ⟨w₁, hpath, h₁⟩ := h.scanPrint hinv f
      obtain ⟨w₂, hpath', h₂⟩ := ih _ w₁ (hpath.inv hinv) h₁
      exact ⟨w₂, hpath.trans hpath', h₂⟩
  exact hfold _ s w hinv h

theorem CascadeState.scan_pending (s : CascadeState) : s.scan.pending = s.pending := by
  have hfold : ∀ (fills : List ExecutionReport) (s : CascadeState),
      (fills.foldl CascadeState.scanPrint s).pending = s.pending := by
    intro fills
    induction fills with
    | nil => exact fun s => rfl
    | cons f _ ih => exact fun s => (ih _).trans (scanPrint_pending s f)
  exact hfold _ s

theorem CascadeState.Shadowed.execute {stop queue} (hinv : Inv x w) (h : s.Shadowed ts c w)
    (hq : s.queue = stop :: queue) :
    ∃ r w', s.book.executeInto stop { s.out with triggered := s.out.triggered ++ [stop.orderId] } = .ok r ∧
      Path x w w' ∧ CascadeState.Shadowed ts c { s with book := r.1, out := r.2.1, queue := queue } w' := by
  obtain ⟨dead, hs, hcancels, hstp, hcrossed⟩ := h
  rw [hq, map_cons, cons_append] at hs
  have hs' : Shadow ts c s.book s.stops s.lastTradePrice { s.out with triggered := s.out.triggered ++ [stop.orderId] }
      (triggeredTransit stop :: (queue.map triggeredTransit ++ dead)) w :=
    ⟨hs.call, hs.timed, hs.transit, hs.rested, hs.stp, hs.fills, hs.auction, hs.printed⟩
  obtain ⟨r, w₁, dead', hr, -, hpath, hexec, hcrossed₁, hstp₁, hcancels₁⟩ :=
    hs'.executeInto hinv hstp hcrossed (show _ = triggeredType stop from rfl) rfl fun _ => rfl
  refine ⟨r, w₁, hr, hpath, dead ++ dead', ⟨hexec.call, hexec.timed, ?_, hexec.rested, hexec.stp, hexec.fills,
    hexec.auction, hexec.printed⟩, ?_, hstp₁, hcrossed₁⟩
  · refine hexec.transit.trans (perm_append_comm.trans ?_)
    rw [append_assoc]
  · rw [map_append, ← hcancels]
    exact hcancels₁

theorem CascadeState.Shadowed.step (hinv : Inv x w) (h : s.Shadowed ts c w) :
    ∃ r, s.step = .ok r ∧ ∀ s', r = some s' → s'.pending < s.pending ∧ ∃ w', Path x w w' ∧ s'.Shadowed ts c w' := by
  unfold CascadeState.step
  rcases hq : s.queue with _ | ⟨stop, queue⟩
  · exact ⟨none, rfl, nofun⟩
  obtain ⟨r, _, hr, hpath, h₁⟩ := h.execute hinv hq
  obtain ⟨w₂, hpath', h₂⟩ := h₁.scan (hpath.inv hinv)
  simp only [hr]
  refine ⟨_, rfl, fun s' hs' => ?_⟩
  cases hs'
  refine ⟨?_, w₂, hpath.trans hpath', h₂⟩
  rw [scan_pending]
  simp [pending, hq]

/-- The cascade runs until no stop is triggered any more. -/
theorem Shadow.runStopCascade {b stops last out dead} (hinv : Inv x w) (h : Shadow ts c b stops last out dead w)
    (hcancels : out.cancels = dead.map fun t => t.order.orderId) (hstp : b.stp = {}) (hcrossed : w.crossed = false) :
    ∃ s w', Fxp.runStopCascade b stops last out = .ok s ∧ Path x w w' ∧ s.Shadowed ts c w' ∧ s.queue = [] := by
  obtain ⟨s₀, hs₀⟩ : ∃ s₀ : CascadeState, s₀ =
    { book := b, stops := stops, lastTradePrice := last, out := out, scanned := 0, queue := [] } := ⟨_, rfl⟩
  have hstart : s₀.Shadowed ts c w := by
    rw [hs₀]
    exact ⟨dead, h, hcancels, hstp, hcrossed⟩
  obtain ⟨w₁, hpath, h₁⟩ := hstart.scan hinv
  have hstep : ∀ s : CascadeState, (∃ w', Path x w w' ∧ s.Shadowed ts c w') → ∃ r, s.step = .ok r ∧
      ∀ s', r = some s' → (∃ w', Path x w w' ∧ s'.Shadowed ts c w') ∧ s'.pending < s.pending := by
    rintro s ⟨w', hpath, h⟩
    obtain ⟨r, hr, hnext⟩ := h.step (hpath.inv hinv)
    refine ⟨r, hr, fun s' hs' => ?_⟩
    obtain ⟨hlt, w₃, hpath', h'⟩ := hnext s' hs'
    exact ⟨⟨w₃, hpath.trans hpath', h'⟩, hlt⟩
  have hfuel : s₀.scan.pending < stops.parked.length + 1 := by
    rw [CascadeState.scan_pending, hs₀]
    simp [CascadeState.pending]
  obtain ⟨s, hs, ⟨w₂, hpath', h₂⟩, hdone⟩ := Loop.runM_done CascadeState.pending hstep ⟨w₁, hpath, h₁⟩ hfuel
  refine ⟨s, w₂, ?_, hpath', h₂, ?_⟩
  · rw [← hs, hs₀]
    rfl
  rcases hq : s.queue with _ | ⟨stop, queue⟩
  · rfl
  · obtain ⟨_, _, hr, -⟩ := h₂.execute (hpath'.inv hinv) hq
    simp only [CascadeState.step, hq, hr] at hdone
    cases hdone

end scan

/-- A call with nothing in transit and nothing waiting to be sent, during an auction or not. -/
def idle (auction : Bool) (c : Call R) : Progress R := { call := c, auction := auction }

theorem foldl_pushMd (ts : Time) (c : Call R) (updates : List MarketDataIncrementalUpdate) :
    updates.foldl (Call.pushMd ts) c = c.send (updates.map fun u => .marketData (buildMdUpdate u ts)) := by
  induction updates generalizing c with
  | nil => simp [Call.send]
  | cons _ _ ih =>
    rw [foldl_cons, ih]
    simp [Call.send, Call.pushMd, Call.push]

private theorem sideToProto_inj {s s'} : sideToProto s = sideToProto s' ↔ s = s' := by
  cases s <;> cases s' <;> simp [sideToProto]

private theorem mdChanges_updates (s : OrderSide) (updates : List MarketDataIncrementalUpdate) (ts : Time) :
    mdChanges s (updates.map fun u => (.marketData (buildMdUpdate u ts) : Output R)) =
      ((changesOf updates).filter (·.side = s)).map MarketOrderUpdate.toWire := by
  have hflat : (updates.map fun u => (.marketData (buildMdUpdate u ts) : Output R)).flatMap mdOf =
      (changesOf updates).map MarketOrderUpdate.toWire := by
    induction updates with
    | nil => rfl
    | cons _ _ ih =>
      rw [map_cons, flatMap_cons, ih]
      simp [mdOf, buildMdUpdate, changesOf]
  rw [mdChanges, hflat, filter_map]
  congr 1
  refine filter_congr fun _ _ => ?_
  simp only [Function.comp_apply, MarketOrderUpdate.toWire, sideToProto_inj]

section report

variable {w : Progress R} {exec : Execution}

theorem Path.flush {updates}
    (h : SideEq (w.rested ++ w.stp ++ w.fills) (changesOf updates)) :
    Path x w { w with call := updates.foldl (Call.pushMd ts) w.call, rested := [], stp := [], fills := [] } := by
  rw [foldl_pushMd]
  refine .single (.flush (fun _ ho => ?_) fun s => ?_)
  · obtain ⟨_, -, rfl⟩ := mem_map.mp ho
    refine ⟨_, rfl, fun _ hc => ?_⟩
    obtain ⟨change, -, rfl⟩ := mem_map.mp hc
    exact ⟨change.side, rfl⟩
  · rw [mdChanges_updates, h s]

/-- The report of an order that leaves the market without a fill. -/
def ReportEvent.Final (ev : ReportEvent) : Prop :=
  (ev.execType ≠ .rejected ∧ ev.execType ≠ .replaced) ∧ (ev.execType ≠ .filled ∧ ev.lastQty = 0) ∧ ev.leaves = 0 ∧
    ev.status.isTerminal = true ∧ ¬ StpReason ev.rejectReason

theorem ReportEvent.Final.of_type {ev : ReportEvent} (h : ev.execType = .canceled ∨ ev.execType = .expired)
    (hqty : ev.lastQty = 0) (hleaves : ev.leaves = 0) (hstatus : ev.status.isTerminal = true)
    (hreason : ¬ StpReason ev.rejectReason) : ev.Final := by
  rcases h with h | h <;> rw [ReportEvent.Final, h] <;>
    exact ⟨⟨ExecutionType.noConfusion, ExecutionType.noConfusion⟩, ⟨ExecutionType.noConfusion, hqty⟩, hleaves, hstatus,
      hreason⟩

theorem Step.dropped {w₁ pl id o st}
    (hst : w.call.engine.states[id]? = some st) (hshift : Shift x w id o .drop pl w₁) {ev}
    (hev : ev.Final) (owner : R) (ts : Time) : Step x w { w₁ with call := w₁.call.tell id none owner st ev ts } := by
  have hprinted : w₁.printed = w.printed := by cases hshift <;> rfl
  have hstep := @Step.edit R x w w₁ pl id o .drop st st 0 owner ev ts hst hshift hev.1 hev.2.1 (fun h => absurd rfl h)
    ⟨rfl, rfl⟩ hev.2.2.1 hev.2.2.2.1 (absurd · hev.2.2.2.2)
  rw [Edit.prints, append_nil, ← hprinted] at hstep
  exact hstep

theorem Path.cancels (dead : List Transit) (hinv : Inv x w) (ht : w.transit.Perm dead) :
    Path x w
      { w with
        call := (dead.map fun t => t.order.orderId).foldl (Call.reportCancel ts) w.call
        transit := [] } := by
  induction dead generalizing w with
  | nil =>
    have hnil := ht.eq_nil
    obtain ⟨_, _, _, _, _, _, _, _⟩ := w
    subst hnil
    exact .refl
  | cons t dead ih =>
    obtain ⟨_, hst, -⟩ := hinv.in_transit (ht.mem_iff.mpr mem_cons_self)
    obtain ⟨l, hl, hshift⟩ := @Shift.of_perm R x w t dead .drop ht trivial (fun _ h => by cases h)
      fun _ h => by cases h
    have hstep : Step x w { w with call := Call.reportCancel ts w.call t.order.orderId, transit := l } := by
      rw [Call.reportCancel_eq hst]
      exact .dropped hst hshift (.of_type (.inl rfl) rfl rfl rfl not_stpReason_empty) ..
    exact .head hstep (ih (hstep.inv hinv) hl)

/-- The calls `c` and `c'` differ in the book, the stops and the last trade price at most. -/
theorem Shadow.rebase {c' b b₀ stops stops₀ last last₀ dead}
    (h : Shadow ts c b stops last exec dead w) (hc : c' = c.withMarket b₀ stops₀ last₀) :
    Shadow ts c' b stops last exec dead w := by
  refine ⟨?_, h.timed, h.transit, h.rested, h.stp, h.fills, h.auction, h.printed⟩
  rw [h.call, hc, Call.replayed_withMarket, Call.withMarket_withMarket]

/-- The cascade after an execution, with the reports and the market data of everything. -/
theorem Shadow.cascade {dead} (hinv : Inv x w)
    (h : Shadow ts c c.engine.book c.engine.stopBook c.engine.lastTradePrice exec dead w)
    (hcancels : exec.cancels = dead.map fun t => t.order.orderId) (hstp : c.engine.book.stp = {})
    (hcrossed : w.crossed = false) : ∃ c', Call.cascade ts exec c = .ok c' ∧ Path x w (idle false c') := by
  obtain ⟨s, w₁, hrun, hpath₁, ⟨dead₁, hs, hcancels₁, hstp₁, hcrossed₁⟩, hqueue⟩ :=
    h.runStopCascade hinv hcancels hstp hcrossed
  rw [hqueue, map_nil, nil_append] at hs
  have hpath₂ := @Path.cancels R x ts w₁ dead₁ (hpath₁.inv hinv) hs.transit
  have hcall : w₁.call = Call.replayed ts s.out.fills s.out.stp (c.withMarket s.book s.stops s.lastTradePrice) := by
    rw [hs.call, Call.replayed_withMarket, OrderBook.calm_eq hstp₁]
  have hpath₃ := @Path.flush R x ts { w₁ with
    call := (dead₁.map fun t => t.order.orderId).foldl (Call.reportCancel ts) w₁.call
    transit := [] } (s.out.rested ++ s.out.stpUpdates ++ s.out.fillUpdates) (by
      rw [changesOf_append, changesOf_append]
      exact (hs.rested.append hs.stp).append hs.fills)
  have hend := (hpath₁.trans hpath₂).trans hpath₃
  have hauction := hs.auction
  have hprinted := hs.printed
  obtain ⟨_, _, _, _, _, _, _, _⟩ := w₁
  simp only at hcall hcrossed₁ hauction hprinted
  subst hcrossed₁ hauction hprinted
  rw [← hcancels₁, hcall] at hend
  refine ⟨_, ?_, hend⟩
  rw [Call.cascade, hrun]
  rfl

end report

end Fxp

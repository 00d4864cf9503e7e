import Fxp.Tracked

/-!
# Reports as a replay

The reports of an execution are built after the matching is over. They could as well have been built while it ran:
`replayed` is what the prints and prevented self-matches so far report, each new print or prevented self-match adds
its own report at the end, and none of this looks at the book.
-/

namespace Fxp

open OrderBook List

variable {R : Type}
variable {fills : List ExecutionReport}

namespace Call

/-- The call with another book, other parked stops and another last trade price. -/
def withMarket (c : Call R) (book : OrderBook) (stops : StopBook) (last : Option Int) : Call R :=
  c.onEngine fun e => { e with book := book, stopBook := stops, lastTradePrice := last }

section market

variable (c : Call R) (b b' : OrderBook) (stops stops' : StopBook) (last last' : Option Int) (ts : Time)

@[simp] theorem withMarket_withMarket :
    (c.withMarket b stops last).withMarket b' stops' last' = c.withMarket b' stops' last' := rfl

@[simp] theorem withMarket_states : (c.withMarket b stops last).engine.states = c.engine.states := rfl

theorem applyFill_withMarket (px : Int) (qty : Nat) (auction : Bool) (id : String) :
    applyFill ts px qty auction (c.withMarket b stops last) id =
      (applyFill ts px qty auction c id).withMarket b stops last := by
  simp only [applyFill, withMarket_states]
  cases c.engine.states[id]? with
  | none => rfl
  | some =>
    simp only
    split <;> rfl

private theorem reportFill_withMarket (f : ExecutionReport) :
    reportFill ts (c.withMarket b stops last) f = (reportFill ts c f).withMarket b stops last := by
  simp only [reportFill, applyFill_withMarket]
  rfl

theorem reportStp_withMarket (event : StpEvent) :
    reportStp ts (c.withMarket b stops last) event = (reportStp ts c event).withMarket b stops last := by
  simp only [reportStp, withMarket_states]
  cases c.engine.states[event.orderId]? with
  | none => rfl
  | some =>
    simp only
    split <;> rfl

theorem foldl_reportStp_withMarket (events : List StpEvent) :
    events.foldl (reportStp ts) (c.withMarket b stops last) =
      (events.foldl (reportStp ts) c).withMarket b stops last := by
  induction events generalizing c with
  | nil => rfl
  | cons _ _ ih => rw [foldl_cons, foldl_cons, reportStp_withMarket, ih]

private theorem reportFills_withMarket (fills : List ExecutionReport) (i : Nat) (stp : List StpEvent) :
    reportFills ts fills i stp (c.withMarket b stops last) =
      ((reportFills ts fills i stp c).1.withMarket b stops last, (reportFills ts fills i stp c).2) := by
  induction fills generalizing c i stp with
  | nil => rfl
  | cons _ _ ih =>
    simp only [reportFills, foldl_reportStp_withMarket, reportFill_withMarket]
    exact ih _ _ _

end market

/-- The reports of the prints, and of the self-matches prevented before, between and after them. -/
def replayed (ts : Time) (fills : List ExecutionReport) (stp : List StpEvent) (c : Call R) : Call R :=
  let r := reportFills ts fills 0 stp c
  r.2.foldl (reportStp ts) r.1

theorem replayed_withMarket (ts : Time) (fills : List ExecutionReport) (stp : List StpEvent) (c : Call R)
    (b : OrderBook) (stops : StopBook) (last : Option Int) :
    replayed ts fills stp (c.withMarket b stops last) = (replayed ts fills stp c).withMarket b stops last := by
  rw [replayed, reportFills_withMarket, foldl_reportStp_withMarket]
  rfl

private theorem span_all {l : List StpEvent} {i : Nat} (h : ∀ e ∈ l, e.beforeFill ≤ i) :
    l.span (fun e => decide (e.beforeFill ≤ i)) = (l, []) := by
  rw [span_eq_takeWhile_dropWhile]
  induction l with
  | nil => rfl
  | cons a _ ih =>
    have ih' := ih fun e he => h e (mem_cons_of_mem _ he)
    rw [Prod.mk.injEq] at ih' ⊢
    simp [h a mem_cons_self, ih'.1, ih'.2]

private theorem span_append {l : List StpEvent} {e : StpEvent} {i : Nat} (h : i < e.beforeFill) :
    (l ++ [e]).span (fun e => decide (e.beforeFill ≤ i)) =
      ((l.span (fun e => decide (e.beforeFill ≤ i))).1, (l.span (fun e => decide (e.beforeFill ≤ i))).2 ++ [e]) := by
  simp only [span_eq_takeWhile_dropWhile, Prod.mk.injEq]
  induction l with
  | nil => simp [h]
  | cons a _ ih =>
    by_cases ha : a.beforeFill ≤ i
    · simp [ha, ih.1, ih.2]
    · simp [ha]

private theorem mem_span_snd {l : List StpEvent} {e : StpEvent} {i : Nat}
    (h : e ∈ (l.span (fun e => decide (e.beforeFill ≤ i))).2) : e ∈ l := by
  rw [span_eq_takeWhile_dropWhile] at h
  exact (dropWhile_suffix _).subset h

private theorem reportFills_append (ts : Time) {i : Nat} {stp : List StpEvent}
    (f : ExecutionReport) (h : ∀ e ∈ stp, e.beforeFill ≤ i + fills.length) (c : Call R) :
    reportFills ts (fills ++ [f]) i stp c =
      (reportFill ts ((reportFills ts fills i stp c).2.foldl (reportStp ts) (reportFills ts fills i stp c).1) f,
        []) := by
  induction fills generalizing i stp c with
  | nil =>
    simp only [nil_append, reportFills]
    rw [span_all (by simpa using h)]
  | cons _ _ ih =>
    simp only [cons_append, reportFills]
    refine ih (fun e he => ?_) _
    have := h e (mem_span_snd he)
    rw [length_cons] at this
    omega

private theorem reportFills_event (ts : Time) {i : Nat} {stp : List StpEvent}
    {e : StpEvent} (h : e.beforeFill = i + fills.length) (c : Call R) :
    reportFills ts fills i (stp ++ [e]) c =
      ((reportFills ts fills i stp c).1, (reportFills ts fills i stp c).2 ++ [e]) := by
  induction fills generalizing i stp c with
  | nil => rfl
  | cons _ _ ih =>
    rw [length_cons] at h
    simp only [reportFills]
    rw [span_append (by omega)]
    exact ih (by omega) _

theorem replayed_fill (ts : Time) {stp} (f : ExecutionReport)
    (h : ∀ e ∈ stp, e.beforeFill ≤ fills.length) (c : Call R) :
    replayed ts (fills ++ [f]) stp c = reportFill ts (replayed ts fills stp c) f := by
  rw [replayed, reportFills_append ts f (by simpa using h)]
  rfl

theorem replayed_events (ts : Time) {stp events}
    (h : ∀ e ∈ events, e.beforeFill = fills.length) (c : Call R) :
    replayed ts fills (stp ++ events) c = events.foldl (reportStp ts) (replayed ts fills stp c) := by
  induction events generalizing stp with
  | nil => simp
  | cons e events ih =>
    have hsplit : stp ++ e :: events = (stp ++ [e]) ++ events := by simp
    rw [hsplit, ih fun e' he' => h e' (mem_cons_of_mem _ he'), foldl_cons]
    congr 1
    rw [replayed, reportFills_event ts (by simpa using h e mem_cons_self), foldl_append]
    rfl

variable {id : String} {o : Order} {st : OrderState R}

theorem applyFill_eq {c} (hst : c.engine.states[id]? = some st) (hagrees : Agrees id o st) (ts : Time)
    (px : Int) {q : Nat} (auction : Bool) (hq : q ≤ o.quantity) :
    applyFill ts px q auction c id =
      c.tell id (if o.quantity - q = 0 then none else some (Edit.state o px st (.fill q))) st.outputTx
        (Edit.state o px st (.fill q))
        { execType := .filled
          status := if o.quantity - q = 0 then .filled else .partiallyFilled
          lastPx := px
          lastQty := q
          leaves := o.quantity - q
          auction := auction } ts := by
  have hleaves : (Edit.state o px st (.fill q)).leaves = o.quantity - q := by
    have := hagrees.quantity
    simp only [OrderState.leaves, Edit.state]
    omega
  have hdef : applyFill ts px q auction c id =
      let st' := Edit.state o px st (.fill q)
      let c' := c.report st.outputTx id (some st')
        { execType := .filled
          status := if st'.leaves = 0 then .filled else .partiallyFilled
          lastPx := px
          lastQty := q
          leaves := st'.leaves
          auction := auction } ts
      if st'.leaves = 0 then c'.dropState id else c'.setState id st' := by
    have hcum : Checked.wrapU32 (st.cumQty + q) = st.cumQty + q := by
      refine Checked.wrapU32_of_lt ?_
      have := hagrees.quantity
      have := hagrees.total
      omega
    simp only [applyFill, hst, hcum]
    rfl
  simp only [hdef, hleaves]
  by_cases hz : o.quantity - q = 0
  · rw [if_pos hz, if_pos hz, if_pos hz]
    rfl
  · rw [if_neg hz, if_neg hz, if_neg hz]
    rfl

theorem reportStp_eq {c e} {n : Nat} (he : e.orderId = id)
    (hst : c.engine.states[id]? = some st) (ts : Time)
    (hact : e.action = if n = 0 then .canceled else .restated (o.quantity - n)) :
    ∃ ev : ReportEvent, reportStp ts c e =
        c.tell id (if n = 0 then none else some (Edit.state o 0 st (.cut n))) st.outputTx
          (if n = 0 then st else Edit.state o 0 st (.cut n)) ev ts ∧
      (ev.execType ≠ .rejected ∧ ev.execType ≠ .replaced) ∧ Edit.Tells 0 ev (.cut n) ∧
      (if n = 0 then ev.leaves = 0 else ev.leaves = (Edit.state o 0 st (.cut n)).leaves) ∧
      ev.status.isTerminal = decide (n = 0) := by
  subst he
  by_cases hn : n = 0
  · rw [if_pos hn] at hact
    simp only [if_pos hn]
    refine ⟨{ execType := .canceled, status := .canceled
              rejectReason := "self-trade prevention (" ++ e.mode.asStr ++ ")" }, ?_,
      ⟨ExecutionType.noConfusion, ExecutionType.noConfusion⟩, ⟨ExecutionType.noConfusion, rfl⟩, rfl,
      (decide_eq_true hn).symm⟩
    simp only [reportStp, hst, hact]
    rfl
  · rw [if_neg hn] at hact
    simp only [if_neg hn]
    refine ⟨{ execType := .restated
              status := if 0 < (Edit.state o 0 st (.cut n)).cumQty then .partiallyFilled else .new
              leaves := (Edit.state o 0 st (.cut n)).leaves
              rejectReason := "self-trade prevention (" ++ e.mode.asStr ++ ")" }, ?_,
      ⟨ExecutionType.noConfusion, ExecutionType.noConfusion⟩, ⟨ExecutionType.noConfusion, rfl⟩, rfl, ?_⟩
    · simp only [reportStp, hst, hact]
      rfl
    rw [decide_eq_false hn]
    simp only
    split <;> rfl

theorem reportCancel_eq {c} (hst : c.engine.states[id]? = some st) (ts : Time) :
    reportCancel ts c id =
      c.tell id none st.outputTx st { execType := .canceled, status := .canceled } ts := by
  simp only [reportCancel, hst]
  rfl

end Call

end Fxp

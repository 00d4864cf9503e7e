import Fxp.Safety

/-!
# Rejected requests

A request is answered by one reject that touches no order, or by reports none of which is a reject.  So a call with a
reject leaves the market as its tick left it, and nobody can tell a foreign order from one that does not exist.
-/

namespace Fxp

open Checked List

variable {R : Type}
variable {cfg : Settings}
variable {owner : R} {id sender : String} {m : CancelReplaceMsg R} {arrival : Nat}

def isReject : Output R → Bool
  | .executionReport _ r => r.executionType = .rejected
  | _ => false

/-- From `c` to `c'` nothing was rejected. -/
def NoReject (c c' : Call R) : Prop := ∃ l, c'.out = c.out ++ l ∧ ∀ o ∈ l, isReject o = false

section noReject

variable {c c₁ c₂ : Call R}

theorem NoReject.of_out (h : c₁.out = c.out) : NoReject c c₁ :=
  ⟨[], by rw [h, append_nil], fun _ ho => absurd ho not_mem_nil⟩

theorem NoReject.trans (h₁ : NoReject c c₁) (h₂ : NoReject c₁ c₂) : NoReject c c₂ := by
  obtain ⟨l₁, hout₁, hl₁⟩ := h₁
  obtain ⟨l₂, hout₂, hl₂⟩ := h₂
  refine ⟨l₁ ++ l₂, by rw [hout₂, hout₁, append_assoc], fun o ho => ?_⟩
  rcases mem_append.mp ho with ho | ho
  · exact hl₁ o ho
  · exact hl₂ o ho

theorem NoReject.push {o} (h : isReject o = false) (hout : c₁.out = c.out ++ [o]) : NoReject c c₁ :=
  ⟨[o], hout, fun _ ho' => by rwa [mem_singleton.mp ho']⟩

theorem NoReject.foldl {α : Type} {f : Call R → α → Call R} (h : NoReject c c₁) (hf : ∀ c a, NoReject c (f c a))
    (l : List α) : NoReject c (l.foldl f c₁) := by
  induction l generalizing c₁ with
  | nil => exact h
  | cons a _ ih => exact ih (h.trans (hf c₁ a))

theorem NoReject.report (h : NoReject c c₁) {st ev ts} (hev : decide (ev.execType = .rejected) = false) :
    NoReject c (c₁.report owner id st ev ts) := by
  refine h.trans ⟨[_], rfl, fun _ ho => ?_⟩
  rw [mem_singleton.mp ho]
  exact hev

theorem NoReject.pushMd (h : NoReject c c₁) (ts : Time) (inc : MarketDataIncrementalUpdate) :
    NoReject c (c₁.pushMd ts inc) :=
  h.trans (.push rfl rfl)

private theorem applyFill_noReject (ts : Time) (px : Int) (qty : Nat) (auction : Bool) (c : Call R) (id : String) :
    NoReject c (c.applyFill ts px qty auction id) := by
  unfold Call.applyFill
  split
  · exact .of_out rfl
  simp only
  split <;> exact ((NoReject.of_out rfl).report rfl).trans (.of_out rfl)

private theorem reportStp_noReject (ts : Time) (c : Call R) (event : StpEvent) : NoReject c (c.reportStp ts event) := by
  unfold Call.reportStp
  simp only
  split
  · exact .of_out rfl
  split <;> exact NoReject.report (.of_out rfl) rfl

private theorem reportCancel_noReject (ts : Time) (c : Call R) (id : String) : NoReject c (c.reportCancel ts id) := by
  unfold Call.reportCancel
  split
  · exact .of_out rfl
  · exact NoReject.report (.of_out rfl) rfl

private theorem reportFill_noReject (ts : Time) (c : Call R) (f : ExecutionReport) :
    NoReject c (c.reportFill ts f) := by
  have hbuy := applyFill_noReject ts f.tradePrice f.tradeQuantity false c f.buyOrderId
  have hsell := hbuy.trans (applyFill_noReject ts f.tradePrice f.tradeQuantity false _ f.sellOrderId)
  exact hsell.trans (.push rfl rfl)

private theorem reportFills_noReject (ts : Time) (fills : List ExecutionReport) (i : Nat) (stp : List StpEvent)
    (c : Call R) : NoReject c (c.reportFills ts fills i stp).1 := by
  induction fills generalizing c i stp with
  | nil => exact .of_out rfl
  | cons f _ ih =>
    rw [Call.reportFills]
    have hdue := (NoReject.of_out (c := c) rfl).foldl (reportStp_noReject ts) (stp.span (·.beforeFill ≤ i)).1
    exact (hdue.trans (reportFill_noReject ts _ f)).trans (ih _ _ _)

private theorem reportExecution_noReject (ts : Time) (exec : Execution) (c : Call R) :
    NoReject c (c.reportExecution ts exec) := by
  have hfills := reportFills_noReject ts exec.fills 0 exec.stp c
  have hstp := hfills.foldl (reportStp_noReject ts) (c.reportFills ts exec.fills 0 exec.stp).2
  have hcancels := hstp.foldl (reportCancel_noReject ts) exec.cancels
  exact hcancels.foldl (fun c => (NoReject.of_out rfl).pushMd ts) _

theorem cascade_noReject {ts : Time} {exec : Execution} {c c' : Call R} (h : c.cascade ts exec = .ok c') :
    NoReject c c' := by
  obtain ⟨_, -, h⟩ := bind_eq_ok.mp h
  cases h
  exact (NoReject.of_out rfl).trans (reportExecution_noReject ts _ _)

private theorem takeOver_noReject (h : NoReject c c₁) (m : CancelReplaceMsg R) (st : OrderState R) (ts : Time) :
    NoReject c (c₁.takeOver m st ts) := by
  have hdrop : NoReject c (c₁.dropState m.orderId) := h.trans (.of_out rfl)
  exact ((hdrop.report rfl).report rfl).trans (.of_out rfl)

end noReject

/-- The request about `id` was rejected, and nothing else happened. -/
def Refused (id : String) (c c' : Call R) : Prop :=
  ∃ owner st ev ts, ev.execType = .rejected ∧ c' = c.report owner id st ev ts

/-- The replace was accepted: its two reports come first, and nothing is rejected. -/
def Taken (m : CancelReplaceMsg R) (c c' : Call R) : Prop :=
  ∃ (c₁ : Call R) (st : OrderState R) (ts : Time), c₁.out = c.out ∧ NoReject (c₁.takeOver m st ts) c'

section answers

variable {c c' : Call R} {clock : Clock}

theorem Taken.noReject (h : Taken m c c') : NoReject c c' := by
  obtain ⟨_, st, ts, hout, hno⟩ := h
  exact (takeOver_noReject (.of_out hout) m st ts).trans hno

private theorem takeOver_taken {c₁ : Call R} (hout : c₁.out = c.out) (m : CancelReplaceMsg R)
    (st : OrderState R) (ts : Time) : Taken m c (c₁.takeOver m st ts) := ⟨c₁, st, ts, hout, .of_out rfl⟩

theorem Taken.trans {c₁ c₂} (h : Taken m c c₁) (hno : NoReject c₁ c₂) : Taken m c c₂ := by
  obtain ⟨c₀, st, ts, hout, hno₀⟩ := h
  exact ⟨c₀, st, ts, hout, hno₀.trans hno⟩

theorem Taken.pushMd {c₁} (h : Taken m c c₁) (ts : Time) (inc : MarketDataIncrementalUpdate) :
    Taken m c (c₁.pushMd ts inc) := h.trans (.push rfl rfl)

private theorem preflightCancel_answer {m} (h : c.preflightCancel clock m = .ok c') :
    Refused m.orderId c c' ∨ NoReject c c' := by
  obtain ⟨_, -, h⟩ := bind_eq_ok.mp h
  split at h
  · cases h
    exact .inl ⟨_, _, _, _, rfl, rfl⟩
  obtain ⟨⟨_, _⟩, -, h⟩ := bind_eq_ok.mp h
  obtain ⟨_, -, h⟩ := bind_eq_ok.mp h
  cases h
  exact .inr (NoReject.report (.of_out rfl) rfl)

private theorem processCancel_answer {m} : Refused m.orderId c (c.processCancel clock m) ∨
    NoReject c (c.processCancel clock m) := by
  unfold Call.processCancel
  simp only
  split
  · exact .inl ⟨_, _, _, _, rfl, rfl⟩
  · refine .inr (NoReject.foldl ?_ (fun c => (NoReject.of_out rfl).pushMd _) _)
    exact NoReject.report (.of_out rfl) rfl

private theorem replaceCallMarket_answer {old} (h : c.replaceCallMarket clock m old = .ok c') :
    Refused m.orderId c c' ∨ Taken m c c' := by
  obtain ⟨_, -, h⟩ := bind_eq_ok.mp h
  split at h
  · cases h
    exact .inl ⟨_, _, _, _, rfl, rfl⟩
  obtain ⟨_, -, h⟩ := bind_eq_ok.mp h
  obtain ⟨_, -, h⟩ := bind_eq_ok.mp h
  refine .inr ?_
  simp only at h
  split at h
  · cases h
    exact (takeOver_taken rfl m _ _).trans (.of_out rfl)
  · cases h
    exact (takeOver_taken rfl m _ _).trans (.of_out rfl)

theorem fireStop_noReject {stop ts} (h : c.fireStop stop ts = .ok c') : NoReject c c' := by
  unfold Call.fireStop at h
  split at h
  · cases h
  obtain ⟨⟨_, _, _⟩, -, h⟩ := bind_eq_ok.mp h
  refine NoReject.trans ?_ (cascade_noReject h)
  exact .of_out rfl

private theorem replaceStop_answer {newTif}
    (h : c.replaceStop clock m newTif arrival = .ok c') : Refused m.orderId c c' ∨ Taken m c c' := by
  unfold Call.replaceStop at h
  simp only at h
  split at h
  · cases h
    exact .inl ⟨_, _, _, _, rfl, rfl⟩
  refine .inr ?_
  split at h
  · refine Taken.trans ?_ (fireStop_noReject h)
    exact takeOver_taken rfl m _ _
  · cases h
    exact takeOver_taken rfl m _ _

private theorem replaceResting_answer {newTif}
    (h : c.replaceResting clock m newTif arrival = .ok c') : Refused m.orderId c c' ∨ Taken m c c' := by
  unfold Call.replaceResting at h
  simp only at h
  split at h
  · cases h
    exact .inl ⟨_, _, _, _, rfl, rfl⟩
  refine .inr ?_
  obtain ⟨_, -, h⟩ := bind_eq_ok.mp h
  split at h
  · obtain ⟨_, -, h⟩ := bind_eq_ok.mp h
    cases h
    exact ((takeOver_taken rfl m _ _).trans (.of_out rfl)).pushMd _ _
  split at h
  · cases h
    exact (takeOver_taken rfl m _ _).pushMd _ _
  obtain ⟨⟨_, _⟩, -, h⟩ := bind_eq_ok.mp h
  refine Taken.trans (Taken.pushMd (Taken.trans ?_ (.of_out rfl)) _ _) (cascade_noReject h)
  exact takeOver_taken rfl m _ _

private theorem processReplace_answer (h : c.processReplace clock m arrival = .ok c') :
    Refused m.orderId c c' ∨ Taken m c c' := by
  unfold Call.processReplace at h
  simp only at h
  split at h
  · cases h
    exact .inl ⟨_, _, _, _, rfl, rfl⟩
  split at h
  · cases h
    exact .inl ⟨_, _, _, _, rfl, rfl⟩
  split at h
  · exact replaceStop_answer h
  · exact replaceResting_answer h

private theorem processOrder_answer {order}
    (h : c.processOrder clock order owner arrival = .ok c') :
    Refused order.orderId c c' ∨ (c.engine.states[order.orderId]? = none ∧ NoReject c c') := by
  unfold Call.processOrder at h
  simp only at h
  split at h
  · cases h
    exact .inl ⟨_, _, _, _, rfl, rfl⟩
  rename_i hvalid
  obtain ⟨_, _, _, _, hadm⟩ := invalidReason_none hvalid
  obtain ⟨o, -, h⟩ := bind_eq_ok.mp h
  have hack :
    ∀ st : OrderState R, NoReject c ((c.acknowledge owner o.orderId st (clock .request)).setState o.orderId st) :=
    fun st => ((NoReject.of_out (c := c) rfl).report rfl).trans (.of_out rfl)
  split at h
  · cases h
    exact .inl ⟨_, _, _, _, rfl, rfl⟩
  refine .inr ⟨hadm.fresh, ?_⟩
  split at h
  · cases h
    exact (hack _).trans (.of_out rfl)
  split at h
  · cases h
    refine (hack (OrderState.new order o.quantity owner arrival)).trans ?_
    unfold Call.queueOrder
    simp only
    split
    · exact .of_out rfl
    split
    · exact .of_out rfl
    · exact NoReject.pushMd (.of_out rfl) _ _
  · obtain ⟨⟨_, _, _⟩, -, h⟩ := bind_eq_ok.mp h
    refine NoReject.trans ?_ (cascade_noReject h)
    split
    · exact NoReject.report (.of_out rfl) rfl
    · exact .of_out rfl

def SymbolMsg.target : SymbolMsg R → String
  | .order o _ => o.orderId
  | .cancel m => m.orderId
  | .cancelReplace m => m.orderId

/-- A replace is rejected once, or its order is live and its new id is free. -/
theorem dispatch_replace (h : c.dispatch clock (.cancelReplace m) arrival = .ok c') :
    Refused m.orderId c c' ∨ (Taken m c c' ∧ (∃ st, c.engine.states[m.orderId]? = some st) ∧
      (m.newOrderId ≠ m.orderId → c.engine.states[m.newOrderId]? = none)) := by
  obtain ⟨⟨_, _⟩, hpre, h⟩ := bind_eq_ok.mp h
  simp only [Call.preflight] at hpre
  split at hpre
  · cases hpre
    cases h
    exact .inl ⟨_, _, _, _, rfl, rfl⟩
  rename_i hreason
  obtain ⟨st, _, hr⟩ := replaceReason_none hreason
  have htaken : Refused m.orderId c c' ∨ Taken m c c' := by
    split at hpre
    · cases hpre
      exact processReplace_answer h
    obtain ⟨_, hc₂, hpre⟩ := bind_eq_ok.mp hpre
    cases hpre
    cases h
    exact replaceCallMarket_answer hc₂
  exact htaken.imp_right fun htaken => ⟨htaken, ⟨st, hr.state⟩, hr.fresh⟩

/-- A request is rejected once, or not at all. -/
theorem dispatch_answer {msg} (h : c.dispatch clock msg arrival = .ok c') :
    Refused msg.target c c' ∨ NoReject c c' := by
  cases msg with
  | order order => exact (processOrder_answer h).imp_right And.right
  | cancel =>
    obtain ⟨⟨_, _⟩, hpre, h⟩ := bind_eq_ok.mp h
    simp only [Call.preflight] at hpre
    split at hpre
    · obtain ⟨_, hc₂, hpre⟩ := bind_eq_ok.mp hpre
      cases hpre
      cases h
      exact preflightCancel_answer hc₂
    · cases hpre
      cases h
      exact processCancel_answer
  | cancelReplace => exact (dispatch_replace h).imp_right fun h => h.1.noReject

end answers

section tidy

variable {e e' : Engine R} {c c' : Call R} {clock : Clock}

/-- To publish the indicative again would change nothing. -/
def Engine.Fresh (e : Engine R) : Prop :=
  isCall e.phase = true → ∃ orders r, e.auctionOrders = .ok orders ∧ uncross orders e.lastTradePrice = .ok r ∧
    e.lastIndicative = some r

theorem Engine.Fresh.sameMarket (h : e.Fresh) (he : e.SameMarket e') : e'.Fresh := by
  rw [he]
  exact h

theorem publishIndicative_of_fresh (h : c.engine.Fresh) (instant : Time) : c.publishIndicative instant = .ok c := by
  unfold Call.publishIndicative
  simp only
  split
  · rfl
  rename_i hcall
  obtain ⟨_, _, horders, hr, hlast⟩ := h (by simpa using hcall)
  rw [horders, ok_bind, hr, ok_bind, if_pos hlast]

theorem publishIndicative_fresh {instant} (h : c.publishIndicative instant = .ok c') :
    c'.engine.Fresh ∧ NoReject c c' ∧ c'.engine = { c.engine with lastIndicative := c'.engine.lastIndicative } := by
  unfold Call.publishIndicative at h
  simp only at h
  split at h
  · rename_i hcall
    cases h
    exact ⟨fun hphase => by simp [hphase] at hcall, .of_out rfl, rfl⟩
  obtain ⟨orders, horders, h⟩ := bind_eq_ok.mp h
  obtain ⟨r, hr, h⟩ := bind_eq_ok.mp h
  split at h
  · cases h
    exact ⟨fun _ => ⟨orders, r, horders, hr, ‹_›⟩, .of_out rfl, rfl⟩
  · cases h
    exact ⟨fun _ => ⟨orders, r, horders, hr, rfl⟩, .push rfl rfl, rfl⟩

/-- What holds of an engine whenever no call is on: the indicative is up to date, and nothing is to be forgotten. -/
structure Engine.Tidy (e : Engine R) : Prop where
  fresh : e.Fresh
  trimmed : e.terminalHistory.length ≤ Engine.historyLimit

theorem Engine.forgetStep_shorter (h : e.forgetStep = some e') :
    e'.terminalHistory.length < e.terminalHistory.length := by
  unfold Engine.forgetStep at h
  split at h
  · split at h
    · cases h
    rename_i hlist
    rw [hlist]
    simp only at h
    split at h <;> cases h <;> exact Nat.lt_succ_self _
  · cases h

theorem Engine.forgetStep_none (h : e.forgetStep = none) : e.terminalHistory.length ≤ Engine.historyLimit := by
  unfold Engine.forgetStep at h
  split at h
  · split at h
    · rename_i hlist
      rw [hlist]
      exact Nat.zero_le _
    · simp only at h
      split at h <;> cases h
  · omega

theorem Engine.Fresh.tidy (h : e.Fresh) (out : List (Output R)) : (e.rememberStatus out).Tidy := by
  refine ⟨h.sameMarket (e.rememberStatus_market out), Engine.forgetStep_none ?_⟩
  exact Loop.run_done (P := fun _ => True) (fun e : Engine R => e.terminalHistory.length)
    (fun _ _ _ hstep => ⟨trivial, Engine.forgetStep_shorter hstep⟩) trivial (Nat.lt_succ_self _)

theorem Engine.Tidy.rememberStatus (h : e.Tidy) {out}
    (hout : ∀ o ∈ out, ∀ r, Engine.reportOf o = some r → r.executionType = .rejected) : e.rememberStatus out = e := by
  have hfold : ∀ l : List Report, (∀ r ∈ l, r.executionType = .rejected) → l.foldl Engine.rememberReport e = e := by
    intro l
    induction l with
    | nil => exact fun _ => rfl
    | cons r _ ih =>
      intro hl
      rw [foldl_cons, Engine.rememberReport, if_pos (hl r mem_cons_self)]
      exact ih fun r hr => hl r (mem_cons_of_mem _ hr)
  have hnone : e.forgetStep = none := by
    rw [Engine.forgetStep, if_neg (Nat.not_lt.mpr h.trimmed)]
  rw [Engine.rememberStatus, hfold, Loop.run, hnone]
  intro r hr
  obtain ⟨o, ho, hor⟩ := mem_filterMap.mp hr
  exact hout o ho r hor

theorem Engine.Tidy.new (cfg : Settings) :
    (Engine.new cfg : Engine R).Tidy := by
  have hempty : (Engine.new cfg : Engine R).participants = [] := by
    refine eq_nil_iff_forall_not_mem.mpr fun _ ho => ?_
    simp [Engine.participants, Engine.new, OrderBook.new, Maps.Iteration.mem_values] at ho
  refine ⟨fun _ => ⟨[], {}, ?_, rfl, rfl⟩, Nat.zero_le _⟩
  rw [Engine.auctionOrders, hempty]
  rfl

theorem Engine.Tidy.tick {now} (h : e.Tidy) (htick : e.tick now = .ok c) : c.engine.Tidy := by
  obtain ⟨_, hadvance, htick⟩ := bind_eq_ok.mp htick
  cases htick
  obtain ⟨⟨cursor, _⟩, hloop, hadvance⟩ := bind_eq_ok.mp hadvance
  cases hadvance
  refine Engine.Fresh.tidy ?_ _
  refine Loop.runM_induct (P := fun s : Time × Call R => s.2.engine.Fresh) ?_ h.fresh hloop
  rintro ⟨_, _⟩ ⟨_, _⟩ - hstep
  simp only [Call.advanceStep] at hstep
  split at hstep
  · split at hstep
    · cases hstep
    split at hstep
    · cases hstep
    obtain ⟨_, -, hstep⟩ := bind_eq_ok.mp hstep
    obtain ⟨_, -, hstep⟩ := bind_eq_ok.mp hstep
    obtain ⟨_, hpublish, hstep⟩ := bind_eq_ok.mp hstep
    cases hstep
    exact (publishIndicative_fresh hpublish).1
  · cases hstep

private theorem process_fresh {msg} (h : c.process clock msg = .ok c') : c'.engine.Fresh := by
  obtain ⟨_, -, hpublish⟩ := bind_eq_ok.mp h
  exact (publishIndicative_fresh hpublish).1

theorem Engine.Tidy.handle {op} (h : c.engine.Tidy) (hcall : c.handle clock op = .ok c') : c'.engine.Tidy := by
  cases op with
  | newOrder order owner =>
    obtain ⟨c₁, hprocess, hcall⟩ := bind_eq_ok.mp hcall
    cases hcall
    exact ((process_fresh hprocess).sameMarket ((Op.newOrder order owner).bindStatus_market c₁).1).tidy _
  | cancel =>
    obtain ⟨_, hprocess, hcall⟩ := bind_eq_ok.mp hcall
    cases hcall
    exact (process_fresh hprocess).tidy _
  | cancelReplace m =>
    obtain ⟨c₁, hprocess, hcall⟩ := bind_eq_ok.mp hcall
    cases hcall
    exact ((process_fresh hprocess).sameMarket ((Op.cancelReplace m).bindStatus_market c₁).1).tidy _
  | massCancel =>
    obtain ⟨_, -, hcall⟩ := bind_eq_ok.mp hcall
    obtain ⟨_, hpublish, hcall⟩ := bind_eq_ok.mp hcall
    cases hcall
    exact (publishIndicative_fresh hpublish).1.tidy _
  | subscribe =>
    obtain ⟨_, -, hcall⟩ := bind_eq_ok.mp hcall
    obtain ⟨hfresh, -, heq⟩ := publishIndicative_fresh hcall
    refine ⟨hfresh, ?_⟩
    rw [heq]
    exact h.trimmed
  | beginOpeningCall =>
    simp only [Call.handle, Call.beginOpeningCall] at hcall
    split at hcall
    · cases hcall
      exact h
    obtain ⟨_, hpublish, hcall⟩ := bind_eq_ok.mp hcall
    cases hcall
    exact (publishIndicative_fresh hpublish).1.tidy _
  | tick =>
    cases hcall
    exact h

end tidy

section rejected

variable {e e' : Engine R} {out : List (Output R)} {c c' cᵥ cᵤ : Call R} {clock : Clock} {msg : SymbolMsg R}

/-- The request was answered with `r` and nothing else, before the reports are remembered. -/
def Call.refuse (c : Call R) (owner : R) (r : Report) : Call R :=
  { engine := { c.engine with nextArrival := c.engine.nextArrival + 1, issued := c.engine.issued + 1 }
    out := c.out ++ [.executionReport owner r] }

private theorem handle_eq (c : Call R) (clock : Clock) (msg : SymbolMsg R) : c.handle clock msg.op =
    c.process clock msg >>= fun c' => .ok (msg.op.bindStatus c').rememberStatus := by
  cases msg <;> rfl

private theorem process_answer (hfresh : c.engine.Fresh) (h : c.process clock msg = .ok c') :
    (∃ owner r, r.orderId = msg.target ∧ r.executionType = .rejected ∧ c' = c.refuse owner r) ∨ NoReject c c' := by
  obtain ⟨c₁, hdispatch, hpublish⟩ := bind_eq_ok.mp h
  rcases dispatch_answer hdispatch with ⟨owner, _, _, _, hev, hc₁⟩ | hc₁
  · have hfresh₁ : c₁.engine.Fresh := by
      rw [hc₁]
      exact hfresh
    rw [publishIndicative_of_fresh hfresh₁] at hpublish
    cases hpublish
    exact .inl ⟨owner, _, rfl, hev, hc₁⟩
  · exact .inr ((NoReject.trans (.of_out rfl) hc₁).trans (publishIndicative_fresh hpublish).2.1)

/-- A call whose request has got its arrival number. -/
def Call.numbered (c : Call R) : Call R := c.onEngine fun e => { e with nextArrival := e.nextArrival + 1 }

/-- The request about `id` was rejected, and no order changed. -/
def Denied (id : String) (c c' : Call R) : Prop :=
  c'.engine.states = c.engine.states ∧
    ∃ (owner : R) (r : Report), r.orderId = id ∧ r.executionType = .rejected ∧
    c'.out = c.out ++ [.executionReport owner r]

private theorem handle_dispatch (hfresh : c.engine.Fresh) (h : c.handle clock msg.op = .ok c') :
    ∃ c₁, c.numbered.dispatch clock msg (c.engine.nextArrival + 1) = .ok c₁ ∧
      (∀ id, Refused id c.numbered c₁ → Denied id c c') ∧ NoReject c₁ c' := by
  rw [handle_eq] at h
  obtain ⟨c₂, hprocess, h⟩ := bind_eq_ok.mp h
  cases h
  obtain ⟨c₁, hdispatch, hpublish⟩ := bind_eq_ok.mp hprocess
  obtain ⟨hbind, hout⟩ := msg.op.bindStatus_market c₂
  have hmarket := hbind.trans (Engine.rememberStatus_market _ (msg.op.bindStatus c₂).out)
  refine ⟨c₁, hdispatch, ?_, (publishIndicative_fresh hpublish).2.1.trans (.of_out hout)⟩
  rintro id ⟨owner, st, ev, ts, hev, hc₁⟩
  have hfresh₁ : c₁.engine.Fresh := by
    rw [hc₁]
    exact hfresh
  rw [publishIndicative_of_fresh hfresh₁] at hpublish
  cases hpublish
  refine ⟨?_, owner, buildReport (c.engine.ids c.engine.issued) id c.engine.symbol st ev ts, rfl, hev, ?_⟩
  · rw [Call.rememberStatus]
    simp only
    rw [hmarket, hc₁]
    rfl
  · refine hout.trans ?_
    rw [hc₁]
    rfl

theorem handle_newOrder {order} (hfresh : c.engine.Fresh)
    (h : c.handle clock (.newOrder order owner) = .ok c') :
    Denied order.orderId c c' ∨ (c.engine.states[order.orderId]? = none ∧ NoReject c c') := by
  obtain ⟨_, hdispatch, hdenied, hno⟩ := @handle_dispatch R c c' clock (.order order owner) hfresh h
  rcases processOrder_answer hdispatch with hrefused | ⟨hnone, hno'⟩
  · exact .inl (hdenied _ hrefused)
  · exact .inr ⟨hnone, (NoReject.trans (.of_out rfl) hno').trans hno⟩

theorem handle_cancelReplace (hfresh : c.engine.Fresh)
    (h : c.handle clock (.cancelReplace m) = .ok c') :
    Denied m.orderId c c' ∨ (Taken m c c' ∧ (∃ st, c.engine.states[m.orderId]? = some st) ∧
      (m.newOrderId ≠ m.orderId → c.engine.states[m.newOrderId]? = none)) := by
  obtain ⟨_, hdispatch, hdenied, hno⟩ := @handle_dispatch R c c' clock (.cancelReplace m) hfresh h
  rcases dispatch_replace hdispatch with hrefused | ⟨⟨c₀, st, ts, hout, htaken⟩, hlive⟩
  · exact .inl (hdenied _ hrefused)
  · exact .inr ⟨⟨c₀, st, ts, hout, htaken.trans hno⟩, hlive⟩

/-- The outputs that a call has put out since `c`. -/
def Call.since (c c' : Call R) : List (Output R) := c'.out.drop c.out.length

theorem Call.since_of_append {l} (h : c'.out = c.out ++ l) : c.since c' = l := by
  rw [Call.since, h, drop_left]

private theorem handle_answer (hfresh : c.engine.Fresh) (h : c.handle clock msg.op = .ok c')
    (hreject : ∃ o ∈ c.since c', isReject o = true) : ∃ owner r, r.orderId = msg.target ∧
      r.executionType = .rejected ∧ c' = (msg.op.bindStatus (c.refuse owner r)).rememberStatus := by
  rw [handle_eq] at h
  obtain ⟨c₁, hprocess, h⟩ := bind_eq_ok.mp h
  cases h
  rcases process_answer hfresh hprocess with ⟨owner, r, hid, hr, hc₁⟩ | ⟨l, hl, hno⟩
  · exact ⟨owner, r, hid, hr, by rw [hc₁]⟩
  have hsince : c.since (msg.op.bindStatus c₁).rememberStatus = l :=
    Call.since_of_append ((msg.op.bindStatus_market c₁).2.trans hl)
  obtain ⟨o, ho, hreject⟩ := hreject
  rw [hsince] at ho
  rw [hno o ho] at hreject
  cases hreject

/-- Whether nothing is due after the last instant seen and up to `now`. -/
def Engine.nothingDue (e : Engine R) (now : Time) : Bool :=
  !decide (e.lastSeen < now) || (Call.nextDue e e.lastSeen).all fun due => decide (now < .ofSeconds due.1)

theorem Engine.Tidy.tick_idle {now} (h : e.Tidy) (hdue : e.nothingDue now = true) :
    e.tick now = .ok { engine := { e with lastSeen := if e.lastSeen < now then now else e.lastSeen } } := by
  have hdone : Call.advanceStep now (e.lastSeen, ({ engine := e } : Call R)) = .ok none := by
    simp only [Engine.nothingDue, Bool.or_eq_true, Bool.not_eq_true', decide_eq_false_iff_not] at hdue
    rw [Call.advanceStep]
    split
    · rename_i hlt
      have hnext := hdue.resolve_left (fun hnot => hnot hlt)
      simp only
      split
      · rfl
      rename_i seconds boundary hsome
      rw [hsome] at hnext
      rw [if_pos (of_decide_eq_true hnext)]
    · rfl
  have hadvance : Call.advance now e =
      .ok { engine := { e with lastSeen := if e.lastSeen < now then now else e.lastSeen } } := by
    rw [Call.advance, Call.advanceFuel, Loop.runM, hdone]
    rfl
  rw [Engine.tick, hadvance, ok_bind]
  have htidy : { e with lastSeen := if e.lastSeen < now then now else e.lastSeen }.Tidy := ⟨h.fresh, h.trimmed⟩
  rw [htidy.rememberStatus fun _ ho => absurd ho not_mem_nil]

theorem Calls.tidy {ok : Engine R → Engine R → Op R → Prop} {e₀} (h : Calls ok e₀ e out) (h₀ : e₀.Tidy) :
    e.Tidy := by
  induction h with
  | nil => exact h₀
  | call _ htick _ hhandle ih => exact (ih.tick htick).handle hhandle

theorem acceptedIn_reject {r} (hr : r.executionType = .rejected) (id : String) :
    Engine.acceptedIn id [.executionReport owner r] = false := by
  simp only [Engine.acceptedIn, filterMap_cons, Engine.reportOf, filterMap_nil, reverse_cons,
    reverse_nil, nil_append, find?_cons, find?_nil]
  split
  · rename_i hfind
    split at hfind
    · cases hfind
      simp [hr]
    · cases hfind
  · rfl

private theorem bindStatus_reject {op : Op R} {r : Report} (hr : r.executionType = .rejected)
    (hout : c.out = [.executionReport owner r]) : op.bindStatus c = c := by
  have hbind : ∀ id sender, c.bindStatusOwner id sender = c := by
    intro id sender
    rw [Call.bindStatusOwner, Engine.bindStatusOwner, hout, acceptedIn_reject hr]
    cases c
    cases hout
    rfl
  cases op with
  | newOrder | cancelReplace => exact hbind _ _
  | _ => rfl

/-- A rejected request leaves the engine as its tick leaves it, up to the arrival number, the execution id and the
status history; if nothing is due, up to the first two. -/
theorem rejected_changes_nothing
    (h : Calls anyCall (Engine.new cfg) e out)
    (htick : e.tick (clock .advance) = .ok c) (hcall : e.apply clock msg.op = .ok c')
    (hreject : ∃ o ∈ c.since c', isReject o = true) :
    c'.engine =
      { c.engine with
        nextArrival := c.engine.nextArrival + 1
        issued := c.engine.issued + 1
        statusHistory := c'.engine.statusHistory
        terminalHistory := c'.engine.terminalHistory } ∧
    (e.nothingDue (clock .advance) = true → c'.engine.statusHistory = c.engine.statusHistory ∧
      c'.engine.terminalHistory = c.engine.terminalHistory) := by
  have htidy : e.Tidy := h.tidy (.new ..)
  have hctidy := htidy.tick htick
  rw [Engine.apply, htick, ok_bind] at hcall
  obtain ⟨owner, r, -, hr, rfl⟩ := handle_answer hctidy.fresh hcall hreject
  refine ⟨?_, fun hdue => ?_⟩
  · have hmarket := ((msg.op.bindStatus_market (c.refuse owner r)).1).trans
      (Engine.rememberStatus_market _ (c.refuse owner r).out)
    rw [← (msg.op.bindStatus_market (c.refuse owner r)).2] at hmarket
    exact hmarket
  have hout : c.out = [] := by
    rw [htidy.tick_idle hdue] at htick
    cases htick
    rfl
  have hrefused : (c.refuse owner r).out = [.executionReport owner r] := by
    rw [Call.refuse, hout, nil_append]
  have htidy' : (c.refuse owner r).engine.Tidy := ⟨hctidy.fresh, hctidy.trimmed⟩
  rw [bindStatus_reject hr hrefused, Call.rememberStatus]
  rw [htidy'.rememberStatus]
  · exact ⟨rfl, rfl⟩
  rw [hrefused]
  intro o ho r' hr'
  rw [mem_singleton.mp ho] at hr'
  cases hr'
  exact hr

/-- The tick and the call it begins compute, and `P` holds of what they lead to. -/
def Engine.computes (clock : Clock) (op : Op R) (P : Call R → Call R → Bool) (e : Engine R) : Bool :=
  match e.tick (clock .advance), e.apply clock op with
  | .ok c, .ok c' => P c c'
  | _, _ => false

theorem Engine.of_computes {op} {P : Call R → Call R → Bool} (h : e.computes clock op P = true) :
    ∃ c c', e.tick (clock .advance) = .ok c ∧ e.apply clock op = .ok c' ∧ P c c' = true := by
  unfold Engine.computes at h
  split at h
  · rename_i c c' htick hcall
    exact ⟨c, c', htick, hcall, h⟩
  · cases h

end rejected

/-- A cancel of an unknown order. -/
theorem rejected_changes_nothing_cancel : ∃ e out c c', Calls anyCall (Engine.sample none) e out ∧
    e.tick (.ofSeconds 2) = .ok c ∧
    e.apply (.at 2) (.cancel { orderId := "Q", sender := "b", outputTx := 0 }) = .ok c' ∧
    c'.engine.book.queue .buy 100 ≠ [] ∧ c'.engine.statusHistory = c.engine.statusHistory := by
  obtain ⟨e, out, hrun, hdue, hcomputes⟩ := Calls.of_computed anyCall (Engine.sample none)
    [orderAt 1 "A" "a" .buy 100 10]
    (fun e _ => e.nothingDue (.ofSeconds 2) = true ∧
      e.computes (.at 2) (.cancel { orderId := "Q", sender := "b", outputTx := 0 }) (fun c c' =>
        (c.since c').any isReject && decide (c'.engine.book.queue .buy 100 ≠ [])) = true) (by decide +kernel)
  obtain ⟨c, c', htick, hcall, hP⟩ := Engine.of_computes hcomputes
  rw [Bool.and_eq_true, decide_eq_true_eq, any_eq_true] at hP
  have hcall' : e.apply (.at 2) (SymbolMsg.op (.cancel { orderId := "Q", sender := "b", outputTx := 0 })) = .ok c' :=
    hcall
  have hsame := rejected_changes_nothing hrun htick hcall' hP.1
  exact ⟨e, out, c, c', hrun, htick, hcall, hP.2, (hsame.2 hdue).1⟩

/-- An auction fills an order in part, and its remainder is canceled in the tick of a rejected replace to its id,
which takes over its status. -/
theorem rejected_takes_status : ∃ e out c c', Calls anyCall (Engine.sample (some .sample)) e out ∧
    e.tick (.ofSeconds 250) = .ok c ∧
    e.apply (.at 250) (.cancelReplace { orderId := "Q", sender := "b", newOrderId := "A", outputTx := 1 }) = .ok c' ∧
    (∃ o ∈ c.since c', isReject o = true) ∧
    c.engine.statusHistory["A"]?.map (·.1) = some "a" ∧ c'.engine.statusHistory["A"]?.map (·.1) = some "b" ∧
    c.engine.terminalHistory.map (·.1) = ["B", "A"] ∧ c'.engine.terminalHistory.map (·.1) = ["B", "A", "A"] := by
  obtain ⟨e, out, hrun, hcomputes⟩ := Calls.of_computed anyCall (Engine.sample (some .sample))
    [(.at 150, .newOrder { NewOrderSingle.sample "A" "a" .buy 100 10 with timeInForce := 5 } 0),
      orderAt 160 "B" "c" .sell 100 4]
    (fun e _ =>
      e.computes (.at 250) (.cancelReplace { orderId := "Q", sender := "b", newOrderId := "A", outputTx := 1 })
      (fun c c' => (c.since c').any isReject && decide (c.engine.statusHistory["A"]?.map (·.1) = some "a" ∧
        c'.engine.statusHistory["A"]?.map (·.1) = some "b" ∧ c.engine.terminalHistory.map (·.1) = ["B", "A"] ∧
        c'.engine.terminalHistory.map (·.1) = ["B", "A", "A"])) = true) (by decide +kernel)
  obtain ⟨c, c', htick, hcall, hP⟩ := Engine.of_computes hcomputes
  rw [Bool.and_eq_true, decide_eq_true_eq, any_eq_true] at hP
  exact ⟨e, out, c, c', hrun, htick, hcall, hP⟩

section foreign

variable {x : Context R} {e e' : Engine R} {out : List (Output R)} {c c' : Call R} {clock : Clock} {msg : SymbolMsg R}

/-- Nothing live is the sender's under this id: there is no such order, or it belongs to someone else. -/
def Engine.Unowned (e : Engine R) (id sender : String) : Prop := ∀ st, e.states[id]? = some st → st.sender ≠ sender

/-- An order that is live at the end of a path was live at its start with the same terms, or the request brings it. -/
theorem Path.terms {w w'} (h : Path x w w') {st'}
    (hst' : w'.call.engine.states[id]? = some st') :
    (∃ st, w.call.engine.states[id]? = some st ∧ st'.terms = st.terms) ∨ x.Brings id st' := by
  induction h generalizing st' with
  | refl => exact .inl ⟨st', hst', rfl⟩
  | tail _ hlast ih =>
    rcases hlast.terms hst' with ⟨_, hst, hterms⟩ | hnew
    · rcases ih hst with ⟨st₀, hst₀, hterms₀⟩ | hnew
      · exact .inl ⟨st₀, hst₀, hterms.trans hterms₀⟩
      · exact .inr (hnew.congr hterms)
    · exact .inr hnew

/-- Without a request, no order appears and none changes hands. -/
theorem Path.unowned {w w'} (h : Path x w w') (hreq : x.request = none)
    (hw : w.call.engine.Unowned id sender) : w'.call.engine.Unowned id sender := by
  intro st' hst'
  rcases Path.terms h hst' with ⟨st, hst, hterms⟩ | hnew
  · have hsender : st'.terms.sender = st.terms.sender := by rw [hterms]
    exact fun h => hw st hst (hsender.symm.trans h)
  have hid := hnew.newId
  rw [hreq] at hid
  cases hid

theorem Engine.Unowned.tick {now} (h : e.Unowned id sender) (he : e.Sound)
    (htick : e.tick now = .ok c) : c.engine.Unowned id sender := by
  obtain ⟨c₁, ht⟩ := (tick_safe he now).of_ok htick
  have hc₁ : c₁.engine.Unowned id sender := Path.unowned ht.path rfl h
  rw [ht.call, Call.rememberStatus, Engine.rememberStatus_market c₁.engine c₁.out]
  exact hc₁

/-- The request with another order in place of its own. -/
def SymbolMsg.naming (msg : SymbolMsg R) (id : String) : SymbolMsg R :=
  match msg with
  | .order o owner => .order o owner
  | .cancel m => .cancel { m with orderId := id }
  | .cancelReplace m => .cancelReplace { m with orderId := id }

/-- The sender, the connection and the request id of a cancel or a replace. -/
def SymbolMsg.amends : SymbolMsg R → Option (String × R × String)
  | .order _ _ => none
  | .cancel m => some (m.sender, m.outputTx, m.clientCancelId)
  | .cancelReplace m => some (m.sender, m.outputTx, m.clientReplaceId)

/-- The reason by which a cancel or replace of an unowned order is rejected. -/
def Engine.unownedReason (e : Engine R) : SymbolMsg R → String
  | .cancelReplace _ => if e.phase = .closed then "market closed" else OrderReject.unknownOrder.reason
  | _ => OrderReject.unknownOrder.reason

/-- Whatever a container holds under an unowned id is not the sender's. -/
theorem Engine.Unowned.trader (h : e.Unowned id sender) (he : e.Sound) {pl o}
    (ho : o ∈ (idle false { engine := e }).slot id pl) : o.traderId ≠ sender := by
  obtain ⟨-, st, hst, hagrees, -⟩ := (he.tracked id).of_mem ho
  rw [hagrees.trader]
  exact h st hst

private theorem cancelLive_unowned (h : e.Unowned id sender) (he : e.Sound) :
    ∃ reject, Call.cancelLive e id sender = .error reject ∧ reject.reason = OrderReject.unknownOrder.reason := by
  have hstops : ∃ reject, e.stopBook.cancelFor id sender = .error reject ∧
      reject.reason = OrderReject.unknownOrder.reason := by
    rw [StopBook.cancelFor, StopBook.ownedBy]
    split
    · exact ⟨_, rfl, rfl⟩
    rename_i o ho
    have hmem : o ∈ (idle false { engine := e }).slot id .stops :=
      mem_filter.mpr ⟨mem_of_find?_eq_some ho, by simpa using find?_some ho⟩
    rw [if_pos (h.trader he hmem)]
    exact ⟨_, rfl, rfl⟩
  rw [Call.cancelLive, OrderBook.cancelOrderFor, OrderBook.checkOwner]
  rcases ho : e.book.orderLookup[id]? with _ | o
  · obtain ⟨reject, hreject, hreason⟩ := hstops
    simp only [hreject]
    exact ⟨reject, rfl, hreason⟩
  have hmem : o ∈ (idle false { engine := e }).slot id .book := by
    simp only [Progress.slot, idle, ho]
    exact mem_singleton_self o
  simp only
  rw [if_pos (h.trader he hmem)]
  exact ⟨_, rfl, rfl⟩

private theorem dispatch_unowned {request} (he : c.engine.Sound)
    (hmsg : msg.amends = some (sender, owner, request)) (h : c.engine.Unowned id sender) (arrival : Nat) :
    ∃ ts, c.dispatch clock (msg.naming id) arrival =
      .ok (c.rejectRequest owner id request (c.engine.unownedReason msg) ts) := by
  cases msg with
  | order => cases hmsg
  | cancel =>
    cases hmsg
    simp only [Call.dispatch, SymbolMsg.naming, Call.preflight, Engine.unownedReason]
    split
    · rename_i hqueued
      have hlive : ∃ pl, (idle false { engine := c.engine }).slot id pl ≠ [] := by
        rcases hqueued with hqueued | hqueued
        · obtain ⟨_, ho⟩ := Maps.contains_iff.mp hqueued
          exact ⟨.call, by simp [Progress.slot, idle, ho]⟩
        · obtain ⟨_, ho⟩ := Maps.contains_iff.mp hqueued
          exact ⟨.held, by simp [Progress.slot, idle, ho]⟩
      obtain ⟨_, hpl⟩ := hlive
      obtain ⟨_, ho⟩ := exists_mem_of_ne_nil _ hpl
      obtain ⟨-, st, hst, -⟩ := (he.tracked id).of_mem ho
      have hst : c.engine.states[id]? = some st := hst
      refine ⟨clock .report, ?_⟩
      rw [Call.preflightCancel]
      simp only [hst, get_some, ok_bind]
      rw [if_pos (h st hst)]
      rfl
    · obtain ⟨_, hreject, hreason⟩ := cancelLive_unowned h he
      refine ⟨clock .request, ?_⟩
      simp only [ok_bind, Call.processCancel, hreject, hreason]
      rfl
  | cancelReplace m =>
    cases hmsg
    have hreason : c.engine.replaceReason { m with orderId := id } (clock .preflight) =
        some (c.engine.unownedReason (.cancelReplace m)) := by
      simp only [Engine.replaceReason, Engine.unownedReason]
      split
      · rfl
      split
      · rfl
      · rename_i st hst
        rw [if_pos (h st hst)]
    refine ⟨clock .report, ?_⟩
    simp only [Call.dispatch, SymbolMsg.naming, Call.preflight, hreason, ok_bind]
    rfl

/-- A report without the id that it echoes, its execution id and its timestamp. -/
def Report.anonymous (r : Report) : Report :=
  { r with orderId := "", origOrderId := "", executionId := "", timestamp := .ofSeconds 0 }

private theorem handle_unowned {request} (clock : Clock) (he : c.engine.Sound) (hfresh : c.engine.Fresh)
    (hmsg : msg.amends = some (sender, owner, request)) (h : c.engine.Unowned id sender) :
    ∃ ts, c.handle clock (msg.naming id).op = .ok ((msg.naming id).op.bindStatus (c.refuse owner
      (buildReport (c.engine.ids c.engine.issued) id c.engine.symbol (none : Option (OrderState R))
        { execType := .rejected, status := .rejected, clientOrderId := some request, origOrderId := id
          rejectReason := c.engine.unownedReason msg } ts))).rememberStatus := by
  obtain ⟨c₀, hc₀⟩ : ∃ c₀, c₀ = c.onEngine fun e => { e with nextArrival := e.nextArrival + 1 } := ⟨_, rfl⟩
  have hbump : Leads (c.engine.context none) c c₀ := by
    rw [hc₀]
    exact .single (.note ((he.inv none c.out).silent rfl rfl rfl) fun _ => rfl)
  have hinv := hbump.inv (he.inv none c.out)
  have h₀ : c₀.engine.Unowned id sender := by
    rw [hc₀]
    exact h
  obtain ⟨ts, hdispatch⟩ := @dispatch_unowned R owner id sender c₀ clock msg request hinv.sound hmsg h₀
    (c.engine.nextArrival + 1)
  have hfresh' : (c₀.rejectRequest owner id request (c₀.engine.unownedReason msg) ts).engine.Fresh := by
    rw [hc₀]
    exact hfresh
  refine ⟨ts, ?_⟩
  have hprocess :
      c.process clock (msg.naming id) = .ok (c₀.rejectRequest owner id request (c₀.engine.unownedReason msg) ts) := by
    refine bind_eq_ok.mpr ⟨_, ?_, publishIndicative_of_fresh hfresh' (clock .publish)⟩
    rw [← hdispatch, hc₀]
    rfl
  rw [handle_eq, hprocess, ok_bind, hc₀]
  cases msg <;> rfl

/-- A cancel or replace of someone else's order is answered like one of an unknown order, and leaves the market as its
tick does. -/
theorem foreign_like_unknown
    (h : Run anyCall (Engine.new cfg) e out) {foreign unknown : String}
    {st : OrderState R} (hforeign : e.states[foreign]? = some st) (hunknown : e.states[unknown]? = none)
    {sender request : String} {owner : R} (hmsg : msg.amends = some (sender, owner, request))
    (hsender : st.sender ≠ sender) (htick : e.tick (clock .advance) = .ok c) :
    ∃ c₁ r₁ c₂ r₂, e.apply clock (msg.naming foreign).op = .ok c₁ ∧ e.apply clock (msg.naming unknown).op = .ok c₂ ∧
      c₁.out = c.out ++ [.executionReport owner r₁] ∧ c₂.out = c.out ++ [.executionReport owner r₂] ∧
      r₁.orderId = foreign ∧ r₂.orderId = unknown ∧ r₁.anonymous = r₂.anonymous ∧
      c₁.engine =
        { c.engine with
          nextArrival := c.engine.nextArrival + 1
          issued := c.engine.issued + 1
          statusHistory := c₁.engine.statusHistory
          terminalHistory := c₁.engine.terminalHistory } := by
  have he : e.Sound := h.sound (.new ..)
  have hfresh : c.engine.Fresh := ((h.tidy (.new ..)).tick htick).fresh
  obtain ⟨_, ht⟩ := (tick_safe he (clock .advance)).of_ok htick
  have hcsound := ht.sound he
  have hunowned₁ : e.Unowned foreign sender := by
    intro st' hst'
    cases hforeign.symm.trans hst'
    exact hsender
  have hunowned₂ : e.Unowned unknown sender := by
    intro st' hst'
    cases hunknown.symm.trans hst'
  obtain ⟨_, hcall₁⟩ := handle_unowned clock hcsound hfresh hmsg (hunowned₁.tick he htick)
  obtain ⟨_, hcall₂⟩ := handle_unowned clock hcsound hfresh hmsg (hunowned₂.tick he htick)
  have happly : ∀ op, e.apply clock op = c.handle clock op := fun op => by rw [Engine.apply, htick, ok_bind]
  exact ⟨_, _, _, _, (happly _).trans hcall₁, (happly _).trans hcall₂, (Op.bindStatus_market _ _).2,
    (Op.bindStatus_market _ _).2, rfl, rfl, rfl, ((Op.bindStatus_market _ _).1).trans
    (Engine.rememberStatus_market _ _)⟩

end foreign

/-- A held order and an unknown one. -/
theorem foreign_like_unknown_held : ∃ (e : Engine Nat) (c c₁ c₂ : Call Nat) (r₁ r₂ : Report), e.heldClose.contains "A" ∧
    e.tick (.ofSeconds 260) = .ok c ∧
    e.apply (.at 260) (.cancel { orderId := "A", sender := "b", outputTx := 1 }) = .ok c₁ ∧
    e.apply (.at 260) (.cancel { orderId := "Q", sender := "b", outputTx := 1 }) = .ok c₂ ∧
    c₁.out = c.out ++ [.executionReport 1 r₁] ∧ c₂.out = c.out ++ [.executionReport 1 r₂] ∧
    r₁.anonymous = r₂.anonymous := by
  obtain ⟨e, _, hrun, hheld, hsender, hunknown, htick⟩ := Run.of_computed anyCall (Engine.sample (some .sample))
    [(.at 250, .newOrder { NewOrderSingle.sample "A" "a" .buy 100 10 with timeInForce := 6 } 0)]
    (fun e _ => e.heldClose.contains "A" ∧ e.states["A"]?.map OrderState.sender = some "a" ∧
      e.states["Q"]?.isNone = true ∧
      (e.tick (.ofSeconds 260)).toOption.isSome = true) (by decide +kernel)
  obtain ⟨_, hst, hsender⟩ := Option.map_eq_some_iff.mp hsender
  have hmsg : SymbolMsg.amends (.cancel { orderId := "A", sender := "b", outputTx := 1 }) = some ("b", 1, "") := rfl
  rcases hc : e.tick (.ofSeconds 260) with _ | c
  · rw [hc] at htick
    cases htick
  have htick' : e.tick ((Clock.at 260) .advance) = .ok c := hc
  obtain ⟨c₁, r₁, c₂, r₂, hcall₁, hcall₂, hout₁, hout₂, -, -, hsame, -⟩ := foreign_like_unknown hrun hst
    (Option.isNone_iff_eq_none.mp hunknown) hmsg (by rw [hsender]; decide) htick'
  exact ⟨e, c, c₁, c₂, r₁, r₂, hheld, hc, hcall₁, hcall₂, hout₁, hout₂, hsame⟩

/-- Past an overflow an order of `a` rests under the id of a stop of `d`, and the cancel of `a` ends the order of `d`.
-/
theorem foreign_canceled : ∃ (e : Engine Nat) (out : List (Output Nat)) (c c' : Call Nat),
    Calls anyCall (Engine.sample (some .sample)) e out ∧ e.states["G"]?.map OrderState.sender = some "d" ∧
    e.tick (.ofSeconds 173053) = .ok c ∧
    e.apply (.at 173053) (.cancel { orderId := "G", sender := "a", outputTx := 1 }) = .ok c' ∧
    (reportsOf (c.since c')).map (·.orderStatus) = [.canceled] ∧ c'.engine.states["G"]?.isNone = true := by
  obtain ⟨e, out, hcalls, hsender, hcomputes⟩ := Calls.of_computed anyCall (Engine.sample (some .sample))
    (orphanCalls ++ [(.at 173052, .newOrder
      { NewOrderSingle.sample "G" "d" .sell 0 5 with orderType := 3, stopPrice := 50 } 0)])
    (fun e _ => e.states["G"]?.map OrderState.sender = some "d" ∧
      e.computes (.at 173053) (.cancel { orderId := "G", sender := "a", outputTx := 1 }) (fun c c' =>
        decide ((reportsOf (c.since c')).map (·.orderStatus) = [.canceled] ∧ c'.engine.states["G"]?.isNone = true)) =
          true)
    (by decide +kernel)
  obtain ⟨c, c', htick, hcall, hP⟩ := Engine.of_computes hcomputes
  exact ⟨e, out, c, c', hcalls, hsender, htick, hcall, of_decide_eq_true hP⟩

end Fxp

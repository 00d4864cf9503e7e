import Fxp.ExecSteps

/-!
# Executions as paths

`Shadow` ties an execution in the middle of its work to a call in progress that has made the same steps.
-/

namespace Fxp

open OrderBook List

variable {R : Type} {x : Context R}
variable {b : OrderBook}

/-- Two lists of changes that say the same about each side. -/
def SideEq (l l' : List MarketOrderUpdate) : Prop := ∀ s, l.filter (·.side = s) = l'.filter (·.side = s)

theorem SideEq.refl (l : List MarketOrderUpdate) : SideEq l l := fun _ => rfl

theorem SideEq.append {l₁ l₁' l₂ l₂'} (h₁ : SideEq l₁ l₁') (h₂ : SideEq l₂ l₂') :
    SideEq (l₁ ++ l₂) (l₁' ++ l₂') := fun _ => by rw [filter_append, filter_append, h₁, h₂]

theorem SideEq.trans {l₁ l₂ l₃} (h₁ : SideEq l₁ l₂) (h₂ : SideEq l₂ l₃) : SideEq l₁ l₃ :=
  fun s => (h₁ s).trans (h₂ s)

theorem SideEq.swap {l l' s} (h : ∀ c ∈ l, c.side = s)
    (h' : ∀ c ∈ l', c.side ≠ s) : SideEq (l ++ l') (l' ++ l) := by
  intro s'
  rw [filter_append, filter_append]
  by_cases hs : s = s'
  · subst hs
    rw [(filter_eq_nil_iff (l := l')).mpr (by simpa using h')]
    simp
  · rw [(filter_eq_nil_iff (l := l)).mpr fun c hc => by simpa [h c hc] using hs]
    simp

/-- The changes of a print: those of one order after those of the other, or interleaved. -/
theorem SideEq.interleave {a a' l l' s}
    (hl : ∀ c ∈ l, c.side = s) (ha' : a'.side ≠ s) : SideEq (a :: l ++ a' :: l') ([a, a'] ++ l ++ l') := by
  have hswap : SideEq (l ++ [a']) ([a'] ++ l) := .swap hl fun c hc => by rwa [mem_singleton.mp hc]
  have h := (SideEq.refl [a]).append (hswap.append (.refl l'))
  simpa using h

/-- The execution together with what a matching function did after it. -/
def Execution.joined (out : Execution) (fills : List ExecutionReport) (stp : StpOutcome)
    (fillUpdates : List MarketDataIncrementalUpdate) : Execution :=
  { out with
    fills := out.fills ++ fills
    stp := out.stp ++ stp.events.map fun e => { e with beforeFill := e.beforeFill + out.fills.length }
    stpUpdates := out.stpUpdates ++ stp.updates
    fillUpdates := out.fillUpdates ++ fillUpdates }

theorem Execution.joined_nil (out : Execution) : out.joined [] {} [] = out := by
  simp [joined]

/-- The call in progress `w` has made the steps of the execution `out` from `c`, with the given book, stops and last
trade price. -/
structure Shadow (ts : Time) (c : Call R) (b : OrderBook) (stops : StopBook) (last : Option Int) (out : Execution)
    (tr : List Transit) (w : Progress R) : Prop where
  call : w.call = (Call.replayed ts out.fills out.stp c).withMarket b.calm stops last
  timed : ∀ e ∈ out.stp, e.beforeFill ≤ out.fills.length
  transit : w.transit.Perm tr
  rested : SideEq w.rested (changesOf out.rested)
  stp : SideEq w.stp (changesOf out.stpUpdates)
  fills : SideEq w.fills (changesOf out.fillUpdates)
  auction : w.auction = false
  printed : w.printed = []

section market

variable {w : Progress R} {X : Call R} {b b' : OrderBook} {stops : StopBook} {last : Option Int} {o : Order}

theorem Path.fill (hinv : Inv x w) (hcall : w.call = X.withMarket b.calm stops last)
    (ho : b.orderLookup[o.orderId]? = some o) {q : Nat}
    (hedit : Edited b o (afterFill o (o.quantity - q) (b.visible o - q)) q b') (hq : 0 < q) (hle : q ≤ b.visible o)
    (ts : Time) (px : Int) (hprinted : w.printed = [] ∨ w.printed = [(px, q)]) :
    Path x w
      { w with
        call := (Call.applyFill ts px q false X o.orderId).withMarket b'.calm stops last
        fills := w.fills ++ fillChange o q :: refreshChange o (o.quantity - q) (b.visible o - q)
        printed := w.printed ++ [(px, q)] } := by
  obtain ⟨_, _, _, _, _, _, _, _⟩ := w
  subst hcall
  rw [← Call.applyFill_withMarket]
  exact .single (Step.fillBook hinv ho hedit.calm rfl hq hle ts px hprinted)

theorem Path.cut (hinv : Inv x w) (hcall : w.call = X.withMarket b.calm stops last) {rest}
    (hq : b.queue o.side o.price = o :: rest) {n : Nat}
    (hedit : HeadEdit b o rest (afterCut n (b.visible o)) 0 false b') (hn : n ≤ o.quantity)
    (hcut : ∃ t, x.known t ∧ Traits.Conflict o.traits t) (ts : Time) (opposing : String) (mode : StpMode)
    (beforeFill : Nat) :
    Path x w
      { w with
        call := ((cutEvent o n opposing mode beforeFill).foldl (Call.reportStp ts) X).withMarket b'.calm stops last
        stp := w.stp ++ changesOf (b.cutUpdate o o.price n) } := by
  obtain ⟨_, _, _, _, _, _, _, _⟩ := w
  subst hcall
  rw [← Call.foldl_reportStp_withMarket]
  exact Path.cutHead hinv (b := b'.calm) hq ⟨hedit.toEdited.calm, hedit.queue⟩ rfl hn hcut ts opposing mode beforeFill

theorem Path.trade {w₀} (hpath : Path x w₀ w) (hcall : w.call = X.withMarket b.calm stops last) (ts : Time)
    {px : Int} {qty : Nat} (side : Int32) (hprinted : w.printed = [(px, qty), (px, qty)]) :
    Path x w₀
      { w with
        call := (Call.pushTrade ts px qty side false X).withMarket b.calm stops last
        printed := [] } := by
  obtain ⟨_, _, _, _, _, _, _, _⟩ := w
  subst hcall
  exact hpath.tail (.print hprinted)

variable {t : Transit} {tr : List Transit}

section

variable (hinv : Inv x w) (hcall : w.call = X.withMarket b.calm stops last) (ht : w.transit.Perm (t :: tr))
include hinv hcall ht

theorem Path.fillTransit {q : Nat} (hq : 0 < q) (hle : q ≤ t.order.quantity) (ts : Time) (px : Int)
    (hprinted : w.printed = [] ∨ w.printed = [(px, q)]) :
    ∃ l, l.Perm (t.edited (.fill q) ++ tr) ∧ Path x w
      { w with
        call := (Call.applyFill ts px q false X t.order.orderId).withMarket b.calm stops last
        transit := l
        printed := w.printed ++ [(px, q)] } := by
  obtain ⟨l, hl, hstep⟩ := Step.fillTransit hinv ht hq hle ts px hprinted
  rw [hcall, Call.applyFill_withMarket] at hstep
  exact ⟨l, hl, .single hstep⟩

theorem Path.cutTransit {n : Nat} (hn : n ≤ t.order.quantity)
    (hcut : ∃ t', x.known t' ∧ Traits.Conflict t.order.traits t') (ts : Time) (opposing : String)
    (mode : StpMode) (beforeFill : Nat) :
    ∃ l t', t'.order = t.order.withQuantity n ∧ l.Perm ((if n = 0 then [] else [t']) ++ tr) ∧ Path x w
      { w with
        call := ((cutEvent t.order n opposing mode beforeFill).foldl (Call.reportStp ts) X).withMarket b.calm stops last
        transit := l } := by
  by_cases hlt : n < t.order.quantity
  · rw [cutEvent, if_pos hlt]
    obtain ⟨l, hl, hstep⟩ := @Step.cutTransit R x w n hinv t tr ht hlt hcut ts
      { opposingOrder := opposing
        orderId := t.order.orderId
        action := if n = 0 then .canceled else .restated (t.order.quantity - n)
        mode := mode
        beforeFill := beforeFill } rfl rfl
    rw [hcall, Call.reportStp_withMarket] at hstep
    exact ⟨l, { order := t.order.withQuantity n, filled := none, replaced := t.replaced, acked := true }, rfl, hl,
      .single hstep⟩
  · have heq : n = t.order.quantity := by omega
    obtain ⟨_, -, hagrees, -⟩ := hinv.in_transit (ht.mem_iff.mpr mem_cons_self)
    have hpos := hagrees.positive
    subst heq
    rw [cutEvent, if_neg hlt, foldl_nil, ← hcall]
    refine ⟨w.transit, t, rfl, ?_, .refl⟩
    rw [if_neg (by omega)]
    exact ht

end

end market

section passive

variable {ts : Time} {c : Call R} {stops : StopBook} {last : Option Int} {out : Execution} {tr : List Transit}
  {w : Progress R} {s s' : MatchState} {bidPrice askPrice : Int} {bid ask : Order} {bidRest askRest : List Order}

private theorem refreshChange_side {o} {n v : Nat} : ∀ c ∈ refreshChange o n v, c.side = o.side := by
  intro c hc
  unfold refreshChange at hc
  split at hc
  · rw [mem_singleton.mp hc]
  · cases hc

theorem Shadow.wf (h : Shadow ts c b stops last out tr w) (hinv : Inv x w) : b.WF := by
  have hbook : w.call.engine.book = b.calm := by
    rw [h.call]
    rfl
  exact (hbook ▸ hinv.book).of_calm

theorem Shadow.known (h : Shadow ts c b stops last out tr w) (hinv : Inv x w) {o : Order}
    (ho : b.orderLookup[o.orderId]? = some o) : x.known o.traits := by
  have hbook : w.call.engine.book = b.calm := by
    rw [h.call]
    rfl
  obtain ⟨-, -, -, -, hknown⟩ := hinv.on_book (o := o) (by rw [hbook]; exact ho)
  exact hknown

theorem Shadow.cross (hinv : Inv x w)
    (h : Shadow ts c s.book stops last (out.joined s.fills s.book.stp s.updates) tr w)
    (hheads : Heads s.book bidPrice askPrice bid bidRest ask askRest) {newer : Bool} {q : Nat}
    (hcross : Crossed s bid bidRest ask askRest newer q s') :
    ∃ w', Path x w w' ∧ Shadow ts c s'.book stops last (out.joined s'.fills s'.book.stp s'.updates) tr w' := by
  have hwf : s.book.WF := h.wf hinv
  obtain ⟨hbs, -, hbl, -⟩ := hheads.bid_spec hwf
  obtain ⟨has, -, hal, -⟩ := hheads.ask_spec hwf
  have hne := hheads.orderId_ne hwf
  obtain ⟨-, _, -⟩ := hwf.visible_eq hbl
  obtain ⟨-, _, -⟩ := hwf.visible_eq hal
  have hq := hcross.quantity
  obtain ⟨m, hb, ha⟩ := hcross.book
  have hav : m.visible ask = s.book.visible ask := by rw [visible, visible, hb.displayed, if_neg hne]
  rw [← hav] at ha
  -- the bid first, then the offer, then the public trade
  have path₁ := Path.fill hinv h.call hbl hb.toEdited (by omega) (by omega) ts (if newer then ask.price else bid.price)
    (.inl h.printed)
  rw [h.printed] at path₁
  have path₂ := Path.fill (path₁.inv hinv) rfl (show m.orderLookup[ask.orderId]? = some ask by
    rw [hb.lookup, if_neg hne, hal]) ha.toEdited (by omega) (by omega) ts (if newer then ask.price else bid.price)
      (.inr rfl)
  have path₃ := Path.trade (path₁.trans path₂) rfl ts (sideToProto (if newer then .buy else .sell)) rfl
  have hfills : (out.joined s'.fills s'.book.stp s'.updates).fills =
      (out.joined s.fills s.book.stp s.updates).fills ++ [crossFill bid ask newer q] := by
    simp [Execution.joined, hcross.fills]
  have hstp : (out.joined s'.fills s'.book.stp s'.updates).stp = (out.joined s.fills s.book.stp s.updates).stp := by
    simp [Execution.joined, hcross.stp]
  refine ⟨_, path₃, ⟨?_, ?_, h.transit, h.rested, ?_, ?_, h.auction, rfl⟩⟩
  · rw [hfills, hstp, Call.replayed_fill ts _ h.timed]
    rfl
  · rw [hfills, hstp, length_append]
    exact fun e he => le_trans (h.timed e he) (Nat.le_add_right ..)
  · simp only [Execution.joined, hcross.stp]
    exact h.stp
  have hfills := h.fills
  simp only [Execution.joined, changesOf_append, hcross.updates, append_assoc] at hfills ⊢
  rw [← append_assoc (changesOf out.fillUpdates)]
  refine hfills.append ?_
  rw [hav]
  refine (SideEq.interleave (refreshChange_side (o := bid)) ?_).trans (by simpa using .refl _)
  rw [hbs]
  exact fun hs => by simp [fillChange, has] at hs

private theorem foldl_reportStp_shift (ts : Time) (events : List StpEvent) (base : Nat) (X : Call R) :
    (events.map fun e => { e with beforeFill := e.beforeFill + base }).foldl (Call.reportStp ts) X =
      events.foldl (Call.reportStp ts) X := by
  rw [foldl_map]
  rfl

theorem Traits.conflict_of_selfMatch {newer older} (h : selfMatch newer older = true)
    (hside : newer.side ≠ older.side) : Traits.Conflict older.traits newer.traits ∧
      Traits.Conflict newer.traits older.traits := by
  simp only [selfMatch, Bool.and_eq_true, bne_iff_ne, ne_eq, beq_iff_eq] at h
  exact ⟨⟨Ne.symm hside, h.2.symm, .inr h.1⟩, ⟨hside, h.2, .inl h.1⟩⟩

private theorem cutEvent_beforeFill {o} {n : Nat} {opposing mode} {i : Nat} :
    ∀ e ∈ cutEvent o n opposing mode i, e.beforeFill = i := by
  intro e he
  unfold cutEvent at he
  split at he
  · rw [mem_singleton.mp he]
  · cases he

theorem Execution.joined_events {out : Execution} {fills : List ExecutionReport} {stp stp' : StpOutcome}
    {events : List StpEvent} {updates updates' : List MarketDataIncrementalUpdate}
    (hevents : stp'.events = stp.events ++ events) (hbefore : ∀ e ∈ events, e.beforeFill = fills.length)
    (htimed : ∀ e ∈ (out.joined fills stp updates).stp, e.beforeFill ≤ (out.joined fills stp updates).fills.length)
    (ts : Time) (c : Call R) :
    Call.replayed ts (out.joined fills stp' updates').fills (out.joined fills stp' updates').stp c =
        events.foldl (Call.reportStp ts) (Call.replayed ts (out.joined fills stp updates).fills
          (out.joined fills stp updates).stp c) ∧
      ∀ e ∈ (out.joined fills stp' updates').stp, e.beforeFill ≤ (out.joined fills stp' updates').fills.length := by
  have hstp : (out.joined fills stp' updates').stp = (out.joined fills stp updates).stp ++
      events.map fun e => { e with beforeFill := e.beforeFill + out.fills.length } := by
    simp [joined, hevents]
  have hnew : ∀ e ∈ events.map fun e => ({ e with beforeFill := e.beforeFill + out.fills.length } : StpEvent),
      e.beforeFill = (out.joined fills stp updates).fills.length := by
    intro e he
    obtain ⟨e₀, he₀, rfl⟩ := mem_map.mp he
    simp only [joined, length_append, hbefore e₀ he₀]
    omega
  refine ⟨?_, fun e he => ?_⟩
  · rw [hstp, show (out.joined fills stp' updates').fills = (out.joined fills stp updates).fills from rfl,
      Call.replayed_events ts hnew, foldl_reportStp_shift]
  rw [hstp] at he
  rcases mem_append.mp he with he | he
  · exact htimed e he
  · exact le_of_eq (hnew e he)

section

variable (hinv : Inv x w) (h : Shadow ts c s.book stops last (out.joined s.fills s.book.stp s.updates) tr w)
include hinv h

theorem Shadow.prevent {newer older : Order}
    {newerRest olderRest : List Order} (hnq : s.book.queue newer.side newer.price = newer :: newerRest)
    (hoq : s.book.queue older.side older.price = older :: olderRest) (hside : newer.side ≠ older.side)
    (hself : selfMatch newer older = true) (hprevent : Prevented s newer newerRest older olderRest s') :
    ∃ w', Path x w w' ∧ Shadow ts c s'.book stops last (out.joined s'.fills s'.book.stp s'.updates) tr w' := by
  have hwf : s.book.WF := h.wf hinv
  obtain ⟨-, -, hnl, -⟩ := hwf.head hnq
  obtain ⟨-, -, hol, -⟩ := hwf.head hoq
  obtain ⟨hco, hcn⟩ := Traits.conflict_of_selfMatch hself hside
  have hne : older.orderId ≠ newer.orderId := by
    intro heq
    exact hside (by rw [hwf.eq_of_orderId (hwf.mem_queue hnl) (hwf.mem_queue hol) heq])
  obtain ⟨hln, hlo⟩ := stpLeft_le newer.stp.mode newer.quantity older.quantity
  obtain ⟨m, ho, hn⟩ := hprevent.book
  have hnv : m.visible newer = s.book.visible newer := by rw [visible, visible, ho.displayed, if_neg hne]
  have hmq : m.queue newer.side newer.price = newer :: newerRest := by
    rw [ho.elsewhere _ _ fun hh => hside hh.1.symm, hnq]
  have hupd : m.cutUpdate newer newer.price (stpLeft newer.stp.mode newer.quantity older.quantity).1 =
      s.book.cutUpdate newer newer.price (stpLeft newer.stp.mode newer.quantity older.quantity).1 :=
    cutUpdate_congr hnv ho.symbol _ _
  rw [← hnv] at hn
  have path₁ := Path.cut hinv h.call hoq ho hlo ⟨_, h.known hinv hnl, hco⟩ ts newer.orderId newer.stp.mode
    s.fills.length
  have path₂ := Path.cut (path₁.inv hinv) rfl hmq hn hln ⟨_, h.known hinv hol, hcn⟩ ts older.orderId newer.stp.mode
    s.fills.length
  have hbefore : ∀ e ∈ cutEvent older (stpLeft newer.stp.mode newer.quantity older.quantity).2 newer.orderId
      newer.stp.mode s.fills.length ++ cutEvent newer (stpLeft newer.stp.mode newer.quantity older.quantity).1
      older.orderId newer.stp.mode s.fills.length, e.beforeFill = s.fills.length := fun e he =>
    (mem_append.mp he).elim (cutEvent_beforeFill e) (cutEvent_beforeFill e)
  obtain ⟨hreplayed, htimed⟩ := @Execution.joined_events R out s.fills s.book.stp s'.book.stp _ s.updates s.updates
    (by rw [hprevent.events, append_assoc]) hbefore h.timed ts c
  refine ⟨_, path₁.trans path₂, ⟨?_, ?_, h.transit, h.rested, ?_, ?_, h.auction, h.printed⟩⟩
  · rw [hprevent.fills, hprevent.updates, hreplayed, foldl_append]
  · rw [hprevent.fills, hprevent.updates]
    exact htimed
  · have hstp := h.stp
    simp only [Execution.joined, changesOf_append, hprevent.stpUpdates] at hstp ⊢
    rw [hupd, ← append_assoc, ← append_assoc]
    exact (hstp.append (.refl _)).append (.refl _)
  · simp only [Execution.joined, hprevent.updates]
    exact h.fills

theorem Shadow.matchStep {agg} (hstep : OrderBook.matchStep agg s = .ok (some s')) :
    ∃ w', Path x w w' ∧ Shadow ts c s'.book stops last (out.joined s'.fills s'.book.stp s'.updates) tr w' := by
  have hwf : s.book.WF := h.wf hinv
  obtain ⟨_, hr, hnext⟩ := matchStep_cases hwf agg
  cases hr.symm.trans hstep
  obtain ⟨_, _, bid, bidRest, ask, askRest, hheads, hcases⟩ := hnext s' rfl
  obtain ⟨hbs, hbp, -, -⟩ := hheads.bid_spec hwf
  obtain ⟨has, hap, -, -⟩ := hheads.ask_spec hwf
  have hbq : s.book.queue bid.side bid.price = bid :: bidRest := by rw [hbs, hbp, hheads.bidQueue]
  have haq : s.book.queue ask.side ask.price = ask :: askRest := by rw [has, hap, hheads.askQueue]
  rcases hcases with ⟨newer, q, hc⟩ | ⟨hself, hp⟩ | ⟨hself, hp⟩
  · exact h.cross hinv hheads hc
  · exact h.prevent hinv hbq haq (by rw [hbs, has]; decide) hself hp
  · exact h.prevent hinv haq hbq (by rw [hbs, has]; decide) hself hp

end

theorem Shadow.matchInto (hinv : Inv x w) (h : Shadow ts c b stops last out tr w) :
    ∃ r w', b.matchInto out = .ok r ∧ Path x w w' ∧ Shadow ts c r.1 stops last r.2 tr w' ∧ w'.crossed = false ∧
      r.1.stp = {} ∧ r.2.cancels = out.cancels := by
  obtain ⟨sf, hsf, ⟨w₁, hpath, hs⟩, huncrossed⟩ := matchOrders_uncrossed (h.wf hinv)
    (P := fun s => ∃ w', Path x w w' ∧
      Shadow ts c s.book stops last (out.joined s.fills s.book.stp s.updates) tr w') (by
      refine ⟨w, .refl, ?_⟩
      simp only [Execution.joined_nil]
      exact ⟨h.call, h.timed, h.transit, h.rested, h.stp, h.fills, h.auction, h.printed⟩) (by
      rintro s s' - ⟨_, hpath, hs⟩ hstep
      obtain ⟨w₂, hpath', hs'⟩ := hs.matchStep (hpath.inv hinv) hstep
      exact ⟨w₂, hpath.trans hpath', hs'⟩)
  have hbook : w₁.call.engine.book = sf.book.calm := by rw [hs.call]; rfl
  refine ⟨(sf.book.calm, out.joined sf.fills sf.book.stp sf.updates), { w₁ with crossed := false }, ?_,
    hpath.tail (.settle (.inr ?_)), ?_, rfl, rfl, rfl⟩
  · rw [OrderBook.matchInto, hsf]
    rfl
  · rw [hbook]
    exact huncrossed
  · exact ⟨hs.call, hs.timed, hs.transit, hs.rested, hs.stp, hs.fills, hs.auction, hs.printed⟩

end passive

section aggressive

variable {ts : Time} {c : Call R} {stops : StopBook} {last : Option Int} {out : Execution} {tr : List Transit}
  {w : Progress R} {order : Order} {t : Transit} {price : Int} {s s' : LevelState} {top : Order} {rest : List Order}

/-- What an aggressor still has in transit. -/
def Sweep.transit (sweep : Sweep) (t : Transit) : List Transit := if sweep.live then [t] else []

section

variable (hinv : Inv x w)
    (h : Shadow ts c (assembled order price s) stops last (out.joined s.sweep.fills s.book.stp s.sweep.fillUpdates)
      (s.sweep.transit t ++ tr) w) (ht : t.order = order.withQuantity s.sweep.remaining) (hlive : s.sweep.live)
      (hlevel : s.level = top :: rest)
include hinv h ht hlive hlevel

theorem Shadow.take {q : Nat} (htaken : Taken order price s top rest q s') :
    ∃ w' t', Path x w w' ∧ t'.order = order.withQuantity s'.sweep.remaining ∧
      Shadow ts c (assembled order price s') stops last
        (out.joined s'.sweep.fills s'.book.stp s'.sweep.fillUpdates) (s'.sweep.transit t' ++ tr) w' ∧
      w'.crossed = w.crossed := by
  have hwf := h.wf hinv
  obtain ⟨_, _, _, -, _, _, -⟩ := assembled_head hwf hlevel
  have hq := htaken.quantity
  have hlive' := hlive
  simp only [Sweep.live, Bool.and_eq_true, decide_eq_true_eq, Bool.not_eq_true'] at hlive'
  have htr := h.transit
  rw [Sweep.transit, if_pos hlive] at htr
  have hto := assembled_lookup hwf hlevel
  have hedit := htaken.book.toEdited
  rw [← assembled_visible order price s] at hedit
  have htid : t.order.orderId = order.orderId := by rw [ht]; rfl
  have hremaining : t.order.quantity = s.sweep.remaining := by rw [ht]; rfl
  obtain ⟨X, hX⟩ : ∃ X, X = Call.replayed ts (out.joined s.sweep.fills s.book.stp s.sweep.fillUpdates).fills
    (out.joined s.sweep.fills s.book.stp s.sweep.fillUpdates).stp c := ⟨_, rfl⟩
  have hcall := h.call
  rw [← hX] at hcall
  -- the fill of the buyer is reported first
  obtain ⟨l, hl, hpath⟩ : ∃ l, l.Perm (t.edited (.fill q) ++ tr) ∧ Path x w
      { w with
        call := (Call.reportFill ts X (takeReport order price top q (s.sweep.remaining - q))).withMarket
          (assembled order price s').calm stops last
        transit := l
        fills := w.fills ++ fillChange top q :: refreshChange top (top.quantity - q) (s.book.visible top - q)
        printed := [] } := by
    cases hs : order.side with
    | buy =>
      obtain ⟨l, hl, path₁⟩ := Path.fillTransit hinv hcall htr (q := q) (by omega) (by omega) ts price (.inl h.printed)
      rw [h.printed] at path₁
      have path₂ := Path.fill (path₁.inv hinv) rfl hto hedit (by omega) (by rw [assembled_visible]; omega) ts price
        (.inr rfl)
      have path₃ := Path.trade (path₁.trans path₂) rfl ts (sideToProto .buy) rfl
      rw [assembled_visible] at path₃
      refine ⟨l, hl, ?_⟩
      have hreport : Call.reportFill ts X (takeReport order price top q (s.sweep.remaining - q)) =
          Call.pushTrade ts price q (sideToProto .buy) false (Call.applyFill ts price q false
            (Call.applyFill ts price q false X t.order.orderId) top.orderId) := by
        simp only [takeReport, hs, htid]
        rfl
      rw [hreport]
      exact path₃
    | sell =>
      have path₁ := Path.fill hinv hcall hto hedit (by omega) (by rw [assembled_visible]; omega) ts price
        (.inl h.printed)
      rw [h.printed] at path₁
      obtain ⟨l, hl, path₂⟩ := Path.fillTransit (path₁.inv hinv) rfl htr (q := q) (by omega) (by omega) ts
        price (.inr rfl)
      have path₃ := Path.trade (path₁.trans path₂) rfl ts (sideToProto .sell) rfl
      rw [assembled_visible] at path₃
      refine ⟨l, hl, ?_⟩
      have hreport : Call.reportFill ts X (takeReport order price top q (s.sweep.remaining - q)) =
          Call.pushTrade ts price q (sideToProto .sell) false (Call.applyFill ts price q false
            (Call.applyFill ts price q false X top.orderId) t.order.orderId) := by
        simp only [takeReport, hs, htid]
        rfl
      rw [hreport]
      exact path₃
  have hfills : (out.joined s'.sweep.fills s'.book.stp s'.sweep.fillUpdates).fills =
      (out.joined s.sweep.fills s.book.stp s.sweep.fillUpdates).fills ++
        [takeReport order price top q (s.sweep.remaining - q)] := by
    simp [Execution.joined, htaken.fills]
  have hstp : (out.joined s'.sweep.fills s'.book.stp s'.sweep.fillUpdates).stp =
      (out.joined s.sweep.fills s.book.stp s.sweep.fillUpdates).stp := by
    simp [Execution.joined, htaken.stp]
  refine ⟨_,
    { order := order.withQuantity (s.sweep.remaining - q), filled := none, replaced := t.replaced, acked := true },
    hpath, by rw [htaken.remaining], ⟨?_, ?_, ?_, h.rested, ?_, ?_, h.auction, rfl⟩, rfl⟩
  · rw [hfills, hstp, Call.replayed_fill ts _ h.timed, ← hX]
  · rw [hfills, hstp, length_append]
    exact fun e he => le_trans (h.timed e he) (Nat.le_add_right ..)
  · refine hl.trans (.append_right _ (.of_eq ?_))
    rw [Transit.edited, Sweep.transit]
    simp only [Edit.rest, ht, Order.withQuantity_quantity, Sweep.live, htaken.remaining, htaken.stopped, hlive'.2]
    by_cases hz : s.sweep.remaining - q = 0
    · simp [hz]
    · simp [hz, Nat.pos_of_ne_zero hz, Order.withQuantity]
  · simp only [Execution.joined, htaken.stp]
    exact h.stp
  have hfills := h.fills
  simp only [Execution.joined, changesOf_append, htaken.updates, append_assoc] at hfills ⊢
  rw [← append_assoc (changesOf out.fillUpdates)]
  exact hfills.append (.refl _)

theorem Shadow.takePrevented
    (hself : selfMatch order top = true) (hprevent : TakePrevented order price s top rest s') :
    ∃ w' t', Path x w w' ∧ t'.order = order.withQuantity s'.sweep.remaining ∧
      Shadow ts c (assembled order price s') stops last
        (out.joined s'.sweep.fills s'.book.stp s'.sweep.fillUpdates) (s'.sweep.transit t' ++ tr) w' ∧
      w'.crossed = w.crossed := by
  have hwf := h.wf hinv
  obtain ⟨hside, _, _, -, _, _, hqueue⟩ := assembled_head hwf hlevel
  have hlive' := hlive
  simp only [Sweep.live, Bool.and_eq_true, decide_eq_true_eq, Bool.not_eq_true'] at hlive'
  have htr := h.transit
  rw [Sweep.transit, if_pos hlive] at htr
  have hedit := hprevent.book
  rw [← assembled_visible order price s] at hedit
  have htid : t.order.orderId = order.orderId := by rw [ht]; rfl
  have hto := assembled_lookup hwf hlevel
  obtain ⟨hln, hlo⟩ := stpLeft_le order.stp.mode s.sweep.remaining top.quantity
  obtain ⟨_, -, -, hknown, -⟩ := hinv.in_transit (htr.mem_iff.mpr mem_cons_self)
  obtain ⟨hconflict, hconflict'⟩ := Traits.conflict_of_selfMatch hself
    (by rw [hside]; exact Ne.symm (OrderSide.opposite_ne _))
  have htop : x.known top.traits := h.known hinv hto
  have hknown' : x.known order.traits := by rw [ht] at hknown; exact hknown
  have path₁ := Path.cut hinv h.call hqueue hedit hlo ⟨_, hknown', hconflict⟩ ts order.orderId order.stp.mode
    s.sweep.fills.length
  obtain ⟨_, t', ht', hl, path₂⟩ := Path.cutTransit (path₁.inv hinv) rfl htr
    (show (stpLeft order.stp.mode s.sweep.remaining top.quantity).1 ≤ t.order.quantity by rw [ht]; exact hln)
    ⟨_, htop, by rw [ht]; exact hconflict'⟩ ts top.orderId order.stp.mode s.sweep.fills.length
  have hupd : (assembled order price s).cutUpdate top top.price
      (stpLeft order.stp.mode s.sweep.remaining top.quantity).2 = s.book.cutUpdate top top.price
      (stpLeft order.stp.mode s.sweep.remaining top.quantity).2 :=
    cutUpdate_congr (assembled_visible ..) (by rw [assembled, withQueue_symbol]) _ _
  have hsweep : s'.sweep.fills = s.sweep.fills ∧ s'.sweep.fillUpdates = s.sweep.fillUpdates := by
    rw [hprevent.sweep]
    split <;> exact ⟨rfl, rfl⟩
  obtain ⟨hreplayed, htimed⟩ := @Execution.joined_events R out s.sweep.fills s.book.stp s'.book.stp _
    s.sweep.fillUpdates s.sweep.fillUpdates (by rw [hprevent.events, append_assoc])
    (fun e he => (mem_append.mp he).elim (cutEvent_beforeFill e) (cutEvent_beforeFill e)) h.timed ts c
  refine ⟨_, if (stpLeft order.stp.mode s.sweep.remaining top.quantity).1 = 0 then t else t', path₁.trans path₂, ?_,
    ⟨?_, ?_, ?_, h.rested, ?_, ?_, h.auction, h.printed⟩, rfl⟩
  · rw [hprevent.sweep]
    split
    · exact ht
    · rw [ht', ht]
      rfl
  · rw [hsweep.1, hsweep.2, hreplayed, foldl_append, ht]
  · rw [hsweep.1, hsweep.2]
    exact htimed
  · refine hl.trans (.append_right _ (.of_eq ?_))
    rw [Sweep.transit, Sweep.live, hprevent.sweep]
    by_cases hz : (stpLeft order.stp.mode s.sweep.remaining top.quantity).1 = 0
    · simp [hz]
    · simp [hz, Nat.pos_of_ne_zero hz, hlive'.2]
  · have hstp := h.stp
    simp only [Execution.joined, changesOf_append, hprevent.stpUpdates] at hstp ⊢
    rw [hupd, ← append_assoc]
    exact hstp.append (.refl _)
  · simp only [Execution.joined, hsweep.2]
    exact h.fills

end

theorem Shadow.sweep (hinv : Inv x w) (h : Shadow ts c b stops last out (t :: tr) w)
    (hstp : b.stp = {}) (crosses : Int → Bool) (ht : t.order = order) :
    ∃ (b' : OrderBook) (sw : Sweep) (w' : Progress R) (t' : Transit),
      b.sweep order crosses = (b', sw.finish) ∧ Path x w w' ∧ t'.order.orderId = order.orderId ∧
      Shadow ts c b' stops last (out.joined sw.fills b'.stp sw.fillUpdates) (sw.transit t' ++ tr) w' ∧
      w'.crossed = w.crossed := by
  obtain ⟨_, -, hagrees, -⟩ := hinv.in_transit (h.transit.mem_iff.mpr mem_cons_self)
  have hpos := hagrees.positive
  have hlive : (Sweep.new order).live := by simpa [Sweep.live, Sweep.new, ← ht] using hpos
  let P : OrderBook → Sweep → Prop := fun b' sw => ∃ (w' : Progress R) (t' : Transit), Path x w w' ∧
    t'.order = order.withQuantity sw.remaining ∧
    Shadow ts c b' stops last (out.joined sw.fills b'.stp sw.fillUpdates) (sw.transit t' ++ tr) w' ∧
    w'.crossed = w.crossed
  have hstart : P b (Sweep.new order) := by
    refine ⟨w, t, .refl, by rw [ht]; rfl, ?_, rfl⟩
    rw [hstp, Sweep.transit, if_pos hlive]
    simp only [Sweep.new, Execution.joined_nil]
    exact h
  have hstep : ∀ price s s', crosses price → (assembled order price s).WF →
      (∀ q, (assembled order price s).queue order.side.opposite q ≠ [] → better order.side.opposite price q) →
      fillStep order price s = some s' → P (assembled order price s) s.sweep →
      P (assembled order price s') s'.sweep := by
    rintro price s _ - hwf - hstep ⟨_, _, hpath, ht₁, hs, hcrossed⟩
    have hstp₁ : ∀ s : LevelState, (assembled order price s).stp = s.book.stp := fun s => by
      rw [assembled, withQueue_stp]
    rw [hstp₁] at hs
    obtain ⟨hlive, _, _, hlevel, ⟨hself, hp⟩ | ⟨-, htaken⟩⟩ := fillStep_cases hwf hstep
    · obtain ⟨w₂, t₂, hpath', ht₂, hs', hcrossed'⟩ := hs.takePrevented (hpath.inv hinv) ht₁ hlive hlevel hself hp
      exact ⟨w₂, t₂, hpath.trans hpath', ht₂, by rw [hstp₁]; exact hs', hcrossed'.trans hcrossed⟩
    · obtain ⟨w₂, t₂, hpath', ht₂, hs', hcrossed'⟩ := hs.take (hpath.inv hinv) ht₁ hlive hlevel htaken
      exact ⟨w₂, t₂, hpath.trans hpath', ht₂, by rw [hstp₁]; exact hs', hcrossed'.trans hcrossed⟩
  obtain ⟨b', sw, hresult, ⟨w', t', hpath, ht', hs, hcrossed⟩, -⟩ := sweep_induct hstep (h.wf hinv) hstart
  exact ⟨b', sw, w', t', hresult, hpath, by rw [ht']; rfl, hs, hcrossed⟩

/-- How an order that does not rest ends: what is left of it in transit is to be canceled. -/
def Swept (ts : Time) (c : Call R) (b : OrderBook) (stops : StopBook) (last : Option Int) (out : Execution)
    (tr : List Transit) (order : Order) (x : Context R) (w : Progress R) (r : AggressiveResult) : Prop :=
  ∃ (w' : Progress R) (dead : List Transit), Path x w w' ∧ r.restOnBook = false ∧
    Shadow ts c b stops last (out.joined r.fills b.stp r.fillUpdates) (dead ++ tr) w' ∧ w'.crossed = w.crossed ∧
    dead.map (fun t => t.order.orderId) = if r.stpCanceled ∨ r.unfilledQty = 0 then [] else [order.orderId]

section

variable (hinv : Inv x w) (h : Shadow ts c b stops last out (t :: tr) w) (hstp : b.stp = {})
include hinv h hstp

theorem Shadow.swept (crosses : Int → Bool) (ht : t.order = order) :
    Swept ts c (b.sweep order crosses).1 stops last out tr order x w (b.sweep order crosses).2 := by
  obtain ⟨_, sw, w', t', hresult, hpath, hid, hs, hcrossed⟩ := h.sweep hinv hstp crosses ht
  rw [hresult]
  refine ⟨w', sw.transit t', hpath, rfl, hs, hcrossed, ?_⟩
  simp only [Sweep.transit, Sweep.finish, Sweep.live, Bool.and_eq_true, decide_eq_true_eq, Bool.not_eq_true']
  by_cases hstopped : sw.stopped = true
  · simp [hstopped]
  by_cases hz : sw.remaining = 0
  · simp [hz]
  · simp [hstopped, hz, Nat.pos_of_ne_zero hz, hid]

theorem Shadow.executeFok (ht : t.order = order) :
    Swept ts c (b.executeFok order).1 stops last out tr order x w (b.executeFok order).2 := by
  have hpos : 0 < order.quantity := by
    obtain ⟨_, -, hagrees, -⟩ := hinv.in_transit (h.transit.mem_iff.mpr mem_cons_self)
    rw [← ht]
    exact hagrees.positive
  have hjoined : out.joined [] b.stp [] = out := by rw [hstp, Execution.joined_nil]
  rcases hscan : b.fokScan order order.quantity (b.crossing order).length (b.crossing order) 0 with
    ⟨available, _ | opposing⟩
  · simp only [OrderBook.executeFok, hscan]
    split
    · refine ⟨w, [t], .refl, rfl, ?_, rfl, ?_⟩
      · rw [hjoined]
        exact h
      · simp [hpos.ne', ht]
    · exact h.swept hinv hstp (crosses order) ht
  · -- the own order is met before the quantity is covered
    simp only [OrderBook.executeFok, hscan]
    obtain ⟨_, hown, hself⟩ := fokScan_opposing hscan
    obtain ⟨hside, hlook⟩ := (h.wf hinv).of_mem_crossing hown
    obtain ⟨-, hconflict⟩ := Traits.conflict_of_selfMatch hself hside.symm
    obtain ⟨_, _, -, hl, hpath⟩ := Path.cutTransit hinv h.call h.transit (Nat.zero_le _)
      ⟨_, h.known hinv hlook, by rw [ht]; exact hconflict⟩ ts opposing order.stp.mode 0
    have hevent : cutEvent t.order 0 opposing order.stp.mode 0 =
        [{ orderId := order.orderId, opposingOrder := opposing, action := .canceled, mode := order.stp.mode,
           beforeFill := 0 }] := by
      simp [cutEvent, ht, hpos]
    rw [hevent] at hpath
    obtain ⟨hreplayed, htimed⟩ := @Execution.joined_events R out [] b.stp
      { events := b.stp.events ++
          [{ orderId := order.orderId, opposingOrder := opposing, action := .canceled, mode := order.stp.mode,
             beforeFill := 0 }]
        updates := b.stp.updates } _ [] [] rfl
      (fun _ he => by rw [mem_singleton.mp he]; rfl) (by rw [hjoined]; exact h.timed) ts c
    rw [hjoined] at hreplayed
    refine ⟨_, [], hpath, rfl, ⟨?_, htimed, hl, h.rested, ?_, ?_, h.auction, h.printed⟩, rfl, by simp⟩
    · exact congrArg (fun X : Call R => X.withMarket b.calm stops last) hreplayed.symm
    · have hs := h.stp
      rw [← hjoined] at hs
      exact hs
    · have hs := h.fills
      rw [← hjoined] at hs
      exact hs

/-- An aggressive order trades and is gone, or it is to rest. -/
theorem Shadow.processAggressive (ht : t.order = order) (htype : order.orderType = .market ∨ order.orderType = .limit) :
    Swept ts c (b.processAggressive order).1 stops last out tr order x w (b.processAggressive order).2 ∨
      (b.processAggressive order = (b, restResult order) ∧ order.orderType = .limit ∧ order.timeInForce ≠ .ioc ∧
        order.timeInForce ≠ .fok) := by
  unfold OrderBook.processAggressive
  rcases htype with hty | hty
  · simp only [hty]
    exact .inl (h.swept hinv hstp _ ht)
  simp only [hty]
  unfold processLimit
  cases htif : order.timeInForce with
  | ioc => exact .inl (h.swept hinv hstp _ ht)
  | fok => exact .inl (h.executeFok hinv hstp ht)
  | _ => exact .inr ⟨rfl, trivial, by decide, by decide⟩

end

private theorem triggeredType_type (order : Order) :
    (triggeredType order).orderType = .market ∨ (triggeredType order).orderType = .limit := by
  unfold triggeredType
  cases order.orderType <;> simp

private theorem executeInto_eq (b : OrderBook) (order : Order) (out : Execution) :
    b.executeInto order out =
      let r := b.processAggressive (triggeredType order)
      let out' := out.joined r.2.fills r.1.stp r.2.fillUpdates
      if r.2.stpCanceled ∨ r.2.unfilledQty = 0 then .ok (r.1.calm, out', false)
      else if !r.2.restOnBook then .ok (r.1.calm, { out' with cancels := out'.cancels ++ [order.orderId] }, false)
      else
        let rested := r.1.calm.addOrder { triggeredType order with quantity := r.2.unfilledQty }
        rested.1.matchInto { out' with rested := out'.rested ++ [rested.2] } >>= fun done =>
        .ok (done.1, done.2, true) :=
  rfl

section

variable (hinv : Inv x w) (h : Shadow ts c b stops last out (t :: tr) w) (hstp : b.stp = {})
include hinv h hstp

theorem Shadow.restOrder (htype : t.order.orderType = .limit) (hfilled : t.filled = some 0) (hacked : t.acked = true)
    (htif : t.order.timeInForce ≠ .ioc ∧ t.order.timeInForce ≠ .fok) :
    ∃ w', Path x w w' ∧ Shadow ts c (b.addOrder t.order).1 stops last
      { out with rested := out.rested ++ [(b.addOrder t.order).2] } tr w' := by
  have hmem : t ∈ w.transit := h.transit.mem_iff.mpr mem_cons_self
  obtain ⟨pre, post, hsplit⟩ := append_of_mem hmem
  have hbook : w.call.engine.book = b := by
    rw [h.call, ← OrderBook.calm_eq hstp]
    rfl
  have hnew := hinv.not_on_book hmem
  rw [hbook] at hnew
  have hadd := addOrder_spec (h.wf hinv) hnew
  have hstp' : (b.addOrder t.order).1.stp = {} := (addOrder_stp ..).trans hstp
  have hrest : (pre ++ post).Perm tr := by
    have ht := h.transit
    rw [hsplit] at ht
    exact (perm_middle.symm.trans ht).cons_inv
  refine ⟨_, .single (.rest hsplit hacked htype hfilled (.inr htif) (by rw [hbook]; exact hadd) hstp'), ?_,
    h.timed, hrest,
    ?_, h.stp, h.fills, h.auction, h.printed⟩
  · rw [h.call, OrderBook.calm_eq hstp']
    rfl
  · rw [changesOf_append]
    exact h.rested.append (.refl _)

/-- An execution of one order that rests it, or trades it and leaves what is left of it to be canceled. -/
theorem Shadow.executeInto (hcrossed : w.crossed = false) (ht : t.order = triggeredType order)
    (hfilled : t.filled = some 0)
    (hacked : (b.processAggressive (triggeredType order)).2.restOnBook = true → t.acked = true) :
    ∃ r w' dead, b.executeInto order out = .ok r ∧ r.2.2 = (b.processAggressive (triggeredType order)).2.restOnBook ∧
      Path x w w' ∧ Shadow ts c r.1 stops last r.2.1 (dead ++ tr) w' ∧ w'.crossed = false ∧ r.1.stp = {} ∧
      r.2.1.cancels = out.cancels ++ dead.map fun t => t.order.orderId := by
  rcases h.processAggressive hinv hstp ht (triggeredType_type order) with hswept | ⟨hres, hlimit, htif⟩
  · obtain ⟨w', dead, hpath, hrest, hs, hcr, hdead⟩ := hswept
    have hexec := executeInto_eq b order out
    rw [hrest]
    generalize b.processAggressive (triggeredType order) = r at hexec hrest hs hdead
    simp only [hrest, Bool.not_false, if_true] at hexec
    split at hexec
    · refine ⟨_, w', dead, hexec, rfl, hpath, ⟨hs.call, hs.timed, hs.transit, hs.rested, hs.stp, hs.fills, hs.auction,
        hs.printed⟩, hcr.trans hcrossed, rfl, ?_⟩
      rw [hdead, if_pos ‹_›]
      exact (append_nil _).symm
    · refine ⟨_, w', dead, hexec, rfl, hpath, ⟨hs.call, hs.timed, hs.transit, hs.rested, hs.stp, hs.fills, hs.auction,
        hs.printed⟩, hcr.trans hcrossed, rfl, ?_⟩
      rw [hdead, if_neg ‹_›]
      rfl
  · obtain ⟨_, -, hagrees, -⟩ := hinv.in_transit (h.transit.mem_iff.mpr mem_cons_self)
    have hpos := hagrees.positive
    rw [ht] at hpos
    have hexec : b.executeInto order out =
        (b.addOrder t.order).1.matchInto { out with rested := out.rested ++ [(b.addOrder t.order).2] } >>= fun done =>
          .ok (done.1, done.2, true) := by
      rw [executeInto_eq, hres, ht]
      simp only [restResult, hstp, Execution.joined_nil, hpos.ne', OrderBook.calm_eq hstp]
      rfl
    rw [hres] at hacked
    obtain ⟨_, hpath, hs⟩ := h.restOrder hinv hstp (by rw [ht]; exact hlimit) hfilled (hacked rfl)
      (by rw [ht]; exact htif)
    obtain ⟨r, w₂, hr, hpath', hs', hcr, hstp', hcancels⟩ := hs.matchInto (hpath.inv hinv)
    refine ⟨(r.1, r.2, true), w₂, [], ?_, ?_, hpath.trans hpath', hs', hcr, hstp', ?_⟩
    · rw [hexec, hr]
      rfl
    · rw [hres]
      rfl
    · rw [map_nil, append_nil]
      exact hcancels

end

end aggressive

end Fxp

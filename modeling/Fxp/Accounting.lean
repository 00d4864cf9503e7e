import Fxp.Totals

/-!
# Execution accounting

Every print is two fills and one public trade, and the reports of an order add up: a ledger that is kept from the
reports alone always has the filled quantity and the notional that the next report shows.
-/

namespace Fxp

open Checked List

variable {R : Type}
variable {st : OrderState R} {ev : ReportEvent}

/-- A fill or a trade, with its price and its quantity. -/
inductive Print
  | fill (px qty : Int)
  | trade (px qty : Int)
deriving DecidableEq

def Output.print : Output R → Option Print
  | .executionReport _ r => if r.executionType = .filled then some (.fill r.executionPrice r.executedQuantity) else none
  | .trade t => some (.trade t.tradePrice t.tradeQuantity)
  | _ => none

/-- The outputs of one print: the fills of the two orders, and the trade. -/
def Print.triple (p : Int × Int) : List Print := [.fill p.1 p.2, .fill p.1 p.2, .trade p.1 p.2]

/-- What was filled of every order, as far as the reports tell; a `replaced` report carries its account over to the
next one. -/
structure Ledger where
  account : String → Nat × Int := fun _ => (0, 0)
  carry : Option (Nat × Int) := none

namespace Ledger

/-- The account of the order of a report, this report included. -/
def counted (l : Ledger) (r : Report) : Nat × Int :=
  if r.executionType = .new then l.carry.getD (l.account r.orderId)
  else if r.executionType = .filled then
    ((l.account r.orderId).1 + r.executedQuantity.toNat,
      (l.account r.orderId).2 + r.executionPrice * r.executedQuantity)
  else l.account r.orderId

/-- The ledger after a report.  An order without leaves is closed. -/
def step (l : Ledger) (r : Report) : Ledger :=
  if r.executionType = .rejected then l
  else if r.executionType = .replaced then
    { account := Function.update l.account r.orderId (0, 0), carry := some (l.counted r) }
  else
    { account := Function.update l.account r.orderId (if r.leavesQuantity = 0 then (0, 0) else l.counted r) }

/-- What a report says is what the ledger has. -/
structure Fits (l : Ledger) (r : Report) : Prop where
  cumQuantity : r.cumQuantity = asI32 (l.counted r).1
  avgPx : r.avgPx = if (l.counted r).1 = 0 then 0 else (l.counted r).2.tdiv (l.counted r).1
  total : r.leavesQuantity ≠ 0 → ∃ orderQty leaves : Nat, orderQty < 2 ^ 32 ∧ r.orderQuantity = asI32 orderQty ∧
    r.leavesQuantity = asI32 leaves ∧ orderQty = (l.counted r).1 + leaves

/-- All reports but the rejects fit the ledger that is kept along them. -/
def Accounts (l : Ledger) : List Report → Prop
  | [] => True
  | r :: rs => (r.executionType ≠ .rejected → l.Fits r) ∧ (l.step r).Accounts rs

private theorem accounts_append {l : Ledger} {rs rs' : List Report} :
    l.Accounts (rs ++ rs') ↔ l.Accounts rs ∧ (rs.foldl step l).Accounts rs' := by
  induction rs generalizing l with
  | nil => simp [Accounts]
  | cons _ _ ih => simp only [cons_append, Accounts, ih, and_assoc, foldl_cons]

end Ledger

def ledgerOf (out : List (Output R)) : Ledger := (reportsOf out).foldl Ledger.step {}

/-- The account of a live order is its report state, and there are no others. -/
def Ledger.Mirrors (l : Ledger) (e : Engine R) : Prop :=
  l.carry = none ∧ ∀ id, l.account id = e.states[id]?.elim (0, 0) fun st => (st.cumQty, st.notional)

structure Progress.Accounted (base : List (Output R)) (w : Progress R) : Prop where
  prints : ∃ ps : List (Int × Int), (base ++ w.call.out).filterMap Output.print =
    ps.flatMap Print.triple ++ w.printed.map fun p => .fill p.1 (asI32 p.2)
  seq : ((base ++ w.call.out).filterMap tradeOf).map TradeCaptureReport.seq = List.range' 1 w.call.engine.tradeSeq
  quiet : ∀ r ∈ reportsOf (base ++ w.call.out), r.executionType ≠ .filled → r.executedQuantity = 0
  accounts : Ledger.Accounts {} (reportsOf (base ++ w.call.out))
  mirrors : (ledgerOf (base ++ w.call.out)).Mirrors w.call.engine
  /-- An order that was not filled has no notional. -/
  unfilled : ∀ (id : String) (st : OrderState R), w.call.engine.states[id]? = some st → st.cumQty = 0 → st.notional = 0

namespace Progress.Accounted

variable {base : List (Output R)} {w w' : Progress R}

private theorem extend (hw : w.Accounted base) {l : List (Output R)} (hout : w'.call.out = w.call.out ++ l)
    (hprints : ∃ ps : List (Int × Int), w.printed.map (fun p => Print.fill p.1 (asI32 p.2)) ++
      l.filterMap Output.print =
      ps.flatMap Print.triple ++ w'.printed.map fun p => .fill p.1 (asI32 p.2))
    (hseq : List.range' 1 w.call.engine.tradeSeq ++ (l.filterMap tradeOf).map TradeCaptureReport.seq =
      List.range' 1 w'.call.engine.tradeSeq)
    (hquiet : ∀ r ∈ reportsOf l, r.executionType ≠ .filled → r.executedQuantity = 0)
    (haccounts : (ledgerOf (base ++ w.call.out)).Accounts (reportsOf l))
    (hmirrors : ((reportsOf l).foldl Ledger.step (ledgerOf (base ++ w.call.out))).Mirrors w'.call.engine)
    (hunfilled : ∀ (id : String) (st : OrderState R), w'.call.engine.states[id]? = some st → st.cumQty = 0 →
      st.notional = 0) :
    w'.Accounted base := by
  have hreports : reportsOf (base ++ w'.call.out) = reportsOf (base ++ w.call.out) ++ reportsOf l := by
    rw [hout, ← append_assoc, reportsOf_append]
  refine ⟨?_, ?_, ?_, ?_, ?_, hunfilled⟩
  · obtain ⟨ps, hps⟩ := hw.prints
    obtain ⟨ps', hps'⟩ := hprints
    refine ⟨ps ++ ps', ?_⟩
    rw [hout, ← append_assoc, filterMap_append, hps, append_assoc, hps', flatMap_append,
      append_assoc]
  · rw [hout, ← append_assoc, filterMap_append, map_append, hw.seq, hseq]
  · rw [hreports]
    exact forall_mem_append.mpr ⟨hw.quiet, hquiet⟩
  · rw [hreports]
    exact Ledger.accounts_append.mpr ⟨hw.accounts, haccounts⟩
  · rw [ledgerOf, hreports, foldl_append]
    exact hmirrors

private theorem silent (hw : w.Accounted base) {l} (hout : w'.call.out = w.call.out ++ l)
    (hl : ∀ o ∈ l, Engine.reportOf o = none ∧ tradeOf o = none) (hprinted : w'.printed = w.printed)
    (hstates : w'.call.engine.states = w.call.engine.states) (hseq : w'.call.engine.tradeSeq = w.call.engine.tradeSeq) :
    w'.Accounted base := by
  have hreports : reportsOf l = [] := filterMap_eq_nil_iff.mpr fun o ho => (hl o ho).1
  have htrades : l.filterMap tradeOf = [] := filterMap_eq_nil_iff.mpr fun o ho => (hl o ho).2
  have hprint : l.filterMap Output.print = [] := by
    refine filterMap_eq_nil_iff.mpr fun o ho => ?_
    obtain ⟨hreport, htrade⟩ := hl o ho
    cases o with
    | executionReport => cases hreport
    | trade => cases htrade
    | _ => rfl
  refine hw.extend hout ⟨[], by rw [hprint, hprinted]; simp⟩ (by rw [htrades, hseq]; simp) ?_ ?_ ?_ ?_
  · rw [hreports]
    exact fun _ hr => absurd hr not_mem_nil
  · rw [hreports]
    trivial
  · rw [hreports, foldl_nil]
    obtain ⟨hcarry, haccount⟩ := hw.mirrors
    refine ⟨hcarry, fun id => ?_⟩
    rw [hstates]
    exact haccount id
  · rw [hstates]
    exact hw.unfilled

private theorem tell (hw : w.Accounted base) {owner r} (hout : w'.call.out = w.call.out ++ [.executionReport owner r])
    (hprinted : w'.printed.map (fun p => Print.fill p.1 (asI32 p.2)) =
      w.printed.map (fun p => Print.fill p.1 (asI32 p.2)) ++ (Output.print (.executionReport owner r)).toList)
    (hseq : w'.call.engine.tradeSeq = w.call.engine.tradeSeq)
    (hquiet : r.executionType ≠ .filled → r.executedQuantity = 0)
    (hfits : r.executionType ≠ .rejected → (ledgerOf (base ++ w.call.out)).Fits r)
    (hmirrors : ((ledgerOf (base ++ w.call.out)).step r).Mirrors w'.call.engine)
    (hunfilled : ∀ (id : String) (st : OrderState R), w'.call.engine.states[id]? = some st → st.cumQty = 0 →
      st.notional = 0) :
    w'.Accounted base := by
  have hreports : reportsOf [(.executionReport owner r : Output R)] = [r] := rfl
  refine hw.extend hout ⟨[], ?_⟩ ?_ ?_ ?_ ?_ hunfilled
  · rw [hprinted, flatMap_nil, nil_append, append_cancel_left_eq]
    cases h : Output.print (.executionReport owner r : Output R) <;> simp [h]
  · rw [hseq]
    simp [tradeOf]
  · rw [hreports]
    intro r' hr'
    rw [mem_singleton.mp hr']
    exact hquiet
  · exact ⟨hfits, trivial⟩
  · exact hmirrors

end Progress.Accounted

section steps

variable {x : Context R} {base : List (Output R)} {w w' : Progress R} {l : Ledger} {e e' : Engine R} {r : Report}

theorem Agrees.leaves_eq {id o} (h : Agrees id o st) : st.leaves = o.quantity := by
  have := h.quantity
  rw [OrderState.leaves]
  omega

theorem Agrees.leaves_wire {id o} (h : Agrees id o st) : asI32 st.leaves ≠ 0 := by
  have hpos := h.positive
  rw [h.leaves_eq, asI32_of_lt h.small]
  omega

theorem Ledger.Mirrors.counted (h : l.Mirrors e) : l.counted r = if r.executionType = .filled then
    ((l.account r.orderId).1 + r.executedQuantity.toNat,
      (l.account r.orderId).2 + r.executionPrice * r.executedQuantity)
  else l.account r.orderId := by
  rw [Ledger.counted, h.1]
  split
  · rename_i hnew
    rw [hnew]
    rfl
  · rfl

/-- The report of the order whose report state changed to `new`. -/
theorem Ledger.Mirrors.step (h : l.Mirrors e) (htype : r.executionType ≠ .rejected ∧ r.executionType ≠ .replaced)
    {new}
    (hnew : (if r.leavesQuantity = 0 then (0, 0) else l.counted r) = new.elim (0, 0) fun st => (st.cumQty, st.notional))
    (hstates : ∀ id : String, e'.states[id]? = if r.orderId = id then new else e.states[id]?) :
    (l.step r).Mirrors e' := by
  rw [Ledger.step, if_neg htype.1, if_neg htype.2]
  refine ⟨rfl, fun id => ?_⟩
  show Function.update _ _ _ id = _
  rw [hstates id, Function.update_apply]
  by_cases hid : r.orderId = id
  · rw [if_pos hid, if_pos hid.symm, hnew]
  · rw [if_neg hid, if_neg (Ne.symm hid)]
    exact h.2 id

theorem Ledger.fits_state {executionId id symbol : String} {rst : OrderState R} {ts : Time}
    (hcounted : l.counted (buildReport executionId id symbol (some rst) ev ts) = (rst.cumQty, rst.notional))
    (hleaves : asI32 ev.leaves ≠ 0 → rst.orderQty < 2 ^ 32 ∧ rst.orderQty = rst.cumQty + ev.leaves) :
    l.Fits (buildReport executionId id symbol (some rst) ev ts) := by
  refine ⟨?_, ?_, fun h => ?_⟩
  · rw [hcounted]
    rfl
  · rw [hcounted]
    rfl
  · obtain ⟨hsmall, hsum⟩ := hleaves h
    exact ⟨rst.orderQty, ev.leaves, hsmall, rfl, rfl, by rw [hcounted]; exact hsum⟩

/-- What an edit of an order reports is what the ledger has. -/
theorem Edit.counted {k : Edit} {o : Order} {v : Nat} {rst : OrderState R} {px : Int} {id : String}
    (h : l.Mirrors e) (hst : e.states[id]? = some st) (hagrees : Agrees id o st) (hv : v ≤ o.quantity)
    (hwithin : k.Within o v)
    (htells : k.Tells px ev) (hcum : rst.cumQty = (k.state o px st).cumQty ∧ rst.notional = (k.state o px st).notional)
    (executionId symbol : String) (ts : Time) :
    l.counted (buildReport executionId id symbol (some rst) ev ts) = (rst.cumQty, rst.notional) := by
  have haccount : l.account id = (st.cumQty, st.notional) := by
    rw [h.2 id, hst]
    rfl
  have hsmall := hagrees.small
  have hfill : ∀ q : Nat, q ≤ o.quantity → ev.execType = .filled ∧ ev.lastPx = px ∧ ev.lastQty = q →
      l.counted (buildReport executionId id symbol (some rst) ev ts) = (st.cumQty + q, st.notional + px * q) := by
    rintro _ _ ⟨htype, rfl, rfl⟩
    have hwire : asI32 ev.lastQty = ev.lastQty := asI32_of_lt (by omega)
    rw [h.counted,
      if_pos (show (buildReport executionId id symbol (some rst) ev ts).executionType = .filled from htype)]
    show ((l.account id).1 + (asI32 ev.lastQty).toNat, (l.account id).2 + ev.lastPx * asI32 ev.lastQty) = _
    rw [haccount, hwire, Int.toNat_natCast]
  have hsame : ev.execType ≠ .filled → l.counted (buildReport executionId id symbol (some rst) ev ts) =
      (st.cumQty, st.notional) := by
    intro htype
    rw [h.counted,
      if_neg (show (buildReport executionId id symbol (some rst) ev ts).executionType ≠ .filled from htype)]
    exact haccount
  rw [hcum.1, hcum.2]
  cases k with
  | fill q => exact hfill q (Nat.le_trans hwithin.2 hv) htells
  | auction q => exact hfill q hwithin.2 htells
  | cut | drop => exact hsame htells.1

theorem Edit.state_unfilled {k : Edit} {o : Order} {v : Nat} (hwithin : k.Within o v) (px : Int)
    (h : st.cumQty = 0 → st.notional = 0) (hzero : (k.state o px st).cumQty = 0) : (k.state o px st).notional = 0 := by
  cases k with
  | fill | auction =>
    have hpos := hwithin.1
    simp only [Edit.state] at hzero
    omega
  | cut | drop => exact h hzero

theorem Edit.print_report {k : Edit} {px : Int} {owner : R} (h : k.Tells px ev) (executionId id symbol : String)
    (rst : OrderState R) (ts : Time) :
    (Output.print (.executionReport owner (buildReport executionId id symbol (some rst) ev ts))).toList =
      (k.prints px).map fun p => Print.fill p.1 (asI32 p.2) := by
  have hfill : ∀ q, ev.execType = .filled ∧ ev.lastPx = px ∧ ev.lastQty = q →
      (Output.print (.executionReport owner (buildReport executionId id symbol (some rst) ev ts))).toList =
        [Print.fill px (asI32 q)] := by
    rintro _ ⟨htype, rfl, rfl⟩
    simp [Output.print, buildReport, htype]
  cases k with
  | fill q | auction q => exact hfill q h
  | cut | drop => simp [Output.print, buildReport, h.1, Edit.prints]

theorem Edit.quiet_report {k : Edit} {px : Int} (h : k.Tells px ev) (hfilled : ev.execType ≠ .filled) :
    asI32 ev.lastQty = 0 := by
  cases k with
  | fill | auction => exact absurd h.1 hfilled
  | cut | drop => rw [h.2]; rfl

theorem Shift.accounted {w₁ : Progress R} {pl : Place} {id : String} {o : Order} {k : Edit}
    {rst : OrderState R} {px : Int} {owner : R} {ts : Time} (hinv : Inv x w) (hw : w.Accounted base)
    (hst : w.call.engine.states[id]? = some st) (hshift : Shift x w id o k pl w₁)
    (hev : ev.execType ≠ .rejected ∧ ev.execType ≠ .replaced) (htells : k.Tells px ev)
    (hcum : rst.cumQty = (k.state o px st).cumQty ∧ rst.notional = (k.state o px st).notional)
    (hrst : if k.rest o = 0 then ev.leaves = 0 else rst = k.state o px st ∧ ev.leaves = rst.leaves) :
    Progress.Accounted base { w₁ with
      call := w₁.call.tell id (if k.rest o = 0 then none else some (k.state o px st)) owner rst ev ts
      printed := w.printed ++ k.prints px } := by
  obtain ⟨-, _, hst₀, hagrees, -⟩ := (hinv.tracked id).of_mem hshift.mem_slot
  cases hst.symm.trans hst₀
  obtain ⟨_, hv, hwithin⟩ := hshift.within hinv
  obtain ⟨hengine, hsame, -⟩ := hshift.frame
  have hcounted := Edit.counted hw.mirrors hst hagrees hv hwithin htells hcum (w.call.engine.ids w.call.engine.issued)
    w.call.engine.symbol ts
  have hstates : ∀ id',
      (w₁.call.tell id (if k.rest o = 0 then none else some (k.state o px st)) owner rst ev ts).engine.states[id']? =
      if id = id' then (if k.rest o = 0 then none else some (k.state o px st)) else w.call.engine.states[id']? := by
    intro id'
    rw [Call.tell_states, hengine]
  have hout : (w₁.call.tell id (if k.rest o = 0 then none else some (k.state o px st)) owner rst ev ts).out =
      w.call.out ++
      [.executionReport owner (buildReport (w.call.engine.ids w.call.engine.issued) id w.call.engine.symbol
        (some rst) ev ts)] := by
    simp only [Call.tell, Call.report, Call.onEngine, hsame]
    rw [hengine]
  refine hw.tell hout ?_ ?_ ?_ ?_ ?_ ?_
  · rw [Edit.print_report htells, map_append]
  · simp only [Call.tell, Call.report, Call.onEngine]
    rw [hengine]
  · exact Edit.quiet_report htells
  · intro _
    refine Ledger.fits_state hcounted fun hleaves => ?_
    split at hrst
    · rw [hrst] at hleaves
      exact absurd rfl hleaves
    rename_i hrest
    have hafter := hagrees.edit hwithin hv hrest px
    rw [hrst.2, hrst.1]
    refine ⟨hafter.total, ?_⟩
    rw [hafter.leaves_eq]
    have := hafter.quantity
    omega
  · refine hw.mirrors.step hev ?_ hstates
    split at hrst
    · rename_i hrest
      show (if asI32 ev.leaves = 0 then _ else _) = _
      rw [hrst, if_pos hrest]
      rfl
    rename_i hrest
    have hafter := hagrees.edit hwithin hv hrest px
    have hwire : asI32 ev.leaves ≠ 0 := by
      rw [hrst.2, hrst.1]
      exact hafter.leaves_wire
    show (if asI32 ev.leaves = 0 then _ else _) = _
    rw [if_neg hwire, if_neg hrest]
    exact hcounted.trans (by rw [hrst.1]; rfl)
  · intro id' st' hst'
    rw [hstates id'] at hst'
    split at hst'
    · split at hst'
      · cases hst'
      · cases hst'
        exact Edit.state_unfilled hwithin px (hw.unfilled id st hst)
    · exact hw.unfilled id' st' hst'

theorem Progress.Accounted.enter {order : NewOrderSingle} {owner : R} {arrival : Nat} {o o' : Order}
    {ack : Bool} {ts' : Time} {t : Transit} (hw : w.Accounted base) (hnew : w.call.engine.states[o.orderId]? = none)
    (hagrees : Agrees o.orderId o' (OrderState.new order o.quantity owner arrival)) :
    Progress.Accounted base { w with
      call :=
        (if ack then w.call.acknowledge owner o.orderId (OrderState.new order o.quantity owner arrival) ts'
          else w.call).setState o.orderId (OrderState.new order o.quantity owner arrival)
      transit := w.transit ++ [t] } := by
  obtain ⟨st, hst⟩ : ∃ st, st = OrderState.new order o.quantity owner arrival := ⟨_, rfl⟩
  have hzero : st.cumQty = 0 ∧ st.notional = 0 := by rw [hst]; exact ⟨rfl, rfl⟩
  rw [← hst] at hagrees ⊢
  obtain ⟨hcarry, haccount⟩ := hw.mirrors
  have hempty : (ledgerOf (base ++ w.call.out)).account o.orderId = (0, 0) := by
    refine (haccount o.orderId).trans ?_
    rw [hnew]
    rfl
  have hstates : ∀ id,
      ((if ack then w.call.acknowledge owner o.orderId st ts' else w.call).setState o.orderId st).engine.states[id]? =
      if o.orderId = id then some st else w.call.engine.states[id]? := by
    intro id
    cases ack <;> simp [Call.setState, Call.acknowledge, Call.report]
  have hunfilled : ∀ (id : String) (st' : OrderState R),
      ((if ack then w.call.acknowledge owner o.orderId st ts' else w.call).setState o.orderId st).engine.states[id]? =
      some st' → st'.cumQty = 0 → st'.notional = 0 := by
    intro id st' hst'
    rw [hstates id] at hst'
    split at hst'
    · cases hst'
      exact fun _ => hzero.2
    · exact hw.unfilled id st' hst'
  cases ack with
  | false =>
    refine hw.extend (l := []) (append_nil _).symm ⟨[], by simp⟩ (append_nil _) (fun r hr => absurd hr not_mem_nil)
      trivial ⟨hcarry, fun id => ?_⟩ hunfilled
    refine Eq.trans ?_ (congrArg (fun s => Option.elim s (0, 0) fun st : OrderState R => (st.cumQty, st.notional))
      (hstates id).symm)
    split
    · rename_i hid
      show (ledgerOf (base ++ w.call.out)).account id = (st.cumQty, st.notional)
      rw [← hid, hempty, hzero.1, hzero.2]
    · exact haccount id
  | true =>
    obtain ⟨r, hr⟩ : ∃ r, r = buildReport (w.call.engine.ids w.call.engine.issued) o.orderId
      w.call.engine.symbol (some st) { execType := .new, status := .new, leaves := st.leaves } ts' := ⟨_, rfl⟩
    have hcounted : (ledgerOf (base ++ w.call.out)).counted r = (st.cumQty, st.notional) := by
      rw [hw.mirrors.counted, if_neg (by rw [hr]; simp [buildReport]), hzero.1, hzero.2]
      rw [hr]
      exact hempty
    have hout : (if true then w.call.acknowledge owner o.orderId st ts' else w.call).out =
        w.call.out ++ [.executionReport owner r] := by
      rw [hr]
      rfl
    refine hw.tell hout ?_ rfl ?_ ?_ ?_ hunfilled
    · rw [hr]
      simp [Output.print, buildReport]
    · intro _
      rw [hr]
      rfl
    · intro _
      rw [hr] at hcounted ⊢
      refine Ledger.fits_state hcounted fun _ => ⟨hagrees.total, ?_⟩
      show st.orderQty = st.cumQty + st.leaves
      rw [hagrees.leaves_eq]
      have := hagrees.quantity
      omega
    · refine hw.mirrors.step (by rw [hr]; simp [buildReport]) ?_ (by rw [hr]; exact hstates)
      have hwire : r.leavesQuantity ≠ 0 := by
        rw [hr]
        exact hagrees.leaves_wire
      rw [if_neg hwire, hcounted]
      rfl

/-- A replacement takes over the account of the order that it replaces. -/
theorem Progress.Accounted.swap {w₁ : Progress R} {m : CancelReplaceMsg R} {t : Transit}
    {st' : OrderState R} {ts : Time}
    (hw : w.Accounted base) (hout₁ : w₁.call.out = w.call.out) (hstates₁ : w₁.call.engine.states = w.call.engine.states)
    (hseq₁ : w₁.call.engine.tradeSeq = w.call.engine.tradeSeq) (hprinted₁ : w₁.printed = w.printed)
    (hst : w.call.engine.states[m.orderId]? = some st) (hagrees : Agrees m.newOrderId t.order st')
    (hcum : st'.cumQty = st.cumQty ∧ st'.notional = st.notional) :
    Progress.Accounted base { w₁ with
      call := w₁.call.takeOver m st' ts
      transit := [t] } := by
  obtain ⟨r₁, hr₁⟩ : ∃ r, r = buildReport (w₁.call.engine.ids w₁.call.engine.issued) m.orderId
    w₁.call.engine.symbol (some st')
    { execType := .replaced, status := .replaced, leaves := st'.leaves, origOrderId := m.orderId } ts := ⟨_, rfl⟩
  obtain ⟨r₂, hr₂⟩ : ∃ r, r = buildReport (w₁.call.engine.ids (w₁.call.engine.issued + 1)) m.newOrderId
    w₁.call.engine.symbol
    (some st') { execType := .new, status := .new, leaves := st'.leaves, origOrderId := m.orderId } ts := ⟨_, rfl⟩
  have hout : (w₁.call.takeOver m st' ts).out =
      w.call.out ++ [.executionReport m.outputTx r₁, .executionReport m.outputTx r₂] := by
    rw [← hout₁, hr₁, hr₂]
    simp [Call.takeOver, Call.setState, Call.sendReplaceReports, Call.report, Call.dropState]
  have hreports : reportsOf [(.executionReport m.outputTx r₁ : Output R), .executionReport m.outputTx r₂] =
      [r₁, r₂] := rfl
  obtain ⟨l, hl⟩ : ∃ l, l = ledgerOf (base ++ w.call.out) := ⟨_, rfl⟩
  have hmirrors := hw.mirrors
  rw [← hl] at hmirrors
  have haccount : l.account m.orderId = (st'.cumQty, st'.notional) := by
    rw [hmirrors.2, hst, hcum.1, hcum.2]
    rfl
  have hsum : st'.orderQty = st'.cumQty + st'.leaves := by
    rw [hagrees.leaves_eq]
    have := hagrees.quantity
    omega
  have hcounted₁ : l.counted r₁ = (st'.cumQty, st'.notional) := by
    rw [hmirrors.counted, if_neg (by rw [hr₁]; simp [buildReport]), hr₁]
    exact haccount
  have hstep₁ : l.step r₁ =
      { account := Function.update l.account m.orderId (0, 0), carry := some (st'.cumQty, st'.notional) } := by
    rw [Ledger.step, if_neg (by rw [hr₁]; simp [buildReport]), if_pos (by rw [hr₁]; rfl), hcounted₁, hr₁]
    rfl
  have hcounted₂ : (l.step r₁).counted r₂ = (st'.cumQty, st'.notional) := by
    rw [hstep₁, Ledger.counted, if_pos (by rw [hr₂]; rfl)]
    rfl
  have hstep₂ : (l.step r₁).step r₂ =
      { account := Function.update (Function.update l.account m.orderId (0, 0)) m.newOrderId
          (st'.cumQty, st'.notional) } := by
    have hwire : r₂.leavesQuantity ≠ 0 := by
      rw [hr₂]
      exact hagrees.leaves_wire
    rw [Ledger.step, if_neg (by rw [hr₂]; simp [buildReport]), if_neg (by rw [hr₂]; simp [buildReport]), if_neg hwire,
      hcounted₂, hstep₁, hr₂]
    rfl
  refine hw.extend hout ⟨[], ?_⟩ ?_ ?_ ?_ ?_ ?_
  · simp [Output.print, hr₁, hr₂, buildReport, hprinted₁]
  · simp only [tradeOf, filterMap_cons, filterMap_nil, map_nil, append_nil]
    exact congrArg (List.range' 1) hseq₁.symm
  · rw [hreports]
    intro r hr _
    rcases mem_cons.mp hr with rfl | hr
    · rw [hr₁]
      rfl
    · rw [mem_singleton.mp hr, hr₂]
      rfl
  · rw [hreports, ← hl]
    refine ⟨fun _ => ?_, fun _ => ?_, trivial⟩
    · rw [hr₁] at hcounted₁ ⊢
      exact Ledger.fits_state hcounted₁ fun _ => ⟨hagrees.total, hsum⟩
    · rw [hr₂] at hcounted₂ ⊢
      exact Ledger.fits_state hcounted₂ fun _ => ⟨hagrees.total, hsum⟩
  · rw [hreports, ← hl, foldl_cons, foldl_cons, foldl_nil, hstep₂]
    refine ⟨rfl, fun id => ?_⟩
    simp only [Call.takeOver_states, hstates₁, Function.update_apply]
    by_cases hnew : m.newOrderId = id
    · rw [if_pos hnew.symm, if_pos hnew]
      rfl
    rw [if_neg (Ne.symm hnew), if_neg hnew]
    by_cases hold : m.orderId = id
    · rw [if_pos hold.symm, if_pos hold]
      rfl
    · rw [if_neg (Ne.symm hold), if_neg hold]
      exact hmirrors.2 id
  · intro id st₁ hst₁
    rw [Call.takeOver_states, hstates₁] at hst₁
    split at hst₁
    · cases hst₁
      rw [hcum.1, hcum.2]
      exact hw.unfilled m.orderId st hst
    · split at hst₁
      · cases hst₁
      · exact hw.unfilled id st₁ hst₁

theorem Step.accounted (hinv : Inv x w) (h : Step x w w') (hw : w.Accounted base) : w'.Accounted base := by
  cases h with
  | edit hst hshift hev htells _ hcum hrst => exact hshift.accounted hinv hw hst hev htells hcum hrst
  | @print px qty _ _ _ hprinted =>
    refine hw.extend rfl ⟨[(px, asI32 qty)], ?_⟩ ?_ (fun r hr => absurd hr not_mem_nil) trivial hw.mirrors hw.unfilled
    · rw [hprinted]
      rfl
    · simp [tradeOf, Call.pushTrade, buildTrade, range'_concat, Nat.add_comm]
  | enter _ _ _ hnew _ hagrees => exact hw.enter hnew hagrees
  | @swap _ pl m _ _ _ st st' _ _ hshift hst _ _ _ _ _ hagrees _ _ _ _ _ _ hcum =>
    obtain ⟨hengine, hout, -⟩ := hshift.frame
    obtain ⟨-, _, hst₀, -, hholds, -⟩ := (hinv.tracked m.orderId).of_mem hshift.mem_slot
    cases hst.symm.trans hst₀
    have hcum' : st'.cumQty = st.cumQty ∧ st'.notional = st.notional := by
      by_cases hpl : pl = .stops
      · subst hpl
        have hzero := hholds.2
        rw [(hcum.1 rfl).1, (hcum.1 rfl).2, hzero, hw.unfilled m.orderId st hst hzero]
        exact ⟨rfl, rfl⟩
      · exact hcum.2 hpl
    refine hw.swap hout (by rw [hengine]) (by rw [hengine]) ?_ hst hagrees hcum'
    cases hshift <;> rfl
  | @reject owner id st ev ts _ hev =>
    obtain ⟨r, hr⟩ : ∃ r, r = buildReport (w.call.engine.ids w.call.engine.issued) id w.call.engine.symbol st ev ts :=
      ⟨_, rfl⟩
    have htype : r.executionType = .rejected := by
      rw [hr]
      exact hev.1
    have hout : (w.call.report owner id st ev ts).out = w.call.out ++ [.executionReport owner r] := by
      rw [hr]
      rfl
    refine hw.tell hout ?_ rfl ?_ (fun h => absurd htype h) ?_ hw.unfilled
    · simp [Output.print, htype]
    · intro _
      rw [hr]
      exact congrArg asI32 hev.2
    · rw [Ledger.step, if_pos htype]
      exact hw.mirrors
  | note hquiet =>
    obtain ⟨_, hl, hsilent⟩ := hquiet.out
    exact hw.silent hl (fun o ho => ⟨(hsilent o ho).1, (hsilent o ho).2.2⟩) rfl (by rw [hquiet.engine])
      (by rw [hquiet.engine])
  | @flush _ hmd =>
    refine hw.silent rfl (fun o ho => ?_) rfl rfl rfl
    obtain ⟨_, rfl, -⟩ := hmd o ho
    exact ⟨rfl, rfl⟩
  | setPhase =>
    unfold Call.setPhase
    split
    · exact hw.silent (l := []) (append_nil _).symm (fun o ho => absurd ho not_mem_nil) rfl rfl rfl
    · exact hw.silent rfl (fun o ho => by rw [mem_singleton.mp ho]; exact ⟨rfl, rfl⟩) rfl rfl rfl
  | _ => exact hw.silent (l := []) (append_nil _).symm (fun o ho => absurd ho not_mem_nil) rfl rfl rfl

end steps

def Print.filled : Print → Int
  | .fill _ qty => qty
  | .trade _ _ => 0

def Print.traded : Print → Int
  | .fill _ _ => 0
  | .trade _ qty => qty

private theorem sum_filled {out : List (Output R)}
    (hquiet : ∀ r ∈ reportsOf out, r.executionType ≠ .filled → r.executedQuantity = 0) :
    ((reportsOf out).map Report.executedQuantity).sum = ((out.filterMap Output.print).map Print.filled).sum := by
  induction out with
  | nil => rfl
  | cons o out ih =>
    have htail : ∀ r ∈ reportsOf out, r.executionType ≠ .filled → r.executedQuantity = 0 := by
      intro r hr
      obtain ⟨o', ho', hr'⟩ := mem_filterMap.mp hr
      exact hquiet r (mem_filterMap.mpr ⟨o', mem_cons_of_mem _ ho', hr'⟩)
    cases o with
    | executionReport _ r =>
      have hr := hquiet r mem_cons_self
      by_cases hfilled : r.executionType = .filled
      · simp [reportsOf, Engine.reportOf, Output.print, hfilled, Print.filled, ← ih htail]
      · simp [reportsOf, Engine.reportOf, Output.print, hfilled, hr hfilled, ← ih htail]
    | trade => exact (ih htail).trans (Int.zero_add _).symm
    | _ => exact ih htail

private theorem sum_traded (out : List (Output R)) :
    ((out.filterMap tradeOf).map TradeCaptureReport.tradeQuantity).sum =
    ((out.filterMap Output.print).map Print.traded).sum := by
  induction out with
  | nil => rfl
  | cons o _ ih =>
    cases o with
    | executionReport owner r =>
      by_cases hfilled : r.executionType = .filled
      · rw [filterMap_cons_some (show Output.print (.executionReport owner r) = some _ from if_pos hfilled)]
        exact ih.trans (Int.zero_add _).symm
      · rw [filterMap_cons_none (show Output.print (.executionReport owner r) = none from if_neg hfilled)]
        exact ih
    | trade t => exact congrArg (t.tradeQuantity + ·) ih
    | _ => exact ih

/-- Where every print is two fills and a trade, the fills add up to twice the trades. -/
theorem sum_executed {out : List (Output R)} {ps : List (Int × Int)}
    (hprints : out.filterMap Output.print = ps.flatMap Print.triple)
    (hquiet : ∀ r ∈ reportsOf out, r.executionType ≠ .filled → r.executedQuantity = 0) :
    ((reportsOf out).map Report.executedQuantity).sum =
      2 * ((out.filterMap tradeOf).map TradeCaptureReport.tradeQuantity).sum := by
  rw [sum_filled hquiet, sum_traded, hprints]
  clear hprints hquiet
  induction ps with
  | nil => rfl
  | cons _ _ ih =>
    simp only [flatMap_cons, map_append, sum_append, ih, Print.triple, map_cons, map_nil,
      sum_cons, sum_nil, Print.filled, Print.traded]
    omega

/-- In every run each print is two fills and one trade, numbered from `1` on, the reports fit the ledger that is kept
from them alone, and the executed quantities are twice the traded ones. -/
theorem executions_accounted {cfg : Settings} {e : Engine R} {out : List (Output R)}
    (h : Run anyCall (Engine.new cfg) e out) :
    (∃ ps : List (Int × Int), out.filterMap Output.print = ps.flatMap Print.triple) ∧
    (out.filterMap tradeOf).map TradeCaptureReport.seq = List.range' 1 e.tradeSeq ∧
    Ledger.Accounts {} (reportsOf out) ∧
    ((reportsOf out).map Report.executedQuantity).sum =
      2 * ((out.filterMap tradeOf).map TradeCaptureReport.tradeQuantity).sum := by
  obtain ⟨-, hacc⟩ := h.invariant (J := fun base w => w.Accounted base) (.new ..)
    ⟨⟨[], rfl⟩, rfl, fun _ hr => absurd hr not_mem_nil, trivial, ⟨rfl, fun id => by simp [idle, Engine.new, ledgerOf]⟩,
      fun id _ hst => by simp [idle, Engine.new] at hst⟩
    (fun _ _ hinv hstep hw => hstep.accounted hinv hw)
    (fun hmarket hout hw => hw.silent (l := []) (by simp [idle, hout]) (fun _ ho => absurd ho not_mem_nil) rfl
      (by simp only [idle]; rw [hmarket]) (by simp only [idle]; rw [hmarket]))
    (fun {base c} hw => by
      have hout : base ++ c.out ++ ({ engine := c.engine } : Call R).out = base ++ c.out := append_nil _
      refine ⟨?_, ?_, ?_, ?_, ?_, hw.unfilled⟩ <;> simp only [idle] <;> rw [hout]
      · exact hw.prints
      · exact hw.seq
      · exact hw.quiet
      · exact hw.accounts
      · exact hw.mirrors)
  have hout : out ++ ({ engine := e } : Call R).out = out := append_nil _
  obtain ⟨ps, hps⟩ := hacc.prints
  have hseq := hacc.seq
  have hquiet := hacc.quiet
  have haccounts := hacc.accounts
  simp only [idle] at hps hseq hquiet haccounts
  rw [hout] at hps hseq hquiet haccounts
  rw [map_nil, append_nil] at hps
  exact ⟨⟨ps, hps⟩, hseq, haccounts, sum_executed hps hquiet⟩

/-- A stop that is triggered by a partial fill, and a replace in between. -/
theorem executions_accounted_stop : ∃ e out, Run anyCall (Engine.sample none) e out ∧
    (out.filterMap tradeOf).map TradeCaptureReport.seq = [1, 2] ∧ Ledger.Accounts {} (reportsOf out) := by
  obtain ⟨e, out, hrun, hseq⟩ := Run.of_computed anyCall (Engine.sample none)
    [orderAt 1 "A" "a" .sell 100 10,
      (.at 2, .newOrder { NewOrderSingle.sample "S" "s" .buy 0 3 with orderType := 3, stopPrice := 100 } 0),
      replaceAt 3 "A" "B" "a" 0 8,
      orderAt 4 "C" "c" .buy 100 4]
    (fun _ out => (out.filterMap tradeOf).map TradeCaptureReport.seq = [1, 2]) (by decide +kernel)
  exact ⟨e, out, hrun, hseq, (executions_accounted hrun).2.2.1⟩

/-- A replacement that is live has an order quantity below what was filled, and its report says that nothing is left.
-/
theorem order_quantity_overflows : ∃ e out, Calls anyCall (Engine.sample (some .sample)) e out ∧
    e.states["G"]?.map (fun st => (st.orderQty, st.cumQty, st.leaves)) = some (2147483643, 4294967292, 0) ∧
    (reportsOf out).getLast?.map (fun r => (r.orderId, r.executionType, r.leavesQuantity)) = some ("G", .new, 0) :=
  Calls.of_computed anyCall (Engine.sample (some .sample)) overflowCalls _ (by decide +kernel)

end Fxp

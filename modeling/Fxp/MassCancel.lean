import Fxp.Frames
import Fxp.Rejects
import Mathlib

/-!
# Mass cancel

A mass cancel takes the live orders of a sender out of the containers they are in, reports each of them to its own
connection in arrival order, and leaves all other orders where they are.
-/

namespace Fxp

open Checked Auction List

variable {R : Type}

/-- The request covers an order: it is the sender's, and on the side that was asked for. -/
def MassCancelMsg.Covers (m : MassCancelMsg) (st : OrderState R) : Prop :=
  st.sender = m.sender ∧ (m.side = 0 ∨ st.side = m.side)

def MassCancelMsg.event (m : MassCancelMsg) : ReportEvent :=
  { execType := .canceled
    status := .canceled
    rejectReason := if m.reason = 2 then "cancel on disconnect" else "mass cancel" }

/-- The report of a canceled order, with the connection that it goes to. -/
def MassCancelMsg.ReportOf (m : MassCancelMsg) (symbol : String) (ts : Time) (id : String) (st : OrderState R)
    (sent : R × Report) : Prop :=
  ∃ executionId, sent = (st.outputTx, buildReport executionId id symbol (some st) m.event ts)

def Output.sent : Output R → Option (R × Report)
  | .executionReport owner r => some (owner, r)
  | .tradingSessionStatus _ | .auctionInfo _ | .marketData _ | .trade _ | .snapshot .. | .massCancelCount _ => none

def Output.count : Output R → Option Nat
  | .massCancelCount n => some n
  | .tradingSessionStatus _ | .auctionInfo _ | .executionReport .. | .marketData _ | .trade _ | .snapshot .. => none

section removed

variable {e e₁ e₂ : Engine R} {ids ids' : List String}

theorem Engine.Removed.nil (e : Engine R) : e.Removed [] e := by
  refine ⟨fun id => ?_, fun id => ?_, fun _ _ => ?_, fun id => ?_, fun id => ?_, ?_⟩
  all_goals simp

theorem Engine.Removed.append (h₁ : e.Removed ids e₁) (h₂ : e₁.Removed ids' e₂) : e.Removed (ids ++ ids') e₂ := by
  have hif : ∀ {α : Type} (id : String) (a : Option α),
      (if id ∈ ids' then none else if id ∈ ids then none else a) = if id ∈ ids ++ ids' then none else a := by
    intro α id a
    by_cases h : id ∈ ids <;> by_cases h' : id ∈ ids' <;> simp [h, h']
  have hfilter : ∀ l : List Order, (l.filter (·.orderId ∉ ids)).filter (·.orderId ∉ ids') =
      l.filter (·.orderId ∉ ids ++ ids') := by
    intro l
    rw [filter_filter]
    refine filter_congr fun o _ => ?_
    by_cases h : o.orderId ∈ ids <;> by_cases h' : o.orderId ∈ ids' <;> simp [h, h']
  refine ⟨fun id => ?_, fun id => ?_, fun _ _ => ?_, fun id => ?_, fun id => ?_, ?_⟩
  · rw [h₂.lookup, h₁.lookup, hif]
  · rw [h₂.displayed, h₁.displayed, hif]
  · rw [h₂.queue, h₁.queue, hfilter]
  · rw [h₂.calls, h₁.calls, hif]
  · rw [h₂.held, h₁.held, hif]
  · rw [h₂.stops, h₁.stops, hfilter]

theorem Engine.Removed.congr (h : e.Removed ids e₁)
    (hbook : e₂.book = e₁.book) (hcalls : e₂.callMarkets = e₁.callMarkets)
    (hheld : e₂.heldClose = e₁.heldClose) (hstops : e₂.stopBook = e₁.stopBook) : e.Removed ids e₂ := by
  refine ⟨?_, ?_, ?_, ?_, ?_, ?_⟩
  · rw [hbook]
    exact h.lookup
  · rw [hbook]
    exact h.displayed
  · rw [hbook]
    exact h.queue
  · rw [hcalls]
    exact h.calls
  · rw [hheld]
    exact h.held
  · rw [hstops]
    exact h.stops

end removed

section finish

variable {x : Context R} {a : Bool} {c : Call R} (m : MassCancelMsg) (ts : Time)

theorem Finished.symbol {c' ids} (h : Finished c ids c') :
    c'.engine.symbol = c.engine.symbol := by rw [h.engine]

/-- The cancel of one order of a mass cancel. -/
def Call.massFinish (m : MassCancelMsg) (ts : Time) (c : Call R) (id : String) : Except Panic (Call R) :=
  c.finish id OrderState.outputTx m.event ts

private theorem massFinish_exact (hinv : Inv x (idle a c)) {id st}
    (hst : c.engine.states[id]? = some st) :
    ∃ c' l, c.massFinish m ts id = .ok c' ∧ Path x (idle a c) (idle a c') ∧ Finished c [id] c' ∧
      c.engine.Removed [id] c'.engine ∧ c'.out = c.out ++ l ∧
      (∃ sent, l.filterMap Output.sent = [sent] ∧ m.ReportOf c.engine.symbol ts id st sent) ∧
      l.filterMap Output.count = [] := by
  obtain ⟨e, md, hremove, hstates, hremoved, -, hpath⟩ := removeLive_spec hinv hst
  have hst' : e.states[id]? = some st := by rw [hstates, hst]
  obtain ⟨hpath, hfin⟩ := hpath st.outputTx m.event ts (.of_type (.inl rfl) rfl rfl rfl (not_stpReason_massCancel m))
  rw [foldl_pushMd] at hpath hfin
  have hsymbol : e.symbol = c.engine.symbol := hfin.symbol
  refine ⟨_, .executionReport st.outputTx (buildReport (e.ids e.issued) id e.symbol (some st) m.event ts) ::
    md.toList.map fun u => .marketData (buildMdUpdate u ts), ?_, hpath, hfin, hremoved.congr rfl rfl rfl rfl, ?_,
    ⟨_, ?_, e.ids e.issued, by rw [← hsymbol]⟩, ?_⟩
  · simp only [Call.massFinish, Call.finish, hremove, ok_bind, hst', get_some, foldl_pushMd]
  · exact append_assoc ..
  · cases md <;> rfl
  · cases md <;> rfl

private theorem foldlM_massFinish {ids} (hinv : Inv x (idle a c)) (hids : ids.Nodup)
    (hlive : ∀ id ∈ ids, ∃ st, c.engine.states[id]? = some st) :
    ∃ c' l, ids.foldlM (Call.massFinish m ts) c = .ok c' ∧ Path x (idle a c) (idle a c') ∧ Finished c ids c' ∧
      c.engine.Removed ids c'.engine ∧ c'.out = c.out ++ l ∧
      List.Forall₂ (fun id sent => ∃ st, c.engine.states[id]? = some st ∧ m.ReportOf c.engine.symbol ts id st sent) ids
        (l.filterMap Output.sent) ∧
      l.filterMap Output.count = [] := by
  induction ids generalizing c with
  | nil => exact ⟨c, [], rfl, .refl, .nil c, .nil _, (append_nil _).symm, .nil, rfl⟩
  | cons id ids ih =>
    obtain ⟨st, hst⟩ := hlive id mem_cons_self
    obtain ⟨hnot, hids⟩ := nodup_cons.mp hids
    obtain ⟨c₁, l₁, hfinish, hpath₁, hfin₁, hremoved₁, hout₁, ⟨_, hsent, hreport⟩, hcount₁⟩ :=
      massFinish_exact m ts hinv hst
    -- the other orders are as they were
    have hstates : ∀ id' ∈ ids, c₁.engine.states[id']? = c.engine.states[id']? := by
      intro id' hid'
      rw [hfin₁.states, if_neg]
      rintro hmem
      rw [mem_singleton.mp hmem] at hid'
      exact hnot hid'
    obtain ⟨c₂, l₂, hrest, hpath₂, hfin₂, hremoved₂, hout₂, hreports, hcount₂⟩ :=
      ih (hpath₁.inv hinv) hids fun id' hid' => by
        rw [hstates id' hid']
        exact hlive id' (mem_cons_of_mem _ hid')
    refine ⟨c₂, l₁ ++ l₂, ?_, hpath₁.trans hpath₂, hfin₁.append hfin₂, hremoved₁.append hremoved₂, ?_, ?_, ?_⟩
    · rw [foldlM_cons, hfinish, ok_bind, hrest]
    · rw [hout₂, hout₁, append_assoc]
    · rw [filterMap_append, hsent]
      refine .cons ⟨st, hst, hreport⟩ (((List.forall₂_and_left _ _).mpr ⟨hstates, hreports⟩).imp ?_)
      rintro _ _ ⟨hsame, st', hst', hreport'⟩
      rw [hsame] at hst'
      rw [hfin₁.symbol] at hreport'
      exact ⟨st', hst', hreport'⟩
    · rw [filterMap_append, hcount₁, hcount₂, append_nil]

end finish

private theorem targets_sorted (e : Engine R) (P : String → OrderState R → Bool) :
    (e.targets P).Pairwise fun a b => ∀ sta stb, e.states[a]? = some sta → e.states[b]? = some stb →
      sta.arrival ≤ stb.arrival := by
  have htotal : Std.Total fun a b : Nat × String => a.1 < b.1 ∨ (a.1 = b.1 ∧ a.2 ≤ b.2) := by
    refine ⟨fun a b => ?_⟩
    rcases lt_trichotomy a.1 b.1 with h | h | h
    · exact .inl (.inl h)
    · exact (le_total a.2 b.2).imp (fun h' => .inr ⟨h, h'⟩) fun h' => .inr ⟨h.symm, h'⟩
    · exact .inr (.inl h)
  have htrans : IsTrans (Nat × String) fun a b => a.1 < b.1 ∨ (a.1 = b.1 ∧ a.2 ≤ b.2) := by
    refine ⟨fun a b _ hab hbc => ?_⟩
    rcases hab with hab | ⟨hab, hab'⟩ <;> rcases hbc with hbc | ⟨hbc, hbc'⟩
    · exact .inl (hab.trans hbc)
    · exact .inl (hab.trans_eq hbc)
    · exact .inl (hab.trans_lt hbc)
    · exact .inr ⟨hab.trans hbc, hab'.trans hbc'⟩
  have hsorted := pairwise_insertionSort (fun a b : Nat × String => a.1 < b.1 ∨ (a.1 = b.1 ∧ a.2 ≤ b.2))
    (((e.iterations.states.entries e.states).filter fun s => P s.1 s.2).map fun s => (s.2.arrival, s.1))
  rw [Engine.targets, pairwise_map]
  refine hsorted.imp_of_mem fun {a b} ha hb hab sta stb hsta hstb => ?_
  -- the numbers that were sorted are those of the states
  have harrival : ∀ a ∈ (((e.iterations.states.entries e.states).filter fun s => P s.1 s.2).map fun s =>
      (s.2.arrival, s.1)).insertionSort (fun a b : Nat × String => a.1 < b.1 ∨ (a.1 = b.1 ∧ a.2 ≤ b.2)),
      ∀ st, e.states[a.2]? = some st → st.arrival = a.1 := by
    intro a ha st hst
    obtain ⟨⟨_, _⟩, hmem, rfl⟩ := mem_map.mp ((mem_insertionSort _).mp ha)
    have hst' := Maps.Iteration.mem_entries.mp (mem_filter.mp hmem).1
    cases hst.symm.trans hst'
    rfl
  rw [harrival a ha sta hsta, harrival b hb stb hstb]
  rcases hab with hab | hab
  · exact hab.le
  · exact hab.1.le

section request

variable {x : Context R} {c : Call R}

private theorem publishIndicative_exact {a : Bool} (hinv : Inv x (idle a c)) (instant : Time) :
    ∃ c' l, c.publishIndicative instant = .ok c' ∧
      c'.engine = { c.engine with lastIndicative := c'.engine.lastIndicative } ∧
      c'.out = c.out ++ l ∧ l.filterMap Output.sent = [] ∧ l.filterMap Output.count = [] := by
  simp only [Call.publishIndicative]
  split
  · exact ⟨c, [], rfl, rfl, (append_nil _).symm, rfl, rfl⟩
  obtain ⟨orders, horders, -⟩ := auctionOrders_spec hinv
  obtain ⟨_, hr, -⟩ := exists_clears orders c.engine.lastTradePrice
  simp only [show c.engine.auctionOrders = .ok orders from horders, ok_bind, hr]
  split
  · exact ⟨c, [], rfl, rfl, (append_nil _).symm, rfl, rfl⟩
  · exact ⟨_, [_], rfl, rfl, rfl, rfl, rfl⟩

/-- The number of live orders that a request covers. -/
def Engine.covered (e : Engine R) (m : MassCancelMsg) : Nat :=
  (e.states.toList.filter fun s => s.2.sender = m.sender && (m.side = 0 || s.2.side = m.side)).length

/-- The request takes out the live orders it covers, `gone`, and reports each to its connection in arrival order; all
other orders keep their state, quantity, slice and place. -/
structure MassCancelMsg.Clears (m : MassCancelMsg) (ts : Time) (c c' : Call R) (gone : List String) : Prop where
  covers : ∀ id, id ∈ gone ↔ ∃ st, c.engine.states[id]? = some st ∧ m.Covers st
  nodup : gone.Nodup
  arrival : gone.Pairwise fun a b => ∀ sta stb, c.engine.states[a]? = some sta → c.engine.states[b]? = some stb →
    sta.arrival ≤ stb.arrival
  states : ∀ id : String, c'.engine.states[id]? = if id ∈ gone then none else c.engine.states[id]?
  containers : c.engine.Removed gone c'.engine
  reports : List.Forall₂ (fun id sent => ∃ st, c.engine.states[id]? = some st ∧
    m.ReportOf c.engine.symbol ts id st sent)
    gone ((c.since c').filterMap Output.sent)

/-- The count that is sent is the number of the orders that left. -/
def MassCancelMsg.Exact (m : MassCancelMsg) (ts : Time) (c c' : Call R) : Prop :=
  ∃ gone, m.Clears ts c c' gone ∧ (c.since c').filterMap Output.count = [gone.length]

theorem MassCancelMsg.Clears.length {m ts c' gone}
    (h : m.Clears ts c c' gone) : gone.length = c.engine.covered m := by
  have hperm : gone.Perm ((c.engine.states.toList.filter fun s =>
      s.2.sender = m.sender && (m.side = 0 || s.2.side = m.side)).map Prod.fst) := by
    rw [perm_ext_iff_of_nodup h.nodup]
    · intro id
      rw [h.covers]
      simp [MassCancelMsg.Covers]
    · refine List.Nodup.sublist (filter_sublist.map _) ?_
      rw [Std.ExtTreeMap.map_fst_toList_eq_keys]
      exact Maps.keys_nodup _
  rw [hperm.length_eq, length_map, Engine.covered]

private theorem massCancel_clears (hc : c.engine.Sound) (clock : Clock) (m : MassCancelMsg) :
    ∃ c' gone, c.handle clock (.massCancel m) = .ok c' ∧ m.Clears (clock .request) c c' gone ∧
      (c.since c').filterMap Output.count = [gone.length % 2 ^ 32] := by
  obtain ⟨ids, hids⟩ : ∃ ids, ids = c.engine.targets fun _ s =>
    s.sender = m.sender && (m.side = 0 || s.side = m.side) := ⟨_, rfl⟩
  have hmem : ∀ id, id ∈ ids ↔ ∃ st, c.engine.states[id]? = some st ∧ m.Covers st := by
    intro id
    rw [hids, mem_targets]
    simp [MassCancelMsg.Covers]
  have hinv := hc.inv none c.out
  obtain ⟨c₁, l₁, hfold, hpath, hfin, hremoved, hout₁, hreports, hcount₁⟩ :=
    foldlM_massFinish m (clock .request) hinv (hids ▸ nodup_targets _ _) fun id hid => by
      obtain ⟨st, hst, -⟩ := (hmem id).mp hid
      exact ⟨st, hst⟩
  have hinv₁ : Inv (c₁.engine.context none) (idle false (c₁.push (.massCancelCount (ids.length % 2 ^ 32)))) :=
    (hpath.inv hinv).sound.inv none _
  obtain ⟨c₂, l₂, hpublish, hengine, hout₂, hsent₂, hcount₂⟩ := publishIndicative_exact hinv₁ (clock .publish)
  have hmarket := Engine.rememberStatus_market c₂.engine c₂.out
  have hsince : c.since c₂.rememberStatus = l₁ ++ [.massCancelCount (ids.length % 2 ^ 32)] ++ l₂ := by
    refine Call.since_of_append ?_
    show c₂.out = _
    rw [hout₂, Call.push, hout₁]
    simp only [append_assoc]
  refine ⟨c₂.rememberStatus, ids, ?_, ⟨hmem, hids ▸ nodup_targets _ _, hids ▸ targets_sorted _ _, fun id =>
    ?_, ?_, ?_⟩, ?_⟩
  · show c.massCancel clock m = _
    simp only [Call.massCancel]
    unfold Call.massFinish MassCancelMsg.event at hfold
    rw [← hids, hfold, ok_bind, hpublish, ok_bind]
  · rw [Call.rememberStatus, hmarket, hengine]
    exact hfin.states id
  · refine hremoved.congr ?_ ?_ ?_ ?_ <;> rw [Call.rememberStatus, hmarket, hengine] <;> rfl
  · rw [hsince, filterMap_append, filterMap_append, hsent₂, append_nil]
    exact (append_nil _).symm ▸ hreports
  · rw [hsince, filterMap_append, filterMap_append, hcount₁, hcount₂]
    rfl

private theorem massCancel_exact_iff (hc : c.engine.Sound) (clock : Clock) (m : MassCancelMsg) {c'}
    (hcall : c.handle clock (.massCancel m) = .ok c') :
    m.Exact (clock .request) c c' ↔ c.engine.covered m < 2 ^ 32 := by
  obtain ⟨_, gone, hcall₁, hclears, hcount⟩ := massCancel_clears hc clock m
  cases hcall.symm.trans hcall₁
  constructor
  · rintro ⟨_, hclears', hcount'⟩
    rw [hcount, hclears.length, hclears'.length, List.cons.injEq] at hcount'
    omega
  · intro hlt
    refine ⟨gone, hclears, ?_⟩
    rw [hcount, Nat.mod_eq_of_lt (by rw [hclears.length]; exact hlt)]

/-- A mass cancel, after its tick, takes out the live orders it covers and no others, and is exact when there are
fewer than `2 ^ 32` of them. -/
theorem mass_cancel_exact {cfg : Settings} {e : Engine R} {out : List (Output R)}
    (h : Run anyCall (Engine.new cfg) e out) {clock : Clock}
    (htick : e.tick (clock .advance) = .ok c) (m : MassCancelMsg) :
    ∃ c', c.handle clock (.massCancel m) = .ok c' ∧ (∃ gone, m.Clears (clock .request) c c' gone) ∧
      (m.Exact (clock .request) c c' ↔ c.engine.covered m < 2 ^ 32) := by
  have hsound := h.sound (.new ..)
  obtain ⟨_, hticked⟩ := (tick_safe hsound _).of_ok htick
  obtain ⟨c', gone, hcall, hclears, -⟩ := massCancel_clears (hticked.sound hsound) clock m
  exact ⟨c', hcall, ⟨gone, hclears⟩, massCancel_exact_iff (hticked.sound hsound) clock m hcall⟩

end request

/-- Two of the three orders are the sender's; one of them rests and the other is a parked stop. -/
theorem mass_cancel_exact_stop : ∃ e out, ∃ c c' : Call Nat, Run anyCall (Engine.sample none) e out ∧
    e.tick (.ofSeconds 4) = .ok c ∧ c.handle (.at 4) (.massCancel { sender := "a", side := 0, reason := 0 }) = .ok c' ∧
    c.engine.stopBook.parked.map (·.orderId) = ["B"] ∧ c'.engine.stopBook.parked = [] ∧
    c'.engine.states["A"]? = none ∧ c'.engine.states["B"]? = none ∧
    c'.engine.states["C"]? = c.engine.states["C"]? ∧ MassCancelMsg.Exact ⟨"a", 0, 0⟩ (.ofSeconds 4) c c' := by
  obtain ⟨e, out, hrun, hcomputes⟩ := Run.of_computed anyCall (Engine.sample none)
    [orderAt 1 "A" "a" .buy 100 10, (.at 2, .newOrder (.sample "C" "c" .buy 100 5) 1),
      (.at 3, .newOrder { NewOrderSingle.sample "B" "a" .buy 130 10 with orderType := 3, stopPrice := 120 } 0)]
    (fun e _ => e.computes (.at 4) (.massCancel { sender := "a", side := 0, reason := 0 }) (fun c _ =>
      (c.engine.covered ⟨"a", 0, 0⟩ < 2 ^ 32) && (c.engine.stopBook.parked.map (·.orderId) = ["B"]) &&
        (c.engine.states["A"]?.map (·.sender) = some "a") &&
      (c.engine.states["B"]?.map (·.sender) = some "a") && (c.engine.states["C"]?.map (·.sender) = some "c")) = true)
      (by decide +kernel)
  obtain ⟨c, _, htick, -, hP⟩ := Engine.of_computes hcomputes
  simp only [Bool.and_eq_true, decide_eq_true_eq, Option.map_eq_some_iff] at hP
  obtain ⟨⟨⟨⟨hfew, hparked⟩, stA, hA, hsA⟩, stB, hB, hsB⟩, _, hC, hsC⟩ := hP
  obtain ⟨c', hcall, ⟨gone, hgone, -, -, hstates, hremoved, -⟩, hexact⟩ :=
    mass_cancel_exact hrun (show e.tick (Clock.at 4 .advance) = .ok c from htick)
      { sender := "a", side := 0, reason := 0 }
  have hgoneB : "B" ∈ gone := (hgone _).mpr ⟨stB, hB, hsB, .inl rfl⟩
  refine ⟨e, out, c, c', hrun, htick, hcall, hparked, ?_, ?_, ?_, ?_, hexact.mpr hfew⟩
  · rw [hremoved.stops, filter_eq_nil_iff]
    intro o ho
    have hid : o.orderId ∈ ["B"] := hparked ▸ mem_map_of_mem ho
    rw [mem_singleton.mp hid]
    simpa using hgoneB
  · rw [hstates, if_pos ((hgone _).mpr ⟨stA, hA, hsA, .inl rfl⟩)]
  · rw [hstates, if_pos hgoneB]
  rw [hstates, if_neg]
  intro hmem
  obtain ⟨_, hst, hsender, -⟩ := (hgone _).mp hmem
  cases hC.symm.trans hst
  exact absurd (hsC.symm.trans hsender) (by decide)

/-- The count wraps around. -/
theorem mass_cancel_count_wraps : ∃ e out, ∃ c c' : Call Nat, Run anyCall (Engine.sample none) e out ∧
    e.tick (.ofSeconds 0) = .ok c ∧ c.handle (.at 0) (.massCancel { sender := "a", side := 0, reason := 0 }) = .ok c' ∧
    ¬ MassCancelMsg.Exact ⟨"a", 0, 0⟩ (.ofSeconds 0) c c' := by
  obtain ⟨e, out, hrun, h⟩ := exists_ladder (2 ^ 32)
  obtain ⟨c, htick, hc⟩ := h.tick
  have hsound := hrun.sound (.new ..)
  obtain ⟨_, hticked⟩ := (tick_safe hsound _).of_ok htick
  have hsound₀ := hticked.sound hsound
  obtain ⟨c', gone, hcall, hclears, -⟩ := massCancel_clears hsound₀ (.at 0) { sender := "a", side := 0, reason := 0 }
  refine ⟨e, out, c, c', hrun, htick, hcall, fun hexact => ?_⟩
  have hlt := (massCancel_exact_iff hsound₀ (.at 0) _ hcall).mp hexact
  rw [← hclears.length] at hlt
  -- all bids of the ladder leave
  have hsubset : (List.range (2 ^ 32)).map rung ⊆ gone := by
    intro id hid
    obtain ⟨i, hi, rfl⟩ := mem_map.mp hid
    obtain ⟨st, hst, hsender⟩ := hc.live i (mem_range.mp hi)
    exact (hclears.covers _).mpr ⟨st, hst, hsender, .inl rfl⟩
  have hnodup : ((List.range (2 ^ 32)).map rung).Nodup := nodup_range.map fun _ _ hij => rung_injective hij
  have hle := (hnodup.subperm hsubset).length_le
  rw [length_map, length_range] at hle
  omega

end Fxp

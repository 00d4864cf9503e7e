import Fxp.CascadeSteps

/-!
# Orders that leave the market

A cancel, an expiry and a mass cancel take live orders out of their containers one by one.  Each is a path between two
idle calls, and the lookups on the way find what they look for.
-/

namespace Fxp

open OrderBook Checked List

variable {R : Type} {x : Context R} {a : Bool}

/-- The orders `ids` are gone and nothing else happened to an order. -/
structure Finished (c : Call R) (ids : List String) (c' : Call R) : Prop where
  states : ∀ id : String, c'.engine.states[id]? = if id ∈ ids then none else c.engine.states[id]?
  calls : ∀ id : String, c'.engine.callMarkets[id]? = if id ∈ ids then none else c.engine.callMarkets[id]?
  queue : ∀ s p, c'.engine.book.queue s p ≠ [] → c.engine.book.queue s p ≠ []
  engine : c'.engine =
    { c.engine with
      book := c'.engine.book
      stopBook := c'.engine.stopBook
      callMarkets := c'.engine.callMarkets
      heldClose := c'.engine.heldClose
      states := c'.engine.states
      issued := c'.engine.issued }

theorem Finished.nil (c : Call R) : Finished c [] c := ⟨fun _ => rfl, fun _ => rfl, fun _ _ h => h, rfl⟩

theorem Finished.append {c c₁ c₂ : Call R} {ids ids' : List String} (h₁ : Finished c ids c₁)
    (h₂ : Finished c₁ ids' c₂) : Finished c (ids ++ ids') c₂ where
  states id := by
    rw [h₂.states, h₁.states]
    by_cases h : id ∈ ids <;> by_cases h' : id ∈ ids' <;> simp [h, h']
  calls id := by
    rw [h₂.calls, h₁.calls]
    by_cases h : id ∈ ids <;> by_cases h' : id ∈ ids' <;> simp [h, h']
  queue s p h := h₁.queue s p (h₂.queue s p h)
  engine := by rw [h₂.engine, h₁.engine]

section removeLive

variable {c : Call R} {id : String} {st : OrderState R}

theorem Inv.place (hinv : Inv x (idle a c)) (hst : c.engine.states[id]? = some st) :
    ∃ pl o, pl ≠ .transit ∧ (∀ pl', (idle a c).slot id pl' = if pl = pl' then [o] else []) ∧ Agrees id o st ∧
      pl.Holds o st := by
  obtain ⟨pl, o, hslot, hagrees, hholds, -⟩ := (hinv.tracked id).of_state hst
  refine ⟨pl, o, fun hpl => ?_, hslot, hagrees, hholds⟩
  have htransit := hslot .transit
  rw [if_pos hpl] at htransit
  cases htransit

theorem StopBook.cancelFor_spec {stops : StopBook} {o : Order}
    (hone : stops.parked.filter (·.orderId = o.orderId) = [o]) :
    ∃ pre post, stops.parked = pre ++ o :: post ∧
    stops.cancelFor o.orderId o.traderId = .ok ({ parked := pre ++ post }, o) := by
  have hmem : o ∈ stops.parked := by
    have : o ∈ stops.parked.filter (·.orderId = o.orderId) := by rw [hone]; exact mem_singleton_self o
    exact (mem_filter.mp this).1
  obtain ⟨pre, post, hsplit⟩ := append_of_mem hmem
  have hpre : ∀ a ∈ pre, a.orderId ≠ o.orderId := by
    rw [hsplit, filter_append, filter_cons_of_pos (by simp)] at hone
    have hlen := congrArg List.length hone
    simp only [length_append, length_cons, length_nil] at hlen
    have hnil : pre.filter (·.orderId = o.orderId) = [] := eq_nil_of_length_eq_zero (by omega)
    intro a ha heq
    have := filter_eq_nil_iff.mp hnil a ha
    simp [heq] at this
  refine ⟨pre, post, hsplit, ?_⟩
  have hfind : stops.parked.find? (·.orderId = o.orderId) = some o := by
    rw [hsplit, find?_append, find?_eq_none.mpr (by simpa using hpre), find?_cons_of_pos (by simp)]
    rfl
  have herase : stops.parked.eraseP (·.orderId = o.orderId) = pre ++ post := by
    rw [hsplit, eraseP_append_right _ (by simpa using hpre), eraseP_cons_of_pos (by simp)]
  simp [StopBook.cancelFor, StopBook.ownedBy, StopBook.remove, hfind, herase, bind, Except.bind]

/-- The containers of `e'` are those of `e` without the orders `ids`; all other orders are as they were, in the same
places. -/
structure Engine.Removed (e : Engine R) (ids : List String) (e' : Engine R) : Prop where
  lookup : ∀ id : String, e'.book.orderLookup[id]? = if id ∈ ids then none else e.book.orderLookup[id]?
  displayed : ∀ id : String, e'.book.displayed[id]? = if id ∈ ids then none else e.book.displayed[id]?
  queue : ∀ s p, e'.book.queue s p = (e.book.queue s p).filter (·.orderId ∉ ids)
  calls : ∀ id : String, e'.callMarkets[id]? = if id ∈ ids then none else e.callMarkets[id]?
  held : ∀ id : String, e'.heldClose[id]? = if id ∈ ids then none else e.heldClose[id]?
  stops : e'.stopBook.parked = e.stopBook.parked.filter (·.orderId ∉ ids)

private theorem absent_eq {V : Type} {m : HashMap V} (h : m[id]? = none) (id' : String) :
    m[id']? = if id' ∈ [id] then none else m[id']? := by
  split
  · rename_i hid
    rw [mem_singleton.mp hid, h]
  · rfl

private theorem erase_eq {V : Type} (m : HashMap V) (id' : String) :
    (m.erase id)[id']? = if id' ∈ [id] then none else m[id']? := by
  simp [eq_comm]

private theorem filter_absent {l : List Order} (h : ∀ o ∈ l, o.orderId ≠ id) : l.filter (·.orderId ∉ [id]) = l :=
  filter_eq_self.mpr fun o ho => by simpa using h o ho

private theorem filter_only {l pre post : List Order} {o : Order} (hone : l.filter (·.orderId = o.orderId) = [o])
    (hsplit : l = pre ++ o :: post) : l.filter (·.orderId ∉ [o.orderId]) = pre ++ post := by
  subst hsplit
  rw [filter_append, filter_cons_of_pos (by simp)] at hone
  have hlen := congrArg List.length hone
  simp only [length_append, length_cons, length_nil] at hlen
  have habsent : ∀ {l : List Order}, (l.filter (·.orderId = o.orderId)).length = 0 → ∀ y ∈ l, y.orderId ≠ o.orderId :=
    fun h y hy => by simpa using filter_eq_nil_iff.mp (eq_nil_of_length_eq_zero h) y hy
  rw [filter_append, filter_cons_of_neg (by simp), filter_absent (habsent (by omega)),
    filter_absent (habsent (by omega))]

theorem OrderBook.Edited.dropped {b b' : OrderBook} {o : Order} (h : OrderBook.Edited b o none 0 b') (hwf : b.WF)
    (ho : b.orderLookup[o.orderId]? = some o) (s : OrderSide) (p : Int) :
    b'.queue s p = (b.queue s p).filter (·.orderId ∉ [o.orderId]) := by
  by_cases hhere : o.side = s ∧ o.price = p
  · obtain ⟨rfl, rfl⟩ := hhere
    have hgone : ∀ y ∈ b'.queue o.side o.price, y.orderId ≠ o.orderId := by
      intro y hy
      simpa using filter_eq_nil_iff.mp h.here y hy
    have hpred : (fun y : Order => decide (y.orderId ∉ [o.orderId])) = fun y => decide (y.orderId ≠ o.orderId) := by
      funext y
      simp
    rw [← filter_absent hgone, hpred]
    exact h.others
  · rw [h.elsewhere s p hhere]
    refine (filter_absent fun y hy hid => hhere ?_).symm
    have hy' := hwf.lookup_of_mem hy
    rw [hid, ho] at hy'
    cases hy'
    exact hwf.placed s p o hy

theorem Engine.Removed.of_absent {e e' : Engine R} (hwf : e.book.WF) (hnone : e.book.orderLookup[id]? = none)
    (hbook : e'.book = e.book)
    (hcalls : ∀ id' : String, e'.callMarkets[id']? = if id' ∈ [id] then none else e.callMarkets[id']?)
    (hheld : ∀ id' : String, e'.heldClose[id']? = if id' ∈ [id] then none else e.heldClose[id']?)
    (hstops : e'.stopBook.parked = e.stopBook.parked.filter (·.orderId ∉ [id])) : e.Removed [id] e' := by
  refine ⟨?_, ?_, fun _ _ => ?_, hcalls, hheld, hstops⟩
  · rw [hbook]
    exact absent_eq hnone
  · rw [hbook]
    exact absent_eq (hwf.unknown id hnone)
  rw [hbook]
  refine (filter_absent fun _ ho hid => ?_).symm
  have := hwf.lookup_of_mem ho
  rw [hid, hnone] at this
  cases this

/-- A live order is found, and it leaves the market. -/
theorem removeLive_spec (hinv : Inv x (idle a c)) (hst : c.engine.states[id]? = some st) :
    ∃ e md, c.engine.removeLive id = .ok (e, md) ∧ e.states = c.engine.states ∧ c.engine.Removed [id] e ∧
      (c.engine.book.orderLookup[id]? = none → md = none) ∧
      ∀ (owner : R) (ev : ReportEvent) (ts : Time), ev.Final →
        let c' := md.toList.foldl (Call.pushMd ts)
          ((Call.dropState { c with engine := e } id).report owner id (some st) ev ts)
        Path x (idle a c) (idle a c') ∧ Finished c [id] c' := by
  obtain ⟨pl, o, hpl, hslot, hagrees, -⟩ := hinv.place hst
  have hid := hagrees.orderId
  have hnone : ∀ pl', pl ≠ pl' → (idle a c).slot id pl' = [] := fun pl' h => by rw [hslot, if_neg h]
  have hown := hslot pl
  rw [if_pos rfl] at hown
  have hbook : pl ≠ .book → c.engine.book.orderLookup[id]? = none := fun h => Progress.slot_book.mp (hnone .book h)
  have hcall : pl ≠ .call → c.engine.callMarkets[id]? = none := fun h => Progress.slot_call.mp (hnone .call h)
  have hheld : pl ≠ .held → c.engine.heldClose[id]? = none := fun h => Progress.slot_held.mp (hnone .held h)
  have herase : ∀ id' : String, (c.engine.states.erase id)[id']? =
      if id' ∈ [id] then none else c.engine.states[id']? := fun id' => by simp [eq_comm]
  have hwf : c.engine.book.WF := hinv.book
  have hstops : pl ≠ .stops → c.engine.stopBook.parked = c.engine.stopBook.parked.filter (·.orderId ∉ [id]) :=
    fun h => by
    have hempty := hnone .stops h
    rw [Progress.slot] at hempty
    exact (filter_absent fun o ho => by simpa using filter_eq_nil_iff.mp hempty o ho).symm
  cases pl with
  | transit => exact absurd rfl hpl
  | book =>
    have ho : c.engine.book.orderLookup[id]? = some o := Option.toList_eq_singleton_iff.mp hown
    obtain ⟨b, hb, hedit, hstp⟩ := cancelOrder_spec hinv.book ho
    refine ⟨{ c.engine with book := b }, _, by rw [Engine.removeLive, show c.engine.book.cancelOrder id = _ from hb],
      rfl,
      ⟨?_, ?_, ?_, absent_eq (hcall (by decide)), absent_eq (hheld (by decide)), hstops (by decide)⟩,
      (fun h => by cases h.symm.trans ho), ?_⟩
    all_goals have hedit' : OrderBook.Edited c.engine.book o none 0 b := hedit
    · subst hid
      exact fun id => by simpa [eq_comm] using hedit'.lookup id
    · subst hid
      exact fun id => by simpa [eq_comm] using hedit'.displayed id
    · subst hid
      exact hedit'.dropped hwf ho
    intro owner ev ts hev
    have hshift : Shift x (idle a c) id o .drop .book _ :=
      .book ho hedit (hstp.trans hinv.stp) trivial (fun _ h => by cases h) (fun _ => ⟨rfl, rfl, rfl⟩)
        (fun _ h => by cases h)
    have hstep := Step.dropped hst hshift hev owner ts
    refine ⟨.head hstep (Path.flush (x := x) ?_), herase, absent_eq (hcall (by decide)), fun s p h => ?_, rfl⟩
    · intro s
      rfl
    intro hnil
    refine h ?_
    have hmem : ∀ y, y ∉ b.queue s p := by
      intro y hy
      rcases (hedit.mem_queue hinv.book (hid ▸ ho)).mp hy with ⟨-, -, -, _, hl, -⟩ | ⟨-, hy'⟩
      · cases hl
      have hnil' : (idle a c).call.engine.book.queue s p = [] := hnil
      rw [hnil'] at hy'
      cases hy'
    exact eq_nil_iff_forall_not_mem.mpr hmem
  | call =>
    have ho : c.engine.callMarkets[id]? = some o := Option.toList_eq_singleton_iff.mp hown
    have hcontains := Maps.contains_of_some ho
    refine ⟨{ c.engine with callMarkets := c.engine.callMarkets.erase id }, none, ?_, rfl,
      .of_absent hwf (hbook (by decide)) rfl (erase_eq _) (absent_eq (hheld (by decide))) (hstops (by decide)),
      fun _ => rfl, ?_⟩
    · rw [Engine.removeLive, cancelOrder_none (hbook (by decide))]
      simp [hcontains]
    intro owner ev ts hev
    have hshift : Shift x (idle a c) id o .drop .call _ := .call ho trivial (.inl rfl)
    have hstep := Step.dropped hst hshift hev owner ts
    exact ⟨.single hstep, herase, fun id' => by simp [Call.report, Call.dropState, eq_comm], fun s p h => h, rfl⟩
  | held =>
    have ho : c.engine.heldClose[id]? = some o := Option.toList_eq_singleton_iff.mp hown
    have hcontains := Maps.contains_of_some ho
    refine ⟨{ c.engine with heldClose := c.engine.heldClose.erase id }, none, ?_, rfl,
      .of_absent hwf (hbook (by decide)) rfl (absent_eq (hcall (by decide))) (erase_eq _) (hstops (by decide)),
      fun _ => rfl, ?_⟩
    · rw [Engine.removeLive, cancelOrder_none (hbook (by decide))]
      simp [hcontains, Maps.contains_eq_false_iff.mpr (hcall (by decide))]
    intro owner ev ts hev
    have hshift : Shift x (idle a c) id o .drop .held _ := .held ho rfl
    have hstep := Step.dropped hst hshift hev owner ts
    exact ⟨.single hstep, herase, absent_eq (hcall (by decide)), fun s p h => h, rfl⟩
  | stops =>
    rw [Progress.slot] at hown
    subst hid
    obtain ⟨pre, post, hsplit, hcancelFor⟩ := StopBook.cancelFor_spec hown
    have hrest : pre ++ post = c.engine.stopBook.parked.filter (·.orderId ∉ [o.orderId]) :=
      (filter_only hown hsplit).symm
    refine ⟨{ c.engine with stopBook := { parked := pre ++ post } }, none, ?_, rfl,
      .of_absent hwf (hbook (by decide)) rfl (absent_eq (hcall (by decide))) (absent_eq (hheld (by decide))) hrest,
      fun _ => rfl, ?_⟩
    · rw [Engine.removeLive, cancelOrder_none (hbook (by decide))]
      have hsender : c.engine.stopBook.cancelFor o.orderId st.sender = .ok ({ parked := pre ++ post }, o) :=
        hagrees.trader ▸ hcancelFor
      simp [Maps.contains_eq_false_iff.mpr (hcall (by decide)), Maps.contains_eq_false_iff.mpr (hheld (by decide)),
        hst, hsender]
    intro owner ev ts hev
    have hshift : Shift x (idle a c) o.orderId o .drop .stops _ := .stops hsplit rfl rfl
    have hstep := Step.dropped hst hshift hev owner ts
    exact ⟨.single hstep, herase, absent_eq (hcall (by decide)), fun s p h => h, rfl⟩

theorem finish_safe (hinv : Inv x (idle a c)) (hst : c.engine.states[id]? = some st) (owner : OrderState R → R)
    {ev} (hev : ev.Final) (ts : Time) :
    Safe (c.finish id owner ev ts) fun c' => Path x (idle a c) (idle a c') ∧ Finished c [id] c' := by
  obtain ⟨e, _, hremove, hstates, -, -, hpath⟩ := removeLive_spec hinv hst
  have hst' : e.states[id]? = some st := by rw [hstates, hst]
  simp only [Call.finish, hremove, ok_bind, hst', get_some]
  exact hpath (owner st) ev ts hev

end removeLive

section targets

variable {c : Call R}

theorem mem_targets {e : Engine R} {P : String → OrderState R → Bool} {id : String} :
    id ∈ e.targets P ↔ ∃ st, e.states[id]? = some st ∧ P id st = true := by
  simp only [Engine.targets, mem_map, mem_insertionSort, mem_filter]
  constructor
  · rintro ⟨⟨_, _⟩, ⟨⟨_, st⟩, ⟨hmem, hP⟩, heq⟩, rfl⟩
    cases heq
    exact ⟨st, Maps.Iteration.mem_entries.mp hmem, hP⟩
  · rintro ⟨st, hst, hP⟩
    exact ⟨(st.arrival, id), ⟨(id, st), ⟨Maps.Iteration.mem_entries.mpr hst, hP⟩, rfl⟩, rfl⟩

theorem nodup_targets (e : Engine R) (P : String → OrderState R → Bool) : (e.targets P).Nodup := by
  have hkeys : (e.states.toList.map Prod.fst).Nodup := by
    rw [Std.ExtTreeMap.map_fst_toList_eq_keys]
    exact Maps.keys_nodup e.states
  have hperm : (e.targets P).Perm ((e.states.toList.filter fun s => P s.1 s.2).map Prod.fst) := by
    refine ((perm_insertionSort _ _).map _).trans ?_
    rw [map_map]
    exact ((e.iterations.states.entries_perm e.states).filter _).map _
  exact hperm.nodup_iff.mpr (hkeys.sublist ((filter_sublist).map _))

theorem foldlM_finish {ids : List String} {f : Call R → String → Except Panic (Call R)} (hinv : Inv x (idle a c))
    (hids : ids.Nodup) (hlive : ∀ id ∈ ids, ∃ st, c.engine.states[id]? = some st)
    (hf : ∀ c id st, Inv x (idle a c) → c.engine.states[id]? = some st →
      Safe (f c id) fun c' => Path x (idle a c) (idle a c') ∧ Finished c [id] c') :
    Safe (ids.foldlM f c) fun c' => Path x (idle a c) (idle a c') ∧ Finished c ids c' := by
  have hrun :=
    @Safe.foldlM String (Call R) f (fun rest c' => ∃ done, ids = done ++ rest ∧ Path x (idle a c) (idle a c') ∧
      Finished c done c')
    ?_ ids c ⟨[], rfl, .refl, .nil c⟩
  · refine hrun.mono ?_
    rintro _ ⟨_, hdone, hpath, hfin⟩
    rw [hdone, append_nil]
    exact ⟨hpath, hfin⟩
  rintro id _ c' ⟨done, hdone, hpath, hfin⟩
  obtain ⟨st, hst⟩ := hlive id (by rw [hdone]; simp)
  have hnot : id ∉ done := by
    rw [hdone] at hids
    exact fun hmem => (nodup_append.mp hids).2.2 id hmem id mem_cons_self rfl
  have hst' : c'.engine.states[id]? = some st := by rw [hfin.states, if_neg hnot, hst]
  refine (hf c' id st (hpath.inv hinv) hst').mono ?_
  rintro _ ⟨hpath', hfin'⟩
  exact ⟨done ++ [id], by rw [hdone]; simp, hpath.trans hpath', hfin.append hfin'⟩

private theorem finishOrder_safe {id st} (hinv : Inv x (idle a c))
    (hst : c.engine.states[id]? = some st) (expired : Bool) (instant : Time) :
    Safe (c.finishOrder expired instant id) fun c' => Path x (idle a c) (idle a c') ∧ Finished c [id] c' := by
  refine finish_safe hinv hst OrderState.outputTx ?_ instant
  cases expired
  · exact .of_type (.inl rfl) rfl rfl rfl not_stpReason_empty
  · exact .of_type (.inr rfl) rfl rfl rfl not_stpReason_empty

private theorem foldlM_finishOrder (hinv : Inv x (idle a c)) (P : String → OrderState R → Bool) (expired : Bool)
    (instant : Time) :
    Safe ((c.engine.targets P).foldlM (Call.finishOrder expired instant) c) fun c' =>
      Path x (idle a c) (idle a c') ∧ Finished c (c.engine.targets P) c' := by
  refine foldlM_finish hinv (nodup_targets _ _) (fun id hid => ?_) fun c id st hinv hst =>
    finishOrder_safe hinv hst expired instant
  obtain ⟨st, hst, -⟩ := mem_targets.mp hid
  exact ⟨st, hst⟩

theorem Finished.left {P : String → OrderState R → Bool} {c' : Call R} (h : Finished c (c.engine.targets P) c')
    {id : String}
    {st : OrderState R} (hst : c'.engine.states[id]? = some st) : c.engine.states[id]? = some st ∧ P id st = false := by
  rw [h.states] at hst
  split at hst
  · cases hst
  rename_i hnot
  refine ⟨hst, ?_⟩
  by_contra hP
  exact hnot (mem_targets.mpr ⟨st, hst, by simpa using hP⟩)

theorem expire_safe (hinv : Inv x (idle a c)) (instant : Time) (day : Bool) :
    Safe (c.expire instant day) fun c' => Path x (idle a c) (idle a c') ∧ (∃ ids, Finished c ids c') ∧
      ∀ (id : String) (st : OrderState R), c'.engine.states[id]? = some st → Call.expires instant day st = false :=
  (foldlM_finishOrder hinv _ true instant).mono fun _ h => ⟨h.1, ⟨_, h.2⟩, fun _ _ hst => (h.2.left hst).2⟩

/-- After an auction no queued market order is left, and no order that was good for this auction only. -/
theorem cancelRemainders_safe (hinv : Inv x (idle a c)) (tif : TimeInForce) (instant : Time) :
    Safe (c.cancelRemainders tif instant) fun c' => Path x (idle a c) (idle a c') ∧ (∃ ids, Finished c ids c') ∧
      (∀ id : String, c'.engine.callMarkets[id]? = none) ∧
      ∀ (id : String) (st : OrderState R), c'.engine.states[id]? = some st → st.timeInForce ≠ tif := by
  refine (foldlM_finishOrder hinv _ false instant).mono fun c' h => ⟨h.1, ⟨_, h.2⟩, fun id => ?_, fun id st hst => ?_⟩
  rotate_left
  · have := (h.2.left hst).2
    simp only [Bool.or_eq_false_iff, decide_eq_false_iff_not] at this
    exact this.1
  rw [h.2.calls]
  split
  · rfl
  rename_i hnot
  rcases ho : c.engine.callMarkets[id]? with _ | _
  · rfl
  -- a queued market order is live, so it is one of the targets
  obtain ⟨-, st, hst, -⟩ := (hinv.tracked id).of_mem
    (Progress.mem_call.mpr ho)
  refine absurd (mem_targets.mpr ⟨st, hst, ?_⟩) hnot
  simp [Maps.contains_of_some ho]

end targets

end Fxp

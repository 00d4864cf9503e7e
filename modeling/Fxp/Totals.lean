import Fxp.Rejects

/-!
# Total quantities

The filled quantity of an order is kept twice, in its report state and on the book. As long as the two agree, a
replace by total quantity leaves the order with that total and with what is missing to it.
-/

namespace Fxp

open Checked List

variable {R : Type}

/-- The request does not hold back for the close an order of the book that was filled in part. -/
def keepsFilled (_ e : Engine R) : Op R → Prop
  | .cancelReplace m => e.book.orderLookup.contains m.orderId = true → e.phase ≠ .closingCall →
      e.states[m.orderId]?.all (fun st => (timeInForceOf m.newTimeInForce).all fun tif =>
        decide (tif.getD st.timeInForce = .atClose → st.cumQty = 0)) = true
  | _ => True

instance (e e' : Engine R) : (op : Op R) → Decidable (keepsFilled e e' op)
  | .cancelReplace _ => inferInstanceAs (Decidable (_ → _ → _ = true))
  | .newOrder .. | .cancel _ | .massCancel _ | .subscribe _ | .beginOpeningCall _ | .tick => instDecidableTrue

/-- The containers record `n` as filled of the order `id`. -/
structure Progress.Records (w : Progress R) (id : String) (n : Nat) : Prop where
  book : ∀ o, w.call.engine.book.orderLookup[id]? = some o → w.call.engine.book.cumFilled[id]?.getD 0 = n
  held : ∀ o, w.call.engine.heldClose[id]? = some o → o.orderType = .limit → n = 0
  transit : ∀ t ∈ w.transit, t.order.orderId = id → t.order.orderType = .limit → ∀ f, t.filled = some f →
    n = f ∧ (t.order.timeInForce = .atClose → f ≠ 0 → w.call.engine.phase = .closingCall)

/-- The containers record what the report states say. -/
def Progress.Recorded (w : Progress R) : Prop := ∀ (id : String) (st : OrderState R),
  w.call.engine.states[id]? = some st → w.Records id st.cumQty

theorem Progress.Records.congr {w w' : Progress R} {id : String} {n : Nat} (h : w.Records id n)
    (hlookup : w'.call.engine.book.orderLookup[id]? = w.call.engine.book.orderLookup[id]?)
    (hfilled : w'.call.engine.book.cumFilled[id]?.getD 0 = w.call.engine.book.cumFilled[id]?.getD 0)
    (hheld : w'.call.engine.heldClose[id]? = w.call.engine.heldClose[id]?)
    (htransit : ∀ t ∈ w'.transit, t.order.orderId = id → t ∈ w.transit ∨ t.filled = none)
    (hphase : w'.call.engine.phase = w.call.engine.phase) : w'.Records id n := by
  refine ⟨fun o ho => ?_, fun o ho => ?_, fun t ht hid htype f hf => ?_⟩
  · rw [hlookup] at ho
    rw [hfilled]
    exact h.book o ho
  · rw [hheld] at ho
    exact h.held o ho
  rw [hphase]
  rcases htransit t ht hid with hold | hnone
  · exact h.transit t hold hid htype f hf
  · rw [hnone] at hf
    cases hf

section recorded

variable {x : Context R} {w w' w₁ : Progress R}

/-- Elsewhere than in its own container nothing is recorded of an order. -/
theorem Progress.Records.of_place {id pl o} {n : Nat}
    (hslot : ∀ pl', w.slot id pl' = if pl = pl' then [o] else [])
    (hbook : pl = .book → w.call.engine.book.cumFilled[id]?.getD 0 = n)
    (hheld : pl = .held → o.orderType = .limit → n = 0)
    (htransit : pl = .transit → ∀ t ∈ w.transit, t.order.orderId = id → t.order.orderType = .limit → ∀ f,
      t.filled = some f → n = f ∧ (t.order.timeInForce = .atClose → f ≠ 0 → w.call.engine.phase = .closingCall)) :
    w.Records id n := by
  have hplace : ∀ {pl'} {o' : Order}, o' ∈ w.slot id pl' → pl = pl' ∧ o' = o := by
    intro pl' o' ho'
    rw [hslot pl'] at ho'
    split at ho'
    · exact ⟨by assumption, mem_singleton.mp ho'⟩
    · cases ho'
  refine ⟨fun o' ho' => ?_, fun o' ho' htype => ?_, fun t ht hid htype f hf => ?_⟩
  · exact hbook (hplace (Progress.mem_book.mpr ho')).1
  · obtain ⟨hpl, rfl⟩ := hplace (Progress.mem_held.mpr ho')
    exact hheld hpl htype
  exact htransit (hplace (Progress.mem_slot_transit ht hid)).1 t ht hid htype f hf

/-- An edit leaves the records of the other orders alone, and adds to those of its own order what is filled. -/
theorem Shift.records {id : String} {o : Order} {k : Edit} {pl : Place} (hinv : Inv x w) (h : Shift x w id o k pl w₁)
    {id' : String} {n : Nat} (hw : w.Records id' n) (hrest : id = id' → k.rest o ≠ 0)
    (hsum : id = id' → n + k.traded < 2 ^ 32) : w₁.Records id' (if id = id' then n + k.traded else n) := by
  by_cases hid' : id = id'
  · subst hid'
    obtain ⟨hone, -⟩ := (hinv.tracked id).of_mem h.mem_slot
    have hslot : ∀ pl', w₁.slot id pl' = if pl = pl' then [o.withQuantity (k.rest o)] else [] := by
      intro pl'
      rw [h.slot hinv, hone pl']
      by_cases hpl : pl = pl' <;> simp [hpl, hrest rfl]
    rw [if_pos rfl]
    cases h with
    | @book _ ho hedit =>
      refine .of_place hslot (fun _ => ?_) (fun h => by cases h) (fun h => by cases h)
      have hsome : (k.left o (w.call.engine.book.visible o)).isSome = true := by
        have hmap := k.left_map o (w.call.engine.book.visible o)
        rw [if_neg (hrest rfl)] at hmap
        rw [← Option.isSome_map, hmap]
        rfl
      rw [Call.onEngine_engine, hedit.cumFilled, if_pos (hinv.book.orderId_eq ho), hsome, if_pos rfl, hw.book o ho,
        wrapU32_of_lt (hsum rfl)]
    | @transit pre post _ ht ho hid =>
      refine .of_place hslot (fun h => by cases h) (fun h => by cases h) fun _ t' ht' hid' _ _ hf => ?_
      have hown := hone .transit
      rw [if_pos rfl, Progress.slot, ht] at hown
      obtain ⟨hpre, hpost⟩ := filter_transit ho hid hown
      simp only [mem_append] at ht'
      rcases ht' with (hmem | hnew) | hmem
      · have hmem' : t'.order ∈ (pre.map Transit.order).filter (·.orderId = id) :=
          mem_filter.mpr ⟨mem_map.mpr ⟨t', hmem, rfl⟩, by simpa using hid'⟩
        rw [hpre] at hmem'
        cases hmem'
      · split at hnew
        · cases hnew
        · cases mem_singleton.mp hnew
          cases hf
      · have hmem' : t'.order ∈ (post.map Transit.order).filter (·.orderId = id) :=
          mem_filter.mpr ⟨mem_map.mpr ⟨t', hmem, rfl⟩, by simpa using hid'⟩
        rw [hpost] at hmem'
        cases hmem'
    | call => exact .of_place hslot (fun h => by cases h) (fun h => by cases h) fun h => by cases h
    | stops _ _ hkind | held _ hkind =>
      subst hkind
      exact absurd rfl (hrest rfl)
  · rw [if_neg hid']
    cases h with
    | book ho hedit =>
      have hid := hinv.book.orderId_eq ho
      refine hw.congr ?_ ?_ rfl (fun t ht _ => .inl ht) rfl
      · rw [Call.onEngine_engine, hedit.lookup, hid, if_neg hid']
      · rw [Call.onEngine_engine, hedit.cumFilled, hid, if_neg hid']
    | @transit _ _ _ ht =>
      refine hw.congr rfl rfl rfl (fun t' ht' _ => ?_) rfl
      simp only [mem_append] at ht'
      rcases ht' with (hpre | hnew) | hpost
      · exact .inl (by rw [ht]; exact mem_append_left _ hpre)
      · split at hnew
        · cases hnew
        · cases mem_singleton.mp hnew
          exact .inr rfl
      · exact .inl (by rw [ht]; exact mem_append_right _ (mem_cons_of_mem _ hpost))
    | call | stops => exact hw.congr rfl rfl rfl (fun t ht _ => .inl ht) rfl
    | held =>
      refine hw.congr rfl rfl ?_ (fun t ht _ => .inl ht) rfl
      rw [Call.onEngine_engine, Maps.getElem?_erase, if_neg hid']

theorem Progress.Recorded.congr (hw : w.Recorded) (hbook : w'.call.engine.book = w.call.engine.book)
    (hheld : w'.call.engine.heldClose = w.call.engine.heldClose)
    (hstates : w'.call.engine.states = w.call.engine.states)
    (htransit : ∀ t ∈ w'.transit, t ∈ w.transit) (hphase : w'.call.engine.phase = w.call.engine.phase) :
    w'.Recorded := by
  intro id st hst
  rw [hstates] at hst
  exact (hw id st hst).congr (by rw [hbook]) (by rw [hbook]) (by rw [hheld]) (fun t ht _ => .inl (htransit t ht)) hphase

theorem Progress.Records.entered {id} {n : Nat} {t} (hinv : Inv x w) (ht : t ∈ w.transit)
    (hid : t.order.orderId = id) (hn : t.order.orderType = .limit → ∀ f, t.filled = some f →
      n = f ∧ (t.order.timeInForce = .atClose → f ≠ 0 → w.call.engine.phase = .closingCall))
    (hone : ∀ t' ∈ w.transit, t'.order.orderId = id → t' = t) : w.Records id n := by
  obtain ⟨hslot, -⟩ := (hinv.tracked id).of_mem (Progress.mem_slot_transit ht hid)
  refine .of_place hslot nofun nofun fun _ t' ht' hid' => ?_
  rw [hone t' ht' hid']
  exact hn

/-- The order of an edit has the shares that its owner is told, and the others have what they had. -/
private theorem Shift.recorded_tell {w₁ : Progress R} {pl : Place} {id : String} {o : Order} {k : Edit}
    {st rst : OrderState R} {px : Int} {owner : R} {ev : ReportEvent} {ts : Time} {printed : List (Int × Nat)}
    (hinv : Inv x w) (hst : w.call.engine.states[id]? = some st) (hshift : Shift x w id o k pl w₁) (hw : w.Recorded)
    (hinv' : Inv x { w₁ with
      call := w₁.call.tell id (if k.rest o = 0 then none else some (k.state o px st)) owner rst ev ts, printed }) :
    Progress.Recorded { w₁ with
      call := w₁.call.tell id (if k.rest o = 0 then none else some (k.state o px st)) owner rst ev ts, printed } := by
  intro id' st' hst'
  rw [Call.tell_states, hshift.frame.1] at hst'
  suffices h : w₁.Records id' st'.cumQty from h.congr rfl rfl rfl (fun t ht _ => .inl ht) rfl
  split at hst'
  · rename_i hid
    split at hst'
    · cases hst'
    rename_i hrest
    have hcum : (k.state o px st).cumQty = st.cumQty + k.traded := by cases k <;> rfl
    have hsum : st.cumQty + k.traded < 2 ^ 32 := by
      obtain ⟨_, _, -, hagrees, -⟩ := (hinv'.tracked id').of_state (by rw [Call.tell_states, if_pos hid, if_neg hrest])
      have := hagrees.quantity
      have := hagrees.total
      omega
    cases hst'
    have hrec := hshift.records hinv (hw id' st (by rw [← hid]; exact hst)) (fun _ => hrest) fun _ => hsum
    rwa [if_pos hid, ← hcum] at hrec
  · rename_i hid
    have hrec := hshift.records hinv (hw id' st' hst') (absurd · hid) (absurd · hid)
    rwa [if_neg hid] at hrec

/-- A replacement on its way has the shares of the order that it takes the place of. -/
private theorem Shift.filled_swapped {w₁ : Progress R} {pl : Place} {m : CancelReplaceMsg R}
    {newTif : Option TimeInForce}
    {o : Order} {t : Transit} {st st' : OrderState R} (hok : x.Allowed keepsFilled) (hinv : Inv x w) (hw : w.Recorded)
    (hreq : x.request = some (.cancelReplace m)) (hshift : Shift x w m.orderId o .drop pl w₁)
    (hst : w.call.engine.states[m.orderId]? = some st)
    (hstart : w.call.engine.states = x.start.states ∧ w.call.engine.phase = x.start.phase ∧
      w.call.engine.book.orderLookup = x.start.book.orderLookup)
    (htransit : w.transit = []) (hparse : parseReplaceTimeInForce m.newTimeInForce = .ok newTif)
    (htif : t.order.timeInForce = newTif.getD o.timeInForce)
    (hfilled : t.filled = some (if pl = .book then w.call.engine.book.cumFilled[m.orderId]?.getD 0 else 0))
    (hcum : pl ≠ .stops → st'.cumQty = st.cumQty) (htype : t.order.orderType = o.orderType)
    (hlimit : t.order.orderType = .limit) {f : Nat} (hf : t.filled = some f) :
    st'.cumQty = f ∧ (t.order.timeInForce = .atClose → f ≠ 0 → w₁.call.engine.phase = .closingCall) := by
  have hmem := hshift.mem_slot
  obtain ⟨-, _, hst₂, ho, hholds, -⟩ := (hinv.tracked m.orderId).of_mem hmem
  cases hst.symm.trans hst₂
  rw [hfilled, Option.some.injEq] at hf
  subst hf
  have hrec := hw m.orderId st hst
  cases pl with
  | book =>
    have hlook := Progress.mem_book.mp hmem
    rw [hcum (by decide), if_pos rfl, hrec.book o hlook]
    refine ⟨rfl, fun hclose hne => by_contra fun hphase => hne ?_⟩
    -- the condition on the request is about the engine that it found, which is still the same
    obtain ⟨_, hkeeps⟩ := hok _ hreq
    rw [keepsFilled, ← hstart.1, ← hstart.2.2, hst, parseReplaceTimeInForce_eq hparse] at hkeeps
    have hphase₀ : x.start.phase ≠ .closingCall := by
      rw [← hstart.2.1]
      intro heq
      refine hphase ?_
      rw [hshift.frame.1]
      exact heq
    have hzero := hkeeps (Maps.contains_of_some hlook) hphase₀
    rw [htif, ho.timeInForce] at hclose
    exact of_decide_eq_true hzero hclose
  | stops =>
    rw [htype] at hlimit
    rcases hholds.1 with h | h <;> rw [hlimit] at h <;> cases h
  | call =>
    have hmarket : o.orderType = .market := hholds
    rw [htype, hmarket] at hlimit
    cases hlimit
  | held =>
    rw [hcum (by decide), if_neg (by decide)]
    exact ⟨hrec.held o (Progress.mem_held.mp hmem) (htype ▸ hlimit), fun _ h => absurd rfl h⟩
  | transit =>
    rw [Progress.slot, htransit] at hmem
    cases hmem

/-- A new order has no shares, and the orders that were there have what they had. -/
private theorem Progress.Recorded.enter {c : Call R} {id : String} {o : Order} {st : OrderState R} {ack : Bool}
    (hinv : Inv x w) (hw : w.Recorded) (hnew : w.call.engine.states[id]? = none) (hid : o.orderId = id)
    (hcum : st.cumQty = 0) (hbook : c.engine.book = w.call.engine.book)
    (hheld : c.engine.heldClose = w.call.engine.heldClose) (hphase : c.engine.phase = w.call.engine.phase)
    (hstates : ∀ id', c.engine.states[id']? = if id = id' then some st else w.call.engine.states[id']?)
    (hinv' : Inv x { w with call := c, transit := w.transit ++ [⟨o, some 0, false, ack⟩] }) :
    Progress.Recorded { w with call := c, transit := w.transit ++ [⟨o, some 0, false, ack⟩] } := by
  intro id' st' hst'
  rw [hstates] at hst'
  split at hst'
  · rename_i heq
    cases hst'
    refine .entered hinv' (mem_append_right _ (mem_singleton_self _)) (hid.trans heq) ?_ ?_
    · intro _ f hf
      cases hf
      exact ⟨hcum, fun _ h => absurd rfl h⟩
    intro t' ht' hid'
    rcases mem_append.mp ht' with hold | hlast
    · -- an order on its way has a state
      obtain ⟨-, _, hst, -⟩ := (hinv.tracked id').of_mem (Progress.mem_slot_transit hold hid')
      rw [← heq, hnew] at hst
      cases hst
    · exact mem_singleton.mp hlast
  · rename_i hne
    refine (hw id' st' hst').congr (by rw [hbook]) (by rw [hbook]) (by rw [hheld]) (fun t ht hid' => ?_) hphase
    rcases mem_append.mp ht with hold | hlast
    · exact .inl hold
    · cases mem_singleton.mp hlast
      exact absurd (hid.symm.trans hid') hne

theorem Step.recorded (hok : x.Allowed keepsFilled) (hinv : Inv x w) (h : Step x w w') (hw : w.Recorded) :
    w'.Recorded := by
  have hinv' := h.inv hinv
  cases h with
  | edit hst hshift => exact hshift.recorded_tell hinv hst hw hinv'
  | @enter order owner arrival o _ ack _ _ _ _ _ hnew _ hagrees =>
    have hcum : (OrderState.new order o.quantity owner arrival).cumQty = 0 := rfl
    refine hw.enter hinv hnew hagrees.orderId hcum ?_ ?_ ?_ (fun id' => ?_) hinv' <;> cases ack <;>
      simp [Call.setState, Call.acknowledge, Call.report, Maps.getElem?_insert]
  | @rest pre post t filled b ht _ htype hfilled _ hadd =>
    intro id' st' hst'
    have hrec := hw id' st' hst'
    by_cases hid : t.order.orderId = id'
    · have hmem : t.order ∈ Progress.slot { w with
          call := w.call.onEngine fun e => { e with book := b }
          transit := pre ++ post
          rested := w.rested ++
            [{ updateType := .newOrder, price := t.order.price, quantity := OrderBook.firstSlice t.order
               side := t.order.side }]
          crossed := true } id' .book := by
        simp [Progress.slot, hadd.lookup, hid]
      obtain ⟨hslot, -⟩ := (hinv'.tracked id').of_mem hmem
      refine .of_place hslot (fun _ => ?_) (fun h => by cases h) (fun h => by cases h)
      rw [Call.onEngine_engine, hadd.cumFilled, if_pos hid]
      exact (hrec.transit t (by simp [ht]) hid htype filled hfilled).1.symm
    · refine hrec.congr ?_ ?_ rfl (fun t' ht' _ => .inl (by rw [ht]; simp at ht' ⊢; tauto)) rfl
      · rw [Call.onEngine_engine, hadd.lookup, if_neg hid]
      · rw [Call.onEngine_engine, hadd.cumFilled, if_neg hid]
  | park ht | queue ht =>
    exact hw.congr rfl rfl rfl (fun t' ht' => by rw [ht]; simp at ht' ⊢; tauto) rfl
  | @hold _ _ t ht _ hfilled _ htif hphase =>
    intro id' st' hst'
    have hrec := hw id' st' hst'
    refine ⟨hrec.book, fun o ho htype' => ?_, fun t' ht' => hrec.transit t' (by rw [ht]; simp at ht' ⊢; tauto)⟩
    rw [Call.onEngine_engine, Maps.getElem?_insert] at ho
    split at ho
    · rename_i hid
      cases ho
      obtain ⟨f, hf⟩ := Option.ne_none_iff_exists'.mp hfilled
      obtain ⟨hn, hclose⟩ := hrec.transit t (by simp [ht]) hid htype' f hf
      by_contra hne
      exact hphase (hclose htif (hn ▸ hne))
    · exact hrec.held o ho htype'
  | @trigger _ _ hperm =>
    intro id' st' hst'
    have hrec := hw id' st' hst'
    refine ⟨hrec.book, hrec.held, fun t' ht' hid htype f hf => ?_⟩
    rcases mem_append.mp ht' with hnew | hold
    · obtain ⟨o, ho, rfl⟩ := mem_map.mp hnew
      cases hf
      have hmem : o ∈ w.slot id' .stops :=
        mem_filter.mpr ⟨hperm.mem_iff.mp (mem_append_left _ ho), by simpa using (show o.orderId = id' from hid)⟩
      obtain ⟨-, _, hst, -, hholds, -⟩ := (hinv.tracked id').of_mem hmem
      cases hst.symm.trans hst'
      exact ⟨hholds.2, fun _ h => absurd rfl h⟩
    · exact hrec.transit t' hold hid htype f hf
  | @release _ hheld =>
    intro id' st' hst'
    have hrec := hw id' st' hst'
    refine ⟨hrec.book, fun o ho => ?_, fun t' ht' hid htype f hf => ?_⟩
    · simp at ho
    rcases mem_append.mp ht' with hnew | hold
    · obtain ⟨o, ho, rfl⟩ := mem_map.mp hnew
      cases hf
      have hmem : o ∈ w.call.engine.heldClose[id']?.toList := by
        rw [← hheld]
        exact mem_filter.mpr ⟨ho, by simpa using hid⟩
      exact ⟨hrec.held o (Option.mem_toList.mp hmem) htype, fun _ h => absurd rfl h⟩
    · exact hrec.transit t' hold hid htype f hf
  | @swap _ pl m _ o t st _ _ hreq hshift hst hstart htransit hparse htif _ hagrees _ _ _ _ _ hfilled hcum htype =>
    intro id' st' hst'
    rw [Call.takeOver_states, hshift.frame.1] at hst'
    split at hst'
    · rename_i hid
      cases hst'
      refine .entered hinv' (mem_singleton_self t) (hagrees.orderId.trans hid) (fun hlimit f hf => ?_) fun t' ht' _ =>
        mem_singleton.mp ht'
      rw [Call.takeOver_phase]
      exact hshift.filled_swapped hok hinv hw hreq hst hstart htransit hparse htif hfilled (fun h => (hcum.2 h).1) htype
        hlimit hf
    · split at hst'
      · cases hst'
      rename_i hnew' hold'
      have hrec := hshift.records hinv (hw id' st' hst') (absurd · hold') (absurd · hold')
      rw [if_neg hold'] at hrec
      refine hrec.congr rfl rfl rfl (fun t' ht' hid => ?_) rfl
      cases mem_singleton.mp ht'
      exact absurd (hagrees.orderId.symm.trans hid) hnew'
  | note hquiet =>
    obtain ⟨-, -, hheld, hstates, hphase, -⟩ := hquiet.frame
    intro id' st' hst'
    have hst₀ : w.call.engine.states[id']? = some st' := by rw [← hst', hstates]
    exact (hw id' st' hst₀).congr (hquiet.book.lookup id') (hquiet.book.cumFilled id') (by rw [hheld])
      (fun t ht _ => .inl ht) hphase
  | setPhase _ htransit =>
    intro id' st' hst'
    have hst₀ : w.call.engine.states[id']? = some st' := by rw [← hst', Call.setPhase_engine]
    have hrec := hw id' st' hst₀
    refine ⟨fun o ho => ?_, fun o ho => ?_, fun t ht => ?_⟩
    · rw [Call.setPhase_engine] at ho ⊢
      exact hrec.book o ho
    · rw [Call.setPhase_engine] at ho
      exact hrec.held o ho
    · rw [htransit] at ht
      cases ht
  | _ => exact hw.congr rfl rfl rfl (fun t ht => ht) rfl

end recorded

section totals

variable {c c' c₁ c₂ : Call R} {clock : Clock} {m : CancelReplaceMsg R} {st : OrderState R}

/-- The replace was accepted: its two reports come first and give the replacement the total that was asked for, with
`cum` filled. -/
def Totalled (m : CancelReplaceMsg R) (cum : Nat) (c c' : Call R) : Prop :=
  ∃ (r₁ r₂ : Report) (rest : List (Output R)),
    c'.out = c.out ++ .executionReport m.outputTx r₁ :: .executionReport m.outputTx r₂ :: rest ∧
    r₁.executionType = .replaced ∧ r₁.orderId = m.orderId ∧ r₂.executionType = .new ∧ r₂.orderId = m.newOrderId ∧
    r₂.orderQuantity = m.newQuantity.toInt ∧ r₂.cumQuantity = cum ∧ r₂.leavesQuantity = m.newQuantity.toInt - cum

/-- The replace was rejected, or accepted with a total above what is filled. -/
def TotalAnswer (m : CancelReplaceMsg R) (cum : Nat) (c c' : Call R) : Prop :=
  Refused m.orderId c c' ∨ ((cum : Int) < m.newQuantity.toInt ∧ Totalled m cum c c')

section

variable {cum : Nat} (h : Totalled m cum c c₁)
include h

theorem Totalled.append (hmore : NoReject c₁ c₂) : Totalled m cum c c₂ := by
  obtain ⟨r₁, r₂, rest, hout, hr⟩ := h
  obtain ⟨l, hl, -⟩ := hmore
  refine ⟨r₁, r₂, rest ++ l, ?_, hr⟩
  rw [hl, hout]
  simp

theorem Totalled.of_out (hout : c₂.out = c₁.out) : Totalled m cum c c₂ :=
  h.append (.of_out hout)

theorem Totalled.pushMd (ts : Time) (inc : MarketDataIncrementalUpdate) : Totalled m cum c (c₁.pushMd ts inc) :=
  h.append (NoReject.pushMd (.of_out rfl) ts inc)

end

section

variable (hqty : 0 < m.newQuantity.toInt)
include hqty

private theorem asU32_newQuantity : (asU32 m.newQuantity.toInt : Int) = m.newQuantity.toInt := by
  have hlt := m.newQuantity.toInt_lt
  rw [asU32, Int.toNat_of_nonneg (by omega)]
  omega

private theorem takeOver_totalled {cum : Nat} (hst : st.orderQty = asU32 m.newQuantity.toInt)
    (hcum : st.cumQty = cum) (habove : (cum : Int) < m.newQuantity.toInt) (hout : c₁.out = c.out) (ts : Time) :
    Totalled m cum c (c₁.takeOver m st ts) := by
  subst hcum
  have hlt := m.newQuantity.toInt_lt
  have heq := asU32_newQuantity hqty
  refine ⟨buildReport (c₁.engine.ids c₁.engine.issued) m.orderId c₁.engine.symbol (some st)
      { execType := .replaced, status := .replaced, leaves := st.leaves, origOrderId := m.orderId } ts,
    buildReport (c₁.engine.ids (c₁.engine.issued + 1)) m.newOrderId c₁.engine.symbol (some st)
      { execType := .new, status := .new, leaves := st.leaves, origOrderId := m.orderId } ts, [], ?_, rfl, rfl, rfl,
      rfl, ?_, ?_, ?_⟩
  · rw [← hout]
    simp [Call.takeOver, Call.setState, Call.sendReplaceReports, Call.report, Call.dropState]
  · show asI32 st.orderQty = _
    rw [hst, asI32_of_lt (by omega), heq]
  · exact asI32_of_lt (by omega)
  show asI32 st.leaves = _
  rw [OrderState.leaves, hst, asI32_of_lt (by omega)]
  omega

private theorem replaceCallMarket_total {old} (hst : c.engine.states[m.orderId]? = some st)
    (h : c.replaceCallMarket clock m old = .ok c') : TotalAnswer m st.cumQty c c' := by
  have heq := asU32_newQuantity hqty
  have hpos : 0 < m.newQuantity := by simpa [Int32.lt_iff_toInt_lt] using hqty
  simp only [Call.replaceCallMarket, hst, get_some, ok_bind] at h
  split at h
  · cases h
    exact .inl ⟨_, _, _, _, rfl, rfl⟩
  rename_i hnot
  simp only [hpos, true_and, Nat.not_le] at hnot
  obtain ⟨_, -, h⟩ := bind_eq_ok.mp h
  obtain ⟨orderQty, hadd, h⟩ := bind_eq_ok.mp h
  have hlt := asU32_int32_lt m.newQuantity
  have hsum : orderQty = asU32 m.newQuantity.toInt := by
    have := ((addU32_safe fun _ => by omega).of_ok hadd).1
    omega
  refine .inr ⟨by omega, ?_⟩
  split at h
  · cases h
    exact (takeOver_totalled hqty hsum (by rfl) (by omega) rfl _).of_out rfl
  · cases h
    exact (takeOver_totalled hqty hsum (by rfl) (by omega) rfl _).of_out rfl

private theorem replaceStop_total {newTif} {arrival : Nat}
    (h : c.replaceStop clock m newTif arrival = .ok c') : TotalAnswer m 0 c c' := by
  have hmax : max m.newQuantity.toInt 0 = m.newQuantity.toInt := by omega
  have heq := asU32_newQuantity hqty
  unfold Call.replaceStop at h
  simp only [hmax] at h
  split at h
  · cases h
    exact .inl ⟨_, _, _, _, rfl, rfl⟩
  rename_i stops replacement hreplace
  have hquantity : replacement.quantity = asU32 m.newQuantity.toInt := by
    obtain ⟨orig, -, hreplace⟩ := bind_eq_ok.mp hreplace
    split at hreplace
    · cases hreplace
    cases hreplace
    show (if 0 < asU32 m.newQuantity.toInt then asU32 m.newQuantity.toInt else orig.quantity) = _
    rw [if_pos (by omega)]
  refine .inr ⟨hqty, ?_⟩
  split at h
  · refine Totalled.append ?_ (fireStop_noReject h)
    exact takeOver_totalled hqty hquantity (by rfl) hqty rfl _
  · cases h
    exact takeOver_totalled hqty hquantity (by rfl) hqty rfl _

private theorem replaceResting_total {newTif} {arrival : Nat}
    (hwf : c.engine.book.WF) (hst : c.engine.states[m.orderId]? = some st)
    (hfilled : ∀ o, c.engine.book.orderLookup[m.orderId]? = some o →
      c.engine.book.cumFilled[m.orderId]?.getD 0 = st.cumQty)
    (h : c.replaceResting clock m newTif arrival = .ok c') : TotalAnswer m st.cumQty c c' := by
  have hmax : max m.newQuantity.toInt 0 = m.newQuantity.toInt := by omega
  have heq := asU32_newQuantity hqty
  unfold Call.replaceResting at h
  simp only at h
  split at h
  · cases h
    exact .inl ⟨_, _, _, _, rfl, rfl⟩
  rename_i book replacement inc hreplace
  obtain ⟨orig, _, leaves, _, ho, -, -, hcum, hleaves, habove, hrepl, -⟩ := OrderBook.replaceOrder_ok hwf hreplace
  rw [hfilled orig ho] at hcum
  have htotal : (Call.bookChanges clock m newTif).newTotalQty = asU32 m.newQuantity.toInt := by
    simp only [Call.bookChanges, hmax]
  rw [htotal, if_neg (by omega)] at hleaves
  have hlt := habove (by omega)
  rw [htotal] at hlt
  obtain ⟨orderQty, hadd, h⟩ := bind_eq_ok.mp h
  have hquantity : replacement.quantity = leaves := by rw [hrepl]; rfl
  simp only [hst, Option.elim_some, hquantity] at hadd
  have hmax := asU32_int32_lt m.newQuantity
  have hsum : orderQty = asU32 m.newQuantity.toInt := by
    have := ((addU32_safe fun _ => by omega).of_ok hadd).1
    omega
  refine .inr ⟨by omega, ?_⟩
  simp only [hst, Option.elim_some] at h
  split at h
  · obtain ⟨_, -, h⟩ := bind_eq_ok.mp h
    cases h
    exact ((takeOver_totalled hqty hsum (by rfl) (by omega) rfl _).of_out rfl).pushMd _ _
  split at h
  · cases h
    exact (takeOver_totalled hqty hsum (by rfl) (by omega) rfl _).pushMd _ _
  obtain ⟨⟨_, _⟩, -, h⟩ := bind_eq_ok.mp h
  refine Totalled.append (Totalled.pushMd ?_ _ _) (cascade_noReject h)
  exact (takeOver_totalled hqty hsum (by rfl) (by omega) rfl _).of_out rfl

end

private theorem dispatch_total {arrival : Nat} (hsound : c.engine.Sound) (hrecorded : (idle false c).Recorded)
    (hqty : 0 < m.newQuantity.toInt) (h : c.dispatch clock (.cancelReplace m) arrival = .ok c') :
    Refused m.orderId c c' ∨ ∃ st, c.engine.states[m.orderId]? = some st ∧ TotalAnswer m st.cumQty c c' := by
  obtain ⟨⟨_, _⟩, hpre, h⟩ := bind_eq_ok.mp h
  simp only [Call.preflight] at hpre
  split at hpre
  · cases hpre
    cases h
    exact .inl ⟨_, _, _, _, rfl, rfl⟩
  rename_i hreason
  obtain ⟨st, _, hr⟩ := replaceReason_none hreason
  refine .inr ⟨st, hr.state, ?_⟩
  split at hpre
  · cases hpre
    simp only [Bool.false_eq_true, if_false] at h
    unfold Call.processReplace at h
    simp only [hr.parse] at h
    split at h
    · cases h
      exact .inl ⟨_, _, _, _, rfl, rfl⟩
    split at h
    · rename_i hstop
      obtain ⟨o, ho, hid⟩ := any_eq_true.mp hstop
      have hmem : o ∈ (idle false { engine := c.engine }).slot m.orderId .stops := mem_filter.mpr ⟨ho, hid⟩
      obtain ⟨-, st', hst', -, hholds, -⟩ := (hsound.tracked m.orderId).of_mem hmem
      have heq : st' = st := Option.some.inj (hst'.symm.trans hr.state)
      rw [← heq, hholds.2]
      exact replaceStop_total hqty h
    · exact replaceResting_total hqty hsound.book hr.state (hrecorded m.orderId st hr.state).book h
  · obtain ⟨_, hc₂, hpre⟩ := bind_eq_ok.mp hpre
    cases hpre
    cases h
    exact replaceCallMarket_total hqty hr.state hc₂

end totals

/-- In such runs the containers always record what the report states say. -/
theorem Run.recorded {e₀ e : Engine R} {out : List (Output R)} (h : Run keepsFilled e₀ e out) (hsound : e₀.Sound)
    (hstart : (idle false { engine := e₀ }).Recorded) : (idle false { engine := e }).Recorded := by
  obtain ⟨-, hrec⟩ := h.invariant (J := fun _ w => w.Recorded) hsound hstart
    (fun _ hok hinv hstep hw => hstep.recorded hok hinv hw)
    (fun hmarket _ hw => by
      refine hw.congr ?_ ?_ ?_ (fun t ht => ht) ?_ <;> simp only [idle] <;> rw [hmarket])
    (fun hw => hw.congr rfl rfl rfl (fun t ht => ht) rfl)
  exact hrec

theorem Run.recorded_new {cfg : Settings} {e : Engine R} {out : List (Output R)}
    (h : Run keepsFilled (Engine.new cfg) e out) : e.Sound ∧ (idle false { engine := e }).Recorded :=
  ⟨h.sound (.new ..), h.recorded (.new ..) fun _ st hst => by simp [idle, Engine.new] at hst⟩

/-- Where the book records what was filled, the quantity of a replacement is within the total that is asked for. -/
theorem Engine.Sound.inRange {e} (h : e.Sound) (hrecorded : (idle false { engine := e }).Recorded) (op : Op R) :
    e.inRange op = true := by
  cases op with
  | cancelReplace m =>
    by_cases hlook : e.book.orderLookup.contains m.orderId = true
    · obtain ⟨o, ho⟩ := Maps.contains_iff.mp hlook
      cases hst : e.states[m.orderId]? with
      | none => simp [Engine.inRange, hst]
      | some st =>
        obtain ⟨_, _, -, hagrees, -⟩ := (h.tracked m.orderId).of_state hst
        have hmax := asU32_max_lt m.newQuantity
        have htotal := hagrees.total
        have hquantity := hagrees.quantity
        have hfilled : e.book.cumFilled[m.orderId]?.getD 0 = st.cumQty := (hrecorded m.orderId st hst).book o ho
        simp only [Engine.inRange, hst, hfilled, Option.all_some, Bool.or_eq_true, decide_eq_true_eq]
        exact .inr (by omega)
    · simp [Engine.inRange, hlook]
  | _ => rfl

/-- As long as no partly filled order is held back for the close, no order quantity overflows, whatever the build. -/
theorem Calls.keepsRange {cfg : Settings} {e : Engine R} {out : List (Output R)}
    (h : Calls keepsFilled (Engine.new cfg) e out) : Run keepsFilled (Engine.new cfg) e out := by
  induction h with
  | nil => exact .nil
  | @call e _ _ op c _ _ htick hok hhandle ih =>
    have hticked : Run keepsFilled (Engine.new cfg) c.engine _ :=
      .call ih htick ⟨rfl, show keepsFilled e c.engine .tick from trivial⟩ rfl
    obtain ⟨hsound, hrecorded⟩ := hticked.recorded_new
    exact .call ih htick ⟨hsound.inRange hrecorded op, hok⟩ hhandle

/-- As long as no partly filled order of the book is held back for the close, a replace by total is rejected, or the
total is above what was filled, and the replacement gets it with the rest as leaves. -/
theorem replace_by_total {cfg : Settings} {e : Engine R} {out : List (Output R)}
    (h : Calls keepsFilled (Engine.new cfg) e out) {clock : Clock}
    {m : CancelReplaceMsg R} {c c' : Call R} (htick : e.tick (clock .advance) = .ok c)
    (hcall : e.apply clock (.cancelReplace m) = .ok c') (hqty : 0 < m.newQuantity.toInt) :
    (∃ owner r, c.since c' = [.executionReport owner r] ∧ r.executionType = .rejected) ∨
    ∃ (st : OrderState R) (r₁ r₂ : Report) (rest : List (Output R)), c.engine.states[m.orderId]? = some st ∧
      (st.cumQty : Int) < m.newQuantity.toInt ∧
      c.since c' = .executionReport m.outputTx r₁ :: .executionReport m.outputTx r₂ :: rest ∧
      r₁.executionType = .replaced ∧ r₁.orderId = m.orderId ∧ r₂.executionType = .new ∧ r₂.orderId = m.newOrderId ∧
      r₂.orderQuantity = m.newQuantity.toInt ∧ r₂.cumQuantity = st.cumQty ∧
      r₂.leavesQuantity = m.newQuantity.toInt - st.cumQty := by
  obtain ⟨hsound, hrecorded⟩ :=
    (Calls.call h htick (show keepsFilled e c.engine .tick from trivial) rfl).keepsRange.recorded_new
  rw [Engine.apply, htick, ok_bind] at hcall
  obtain ⟨c₁, hprocess, hcall⟩ := bind_eq_ok.mp hcall
  cases hcall
  have hout : ((Op.cancelReplace m).bindStatus c₁).out = c₁.out := rfl
  obtain ⟨c₂, hdispatch, hpublish⟩ := bind_eq_ok.mp hprocess
  have hbump :
    Leads (c.engine.context none) c { c with engine := { c.engine with nextArrival := c.engine.nextArrival + 1 } } :=
    .single (.note ((hsound.inv none c.out).silent rfl rfl rfl) fun _ => rfl)
  have hanswer := dispatch_total (hbump.inv (hsound.inv none c.out)).sound
    (hrecorded.congr rfl rfl rfl (fun _ ht => ht) rfl) hqty hdispatch
  have hrejected : Refused m.orderId { c with engine := { c.engine with nextArrival := c.engine.nextArrival + 1 } } c₂ →
      ∃ owner r, c.since ((Op.cancelReplace m).bindStatus c₁).rememberStatus = [.executionReport owner r] ∧
        r.executionType = .rejected := by
    rintro ⟨owner, _, _, _, hev, hc₂⟩
    have hfresh : c₂.engine.Fresh := by
      rw [hc₂]
      exact ((h.tidy (.new ..)).tick htick).fresh
    rw [publishIndicative_of_fresh hfresh] at hpublish
    cases hpublish
    exact ⟨owner, _, Call.since_of_append (hout.trans (by rw [hc₂]; rfl)), hev⟩
  rcases hanswer with hrefused | ⟨st, hst, hrefused | ⟨habove, htotal⟩⟩
  · exact .inl (hrejected hrefused)
  · exact .inl (hrejected hrefused)
  obtain ⟨l, hl, -⟩ := (publishIndicative_fresh hpublish).2.1
  obtain ⟨r₁, r₂, rest, hrest, hr⟩ := htotal
  refine .inr ⟨st, r₁, r₂, rest ++ l, hst, habove, Call.since_of_append ?_, hr⟩
  refine hout.trans ?_
  rw [hl, hrest]
  simp

def replaceReports (out : List (Output R)) : Option (R × Report × R × Report × List (Output R)) :=
  match out with
  | .executionReport owner₁ r₁ :: .executionReport owner₂ r₂ :: rest => some (owner₁, r₁, owner₂, r₂, rest)
  | _ => none

private theorem replaceReports_eq {out : List (Output R)} {owner₁ owner₂ : R} {r₁ r₂ : Report} {rest : List (Output R)}
    (h : replaceReports out = some (owner₁, r₁, owner₂, r₂, rest)) :
    out = .executionReport owner₁ r₁ :: .executionReport owner₂ r₂ :: rest := by
  unfold replaceReports at h
  split at h
  · cases h
    rfl
  · cases h

/-- An order is filled in part, and then replaced by a lower total. -/
theorem replace_by_total_partial : ∃ (e : Engine Nat) (c c' : Call Nat) (st : OrderState Nat) (r₁ r₂ : Report)
    (rest : List (Output Nat)), e.tick (.ofSeconds 3) = .ok c ∧
    e.apply (.at 3)
      (.cancelReplace { orderId := "A", sender := "a", newOrderId := "C", newQuantity := 6, outputTx := 0 }) =
      .ok c' ∧
    c.engine.states["A"]? = some st ∧ c.since c' = .executionReport 0 r₁ :: .executionReport 0 r₂ :: rest ∧
    r₂.orderQuantity = 6 ∧ r₂.cumQuantity = st.cumQty ∧ r₂.leavesQuantity = 6 - st.cumQty := by
  obtain ⟨e, _, hrun, hcomputes⟩ := Calls.of_computed keepsFilled (Engine.sample none)
    [orderAt 1 "A" "a" .sell 100 10, orderAt 2 "B" "b" .buy 100 4]
    (fun e _ => e.computes (.at 3)
      (.cancelReplace { orderId := "A", sender := "a", newOrderId := "C", newQuantity := 6, outputTx := 0 })
      (fun c c' => !(c.since c').any isReject) = true) (by decide +kernel)
  obtain ⟨c, c', htick, hcall, hP⟩ := Engine.of_computes hcomputes
  rcases replace_by_total hrun htick hcall (by decide) with ⟨_, _, hsince, hr⟩ |
    ⟨st, r₁, r₂, rest, hst, -, hsince, -, -, -, -, hqty, hcum, hleaves⟩
  · rw [hsince] at hP
    simp [isReject, hr] at hP
  · exact ⟨e, c, c', st, r₁, r₂, rest, htick, hcall, hst, hsince, hqty, hcum, hleaves⟩

/-- The book forgets what was filled of an order that is held back for the close: a replace by a total of `3` is
accepted although `4` were filled, and the replacement gets a total of `7`. -/
theorem replace_below_filled : ∃ (e : Engine Nat) (out : List (Output Nat)) (c c' : Call Nat) (r₁ r₂ : Report)
    (rest : List (Output Nat)), Run anyCall (Engine.sample (some .sample)) e out ∧ e.tick (.ofSeconds 310) = .ok c ∧
    e.apply (.at 310)
      (.cancelReplace { orderId := "C", sender := "a", newOrderId := "D", newQuantity := 3, outputTx := 0 }) =
      .ok c' ∧
    c.engine.states["C"]?.map OrderState.cumQty = some 4 ∧
    c.since c' = .executionReport 0 r₁ :: .executionReport 0 r₂ :: rest ∧
    r₂.executionType = .new ∧ r₂.orderId = "D" ∧ r₂.orderQuantity = 7 ∧ r₂.cumQuantity = 4 ∧ r₂.leavesQuantity = 3 := by
  obtain ⟨e, out, hrun, hcomputes⟩ := Run.of_computed anyCall (Engine.sample (some .sample))
    [orderAt 250 "A" "a" .sell 100 10, orderAt 251 "B" "b" .buy 100 4,
      replaceAt 252 "A" "C" "a" 6 0]
    (fun e _ => e.computes (.at 310)
      (.cancelReplace { orderId := "C", sender := "a", newOrderId := "D", newQuantity := 3, outputTx := 0 })
      (fun c c' => decide (c.engine.states["C"]?.map OrderState.cumQty = some 4) &&
        (replaceReports (c.since c')).any fun r => decide (r.1 = 0 ∧ r.2.2.1 = 0 ∧ r.2.2.2.1.executionType = .new ∧
          r.2.2.2.1.orderId = "D" ∧ r.2.2.2.1.orderQuantity = 7 ∧ r.2.2.2.1.cumQuantity = 4 ∧
          r.2.2.2.1.leavesQuantity = 3)) = true) (by decide +kernel)
  obtain ⟨c, c', htick, hcall, hP⟩ := Engine.of_computes hcomputes
  rw [Bool.and_eq_true, decide_eq_true_eq] at hP
  obtain ⟨hcum, hreports⟩ := hP
  obtain ⟨⟨_, r₁, _, r₂, rest⟩, heq, hr⟩ := Option.any_eq_true _ _ |>.mp hreports
  rw [decide_eq_true_eq] at hr
  obtain ⟨rfl, rfl, hr⟩ := hr
  exact ⟨e, out, c, c', r₁, r₂, rest, hrun, htick, hcall, hcum, replaceReports_eq heq, hr⟩

end Fxp

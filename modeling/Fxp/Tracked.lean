import Fxp.Progress

/-!
# Live orders

Every id with a report state is in exactly one container, and the order there agrees with the report state; an id
without one is nowhere.  `Inv` says so of a call in progress, and every step keeps it.
-/

namespace Fxp

open OrderBook List

variable {R : Type} {x : Context R}
variable {w w' : Progress R} {id : String} {o : Order} {k : Edit} {pl : Place} {st : OrderState R}

/-- The id is in one container and known to the reports, or in none. -/
inductive Tracked (x : Context R) (w : Progress R) (id : String) : Prop
  | absent (hslot : ∀ pl, w.slot id pl = []) (hst : w.call.engine.states[id]? = none)
  | live {pl : Place} {o : Order} {st : OrderState R} (hslot : ∀ pl', w.slot id pl' = if pl = pl' then [o] else [])
    (hst : w.call.engine.states[id]? = some st) (hagrees : Agrees id o st) (hholds : pl.Holds o st)
    (hknown : x.known o.traits)

structure Inv (x : Context R) (w : Progress R) : Prop where
  book : w.call.engine.book.WF
  stp : w.call.engine.book.stp = {}
  calls : ∀ (id : String) (o : Order), w.call.engine.callMarkets[id]? = some o → isCall w.call.engine.phase = true
  tracked : ∀ id, Tracked x w id

theorem Tracked.congr (h : Tracked x w id)
    (hslot : ∀ pl, w'.slot id pl = w.slot id pl) (hst : w'.call.engine.states[id]? = w.call.engine.states[id]?) :
    Tracked x w' id := by
  cases h with
  | absent hs ht => exact .absent (fun pl => (hslot pl).trans (hs pl)) (hst.trans ht)
  | live hs ht ha hh hk => exact .live (fun pl => (hslot pl).trans (hs pl)) (hst.trans ht) ha hh hk

theorem Tracked.of_mem (h : Tracked x w id)
    (ho : o ∈ w.slot id pl) : (∀ pl', w.slot id pl' = if pl = pl' then [o] else []) ∧ ∃ st,
      w.call.engine.states[id]? = some st ∧ Agrees id o st ∧ pl.Holds o st ∧ x.known o.traits := by
  cases h with
  | absent hs =>
    rw [hs pl] at ho
    cases ho
  | @live _ _ st hs ht ha hh hk =>
    rw [hs pl] at ho
    split at ho
    · rename_i hpl
      subst hpl
      cases mem_singleton.mp ho
      exact ⟨hs, st, ht, ha, hh, hk⟩
    · cases ho

theorem Progress.slot_book : w.slot id .book = [] ↔ w.call.engine.book.orderLookup[id]? = none :=
    Option.toList_eq_nil_iff

theorem Progress.slot_call : w.slot id .call = [] ↔ w.call.engine.callMarkets[id]? = none := Option.toList_eq_nil_iff

theorem Progress.slot_held : w.slot id .held = [] ↔ w.call.engine.heldClose[id]? = none := Option.toList_eq_nil_iff

theorem Progress.mem_book : o ∈ w.slot id .book ↔ w.call.engine.book.orderLookup[id]? = some o := Option.mem_toList

theorem Progress.mem_call : o ∈ w.slot id .call ↔ w.call.engine.callMarkets[id]? = some o := Option.mem_toList

theorem Progress.mem_held : o ∈ w.slot id .held ↔ w.call.engine.heldClose[id]? = some o := Option.mem_toList

theorem Progress.mem_slot_transit {t} (ht : t ∈ w.transit) (hid : t.order.orderId = id) :
    t.order ∈ w.slot id .transit :=
  mem_filter.mpr ⟨mem_map.mpr ⟨t, ht, rfl⟩, by simpa using hid⟩

theorem Inv.in_transit (hinv : Inv x w) {t} (ht : t ∈ w.transit) :
    ∃ st, w.call.engine.states[t.order.orderId]? = some st ∧ Agrees t.order.orderId t.order st ∧
      x.known t.order.traits ∧ ∀ pl, pl ≠ .transit → w.slot t.order.orderId pl = [] := by
  obtain ⟨hslot, st, hst, hagrees, -, hknown⟩ :=
    (hinv.tracked t.order.orderId).of_mem (Progress.mem_slot_transit ht rfl)
  exact ⟨st, hst, hagrees, hknown, fun pl hpl => by rw [hslot, if_neg (Ne.symm hpl)]⟩

theorem Inv.not_on_book (hinv : Inv x w) {t} (ht : t ∈ w.transit) :
    w.call.engine.book.orderLookup[t.order.orderId]? = none := by
  obtain ⟨-, -, -, -, hslot⟩ := hinv.in_transit ht
  exact Progress.slot_book.mp (hslot .book (by decide))

theorem Tracked.of_state (h : Tracked x w id)
    (hst : w.call.engine.states[id]? = some st) : ∃ pl o, (∀ pl', w.slot id pl' = if pl = pl' then [o] else []) ∧
      Agrees id o st ∧ pl.Holds o st ∧ x.known o.traits := by
  cases h with
  | absent _ ht =>
    rw [ht] at hst
    cases hst
  | @live pl o _ hs ht ha hh hk =>
    rw [ht, Option.some.injEq] at hst
    subst hst
    exact ⟨pl, o, hs, ha, hh, hk⟩

theorem Tracked.of_none (h : Tracked x w id) (hst : w.call.engine.states[id]? = none)
    (pl : Place) : w.slot id pl = [] := by
  cases h with
  | absent hs => exact hs pl
  | live _ ht =>
    rw [ht] at hst
    cases hst

theorem Edit.left_map (k : Edit) (o : Order) (v : Nat) :
    ((k.left o v).map fun l => o.withQuantity l.1) =
      if k.rest o = 0 then none else some (o.withQuantity (k.rest o)) := by
  have hif : ∀ n d : Nat, ((if n = 0 then none else some (n, d) : Option (Nat × Nat)).map fun l => o.withQuantity l.1) =
      if n = 0 then none else some (o.withQuantity n) := by
    intro n d
    split <;> rfl
  cases k with
  | fill | auction | cut => exact hif _ _
  | drop => rfl

theorem Edit.fits {b : OrderBook} (hwf : b.WF) (ho : b.orderLookup[o.orderId]? = some o)
    (hk : k.Within o (b.visible o)) : Edited.Fits o (k.left o (b.visible o)) := by
  cases k with
  | fill => exact afterFill_fits hwf ho hk.2
  | auction => exact afterAuction_fits o _
  | cut => exact afterCut_fits hwf ho (Nat.le_of_lt hk)
  | drop => exact fun n _ h => by cases h

theorem Agrees.edit {v : Nat} (h : Agrees id o st)
    (hk : k.Within o v) (hv : v ≤ o.quantity) (hrest : k.rest o ≠ 0) (px : Int) :
    Agrees id (o.withQuantity (k.rest o)) (k.state o px st) := by
  have hq := h.quantity
  have hsmall := h.small
  have hle : k.rest o ≤ o.quantity := by
    cases k with
    | fill | auction => exact Nat.sub_le ..
    | cut => exact Nat.le_of_lt hk
    | drop => exact Nat.zero_le _
  have hsum : k.rest o + (k.state o px st).cumQty = (k.state o px st).orderQty := by
    cases k with
    | fill | auction | cut =>
      simp only [Edit.Within] at hk
      simp only [Edit.rest, Edit.state]
      omega
    | drop => exact absurd rfl hrest
  have htotal : (k.state o px st).orderQty < 2 ^ 32 := by
    have := h.total
    cases k with
    | cut => exact lt_of_le_of_lt (Nat.sub_le ..) this
    | _ => exact this
  refine ⟨h.orderId, hsum, Nat.pos_of_ne_zero hrest, lt_of_le_of_lt hle h.small, htotal, ?_, ?_, ?_, ?_, h.displaySmall,
    h.iceberg⟩
  · cases k <;> exact h.trader
  · cases k <;> exact h.side
  · cases k <;> exact h.timeInForce
  · cases k <;> exact h.display

theorem filter_transit {t pre post} (ho : t.order = o)
    (hid : o.orderId = id) (hone : ((pre ++ t :: post).map Transit.order).filter (·.orderId = id) = [o]) :
    (pre.map Transit.order).filter (·.orderId = id) = [] ∧ (post.map Transit.order).filter (·.orderId = id) = [] := by
  rw [map_append, map_cons, filter_append, ho, filter_cons_of_pos (by simp [hid])] at hone
  have hlen := congrArg List.length hone
  simp only [length_append, length_cons, length_nil] at hlen
  exact ⟨eq_nil_of_length_eq_zero (by omega), eq_nil_of_length_eq_zero (by omega)⟩

theorem Shift.mem_slot {w₁}
    (h : Shift x w id o k pl w₁) : o ∈ w.slot id pl := by
  cases h with
  | book ho => simp [Progress.slot, ho]
  | transit ht ho hid => simp [Progress.slot, ht, ho, hid]
  | call ho => simp [Progress.slot, ho]
  | stops hp hid => simp [Progress.slot, hp, hid]
  | held ho => simp [Progress.slot, ho]

theorem Shift.slot {w₁} (hinv : Inv x w)
    (h : Shift x w id o k pl w₁) (id' : String) (pl' : Place) :
    w₁.slot id' pl' = if id = id' ∧ pl = pl' then (if k.rest o = 0 then [] else [o.withQuantity (k.rest o)])
      else w.slot id' pl' := by
  obtain ⟨hslot, _, -, hagrees, -⟩ := (hinv.tracked id).of_mem h.mem_slot
  have hown := hslot pl
  rw [if_pos rfl] at hown
  have hid := hagrees.orderId
  cases h with
  | book _ hedit =>
    cases pl' with
    | book =>
      simp only [Progress.slot, Call.onEngine_engine, hedit.lookup, hid, Edit.left_map, and_true]
      split
      · split <;> rfl
      · rfl
    | _ => simp [Progress.slot]
  | @transit _ _ _ ht ho =>
    cases pl' with
    | transit =>
      rw [Progress.slot, ht] at hown
      obtain ⟨hpre, hpost⟩ := filter_transit ho hid hown
      simp only [Progress.slot, ht, map_append, filter_append, map_cons, and_true]
      by_cases hid' : id = id'
      · subst hid'
        rw [hpre, hpost, if_pos rfl, nil_append, append_nil]
        split
        · rfl
        · simp [hid]
      · have hne : o.orderId ≠ id' := fun heq => hid' (hid.symm.trans heq)
        rw [if_neg hid', ho, filter_cons_of_neg (by simpa using hne)]
        split
        · simp
        · simp [hne]
    | _ => simp [Progress.slot]
  | call =>
    cases pl' with
    | call =>
      simp only [Progress.slot, and_true]
      by_cases hid' : id = id'
      · subst hid'
        split <;> simp
      · split <;> simp [hid']
    | _ => simp [Progress.slot]
  | @stops pre post hparked _ hkind =>
    cases pl' with
    | stops =>
      subst hkind
      simp only [Progress.slot, Call.onEngine_engine, hparked] at hown ⊢
      simp only [and_true, Edit.rest, if_true]
      by_cases hid' : id = id'
      · subst hid'
        rw [filter_append, filter_cons_of_pos (by simp [hid])] at hown
        have hlen := congrArg List.length hown
        simp only [length_append, length_cons, length_nil] at hlen
        rw [if_pos rfl, filter_append, eq_nil_of_length_eq_zero (by omega : (pre.filter _).length = 0),
          eq_nil_of_length_eq_zero (by omega : (post.filter _).length = 0)]
        rfl
      · have hne : o.orderId ≠ id' := fun heq => hid' (hid.symm.trans heq)
        rw [if_neg hid', filter_append, filter_append, filter_cons_of_neg (by simpa using hne)]
    | _ => simp [Progress.slot]
  | held _ hkind =>
    cases pl' with
    | held =>
      subst hkind
      simp only [Progress.slot, and_true, Edit.rest, if_true]
      by_cases hid' : id = id' <;> simp [hid']
    | _ => simp [Progress.slot]

theorem Shift.frame {w₁}
    (h : Shift x w id o k pl w₁) :
    w₁.call.engine =
      { w.call.engine with
        book := w₁.call.engine.book
        stopBook := w₁.call.engine.stopBook
        callMarkets := w₁.call.engine.callMarkets
        heldClose := w₁.call.engine.heldClose } ∧
      w₁.call.out = w.call.out ∧ w₁.crossed = w.crossed ∧ w₁.auction = w.auction := by
  cases h <;> exact ⟨rfl, rfl, rfl, rfl⟩

theorem Shift.book_wf {w₁ : Progress R} (hinv : Inv x w)
    (h : Shift x w id o k pl w₁) : w₁.call.engine.book.WF ∧ w₁.call.engine.book.stp = {} := by
  cases h with
  | book ho hedit hstp hwithin =>
    have hid := hinv.book.orderId_eq ho
    subst hid
    exact ⟨hedit.wf hinv.book ho (Edit.fits hinv.book ho hwithin), hstp⟩
  | _ => exact ⟨hinv.book, hinv.stp⟩

theorem Inv.moved (hinv : Inv x w) {pre post t} (pl : Place)
    (ht : w.transit = pre ++ t :: post) (hpl : pl ≠ .transit) (htransit : w'.transit = pre ++ post)
    (hinto : ∀ id, w'.slot id pl = if t.order.orderId = id then [t.order] else w.slot id pl)
    (hothers : ∀ id pl', pl' ≠ pl → pl' ≠ .transit → w'.slot id pl' = w.slot id pl')
    (hst : w'.call.engine.states = w.call.engine.states)
    (hholds : ∀ st, w.call.engine.states[t.order.orderId]? = some st → pl.Holds t.order st) (id : String) :
    Tracked x w' id := by
  obtain ⟨hone, st, hst₀, hagrees, -, hknown⟩ := (hinv.tracked t.order.orderId).of_mem
    (Progress.mem_slot_transit (t := t) (by simp [ht]) rfl)
  have hown := hone .transit
  rw [if_pos rfl, Progress.slot, ht] at hown
  obtain ⟨hpre, hpost⟩ := filter_transit rfl rfl hown
  by_cases hid : t.order.orderId = id
  · subst hid
    refine @Tracked.live R x w' _ pl t.order st (fun pl' => ?_) (by rw [hst, hst₀]) hagrees (hholds st hst₀) hknown
    by_cases hpl' : pl' = .transit
    · subst hpl'
      rw [if_neg hpl, Progress.slot, htransit, map_append, filter_append, hpre, hpost]
      rfl
    by_cases hsame : pl' = pl
    · rw [hsame, hinto, if_pos rfl, if_pos rfl]
    · rw [hothers _ _ hsame hpl', hone pl', if_neg (Ne.symm hpl'), if_neg (Ne.symm hsame)]
  · refine (hinv.tracked id).congr (fun pl' => ?_) (by rw [hst])
    by_cases hpl' : pl' = .transit
    · subst hpl'
      rw [Progress.slot, Progress.slot, htransit, ht, map_append, map_append, map_cons, filter_append,
        filter_append, filter_cons_of_neg (by simpa using hid)]
    by_cases hsame : pl' = pl
    · rw [hsame, hinto, if_neg hid]
    · exact hothers _ _ hsame hpl'

private theorem filter_transits {l : List Order} {f : Order → Transit} (hf : ∀ o, (f o).order.orderId = o.orderId)
    (id : String) :
    ((l.map f).map Transit.order).filter (·.orderId = id) =
      (l.filter (·.orderId = id)).map fun o => (f o).order := by
  induction l with
  | nil => rfl
  | cons o =>
    by_cases ho : o.orderId = id <;> simp_all

/-- Orders that leave a container for transit: those with this id were `lifted ++ kept` there. -/
theorem Tracked.lifted (h : Tracked x w id) (pl : Place)
    (f : Order → Order) (lifted : List Order)
    (hpl : pl ≠ .transit) (hperm : (lifted ++ w'.slot id pl).Perm (w.slot id pl))
    (htransit : w'.slot id .transit = lifted.map f ++ w.slot id .transit)
    (hslot : ∀ pl', pl' ≠ pl → pl' ≠ .transit → w'.slot id pl' = w.slot id pl')
    (hst : w'.call.engine.states[id]? = w.call.engine.states[id]?)
    (hf : ∀ o st, pl.Holds o st → Agrees (R := R) id o st → Agrees id (f o) st ∧ (f o).traits = o.traits) :
    Tracked x w' id := by
  cases h with
  | absent hs ht =>
    rw [hs pl] at hperm
    have hnil := hperm.eq_nil
    obtain ⟨hl, hk⟩ := append_eq_nil_iff.mp hnil
    refine .absent (fun pl' => ?_) (hst.trans ht)
    by_cases h1 : pl' = pl
    · rw [h1, hk]
    by_cases h2 : pl' = .transit
    · rw [h2, htransit, hl, hs]
      rfl
    · rw [hslot pl' h1 h2, hs]
  | @live pl₀ o st hs ht ha hh hk =>
    by_cases hpl₀ : pl₀ = pl
    · subst hpl₀
      have hw := hs pl₀
      have hwt := hs .transit
      rw [if_pos rfl] at hw
      rw [if_neg hpl] at hwt
      rw [hw] at hperm
      have hone := perm_singleton.mp hperm
      rcases append_eq_singleton_iff.mp hone with ⟨hl, hkept⟩ | ⟨hl, hkept⟩
      · -- the order stays
        refine @Tracked.live R x w' _ pl₀ o st (fun pl' => ?_) (hst.trans ht) ha hh hk
        by_cases h1 : pl' = pl₀
        · rw [h1, hkept, if_pos rfl]
        by_cases h2 : pl' = .transit
        · rw [h2, htransit, hl, hwt, if_neg hpl]
          rfl
        · rw [hslot pl' h1 h2, hs]
      · obtain ⟨hagrees, htraits⟩ := hf o st hh ha
        refine @Tracked.live R x w' _ .transit (f o) st (fun pl' => ?_) (hst.trans ht) hagrees trivial (htraits ▸ hk)
        by_cases h1 : pl' = pl₀
        · rw [h1, hkept, if_neg (Ne.symm hpl)]
        by_cases h2 : pl' = .transit
        · rw [h2, htransit, hl, hwt, if_pos rfl]
          rfl
        · rw [hslot pl' h1 h2, hs, if_neg (Ne.symm h1), if_neg (Ne.symm h2)]
    · have hw := hs pl
      rw [if_neg hpl₀] at hw
      rw [hw] at hperm
      obtain ⟨hl, hkept⟩ := append_eq_nil_iff.mp hperm.eq_nil
      refine @Tracked.live R x w' _ pl₀ o st (fun pl' => ?_) (hst.trans ht) ha hh hk
      by_cases h1 : pl' = pl
      · rw [h1, hkept, if_neg hpl₀]
      by_cases h2 : pl' = .transit
      · rw [h2, htransit, hl, hs]
        rfl
      · rw [hslot pl' h1 h2, hs]

theorem Call.tell_states (c : Call R) (id : String) (new : Option (OrderState R)) (owner : R) (st : OrderState R)
    (ev : ReportEvent) (ts : Time) (id' : String) :
    (c.tell id new owner st ev ts).engine.states[id']? = if id = id' then new else c.engine.states[id']? := by
  cases new with
  | none | some => simp [tell, report]

theorem Call.takeOver_states (c : Call R) (m : CancelReplaceMsg R) (st : OrderState R) (ts : Time) (id : String) :
    (c.takeOver m st ts).engine.states[id]? =
      if m.newOrderId = id then some st else if m.orderId = id then none else c.engine.states[id]? := by
  simp [takeOver, setState, sendReplaceReports, report, dropState]

theorem Call.takeOver_phase (c : Call R) (m : CancelReplaceMsg R) (st : OrderState R) (ts : Time) :
    (c.takeOver m st ts).engine.phase = c.engine.phase := rfl

theorem SameBook.wf {b b'} (h : SameBook b b') (hwf : b.WF) : b'.WF where
  noEmpty := h.noEmpty
  placed s p o ho := hwf.placed s p o (by rwa [h.queue] at ho)
  distinct s p := by rw [h.queue]; exact hwf.distinct s p
  found id o := by rw [h.lookup, h.queue]; exact hwf.found id o
  positive id o ho := hwf.positive id o (by rwa [h.lookup] at ho)
  shown id o ho := by rw [h.displayed]; exact hwf.shown id o (by rwa [h.lookup] at ho)
  unknown id ho := by rw [h.displayed]; exact hwf.unknown id (by rwa [h.lookup] at ho)
  kept := h.kept hwf.kept

theorem Progress.slot_congr (hbook : w'.call.engine.book = w.call.engine.book)
    (hstops : w'.call.engine.stopBook = w.call.engine.stopBook)
    (hcalls : w'.call.engine.callMarkets = w.call.engine.callMarkets)
    (hheld : w'.call.engine.heldClose = w.call.engine.heldClose) (htransit : w'.transit = w.transit) (id : String)
    (pl : Place) : w'.slot id pl = w.slot id pl := by
  cases pl <;> simp only [Progress.slot, hbook, hstops, hcalls, hheld, htransit]

theorem Call.setPhase_engine (c : Call R) (phase : TradingPhase) (instant : Time) :
    (c.setPhase phase instant).engine =
      { c.engine with phase := phase, lastIndicative := (c.setPhase phase instant).engine.lastIndicative } := by
  unfold setPhase
  split
  · rename_i h
    rw [← h]
  · rfl

section edit

variable {w w₁ : Progress R} {pl : Place} {id : String} {o : Order} {k : Edit}

theorem Shift.within (hinv : Inv x w) (h : Shift x w id o k pl w₁) : ∃ v, v ≤ o.quantity ∧ k.Within o v := by
  cases h with
  | book ho _ _ hwithin => exact ⟨_, (hinv.book.visible_eq ho).2.2.1, hwithin⟩
  | transit _ _ _ hwithin | call _ hwithin => exact ⟨_, le_rfl, hwithin⟩
  | stops _ _ hkind | held _ hkind => exact ⟨_, le_rfl, by rw [hkind]; trivial⟩

theorem Shift.holds (h : Shift x w id o k pl w₁) (hholds : pl.Holds o st) (hrest : k.rest o ≠ 0)
    (px : Int) : pl.Holds (o.withQuantity (k.rest o)) (k.state o px st) := by
  cases h with
  | book => exact hholds
  | transit => exact trivial
  | call => exact hholds
  | stops _ _ hkind | held _ hkind =>
    subst hkind
    exact absurd rfl hrest

theorem Shift.calls (hinv : Inv x w) (h : Shift x w id o k pl w₁) (id' : String) (o' : Order)
    (ho' : w₁.call.engine.callMarkets[id']? = some o') : isCall w₁.call.engine.phase = true := by
  cases h with
  | call ho =>
    exact hinv.calls id o ho
  | _ => exact hinv.calls id' o' ho'

theorem Shift.tracked (hinv : Inv x w) {rst} {px : Int} {owner ev ts}
    (hst : w.call.engine.states[id]? = some st) (h : Shift x w id o k pl w₁) (id' : String) :
    Tracked x { w₁ with
      call := w₁.call.tell id (if k.rest o = 0 then none else some (k.state o px st)) owner rst ev ts
      printed := w.printed ++ k.prints px } id' := by
  obtain ⟨hone, st₀, hst₀, hagrees, hholds, hknown⟩ := (hinv.tracked id).of_mem h.mem_slot
  rw [hst₀, Option.some.injEq] at hst
  subst hst
  obtain ⟨_, hv, hwithin⟩ := h.within hinv
  have hslot : ∀ id' pl', Progress.slot { w₁ with
      call := w₁.call.tell id (if k.rest o = 0 then none else some (k.state o px st₀)) owner rst ev ts
      printed := w.printed ++ k.prints px } id' pl' =
      if id = id' ∧ pl = pl' then (if k.rest o = 0 then [] else [o.withQuantity (k.rest o)]) else w.slot id' pl' :=
    fun id' pl' => (Progress.slot_congr rfl rfl rfl rfl rfl id' pl').trans (h.slot hinv id' pl')
  by_cases hid : id = id'
  · subst hid
    by_cases hrest : k.rest o = 0
    · refine .absent (fun pl' => ?_) ?_
      · rw [hslot, hone]
        by_cases hpl : pl = pl'
        · rw [if_pos ⟨rfl, hpl⟩, if_pos hrest]
        · rw [if_neg fun hh => hpl hh.2, if_neg hpl]
      · rw [Call.tell_states, if_pos rfl, if_pos hrest]
    · refine @Tracked.live R x _ _ pl (o.withQuantity (k.rest o)) (k.state o px st₀) (fun pl' => ?_) ?_
        (hagrees.edit hwithin hv hrest px) (h.holds hholds hrest px) hknown
      · rw [hslot, hone, if_neg hrest]
        simp only [true_and]
        split <;> rfl
      · rw [Call.tell_states, if_pos rfl, if_neg hrest]
  · refine (hinv.tracked id').congr (fun pl' => ?_) ?_
    · rw [hslot, if_neg fun hh => hid hh.1]
    rw [Call.tell_states, if_neg hid]
    show w₁.call.engine.states[id']? = _
    rw [h.frame.1]

end edit

theorem triggeredType_agrees (h : Agrees id o st) :
    Agrees id (triggeredType o) st := by
  refine ⟨h.orderId, h.quantity, h.positive, h.small, h.total, h.trader, h.side, h.timeInForce, h.display,
    h.displaySmall, fun hd => ?_⟩
  obtain ⟨htype, htif⟩ := h.iceberg hd
  exact ⟨by simp [triggeredType, htype], htif⟩

theorem Shift.swapped {w₁} (hinv : Inv x w) {m t st' ts} (h : Shift x w m.orderId o .drop pl w₁)
    (htransit : w.transit = []) (hnew : m.newOrderId ≠ m.orderId → w.call.engine.states[m.newOrderId]? = none)
    (hagrees : Agrees m.newOrderId t.order st') (hknown : x.known t.order.traits) (id : String) :
    Tracked x
      { w₁ with
        call := w₁.call.takeOver m st' ts
        transit := [t] } id := by
  obtain ⟨hone, -⟩ := (hinv.tracked m.orderId).of_mem h.mem_slot
  have hw₁ : ∀ id' pl', pl' ≠ .transit → Progress.slot { w₁ with
      call := w₁.call.takeOver m st' ts
      transit := [t] } id' pl' = if m.orderId = id' ∧ pl = pl' then [] else w.slot id' pl' := by
    intro id' pl' hpl'
    have := h.slot hinv id' pl'
    rw [if_pos (show Edit.rest o .drop = 0 from rfl)] at this
    rw [← this]
    cases pl' <;> first | rfl | exact absurd rfl hpl'
  have htid := hagrees.orderId
  have hempty : ∀ id', w.slot id' .transit = [] := fun id' => by simp [Progress.slot, htransit]
  have hstates : ∀ id' : String, (Progress.call { w₁ with
      call := w₁.call.takeOver m st' ts
      transit := [t] }).engine.states[id']? =
      if m.newOrderId = id' then some st' else if m.orderId = id' then none else w.call.engine.states[id']? := by
    intro id'
    have hframe : w₁.call.engine.states = w.call.engine.states := by rw [h.frame.1]
    rw [← hframe]
    exact w₁.call.takeOver_states m st' ts id'
  have hmissing : ∀ pl', pl' ≠ .transit → (if m.orderId = m.newOrderId ∧ pl = pl' then [] else
      w.slot m.newOrderId pl') = [] := by
    intro pl' hpl'
    by_cases hsame : m.newOrderId = m.orderId
    · rw [hsame, hone]
      by_cases hpl : pl = pl' <;> simp [hpl]
    · rw [if_neg fun hh => hsame hh.1.symm]
      exact (hinv.tracked _).of_none (hnew hsame) pl'
  by_cases hid : m.newOrderId = id
  · subst hid
    refine @Tracked.live R x _ _ .transit t.order st' (fun pl' => ?_) (by rw [hstates, if_pos rfl]) hagrees
      trivial hknown
    by_cases hpl' : pl' = .transit
    · subst hpl'
      simp [Progress.slot, htid]
    · rw [hw₁ _ _ hpl', hmissing pl' hpl', if_neg (Ne.symm hpl')]
  · have htransit' : Progress.slot { w₁ with
        call := w₁.call.takeOver m st' ts
        transit := [t] } id .transit = [] := by
      simp [Progress.slot, htid, hid]
    by_cases horig : m.orderId = id
    · subst horig
      refine .absent (fun pl' => ?_) (by rw [hstates, if_neg hid, if_pos rfl])
      by_cases hpl' : pl' = .transit
      · rw [hpl', htransit']
      · rw [hw₁ _ _ hpl', hone]
        by_cases hpl : pl = pl' <;> simp [hpl]
    · refine (hinv.tracked id).congr (fun pl' => ?_) (by rw [hstates, if_neg hid, if_neg horig])
      by_cases hpl' : pl' = .transit
      · rw [hpl', htransit', hempty]
      · rw [hw₁ _ _ hpl', if_neg fun hh => horig hh.1]

theorem Inv.entered (hinv : Inv x w) {t}
    (hnew : w.call.engine.states[id]? = none) (hagrees : Agrees id t.order st) (hknown : x.known t.order.traits)
    (hst : w'.call.engine.states = w.call.engine.states.insert id st) (hbook : w'.call.engine.book = w.call.engine.book)
    (hstops : w'.call.engine.stopBook = w.call.engine.stopBook)
    (hcalls : w'.call.engine.callMarkets = w.call.engine.callMarkets)
    (hheld : w'.call.engine.heldClose = w.call.engine.heldClose) (htransit : w'.transit = w.transit ++ [t])
    (id' : String) : Tracked x w' id' := by
  have hid := hagrees.orderId
  have hslot : ∀ pl, w'.slot id' pl = w.slot id' pl ++ if id = id' ∧ pl = .transit then [t.order] else [] := by
    intro pl
    cases pl with
    | transit =>
      by_cases hid' : id = id' <;> simp [Progress.slot, htransit, hid, hid']
    | _ => simp [Progress.slot, hbook, hstops, hcalls, hheld]
  by_cases hid' : id = id'
  · subst hid'
    refine @Tracked.live R x _ _ .transit t.order st (fun pl => ?_) (by simp [hst]) hagrees trivial hknown
    rw [hslot, (hinv.tracked id).of_none hnew pl, nil_append]
    simp only [true_and, eq_comm]
  · refine (hinv.tracked id').congr (fun pl => ?_) (by simp [hst, hid'])
    rw [hslot, if_neg fun h => hid' h.1, append_nil]

/-- Outputs that do not open leave the listeners informed, or inform them of what is published last. -/
theorem Call.Informs.extend {base l : List (Output R)} {c c' : Call R} (h : c.Informs base) (hout : c'.out = c.out ++ l)
    (hl : ∀ o ∈ l, o.opens = false) (hlast : ∀ r, c'.engine.lastIndicative = some r →
      (c.engine.lastIndicative = some r ∧ l.filterMap infoOf = []) ∨
        ∃ info, (l.filterMap infoOf).getLast? = some info ∧ info.Carries r) : c'.Informs base := by
  intro r hr pre o post hsplit ho
  rw [hout, ← append_assoc] at hsplit
  have hnot : o ∉ l := fun hmem => by
    rw [hl o hmem] at ho
    cases ho
  obtain ⟨post', hbefore, rfl⟩ : ∃ post', base ++ c.out = pre ++ o :: post' ∧ post = post' ++ l := by
    rcases append_eq_append_iff.mp hsplit with ⟨mid, rfl, hmid⟩ | ⟨mid, hmid, heq⟩
    · exact absurd (by rw [hmid]; simp) hnot
    cases mid with
    | nil => exact absurd (by rw [← nil_append l, ← heq]; simp) hnot
    | cons _ mid =>
      cases heq
      exact ⟨mid, hmid, rfl⟩
  rw [filterMap_append]
  rcases hlast r hr with ⟨hold, hnone⟩ | ⟨info, hinfo, hcarries⟩
  · rw [hnone, append_nil]
    exact h r hold pre o post' hbefore ho
  · exact ⟨info, by rw [getLast?_append, hinfo]; rfl, hcarries⟩

theorem Quiet.frame {c c' : Call R} (h : Quiet c c') :
    c'.engine.stopBook = c.engine.stopBook ∧ c'.engine.callMarkets = c.engine.callMarkets ∧
      c'.engine.heldClose = c.engine.heldClose ∧ c'.engine.states = c.engine.states ∧
      c'.engine.phase = c.engine.phase ∧ c'.engine.callUntil = c.engine.callUntil ∧
      c'.engine.schedule = c.engine.schedule := by
  rw [h.engine]
  exact ⟨rfl, rfl, rfl, rfl, rfl, rfl, rfl⟩

section quiet

variable {w : Progress R} {c : Call R} (hinv : Inv x w)
  (hengine : c.engine =
    { w.call.engine with
      lastTradePrice := c.engine.lastTradePrice
      lastSeen := c.engine.lastSeen
      nextArrival := c.engine.nextArrival
      lastIndicative := c.engine.lastIndicative })

include hinv hengine

theorem Inv.quiet (out : List (Output R)) (hout : c.out = w.call.out ++ out)
    (hsilent : ∀ o ∈ out, Engine.reportOf o = none ∧ mdOf o = [] ∧ tradeOf o = none)
    (hinforms : ∀ base, w.call.Informs base → c.Informs base) : Quiet w.call c := by
  have hbook : c.engine.book = w.call.engine.book := by rw [hengine]
  refine ⟨?_, ?_, ?_, ⟨out, hout, hsilent⟩, hinforms⟩
  · rw [hbook]
    exact hengine
  · rw [hbook]
    exact ⟨fun _ _ => rfl, fun _ => rfl, fun _ => rfl, fun _ => rfl, hinv.book.noEmpty, fun h => h⟩
  · rw [hbook]
    exact hinv.stp

theorem Inv.silent (hout : c.out = w.call.out) (hlast : c.engine.lastIndicative = w.call.engine.lastIndicative) :
    Quiet w.call c := by
  refine hinv.quiet hengine [] (by rw [hout, append_nil]) (fun _ h => absurd h not_mem_nil) fun _ h => ?_
  exact h.extend (l := []) (by rw [hout, append_nil]) (fun _ h => absurd h not_mem_nil)
    fun _ hr => .inl ⟨hlast ▸ hr, rfl⟩

end quiet

theorem Quiet.slot {c : Call R} (h : Quiet w.call c) (id : String) (pl : Place) :
    Progress.slot { w with call := c } id pl = w.slot id pl := by
  obtain ⟨hstops, hcalls, hheld, -⟩ := h.frame
  cases pl with
  | book => simp only [Progress.slot, h.book.lookup]
  | stops => simp only [Progress.slot, hstops]
  | call => simp only [Progress.slot, hcalls]
  | held => simp only [Progress.slot, hheld]
  | transit => rfl

/-- Steps that leave the containers, the report states and the phase alone. -/
theorem Inv.congr (hinv : Inv x w) (hengine : w'.call.engine = { w.call.engine with
    callUntil := w'.call.engine.callUntil, issued := w'.call.engine.issued, tradeSeq := w'.call.engine.tradeSeq })
    (htransit : w'.transit = w.transit) : Inv x w' := by
  refine ⟨?_, ?_, ?_, fun id => (hinv.tracked id).congr (fun pl => ?_) ?_⟩
  · rw [hengine]
    exact hinv.book
  · rw [hengine]
    exact hinv.stp
  · rw [hengine]
    exact hinv.calls
  · refine Progress.slot_congr ?_ ?_ ?_ ?_ htransit id pl <;> rw [hengine]
  · rw [hengine]

theorem Step.inv (hinv : Inv x w) (h : Step x w w') : Inv x w' := by
  cases h with
  | edit hst hshift =>
    obtain ⟨hwf, hstp⟩ := hshift.book_wf hinv
    have hcalls := hshift.calls hinv
    exact ⟨hwf, hstp, hcalls, hshift.tracked hinv hst⟩
  | @enter order _ _ _ o' ack _ _ _ _ ho' hnew hknown hagrees =>
    have hknown' : x.known o'.traits := by rcases ho' with rfl | rfl <;> exact hknown
    obtain ⟨t, ht⟩ : ∃ t : Transit, t = { order := o', filled := some 0, replaced := false, acked := ack } := ⟨_, rfl⟩
    rw [← ht]
    have hto : t.order = o' := by rw [ht]
    cases ack
    all_goals
      refine ⟨hinv.book, hinv.stp, hinv.calls, fun id => ?_⟩
      refine hinv.entered hnew (hto ▸ hagrees) (hto ▸ hknown') ?_ ?_ ?_ ?_ ?_ ?_ id <;> rfl
  | @rest _ _ t _ _ ht _ htype _ _ hadd hstp =>
    obtain ⟨_, _, hagrees, -, hslot⟩ := hinv.in_transit (t := t) (by simp [ht])
    have hfresh := Progress.slot_book.mp (hslot .book (by decide))
    refine ⟨hadd.wf hinv.book hfresh hagrees.positive, hstp, hinv.calls, ?_⟩
    refine hinv.moved .book ht (by decide) rfl (fun id => ?_) (fun id pl' h h' => ?_) rfl fun _ _ => htype
    · simp only [Progress.slot, Call.onEngine_engine, hadd.lookup]
      split <;> rfl
    · cases pl' <;> first | rfl | contradiction
  | @park _ _ t ht _ _ htype hcum =>
    obtain ⟨-, -, -, -, hslot⟩ := hinv.in_transit (t := t) (by simp [ht])
    refine ⟨hinv.book, hinv.stp, hinv.calls, ?_⟩
    refine hinv.moved .stops ht (by decide) rfl (fun id => ?_) (fun id pl' h h' => ?_) rfl fun st hst =>
      ⟨htype, hcum st hst⟩
    · show (w.call.engine.stopBook.parked ++ [t.order]).filter _ = _
      rw [filter_append, filter_singleton]
      split
      · rename_i hid
        rw [← hid, decide_eq_true rfl]
        exact congrArg (· ++ [t.order]) (hslot .stops (by decide))
      · rename_i hid
        rw [decide_eq_false hid]
        exact append_nil _
    · cases pl' <;> first | rfl | contradiction
  | @queue _ _ t ht _ htype hphase =>
    refine ⟨hinv.book, hinv.stp, fun _ _ _ => hphase, ?_⟩
    refine hinv.moved .call ht (by decide) rfl (fun id => ?_) (fun id pl' h h' => ?_) rfl fun _ _ => htype
    · simp only [Progress.slot, Call.onEngine_engine, Maps.getElem?_insert]
      split <;> rfl
    · cases pl' <;> first | rfl | contradiction
  | @hold _ _ t ht _ _ htype htif =>
    refine ⟨hinv.book, hinv.stp, hinv.calls, ?_⟩
    refine hinv.moved .held ht (by decide) rfl (fun id => ?_) (fun id pl' h h' => ?_) rfl fun _ _ => ⟨htype, htif⟩
    · simp only [Progress.slot, Call.onEngine_engine, Maps.getElem?_insert]
      split <;> rfl
    · cases pl' <;> first | rfl | contradiction
  | @trigger triggered _ hperm =>
    refine ⟨hinv.book, hinv.stp, hinv.calls, fun id => ?_⟩
    refine (hinv.tracked id).lifted .stops triggeredType (triggered.filter (·.orderId = id)) (by decide) ?_ ?_
      (fun pl' h h' => ?_) rfl fun o st _ h => ⟨triggeredType_agrees h, rfl⟩
    · simp only [Progress.slot, ← filter_append]
      exact hperm.filter _
    · simp only [Progress.slot, map_append, filter_append]
      rw [filter_transits fun _ => rfl]
    · cases pl' <;> first | rfl | contradiction
  | @release held hheld =>
    refine ⟨hinv.book, hinv.stp, hinv.calls, fun id => ?_⟩
    refine (hinv.tracked id).lifted .held (fun o => o) (held.filter (·.orderId = id)) (by decide) ?_ ?_
      (fun pl' h h' => ?_) rfl fun o st _ h => ⟨h, rfl⟩
    · simp only [Progress.slot, hheld]
      simp
    · simp only [Progress.slot, map_append, filter_append]
      rw [filter_transits fun _ => rfl]
    · cases pl' <;> first | rfl | contradiction
  | swap _ hshift _ _ htransit _ _ hnew hagrees hknown =>
    obtain ⟨hwf, hstp⟩ := hshift.book_wf hinv
    have hcalls := hshift.calls hinv
    exact ⟨hwf, hstp, hcalls, hshift.swapped hinv htransit hnew hagrees hknown⟩
  | @note c h =>
    obtain ⟨-, hcalls, -, hstates, hphase, -⟩ := h.frame
    refine ⟨h.book.wf hinv.book, h.stp, ?_, fun id => (hinv.tracked id).congr (h.slot id) ?_⟩
    · show ∀ (id : String) (o : Order), c.engine.callMarkets[id]? = some o → isCall c.engine.phase = true
      rw [hcalls, hphase]
      exact hinv.calls
    · show c.engine.states[id]? = _
      rw [hstates]
  | reject | flush | print | settle => exact hinv.congr rfl rfl
  | @setPhase _ _ h =>
    unfold Call.setPhase
    split
    · exact hinv
    refine ⟨hinv.book, hinv.stp, fun id o ho => ?_, fun id => ?_⟩
    · rcases h with h | ⟨-, h⟩
      · exact h
      have hnone := h id
      rw [hnone] at ho
      cases ho
    · exact (hinv.tracked id).congr (fun pl => Progress.slot_congr rfl rfl rfl rfl rfl id pl) rfl
  | beginCall | startAuction | endAuction => exact hinv.congr rfl rfl

/-- What no fill and no cut changes of the report state of an order. -/
def OrderState.terms (st : OrderState R) : OrderState R := { st with orderQty := 0, cumQty := 0, notional := 0 }

theorem Edit.state_terms (k : Edit) (o : Order) (px : Int) (st : OrderState R) :
    (k.state o px st).terms = st.terms := by
  cases k <;> rfl

/-- The id under which a request brings an order to the market. -/
def Op.newId : Op R → Option String
  | .newOrder order _ => some order.orderId
  | .cancelReplace m => some m.newOrderId
  | .cancel _ | .massCancel _ | .subscribe _ | .beginOpeningCall _ | .tick => none

def Op.sender : Op R → Option String
  | .newOrder order _ => some order.sender
  | .cancelReplace m => some m.sender
  | .cancel _ | .massCancel _ | .subscribe _ | .beginOpeningCall _ | .tick => none

private theorem orderOf_orderId {e : Engine R} {order : NewOrderSingle} {ts : Time}
    (h : Call.orderOf e order ts = .ok o) : o.orderId = order.orderId := by
  unfold Call.orderOf at h
  split at h
  · cases h
    rfl
  · cases h

/-- The request brings the order `id`, with its number and a time in force that may be entered in the phase after the
tick. -/
structure Context.Brings (x : Context R) (id : String) (st : OrderState R) : Prop where
  newId : x.request.bind Op.newId = some id
  sender : x.request.bind Op.sender = some st.sender
  arrival : st.arrival = x.start.nextArrival + 1
  entry : ∃ ty, entryReason x.start.phase x.start.auctionsEnabled ty st.timeInForce = none

theorem Context.Brings.congr {st'} (h : x.Brings id st) (hterms : st'.terms = st.terms) :
    x.Brings id st' := by
  have hsender : st'.terms.sender = st.terms.sender := by rw [hterms]
  have harrival : st'.terms.arrival = st.terms.arrival := by rw [hterms]
  have htif : st'.terms.timeInForce = st.terms.timeInForce := by rw [hterms]
  exact ⟨h.newId, h.sender.trans (congrArg some hsender.symm), harrival.trans h.arrival,
    (show st'.timeInForce = st.timeInForce from htif) ▸ h.entry⟩

/-- What a step keeps besides orders: only the tick moves the high-water mark, and only it and the operator change the
session. -/
structure Frame (x : Context R) (e e' : Engine R) : Prop where
  ids : e'.ids = e.ids
  schedule : e'.schedule = e.schedule
  status : e'.statusHistory = e.statusHistory ∧ e'.terminalHistory = e.terminalHistory
  lastSeen : x.request.isSome = true → e'.lastSeen = e.lastSeen
  session : ∀ op, x.request = some op → op.setsPhase = false → e'.callUntil = e.callUntil ∧ e'.phase = e.phase
  callUntil : (∀ n, x.request ≠ some (.beginOpeningCall n)) → e'.callUntil = none ∨ e'.callUntil = e.callUntil

theorem Step.frame (h : Step x w w') : Frame x w.call.engine w'.call.engine := by
  cases h with
  | edit _ hshift | swap _ hshift =>
    simp only [Call.tell, Call.takeOver, Call.setState, Call.sendReplaceReports, Call.report, Call.dropState,
      Call.onEngine]
    rw [hshift.frame.1]
    exact ⟨rfl, rfl, ⟨rfl, rfl⟩, fun _ => rfl, fun _ _ _ => ⟨rfl, rfl⟩, fun _ => .inr rfl⟩
  | @enter _ _ _ _ _ ack =>
    cases ack <;> exact ⟨rfl, rfl, ⟨rfl, rfl⟩, fun _ => rfl, fun _ _ _ => ⟨rfl, rfl⟩, fun _ => .inr rfl⟩
  | note hquiet hseen =>
    refine ⟨?_, ?_, ?_, hseen, fun _ _ _ => ?_, fun _ => .inr ?_⟩
    all_goals rw [hquiet.engine]
    · exact ⟨rfl, rfl⟩
    · exact ⟨rfl, rfl⟩
  | setPhase _ _ hsets =>
    simp only
    rw [Call.setPhase_engine]
    refine ⟨rfl, rfl, ⟨rfl, rfl⟩, fun _ => rfl, fun op hreq hop => ?_, fun _ => .inr rfl⟩
    rw [hsets op hreq] at hop
    cases hop
  | beginCall hbegin =>
    refine ⟨rfl, rfl, ⟨rfl, rfl⟩, fun _ => rfl, fun op hreq hop => ?_, fun hnot => absurd hbegin (hnot _)⟩
    cases hreq.symm.trans hbegin
    cases hop
  | startAuction _ hcall htick =>
    refine ⟨rfl, rfl, ⟨rfl, rfl⟩, fun _ => rfl, fun op hreq hop => ?_, fun _ => hcall⟩
    rw [htick op hreq] at hop
    cases hop
  | _ => exact ⟨rfl, rfl, ⟨rfl, rfl⟩, fun _ => rfl, fun _ _ _ => ⟨rfl, rfl⟩, fun _ => .inr rfl⟩

abbrev reportsOf (out : List (Output R)) : List Report := out.filterMap Engine.reportOf

theorem reportsOf_append (l l' : List (Output R)) : reportsOf (l ++ l') = reportsOf l ++ reportsOf l' :=
  filterMap_append ..

/-- The report that is number `n` from now. -/
def Engine.nextReport (e : Engine R) (n : Nat) (id : String) (st : Option (OrderState R))
    (ev : ReportEvent) (ts : Time) : Report := buildReport (e.ids (e.issued + n)) id e.symbol st ev ts

/-- What a step reports, with the report states and the orders in transit that it leaves. -/
inductive Reported (x : Context R) (w w' : Progress R) : Prop
  | silent {l} (hout : w'.call.out = w.call.out ++ l) (hl : reportsOf l = [])
    (hstates : w'.call.engine.states = w.call.engine.states) (hissued : w'.call.engine.issued = w.call.engine.issued)
    (htransit : ∀ t ∈ w.transit, t.acked = false → t ∈ w'.transit)
  | edited {w₁ pl id o k st rst px owner ev ts} (hst : w.call.engine.states[id]? = some st)
    (hshift : Shift x w id o k pl w₁) (hev : ev.execType ≠ .rejected ∧ ev.execType ≠ .replaced)
    (hrst : if k.rest o = 0 then ev.leaves = 0 else rst = k.state o px st ∧ ev.leaves = rst.leaves)
    (hstatus : ev.status.isTerminal = decide (k.rest o = 0)) (hreason : StpReason ev.rejectReason → ∃ n, k = .cut n)
    (hout : w'.call.out = w.call.out ++ [.executionReport owner (w.call.engine.nextReport 0 id (some rst) ev ts)])
    (hstates : ∀ id' : String, w'.call.engine.states[id']? =
      if id = id' then (if k.rest o = 0 then none else some (k.state o px st)) else w.call.engine.states[id']?)
    (hissued : w'.call.engine.issued = w.call.engine.issued + 1) (htransit : w'.transit = w₁.transit)
  | entered {order owner id o st} {ack : Bool} {ts} (hreq : x.request = some (.newOrder order owner))
    (hnew : w.call.engine.states[id]? = none)
    (hfirst : w.call.engine.issued = x.start.issued) (hagrees : Agrees id o st) (hbrings : x.Brings id st)
    (hout : w'.call.out = w.call.out ++ if ack then [.executionReport owner (w.call.engine.nextReport 0 id (some st)
      { execType := .new, status := .new, leaves := st.leaves } ts)] else [])
    (hstates : ∀ id' : String, w'.call.engine.states[id']? = if id = id' then some st else w.call.engine.states[id']?)
    (hissued : w'.call.engine.issued = w.call.engine.issued + if ack then 1 else 0)
    (htransit : w'.transit = w.transit ++ [{ order := o, filled := some 0, replaced := false, acked := ack }])
  | swapped {m st st' ts} (hreq : x.request = some (.cancelReplace m))
    (hst : w.call.engine.states[m.orderId]? = some st)
    (hnew : m.newOrderId ≠ m.orderId → w.call.engine.states[m.newOrderId]? = none)
    (hfirst : w.call.engine.issued = x.start.issued) (hbrings : x.Brings m.newOrderId st')
    (hout : w'.call.out = w.call.out ++
      [.executionReport m.outputTx (w.call.engine.nextReport 0 m.orderId (some st')
        { execType := .replaced, status := .replaced, leaves := st'.leaves, origOrderId := m.orderId } ts),
        .executionReport m.outputTx (w.call.engine.nextReport 1 m.newOrderId (some st')
        { execType := .new, status := .new, leaves := st'.leaves, origOrderId := m.orderId } ts)])
    (hstates : ∀ id' : String, w'.call.engine.states[id']? =
      if m.newOrderId = id' then some st' else if m.orderId = id' then none else w.call.engine.states[id']?)
    (hissued : w'.call.engine.issued = w.call.engine.issued + 2) (htransit : w.transit = [])
  | rejected {owner id st ev ts} (hreq : x.request.bind Op.target = some id) (hev : ev.execType = .rejected)
    (hout : w'.call.out = w.call.out ++ [.executionReport owner (w.call.engine.nextReport 0 id st ev ts)])
    (hstates : w'.call.engine.states = w.call.engine.states)
    (hissued : w'.call.engine.issued = w.call.engine.issued + 1) (htransit : w'.transit = w.transit)

private theorem unacked_kept {l pre post : List Transit} {t : Transit} (hl : l = pre ++ t :: post)
    (ht : t.acked = true) {t' : Transit} (ht' : t' ∈ l) (hfalse : t'.acked = false) : t' ∈ pre ++ post := by
  rw [hl] at ht'
  simp only [mem_append, mem_cons] at ht' ⊢
  rcases ht' with hpre | rfl | hpost
  · exact .inl hpre
  · rw [ht] at hfalse
    cases hfalse
  · exact .inr hpost

theorem Step.reported (h : Step x w w') : Reported x w w' := by
  cases h with
  | @edit w₁ pl id o k st rst px owner ev ts hst hshift hev _ _ _ hrst hstatus hreason =>
    obtain ⟨hengine, hsame, -⟩ := hshift.frame
    refine @Reported.edited R x w _ w₁ pl id o k st rst px owner ev ts hst hshift hev hrst hstatus hreason ?_
      (fun id' => ?_) ?_ rfl
    · simp only [Call.tell, Call.report, Call.onEngine, hsame]
      rw [hengine]
      rfl
    · rw [Call.tell_states, hengine]
    · simp only [Call.tell, Call.report, Call.onEngine]
      rw [hengine]
  | @enter order owner arrival o o' ack _ ts' hreq hof ho' hnew _ hagrees _ hfirst hentry harrival =>
    have hbrings : x.Brings o.orderId (OrderState.new order o.quantity owner arrival) := by
      have htif : o'.timeInForce = o.timeInForce := by
        rcases ho' with rfl | rfl <;> rfl
      refine ⟨?_, ?_, harrival, o.orderType, ?_⟩
      · rw [hreq, orderOf_orderId hof]
        rfl
      · rw [hreq]
        rfl
      · rw [← hagrees.timeInForce, htif]
        exact hentry
    refine @Reported.entered R x w _ order owner _ o' _ ack ts' hreq hnew hfirst hagrees hbrings ?_
      (fun id' => ?_) ?_ rfl
    · cases ack
      · exact (append_nil _).symm
      · rfl
    · cases ack <;> simp [Call.setState, Call.acknowledge, Call.report]
    · cases ack <;> rfl
  | @swap _ _ m _ _ _ st st' ts hreq hshift hst _ htransit _ _ hnew hagrees _ hsender _ _ _ _ _ _ hfirst
      hentry harrival =>
    obtain ⟨hengine, hsame, -⟩ := hshift.frame
    have hbrings : x.Brings m.newOrderId st' := by
      refine ⟨?_, ?_, harrival, ?_⟩
      · rw [hreq]
        rfl
      · rw [hreq, hsender]
        rfl
      · rw [← hagrees.timeInForce]
        exact hentry
    refine @Reported.swapped R x w _ m st st' ts hreq hst hnew hfirst hbrings ?_ (fun id' => ?_) ?_ htransit
    · rw [← hsame]
      simp only [Call.takeOver, Call.setState, Call.sendReplaceReports, Call.report, Call.dropState]
      rw [hengine]
      simp only [append_assoc]
      rfl
    · rw [Call.takeOver_states, hengine]
    · simp only [Call.takeOver, Call.setState, Call.sendReplaceReports, Call.report, Call.dropState]
      rw [hengine]
  | reject hreq hev => exact .rejected hreq hev.1 rfl rfl rfl rfl
  | print => exact .silent rfl rfl rfl rfl fun t ht _ => ht
  | rest ht hack | park ht hack | queue ht hack | hold ht hack =>
    exact .silent (append_nil _).symm rfl rfl rfl fun _ => unacked_kept ht hack
  | trigger | release =>
    exact .silent (append_nil _).symm rfl rfl rfl fun t ht _ => mem_append_right _ ht
  | note hquiet =>
    obtain ⟨_, hl, hsilent⟩ := hquiet.out
    refine .silent hl (filterMap_eq_nil_iff.mpr fun o ho => (hsilent o ho).1) ?_ ?_ fun t ht _ => ht
    · rw [hquiet.engine]
    · rw [hquiet.engine]
  | flush hmd =>
    refine .silent rfl (filterMap_eq_nil_iff.mpr fun o ho => ?_) rfl rfl fun t ht _ => ht
    obtain ⟨_, rfl, -⟩ := hmd o ho
    rfl
  | setPhase =>
    unfold Call.setPhase
    split
    · exact .silent (append_nil _).symm rfl rfl rfl fun t ht _ => ht
    · exact .silent rfl rfl rfl rfl fun t ht _ => ht
  | _ => exact .silent (append_nil _).symm rfl rfl rfl fun t ht _ => ht

/-- Every live order was live before with the same terms, or is the one that the request brings. -/
theorem Step.terms (h : Step x w w') {st'}
    (hst' : w'.call.engine.states[id]? = some st') :
    (∃ st, w.call.engine.states[id]? = some st ∧ st'.terms = st.terms) ∨ x.Brings id st' := by
  cases h.reported with
  | silent _ _ hstates | rejected _ _ _ hstates => exact .inl ⟨st', hstates ▸ hst', rfl⟩
  | @edited _ _ _ _ k _ _ _ _ _ _ hst _ _ _ _ _ _ hstates =>
    rw [hstates] at hst'
    split at hst'
    · rename_i hid
      split at hst'
      · cases hst'
      · cases hst'
        exact .inl ⟨_, hid ▸ hst, k.state_terms ..⟩
    · exact .inl ⟨st', hst', rfl⟩
  | entered _ _ _ _ hbrings _ hstates =>
    rw [hstates] at hst'
    split at hst'
    · rename_i hid
      cases hst'
      exact .inr (hid ▸ hbrings)
    · exact .inl ⟨st', hst', rfl⟩
  | swapped _ _ _ _ hbrings _ hstates =>
    rw [hstates] at hst'
    split at hst'
    · rename_i hid
      cases hst'
      exact .inr (hid ▸ hbrings)
    · split at hst'
      · cases hst'
      · exact .inl ⟨st', hst', rfl⟩

end Fxp

import Fxp.Reachable

/-!
# What holds between two calls

The live orders are spread over the containers without overlap and agree with their report states; outside a call the
book is uncrossed; an order that must not rest does not; an iceberg shows no more than its display quantity.
-/

namespace Fxp

open OrderBook Checked List

variable {R : Type}
variable {cfg : Settings} {e : Engine R} {out : List (Output R)}
variable {x : Context R} {w w' w₁ : Progress R} {id : String} {o : Order} {k : Edit} {pl : Place}

def anyCall (_ _ : Engine R) (_ : Op R) : Prop := True

instance (e e' : Engine R) (op : Op R) : Decidable (anyCall e e' op) := inferInstanceAs (Decidable True)

/-- The orders with this id on the book, parked, queued for an auction and held for the close. -/
def Engine.containers (e : Engine R) (id : String) : List Order :=
  e.book.orderLookup[id]?.toList ++ e.stopBook.parked.filter (·.orderId = id) ++ e.callMarkets[id]?.toList ++
    e.heldClose[id]?.toList

/-- Every live id is in exactly one container, once, and agrees with its report state; no other id is in a container.
-/
structure Engine.Partitioned (e : Engine R) : Prop where
  dead : ∀ id : String, e.states[id]? = none → e.containers id = []
  live : ∀ (id : String) (st : OrderState R), e.states[id]? = some st → ∃ o, e.containers id = [o] ∧ o.orderId = id ∧
    o.quantity = st.orderQty - st.cumQty ∧ 0 < o.quantity ∧ o.traderId = st.sender ∧ sideToProto o.side = st.side

theorem Engine.containers_eq (e : Engine R) (id : String) :
    e.containers id = [Place.book, .stops, .call, .held].flatMap ((idle false { engine := e }).slot id) := by
  simp [containers, Progress.slot, idle]

theorem Engine.Sound.partitioned {e : Engine R} (h : e.Sound) : e.Partitioned := by
  refine ⟨fun id hst => ?_, fun id _ hst => ?_⟩
  · rw [e.containers_eq]
    simp [(h.tracked id).of_none hst]
  obtain ⟨pl, o, hslot, hagrees, -⟩ := (h.tracked id).of_state hst
  refine ⟨o, ?_, hagrees.orderId, ?_, hagrees.positive, hagrees.trader, hagrees.side⟩
  · have hpl : pl ≠ .transit := by
      rintro rfl
      have := hslot .transit
      simp [Progress.slot, idle] at this
    rw [e.containers_eq]
    cases pl <;> simp [hslot] at hpl ⊢
  · have := hagrees.quantity
    omega

/-- An order in a container is live, with the terms that its report state has. -/
theorem Engine.Sound.live_of_mem {e : Engine R} (h : e.Sound) {id : String} {o : Order} (ho : o ∈ e.containers id) :
    ∃ st, e.states[id]? = some st ∧ o.timeInForce = st.timeInForce := by
  rw [e.containers_eq, mem_flatMap] at ho
  obtain ⟨_, -, ho⟩ := ho
  obtain ⟨-, st, hst, hagrees, -⟩ := (h.tracked id).of_mem ho
  exact ⟨st, hst, hagrees.timeInForce⟩

theorem Engine.Sound.apply_error {e : Engine R} (h : e.Sound) {clock : Clock} {op : Op R} {p : Panic}
    (hrange : ∀ c, e.tick (clock .advance) = .ok c → c.engine.inRange op) (hp : e.apply clock op = .error p) :
    p = .overflow := by
  rcases bind_eq_error.mp hp with htick | ⟨_, htick, hhandle⟩
  · exact (tick_safe h _).of_error htick
  · obtain ⟨_, hc₁⟩ := (tick_safe h _).of_ok htick
    exact ((hc₁.sound h).handle clock (hrange _ htick)).of_error hhandle

/-- Without overflow, the report states are those of the orders in the containers, and no call panics on a missing
order. -/
theorem live_orders_partitioned
    (h : Run anyCall (Engine.new cfg) e out) :
    e.Partitioned ∧ ∀ clock op p, (∀ c, e.tick (clock .advance) = .ok c → c.engine.inRange op) →
      e.apply clock op = .error p → p = .overflow := by
  have hsound := h.sound (.new ..)
  exact ⟨hsound.partitioned, fun _ _ _ => hsound.apply_error⟩

theorem live_orders_partitioned_rest : ∃ e out, Run anyCall (Engine.sample none) e out ∧ e.states.size = 1 ∧
    e.Partitioned ∧ ∀ clock op p, (∀ c, e.tick (clock .advance) = .ok c → c.engine.inRange op) →
      e.apply clock op = .error p → p = .overflow := by
  obtain ⟨e, out, hrun, hsize⟩ := Run.of_computed anyCall (Engine.sample none)
    [orderAt 1 "A" "a" .sell 100 5, orderAt 2 "B" "b" .buy 100 3]
    (fun e _ => e.states.size = 1) (by decide +kernel)
  exact ⟨e, out, hrun, hsize, live_orders_partitioned hrun⟩

/-- Past an overflow an order of the book has no report state, and the tick that starts the next call panics on it. -/
theorem live_orders_orphaned : ∃ e out, Calls anyCall (Engine.sample (some .sample)) e out ∧ ¬ e.Partitioned ∧
    e.apply (.at 173110) .tick = .error .missing := by
  obtain ⟨e, out, hcalls, hdead, horphan, hpanic⟩ :=
    Calls.of_computed anyCall (Engine.sample (some .sample)) orphanCalls
    (fun e _ => e.states["G"]?.isNone = true ∧ (e.containers "G").length = 1 ∧
      (e.apply (.at 173110) .tick).map (fun _ => ()) = .error .missing) (by decide +kernel)
  refine ⟨e, out, hcalls, fun h => ?_, ?_⟩
  · rw [h.dead "G" (Option.isNone_iff_eq_none.mp hdead)] at horphan
    cases horphan
  · cases hcall : e.apply (.at 173110) .tick with
    | error p =>
      rw [hcall] at hpanic
      injection hpanic with hp
      rw [hp]
    | ok c =>
      rw [hcall] at hpanic
      cases hpanic

theorem OrderBook.Edited.uncrossed {b b' left} {traded : Nat}
    (h : Edited b o left traded b') (hwf : b.WF) (ho : b.orderLookup[o.orderId]? = some o) (hb : b.Uncrossed) :
    b'.Uncrossed := by
  have hne : ∀ s p, b'.queue s p ≠ [] → b.queue s p ≠ [] := by
    intro s p hp
    by_cases hplace : o.side = s ∧ o.price = p
    · obtain ⟨rfl, rfl⟩ := hplace
      exact ne_nil_of_mem (hwf.mem_queue ho)
    · rwa [h.elsewhere s p hplace] at hp
  exact fun p q hp hq => hb p q (hne _ _ hp) (hne _ _ hq)

/-- Outside a call the book is uncrossed, except while the order that came to rest last is being matched. -/
def Progress.Orderly (w : Progress R) : Prop :=
  isCall w.call.engine.phase = true ∨ w.crossed = true ∨ w.call.engine.book.Uncrossed

theorem Shift.orderly
    (hinv : Inv x w) (h : Shift x w id o k pl w₁) (hw : w.Orderly) : w₁.Orderly := by
  cases h with
  | book ho hedit =>
    refine hw.imp_right (Or.imp_right fun hb => ?_)
    exact hedit.uncrossed hinv.book ((hinv.book.orderId_eq ho).symm ▸ ho) hb
  | _ => exact hw

theorem Step.orderly (hinv : Inv x w) (h : Step x w w') (hw : w.Orderly) :
    w'.Orderly := by
  cases h with
  | edit _ hshift | swap _ hshift =>
    have hw₁ := hshift.orderly hinv hw
    exact hw₁
  | rest => exact .inr (.inl rfl)
  | @enter _ _ _ _ _ ack => cases ack <;> exact hw
  | note hquiet =>
    refine hw.imp (fun h => ?_) (Or.imp_right fun hb => ?_)
    · show isCall _ = true
      rw [hquiet.frame.2.2.2.2.1]
      exact h
    · intro p q hp hq
      rw [hquiet.book.queue] at hp hq
      exact hb p q hp hq
  | settle h => exact h.imp_right .inr
  | setPhase h =>
    unfold Call.setPhase
    split
    · exact hw
    · exact h.imp_right fun h => .inr h.1
  | _ => exact hw

/-- In every reachable engine that is not in a call, the best bid is below the best offer. -/
theorem book_uncrossed
    (h : Run anyCall (Engine.new cfg) e out)
    (hphase : e.phase = .continuous ∨ e.phase = .closed) {bid ask : Int} (hbid : e.book.bestPrice .buy = some bid)
    (hask : e.book.bestPrice .sell = some ask) : bid < ask := by
  obtain ⟨hsound, horderly⟩ := h.invariant (J := fun _ w => w.Orderly) (.new ..)
    (.inr (.inr fun p _ hp => absurd (queue_new cfg.symbol .buy p) hp))
    (fun _ _ hinv hstep => hstep.orderly hinv) (fun hmarket _ hw => by
      simp only [Progress.Orderly, idle] at hw ⊢
      rw [hmarket]
      exact hw) (fun hw => hw)
  have hempty : e.book.NoEmpty := hsound.book.noEmpty
  rcases horderly with hcall | hcrossed | hun
  · rcases hphase with hp | hp <;> simp [idle, hp, isCall] at hcall
  · simp [idle] at hcrossed
  · exact hun bid ask ((bestPrice_eq_some hempty).mp hbid).1 ((bestPrice_eq_some hempty).mp hask).1

theorem book_uncrossed_after_uncross : ∃ e out, Run anyCall (Engine.sample (some .sample)) e out ∧
    e.phase = .continuous ∧ e.book.bestPrice .buy = some 101 ∧ e.book.bestPrice .sell = some 103 ∧
    (101 : Int) < 103 := by
  obtain ⟨e, out, hrun, hphase, hbid, hask⟩ := Run.of_computed anyCall (Engine.sample (some .sample))
    [orderAt 150 "A" "a" .sell 100 5, orderAt 150 "B" "b" .sell 103 5,
      orderAt 150 "C" "c" .buy 101 8, (.at 200, .tick)]
    (fun e _ => e.phase = .continuous ∧ e.book.bestPrice .buy = some 101 ∧ e.book.bestPrice .sell = some 103)
    (by decide +kernel)
  exact ⟨e, out, hrun, hphase, hbid, hask, book_uncrossed hrun (.inl hphase) hbid hask⟩

/-- Past an overflow an offer of the book is not in the auction, and stays below the bid that the auction leaves. -/
theorem book_crossed : ∃ e out, Calls anyCall (Engine.sample (some .sample)) e out ∧ e.phase = .continuous ∧
    e.book.bestPrice .buy = some 101 ∧ e.book.bestPrice .sell = some 100 :=
  Calls.of_computed anyCall (Engine.sample (some .sample))
    (orphanCalls ++ [orderAt 173052 "G" "d" .sell 101 100, orderAt 259350 "J" "c" .buy 101 200, (.at 259410, .tick)])
    _ (by decide +kernel)

/-- An order that is executed at once or not at all. -/
def Order.Immediate (o : Order) : Prop := o.timeInForce = .ioc ∨ o.timeInForce = .fok

instance (o : Order) : Decidable o.Immediate := inferInstanceAs (Decidable (_ ∨ _))

/-- The request does not ask for an immediate execution of an order that rests on the book. -/
def keepsResting (_ e : Engine R) : Op R → Prop
  | .cancelReplace m =>
      e.book.orderLookup.contains m.orderId = true → timeInForceOf m.newTimeInForce ≠ some (some .ioc) ∧
      timeInForceOf m.newTimeInForce ≠ some (some .fok)
  | _ => True

instance (e e' : Engine R) : (op : Op R) → Decidable (keepsResting e e' op)
  | .cancelReplace _ => inferInstanceAs (Decidable (_ = true → _ ∧ _))
  | .newOrder .. | .cancel _ | .massCancel _ | .subscribe _ | .beginOpeningCall _ | .tick => instDecidableTrue

/-- No immediate order is on the book or waits for an auction, and no replacement of a resting order is immediate. -/
structure Progress.Patient (w : Progress R) : Prop where
  resting : ∀ id pl, pl = .book ∨ pl = .call → ∀ o ∈ w.slot id pl, ¬ o.Immediate
  replaced : ∀ t ∈ w.transit, t.replaced = true → ¬ t.order.Immediate

theorem parseReplaceTimeInForce_eq {value tif}
    (h : parseReplaceTimeInForce value = .ok tif) : timeInForceOf value = some tif := by
  unfold parseReplaceTimeInForce at h
  split at h
  · rename_i heq
    cases h
    exact heq
  · cases h

private theorem mem_of_split {α : Type} {l pre post : List α} {a b : α} (h : l = pre ++ a :: post)
    (hb : b ∈ pre ++ post) : b ∈ l := by
  rw [h]
  rcases mem_append.mp hb with hpre | hpost
  · exact mem_append_left _ hpre
  · exact mem_append_right _ (mem_cons_of_mem _ hpost)

theorem Shift.patient
    (hinv : Inv x w) (h : Shift x w id o k pl w₁) (hw : w.Patient) : w₁.Patient := by
  refine ⟨fun id' pl' hpl' o' ho' => ?_, ?_⟩
  · rw [h.slot hinv] at ho'
    split at ho'
    · rename_i hat
      obtain ⟨rfl, rfl⟩ := hat
      split at ho'
      · cases ho'
      · cases mem_singleton.mp ho'
        exact hw.resting id pl hpl' o h.mem_slot
    · exact hw.resting id' pl' hpl' o' ho'
  · cases h with
    | @transit _ _ t ht ho =>
      intro t' ht' hreplaced
      have hold := hw.replaced
      rw [ht] at hold
      simp only [mem_append] at ht'
      rcases ht' with (hpre | hnew) | hpost
      · exact hold t' (by simp [hpre]) hreplaced
      · split at hnew
        · cases hnew
        cases mem_singleton.mp hnew
        have hmid := hold t (by simp) hreplaced
        rwa [ho] at hmid
      · exact hold t' (by simp [hpost]) hreplaced
    | _ => exact hw.replaced

theorem Progress.Patient.congr (hw : w.Patient) (hslot : ∀ id pl, pl = .book ∨ pl = .call →
      w'.slot id pl = w.slot id pl)
    (htransit : ∀ t ∈ w'.transit, t ∈ w.transit ∨ t.replaced = false) : w'.Patient := by
  refine ⟨fun id pl hpl o ho => hw.resting id pl hpl o ?_, fun t ht hreplaced => ?_⟩
  · rwa [hslot id pl hpl] at ho
  rcases htransit t ht with hold | hnew
  · exact hw.replaced t hold hreplaced
  · rw [hnew] at hreplaced
    cases hreplaced

theorem Step.patient (hok : x.Allowed keepsResting) (hinv : Inv x w) (h : Step x w w')
    (hw : w.Patient) : w'.Patient := by
  cases h with
  | edit _ hshift =>
    have hw₁ := hshift.patient hinv hw
    exact hw₁.congr (fun id pl _ => Progress.slot_congr rfl rfl rfl rfl rfl id pl) fun t ht => .inl ht
  | @swap w₁ _ m newTif o t _ st' ts hreq hshift _ hstart _ hparse htif _ _ _ _ _ _ hreplaced =>
    have hw₁ := hshift.patient hinv hw
    refine ⟨fun id pl' hpl' => ?_, fun t' ht' hrep => ?_⟩
    · have hslot : Progress.slot
          { w₁ with
            call := w₁.call.takeOver m st' ts
            transit := [t] } id pl' = w₁.slot id pl' := by
        rcases hpl' with rfl | rfl <;> rfl
      rw [hslot]
      exact hw₁.resting id pl' hpl'
    · cases mem_singleton.mp ht'
      rw [hreplaced, decide_eq_true_eq] at hrep
      subst hrep
      have ho : ¬ o.Immediate := hw.resting _ .book (.inl rfl) o hshift.mem_slot
      have hmem := hshift.mem_slot
      simp only [Progress.slot, hstart.2.2, Option.mem_toList] at hmem
      obtain ⟨_, hkeeps⟩ := hok _ hreq
      have hnot := hkeeps (Maps.contains_of_some hmem)
      rw [parseReplaceTimeInForce_eq hparse] at hnot
      rcases newTif with _ | _
      · rwa [Order.Immediate, htif]
      rintro (h | h) <;> rw [htif, Option.getD_some] at h <;> subst h
      · exact hnot.1 rfl
      · exact hnot.2 rfl
  | @enter _ _ _ _ _ ack =>
    refine hw.congr (fun id pl hpl => ?_) fun t ht => ?_
    · cases ack <;> rcases hpl with rfl | rfl <;> rfl
    rcases mem_append.mp ht with hold | hnew
    · exact .inl hold
    · cases mem_singleton.mp hnew
      exact .inr rfl
  | @rest _ _ t _ _ ht _ _ _ htif hadd =>
    have hnot : ¬ t.order.Immediate := by
      rcases htif with hreplaced | ⟨hioc, hfok⟩
      · exact hw.replaced t (by simp [ht]) hreplaced
      rintro (h | h)
      · exact hioc h
      · exact hfok h
    refine ⟨fun id pl hpl o ho => ?_, fun t' ht' => hw.replaced t' (mem_of_split ht ht')⟩
    rcases hpl with rfl | rfl
    · simp only [Progress.slot, Call.onEngine_engine, hadd.lookup, Option.mem_toList] at ho
      split at ho
      · cases ho
        exact hnot
      · exact hw.resting id .book (.inl rfl) o (by simpa [Progress.slot] using ho)
    · exact hw.resting id .call (.inr rfl) o ho
  | @queue _ _ _ ht _ _ _ htif =>
    refine ⟨fun id pl hpl o ho => ?_, fun t' ht' => hw.replaced t' (mem_of_split ht ht')⟩
    rcases hpl with rfl | rfl
    · exact hw.resting id .book (.inl rfl) o ho
    simp only [Progress.slot, Call.onEngine_engine, Maps.getElem?_insert, Option.mem_toList] at ho
    split at ho
    · cases ho
      rintro (h | h)
      · exact htif.1 h
      · exact htif.2 h
    · exact hw.resting id .call (.inr rfl) o (by simpa [Progress.slot] using ho)
  | park ht | hold ht =>
    refine hw.congr (fun id pl hpl => ?_) fun t' ht' => .inl (mem_of_split ht ht')
    rcases hpl with rfl | rfl <;> rfl
  | trigger | release =>
    refine hw.congr (fun id pl hpl => ?_) fun t' ht' => ?_
    · rcases hpl with rfl | rfl <;> rfl
    rcases mem_append.mp ht' with hnew | hold
    · obtain ⟨_, -, rfl⟩ := mem_map.mp hnew
      exact .inr rfl
    · exact .inl hold
  | note hquiet => exact hw.congr (fun id pl _ => hquiet.slot id pl) fun t ht => .inl ht
  | setPhase =>
    unfold Call.setPhase
    split
    · exact hw
    · exact hw.congr (fun id pl _ => Progress.slot_congr rfl rfl rfl rfl rfl id pl) fun t ht => .inl ht
  | _ => exact hw.congr (fun id pl _ => Progress.slot_congr rfl rfl rfl rfl rfl id pl) fun t ht => .inl ht

/-- If no replace asks for an immediate execution of a resting order, no immediate order rests or waits for an
auction. -/
theorem immediate_never_rests
    (h : Run keepsResting (Engine.new cfg) e out) (id : String)
    (o : Order) (ho : e.book.orderLookup[id]? = some o ∨ e.callMarkets[id]? = some o) :
    o.timeInForce ≠ .ioc ∧ o.timeInForce ≠ .fok := by
  obtain ⟨-, hpatient⟩ := h.invariant (J := fun _ w => w.Patient) (.new ..)
    ⟨fun id pl hpl o ho => by
      rcases hpl with rfl | rfl <;> simp [Progress.slot, idle, Engine.new, OrderBook.new] at ho,
      fun t ht => by cases ht⟩
    (fun _ hok hinv hstep => hstep.patient hok hinv)
    (fun hmarket _ hw => hw.congr (fun id pl _ => hmarket.slot false false id pl) fun t ht => .inl ht)
    (fun hw => hw.congr (fun id pl _ => Progress.slot_congr rfl rfl rfl rfl rfl id pl) fun t ht => .inl ht)
  have hnot : ¬ o.Immediate := by
    rcases ho with ho | ho
    · exact hpatient.resting id .book (.inl rfl) o (by simp [Progress.slot, idle, ho])
    · exact hpatient.resting id .call (.inr rfl) o (by simp [Progress.slot, idle, ho])
  exact ⟨fun h => hnot (.inl h), fun h => hnot (.inr h)⟩

theorem immediate_never_rests_replaced : ∃ e out, Run keepsResting (Engine.sample none) e out ∧ ∃ o,
    e.book.orderLookup["B"]? = some o ∧ o.timeInForce ≠ .ioc ∧ o.timeInForce ≠ .fok := by
  obtain ⟨e, out, hrun, ho⟩ := Run.of_computed keepsResting (Engine.sample none)
    [orderAt 1 "A" "a" .sell 100 5, replaceAt 2 "A" "B" "a" 1 0]
    (fun e _ => e.book.orderLookup["B"]?.isSome) (by decide +kernel)
  obtain ⟨o, ho⟩ := Option.isSome_iff_exists.mp ho
  exact ⟨e, out, hrun, o, ho, immediate_never_rests hrun "B" o (.inl ho)⟩

/-- A replace can turn an order on the book into an immediate one that stays there. -/
theorem immediate_rests_after_replace : ∃ e out, Run anyCall (Engine.sample none) e out ∧
    e.book.orderLookup["B"]?.any (fun o => o.timeInForce = .ioc) = true :=
  Run.of_computed anyCall (Engine.sample none)
    [orderAt 1 "A" "a" .sell 100 5, replaceAt 2 "A" "B" "a" 3 0] _ (by decide +kernel)

/-- The operator starts no call while an iceberg rests on the book. -/
def callsWithoutIcebergs (_ e : Engine R) : Op R → Prop
  | .beginOpeningCall seconds =>
    seconds ≠ 0 → isCall e.phase = false → ∀ o ∈ e.book.orderLookup.values, o.displayQuantity = 0
  | _ => True

instance (e e' : Engine R) : (op : Op R) → Decidable (callsWithoutIcebergs e e' op)
  | .beginOpeningCall _ => inferInstanceAs (Decidable (_ → _ → ∀ _ ∈ _, _))
  | .newOrder .. | .cancel _ | .cancelReplace _ | .massCancel _ | .subscribe _ | .tick => instDecidableTrue

/-- No iceberg is live while auctions can happen, and every slice on the book is within the display quantity. -/
structure Progress.Discreet (w : Progress R) : Prop where
  plain : w.call.engine.auctionsEnabled = true ∨ w.auction = true → ∀ id pl, ∀ o ∈ w.slot id pl, o.displayQuantity = 0
  slice : ∀ (id : String) (o : Order) (d : Nat), w.call.engine.book.orderLookup[id]? = some o →
    w.call.engine.book.displayed[id]? = some d → o.displayQuantity ≠ 0 → d ≤ o.displayQuantity

theorem Edit.left_slice {v n d : Nat} (hk : k.Within o v) (hv : v ≤ o.displayQuantity)
    (hauction : ∀ q, k ≠ .auction q) (h : k.left o v = some (n, d)) : d ≤ o.displayQuantity := by
  cases k with
  | fill =>
    simp only [Edit.left, afterFill, nextSlice] at h
    split at h
    · cases h
    · split at h <;> cases h <;> omega
  | auction q => exact absurd rfl (hauction q)
  | cut =>
    simp only [Edit.left, afterCut] at h
    split at h
    · cases h
    · cases h
      omega
  | drop => cases h

theorem Shift.discreet
    (hinv : Inv x w) (h : Shift x w id o k pl w₁) (hw : w.Discreet) : w₁.Discreet := by
  obtain ⟨hengine, -, -, hauction⟩ := h.frame
  refine ⟨fun hen id' pl' o' ho' => ?_, ?_⟩
  · have hen' : w.call.engine.auctionsEnabled = true ∨ w.auction = true := by
      rw [hengine, hauction] at hen
      exact hen
    rw [h.slot hinv] at ho'
    split at ho'
    · split at ho'
      · cases ho'
      · cases mem_singleton.mp ho'
        exact hw.plain hen' id pl o h.mem_slot
    · exact hw.plain hen' id' pl' o' ho'
  · cases h with
    | book ho hedit _ hwithin hrunning =>
      intro id' o' d ho' hd hdisplay
      simp only [Call.onEngine_engine, hedit.lookup, hedit.displayed] at ho' hd
      have hid := hinv.book.orderId_eq ho
      split at ho'
      · rename_i hid'
        rw [if_pos hid'] at hd
        obtain ⟨⟨_, _⟩, hleft, rfl⟩ := Option.map_eq_some_iff.mp ho'
        rw [hleft, Option.map_some, Option.some.injEq] at hd
        subst hd
        have hvisible := hw.slice id o _ ho (hinv.book.visible_eq ho).1 hdisplay
        have hnot : ∀ q, k ≠ .auction q := fun q hq =>
          hdisplay (hw.plain (.inr (hrunning q hq)) id .book o (by simp [Progress.slot, ho]))
        have hslice := Edit.left_slice hwithin hvisible hnot hleft
        exact hslice
      · rename_i hid'
        rw [if_neg hid'] at hd
        exact hw.slice id' o' d ho' hd hdisplay
    | _ => exact hw.slice

/-- Where an order in the containers comes from: it was there, or is the request's, and no iceberg while auctions can
happen. -/
inductive Origin (x : Context R) (w : Progress R) (id : String) (o : Order) : Prop
  | kept {pl o' quantity orderType} (ho' : o' ∈ w.slot id pl)
    (h : o = { o' with quantity := quantity, orderType := orderType })
  | entered {order owner o' ts orderType} (hreq : x.request = some (.newOrder order owner))
    (hof : Call.orderOf x.start order ts = .ok o') (h : o = { o' with orderType := orderType })
    (hiceberg : o.displayQuantity ≠ 0 → w.call.engine.auctionsEnabled = false ∧ w.auction = false)
  | replaced {m pl o'} (hreq : x.request = some (.cancelReplace m))
    (ho' : o' ∈ w.slot m.orderId pl) (hid : o.orderId = m.newOrderId)
    (hscope : o.traderId = o'.traderId ∧ o.side = o'.side ∧ o.stp = o'.stp)
    (hiceberg : o.displayQuantity ≠ 0 → w.call.engine.auctionsEnabled = false ∧ w.auction = false)

/-- An order that was on its way comes into a container. -/
private theorem Origin.settled {pre post : List Transit} {t : Transit} (pl₀ : Place) (ht : w.transit = pre ++ t :: post)
    (htransit : w'.transit = pre ++ post)
    (hinto : o ∈ w'.slot id pl₀ → o ∈ w.slot id pl₀ ∨ t.order.orderId = id ∧ o = t.order)
    (hothers : pl ≠ pl₀ → pl ≠ .transit → w'.slot id pl = w.slot id pl) (ho : o ∈ w'.slot id pl) : Origin x w id o := by
  by_cases hleft : pl = .transit
  · subst hleft
    rw [Progress.slot, htransit] at ho
    obtain ⟨hmap, hid⟩ := mem_filter.mp ho
    obtain ⟨_, ht', rfl⟩ := mem_map.mp hmap
    exact .kept (Progress.mem_slot_transit (mem_of_split ht ht') (by simpa using hid)) rfl
  by_cases hpl : pl = pl₀
  · subst hpl
    rcases hinto ho with hold | ⟨hid, rfl⟩
    · exact .kept hold rfl
    · exact .kept (Progress.mem_slot_transit (t := t) (by simp [ht]) hid) rfl
  · exact .kept (hothers hpl hleft ▸ ho) rfl

/-- Orders of a container are on their way again. -/
private theorem Origin.released {orders : List Order} {f : Order → Transit} (pl₀ : Place)
    (htransit : w'.transit = orders.map f ++ w.transit)
    (hf : ∀ o', ∃ orderType, (f o').order = { o' with orderType := orderType })
    (hfrom : ∀ o' ∈ orders, o'.orderId = id → o' ∈ w.slot id pl₀) (ho : o ∈ w'.slot id .transit) : Origin x w id o := by
  rw [Progress.slot, htransit, map_append, filter_append, mem_append] at ho
  rcases ho with hnew | hold
  · obtain ⟨hmem, hid⟩ := mem_filter.mp hnew
    rw [map_map] at hmem
    obtain ⟨o', ho', rfl⟩ := mem_map.mp hmem
    obtain ⟨orderType, heq⟩ := hf o'
    rw [Function.comp_apply, heq] at hid ⊢
    exact .kept (hfrom o' ho' (of_decide_eq_true hid)) rfl
  · exact .kept (show o ∈ w.slot id .transit from hold) rfl

theorem Step.origin (hinv : Inv x w) (h : Step x w w')
    (ho : o ∈ w'.slot id pl) : Origin x w id o := by
  -- most steps leave the containers alone, or move one order between two of them
  have hsame : o ∈ w.slot id pl → Origin x w id o := fun ho => .kept ho rfl
  cases h with
  | @edit w₁ _ _ _ _ _ _ _ _ _ _ _ hshift =>
    have ho₁ : o ∈ w₁.slot id pl := by cases pl <;> exact ho
    rw [hshift.slot hinv] at ho₁
    split at ho₁
    · rename_i hat
      obtain ⟨rfl, rfl⟩ := hat
      split at ho₁
      · cases ho₁
      · cases mem_singleton.mp ho₁
        exact .kept hshift.mem_slot rfl
    · exact hsame ho₁
  | @swap w₁ _ _ _ _ _ _ _ _ hreq hshift _ _ _ _ _ _ hagrees _ _ hiceberg _ _ _ _ _ _ _ _ hscope =>
    by_cases hpl : pl = .transit
    · subst hpl
      obtain ⟨hmem, -⟩ := mem_filter.mp ho
      cases mem_singleton.mp hmem
      exact .replaced hreq hshift.mem_slot hagrees.orderId hscope hiceberg
    have ho₁ : o ∈ w₁.slot id pl := by
      cases pl <;> first | exact ho | exact absurd rfl hpl
    rw [hshift.slot hinv] at ho₁
    split at ho₁
    · cases ho₁
    · exact hsame ho₁
  | @enter _ _ _ _ _ ack _ _ hreq hof ho' hnew _ _ hiceberg =>
    by_cases hpl : pl = .transit
    · subst hpl
      simp only [Progress.slot, map_append, filter_append, mem_append] at ho
      rcases ho with hold | hnew
      · exact hsame hold
      obtain ⟨hmem, -⟩ := mem_filter.mp hnew
      cases mem_singleton.mp hmem
      rcases ho' with rfl | rfl <;> exact .entered hreq hof rfl hiceberg
    · apply hsame
      cases ack <;> cases pl <;> first | exact ho | exact absurd rfl hpl
  | @rest _ _ _ _ _ ht _ _ _ _ hadd =>
    refine .settled .book ht rfl (fun ho => ?_) (fun h h' => ?_) ho
    · simp only [Progress.slot, Call.onEngine_engine, hadd.lookup, Option.mem_toList] at ho ⊢
      split at ho
      · rename_i hid
        exact .inr ⟨hid, (Option.some.inj ho).symm⟩
      · exact .inl ho
    · cases pl <;> first | rfl | contradiction
  | @park _ _ _ ht =>
    refine .settled .stops ht rfl (fun ho => ?_) (fun h h' => ?_) ho
    · simp only [Progress.slot, Call.onEngine_engine, StopBook.park, filter_append, mem_append] at ho ⊢
      refine ho.imp_right fun hnew => ?_
      obtain ⟨hmem, hid⟩ := mem_filter.mp hnew
      cases mem_singleton.mp hmem
      exact ⟨of_decide_eq_true hid, rfl⟩
    · cases pl <;> first | rfl | contradiction
  | @queue _ _ _ ht =>
    refine .settled .call ht rfl (fun ho => ?_) (fun h h' => ?_) ho
    · simp only [Progress.slot, Call.onEngine_engine, Maps.getElem?_insert, Option.mem_toList] at ho ⊢
      split at ho
      · rename_i hid
        exact .inr ⟨hid, (Option.some.inj ho).symm⟩
      · exact .inl ho
    · cases pl <;> first | rfl | contradiction
  | @hold _ _ _ ht =>
    refine .settled .held ht rfl (fun ho => ?_) (fun h h' => ?_) ho
    · simp only [Progress.slot, Call.onEngine_engine, Maps.getElem?_insert, Option.mem_toList] at ho ⊢
      split at ho
      · rename_i hid
        exact .inr ⟨hid, (Option.some.inj ho).symm⟩
      · exact .inl ho
    · cases pl <;> first | rfl | contradiction
  | @trigger _ _ hperm =>
    have hmem {o' : Order} (ho' : o' ∈ w.call.engine.stopBook.parked) (hid : o'.orderId = id) : o' ∈ w.slot id .stops :=
      mem_filter.mpr ⟨ho', decide_eq_true hid⟩
    cases pl with
    | stops =>
      obtain ⟨hmem', hid⟩ := mem_filter.mp ho
      exact hsame (hmem (hperm.mem_iff.mp (mem_append_right _ hmem')) (of_decide_eq_true hid))
    | transit =>
      exact .released .stops rfl (fun _ => ⟨_, rfl⟩) (fun _ ho' => hmem (hperm.mem_iff.mp (mem_append_left _ ho'))) ho
    | _ => exact hsame ho
  | @release held hheld =>
    cases pl with
    | held => simp [Progress.slot] at ho
    | transit =>
      refine .released .held rfl (fun o' => ⟨o'.orderType, rfl⟩) (fun o' ho' hid => ?_) ho
      rw [Progress.slot, ← hheld id]
      exact mem_filter.mpr ⟨ho', decide_eq_true hid⟩
    | _ => exact hsame ho
  | note hquiet => exact hsame (hquiet.slot id pl ▸ ho)
  | setPhase =>
    apply hsame
    unfold Call.setPhase at ho
    split at ho <;> cases pl <;> exact ho
  | _ => exact hsame (by cases pl <;> exact ho)

/-- The slices on the book stay as they are or are the first slice of an order that comes to rest. -/
theorem Step.slice (hinv : Inv x w) (h : Step x w w') (hw : w.Discreet) (id : String)
    (o : Order) (d : Nat) (ho : w'.call.engine.book.orderLookup[id]? = some o)
    (hd : w'.call.engine.book.displayed[id]? = some d) (hdisplay : o.displayQuantity ≠ 0) : d ≤ o.displayQuantity := by
  cases h with
  | edit _ hshift | swap _ hshift => exact (hshift.discreet hinv hw).slice id o d ho hd hdisplay
  | @enter _ _ _ _ _ ack => cases ack <;> exact hw.slice id o d ho hd hdisplay
  | @rest _ _ _ _ _ _ _ _ _ _ hadd =>
    simp only [Call.onEngine_engine, hadd.lookup, hadd.displayed] at ho hd
    split at ho
    · rename_i hid
      rw [if_pos hid] at hd
      cases ho
      cases hd
      rw [firstSlice, if_neg hdisplay]
      exact Nat.min_le_left ..
    · rename_i hid
      rw [if_neg hid] at hd
      exact hw.slice id o d ho hd hdisplay
  | note hquiet =>
    rw [hquiet.book.lookup] at ho
    rw [hquiet.book.displayed] at hd
    exact hw.slice id o d ho hd hdisplay
  | setPhase =>
    rw [Call.setPhase_engine] at ho hd
    exact hw.slice id o d ho hd hdisplay
  | _ => exact hw.slice id o d ho hd hdisplay

theorem Shift.auctionsEnabled
    (h : Shift x w id o k pl w₁) : w₁.call.engine.auctionsEnabled = w.call.engine.auctionsEnabled := by
  rw [h.frame.1]
  rfl

theorem Step.discreet (hok : x.Allowed callsWithoutIcebergs) (hinv : Inv x w)
    (h : Step x w w') (hw : w.Discreet) : w'.Discreet := by
  refine ⟨fun hen id _ o ho => ?_, h.slice hinv hw⟩
  by_contra hdisplay
  -- auctions were possible before the step, unless the operator just made them so
  have hbefore : (w.call.engine.auctionsEnabled = true ∨ w.auction = true) ∨
      ∃ seconds, x.request = some (.beginOpeningCall seconds) ∧ seconds ≠ 0 ∧ isCall x.start.phase = false ∧
        w.call.engine.book = x.start.book ∧ w.transit = [] := by
    cases h with
    | edit _ hshift | swap _ hshift =>
      have hauction := hshift.frame.2.2.2
      exact .inl (hen.imp (fun h => hshift.auctionsEnabled ▸ h) fun h => hauction ▸ h)
    | note hquiet =>
      refine .inl (hen.imp_left fun h => ?_)
      rw [hquiet.engine] at h
      exact h
    | setPhase =>
      refine .inl (hen.imp_left fun h => ?_)
      rw [Call.setPhase_engine] at h
      exact h
    | beginCall hreq hseconds hphase hstart htransit => exact .inr ⟨_, hreq, hseconds, hphase, hstart, htransit⟩
    | startAuction h => exact .inl (.inl h)
    | endAuction => exact .inl (.inl (hen.resolve_right (by simp)))
    | @enter _ _ _ _ _ ack => cases ack <;> exact .inl hen
    | _ => exact .inl hen
  have hfresh : (∀ seconds, x.request ≠ some (.beginOpeningCall seconds)) →
      (o.displayQuantity ≠ 0 → w.call.engine.auctionsEnabled = false ∧ w.auction = false) → False := by
    intro hother hnew
    obtain ⟨hen₁, hau₁⟩ := hnew hdisplay
    rcases hbefore with (h | h) | ⟨seconds, hreq, -⟩
    · rw [hen₁] at h
      cases h
    · rw [hau₁] at h
      cases h
    · exact hother seconds hreq
  cases h.origin hinv ho with
  | entered hreq _ _ hnew | replaced hreq _ _ _ hnew => exact hfresh (by simp [hreq]) hnew
  | @kept pl' o' _ _ ho' heq =>
    rw [heq] at hdisplay
    rcases hbefore with hbefore | ⟨_, hreq, hseconds, hphase, hstart, htransit⟩
    · exact hdisplay (hw.plain hbefore id pl' o' ho')
    -- an iceberg is a limit order that rests on the book
    obtain ⟨-, _, -, hagrees, hholds, -⟩ := (hinv.tracked id).of_mem ho'
    obtain ⟨htype, htif⟩ := hagrees.iceberg hdisplay
    cases pl' with
    | book =>
      obtain ⟨_, hwithout⟩ := hok _ hreq
      simp only [Progress.slot, Option.mem_toList] at ho'
      exact hdisplay (hwithout hseconds hphase o' (Maps.mem_values.mpr ⟨id, hstart ▸ ho'⟩))
    | stops => rcases hholds.1 with h | h <;> simp [h] at htype
    | call => simp [Place.Holds, htype] at hholds
    | held => simp [hholds.2] at htif
    | transit => simp [Progress.slot, htransit] at ho'

section between

variable {c c' : Call R}

theorem Progress.Discreet.start (cfg : Settings) :
    (idle false { engine := Engine.new cfg } : Progress R).Discreet :=
  ⟨fun _ id pl o ho => by cases pl <;> simp [Progress.slot, idle, Engine.new, OrderBook.new] at ho,
    fun id o _ ho => by simp [idle, Engine.new, OrderBook.new] at ho⟩

theorem Progress.Discreet.sameMarket (h : (idle false c).Discreet) (hmarket : c.engine.SameMarket c'.engine) :
    (idle false c').Discreet := by
  refine ⟨fun hen id pl o ho => ?_, ?_⟩
  · rw [hmarket.slot false false] at ho
    refine h.plain (hen.imp_left fun h => ?_) id pl o ho
    simp only [idle] at h ⊢
    rw [hmarket] at h
    exact h
  · have hslice := h.slice
    simp only [idle] at hslice ⊢
    rw [hmarket]
    exact hslice

theorem Progress.Discreet.restart (h : (idle false c).Discreet) : (idle false { engine := c.engine }).Discreet :=
  ⟨fun hen id pl o ho => h.plain hen id pl o (by cases pl <;> exact ho), h.slice⟩

end between

/-- If the operator starts no call while an iceberg rests, every resting iceberg shows something within its display
quantity and what is left of it. -/
theorem iceberg_slice_bounded
    (h : Run callsWithoutIcebergs (Engine.new cfg) e out) (id : String)
    (o : Order) (ho : e.book.orderLookup[id]? = some o) (hdisplay : 0 < o.displayQuantity) :
    1 ≤ e.book.visible o ∧ e.book.visible o ≤ min o.displayQuantity o.quantity := by
  obtain ⟨hsound, hdiscreet⟩ := h.invariant (J := fun _ w => w.Discreet) (.new ..) (.start ..)
    (fun _ hok hinv hstep => hstep.discreet hok hinv) (fun hmarket _ hw => hw.sameMarket hmarket) (fun hw => hw.restart)
  obtain ⟨hd, hpos, hle, -⟩ := hsound.book.visible_eq ho
  exact ⟨hpos, le_min (hdiscreet.slice id o _ ho hd (Nat.pos_iff_ne_zero.mp hdisplay)) hle⟩

theorem iceberg_slice_bounded_resting : ∃ e out, Run callsWithoutIcebergs (Engine.sample none) e out ∧ ∃ o,
    e.book.orderLookup["A"]? = some o ∧ 0 < o.displayQuantity ∧ 1 ≤ e.book.visible o ∧
      e.book.visible o ≤ min o.displayQuantity o.quantity := by
  obtain ⟨e, out, hrun, ho⟩ := Run.of_computed callsWithoutIcebergs (Engine.sample none)
    [(.at 1, .newOrder { NewOrderSingle.sample "A" "a" .sell 100 10 with displayQuantity := 2 } 0),
      orderAt 2 "B" "b" .buy 100 3]
    (fun e _ => e.book.orderLookup["A"]?.any fun o => 0 < o.displayQuantity) (by decide +kernel)
  obtain ⟨o, ho, hdisplay⟩ := Option.any_eq_true _ _ |>.mp ho
  have hpos := of_decide_eq_true hdisplay
  exact ⟨e, out, hrun, o, ho, hpos, iceberg_slice_bounded hrun "A" o ho hpos⟩

/-- A call that the operator starts over a resting iceberg shows its whole reserve. -/
theorem iceberg_exposed_by_auction : ∃ e out, Run anyCall (Engine.sample none) e out ∧
    e.book.orderLookup["A"]?.any (fun o => o.displayQuantity = 2 && e.book.visible o = 7) = true :=
  Run.of_computed anyCall (Engine.sample none)
    [(.at 1, .newOrder { NewOrderSingle.sample "A" "a" .sell 100 10 with displayQuantity := 2 } 0),
      (.at 1, .beginOpeningCall 5), orderAt 2 "B" "b" .buy 100 3, (.at 10, .tick)] _ (by decide +kernel)

end Fxp

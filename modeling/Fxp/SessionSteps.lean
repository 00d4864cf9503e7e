import Fxp.AuctionSteps
import Fxp.Schedule

/-!
# The session as a path

Every boundary of the session, and every round of the clock, is a path between two idle calls.  The clock stops by
itself: each round moves the cursor on, except that it may go back to the end of an operator's call once.
-/

namespace Fxp

open OrderBook Checked List

variable {R : Type} {x : Context R} {c : Call R}

/-- The steps from one idle call to the next. -/
abbrev Leads (x : Context R) (c c' : Call R) : Prop := Path x (idle false c) (idle false c')

/-- A call with orders in transit and nothing else under way. -/
def moving (c : Call R) (transit : List Transit) : Progress R := { call := c, transit := transit }

theorem CascadeState.Shadowed.executeAll {ts : Time} {s : CascadeState} {w : Progress R} (hinv : Inv x w)
    (h : s.Shadowed ts c w) :
    ∃ r w', s.queue.foldlM Call.openStop (s.book, s.out) = .ok r ∧ Path x w w' ∧
      CascadeState.Shadowed ts c { s with book := r.1, out := r.2, queue := [] } w' := by
  obtain ⟨book, _, _, out, _, queue⟩ := s
  induction queue generalizing book out w with
  | nil => exact ⟨(book, out), w, rfl, .refl, h⟩
  | cons stop _ ih =>
    obtain ⟨r, _, hr, hpath, h₁⟩ := h.execute hinv rfl
    obtain ⟨r', w₂, hr', hpath', h₂⟩ := ih (hpath.inv hinv) _ _ h₁
    refine ⟨r', w₂, ?_, hpath.trans hpath', h₂⟩
    have hstep : Call.openStop (book, out) stop = .ok (r.1, r.2.1) := by
      simp only at hr
      rw [Call.openStop, hr]
      rfl
    rw [foldlM_cons, hstep]
    exact hr'

theorem openStops_safe (hinv : Inv x (idle false c)) (instant : Time) (price : Int) :
    Safe (c.openStops instant price) (Leads x c) := by
  obtain ⟨drained, hdrained⟩ : ∃ d, d = c.engine.stopBook.drainTriggered price := ⟨_, rfl⟩
  have hstep : Step x (idle false c) (moving (c.onEngine fun e => { e with stopBook := drained.2 })
      (drained.1.map triggeredTransit ++ [])) :=
    .trigger (by rw [hdrained]; exact drainTriggered_perm c.engine.stopBook price)
  have hstart : CascadeState.Shadowed instant (c.onEngine fun e => { e with stopBook := drained.2 })
      { book := c.engine.book, stops := drained.2, lastTradePrice := c.engine.lastTradePrice, out := {}, scanned := 0
        queue := drained.1 }
      (moving (c.onEngine fun e => { e with stopBook := drained.2 }) (drained.1.map triggeredTransit ++ [])) := by
    refine ⟨[], ⟨?_, fun e he => ?_, .refl _, .refl _, .refl _, .refl _, rfl, rfl⟩, rfl, hinv.stp, rfl⟩
    · show _ = (Call.withMarket _ c.engine.book.calm drained.2 c.engine.lastTradePrice)
      rw [OrderBook.calm_eq (show c.engine.book.stp = _ from hinv.stp)]
      rfl
    · cases he
  obtain ⟨r, _, hr, hpath, _, hs, hcancels, hstp, hcrossed⟩ := hstart.executeAll (hstep.inv hinv)
  obtain ⟨c', hc', hcascade⟩ := Shadow.cascade (c := { c with engine := { c.engine with
    book := r.1, stopBook := drained.2 } }) (hpath.inv (hstep.inv hinv)) (hs.rebase rfl) hcancels hstp hcrossed
  simp only at hr
  rw [Call.openStops, ← hdrained]
  simp only [hr, ok_bind, hc']
  exact (Relation.ReflTransGen.head hstep hpath).trans hcascade

/-- An acknowledged order of which nothing is filled. -/
def Transit.unfilled (o : Order) : Transit := { order := o, filled := some 0, replaced := false, acked := true }

theorem Path.restInCall {t tr} (hinv : Inv x (moving c (t :: tr)))
    (hphase : isCall c.engine.phase = true) (hlimit : t.order.orderType = .limit) (hfilled : t.filled = some 0)
    (hacked : t.acked = true) (htif : t.order.timeInForce ≠ .ioc ∧ t.order.timeInForce ≠ .fok) (ts : Time) :
    Path x (moving c (t :: tr)) (moving (Call.pushMd ts
      { c with engine := { c.engine with book := (c.engine.book.addOrder t.order).1 } }
      (c.engine.book.addOrder t.order).2) tr) := by
  have hnew := hinv.not_on_book (t := t) mem_cons_self
  have hrest := @Step.rest R x (moving c (t :: tr)) [] tr t 0 _ rfl hacked hlimit hfilled (.inr htif)
    (addOrder_spec hinv.book hnew) ((addOrder_stp ..).trans hinv.stp)
  refine .tail (.head hrest (@Path.flush R x ts _ [(c.engine.book.addOrder t.order).2] ?_)) (.settle (.inl hphase))
  exact fun _ => rfl

private theorem releaseHeld_path (held : List Order) (instant : Time) (hphase : isCall c.engine.phase = true)
    (hheld : ∀ o ∈ held, (o.orderType = .market ∨ o.orderType = .limit) ∧ o.timeInForce = .atClose)
    (hinv : Inv x (moving c (held.map Transit.unfilled))) :
    Path x (moving c (held.map Transit.unfilled)) (idle false (held.foldl (Call.releaseHeld instant) c)) := by
  induction held generalizing c with
  | nil => exact .refl
  | cons o held ih =>
    obtain ⟨htype, htif⟩ := hheld o mem_cons_self
    have hnot : o.timeInForce ≠ .ioc ∧ o.timeInForce ≠ .fok := by simp [htif]
    have hheld' := fun o' ho' => hheld o' (mem_cons_of_mem o ho')
    have hstep : Path x (moving c ((o :: held).map Transit.unfilled))
        (moving (c.releaseHeld instant o) (held.map Transit.unfilled)) := by
      rcases htype with hmarket | hlimit
      · have hdef : c.releaseHeld instant o =
            { c with engine := { c.engine with callMarkets := c.engine.callMarkets.insert o.orderId o } } := by
          simp only [Call.releaseHeld, if_pos hmarket]
        rw [hdef]
        exact .single (@Step.queue R x _ [] (held.map Transit.unfilled) (Transit.unfilled o) rfl rfl
          hmarket hphase hnot)
      · have hdef : c.releaseHeld instant o = Call.pushMd instant
            { c with engine := { c.engine with book := (c.engine.book.addOrder o).1 } }
            (c.engine.book.addOrder o).2 := by
          simp only [Call.releaseHeld, hlimit, reduceCtorEq, if_false]
        rw [hdef]
        exact Path.restInCall (t := Transit.unfilled o) hinv hphase hlimit rfl rfl hnot instant
    have hphase' : isCall (c.releaseHeld instant o).engine.phase = true := by
      have : (c.releaseHeld instant o).engine.phase = c.engine.phase := by
        unfold Call.releaseHeld
        simp only
        split <;> rfl
      rw [this]
      exact hphase
    exact hstep.trans (ih hphase' hheld' (hstep.inv hinv))

theorem releaseAll_safe (hinv : Inv x (idle false c)) (hphase : isCall c.engine.phase = true) (instant : Time) :
    Safe (c.releaseAll instant) fun c' => Leads x c c' := by
  have hheld : ∀ (id : String) (o : Order), c.engine.heldClose[id]? = some o → o.orderId = id ∧
      ((o.orderType = .market ∨ o.orderType = .limit) ∧ o.timeInForce = .atClose) ∧
      ∃ st, c.engine.states[id]? = some st := by
    intro id o ho
    obtain ⟨-, st, hst, hagrees, hholds, -⟩ := (hinv.tracked id).of_mem
      (Progress.mem_held.mpr ho)
    exact ⟨hagrees.orderId, hholds, st, hst⟩
  have hmap : (c.engine.iterations.heldClose.values c.engine.heldClose).mapM (fun o => do
      let state ← get c.engine.states[o.orderId]?
      .ok (state.arrival, o)) =
      .ok ((c.engine.iterations.heldClose.values c.engine.heldClose).map fun o =>
        (((c.engine.states[o.orderId]?).map OrderState.arrival).getD 0, o)) := by
    refine mapM_ok fun o ho => ?_
    obtain ⟨id, hid⟩ := Maps.Iteration.mem_values.mp ho
    obtain ⟨rfl, -, _, hst⟩ := hheld id o hid
    simp [hst]
  simp only [Call.releaseAll, hmap, ok_bind]
  obtain ⟨held, hdef⟩ : ∃ held : List Order,
      held = (((c.engine.iterations.heldClose.values c.engine.heldClose).map fun o =>
    (((c.engine.states[o.orderId]?).map OrderState.arrival).getD 0, o)).insertionSort fun a b => a.1 ≤ b.1).map (·.2) :=
    ⟨_, rfl⟩
  rw [← hdef]
  have hperm : held.Perm c.engine.heldClose.values := by
    rw [hdef]
    refine ((perm_insertionSort _ _).map _).trans ?_
    rw [map_map]
    exact (List.Perm.of_eq (map_id'' (fun _ => rfl) _)).trans
      (c.engine.iterations.heldClose.values_perm c.engine.heldClose)
  have hkeys : (held.map Order.orderId).Nodup := by
    rw [(hperm.map _).nodup_iff, Maps.map_values fun k v hk => (hheld k v hk).1]
    exact Maps.keys_nodup _
  have hrelease : Step x (idle false c)
      (moving (c.onEngine fun e => { e with heldClose := ∅ }) (held.map Transit.unfilled ++ [])) := by
    refine .release fun id => Maps.filter_eq_toList hkeys fun o => ?_
    rw [hperm.mem_iff, Maps.mem_values]
    constructor
    · rintro ⟨⟨k, hk⟩, rfl⟩
      have := (hheld k o hk).1
      subst this
      exact hk
    · intro ho
      exact ⟨⟨id, ho⟩, (hheld id o ho).1⟩
  rw [append_nil] at hrelease
  refine (Relation.ReflTransGen.single hrelease).trans (releaseHeld_path held instant hphase ?_ (hrelease.inv hinv))
  intro o ho
  obtain ⟨id, hid⟩ := Maps.mem_values.mp (hperm.mem_iff.mp ho)
  exact (hheld id o hid).2.1

/-- The path belongs to a tick, not to a request. -/
def Context.Ticking (x : Context R) : Prop := ∀ op, x.request = some op → op = .tick

theorem Context.Ticking.setsPhase (h : x.Ticking) (op : Op R) (hop : x.request = some op) : op.setsPhase = true := by
  rw [h op hop]
  rfl

theorem Context.Ticking.no_call (h : x.Ticking) (n : Nat) : x.request ≠ some (.beginOpeningCall n) :=
  fun hn => by cases h _ hn

theorem Step.enterCall (c : Call R) {phase} (h : isCall phase = true)
    (hreq : ∀ op, x.request = some op → op.setsPhase = true) (instant : Time) :
    Step x (idle false c) (idle false (c.setPhase phase instant)) := .setPhase (.inl h) rfl hreq

theorem setPhase_phase (c : Call R) (phase : TradingPhase) (instant : Time) :
    (c.setPhase phase instant).engine.phase = phase := by
  unfold Call.setPhase
  split
  · assumption
  · rfl

section

variable (hinv : Inv x (idle true c)) (hreq : x.Ticking)
include hinv hreq

/-- After an auction and the cancel of its remainders the session goes on in a phase without auction. -/
theorem auction_safe (tif : TimeInForce) (phase : TradingPhase) (instant : Time) : Safe (do
        let (c, price) ← c.runAuction instant
        let c ← c.cancelRemainders tif instant
        .ok (c.setPhase phase instant, price)) fun r => Path x (idle true c) (idle false r.1) := by
  refine (runAuction_safe hinv instant).bind ?_
  rintro ⟨_, _⟩ ⟨hpath₁, huncrossed⟩
  refine (cancelRemainders_safe (hpath₁.inv hinv) tif instant).bind ?_
  rintro c₂ ⟨hpath₂, ⟨_, hfin⟩, hcalls, -⟩
  have huncrossed' : c₂.engine.book.Uncrossed := fun p q hp hq => huncrossed p q (hfin.queue _ _ hp) (hfin.queue _ _ hq)
  have hphase : Step x (idle true c₂) (idle true (c₂.setPhase phase instant)) := .setPhase (.inr ⟨huncrossed', hcalls⟩)
    rfl hreq.setsPhase
  have hcalls' : ∀ id : String, (c₂.setPhase phase instant).engine.callMarkets[id]? = none := by
    intro id
    unfold Call.setPhase
    split <;> exact hcalls id
  exact ((hpath₁.trans hpath₂).tail hphase).tail (.endAuction hcalls')

private theorem openBoundary_safe (instant : Time) :
    Safe (c.sessionBoundary .open instant) fun c' => Path x (idle true c) (idle false c') := by
  have hauction := auction_safe hinv hreq .atOpen .continuous instant
  have hdef : c.sessionBoundary .open instant = (do
      let (c, price) ← c.runAuction instant
      let c ← c.cancelRemainders .atOpen instant
      .ok (c.setPhase .continuous instant, price)) >>= fun r => r.2.elim (.ok r.1) (r.1.openStops instant) := by
    simp only [Call.sessionBoundary, bind_assoc]
    refine bind_congr fun r => bind_congr fun c => ?_
    obtain ⟨_, _ | _⟩ := r <;> rfl
  rw [hdef]
  refine hauction.bind ?_
  rintro ⟨_, price⟩ hpath
  cases price with
  | none => exact hpath
  | some price => exact (openStops_safe (hpath.inv hinv) instant price).mono fun _ hopen => hpath.trans hopen

private theorem closeBoundary_safe (instant : Time) :
    Safe (c.sessionBoundary .close instant) fun c' => Path x (idle true c) (idle false c') := by
  have hauction := auction_safe hinv hreq .atClose .closed instant
  have hdef : c.sessionBoundary .close instant = (do
      let (c, price) ← c.runAuction instant
      let c ← c.cancelRemainders .atClose instant
      .ok (c.setPhase .closed instant, price)) >>= fun r => r.1.expire instant true := by
    simp only [Call.sessionBoundary, bind_assoc]
    rfl
  rw [hdef]
  refine hauction.bind ?_
  rintro ⟨_, _⟩ hpath
  exact (expire_safe (hpath.inv hinv) instant true).mono fun _ h => hpath.trans h.1

end

private theorem sessionBoundary_safe (hinv : Inv x (idle false c)) (hreq : x.Ticking)
    (hfull : c.engine.fullSchedule = true)
    (boundary : Boundary) (instant : Time) : Safe (c.sessionBoundary boundary instant) fun c' => Leads x c c' := by
  have hstart : Step x (idle false c) (idle true c) :=
    .startAuction (by simp [Engine.auctionsEnabled, idle, hfull]) (.inr rfl) hreq
  cases boundary with
  | openCall => exact .single (Step.enterCall c rfl hreq.setsPhase instant)
  | «open» => exact (openBoundary_safe (hstart.inv hinv) hreq instant).mono fun c' h => .head hstart h
  | closeCall =>
    have hphase := Step.enterCall c (show isCall .closingCall = true from rfl) hreq.setsPhase instant
    refine (releaseAll_safe (hphase.inv hinv) ?_ instant).mono fun c' h => .head hphase h
    rw [setPhase_phase]
    rfl
  | close => exact (closeBoundary_safe (hstart.inv hinv) hreq instant).mono fun c' h => .head hstart h

theorem nextDue_ahead {e : Engine R} {cursor : Time} {seconds : Int} {boundary : Option Boundary}
    (h : Call.nextDue e cursor = some (seconds, boundary)) :
    e.callUntil.map (·.seconds) = some seconds ∨ cursor < Time.ofSeconds seconds := by
  unfold Call.nextDue at h
  simp only [Option.map_eq_some_iff, Prod.mk.injEq] at h
  obtain ⟨_, hmin, rfl, -⟩ := h
  have hmem := (min?_eq_some_iff.mp hmin).1
  simp only [mem_append, Option.mem_toList] at hmem
  rcases hmem with (hsched | hexpiry) | huntil
  · right
    rw [Option.map_map, Option.map_eq_some_iff] at hsched
    obtain ⟨s, -, hs⟩ := hsched
    rw [← hs]
    exact .inl (s.lt_nextBoundary _)
  · right
    have hmem' := (min?_eq_some_iff.mp hexpiry).1
    obtain ⟨_, -, hst⟩ := mem_filterMap.mp hmem'
    split at hst
    · split at hst
      · rename_i hlt
        rw [Option.some.injEq] at hst
        rw [← hst]
        exact hlt
      · cases hst
    · cases hst
  · exact .inl huntil

/-- A bound on the rounds of the clock that are left. -/
def roundsLeft (now : Time) (s : Time × Call R) : Nat :=
  (now.seconds - s.1.seconds).toNat + (if s.1.nanos < 0 then 1 else 0) +
    s.2.engine.callUntil.elim 0 fun t => (now.seconds - t.seconds).toNat + 1

section

variable (hinv : Inv x (idle false c)) (hreq : x.Ticking)
include hinv hreq

/-- The boundary that is due is crossed; an operator's call ends at its own boundary only. -/
theorem dueBoundary_safe (operatorOpen full : Bool) (hopen : operatorOpen = true → c.engine.callUntil.isSome = true)
    (hfull : full = c.engine.fullSchedule) (boundary : Option Boundary) (instant : Time) :
    Safe (c.dueBoundary operatorOpen full boundary instant) fun c' => Leads x c c' ∧ (c'.engine.callUntil = none ∨
      (c'.engine.callUntil = c.engine.callUntil ∧ operatorOpen = false)) := by
  unfold Call.dueBoundary
  cases operatorOpen with
  | true =>
    have hstart : Step x (idle false c) (idle true { c with engine := { c.engine with callUntil := none } }) :=
      .startAuction (by simp [Engine.auctionsEnabled, idle, hopen rfl]) (.inl rfl) hreq
    refine (openBoundary_safe (hstart.inv hinv) hreq instant).mono fun c' hpath => ⟨.head hstart hpath, ?_⟩
    rcases (Path.frame hpath).callUntil hreq.no_call with h | h <;> exact .inl h
  | false =>
    have hkeep : ∀ c', Leads x c c' → Leads x c c' ∧ (c'.engine.callUntil = none ∨
        (c'.engine.callUntil = c.engine.callUntil ∧ false = false)) := by
      intro c' hpath
      refine ⟨hpath, ?_⟩
      rcases (Path.frame hpath).callUntil hreq.no_call with h | h
      · exact .inl h
      · exact .inr ⟨h, rfl⟩
    rw [if_neg Bool.false_ne_true]
    rcases boundary with _ | kind
    · exact hkeep c .refl
    show Safe (if full then _ else _) _
    by_cases hf : full = true
    · rw [if_pos hf]
      exact (sessionBoundary_safe hinv hreq (hfull ▸ hf) kind instant).mono hkeep
    · rw [if_neg hf]
      exact hkeep c .refl

theorem advanceRound_safe (instant : Time) (day : Bool) (seconds : Int) (boundary : Option Boundary) : Safe (do
        let c' ← c.expire instant day
        let c' ← c'.dueBoundary (c.engine.callUntil.map (·.seconds) = some seconds) c.engine.fullSchedule
          boundary instant
        c'.publishIndicative instant) fun c' => Leads x c c' ∧ (c'.engine.callUntil = none ∨
          (c'.engine.callUntil = c.engine.callUntil ∧ c.engine.callUntil.map (·.seconds) ≠ some seconds)) := by
  refine (expire_safe hinv instant day).bind ?_
  rintro c₁ ⟨hpath₁, ⟨_, hfin⟩, -⟩
  have huntil : c₁.engine.callUntil = c.engine.callUntil := by rw [hfin.engine]
  have hfull : c.engine.fullSchedule = c₁.engine.fullSchedule := by rw [hfin.engine]; rfl
  refine (dueBoundary_safe (hpath₁.inv hinv) hreq _ _ (fun hdue => ?_) hfull boundary instant).bind ?_
  · rw [huntil]
    cases hc : c.engine.callUntil with
    | none => simp [hc] at hdue
    | some => rfl
  rintro c₂ ⟨hpath₂, huntil₂⟩
  refine (publishIndicative_safe (hpath₂.inv (hpath₁.inv hinv)) instant).mono fun c₃ h =>
    ⟨(hpath₁.trans hpath₂).tail (.note h.1 fun _ => by rw [h.2]; rfl), ?_⟩
  have huntil₃ : c₃.engine.callUntil = c₂.engine.callUntil := by rw [h.2]
  rw [huntil₃]
  rcases huntil₂ with h | ⟨h, hnot⟩
  · exact .inl h
  · exact .inr ⟨h.trans huntil, of_decide_eq_false hnot⟩

theorem advanceStep_safe {cursor} (now : Time) :
    Safe (Call.advanceStep now (cursor, c)) fun r => ∀ s', r = some s' →
      Leads x c s'.2 ∧ roundsLeft now s' < roundsLeft now (cursor, c) := by
  have hnone : ∀ s', (none : Option (Time × Call R)) = some s' →
      Leads x c s'.2 ∧ roundsLeft now s' < roundsLeft now (cursor, c) := fun s' h => by cases h
  unfold Call.advanceStep
  simp only
  split
  · split
    · exact hnone
    rename_i seconds boundary hdue
    split
    · exact hnone
    rename_i hnow
    have hround := advanceRound_safe hinv hreq (Time.ofSeconds seconds)
      (!c.engine.fullSchedule && decide (boundary = some .close)) seconds boundary
    have hnext : Safe (_ >>= fun c' => .ok (some (Time.ofSeconds seconds, c'))) fun r => ∀ s', r = some s' →
        Leads x c s'.2 ∧ roundsLeft now s' < roundsLeft now (cursor, c) := hround.bind ?_
    · simp only [bind_assoc] at hnext
      exact hnext
    rintro _ ⟨hpath, huntil⟩ _ hs'
    rw [Option.some.injEq] at hs'
    subst hs'
    refine ⟨hpath, ?_⟩
    have hle : seconds ≤ now.seconds := by
      by_contra hlt
      exact hnow (.inl (by simpa [Time.ofSeconds] using hlt))
    simp only [roundsLeft, Time.ofSeconds, lt_irrefl, if_false]
    rcases nextDue_ahead hdue with hcall | hahead
    · rcases huntil with h | ⟨-, h⟩
      · obtain ⟨_, ht, _⟩ := Option.map_eq_some_iff.mp hcall
        rw [h, ht]
        simp only [Option.elim_none, Option.elim_some]
        omega
      · exact absurd hcall h
    · have hcursor : (now.seconds - seconds).toNat <
          (now.seconds - cursor.seconds).toNat + if cursor.nanos < 0 then 1 else 0 := by
        rcases hahead with h | ⟨h, h'⟩
        · simp only [Time.ofSeconds] at h
          split <;> omega
        simp only [Time.ofSeconds] at h h'
        rw [if_pos h', h]
        omega
      rcases huntil with h | ⟨h, -⟩
      · rw [h]
        simp only [Option.elim_none]
        omega
      · rw [h]
        omega
  · exact hnone

end

theorem roundsLeft_lt_advanceFuel (e : Engine R) (now : Time) :
    roundsLeft now (e.lastSeen, ({ engine := e } : Call R)) < Call.advanceFuel e now := by
  simp only [roundsLeft, Call.advanceFuel]
  cases e.callUntil with
  | none =>
    simp only [Option.elim_none]
    split <;> omega
  | some =>
    simp only [Option.elim_some]
    split <;> omega

theorem advance_safe {e} (hinv : Inv x (idle false { engine := e }))
    (hreq : x.request = none) (now : Time) :
    Safe (Call.advance now e) fun c' => Leads x { engine := e } c' ∧
      ∃ cursor c, c' = { c with engine := { c.engine with
          lastSeen := if c.engine.lastSeen < now then now else c.engine.lastSeen } } ∧
        Call.advanceStep now (cursor, c) = .ok none := by
  have hloop := Safe.runM (I := fun s : Time × Call R => Leads x { engine := e } s.2) (roundsLeft now)
    (fun s hs => (advanceStep_safe (hs.inv hinv) (fun _ hop => by rw [hreq] at hop; cases hop) now).mono
      fun _ h s' hs' =>
      ⟨hs.trans (h s' hs').1, (h s' hs').2⟩) (a := (e.lastSeen, { engine := e })) .refl
    (roundsLeft_lt_advanceFuel e now)
  refine hloop.bind ?_
  rintro ⟨cursor, c⟩ ⟨hpath, hdone⟩
  have hinv' := hpath.inv hinv
  exact ⟨.tail hpath (.note (hinv'.silent rfl rfl rfl) fun h => by rw [hreq] at h; cases h), cursor, c, rfl, hdone⟩

end Fxp

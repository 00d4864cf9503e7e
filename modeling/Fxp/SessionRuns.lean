import Fxp.Boundaries

/-!
# Sessions over whole runs

With a clock that does not go back, every boundary of the schedule is crossed once, and orders that are good for a day
or for one auction end with it.
-/

namespace Fxp

open Checked

variable {R : Type}

/-- The clock of the turn does not go back, and its tick reads a proper time. -/
def Turn.OnTime (t : Turn R) : Prop :=
  t.before.lastSeen ≤ t.clock .advance ∧ t.clock .advance ≤ t.clock .request ∧ 0 ≤ (t.clock .advance).nanos

instance : DecidablePred (Turn.OnTime (R := R)) := fun t =>
  inferInstanceAs (Decidable (t.before.lastSeen ≤ t.clock .advance ∧ t.clock .advance ≤ t.clock .request ∧
    0 ≤ (t.clock .advance).nanos))

/-- With a full schedule, an operator's call that starts in the turn does not end at a boundary. -/
def Turn.Spares (t : Turn R) : Prop :=
  ∀ seconds ∈ t.callEnd, ∀ s ∈ t.before.schedule, s.isFull = true → s.isBoundary seconds = false

instance : DecidablePred (Turn.Spares (R := R)) := fun t =>
  inferInstanceAs (Decidable (∀ seconds ∈ t.callEnd, ∀ s ∈ t.before.schedule,
    s.isFull = true → s.isBoundary seconds = false))

/-- The request of the turn brought the order `id` with the state `st`. -/
def Turn.Brought (t : Turn R) (id : String) (st : OrderState R) : Prop :=
  t.op.newId = some id ∧ st.arrival = t.ticked.engine.nextArrival + 1

section turns

variable {t : Turn R} {s : SessionSchedule}

theorem Turn.callEnd_begin {n : Nat} (hop : t.op = .beginOpeningCall n) (hpos : n ≠ 0) :
    t.callEnd = some ((t.clock .request).seconds + n) := by
  simp [Turn.callEnd, hop, hpos]

theorem Turn.OnTime.lt_callEnd (h : t.OnTime) {seconds : Int} (hend : seconds ∈ t.callEnd) :
    (t.clock .advance).seconds < seconds := by
  have hle : (t.clock .advance).seconds ≤ (t.clock .request).seconds := by
    rcases h.2.1 with hlt | heq
    · exact hlt.le
    · exact heq.1.le
  unfold Turn.callEnd at hend
  split at hend
  · split at hend
    · cases hend
    · cases hend
      omega
  all_goals cases hend

theorem Turn.OnTime.endsAhead (h : t.OnTime) : t.EndsAhead := by
  intro seconds hend
  rw [Engine.sees_eq h.1]
  exact (h.lt_callEnd hend).le

theorem Turn.Valid.schedule (h : t.Valid) (he : t.before.Sound) :
    t.ticked.engine.schedule = t.before.schedule ∧ t.done.engine.schedule = t.before.schedule := by
  obtain ⟨c₁, hticked⟩ := (tick_safe he (t.clock .advance)).of_ok h.tick
  have htick : t.ticked.engine.schedule = t.before.schedule := by
    rw [hticked.call, Call.rememberStatus, Engine.rememberStatus_market c₁.engine c₁.out]
    exact (Path.frame hticked.path).schedule
  exact ⟨htick, (handle_seen (h.ticked he).1 h.range h.handle).2.trans htick⟩

theorem Turn.Valid.advance (h : t.Valid) (he : t.before.Sound) :
    ∃ c₁, Call.advance (t.clock .advance) t.before = .ok c₁ ∧
      Leads (t.before.context none) { engine := t.before } c₁ ∧ t.ticked.engine.states = c₁.engine.states ∧
      t.ticked.engine.phase = c₁.engine.phase ∧ t.ticked.engine.callUntil = c₁.engine.callUntil := by
  obtain ⟨c₁, hticked⟩ := (tick_safe he (t.clock .advance)).of_ok h.tick
  refine ⟨c₁, hticked.done, hticked.path, ?_⟩
  rw [hticked.call, Call.rememberStatus, Engine.rememberStatus_market c₁.engine c₁.out]
  exact ⟨rfl, rfl, rfl⟩

/-- An order that is live after a turn was live before it, with the same terms and since its tick, or was brought by
its request. -/
theorem Turn.Valid.terms (h : t.Valid) (he : t.before.Sound) {id st}
    (hst : t.done.engine.states[id]? = some st) :
    (∃ st₀ st₁, t.before.states[id]? = some st₀ ∧ t.ticked.engine.states[id]? = some st₁ ∧ st.terms = st₁.terms ∧
      st₁.terms = st₀.terms) ∨
    (t.Brought id st ∧
      ∃ ty, entryReason t.ticked.engine.phase t.ticked.engine.auctionsEnabled ty st.timeInForce = none) := by
  have hsound := (h.ticked he).1
  obtain ⟨c₂, hpath, hanswered⟩ := (hsound.handle t.clock h.range).of_ok h.handle
  have hst₂ : (idle false c₂).call.engine.states[id]? = some st := by
    rw [← hst, hanswered.market.1]
    rfl
  rcases Path.terms hpath hst₂ with ⟨st₁, hst₁, hterms⟩ | hbrings
  · left
    obtain ⟨c₁, hticked⟩ := (tick_safe he (t.clock .advance)).of_ok h.tick
    have hst₁' : (idle false c₁).call.engine.states[id]? = some st₁ := by
      have : t.ticked.engine.states[id]? = some st₁ := hst₁
      rw [hticked.call, Call.rememberStatus, Engine.rememberStatus_market c₁.engine c₁.out] at this
      exact this
    obtain ⟨st₀, hst₀, hterms₀⟩ := Path.kept hticked.path (fun _ hop => by cases hop) hst₁'
    exact ⟨st₀, st₁, hst₀, hst₁, hterms, hterms₀⟩
  · exact .inr ⟨⟨hbrings.newId, hbrings.arrival⟩, hbrings.entry⟩

theorem SessionSchedule.Spared.turn (hspared : s.Spared t.before) (h : t.Valid) (he : t.before.Sound)
    (hschedule : t.before.schedule = some s) (ht : t.Spares) : s.Spared t.ticked.engine ∧ s.Spared t.done.engine := by
  obtain ⟨_, -, hpath, -, -, huntil⟩ := h.advance he
  have hreq : (t.before.context none).Ticking := fun _ hop => by cases hop
  have htick : s.Spared t.ticked.engine := by
    refine hspared.congr ?_
    rw [huntil]
    exact (Path.frame hpath).callUntil hreq.no_call
  refine ⟨htick, fun hfull u hu => ?_⟩
  rcases handle_session (h.ticked he).1 h.range h.handle with ⟨hsame, -⟩ | ⟨_, hop, hpos, -, hcall, -, -⟩
  · rw [hsame] at hu
    exact htick hfull u hu
  rw [hcall] at hu
  cases hu
  exact ht _ (Turn.callEnd_begin hop hpos) s hschedule hfull

end turns

/-- Every live order that ends with the close was brought after the last one. -/
def Dated (s : SessionSchedule) (turns : List (Turn R)) (e : Engine R) : Prop :=
  ∀ (id : String) (st : OrderState R), e.states[id]? = some st → s.Ends st.timeInForce →
    ∃ t ∈ turns, t.Brought id st ∧
      ∀ instant, s.At .close instant → instant ≤ e.lastSeen.seconds → instant ≤ (t.clock .advance).seconds

section dated

variable {t : Turn R} {s : SessionSchedule} {turns : List (Turn R)}

theorem Dated.turn (hdated : Dated s turns t.before) (h : t.Valid) (he : t.before.Sound) (hordered : s.ordered = true)
    (hschedule : t.before.schedule = some s) (hspared : s.Spared t.before) (htime : t.OnTime) :
    Dated s (turns ++ [t]) t.done.engine := by
  have hseen : t.done.engine.lastSeen = t.clock .advance := (h.ticked he).2.2.trans (Engine.sees_eq htime.1)
  intro id st hst hends
  rw [hseen]
  rcases h.terms he hst with ⟨st₀, st₁, hst₀, hst₁, hterms₁, hterms₀⟩ | ⟨hbrought, -⟩
  · have hends₁ : s.Ends st₁.timeInForce := by rwa [← OrderState.timeInForce_of_terms hterms₁]
    have hends₀ : s.Ends st₀.timeInForce := by rwa [← OrderState.timeInForce_of_terms hterms₀]
    obtain ⟨u, hu, hbrought, hlate⟩ := hdated id st₀ hst₀ hends₀
    have harrival : st.terms.arrival = st₀.terms.arrival := by rw [hterms₁, hterms₀]
    refine ⟨u, List.mem_append_left _ hu, ⟨hbrought.1, harrival.trans hbrought.2⟩, fun instant hat hle => ?_⟩
    by_cases hold : instant ≤ t.before.lastSeen.seconds
    · exact hlate instant hat hold
    -- the tick has passed this close, so the order would be gone
    obtain ⟨_, hadvance, -, hstates, -⟩ := h.advance he
    have hnow : Time.ofSeconds instant ≤ t.clock .advance := by
      rcases lt_or_eq_of_le hle with hlt | heq
      · exact .inl hlt
      · exact .inr ⟨heq, htime.2.2⟩
    have hlacks := tick_ends he hordered hschedule hspared hat (not_le.mp hold) hnow hends₁ hadvance
    rw [hstates] at hst₁
    exact absurd rfl (hlacks id st₁ hst₁)
  · exact ⟨t, List.mem_append_right _ (List.mem_singleton_self t), hbrought, fun instant _ hle => hle⟩

/-- What holds of a session on time after the turns of a run. -/
structure InSession (s : SessionSchedule) (start : Int) (turns : List (Turn R)) (e : Engine R) : Prop where
  schedule : e.schedule = some s
  spared : s.Spared e
  order : InOrder (turns.flatMap Turn.boundaries) e.lastSeen.seconds e
  complete : Complete s start (turns.flatMap Turn.boundaries) e.lastSeen.seconds
  dated : Dated s turns e

theorem InSession.turn {start : Int} (hkept : InSession s start turns t.before) (h : t.Valid) (he : t.before.Sound)
    (hordered : s.ordered = true) (htime : t.OnTime) (hspares : t.Spares) :
    InSession s start (turns ++ [t]) t.done.engine := by
  have hseen : t.done.engine.lastSeen = t.clock .advance := (h.ticked he).2.2.trans (Engine.sees_eq htime.1)
  obtain ⟨_, hadvance, -, -⟩ := h.advance he
  have hcomplete := hkept.complete.tick hkept.order he hordered hkept.schedule hkept.spared htime.1 htime.2.2 hadvance
  refine ⟨(h.schedule he).2.trans hkept.schedule, (hkept.spared.turn h he hkept.schedule hspares).2, ?_, ?_,
    hkept.dated.turn h he hordered hkept.schedule hkept.spared htime⟩
  · rw [List.flatMap_append, List.flatMap_singleton]
    exact hkept.order.turn he h htime.endsAhead
  · rw [List.flatMap_append, List.flatMap_singleton, hseen]
    exact hcomplete

theorem Trace.inSession {e₀ e} (h : Trace (fun t => t.OnTime ∧ t.Spares) e₀ turns e) (he : e₀.Sound)
    (hordered : s.ordered = true) (hschedule : e₀.schedule = some s) (huntil : e₀.callUntil = none)
    (hstates : ∀ id : String, e₀.states[id]? = none) : InSession s e₀.lastSeen.seconds turns e := by
  induction h with
  | nil =>
    refine ⟨hschedule, fun _ t ht => ?_, ⟨.nil, ?_, fun t ht => ?_⟩, ⟨?_, fun _ _ _ hlt hle => ?_, le_refl _⟩,
      fun id _ hst => ?_⟩
    · rw [huntil] at ht
      cases ht
    · exact fun _ h => absurd h List.not_mem_nil
    · rw [huntil] at ht
      cases ht
    · exact fun _ h => absurd h List.not_mem_nil
    · exact absurd hlt (not_lt.mpr hle)
    · rw [hstates id] at hst
      cases hst
  | turn hrun hvalid hok ih => exact ih.turn hvalid (hrun.sound he) hordered hok.1 hok.2

end dated

/-- In a run on time in which no operator's call ends at a boundary of a full schedule, live day orders were brought
after the last close, the containers hold live orders, and the boundaries after the start were crossed once each. -/
theorem day_orders_end {cfg : Settings} {s : SessionSchedule} (hschedule : cfg.schedule = some s)
    (hordered : s.ordered = true) {turns : List (Turn R)} {e : Engine R}
    (h : Trace (fun t => t.OnTime ∧ t.Spares) (Engine.new cfg) turns e) :
    (∀ (id : String), ∀ o ∈ e.containers id, ∃ st, e.states[id]? = some st ∧ o.timeInForce = st.timeInForce) ∧
    (∀ (id : String) (st : OrderState R), e.states[id]? = some st → st.timeInForce = .day →
      ∃ t ∈ turns, t.Brought id st ∧
        ∀ instant, s.At .close instant → instant ≤ e.lastSeen.seconds → instant ≤ (t.clock .advance).seconds) ∧
    ((turns.flatMap Turn.boundaries).map (·.1)).Pairwise (· < ·) ∧
    ∀ instant kind, (instant, kind) ∈ turns.flatMap Turn.boundaries ↔
      s.At kind instant ∧ cfg.now.seconds < instant ∧ instant ≤ e.lastSeen.seconds := by
  have hkept := h.inSession (.new ..) hordered hschedule rfl (fun id => by simp [Engine.new])
  refine ⟨fun _ _ => (h.sound (.new ..)).live_of_mem, fun id st hst hday => hkept.dated id st hst (.inl hday),
    hkept.order.increasing, fun instant kind => ?_⟩
  constructor
  · intro hmem
    obtain ⟨hat, hlt⟩ := hkept.complete.sound _ hmem
    exact ⟨hat, hlt, hkept.order.behind _ hmem⟩
  · rintro ⟨hat, hlt, hle⟩
    exact hkept.complete.complete kind instant hat hlt hle

def NewOrderSingle.during (timeInForce : Int32) (orderId : String) : NewOrderSingle :=
  { NewOrderSingle.sample orderId "t" .buy 100 10 with timeInForce := timeInForce }

/-- The order `A` of the first day is gone, and `B` was brought on the second. -/
theorem day_orders_end_second_day : ∃ turns e,
    Trace (fun t => t.OnTime ∧ t.Spares) (Engine.sample (some .sample)) turns e ∧ e.states["A"]? = none ∧
      ∃ st, e.states["B"]? = some st ∧ st.timeInForce = .day ∧ ∃ t ∈ turns, t.Brought "B" st ∧
        ∀ instant, SessionSchedule.sample.At .close instant → instant ≤ e.lastSeen.seconds →
          instant ≤ (t.clock .advance).seconds := by
  obtain ⟨turns, e, htrace, hA, hB⟩ := Trace.of_computed (fun t => t.OnTime ∧ t.Spares) (Engine.sample (some .sample))
    [(.at 250, .newOrder (.during 1 "A") 0), (.at 260, .beginOpeningCall 30), (.at 86700, .newOrder (.during 1 "B") 0)]
    (fun _ e => e.states["A"]? = none ∧ (e.states["B"]?).any (·.timeInForce = .day) = true) (by decide +kernel)
  obtain ⟨st, hst, hday⟩ := Option.any_eq_true _ _ |>.mp hB
  have hday := of_decide_eq_true hday
  exact ⟨turns, e, htrace, hA, st, hst, hday, (day_orders_end rfl (by decide) htrace).2.1 "B" st hst hday⟩

/-- An operator's call that ends at `400` takes the place of the close: the day order `A` of second `260` is still
live at `450`. -/
theorem day_order_survives : ∃ turns e,
    Trace (fun t => t.OnTime) (Engine.sample (some .sample)) turns e ∧
      (e.states["A"]?).any (·.timeInForce = .day) = true ∧
      (∀ t ∈ turns, t.op.newId = some "A" → (t.clock .advance).seconds = 260) ∧
      SessionSchedule.sample.At .close 400 ∧ e.lastSeen.seconds = 450 ∧
      turns.flatMap Turn.boundaries = [(100, .openCall), (200, .open), (300, .closeCall)] :=
  Trace.of_computed (fun t => t.OnTime) (Engine.sample (some .sample))
    [(.at 250, .beginOpeningCall 150), (.at 260, .newOrder (.during 1 "A") 0), (.at 450, .tick)] _
    (by decide +kernel)

/-- An operator's call that starts in the turn ends before the next boundary of a full schedule. -/
def Turn.EndsEarly (t : Turn R) : Prop :=
  ∀ seconds ∈ t.callEnd, ∃ s ∈ t.before.schedule,
    s.isFull = true ∧ seconds < (s.nextBoundary (t.clock .advance).seconds).1

instance : DecidablePred (Turn.EndsEarly (R := R)) := fun t =>
  inferInstanceAs (Decidable (∀ seconds ∈ t.callEnd, ∃ s ∈ t.before.schedule,
    s.isFull = true ∧ seconds < (s.nextBoundary (t.clock .advance).seconds).1))

/-- An operator's call ends before the next boundary, only a call under way is an opening call, and orders for the
opening are live in an opening call only. -/
structure Timely (s : SessionSchedule) (cursor : Int) (e : Engine R) : Prop where
  early : ∀ t ∈ e.callUntil, t.seconds < (s.nextBoundary cursor).1
  call : e.phase = .openingCall → e.callUntil.isSome = true ∨ s.phase cursor = .openingCall
  opening : e.phase ≠ .openingCall → e.Lacks .atOpen

private theorem entryReason_atOpen {phase} {full : Bool} {ty : OrderType}
    (h : entryReason phase full ty .atOpen = none) : phase = .openingCall := by
  by_contra hphase
  unfold entryReason at h
  split_ifs at h
  simp_all

private theorem entryReason_auction {phase} {full : Bool} {ty : OrderType} {tif}
    (h : entryReason phase full ty tif = none) (htif : tif = .atOpen ∨ tif = .atClose) : full = true := by
  by_contra hfull
  unfold entryReason at h
  split_ifs at h
  simp_all

section timely

variable {x : Context R} {s : SessionSchedule} {c c' : Call R} {e : Engine R} {now cursor : Time} {t : Turn R}
  {seconds : Int}

theorem Timely.cross (h : Timely s cursor.seconds c.engine) (hinv : Inv x (idle false c)) (hreq : x.Ticking)
    (hordered : s.ordered = true) (hfull : s.isFull = true) (hschedule : c.engine.schedule = some s) {kind}
    (hdue : Call.nextDue c.engine cursor = some (seconds, some kind))
    (hop : c.engine.callUntil.map (·.seconds) ≠ some seconds) (hround : c.round seconds (some kind) = .ok c') :
    Timely s seconds c'.engine := by
  obtain ⟨_, hs', hnext⟩ := due_boundary hdue
  cases hschedule.symm.trans hs'
  have hnone : c.engine.callUntil = none := by
    rcases hc : c.engine.callUntil with _ | t
    · rfl
    have hle := (mem_due hdue).2.2 t hc
    have hlt := h.early t hc
    rw [hnext] at hlt
    exact absurd hlt (not_lt.mpr hle)
  obtain ⟨hpath, huntil⟩ := round_safe hinv hreq hround
  have hnone' : c'.engine.callUntil = none := huntil.elim id fun h => h.1.trans hnone
  have hat : s.At kind seconds := by
    have hat := s.nextBoundary_at cursor.seconds
    rwa [hnext] at hat
  obtain ⟨hphase, hopen, -⟩ := round_boundary hinv hreq hround hop ((Engine.fullSchedule_eq hschedule).trans hfull)
  refine ⟨fun t ht => ?_, fun hcall => .inr ?_, fun hcall => ?_⟩
  · rw [hnone'] at ht
    cases ht
  · rw [hat.phase hordered hfull, ← hphase]
    exact hcall
  by_cases hkind : kind = .open
  · exact hopen hkind
  -- the call before this boundary was no opening call, or the opening would come next
  refine (h.opening fun hbefore => ?_).path hpath hreq
  rcases h.call hbefore with hsome | hscheduled
  · rw [hnone] at hsome
    cases hsome
  have := SessionSchedule.nextBoundary_of_openingCall hordered hfull hscheduled
  rw [hnext] at this
  exact hkind this

theorem Timely.move (h : Timely s cursor.seconds e) (hordered : s.ordered = true) (hfull : s.isFull = true)
    (hle : cursor.seconds ≤ seconds) (hlt : seconds < (s.nextBoundary cursor.seconds).1) : Timely s seconds e := by
  refine ⟨fun t ht => ?_, fun hcall => ?_, h.opening⟩
  · rw [SessionSchedule.nextBoundary_eq hordered hle hlt]
    exact h.early t ht
  · rw [SessionSchedule.phase_eq hordered hfull hle hlt]
    exact h.call hcall

theorem Timely.congr (h : Timely s seconds e) (hphase : c.engine.phase = e.phase)
    (huntil : c.engine.callUntil = e.callUntil) (hopen : e.Lacks .atOpen → c.engine.Lacks .atOpen) :
    Timely s seconds c.engine := by
  refine ⟨?_, ?_, ?_⟩
  · rw [huntil]
    exact h.early
  · rw [hphase, huntil]
    exact h.call
  · rw [hphase]
    exact fun hcall => hopen (h.opening hcall)

theorem Timely.round (h : Timely s cursor.seconds c.engine) (hinv : Inv x (idle false c)) (hreq : x.Ticking)
    (hordered : s.ordered = true) (hfull : s.isFull = true) (hschedule : c.engine.schedule = some s)
    {r} (hstep : Call.advanceStep now (cursor, c) = .ok (some r)) :
    Timely s r.1.seconds r.2.engine := by
  obtain ⟨seconds, boundary, hdue, -, -, hr, hround⟩ := advanceStep_some hstep
  rw [hr]
  show Timely s seconds r.2.engine
  by_cases hop : c.engine.callUntil.map (·.seconds) = some seconds
  · obtain ⟨hnone, hphase, hlacks⟩ := round_operator hinv hreq hround hop
    refine ⟨fun _ ht => ?_, fun hcall => ?_, fun _ => hlacks⟩
    · rw [hnone] at ht
      cases ht
    · rw [hphase] at hcall
      cases hcall
  · have hle : cursor.seconds ≤ seconds := by
      rcases (nextDue_ahead hdue).resolve_left hop with hlt | heq
      · exact hlt.le
      · exact heq.1.le
    cases boundary with
    | some => exact h.cross hinv hreq hordered hfull hschedule hdue hop hround
    | none =>
      obtain ⟨hphase, huntil⟩ := round_idle hinv hreq hround hop (.inr rfl)
      have hlt : seconds < (s.nextBoundary cursor.seconds).1 := by
        refine lt_of_le_of_ne ((mem_due hdue).2.1 s hschedule) fun heq => ?_
        have := (due_at hordered hschedule (s.nextBoundary_at cursor.seconds) hdue (s.lt_nextBoundary _) heq.ge).2
        cases this
      exact (h.move hordered hfull hle hlt).congr hphase huntil fun hlacks =>
        hlacks.path (round_safe hinv hreq hround).1 hreq

theorem Timely.tick (h : Timely s e.lastSeen.seconds e) (he : e.Sound) (hordered : s.ordered = true)
    (hfull : s.isFull = true) (hschedule : e.schedule = some s) (hseen : e.lastSeen ≤ now) (hnanos : 0 ≤ now.nanos)
    (hadvance : Call.advance now e = .ok c') : Timely s now.seconds c'.engine := by
  obtain ⟨cursor, c, hsame, ⟨htimely, hbehind⟩, hdone, rfl⟩ := advance_rounds
    (P := fun _ cursor c => Timely s cursor.seconds c.engine ∧ e.Behind now cursor) he ⟨h, .inl rfl⟩
    (fun _ cursor c _ hinv hsame hl hstep =>
      ⟨hl.1.round hinv e.ticking hordered hfull (hsame.trans hschedule) hstep, hl.2.round hstep⟩) hadvance
  have hle : cursor.seconds ≤ now.seconds := by
    have := hbehind.le_sees
    rwa [Engine.sees_eq hseen] at this
  have hlt : now.seconds < (s.nextBoundary cursor.seconds).1 := by
    by_contra hnot
    refine done_at (hsame.trans hschedule) (s.nextBoundary_at cursor.seconds) hdone (s.lt_nextBoundary _) ?_
    rcases lt_or_eq_of_le (not_lt.mp hnot) with hlt | heq
    · exact .inl hlt
    · exact .inr ⟨heq, hnanos⟩
  exact (htimely.move hordered hfull hle hlt).congr rfl rfl fun hlacks => hlacks

theorem Turn.EndsEarly.spares (h : t.EndsEarly) (htime : t.OnTime) : t.Spares := by
  intro seconds hend s hs hfull
  obtain ⟨_, hs', -, hlt⟩ := h seconds hend
  cases (Option.mem_def.mp hs).symm.trans hs'
  by_contra hboundary
  obtain ⟨_, hat⟩ := SessionSchedule.exists_at (by simpa using hboundary)
  exact absurd (SessionSchedule.nextBoundary_le hat (htime.lt_callEnd hend)) (not_le.mpr hlt)

/-- The orders that a turn leaves are those that its tick left and the one that it brought. -/
theorem Turn.Valid.lacks (h : t.Valid) (he : t.before.Sound) {tif} (htick : t.ticked.engine.Lacks tif)
    (hnew : ∀ ty, entryReason t.ticked.engine.phase t.ticked.engine.auctionsEnabled ty tif ≠ none) :
    t.done.engine.Lacks tif := by
  intro id st hst heq
  rcases h.terms he hst with ⟨_, st₁, -, hst₁, hterms, -⟩ | ⟨-, ty, hentry⟩
  · exact htick id st₁ hst₁ ((OrderState.timeInForce_of_terms hterms).symm.trans heq)
  · rw [heq] at hentry
    exact hnew ty hentry

theorem Timely.turn (hbefore : Timely s t.before.lastSeen.seconds t.before) (h : t.Valid) (he : t.before.Sound)
    (hordered : s.ordered = true) (hfull : s.isFull = true) (hschedule : t.before.schedule = some s) (htime : t.OnTime)
    (hearly : t.EndsEarly) : Timely s t.done.engine.lastSeen.seconds t.done.engine := by
  have hsound := (h.ticked he).1
  rw [(h.ticked he).2.2.trans (Engine.sees_eq htime.1)]
  obtain ⟨_, hadvance, -, hstates, hphase₁, huntil₁⟩ := h.advance he
  have htick : Timely s (t.clock .advance).seconds t.ticked.engine := by
    refine (hbefore.tick he hordered hfull hschedule htime.1 htime.2.2 hadvance).congr hphase₁ huntil₁ fun hlacks => ?_
    intro id st hst
    rw [hstates] at hst
    exact hlacks id st hst
  rcases handle_session hsound h.range h.handle with ⟨huntil, hphase⟩ | ⟨_, hop, hpos, -, hcall, hphase, -⟩
  · refine ⟨?_, ?_, fun hnot => ?_⟩
    · rw [huntil]
      exact htick.early
    · rw [hphase, huntil]
      exact htick.call
    · rw [hphase] at hnot
      exact h.lacks he (htick.opening hnot) fun _ hentry => hnot (entryReason_atOpen hentry)
  · refine ⟨fun _ hu => ?_, fun _ => .inl ?_, fun hnot => absurd hphase hnot⟩
    · rw [hcall] at hu
      cases hu
      obtain ⟨_, hs', -, hlt⟩ := hearly _ (Turn.callEnd_begin hop hpos)
      cases hschedule.symm.trans hs'
      exact hlt
    · rw [hcall]
      rfl

/-- Without a full schedule, the operator starts no call and nobody enters an order for an auction. -/
structure Calm (e : Engine R) : Prop where
  schedule : e.fullSchedule = false
  callUntil : e.callUntil = none
  opening : e.Lacks .atOpen
  closing : e.Lacks .atClose

theorem Calm.turn (hbefore : Calm t.before) (h : t.Valid) (he : t.before.Sound) (hearly : t.EndsEarly) :
    Calm t.done.engine := by
  have hsound := (h.ticked he).1
  obtain ⟨_, -, hpath, hstates, -, huntil₁⟩ := h.advance he
  have hreq : (t.before.context none).Ticking := fun _ hop => by cases hop
  have hnone : t.ticked.engine.callUntil = none := by
    rw [huntil₁]
    exact ((Path.frame hpath).callUntil hreq.no_call).elim id fun h => h.trans hbefore.callUntil
  have hkeep : ∀ {tif}, t.before.Lacks tif → t.ticked.engine.Lacks tif := by
    intro tif hlacks id st hst
    rw [hstates] at hst
    exact hlacks.path (c := { engine := t.before }) hpath hreq id st hst
  have hschedule : t.ticked.engine.fullSchedule = false ∧ t.done.engine.fullSchedule = false := by
    simp only [Engine.fullSchedule, (h.schedule he).1, (h.schedule he).2]
    exact ⟨hbefore.schedule, hbefore.schedule⟩
  have hnew : ∀ {tif}, tif = .atOpen ∨ tif = .atClose → ∀ ty,
      entryReason t.ticked.engine.phase t.ticked.engine.auctionsEnabled ty tif ≠ none := by
    intro tif htif ty hentry
    have := entryReason_auction hentry htif
    simp [Engine.auctionsEnabled, hnone, hschedule.1] at this
  refine ⟨hschedule.2, ?_, h.lacks he (hkeep hbefore.opening) (hnew (.inl rfl)),
    h.lacks he (hkeep hbefore.closing) (hnew (.inr rfl))⟩
  rcases handle_session hsound h.range h.handle with ⟨huntil, -⟩ | ⟨_, hop, hpos, -⟩
  · exact huntil.trans hnone
  obtain ⟨_, hs', hfull, -⟩ := hearly _ (Turn.callEnd_begin hop hpos)
  have := hbefore.schedule
  rw [Engine.fullSchedule_eq hs', hfull] at this
  cases this

end timely

section runs

variable {s : SessionSchedule} {turns : List (Turn R)} {e₀ e : Engine R}

theorem Trace.mono {ok ok' : Turn R → Prop} (hok : ∀ t, ok t → ok' t) (h : Trace ok e₀ turns e) :
    Trace ok' e₀ turns e := by
  induction h with
  | nil => exact .nil
  | turn _ hvalid ht ih => exact .turn ih hvalid (hok _ ht)

theorem Trace.calm (h : Trace (fun t => t.OnTime ∧ t.EndsEarly) e₀ turns e) (he : e₀.Sound) (hcalm : Calm e₀) :
    Calm e := by
  induction h with
  | nil => exact hcalm
  | turn hrun hvalid hok ih => exact ih.turn hvalid (hrun.sound he) hok.2

theorem Trace.timely (h : Trace (fun t => t.OnTime ∧ t.EndsEarly) e₀ turns e) (he : e₀.Sound)
    (hordered : s.ordered = true) (hfull : s.isFull = true) (hschedule : e₀.schedule = some s)
    (htimely : Timely s e₀.lastSeen.seconds e₀) : e.schedule = some s ∧ Timely s e.lastSeen.seconds e := by
  induction h with
  | nil => exact ⟨hschedule, htimely⟩
  | turn hrun hvalid hok ih =>
    have hsound := hrun.sound he
    exact ⟨(hvalid.schedule hsound).2.trans ih.1, ih.2.turn hvalid hsound hordered hfull ih.1 hok.1 hok.2⟩

end runs

/-- In a run on time, if operators' calls start only with a full schedule and end before its next boundary, orders for
the opening are live in an opening call only, and orders for the close were brought after the last close. -/
theorem auction_orders_end {cfg : Settings} {turns : List (Turn R)} {e : Engine R}
    (hordered : ∀ s ∈ cfg.schedule, s.ordered = true)
    (h : Trace (fun t => t.OnTime ∧ t.EndsEarly) (Engine.new cfg) turns e) (id : String) :
    (∀ o ∈ e.containers id, ∃ st, e.states[id]? = some st ∧ o.timeInForce = st.timeInForce) ∧
    ∀ st, e.states[id]? = some st → (st.timeInForce = .atOpen → e.phase = .openingCall) ∧
      (st.timeInForce = .atClose → ∃ s ∈ cfg.schedule, s.isFull = true ∧ ∃ t ∈ turns, t.Brought id st ∧
        ∀ instant, s.At .close instant → instant ≤ e.lastSeen.seconds → instant ≤ (t.clock .advance).seconds) := by
  refine ⟨fun _ => (h.sound (.new ..)).live_of_mem, fun st hst => ?_⟩
  have hempty : ∀ tif, (Engine.new cfg : Engine R).Lacks tif :=
    fun tif id st hst => by simp [Engine.new] at hst
  by_cases hfull : ∃ s ∈ cfg.schedule, s.isFull = true
  · obtain ⟨s, hschedule, hfull⟩ := hfull
    have hs := hordered s hschedule
    replace hschedule : cfg.schedule = some s := hschedule
    have hphase : (Engine.new cfg : Engine R).phase = s.phase cfg.now.seconds := by simp [Engine.new, hschedule]
    obtain ⟨-, htimely⟩ := h.timely (.new ..) hs hfull hschedule
      ⟨(fun t ht => by cases ht), (fun hcall => .inr (hphase.symm.trans hcall)),
        fun _ => hempty .atOpen⟩
    refine ⟨fun hopen => ?_, fun hclose => ⟨s, hschedule, hfull, ?_⟩⟩
    · by_contra hphase
      exact htimely.opening hphase id st hst hopen
    have hkept := (h.mono fun t ht => ⟨ht.1, ht.2.spares ht.1⟩).inSession (.new ..) hs hschedule rfl
      (fun id => by simp [Engine.new])
    exact hkept.dated id st hst (.inr ⟨hfull, hclose⟩)
  · have hcalm := h.calm (.new ..) ⟨?_, rfl, hempty .atOpen, hempty .atClose⟩
    · exact ⟨fun hopen => absurd hopen (hcalm.opening id st hst), fun hclose => absurd hclose (hcalm.closing id st hst)⟩
    cases hschedule : cfg.schedule with
    | none => simp [Engine.fullSchedule, Engine.new, hschedule]
    | some => simpa [Engine.fullSchedule, Engine.new, hschedule] using hfull

/-- In an operator's call before the closing call, `A` waits for the opening and `B` for the close. -/
theorem auction_orders_end_waiting : ∃ turns e,
    Trace (fun t => t.OnTime ∧ t.EndsEarly) (Engine.sample (some .sample)) turns e ∧
      (∃ st, e.states["A"]? = some st ∧ st.timeInForce = .atOpen ∧ e.phase = .openingCall) ∧
      ∃ st, e.states["B"]? = some st ∧ st.timeInForce = .atClose ∧ ∃ t ∈ turns, t.Brought "B" st := by
  obtain ⟨turns, e, htrace, hA, hB⟩ :=
    Trace.of_computed (fun t => t.OnTime ∧ t.EndsEarly) (Engine.sample (some .sample))
    [(.at 250, .beginOpeningCall 30), (.at 260, .newOrder (.during 5 "A") 0), (.at 270, .newOrder (.during 6 "B") 0)]
    (fun _ e => (e.states["A"]?).any (·.timeInForce = .atOpen) = true ∧
      (e.states["B"]?).any (·.timeInForce = .atClose) = true) (by decide +kernel)
  obtain ⟨st, hst, hopen⟩ := Option.any_eq_true _ _ |>.mp hA
  obtain ⟨st', hst', hclose⟩ := Option.any_eq_true _ _ |>.mp hB
  have hopen := of_decide_eq_true hopen
  have hclose := of_decide_eq_true hclose
  have hordered : ∀ s ∈ (Settings.sample (some .sample)).schedule, s.ordered = true := by
    intro s hs
    cases hs
    decide
  obtain ⟨_, -, -, t, ht, hbrought, -⟩ := ((auction_orders_end hordered htrace "B").2 st' hst').2 hclose
  exact ⟨turns, e, htrace, ⟨st, hst, hopen, ((auction_orders_end hordered htrace "A").2 st hst).1 hopen⟩,
    st', hst', hclose, t, ht, hbrought⟩

/-- Orders that outlive their auction: an operator's call lasts into the closing call, another one takes the place of
the close, and without a schedule nothing ends an order for the close. -/
theorem auction_orders_outlive :
    (∃ turns e, Trace (fun t => t.OnTime) (Engine.sample (some .sample)) turns e ∧
      (e.states["A"]?).any (·.timeInForce = .atOpen) = true ∧ e.phase = .closingCall) ∧
    (∃ turns e, Trace (fun t => t.OnTime) (Engine.sample (some .sample)) turns e ∧
      (e.states["A"]?).any (·.timeInForce = .atClose) = true ∧
      (∀ t ∈ turns, t.op.newId = some "A" → (t.clock .advance).seconds = 260) ∧
      SessionSchedule.sample.At .close 400 ∧ e.lastSeen.seconds = 450) ∧
    ∃ turns e, Trace (fun t => t.OnTime) (Engine.sample none) turns e ∧
      (e.states["A"]?).any (·.timeInForce = .atClose) = true ∧ e.callUntil = none := by
  refine ⟨?_, ?_, ?_⟩
  · exact Trace.of_computed (fun t => t.OnTime) (Engine.sample (some .sample))
      [(.at 250, .beginOpeningCall 100), (.at 260, .newOrder (.during 5 "A") 0), (.at 310, .tick)] _ (by decide +kernel)
  · exact Trace.of_computed (fun t => t.OnTime) (Engine.sample (some .sample))
      [(.at 250, .beginOpeningCall 150), (.at 260, .newOrder (.during 6 "A") 0), (.at 450, .tick)] _ (by decide +kernel)
  · exact Trace.of_computed (fun t => t.OnTime) (Engine.sample none)
      [(.at 10, .beginOpeningCall 100), (.at 20, .newOrder (.during 6 "A") 0), (.at 200, .tick)] _ (by decide +kernel)

end Fxp

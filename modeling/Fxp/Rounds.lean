import Fxp.Status

/-!
# The rounds of the clock

`advance` walks from the high-water mark `lastSeen` to the clock, one round for each instant at which something is
due.
-/

namespace Fxp

open Checked List Option

variable {R : Type}

section due

variable {e : Engine R} {cursor : Time} {seconds : Int} {boundary : Option Boundary}

theorem mem_due (h : Call.nextDue e cursor = some (seconds, boundary)) :
    boundary = ((e.schedule.map (·.nextBoundary cursor.seconds)).filter (·.1 = seconds)).map (·.2) ∧
      (∀ s ∈ e.schedule, seconds ≤ (s.nextBoundary cursor.seconds).1) ∧ ∀ t ∈ e.callUntil, seconds ≤ t.seconds := by
  unfold Call.nextDue at h
  simp only [map_eq_some_iff, Prod.mk.injEq] at h
  obtain ⟨_, hmin, rfl, hboundary⟩ := h
  have hle := (min?_eq_some_iff.mp hmin).2
  refine ⟨hboundary.symm, fun s hs => hle _ ?_, fun t ht => hle _ ?_⟩
  · simp [mem_def.mp hs]
  · simp [mem_def.mp ht]

private theorem exists_due {t} (h : e.callUntil = some t) (cursor : Time) : ∃ d, Call.nextDue e cursor = some d := by
  unfold Call.nextDue
  simp only [h, map_some, toList_some]
  exact ⟨_, by rw [min?_eq_some_min (by simp)]; rfl⟩

theorem due_boundary {kind} (h : Call.nextDue e cursor = some (seconds, some kind)) :
    ∃ s, e.schedule = some s ∧ s.nextBoundary cursor.seconds = (seconds, kind) := by
  obtain ⟨hboundary, -, -⟩ := mem_due h
  obtain ⟨_, hb, rfl⟩ := map_eq_some_iff.mp hboundary.symm
  obtain ⟨hb, heq⟩ := filter_eq_some_iff.mp hb
  obtain ⟨s, hs, rfl⟩ := map_eq_some_iff.mp hb
  exact ⟨s, hs, Prod.ext (by simpa using heq) rfl⟩

end due

/-- What a round does: orders expire, and the boundary is crossed. -/
def Call.round (seconds : Int) (boundary : Option Boundary) (c : Call R) : Except Panic (Call R) := do
  let c' ← c.expire (.ofSeconds seconds) (!c.engine.fullSchedule && boundary = some .close)
  let c' ← c'.dueBoundary (c.engine.callUntil.map (·.seconds) = some seconds) c.engine.fullSchedule boundary
    (.ofSeconds seconds)
  c'.publishIndicative (.ofSeconds seconds)

theorem advanceStep_some {now cursor : Time} {c : Call R} {s : Time × Call R}
    (h : Call.advanceStep now (cursor, c) = .ok (some s)) :
    ∃ (seconds : Int) (boundary : Option Boundary), Call.nextDue c.engine cursor = some (seconds, boundary) ∧
      cursor < now ∧ ¬ now < Time.ofSeconds seconds ∧ s.1 = Time.ofSeconds seconds ∧
      c.round seconds boundary = .ok s.2 := by
  unfold Call.advanceStep at h
  simp only at h
  split at h
  · rename_i hcursor
    split at h
    · cases h
    rename_i seconds boundary hdue
    split at h
    · cases h
    rename_i hnow
    obtain ⟨_, hexpire, h⟩ := bind_eq_ok.mp h
    obtain ⟨_, hcross, h⟩ := bind_eq_ok.mp h
    obtain ⟨_, hpublish, h⟩ := bind_eq_ok.mp h
    cases h
    refine ⟨seconds, boundary, hdue, hcursor, hnow, rfl, ?_⟩
    rw [Call.round, hexpire, ok_bind, hcross, ok_bind, hpublish]
  · cases h

theorem advanceStep_none {now cursor : Time} {c : Call R} (h : Call.advanceStep now (cursor, c) = .ok none) :
    ¬ cursor < now ∨ ∀ d ∈ Call.nextDue c.engine cursor, now < Time.ofSeconds d.1 := by
  unfold Call.advanceStep at h
  simp only at h
  split at h
  · right
    split at h
    · rename_i hnone
      rw [hnone]
      exact fun _ h => absurd h (by simp)
    rename_i seconds boundary hdue
    split at h
    · rename_i hnow
      rw [hdue]
      intro d hd
      cases hd
      exact hnow
    · obtain ⟨_, -, h⟩ := bind_eq_ok.mp h
      obtain ⟨_, -, h⟩ := bind_eq_ok.mp h
      obtain ⟨_, -, h⟩ := bind_eq_ok.mp h
      cases h
  · exact .inl ‹_›

/-- Where the rounds of a tick begin: the cursor and what the tick has done before. -/
def Call.rounds (now : Time) (e : Engine R) : List (Time × Call R) :=
  Loop.visitedM (Call.advanceStep now) (Call.advanceFuel e now) (e.lastSeen, { engine := e })

/-- The scheduled boundary that a round crosses: with a full schedule, the end of an operator's call takes its place.
-/
def Call.crossed (s : Time × Call R) : Option (Int × Boundary) :=
  match Call.nextDue s.2.engine s.1 with
  | some (seconds, some kind) =>
    if s.2.engine.fullSchedule = true ∧ s.2.engine.callUntil.map (·.seconds) = some seconds then none
    else some (seconds, kind)
  | some (_, none) | none => none

/-- The high-water mark after a tick. -/
def Engine.sees (e : Engine R) (now : Time) : Time := if e.lastSeen < now then now else e.lastSeen

section tick

variable {e : Engine R} {now : Time} {c' : Call R}

theorem Engine.ticking (e : Engine R) : (e.context (some .tick)).Ticking := by
  intro op h
  cases h
  rfl

/-- The invariant rule for the rounds of a tick. -/
theorem advance_rounds {P : List (Time × Call R) → Time → Call R → Prop} (he : e.Sound)
    (hstart : P [] e.lastSeen { engine := e })
    (hround : ∀ l cursor c s, Inv (e.context (some .tick)) (idle false c) → c.engine.schedule = e.schedule →
      P l cursor c →
      Call.advanceStep now (cursor, c) = .ok (some s) → P (l ++ [(cursor, c)]) s.1 s.2)
    (h : Call.advance now e = .ok c') :
    ∃ cursor c, c.engine.schedule = e.schedule ∧ P (Call.rounds now e) cursor c ∧
      Call.advanceStep now (cursor, c) = .ok none ∧
      c' = { c with engine := { c.engine with lastSeen := e.sees now } } := by
  have hinv := he.inv (some .tick) []
  obtain ⟨⟨cursor, c⟩, hrun, h⟩ := bind_eq_ok.mp h
  have hsafe := Safe.runM (I := fun s : Time × Call R => Leads (e.context (some .tick)) { engine := e } s.2)
    (roundsLeft now) (fun s hs => (advanceStep_safe (hs.inv hinv) e.ticking now).mono fun _ h s' hs' =>
      ⟨hs.trans (h s' hs').1, (h s' hs').2⟩) (a := (e.lastSeen, { engine := e })) .refl
        (roundsLeft_lt_advanceFuel e now)
  obtain ⟨hpath, hdone⟩ := hsafe.of_ok hrun
  have hvisited := Loop.runM_visited
    (P := fun l s => Leads (e.context (some .tick)) { engine := e } s.2 ∧ P l s.1 s.2) (l := [])
    (fun l s s' hs hstep => by
      have hsame := (Path.frame hs.1).schedule
      exact ⟨hs.1.trans (((advanceStep_safe (hs.1.inv hinv) e.ticking now).of_ok hstep) s' rfl).1,
        hround l s.1 s.2 s' (hs.1.inv hinv) hsame hs.2 hstep⟩)
    ⟨.refl, hstart⟩ hrun
  have hseen : c.engine.lastSeen = e.lastSeen := (Path.frame hpath).lastSeen rfl
  refine ⟨cursor, c, (Path.frame hpath).schedule, hvisited.2, hdone, ?_⟩
  cases h
  rw [hseen]
  rfl

theorem Ticked.sees {c₁ c} (h : Ticked now e c₁ c) (he : e.Sound) : c.engine.lastSeen = e.sees now := by
  obtain ⟨_, _, -, -, -, hc₁⟩ := advance_rounds (P := fun _ _ _ => True) he trivial
    (fun _ _ _ _ _ _ _ _ => trivial) h.done
  have hmarket := Engine.rememberStatus_market c₁.engine c₁.out
  rw [h.call, Call.rememberStatus, hmarket, hc₁]

end tick

/-- The scheduled boundaries that the tick of a turn crosses. -/
def Turn.boundaries (t : Turn R) : List (Int × Boundary) :=
  (Call.rounds (t.clock .advance) t.before).filterMap Call.crossed

/-- The second at which the call would end that the operator starts in the turn. -/
def Turn.callEnd (t : Turn R) : Option Int :=
  match t.op with
  | .beginOpeningCall seconds => if seconds = 0 then none else some ((t.clock .request).seconds + seconds)
  | .newOrder .. | .cancel _ | .cancelReplace _ | .massCancel _ | .subscribe _ | .tick => none

/-- An operator's call that starts in the turn does not end before the high-water mark. -/
def Turn.EndsAhead (t : Turn R) : Prop := ∀ s ∈ t.callEnd, (t.before.sees (t.clock .advance)).seconds ≤ s

instance : DecidablePred (Turn.EndsAhead (R := R)) := fun t =>
  inferInstanceAs (Decidable (∀ s ∈ t.callEnd, (t.before.sees (t.clock .advance)).seconds ≤ s))

/-- The boundaries of `log` were crossed in order and lie behind the cursor; an operator's call ends ahead of it. -/
structure InOrder (log : List (Int × Boundary)) (cursor : Int) (e : Engine R) : Prop where
  increasing : (log.map (·.1)).Pairwise (· < ·)
  behind : ∀ b ∈ log, b.1 ≤ cursor
  ahead : ∀ t ∈ e.callUntil, cursor ≤ t.seconds

section order

variable {x : Context R} {log : List (Int × Boundary)} {now cursor : Time} {e : Engine R} {c c' : Call R}
  {seconds : Int} {boundary : Option Boundary}

theorem InOrder.move (h : InOrder log cursor.seconds e) {until' : Int} (hle : cursor.seconds ≤ until')
    (hahead : ∀ t ∈ c.engine.callUntil, until' ≤ t.seconds) : InOrder log until' c.engine :=
  ⟨h.increasing, fun b hb => (h.behind b hb).trans hle, hahead⟩

theorem InOrder.push (h : InOrder log cursor.seconds e) {b} (hlt : cursor.seconds < b.1)
    (hahead : ∀ t ∈ c.engine.callUntil, b.1 ≤ t.seconds) : InOrder (log ++ [b]) b.1 c.engine := by
  refine ⟨?_, fun b' hb' => ?_, hahead⟩
  · rw [map_append, pairwise_append]
    refine ⟨h.increasing, pairwise_singleton _ _, fun _ hi _ hj => ?_⟩
    obtain ⟨b', hb', rfl⟩ := mem_map.mp hi
    rw [mem_singleton.mp hj]
    exact (h.behind b' hb').trans_lt hlt
  · rcases mem_append.mp hb' with hb' | hb'
    · exact (h.behind b' hb').trans hlt.le
    · rw [mem_singleton.mp hb']

theorem round_safe (hinv : Inv x (idle false c)) (hreq : x.Ticking)
    (h : c.round seconds boundary = .ok c') : Leads x c c' ∧ (c'.engine.callUntil = none ∨
      (c'.engine.callUntil = c.engine.callUntil ∧ c.engine.callUntil.map (·.seconds) ≠ some seconds)) :=
  (advanceRound_safe hinv hreq (.ofSeconds seconds) _ seconds boundary).of_ok h

theorem crossed_some {b} (hdue : Call.nextDue c.engine cursor = some (seconds, boundary))
    (h : Call.crossed (cursor, c) = some b) : b.1 = seconds ∧ cursor.seconds < b.1 := by
  simp only [Call.crossed, hdue] at h
  rcases boundary with _ | _
  · cases h
  simp only at h
  split at h
  · cases h
  cases h
  obtain ⟨s, -, hs⟩ := due_boundary hdue
  have hlt := s.lt_nextBoundary cursor.seconds
  rw [hs] at hlt
  exact ⟨rfl, hlt⟩

theorem InOrder.le_due (h : InOrder log cursor.seconds c.engine)
    (hdue : Call.nextDue c.engine cursor = some (seconds, boundary)) : cursor.seconds ≤ seconds := by
  rcases nextDue_ahead hdue with hcall | hahead
  · obtain ⟨t, ht, hts⟩ := map_eq_some_iff.mp hcall
    rw [← hts]
    exact h.ahead t ht
  · rcases hahead with hlt | heq
    · exact hlt.le
    · exact heq.1.le

theorem InOrder.round (h : InOrder log cursor.seconds c.engine) {s : Time × Call R} (hinv : Inv x (idle false c))
    (hreq : x.Ticking) (hstep : Call.advanceStep now (cursor, c) = .ok (some s)) :
    InOrder (log ++ (Call.crossed (cursor, c)).toList) s.1.seconds s.2.engine := by
  obtain ⟨seconds, _, hdue, -, -, hs, hround⟩ := advanceStep_some hstep
  obtain ⟨-, -, huntil⟩ := mem_due hdue
  have hle := h.le_due hdue
  -- a call that has not ended yet ends ahead of the new cursor
  have hahead : ∀ t ∈ s.2.engine.callUntil, seconds ≤ t.seconds := by
    intro t ht
    rcases (round_safe hinv hreq hround).2 with hnone | ⟨hsame, -⟩
    · rw [hnone] at ht
      cases ht
    · rw [hsame] at ht
      exact huntil t ht
  rw [hs]
  cases hcrossed : Call.crossed (cursor, c) with
  | none =>
    rw [toList_none, append_nil]
    exact h.move hle hahead
  | some =>
    obtain ⟨rfl, hlt⟩ := crossed_some hdue hcrossed
    exact h.push hlt hahead

/-- The tick has moved the cursor up to the clock. -/
def Engine.Behind (e : Engine R) (now cursor : Time) : Prop := cursor = e.lastSeen ∨ (e.lastSeen < now ∧ ¬ now < cursor)

theorem Engine.Behind.round (h : e.Behind now cursor) {s : Time × Call R}
    (hstep : Call.advanceStep now (cursor, c) = .ok (some s)) : e.Behind now s.1 := by
  obtain ⟨_, _, -, hcursor, hnow, hs, -⟩ := advanceStep_some hstep
  rw [hs]
  rcases h with rfl | h
  · exact .inr ⟨hcursor, hnow⟩
  · exact .inr ⟨h.1, hnow⟩

theorem Engine.Behind.le_sees (h : e.Behind now cursor) : cursor.seconds ≤ (e.sees now).seconds := by
  unfold Engine.sees
  rcases h with rfl | ⟨hlt, hnot⟩
  · split
    · rename_i hlt
      rcases hlt with hlt | heq
      · exact hlt.le
      · exact heq.1.le
    · exact le_refl _
  · rw [if_pos hlt]
    by_contra hgt
    exact hnot (.inl (not_le.mp hgt))

/-- At the end of a tick, an operator's call that still runs ends ahead of the new mark. -/
theorem Engine.Behind.sees_le (h : e.Behind now cursor) (hdone : Call.advanceStep now (cursor, c) = .ok none) {t : Time}
    (ht : c.engine.callUntil = some t) (hahead : cursor.seconds ≤ t.seconds) : (e.sees now).seconds ≤ t.seconds := by
  unfold Engine.sees
  split
  · rename_i hlt
    rcases advanceStep_none hdone with hreached | hdue
    · rcases h with rfl | ⟨-, _⟩
      · exact absurd hlt hreached
      refine le_trans ?_ hahead
      by_contra hgt
      exact hreached (.inl (not_le.mp hgt))
    · obtain ⟨d, hd⟩ := exists_due ht cursor
      obtain ⟨-, -, huntil⟩ := mem_due hd
      refine le_trans ?_ (huntil t ht)
      rcases hdue d hd with hlt | heq
      · exact hlt.le
      · exact heq.1.le
  · rename_i hnot
    rcases h with rfl | ⟨hlt, -⟩
    · exact hahead
    · exact absurd hlt hnot

theorem InOrder.tick (h : InOrder log e.lastSeen.seconds e) (he : e.Sound) (hadvance : Call.advance now e = .ok c') :
    InOrder (log ++ (Call.rounds now e).filterMap Call.crossed) (e.sees now).seconds c'.engine := by
  obtain ⟨cursor, c, -, ⟨horder, hbehind⟩, hdone, rfl⟩ := advance_rounds
    (P := fun l cursor c => InOrder (log ++ l.filterMap Call.crossed) cursor.seconds c.engine ∧ e.Behind now cursor) he
    ⟨by simpa using h, .inl rfl⟩
    (fun l cursor c _ hinv _ hl hstep => by
      refine ⟨?_, hl.2.round hstep⟩
      have hround := hl.1.round hinv e.ticking hstep
      rw [filterMap_append, ← append_assoc]
      cases hcrossed : Call.crossed (cursor, c) <;> simpa [hcrossed] using hround) hadvance
  exact horder.move (c := { c with engine := { c.engine with lastSeen := e.sees now } }) hbehind.le_sees
    fun t ht => hbehind.sees_le hdone ht (horder.ahead t ht)

end order

section handle

variable {c c' : Call R} {clock : Clock} {op : Op R}

/-- The operator's request is ignored, or the call starts and no order is touched. -/
theorem beginOpeningCall_spec {seconds : Nat} (hc : c.engine.Sound) (h : c.beginOpeningCall clock seconds = .ok c') :
    c' = c ∨ (seconds ≠ 0 ∧ isCall c.engine.phase = false ∧
      c'.engine =
        { c.engine with
          callUntil := some (.ofSeconds ((clock .request).seconds + seconds))
          phase := .openingCall
          lastIndicative := c'.engine.lastIndicative
          statusHistory := c'.engine.statusHistory
          terminalHistory := c'.engine.terminalHistory }) := by
  simp only [Call.beginOpeningCall] at h
  split at h
  · exact .inl (Except.ok.inj h).symm
  rename_i hnot
  rw [not_or, Bool.not_eq_true] at hnot
  obtain ⟨c₂, hpublish, h⟩ := bind_eq_ok.mp h
  cases h
  refine .inr ⟨hnot.1, hnot.2, ?_⟩
  have hphase : c.engine.phase ≠ .openingCall := by
    intro heq
    rw [heq] at hnot
    exact absurd hnot.2 (by decide)
  obtain ⟨c₁, hc₁⟩ : ∃ c₁, c₁ = c.onEngine fun e =>
    { e with callUntil := some (.ofSeconds ((clock .request).seconds + seconds)) } := ⟨_, rfl⟩
  have hphase₁ : c₁.engine.phase ≠ .openingCall := by
    rw [hc₁]
    exact hphase
  have hbegin : Leads (c.engine.context (some (.beginOpeningCall seconds))) c
      (c₁.setPhase .openingCall (clock .request)) := by
    refine .head ?_ (.single (.enterCall c₁ rfl (fun _ hop => by cases hop; rfl) (clock .request)))
    rw [hc₁]
    exact .beginCall rfl hnot.1 hnot.2 rfl rfl
  have hsame := ((publishIndicative_safe (hbegin.inv (hc.inv _ c.out)) (clock .request)).of_ok
    (by rw [hc₁]; exact hpublish)).2
  have hengine : (c₁.setPhase .openingCall (clock .request)).engine =
      { c.engine with
        callUntil := some (.ofSeconds ((clock .request).seconds + seconds))
        phase := .openingCall
        lastIndicative := none } := by
    rw [Call.setPhase, if_neg hphase₁, hc₁]
    rfl
  rw [hengine] at hsame
  rw [Call.rememberStatus, Engine.rememberStatus_market c₂.engine c₂.out, hsame]

theorem handle_seen (hc : c.engine.Sound) (hrange : c.engine.inRange op) (h : c.handle clock op = .ok c') :
    c'.engine.lastSeen = c.engine.lastSeen ∧ c'.engine.schedule = c.engine.schedule := by
  obtain ⟨_, hpath, hanswered⟩ := (hc.handle clock hrange).of_ok h
  rw [hanswered.market.1]
  exact ⟨(Path.frame hpath).lastSeen rfl, (Path.frame hpath).schedule⟩

/-- What a request does to the session: nothing, or it starts an operator's call. -/
theorem handle_session (hc : c.engine.Sound) (hrange : c.engine.inRange op) (h : c.handle clock op = .ok c') :
    (c'.engine.callUntil = c.engine.callUntil ∧ c'.engine.phase = c.engine.phase) ∨
      ∃ seconds, op = .beginOpeningCall seconds ∧ seconds ≠ 0 ∧ isCall c.engine.phase = false ∧
        c'.engine.callUntil = some (.ofSeconds ((clock .request).seconds + seconds)) ∧
        c'.engine.phase = .openingCall ∧ c'.engine.states = c.engine.states := by
  by_cases hop : op.setsPhase = false
  · obtain ⟨_, hpath, hanswered⟩ := (hc.handle clock hrange).of_ok h
    rw [hanswered.market.1]
    exact .inl ((Path.frame hpath).session _ rfl hop)
  cases op with
  | beginOpeningCall seconds =>
    rcases beginOpeningCall_spec hc h with rfl | ⟨hpos, hphase, hengine⟩
    · exact .inl ⟨rfl, rfl⟩
    · rw [hengine]
      exact .inr ⟨seconds, rfl, hpos, hphase, rfl, rfl, rfl⟩
  | tick =>
    cases h
    exact .inl ⟨rfl, rfl⟩
  | _ => exact absurd rfl hop

end handle

section turns

variable {t : Turn R} {log : List (Int × Boundary)}

theorem Turn.Valid.ticked (h : t.Valid) (he : t.before.Sound) :
    t.ticked.engine.Sound ∧ t.ticked.engine.lastSeen = t.before.sees (t.clock .advance) ∧
      t.done.engine.lastSeen = t.before.sees (t.clock .advance) := by
  obtain ⟨_, hticked⟩ := (tick_safe he (t.clock .advance)).of_ok h.tick
  have hsound := hticked.sound he
  have hsees := hticked.sees he
  exact ⟨hsound, hsees, (handle_seen hsound h.range h.handle).1.trans hsees⟩

theorem InOrder.turn (hlog : InOrder log t.before.lastSeen.seconds t.before) (he : t.before.Sound) (h : t.Valid)
    (hends : t.EndsAhead) : InOrder (log ++ t.boundaries) t.done.engine.lastSeen.seconds t.done.engine := by
  obtain ⟨hsound, -, hseen⟩ := h.ticked he
  obtain ⟨c₁, hticked⟩ := (tick_safe he (t.clock .advance)).of_ok h.tick
  have htick := hlog.tick he hticked.done
  have huntil : t.ticked.engine.callUntil = c₁.engine.callUntil := by
    rw [hticked.call, Call.rememberStatus, Engine.rememberStatus_market c₁.engine c₁.out]
  rw [hseen]
  refine ⟨htick.increasing, htick.behind, fun s hs => ?_⟩
  rcases handle_session hsound h.range h.handle with ⟨hsame, -⟩ | ⟨_, hop, hpos, -, hcall, -, -⟩
  · rw [hsame, huntil] at hs
    exact htick.ahead s hs
  rw [hcall] at hs
  cases hs
  exact hends _ (by simp [Turn.callEnd, hop, hpos, Time.ofSeconds])

theorem Engine.le_sees (e : Engine R) (now : Time) : e.lastSeen ≤ e.sees now := by
  unfold Engine.sees
  split
  · rename_i h
    rcases h with h | h
    · exact .inl h
    · exact .inr ⟨h.1, h.2.le⟩
  · exact .inr ⟨rfl, le_refl _⟩

variable {ok : Turn R → Prop} {e₀ e : Engine R} {turns : List (Turn R)}

theorem Trace.sound (h : Trace ok e₀ turns e) (he : e₀.Sound) : e.Sound := h.run.sound he

theorem Trace.inOrder (h : Trace Turn.EndsAhead e₀ turns e) (he : e₀.Sound) (huntil : e₀.callUntil = none) :
    InOrder (turns.flatMap Turn.boundaries) e.lastSeen.seconds e := by
  induction h with
  | nil => exact ⟨.nil, fun _ h => absurd h not_mem_nil, fun _ ht => by rw [huntil] at ht; cases ht⟩
  | turn hrun hvalid hends ih =>
    rw [flatMap_append, flatMap_singleton]
    exact ih.turn (hrun.sound he) hvalid hends

/-- No call takes the high-water mark back. -/
theorem Trace.lastSeen_le (h : Trace ok e₀ turns e) (he : e₀.Sound) :
    ∀ t ∈ turns, t.before.lastSeen ≤ t.done.engine.lastSeen := by
  induction h with
  | nil => exact fun _ h => absurd h not_mem_nil
  | @turn _ t hrun hvalid _ ih =>
    intro u hu
    rcases mem_append.mp hu with hu | hu
    · exact ih u hu
    · rw [mem_singleton.mp hu, (hvalid.ticked (hrun.sound he)).2.2]
      exact t.before.le_sees _

end turns

/-- If no operator's call ends before the high-water mark, the scheduled boundaries of a run are crossed at strictly
increasing instants, and the mark never moves back. -/
theorem boundaries_increasing {cfg : Settings} {turns : List (Turn R)} {e : Engine R}
    (h : Trace Turn.EndsAhead (Engine.new cfg) turns e) :
    ((turns.flatMap Turn.boundaries).map (·.1)).Pairwise (· < ·) ∧
      ∀ t ∈ turns, t.before.lastSeen ≤ t.done.engine.lastSeen :=
  ⟨(h.inOrder (.new ..) rfl).increasing, h.lastSeen_le (.new ..)⟩

/-- The clock goes back to second `250`, and an operator's call ends between two boundaries. -/
theorem boundaries_increasing_operator : ∃ turns e,
    Trace Turn.EndsAhead (Engine.sample (some .sample)) turns e ∧
      (turns.flatMap Turn.boundaries).map (·.1) = [100, 200, 300, 400] ∧
      ((turns.flatMap Turn.boundaries).map (·.1)).Pairwise (· < ·) := by
  obtain ⟨turns, e, htrace, hboundaries⟩ := Trace.of_computed Turn.EndsAhead (Engine.sample (some .sample))
    [(.at 260, .tick), (.at 250, .beginOpeningCall 30), (.at 500, .tick)]
    (fun turns _ => (turns.flatMap Turn.boundaries).map (·.1) = [100, 200, 300, 400]) (by decide +kernel)
  exact ⟨turns, e, htrace, hboundaries, (boundaries_increasing htrace).1⟩

/-- At second `250` the clock goes back to `150`, where an operator's call until `160` starts: `200` is crossed a
second time. -/
theorem opening_crossed_twice : ∃ turns e,
    Trace (fun _ => True) (Engine.sample (some .sample)) turns e ∧
      turns.flatMap Turn.boundaries = [(100, .openCall), (200, .open), (200, .open)] ∧
      ¬ ((turns.flatMap Turn.boundaries).map (·.1)).Pairwise (· < ·) :=
  Trace.of_computed (fun _ => True) (Engine.sample (some .sample))
    [(.at 250, .tick), (.at 150, .beginOpeningCall 10), (.at 260, .tick)] _ (by decide +kernel)

end Fxp

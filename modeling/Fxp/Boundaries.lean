import Fxp.Rounds

/-!
# What the boundaries of the session do

The effect of one round of the clock on the phase and on the orders that are good for a day or for one auction, and
the boundaries that a tick crosses.
-/

namespace Fxp

open Checked Option

variable {R : Type}

def Engine.Lacks (e : Engine R) (tif : TimeInForce) : Prop :=
  ∀ (id : String) (st : OrderState R), e.states[id]? = some st → st.timeInForce ≠ tif

section lacks

variable {x : Context R} {w w' : Progress R} {c c' : Call R} {tif : TimeInForce}

theorem Path.kept (h : Path x w w') (hreq : x.Ticking) {id : String} {st' : OrderState R}
    (hst' : w'.call.engine.states[id]? = some st') :
    ∃ st, w.call.engine.states[id]? = some st ∧ st'.terms = st.terms := by
  rcases Path.terms h hst' with hold | hnew
  · exact hold
  have hid := hnew.newId
  cases hop : x.request with
  | none =>
    rw [hop] at hid
    cases hid
  | some op =>
    rw [hop, hreq op hop] at hid
    cases hid

theorem OrderState.timeInForce_of_terms {st st' : OrderState R} (h : st'.terms = st.terms) :
    st'.timeInForce = st.timeInForce := by
  have htif : st'.terms.timeInForce = st.terms.timeInForce := by rw [h]
  exact htif

theorem Engine.Lacks.path (hc : c.engine.Lacks tif) (h : Leads x c c') (hreq : x.Ticking) : c'.engine.Lacks tif := by
  intro id st' hst'
  obtain ⟨st, hst, hterms⟩ := Path.kept h hreq hst'
  rw [OrderState.timeInForce_of_terms hterms]
  exact hc id st hst

theorem Finished.lacks {ids} (h : Finished c ids c') (hc : c.engine.Lacks tif) : c'.engine.Lacks tif := by
  intro id st hst
  rw [h.states] at hst
  split at hst
  · cases hst
  · exact hc id st hst

private theorem setPhase_lacks (hc : c.engine.Lacks tif) (phase : TradingPhase) (instant : Time) :
    (c.setPhase phase instant).engine.Lacks tif := by
  intro id st hst
  rw [Call.setPhase_engine] at hst
  exact hc id st hst

end lacks

section boundaries

variable {x : Context R} {c c' : Call R} {instant : Time}

private theorem phase_of_leads {m} (h : Leads (c.engine.context (some (.massCancel m))) c c') :
    c'.engine.phase = c.engine.phase := ((Path.frame h).session _ rfl rfl).2

section

variable (hinv : Inv x (idle true c)) (hreq : x.Ticking)
include hinv hreq

private theorem auction_effect {tif price c₁ c₂} (hauction : c.runAuction instant = .ok (c₁, price))
    (hcancel : c₁.cancelRemainders tif instant = .ok c₂) (phase : TradingPhase) :
    (c₂.setPhase phase instant).engine.Sound ∧ (c₂.setPhase phase instant).engine.Lacks tif ∧
      (c₂.setPhase phase instant).engine.phase = phase := by
  have hpath₁ := ((runAuction_safe hinv instant).of_ok hauction).1
  obtain ⟨-, -, -, hlacks⟩ := (cancelRemainders_safe (hpath₁.inv hinv) tif instant).of_ok hcancel
  have hpath := (auction_safe hinv hreq tif phase instant).of_ok (a := (c₂.setPhase phase instant, price))
    (by
      rw [hauction, ok_bind]
      simp only
      rw [hcancel, ok_bind])
  exact ⟨(hpath.inv hinv).sound, setPhase_lacks hlacks phase instant, setPhase_phase c₂ phase instant⟩

private theorem openBoundary_effect
    (h : c.sessionBoundary .open instant = .ok c') : c'.engine.phase = .continuous ∧ c'.engine.Lacks .atOpen := by
  obtain ⟨⟨_, price⟩, hauction, h⟩ := bind_eq_ok.mp h
  obtain ⟨c₂, hcancel, h⟩ := bind_eq_ok.mp h
  obtain ⟨hsound, hlacks, hphase⟩ := auction_effect hinv hreq hauction hcancel .continuous
  rcases price with _ | price
  · cases h
    exact ⟨hphase, hlacks⟩
  have hleads : ∀ request, Leads ((c₂.setPhase .continuous instant).engine.context request)
      (c₂.setPhase .continuous instant) c' :=
    fun request => (openStops_safe (hsound.inv request _) instant price).of_ok h
  exact ⟨(phase_of_leads (m := ⟨"", 0, 0⟩) (hleads _)).trans hphase,
    hlacks.path (hleads none) fun _ hop => by cases hop⟩

private theorem closeBoundary_effect (h : c.sessionBoundary .close instant = .ok c') :
    c'.engine.phase = .closed ∧ c'.engine.Lacks .atClose ∧ c'.engine.Lacks .day := by
  obtain ⟨⟨_, _⟩, hauction, h⟩ := bind_eq_ok.mp h
  obtain ⟨_, hcancel, h⟩ := bind_eq_ok.mp h
  obtain ⟨hsound, hlacks, hphase⟩ := auction_effect hinv hreq hauction hcancel .closed
  obtain ⟨-, ⟨_, hfin⟩, hexpires⟩ := (expire_safe (hsound.inv none _) instant true).of_ok h
  refine ⟨?_, hfin.lacks hlacks, fun id st hst hday => ?_⟩
  · rw [hfin.engine]
    exact hphase
  · have := hexpires id st hst
    simp [Call.expires, hday] at this

end

private theorem sessionBoundary_effect (hinv : Inv x (idle false c)) (hreq : x.Ticking)
    (hfull : c.engine.fullSchedule = true) {kind} (h : c.sessionBoundary kind instant = .ok c') :
    c'.engine.phase = kind.phase ∧ (kind = .open → c'.engine.Lacks .atOpen) ∧
      (kind = .close → c'.engine.Lacks .atClose ∧ c'.engine.Lacks .day) := by
  have hstart : Step x (idle false c) (idle true c) :=
    .startAuction (by simp [Engine.auctionsEnabled, idle, hfull]) (.inr rfl) hreq
  cases kind with
  | openCall =>
    cases h
    exact ⟨setPhase_phase .., (fun h => by cases h), fun h => by cases h⟩
  | «open» =>
    obtain ⟨hphase, hlacks⟩ := openBoundary_effect (hstart.inv hinv) hreq h
    exact ⟨hphase, fun _ => hlacks, fun h => by cases h⟩
  | closeCall =>
    have hcall := (Step.enterCall c (show isCall .closingCall = true from rfl) hreq.setsPhase instant).inv hinv
    have hphase := setPhase_phase c .closingCall instant
    have hleads := (releaseAll_safe (hcall.sound.inv (some (.massCancel ⟨"", 0, 0⟩)) _)
      (by rw [hphase]; rfl) instant).of_ok h
    exact ⟨(phase_of_leads hleads).trans hphase, (fun h => by cases h), fun h => by cases h⟩
  | close =>
    obtain ⟨hphase, hlacks⟩ := closeBoundary_effect (hstart.inv hinv) hreq h
    exact ⟨hphase, (fun h => by cases h), fun _ => hlacks⟩

end boundaries

section round

variable {x : Context R} {c c' : Call R} {seconds : Int} {boundary : Option Boundary}

section

variable (hinv : Inv x (idle false c)) (hreq : x.Ticking)
include hinv hreq

/-- A round expires orders, crosses the boundary and publishes. -/
theorem round_split (h : c.round seconds boundary = .ok c') : ∃ c₁ c₂ ids, Finished c ids c₁ ∧ Leads x c c₁ ∧
      (∀ (id : String) (st : OrderState R), c₁.engine.states[id]? = some st →
        Call.expires (.ofSeconds seconds) (!c.engine.fullSchedule && boundary = some .close) st = false) ∧
      c₁.dueBoundary (c.engine.callUntil.map (·.seconds) = some seconds) c.engine.fullSchedule boundary
        (.ofSeconds seconds) = .ok c₂ ∧
      Leads x c₁ c₂ ∧ c'.engine = { c₂.engine with lastIndicative := c'.engine.lastIndicative } := by
  obtain ⟨c₁, hexpire, h⟩ := bind_eq_ok.mp h
  obtain ⟨c₂, hdue, h⟩ := bind_eq_ok.mp h
  obtain ⟨hpath₁, ⟨ids, hfin⟩, hexpires⟩ := (expire_safe hinv _ _).of_ok hexpire
  have huntil : c₁.engine.callUntil = c.engine.callUntil := by rw [hfin.engine]
  have hfull : c.engine.fullSchedule = c₁.engine.fullSchedule := by rw [hfin.engine]; rfl
  have hpath₂ := ((dueBoundary_safe (hpath₁.inv hinv) hreq _ _ (fun hop => by
    rw [huntil]
    cases hc : c.engine.callUntil with
    | none => simp [hc] at hop
    | some => rfl) hfull boundary _).of_ok hdue).1
  exact ⟨c₁, c₂, ids, hfin, hpath₁, hexpires, hdue, hpath₂,
    ((publishIndicative_safe (hpath₂.inv (hpath₁.inv hinv)) _).of_ok h).2⟩

theorem round_operator (h : c.round seconds boundary = .ok c')
    (hop : c.engine.callUntil.map (·.seconds) = some seconds) :
    c'.engine.callUntil = none ∧ c'.engine.phase = .continuous ∧ c'.engine.Lacks .atOpen := by
  have huntil := (round_safe hinv hreq h).2.resolve_right fun h => h.2 hop
  obtain ⟨c₁, _, _, hfin, hpath₁, -, hdue, -, hengine⟩ := round_split hinv hreq h
  have hsome : c₁.engine.callUntil.isSome = true := by
    rw [hfin.engine]
    cases hc : c.engine.callUntil with
    | none => simp [hc] at hop
    | some => rfl
  have hstart : Step x (idle false c₁) (idle true { c₁ with engine := { c₁.engine with callUntil := none } }) :=
    .startAuction (by simp [Engine.auctionsEnabled, idle, hsome]) (.inl rfl) hreq
  unfold Call.dueBoundary at hdue
  rw [if_pos (by simpa using hop)] at hdue
  obtain ⟨hphase, hlacks⟩ := openBoundary_effect (hstart.inv (hpath₁.inv hinv)) hreq hdue
  refine ⟨huntil, ?_⟩
  rw [hengine]
  exact ⟨hphase, hlacks⟩

theorem round_boundary {kind}
    (h : c.round seconds (some kind) = .ok c') (hop : c.engine.callUntil.map (·.seconds) ≠ some seconds)
    (hfull : c.engine.fullSchedule = true) :
    c'.engine.phase = kind.phase ∧ (kind = .open → c'.engine.Lacks .atOpen) ∧
      (kind = .close → c'.engine.Lacks .atClose ∧ c'.engine.Lacks .day) := by
  obtain ⟨c₁, _, _, hfin, hpath₁, -, hdue, -, hengine⟩ := round_split hinv hreq h
  have hfull₁ : c₁.engine.fullSchedule = true := by
    rw [hfin.engine]
    exact hfull
  unfold Call.dueBoundary at hdue
  rw [if_neg (by simpa using hop)] at hdue
  simp only [hfull, if_true] at hdue
  have heffect := sessionBoundary_effect (hpath₁.inv hinv) hreq hfull₁ hdue
  rw [hengine]
  exact heffect

theorem round_idle (h : c.round seconds boundary = .ok c') (hop : c.engine.callUntil.map (·.seconds) ≠ some seconds)
    (hidle : c.engine.fullSchedule = false ∨ boundary = none) :
    c'.engine.phase = c.engine.phase ∧ c'.engine.callUntil = c.engine.callUntil := by
  obtain ⟨c₁, c₂, _, hfin, -, -, hdue, -, hengine⟩ := round_split hinv hreq h
  have hsame : c₁ = c₂ := by
    unfold Call.dueBoundary at hdue
    rw [if_neg (by simpa using hop)] at hdue
    cases boundary with
    | none => exact Except.ok.inj hdue
    | some kind =>
      simp only [hidle.resolve_right (some_ne_none kind), Bool.false_eq_true, if_false] at hdue
      exact Except.ok.inj hdue
  rw [hengine, ← hsame, hfin.engine]
  exact ⟨rfl, rfl⟩

private theorem round_day (h : c.round seconds (some .close) = .ok c')
    (hfull : c.engine.fullSchedule = false) : c'.engine.Lacks .day := by
  obtain ⟨c₁, _, _, -, -, hexpires, -, hpath₂, hengine⟩ := round_split hinv hreq h
  have hlacks : c₁.engine.Lacks .day := by
    intro id st hst hday
    have := hexpires id st hst
    simp [Call.expires, hday, hfull] at this
  rw [hengine]
  exact hlacks.path hpath₂ hreq

end

end round

/-- The times in force that end with the close. -/
def SessionSchedule.Ends (s : SessionSchedule) (tif : TimeInForce) : Prop :=
  tif = .day ∨ (s.isFull = true ∧ tif = .atClose)

/-- With a full schedule, no operator's call ends at a boundary, whose place it would take. -/
def SessionSchedule.Spared (s : SessionSchedule) (e : Engine R) : Prop :=
  s.isFull = true → ∀ t ∈ e.callUntil, s.isBoundary t.seconds = false

section tick

variable {x : Context R} {s : SessionSchedule} {e : Engine R} {c c' : Call R} {now cursor : Time} {seconds : Int}
  {boundary : Option Boundary} {kind : Boundary} {instant : Int}

theorem Engine.fullSchedule_eq (h : e.schedule = some s) : e.fullSchedule = s.isFull := by
  simp [Engine.fullSchedule, h]

theorem due_at (hordered : s.ordered = true) (hschedule : e.schedule = some s) (hat : s.At kind instant)
    (hdue : Call.nextDue e cursor = some (seconds, boundary)) (hlt : cursor.seconds < instant)
    (hle : instant ≤ seconds) : instant = seconds ∧ boundary = some kind := by
  obtain ⟨hboundary, hsched, -⟩ := mem_due hdue
  have hnext := SessionSchedule.nextBoundary_le hat hlt
  have hmin := hsched s hschedule
  have heq : instant = (s.nextBoundary cursor.seconds).1 := by omega
  have hseconds : (s.nextBoundary cursor.seconds).1 = seconds := by omega
  have hkind : kind = (s.nextBoundary cursor.seconds).2 := by
    rw [heq] at hat
    exact hat.unique hordered (s.nextBoundary_at cursor.seconds)
  refine ⟨by omega, ?_⟩
  rw [hboundary, hschedule, hkind]
  simp only [map_some, filter_some, hseconds, decide_true, if_true]

private theorem crossed_at (hordered : s.ordered = true) (hschedule : c.engine.schedule = some s)
    (hspared : s.Spared c.engine)
    (hat : s.At kind instant) (hdue : Call.nextDue c.engine cursor = some (seconds, boundary))
    (hlt : cursor.seconds < instant) (hle : instant ≤ seconds) :
    boundary = some kind ∧ (s.isFull = true → c.engine.callUntil.map (·.seconds) ≠ some seconds) ∧
      Call.crossed (cursor, c) = some (instant, kind) := by
  obtain ⟨rfl, rfl⟩ := due_at hordered hschedule hat hdue hlt hle
  have hfree : s.isFull = true → c.engine.callUntil.map (·.seconds) ≠ some instant := by
    intro hfull hend
    obtain ⟨t, ht, hts⟩ := map_eq_some_iff.mp hend
    have := hspared hfull t ht
    rw [hts, hat.isBoundary] at this
    cases this
  refine ⟨rfl, hfree, ?_⟩
  simp only [Call.crossed, hdue]
  rw [if_neg]
  rintro ⟨hfull, hend⟩
  rw [Engine.fullSchedule_eq hschedule] at hfull
  exact hfree hfull hend

/-- What ends with the close ends in the round that crosses it. -/
theorem round_ends (hinv : Inv x (idle false c)) (hreq : x.Ticking) (hschedule : c.engine.schedule = some s)
    (h : c.round seconds (some .close) = .ok c')
    (hfree : s.isFull = true → c.engine.callUntil.map (·.seconds) ≠ some seconds) {tif}
    (htif : s.Ends tif) : c'.engine.Lacks tif := by
  by_cases hfull : s.isFull = true
  · obtain ⟨-, -, hclose⟩ := round_boundary hinv hreq h (hfree hfull)
      ((Engine.fullSchedule_eq hschedule).trans hfull)
    rcases htif with rfl | ⟨-, rfl⟩
    · exact (hclose rfl).2
    · exact (hclose rfl).1
  · rcases htif with rfl | ⟨h', -⟩
    · exact round_day hinv hreq h ((Engine.fullSchedule_eq hschedule).trans (by simpa using hfull))
    · exact absurd h' hfull

theorem SessionSchedule.Spared.congr (h : s.Spared e) (huntil : c.engine.callUntil = none ∨
    c.engine.callUntil = e.callUntil) : s.Spared c.engine := by
  intro hfull t ht
  rcases huntil with hnone | hsame
  · rw [hnone] at ht
    cases ht
  · rw [hsame] at ht
    exact h hfull t ht

theorem done_at (hschedule : c.engine.schedule = some s) (hat : s.At kind instant)
    (hdone : Call.advanceStep now (cursor, c) = .ok none) (hlt : cursor.seconds < instant) :
    ¬ Time.ofSeconds instant ≤ now := by
  intro hle
  rcases advanceStep_none hdone with hreached | hdue
  · refine hreached (.inl ?_)
    rcases hle with hle | hle
    · exact hlt.trans hle
    · exact hlt.trans_eq hle.1
  obtain ⟨d, hd⟩ : ∃ d, Call.nextDue c.engine cursor = some d := by
    unfold Call.nextDue
    simp only [hschedule, map_some, toList_some]
    exact ⟨_, by rw [List.min?_eq_some_min (by simp)]; rfl⟩
  have hmin := (mem_due hd).2.1 s hschedule
  have hnext := SessionSchedule.nextBoundary_le hat hlt
  have hle' : instant < now.seconds ∨ (instant = now.seconds ∧ 0 ≤ now.nanos) := hle
  have hlt' : now.seconds < d.1 ∨ (now.seconds = d.1 ∧ now.nanos < 0) := hdue d hd
  omega

/-- The boundaries of `log` are those of the schedule after `start` and up to the cursor. -/
structure Complete (s : SessionSchedule) (start : Int) (log : List (Int × Boundary)) (cursor : Int) : Prop where
  sound : ∀ b ∈ log, s.At b.2 b.1 ∧ start < b.1
  complete : ∀ kind instant, s.At kind instant → start < instant → instant ≤ cursor → (instant, kind) ∈ log
  started : start ≤ cursor

section rounds

variable {start : Int} {log : List (Int × Boundary)}

private theorem crossed_sound {b} (hschedule : c.engine.schedule = some s)
    (h : Call.crossed (cursor, c) = some b) : s.At b.2 b.1 := by
  unfold Call.crossed at h
  split at h
  · rename_i seconds kind hdue
    split at h
    · cases h
    cases h
    obtain ⟨_, hs', hnext⟩ := due_boundary hdue
    cases hschedule.symm.trans hs'
    have hat := s.nextBoundary_at cursor.seconds
    rw [hnext] at hat
    exact hat
  · cases h
  · cases h

theorem Complete.round (h : Complete s start log cursor.seconds) (hlog : InOrder log cursor.seconds c.engine)
    (hordered : s.ordered = true) (hschedule : c.engine.schedule = some s) (hspared : s.Spared c.engine)
    {r} (hstep : Call.advanceStep now (cursor, c) = .ok (some r)) :
    Complete s start (log ++ (Call.crossed (cursor, c)).toList) r.1.seconds := by
  obtain ⟨seconds, _, hdue, -, -, hr, -⟩ := advanceStep_some hstep
  have hle : cursor.seconds ≤ seconds := hlog.le_due hdue
  rw [hr]
  refine ⟨fun b hb => ?_, fun kind instant hat hlt hinstant => ?_, h.started.trans hle⟩
  · rcases List.mem_append.mp hb with hb | hb
    · exact h.sound b hb
    · rw [mem_toList] at hb
      exact ⟨crossed_sound hschedule hb, h.started.trans_lt (crossed_some hdue hb).2⟩
  rw [List.mem_append]
  by_cases hold : instant ≤ cursor.seconds
  · exact .inl (h.complete kind instant hat hlt hold)
  · have hcrossed := (crossed_at hordered hschedule hspared hat hdue (not_le.mp hold) hinstant).2.2
    exact .inr (by rw [hcrossed]; exact List.mem_singleton_self _)

theorem SessionSchedule.Spared.round (hspared : s.Spared c.engine) (hinv : Inv x (idle false c)) (hreq : x.Ticking)
    {r} (hstep : Call.advanceStep now (cursor, c) = .ok (some r)) : s.Spared r.2.engine := by
  obtain ⟨_, _, -, -, -, -, hround⟩ := advanceStep_some hstep
  refine hspared.congr ?_
  rcases (round_safe hinv hreq hround).2 with h | h
  · exact .inl h
  · exact .inr h.1

theorem Engine.sees_eq (h : e.lastSeen ≤ now) : e.sees now = now := by
  unfold Engine.sees
  split
  · rfl
  rename_i hnot
  rcases h with h | ⟨h, h'⟩
  · exact absurd (.inl h) hnot
  have heq : e.lastSeen.nanos = now.nanos := by
    by_contra hne
    exact hnot (.inr ⟨h, lt_of_le_of_ne h' hne⟩)
  obtain ⟨_, _⟩ := now
  cases hseen : e.lastSeen
  simp_all

theorem Complete.tick (h : Complete s start log e.lastSeen.seconds) (hlog : InOrder log e.lastSeen.seconds e)
    (he : e.Sound) (hordered : s.ordered = true) (hschedule : e.schedule = some s) (hspared : s.Spared e)
    (hseen : e.lastSeen ≤ now) (hnanos : 0 ≤ now.nanos) (hadvance : Call.advance now e = .ok c') :
    Complete s start (log ++ (Call.rounds now e).filterMap Call.crossed) now.seconds := by
  obtain ⟨cursor, c, hsame, ⟨horder, hcomplete, -, hbehind⟩, hdone, rfl⟩ := advance_rounds
    (P := fun l cursor c => InOrder (log ++ l.filterMap Call.crossed) cursor.seconds c.engine ∧
      Complete s start (log ++ l.filterMap Call.crossed) cursor.seconds ∧ s.Spared c.engine ∧ e.Behind now cursor)
    he ⟨by simpa using hlog, by simpa using h, hspared, .inl rfl⟩
    (fun l cursor c _ hinv hsame hl hstep => by
      obtain ⟨hl, hl', hl'', hbehind⟩ := hl
      have horder := hl.round hinv e.ticking hstep
      have hcomplete := hl'.round hl hordered (hsame.trans hschedule) hl'' hstep
      refine ⟨?_, ?_, hl''.round hinv e.ticking hstep, hbehind.round hstep⟩
      · rw [List.filterMap_append, ← List.append_assoc]
        cases hcrossed : Call.crossed (cursor, c) <;> simpa [hcrossed] using horder
      · rw [List.filterMap_append, ← List.append_assoc]
        cases hcrossed : Call.crossed (cursor, c) <;> simpa [hcrossed] using hcomplete) hadvance
  have hle : cursor.seconds ≤ now.seconds := by
    have := hbehind.le_sees
    rwa [Engine.sees_eq hseen] at this
  refine ⟨hcomplete.sound, fun kind instant hat hlt hinstant => ?_, hcomplete.started.trans hle⟩
  by_cases hold : instant ≤ cursor.seconds
  · exact hcomplete.complete kind instant hat hlt hold
  refine absurd ?_ (done_at (hsame.trans hschedule) hat hdone (not_le.mp hold))
  rcases lt_or_eq_of_le hinstant with hlt | heq
  · exact .inl hlt
  · exact .inr ⟨heq, hnanos⟩

/-- What ends with the close is gone when the tick has passed it. -/
theorem tick_ends (he : e.Sound) (hordered : s.ordered = true) (hschedule : e.schedule = some s) (hspared : s.Spared e)
    (hat : s.At .close instant) (hlt : e.lastSeen.seconds < instant) (hle : Time.ofSeconds instant ≤ now)
    {tif} (htif : s.Ends tif) (hadvance : Call.advance now e = .ok c') : c'.engine.Lacks tif := by
  obtain ⟨cursor, c, hsame, ⟨-, hlacks⟩, hdone, rfl⟩ := advance_rounds
    (P := fun _ cursor c => s.Spared c.engine ∧ (instant ≤ cursor.seconds → c.engine.Lacks tif)) he
    ⟨hspared, fun h => absurd hlt (not_lt.mpr h)⟩
    (fun _ cursor c _ hinv hsame hl hstep => by
      refine ⟨hl.1.round hinv e.ticking hstep, fun hr => ?_⟩
      obtain ⟨_, _, hdue, -, -, hseconds, hround⟩ := advanceStep_some hstep
      rw [hseconds] at hr
      by_cases hold : instant ≤ cursor.seconds
      · exact (hl.2 hold).path (round_safe hinv e.ticking hround).1 e.ticking
      · obtain ⟨rfl, hfree, -⟩ := crossed_at hordered (hsame.trans hschedule) hl.1 hat hdue (not_le.mp hold) hr
        exact round_ends hinv e.ticking (hsame.trans hschedule) hround hfree htif) hadvance
  refine hlacks ?_
  by_contra hnot
  exact done_at (hsame.trans hschedule) hat hdone (not_le.mp hnot) hle

end rounds

end tick

end Fxp

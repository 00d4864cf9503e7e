import Mathlib

/-!
# The session window of the FIX bridge

A schedule gives the bridge a daily or weekly window of local time. Whether an instant lies in it is decided by the
last start and the last end before it; the sequence numbers are reset at each end.
-/

namespace Fxp.Fix

/-- What is used of Go's library: `time.Parse`, `time.LoadLocation` for fixed offsets, `strings.EqualFold` and `%q`.
-/
structure Library where
  parseTime : String → Except String (Fin 24 × Fin 60 × Fin 60)
  loadLocation : String → Except String Int
  equalFold : String → String → Bool
  quote : String → String

/-- A half-open window of local time, between seconds of the day and, if it is weekly, days of the week from Sunday.
-/
structure Schedule where
  start : Fin 86400
  stop : Fin 86400
  startDay : Fin 7 := 0
  endDay : Fin 7 := 0
  weekly : Bool := false
  loc : Int

def dayNames : List String := ["Sunday", "Monday", "Tuesday", "Wednesday", "Thursday", "Friday", "Saturday"]

def Library.day (lib : Library) (v : String) : Except String (Fin 7) :=
  match (List.finRange 7).find? fun d => dayNames[d]?.any (lib.equalFold v) with
  | some d => .ok d
  | none => .error ("invalid weekday " ++ lib.quote v)

def secondsOf (t : Fin 24 × Fin 60 × Fin 60) : Fin 86400 := ⟨t.1 * 3600 + t.2.1 * 60 + t.2.2, by omega⟩

def parseSchedule (lib : Library) (start stop startDay endDay zone : String) : Except String (Option Schedule) :=
  if start = "" ∧ stop = "" ∧ startDay = "" ∧ endDay = "" then .ok none
  else do
    let a ← (lib.parseTime start).mapError ("StartTime: " ++ ·)
    let b ← (lib.parseTime stop).mapError ("EndTime: " ++ ·)
    let loc ← lib.loadLocation (if zone = "" then "UTC" else zone)
    let s : Schedule := { start := secondsOf a, stop := secondsOf b, loc }
    if startDay ≠ "" ∨ endDay ≠ "" then
      let startDay ← lib.day startDay
      let endDay ← lib.day endDay
      return some { s with weekly := true, startDay, endDay }
    return some s

/-- The day of the week; the epoch was a Thursday. -/
def weekday (date : Int) : Int := (date + 4) % 7

namespace Schedule

variable (s : Schedule)

def dateOf (now : Int) : Int := (now + s.loc * 1000000000) / 86400000000000

def atSeconds (date : Int) (seconds : Fin 86400) : Int :=
  (date * 86400 + (seconds / 3600 * 3600 + seconds / 60 % 60 * 60 + seconds % 60 : Nat) - s.loc) * 1000000000

def step : Int := if s.weekly then 7 else 1

/-- The last date up to `n` for a boundary on this day; Go's remainder has the sign of the dividend. -/
def lastDate (n : Int) (day : Fin 7) : Int := if s.weekly then n + (-(weekday n - day + 7)).tmod 7 else n

def previous (now : Int) (seconds : Fin 86400) (day : Fin 7) : Int :=
  let date := s.lastDate (s.dateOf now) day
  if now < s.atSeconds date seconds then s.atSeconds (date - s.step) seconds else s.atSeconds date seconds

def contains : Option Schedule → Int → Bool
  | none, _ => true
  | some s, now =>
    let start := s.previous now s.start s.startDay
    let stop := s.previous now s.stop s.endDay
    stop < start || start = stop

def resetBoundary (now : Int) : Int := s.previous now s.stop s.endDay

variable {s}
variable {now a date date' : Int} {seconds : Fin 86400} {day : Fin 7}

/-- The window has a boundary on this date. -/
def OnDay (s : Schedule) (day : Fin 7) (date : Int) : Prop := s.weekly = true → weekday date = day

/-- One of the two boundaries of the window: the time of day on every day, or on its day of every week. -/
def Boundary (s : Schedule) (seconds : Fin 86400) (day : Fin 7) (t : Int) : Prop :=
  ∃ date, s.OnDay day date ∧ t = s.atSeconds date seconds

private theorem atSeconds_lt : s.atSeconds date seconds < s.atSeconds date' seconds ↔ date < date' := by
  unfold atSeconds
  omega

private theorem onDay_step : s.OnDay day (date + s.step) ↔ s.OnDay day date := by
  refine forall_congr' fun hw => ?_
  rw [step, if_pos hw]
  unfold weekday
  omega

theorem OnDay.step_le (h : s.OnDay day date) (h' : s.OnDay day date') (hlt : date < date') : date + s.step ≤ date' := by
  unfold step
  split
  · rename_i hw
    have := h hw
    have := h' hw
    unfold weekday at *
    omega
  · omega

private theorem lastDate_spec (s : Schedule) (n : Int) (day : Fin 7) :
    s.OnDay day (s.lastDate n day) ∧ s.lastDate n day ≤ n ∧ n < s.lastDate n day + s.step := by
  unfold OnDay lastDate step
  split
  · have hback : (-(weekday n - day + 7)).tmod 7 = -((weekday n - day + 7) % 7) := by
      rw [Int.neg_tmod, Int.tmod_eq_emod_of_nonneg]
      unfold weekday
      omega
    rw [hback]
    unfold weekday
    omega
  · rename_i hw
    exact ⟨fun h => absurd h hw, le_refl n, Int.lt_succ n⟩

/-- The instant lies between two neighbouring boundaries, and the first of them is found. -/
theorem previous_spec (s : Schedule) (now : Int) (seconds : Fin 86400) (day : Fin 7) : ∃ date, s.OnDay day date ∧
    s.previous now seconds day = s.atSeconds date seconds ∧ s.atSeconds date seconds ≤ now ∧
      now < s.atSeconds (date + s.step) seconds := by
  obtain ⟨hday, hle, hlt⟩ := s.lastDate_spec (s.dateOf now) day
  have hseconds := seconds.isLt
  unfold previous dateOf at *
  simp only
  split
  · rename_i hafter
    refine ⟨_ - s.step, ?_, rfl, ?_, by rwa [Int.sub_add_cancel]⟩
    · rwa [← onDay_step, Int.sub_add_cancel]
    · unfold atSeconds
      omega
  · rename_i hbefore
    refine ⟨_, hday, rfl, Int.not_lt.mp hbefore, ?_⟩
    unfold atSeconds
    omega

/-- The last boundary up to an instant is found. -/
theorem previous_greatest (s : Schedule) (now : Int) (seconds : Fin 86400) (day : Fin 7) :
    IsGreatest {t | s.Boundary seconds day t ∧ t ≤ now} (s.previous now seconds day) := by
  obtain ⟨date, hday, hprev, hle, hlt⟩ := s.previous_spec now seconds day
  rw [hprev]
  refine ⟨⟨⟨date, hday, rfl⟩, hle⟩, ?_⟩
  rintro t ⟨⟨date', hday', rfl⟩, ht⟩
  by_contra hlater
  have := hday.step_le hday' (atSeconds_lt.mp (Int.not_le.mp hlater))
  have := atSeconds_lt.mp (lt_of_le_of_lt ht hlt)
  omega

/-- The next boundary is the first after every instant since the last one. -/
theorem exists_next (h : s.previous now seconds day ≤ a) (ha : a ≤ now) :
    ∃ e, IsLeast {t | s.Boundary seconds day t ∧ a < t} e ∧ now < e := by
  obtain ⟨date, hday, hprev, -, hlt⟩ := s.previous_spec now seconds day
  refine ⟨_, ⟨⟨⟨_, onDay_step.mpr hday, rfl⟩, lt_of_le_of_lt ha hlt⟩, ?_⟩, hlt⟩
  rintro t ⟨⟨date', hday', rfl⟩, ht⟩
  rw [hprev] at h
  have := hday.step_le hday' (atSeconds_lt.mp (lt_of_le_of_lt h ht))
  by_contra hearlier
  have := atSeconds_lt.mp (Int.not_le.mp hearlier)
  omega

end Schedule

end Fxp.Fix

import Fxp.Session
import Mathlib

/-!
# The daily schedule

`fromStr` reads a schedule from the configuration.  What it accepts is ordered: the close alone, or all four times one
after the other.  `nextBoundary` finds the first boundary after an instant, and between two boundaries of an ordered
schedule the phase stays the same.
-/

namespace Fxp

open List

def UtcTimeOfDay.fromStr (value : List Char) : Except String UtcTimeOfDay :=
  let parts := value.splitOn ':'
  if ¬ (parts.length = 2 ∨ parts.length = 3) ∨ parts.any (fun p => p.length ≠ 2 || !p.all Char.isDigit) then
    .error "expected UTC HH:MM[:SS]"
  else
    let number (i : Nat) : Nat := ((parts[i]?.map String.ofList).bind String.toNat?).getD 0
    if 23 < number 0 ∨ 59 < number 1 ∨ 59 < number 2 then .error "UTC time of day is out of range"
    else if h : number 0 * 3600 + number 1 * 60 + number 2 < 86400 then .ok ⟨_, h⟩
    else .error "UTC time of day is out of range"

def Boundary.ofKey : String → Option Boundary
  | "close" => some .close
  | "open_call" => some .openCall
  | "open" => some .open
  | "close_call" => some .closeCall
  | _ => none

/-- The phase that a boundary starts. -/
def Boundary.phase : Boundary → TradingPhase
  | .openCall => .openingCall
  | .open => .continuous
  | .closeCall => .closingCall
  | .close => .closed

namespace SessionSchedule

/-- The times of an ordered schedule: the close alone, or all four of them one after the other. -/
def ordered (s : SessionSchedule) : Bool :=
  match s.openCall, s.open, s.closeCall with
  | none, none, none => true
  | some a, some b, some c => a.seconds < b.seconds && b.seconds < c.seconds && c.seconds < s.close.seconds
  | _, _, _ => false

/-- Reads one `key=value` entry. -/
def readEntry (times : Boundary → Option UtcTimeOfDay) (entry : List Char) :
    Except String (Boundary → Option UtcTimeOfDay) :=
  if '=' ∈ entry then
    let key := String.ofList (entry.takeWhile (· ≠ '='))
    match Boundary.ofKey key with
    | none => .error ("unknown schedule key " ++ key.quote)
    | some kind =>
      if (times kind).isSome then .error ("duplicate " ++ key)
      else do
        let time ← UtcTimeOfDay.fromStr (entry.dropWhile (· ≠ '=')).tail
        .ok (Function.update times kind (some time))
  else .error "expected key=value"

def fromStr (value : String) : Except String SessionSchedule := do
  let times ← (value.toList.splitOn ',').foldlM readEntry fun _ => none
  match times .close with
  | none => .error "close is required"
  | some close =>
    let s := { openCall := times .openCall, «open» := times .open, closeCall := times .closeCall, close := close }
    if s.ordered then .ok s else .error "expected close alone or open_call < open < close_call < close"

variable {s : SessionSchedule}
variable {kind : Boundary} {instant : Int}

/-- A configured schedule is ordered. -/
theorem fromStr_ordered {value} (h : fromStr value = .ok s) : s.ordered = true := by
  unfold fromStr at h
  rcases htimes : (value.toList.splitOn ',').foldlM readEntry fun _ => none with _ | _
  · simp [htimes, bind, Except.bind] at h
  simp only [htimes, bind, Except.bind] at h
  split at h
  · cases h
  split at h
  · cases h
    assumption
  · cases h

private theorem ordered_full (h : s.ordered = true) (hfull : s.isFull = true) :
    ∃ a b c, s.openCall = some a ∧ s.open = some b ∧ s.closeCall = some c ∧ a.seconds < b.seconds ∧
      b.seconds < c.seconds ∧ c.seconds < s.close.seconds := by
  unfold ordered at h
  split at h
  · rename_i hnone _ _
    simp [isFull, hnone] at hfull
  · rename_i a b c ha hb hc
    simp only [Bool.and_eq_true, decide_eq_true_eq] at h
    exact ⟨a, b, c, ha, hb, hc, h.1.1, h.1.2, h.2⟩
  · cases h

private theorem ordered_close (h : s.ordered = true) (hfull : s.isFull = false) :
    s.openCall = none ∧ s.open = none ∧ s.closeCall = none := by
  unfold ordered at h
  split at h
  · exact ⟨‹_›, ‹_›, ‹_›⟩
  · rename_i ha hb hc
    simp [isFull, ha, hb, hc] at hfull
  · cases h

def time (s : SessionSchedule) : Boundary → Option UtcTimeOfDay
  | .openCall => s.openCall
  | .open => s.open
  | .closeCall => s.closeCall
  | .close => some s.close

/-- The schedule has this boundary at the second `instant`. -/
def At (s : SessionSchedule) (kind : Boundary) (instant : Int) : Prop :=
  ∃ time ∈ s.time kind, instant % 86400 = time.seconds

instance (s : SessionSchedule) (kind : Boundary) (instant : Int) : Decidable (s.At kind instant) :=
  inferInstanceAs (Decidable (∃ time ∈ s.time kind, instant % 86400 = time.seconds))

/-- Some boundary of the schedule lies at the second `instant`. -/
def isBoundary (s : SessionSchedule) (instant : Int) : Bool :=
  [.openCall, .open, .closeCall, .close].any fun kind => s.At kind instant

theorem At.isBoundary {s : SessionSchedule} (h : s.At kind instant) :
    s.isBoundary instant = true :=
  any_eq_true.mpr ⟨kind, by cases kind <;> simp, by simpa using h⟩

theorem exists_at {s : SessionSchedule} (h : s.isBoundary instant = true) :
    ∃ kind, s.At kind instant := by
  obtain ⟨kind, -, hat⟩ := any_eq_true.mp h
  exact ⟨kind, of_decide_eq_true hat⟩

private theorem lt_nextAt (after : Int) (time : UtcTimeOfDay) : after < nextAt after time := by
  have := time.inDay
  unfold nextAt
  simp only
  split <;> omega

private theorem nextAt_mod (after : Int) (time : UtcTimeOfDay) : nextAt after time % 86400 = time.seconds := by
  have := time.inDay
  unfold nextAt
  simp only
  split <;> omega

private theorem nextAt_le {after : Int} {time} (h : instant % 86400 = time.seconds)
    (hlt : after < instant) : nextAt after time ≤ instant := by
  have := time.inDay
  unfold nextAt
  simp only
  split <;> omega

private theorem foldr_earlier (l : List (Int × Boundary)) (z : Int × Boundary) :
    l.foldr earlier z ∈ z :: l ∧ ∀ b ∈ z :: l, (l.foldr earlier z).1 ≤ b.1 := by
  induction l with
  | nil => exact ⟨mem_cons_self, fun b hb => by rw [mem_singleton.mp hb]; exact le_refl _⟩
  | cons _ _ ih =>
    rw [foldr_cons, earlier]
    obtain ⟨hmem, hle⟩ := ih
    split
    · rename_i hlt
      refine ⟨?_, fun b hb => ?_⟩
      · rcases mem_cons.mp hmem with h | h
        · rw [h]
          exact mem_cons_self
        · exact mem_cons_of_mem _ (mem_cons_of_mem _ h)
      rcases mem_cons.mp hb with rfl | hb
      · exact hle _ mem_cons_self
      rcases mem_cons.mp hb with rfl | hb
      · exact hlt.le
      · exact hle b (mem_cons_of_mem _ hb)
    · rename_i hnot
      refine ⟨mem_cons_of_mem _ mem_cons_self, fun b hb => ?_⟩
      have hfirst := not_lt.mp hnot
      rcases mem_cons.mp hb with rfl | hb
      · exact hfirst.trans (hle _ mem_cons_self)
      rcases mem_cons.mp hb with rfl | hb
      · exact le_refl _
      · exact hfirst.trans (hle b (mem_cons_of_mem _ hb))

private theorem mem_candidates {after : Int} {b} :
    b ∈ (nextAt after s.close, Boundary.close) :: s.callTimes.map (fun e => (nextAt after e.1, e.2)) ↔
      ∃ time ∈ s.time b.2, b.1 = nextAt after time := by
  obtain ⟨_, kind⟩ := b
  simp only [callTimes, mem_cons, mem_map, mem_filterMap, Option.map_eq_some_iff, Option.mem_def]
  constructor
  · rintro (h | ⟨_, ⟨_, he', time, htime, rfl⟩, h⟩)
    · cases h
      exact ⟨s.close, rfl, rfl⟩
    cases h
    simp only [mem_nil_iff, or_false] at he'
    rcases he' with rfl | rfl | rfl <;> exact ⟨time, htime, rfl⟩
  · rintro ⟨time, htime, rfl⟩
    cases kind with
    | close =>
      left
      cases htime
      rfl
    | openCall => exact .inr ⟨_, ⟨(s.openCall, .openCall), by simp, time, htime, rfl⟩, rfl⟩
    | «open» => exact .inr ⟨_, ⟨(s.open, .open), by simp, time, htime, rfl⟩, rfl⟩
    | closeCall => exact .inr ⟨_, ⟨(s.closeCall, .closeCall), by simp, time, htime, rfl⟩, rfl⟩

theorem lt_nextBoundary (s : SessionSchedule) (after : Int) : after < (s.nextBoundary after).1 := by
  obtain ⟨time, -, heq⟩ := mem_candidates.mp (foldr_earlier _ _).1
  rw [nextBoundary, heq]
  exact lt_nextAt after time

theorem nextBoundary_at (s : SessionSchedule) (after : Int) :
    s.At (s.nextBoundary after).2 (s.nextBoundary after).1 := by
  obtain ⟨time, htime, heq⟩ := mem_candidates.mp (foldr_earlier _ _).1
  refine ⟨time, htime, ?_⟩
  rw [nextBoundary, heq]
  exact nextAt_mod after time

theorem nextBoundary_le {after : Int} (h : s.At kind instant) (hlt : after < instant) :
    (s.nextBoundary after).1 ≤ instant := by
  obtain ⟨time, htime, hmod⟩ := h
  have hmem := mem_candidates.mpr (show ∃ t ∈ s.time (nextAt after time, kind).2, _ from ⟨time, htime, rfl⟩)
  exact ((foldr_earlier _ _).2 _ hmem).trans (nextAt_le hmod hlt)

/-- Two boundaries of an ordered schedule never coincide. -/
theorem At.unique {kind'} (hordered : s.ordered = true) (h : s.At kind instant)
    (h' : s.At kind' instant) : kind = kind' := by
  obtain ⟨time, htime, _⟩ := h
  obtain ⟨time', htime', _⟩ := h'
  rw [Option.mem_def] at htime htime'
  by_cases hfull : s.isFull = true
  · obtain ⟨_, _, _, ha, hb, hc, _, _, _⟩ := ordered_full hordered hfull
    cases kind <;> cases kind' <;> simp only [SessionSchedule.time, ha, hb, hc, Option.some.injEq] at htime htime' <;>
      subst htime htime' <;> first | rfl | omega
  obtain ⟨ha, hb, hc⟩ := ordered_close hordered (by simpa using hfull)
  have honly : ∀ k t, s.time k = some t → k = .close := by
    intro k t hk
    cases k <;> first | rfl | simp [SessionSchedule.time, ha, hb, hc] at hk
  rw [honly kind time htime, honly kind' time' htime']

/-- Up to the next boundary, it stays the next one. -/
theorem nextBoundary_eq {after after' : Int} (hordered : s.ordered = true) (hle : after ≤ after')
    (hlt : after' < (s.nextBoundary after).1) : s.nextBoundary after' = s.nextBoundary after := by
  have hinstant : (s.nextBoundary after').1 = (s.nextBoundary after).1 := by
    refine le_antisymm (nextBoundary_le (s.nextBoundary_at after) hlt) ?_
    exact nextBoundary_le (s.nextBoundary_at after') (hle.trans_lt (s.lt_nextBoundary after'))
  have hkind := s.nextBoundary_at after'
  rw [hinstant] at hkind
  exact Prod.ext hinstant (hkind.unique hordered (s.nextBoundary_at after))

section phases

variable {after instant : Int}

/-- The time of day `time` comes today if it is still ahead, and tomorrow otherwise. -/
theorem lt_nextAt_iff {time} : instant < nextAt after time ↔
    (after % 86400 < time.seconds → instant < after / 86400 * 86400 + time.seconds) ∧
      (time.seconds ≤ after % 86400 → instant < after / 86400 * 86400 + time.seconds + 86400) := by
  have := time.inDay
  unfold nextAt
  simp only
  split <;> omega

private theorem lt_nextAt_of_lt_nextBoundary {time} (htime : s.time kind = some time)
    (h : instant < (s.nextBoundary after).1) : instant < nextAt after time :=
  h.trans_le (nextBoundary_le ⟨time, htime, nextAt_mod after time⟩ (lt_nextAt after time))

/-- The phase of a full schedule by the time of day. -/
theorem phase_full {a b c} (ha : s.openCall = some a) (hb : s.open = some b) (hc : s.closeCall = some c)
    (hab : a.seconds < b.seconds) (hbc : b.seconds < c.seconds) (hcd : c.seconds < s.close.seconds) (instant : Int) :
    s.phase instant =
      if instant % 86400 < a.seconds then .closed
      else if instant % 86400 < b.seconds then .openingCall
      else if instant % 86400 < c.seconds then .continuous
      else if instant % 86400 < s.close.seconds then .closingCall
      else .closed := by
  simp only [phase, ha, hb, hc]
  split_ifs <;> first | rfl | omega

theorem phase_eq (hordered : s.ordered = true) (hfull : s.isFull = true) (hle : after ≤ instant)
    (hlt : instant < (s.nextBoundary after).1) : s.phase instant = s.phase after := by
  obtain ⟨a, b, c, ha, hb, hc, hab, hbc, hcd⟩ := ordered_full hordered hfull
  have h₁ := lt_nextAt_iff.mp (lt_nextAt_of_lt_nextBoundary (show s.time .openCall = some a from ha) hlt)
  have h₂ := lt_nextAt_iff.mp (lt_nextAt_of_lt_nextBoundary (show s.time .open = some b from hb) hlt)
  have h₃ := lt_nextAt_iff.mp (lt_nextAt_of_lt_nextBoundary (show s.time .closeCall = some c from hc) hlt)
  have h₄ := lt_nextAt_iff.mp (lt_nextAt_of_lt_nextBoundary (show s.time .close = some s.close from rfl) hlt)
  have hday := s.close.inDay
  rw [phase_full ha hb hc hab hbc hcd, phase_full ha hb hc hab hbc hcd]
  split_ifs <;> first | rfl | omega

theorem At.phase (h : s.At kind instant) (hordered : s.ordered = true) (hfull : s.isFull = true) :
    s.phase instant = kind.phase := by
  obtain ⟨_, _, _, ha, hb, hc, hab, hbc, hcd⟩ := ordered_full hordered hfull
  obtain ⟨_, htime, _⟩ := h
  rw [phase_full ha hb hc hab hbc hcd]
  cases kind <;> simp only [SessionSchedule.time, ha, hb, hc, Option.mem_def, Option.some.injEq] at htime <;>
    subst htime <;> split_ifs <;> first | rfl | omega

theorem nextBoundary_of_openingCall (hordered : s.ordered = true) (hfull : s.isFull = true)
    (hphase : s.phase after = .openingCall) : (s.nextBoundary after).2 = .open := by
  obtain ⟨a, b, _, ha, hb, hc, hab, hbc, hcd⟩ := ordered_full hordered hfull
  have hday := s.close.inDay
  have hrange : a.seconds ≤ after % 86400 ∧ after % 86400 < b.seconds := by
    rw [phase_full ha hb hc hab hbc hcd] at hphase
    split_ifs at hphase
    omega
  have hlt := s.lt_nextBoundary after
  have hle : (s.nextBoundary after).1 ≤ after / 86400 * 86400 + b.seconds :=
    nextBoundary_le (show s.At .open _ from ⟨b, hb, by omega⟩) (by omega)
  obtain ⟨_, htime, _⟩ := s.nextBoundary_at after
  rw [Option.mem_def] at htime
  -- the other three times of day do not lie between the call and the opening
  cases hkind : (s.nextBoundary after).2 with
  | «open» => rfl
  | openCall =>
    rw [hkind, SessionSchedule.time, ha] at htime
    cases htime
    omega
  | closeCall =>
    rw [hkind, SessionSchedule.time, hc] at htime
    cases htime
    omega
  | close =>
    rw [hkind, SessionSchedule.time] at htime
    cases htime
    omega

end phases

/-- The next boundary of an ordered schedule is the first after `t`, alone at its instant; a full schedule has the
phase of the last boundary, and configured schedules are ordered. -/
theorem schedule_boundaries (hordered : s.ordered = true) (t : Int) :
    IsLeast {i | t < i ∧ ∃ kind, s.At kind i} (s.nextBoundary t).1 ∧
      (∀ kind, s.At kind (s.nextBoundary t).1 ↔ kind = (s.nextBoundary t).2) ∧
      (s.isFull = true → ∀ kind i, s.At kind i → i ≤ t → t < (s.nextBoundary i).1 → s.phase t = kind.phase) := by
  have hat := s.nextBoundary_at t
  refine ⟨⟨⟨s.lt_nextBoundary t, _, hat⟩, fun i hi => ?_⟩, fun kind => ⟨fun hkind => hkind.unique hordered hat, ?_⟩, ?_⟩
  · obtain ⟨hlt, kind, hkind⟩ := hi
    exact nextBoundary_le hkind hlt
  · rintro rfl
    exact hat
  · intro hfull kind i hkind hle hlt
    rw [phase_eq hordered hfull hle hlt, hkind.phase hordered hfull]

/-- A full schedule with the boundaries at the seconds 100, 200, 300 and 400. -/
def sample : SessionSchedule :=
  { openCall := some ⟨100, by decide⟩, «open» := some ⟨200, by decide⟩, closeCall := some ⟨300, by decide⟩
    close := ⟨400, by decide⟩ }

theorem schedule_boundaries_close : IsLeast {i | 350 < i ∧ ∃ kind, sample.At kind i} 400 ∧
    (∀ kind, sample.At kind 400 ↔ kind = .close) ∧ sample.phase 350 = .closingCall := by
  have hnext : sample.nextBoundary 350 = (400, .close) := by decide +kernel
  obtain ⟨hleast, hkind, hphase⟩ := schedule_boundaries (s := sample) rfl 350
  rw [hnext] at hleast hkind
  exact ⟨hleast, hkind, hphase rfl .closeCall 300 (by decide) (by decide) (by decide +kernel)⟩

end SessionSchedule

end Fxp

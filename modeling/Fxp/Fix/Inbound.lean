import Fxp.Fix.Dispatch
import Mathlib

/-!
# Messages are handled once and in order

The events of a store are a history over all connections and processes.
-/

namespace Fxp.Fix

open List Function

def sinceReset (events : List Event) : List Event :=
  events.foldl (fun l e => match e with
    | .reset _ => []
    | .persisted n => l ++ [.persisted n]
    | .handled n => l ++ [.handled n]) []

/-- The messages of a history are handled in the order of their numbers, each after a greater number was persisted. -/
def ExactlyOnce (events : List Event) : Prop :=
  ∀ before n after, events = before ++ .handled n :: after →
    (∀ m, .handled m ∈ sinceReset before → m < n) ∧ n < durable before

/-- The number of the last message that was handled since the last reset, or zero. -/
def lastHandled (events : List Event) : Int :=
  events.foldl (fun n e => match e with
    | .reset _ => 0
    | .persisted _ => n
    | .handled m => m) 0

/-- What holds of a history whenever it is cut. -/
structure Bounded (events : List Event) : Prop where
  nonneg : 0 ≤ lastHandled events
  durable : lastHandled events < durable events
  handled : ∀ m, .handled m ∈ sinceReset events → m ≤ lastHandled events

structure Tidy (events : List Event) : Prop where
  once : ExactlyOnce events
  bounded : ∀ before, before <+: events → Bounded before

variable {events : List Event}

@[simp] theorem lastHandled_persisted (n : Int) : lastHandled (events ++ [.persisted n]) = lastHandled events := by
  simp [lastHandled]

@[simp] theorem lastHandled_reset (b : Bool) : lastHandled (events ++ [.reset b]) = 0 := by
  simp [lastHandled]

@[simp] theorem lastHandled_handled (n : Int) : lastHandled (events ++ [.handled n]) = n := by
  simp [lastHandled]

@[simp] theorem durable_persisted (n : Int) : durable (events ++ [.persisted n]) = n := by
  simp [durable]

@[simp] theorem durable_handled (n : Int) : durable (events ++ [.handled n]) = durable events := by
  simp [durable]

theorem Tidy.nil : Tidy [] := by
  refine ⟨fun before _ _ h => by simp at h, fun before h => ?_⟩
  obtain rfl := prefix_nil.1 h
  exact ⟨by decide, by decide, by simp [sinceReset]⟩

section

variable (h : Tidy events)
include h

theorem Tidy.snoc {e} (hb : Bounded (events ++ [e]))
    (ho : ∀ n, e = .handled n → lastHandled events < n ∧ n < durable events) : Tidy (events ++ [e]) := by
  refine ⟨fun before n after heq => ?_, fun before hp => ?_⟩
  · -- The handled message is the new one or one of the old ones.
    rcases eq_nil_or_concat after with rfl | ⟨after, _, rfl⟩
    · obtain ⟨rfl, he⟩ := append_inj' heq rfl
      obtain ⟨hlast, hdur⟩ := ho n (by simpa using he)
      exact ⟨fun m hm => Int.lt_of_le_of_lt ((h.bounded _ (prefix_refl _)).handled m hm) hlast, hdur⟩
    · rw [concat_eq_append, ← cons_append, ← append_assoc] at heq
      obtain ⟨hold, -⟩ := append_inj' heq rfl
      exact h.once before n after hold
  · rcases prefix_concat_iff.1 hp with rfl | hp
    · exact hb
    · exact h.bounded before hp

theorem Tidy.last : Bounded events := h.bounded _ (prefix_refl _)

theorem Tidy.persisted {n : Int} (hn : lastHandled events < n) : Tidy (events ++ [.persisted n]) := by
  refine h.snoc ⟨?_, ?_, ?_⟩ nofun
  · simpa using h.last.nonneg
  · simpa using hn
  · simpa [sinceReset] using h.last.handled

theorem Tidy.reset (b : Bool) : Tidy (events ++ [.reset b]) := by
  refine h.snoc ⟨?_, ?_, ?_⟩ nofun
  · simp
  · have hpos : 0 < durable events := Int.lt_of_le_of_lt h.last.nonneg h.last.durable
    cases b <;> simp_all [durable]
  · simp [sinceReset]

theorem Tidy.handled {n : Int} (hlast : lastHandled events < n) (hdur : n < durable events) :
    Tidy (events ++ [.handled n]) := by
  refine h.snoc ⟨?_, ?_, ?_⟩ fun m hm => by cases hm; exact ⟨hlast, hdur⟩
  · have := h.last.nonneg
    simp
    omega
  · simpa using hdur
  intro m hm
  have hm' : .handled m ∈ sinceReset events ∨ m = n := by simpa [sinceReset] using hm
  rw [lastHandled_handled]
  rcases hm' with hm' | rfl
  · have := h.last.handled m hm'
    omega
  · exact Int.le_refl _

theorem Tidy.cut {before} (hp : before <+: events) : Tidy before := by
  obtain ⟨rest, rfl⟩ := hp
  refine ⟨fun b n a heq => ?_, fun b hb => h.bounded b (hb.trans (prefix_append _ _))⟩
  apply h.once b n (a ++ rest)
  rw [heq]
  simp

end

namespace Registry

variable (r : Registry) (k k' : SessionKey)

@[simp] theorem eventsOf_record (e : Event) :
    (r.record k e).eventsOf k' = if k = k' then r.eventsOf k' ++ [e] else r.eventsOf k' := by
  unfold record eventsOf
  rw [filterMap_append]
  split <;> simp_all

@[simp] theorem eventsOf_setNextIn (n : Int) : (r.setNextIn k n).eventsOf k' = r.eventsOf k' := rfl

@[simp] theorem nextIn_record (e : Event) : (r.record k e).nextIn = r.nextIn := rfl

@[simp] theorem nextIn_setNextIn (n : Int) : (r.setNextIn k n).nextIn k' = if k = k' then n else r.nextIn k' := by
  unfold setNextIn
  by_cases h : k = k'
  · subst h
    simp
  · simp [h, update_of_ne (Ne.symm h)]

end Registry

namespace Session

variable {clean waits : Prop} {env : Env} {s s' : Session} {n : Int}

/-- The last message that was handled has a number below `n`. -/
def Low (s : Session) (n : Int) : Prop := ∀ k, s.regKey = some k → lastHandled (s.registry.eventsOf k) < n

/-- Every history is tidy, and what is expected next has not been handled. -/
structure Steady (s : Session) : Prop where
  tidy : ∀ k, Tidy (s.registry.eventsOf k) ∧ lastHandled (s.registry.eventsOf k) < s.registry.nextIn k
  active : ∀ k, s.regKey = some k → s.registry.active k
  low : s.Low s.inSeqNum

/-- The sessions that other connections hold stay as they are. -/
def Spares (s s' : Session) : Prop :=
  ∀ k, s.registry.active k → s.regKey ≠ some k →
    s'.registry.eventsOf k = s.registry.eventsOf k ∧ s'.registry.active k ∧ s'.regKey ≠ some k

theorem Spares.refl (s : Session) : Spares s s := fun _ ha hk => ⟨rfl, ha, hk⟩

theorem Spares.trans {a b c} (h : Spares a b) (h' : Spares b c) : Spares a c := by
  intro k ha hk
  obtain ⟨he, ha', hk'⟩ := h k ha hk
  obtain ⟨he', ha'', hk''⟩ := h' k ha' hk'
  exact ⟨he'.trans he, ha'', hk''⟩

theorem Spares.of_eq (hreg : s'.registry = s.registry) (hkey : s'.regKey = s.regKey) : Spares s s' := by
  intro k ha hk
  rw [hreg, hkey]
  exact ⟨rfl, ha, hk⟩

theorem Steady.of_eq (h : Steady s) (hreg : s'.registry = s.registry) (hkey : s'.regKey = s.regKey)
    (hlow : s.Low s'.inSeqNum) : Steady s' := by
  refine ⟨?_, ?_, ?_⟩
  · rw [hreg]
    exact h.tidy
  · rw [hreg, hkey]
    exact h.active
  unfold Low
  rw [hreg, hkey]
  exact hlow

private theorem withStore_registry {k} (hk : s.regKey = some k) (f : Registry → SessionKey → Registry) :
    (s.withStore f).registry = f s.registry k := by
  unfold withStore
  rw [hk]

private theorem setNextIn_record (n : Int) (e : Event) (s : Session) :
    (s.setNextIn n).record e = s.withStore fun r k => (r.setNextIn k n).record k e := by
  unfold record setNextIn withStore
  cases hk : s.regKey <;> simp [hk]

section

variable (h : Steady s)
include h

theorem Steady.withStore {f : Registry → SessionKey → Registry}
    (hother : ∀ r k k', k ≠ k' → (f r k).eventsOf k' = r.eventsOf k' ∧ (f r k).nextIn k' = r.nextIn k')
    (hactive : ∀ r k, (f r k).active = r.active)
    (hown : ∀ k, s.regKey = some k → Tidy ((f s.registry k).eventsOf k) ∧
      lastHandled ((f s.registry k).eventsOf k) < (f s.registry k).nextIn k ∧
      lastHandled ((f s.registry k).eventsOf k) < s.inSeqNum) :
    Steady (s.withStore f) ∧ Spares s (s.withStore f) := by
  cases hk : s.regKey with
  | none =>
    have hsame : s.withStore f = s := by
      unfold Session.withStore
      rw [hk]
    rw [hsame]
    exact ⟨h, .refl s⟩
  | some k =>
    have hreg := withStore_registry hk f
    obtain ⟨htidy, hnext, hin⟩ := hown k hk
    refine ⟨⟨fun k' => ?_, fun k' hk' => ?_, fun k' hk' => ?_⟩, fun k' ha hk' => ?_⟩
    · rw [hreg]
      by_cases hkk : k = k'
      · exact hkk ▸ ⟨htidy, hnext⟩
      · rw [(hother _ _ _ hkk).1, (hother _ _ _ hkk).2]
        exact h.tidy k'
    · rw [withStore_regKey] at hk'
      rw [hreg, hactive]
      exact h.active k' hk'
    · rw [withStore_regKey] at hk'
      cases hk.symm.trans hk'
      rw [hreg, withStore_inSeqNum]
      exact hin
    · have hkk : k ≠ k' := fun heq => hk' (heq ▸ hk)
      rw [hreg, (hother _ _ _ hkk).1, hactive, withStore_regKey]
      exact ⟨rfl, ha, hk'⟩

theorem Steady.record (e : Event) (hown : ∀ k, s.regKey = some k → Tidy (s.registry.eventsOf k ++ [e]) ∧
      lastHandled (s.registry.eventsOf k ++ [e]) < s.registry.nextIn k ∧
      lastHandled (s.registry.eventsOf k ++ [e]) < s.inSeqNum) :
    Steady (s.record e) ∧ Spares s (s.record e) :=
  h.withStore (fun _ k _ hkk => by simp [hkk]) (fun _ _ => rfl) fun k hk => by simpa using hown k hk

theorem Steady.persist (hn : s.Low n) : Steady (s.record (.persisted n)) ∧ Spares s (s.record (.persisted n)) :=
  h.record _ fun k hk => by simpa using ⟨(h.tidy k).1.persisted (hn k hk), (h.tidy k).2, h.low k hk⟩

theorem Steady.reset (b : Bool) : Steady (s.record (.reset b)) ∧ Spares s (s.record (.reset b)) := by
  refine h.record _ fun k hk => ?_
  have hnonneg := (h.tidy k).1.last.nonneg
  simpa using ⟨(h.tidy k).1.reset b, Int.lt_of_le_of_lt hnonneg (h.tidy k).2, Int.lt_of_le_of_lt hnonneg (h.low k hk)⟩

theorem Steady.setNextIn (hn : s.Low n) : Steady (s.setNextIn n) ∧ Spares s (s.setNextIn n) :=
  h.withStore (fun _ k _ hkk => by simp [hkk]) (fun _ _ => rfl) fun k hk => by
    simpa using ⟨(h.tidy k).1, hn k hk, h.low k hk⟩

theorem Steady.save : Steady s.save ∧ Spares s s.save :=
  h.withStore (fun _ k _ hkk => by simp [hkk]) (fun _ _ => rfl) fun k hk => by
    simpa using ⟨(h.tidy k).1.persisted (h.tidy k).2, (h.tidy k).2, h.low k hk⟩

end

theorem Low.setNextIn (h : s.Low n) (m : Int) : (s.setNextIn m).Low n := by
  intro k hk
  simp only [Session.setNextIn, withStore_regKey] at hk
  rw [Session.setNextIn, withStore_registry hk]
  exact h k hk

private theorem low_reset (s : Session) (b : Bool) (hn : 0 < n) : (s.record (.reset b)).Low n := by
  intro k hk
  simp only [Session.record, withStore_regKey] at hk
  rw [Session.record, withStore_registry hk]
  simpa using hn

section

variable (h : Steady s)
include h

theorem Steady.close : Steady s.close ∧ Spares s s.close :=
  ⟨h.of_eq (by simp) (by simp) (by simpa using h.low), .of_eq (by simp) (by simp)⟩

theorem Steady.setInSeq (env : Env) (hn : s.Low n) : Steady (s.setInSeq env n).1 ∧ Spares s (s.setInSeq env n).1 := by
  unfold Session.setInSeq
  dsimp only
  generalize hs₁ : ({ s with
    inSeqNum := n, pending := s.pending.filter fun seq _ => ¬ seq < n, writes := s.writes + 1 } : Session) = s₁
  have hlow : s₁.Low n := by
    rw [← hs₁]
    exact hn
  have hsteady : Steady s₁ ∧ Spares s s₁ := by
    rw [← hs₁]
    exact ⟨h.of_eq rfl rfl hn, .of_eq rfl rfl⟩
  have hnext := hsteady.1.setNextIn hlow
  cases env.disk s.writes with
  | done =>
    have hdisk := hnext.1.persist (hlow.setNextIn n)
    exact ⟨hdisk.1, (hsteady.2.trans hnext.2).trans hdisk.2⟩
  | failed => exact ⟨hnext.1.close.1, (hsteady.2.trans hnext.2).trans hnext.1.close.2⟩
  | refused => exact ⟨hsteady.1.close.1, hsteady.2.trans hsteady.1.close.2⟩

theorem Steady.resetMemory (b : Bool) :
    Steady ((s.setNextIn 1).record (.reset b)) ∧ Spares s ((s.setNextIn 1).record (.reset b)) := by
  rw [setNextIn_record]
  refine h.withStore (fun _ k _ hkk => by simp [hkk]) (fun _ _ => rfl) fun k hk => ?_
  simpa using ⟨(h.tidy k).1.reset b, Int.lt_of_le_of_lt (h.tidy k).1.last.nonneg (h.low k hk)⟩

theorem Steady.resetStore (env : Env) :
    Steady (s.resetStore env) ∧ Spares s (s.resetStore env) ∧ ∀ n, 0 < n → (s.resetStore env).Low n := by
  unfold Session.resetStore
  dsimp only
  generalize hs₁ : ({ s with writes := s.writes + 1 } : Session) = s₁
  have hsteady : Steady s₁ ∧ Spares s s₁ := by
    rw [← hs₁]
    exact ⟨h.of_eq rfl rfl h.low, .of_eq rfl rfl⟩
  cases env.disk s.writes with
  | done =>
    have hreset := hsteady.1.resetMemory true
    exact ⟨hreset.1, hsteady.2.trans hreset.2, fun n hn => low_reset _ _ hn⟩
  | failed =>
    have hreset := hsteady.1.resetMemory false
    exact ⟨hreset.1, hsteady.2.trans hreset.2, fun n hn => low_reset _ _ hn⟩
  | refused =>
    have hreset := hsteady.1.reset false
    exact ⟨hreset.1, hsteady.2.trans hreset.2, fun n hn => low_reset _ _ hn⟩

theorem Steady.restart (env : Env) (hn : 0 < n) : Steady (s.restart env n).1 ∧ Spares s (s.restart env n).1 := by
  obtain ⟨hsteady, hspares, hlow⟩ := h.resetStore env
  obtain ⟨hset, hspares'⟩ := hsteady.setInSeq env (hlow n hn)
  exact ⟨hset, hspares.trans hspares'⟩

theorem Steady.clearResend : Steady s.clearResend ∧ Spares s s.clearResend := by
  unfold Session.clearResend
  split
  · exact ⟨h.of_eq rfl rfl h.low, .of_eq rfl rfl⟩
  · exact ⟨h, .refl s⟩

theorem Steady.advance (env : Env) (hn : s.inSeqNum ≤ n) :
    Steady (s.advance env n).1 ∧ Spares s (s.advance env n).1 := by
  have hset := h.setInSeq env fun k hk => Int.lt_of_lt_of_le (h.low k hk) hn
  unfold Session.advance
  split <;> rename_i heq <;> rw [heq] at hset
  · exact hset
  · exact ⟨hset.1.clearResend.1, hset.2.trans hset.1.clearResend.2⟩

end

private theorem advance_eq_true (h : s.advance env n = (s', true)) :
    s'.inSeqNum = n ∧ ∀ k, s'.regKey = some k →
      s.regKey = some k ∧ s'.registry.nextIn k = n ∧
        s'.registry.eventsOf k = s.registry.eventsOf k ++ [.persisted n] := by
  have hclear : ∀ t : Session, t.clearResend.registry = t.registry ∧ t.clearResend.regKey = t.regKey ∧
      t.clearResend.inSeqNum = t.inSeqNum := by
    intro t
    unfold Session.clearResend
    split <;> exact ⟨rfl, rfl, rfl⟩
  unfold Session.advance Session.setInSeq at h
  cases hd : env.disk s.writes <;> simp only [hd] at h <;> cases h
  rw [setNextIn_record, (hclear _).1, (hclear _).2.1, (hclear _).2.2]
  refine ⟨by simp, fun k hk => ?_⟩
  rw [withStore_regKey] at hk
  rw [withStore_registry hk]
  exact ⟨hk, by simp, by simp⟩

section

variable (h : Steady s)
include h

theorem Steady.consume (hadv : s.advance env (s.inSeqNum + 1) = (s', true)) :
    Steady (s'.record (.handled s.inSeqNum)) ∧ Spares s (s'.record (.handled s.inSeqNum)) := by
  have hsteady := h.advance env (Int.le_add_one (Int.le_refl s.inSeqNum))
  rw [hadv] at hsteady
  obtain ⟨hin, hstore⟩ := advance_eq_true hadv
  have hrecord := hsteady.1.record (.handled s.inSeqNum) fun k hk => by
    obtain ⟨hk', hnext, hevents⟩ := hstore k hk
    have hlow := h.low k hk'
    have htidy := (hsteady.1.tidy k).1
    rw [hevents] at htidy
    rw [hevents, hnext, hin, lastHandled_handled]
    refine ⟨htidy.handled ?_ ?_, by omega, by omega⟩
    · simpa using hlow
    · rw [durable_persisted]
      omega
  exact ⟨hrecord.1, hsteady.2.trans hrecord.2⟩

theorem Steady.syncInSeq : Steady s.syncInSeq ∧ Spares s s.syncInSeq := by
  unfold Session.syncInSeq
  split
  · exact ⟨h, .refl s⟩
  rename_i k hk
  refine ⟨h.of_eq rfl rfl fun _ hk' => ?_, .of_eq rfl rfl⟩
  cases hk.symm.trans hk'
  exact (h.tidy k).2

theorem Steady.advanceSchedule (env : Env) :
    Steady (s.advanceSchedule env).1 ∧ Spares s (s.advanceSchedule env).1 := by
  unfold Session.advanceSchedule
  split
  · exact ⟨h, .refl s⟩
  · exact h.syncInSeq
  · have hreset := h.resetMemory true
    exact ⟨hreset.1.syncInSeq.1, hreset.2.trans hreset.1.syncInSeq.2⟩
  · dsimp only
    split
    · exact h.resetMemory _
    · exact h.reset _
  · exact ⟨h, .refl s⟩

theorem Steady.send (env : Env) (o : Outbound) : Steady (s.send env o) ∧ Spares s (s.send env o) := by
  have hsent : Steady { s with sent := s.sent + 1 } := h.of_eq rfl rfl h.low
  have hspares : Spares s { s with sent := s.sent + 1 } := .of_eq rfl rfl
  obtain ⟨hsave, hspares'⟩ := hsent.save
  unfold Session.send
  cases env.sends s.sent with
  | queued => exact ⟨hsave.of_eq rfl rfl hsave.low, (hspares.trans hspares').trans (.of_eq rfl rfl)⟩
  | dropped => exact ⟨hsave.close.1, (hspares.trans hspares').trans hsave.close.2⟩
  | unsaved => exact ⟨hsent.close.1, hspares.trans hsent.close.2⟩

theorem Steady.acquire {k} (hacq : s.acquireStore env k = .ok s') : Steady s' ∧ Spares s s' := by
  obtain ⟨hfree, rfl⟩ := acquireStore_eq_ok hacq
  refine ⟨⟨h.tidy, fun k' hk' => ?_, fun k' hk' => ?_⟩, fun k' ha hk' => ?_⟩
  · cases hk'
    simp
  · cases hk'
    exact (h.tidy k).2
  have hne : k' ≠ k := fun heq => by
    rw [heq, hfree] at ha
    cases ha
  exact ⟨rfl, by simpa [update_of_ne hne] using ha, by simpa using Ne.symm hne⟩

end

theorem Atom.steady (h : Atom clean waits s s') (hs : Steady s) : Steady s' ∧ Spares s s' := by
  cases h with
  | adjust h =>
    refine ⟨hs.of_eq h.registry h.regKey ?_, .of_eq h.registry h.regKey⟩
    rw [h.inSeqNum]
    exact hs.low
  | save => exact hs.save
  | set env _ _ hn => exact hs.setInSeq env fun k hk => Int.lt_of_lt_of_le (hs.low k hk) hn
  | advance env _ _ hn => exact hs.advance env hn
  | consume _ _ _ h => exact hs.consume h
  | restart env _ _ hn => exact hs.restart env hn
  | inSessionReset env _ s₁ ok h =>
    have hempty : Steady { s with pending := ∅ } := hs.of_eq rfl rfl hs.low
    obtain ⟨hsteady, hspares⟩ := hempty.restart env (show (0 : Int) < 2 by omega)
    rw [h] at hsteady hspares
    have hspares' : Spares s s₁ := hspares
    cases ok
    · exact ⟨hsteady, hspares'⟩
    · exact ⟨hsteady.of_eq rfl rfl hsteady.low, hspares'.trans (.of_eq rfl rfl)⟩
  | drop | wait => exact ⟨hs.of_eq rfl rfl hs.low, .of_eq rfl rfl⟩
  | request env seq =>
    unfold requestResend
    split
    · exact ⟨hs.of_eq rfl rfl hs.low, .of_eq rfl rfl⟩
    · have hset : Steady { s with resendTo := seq } := hs.of_eq rfl rfl hs.low
      exact hset.send env _
  | acquire _ _ _ _ hacq => exact hs.acquire hacq
  | epoch env => exact hs.advanceSchedule env

theorem Chain.steady (h : Chain clean waits s s') (hs : Steady s) : Steady s' ∧ Spares s s' := by
  induction h with
  | refl => exact ⟨hs, .refl s⟩
  | tail _ hstep ih =>
    obtain ⟨hsteady, hspares⟩ := ih
    obtain ⟨hsteady', hspares'⟩ := hstep.steady hsteady
    exact ⟨hsteady', hspares.trans hspares'⟩

theorem Steady.resetOnRelease (h : Steady s) (env : Env) :
    Steady (s.resetOnRelease env) ∧ Spares s (s.resetOnRelease env) := by
  unfold Session.resetOnRelease
  split
  · have hepoch : ∀ s' err, (if env.schedule.isSome ∧ s.resetAtClose then s.advanceSchedule env else (s, none)) =
        (s', err) → Steady s' ∧ Spares s s' := by
      intro s' err heq
      split at heq
      · have hadv := h.advanceSchedule env
        rwa [heq] at hadv
      · cases heq
        exact ⟨h, .refl s⟩
    split <;> rename_i heq
    · exact hepoch _ _ heq
    obtain ⟨hsteady, hspares⟩ := hepoch _ _ heq
    obtain ⟨hreset, hspares', hlow⟩ := hsteady.resetStore env
    exact ⟨hreset.of_eq rfl rfl (hlow 1 (by omega)), (hspares.trans hspares').trans (.of_eq rfl rfl)⟩
  · exact ⟨h, .refl s⟩

end Session

/-- The session of a connection, with the stores of the process. -/
abbrev World.on (w : World) (s : Session) : Session := { s with registry := w.registry }

/-- What holds in a process at any time. -/
structure World.Good (clean : Prop) (w : World) : Prop where
  tidy : ∀ k, Tidy (w.registry.eventsOf k) ∧ lastHandled (w.registry.eventsOf k) < w.registry.nextIn k
  steady : ∀ i s, w.conns i = some s → (w.on s).Steady
  ready : ∀ i s, w.conns i = some s → (w.on s).Ready clean
  apart : ∀ i j s t k, i ≠ j → w.conns i = some s → w.conns j = some t → s.regKey = some k → t.regKey ≠ some k

namespace World

variable {clean : Prop} {w : World}

theorem Good.spared {i j : Nat} {s s' t} (h : w.Good clean) (hij : i ≠ j) (hi : w.conns i = some s)
    (hj : w.conns j = some t) (hspares : (w.on s).Spares s') (hsteady : s'.Steady) :
    Session.Steady { t with registry := s'.registry } ∧ Session.Ready clean { t with registry := s'.registry } ∧
      ∀ k, t.regKey = some k → s'.regKey ≠ some k := by
  have hown : ∀ k, t.regKey = some k →
      s'.registry.eventsOf k = w.registry.eventsOf k ∧ s'.registry.active k ∧ s'.regKey ≠ some k := fun k hk =>
    hspares k ((h.steady j t hj).active k hk) fun hsk => h.apart i j s t k hij hi hj hsk hk
  have hready := h.ready j t hj
  refine ⟨⟨hsteady.tidy, fun k hk => (hown k hk).2.1, fun k hk => ?_⟩,
    ⟨hready.waiting, fun _ k hk => (hown k hk).2.1, hready.opened, hready.fresh⟩, fun k hk => (hown k hk).2.2⟩
  show lastHandled (s'.registry.eventsOf k) < t.inSeqNum
  rw [(hown k hk).1]
  exact (h.steady j t hj).low k hk

theorem Good.update {i : Nat} {f : Session → Session × Bool} (h : w.Good clean)
    (hf : ∀ s, w.conns i = some s → (w.on s).Chain clean True (f (w.on s)).1) : (w.update i f).Good clean := by
  unfold World.update
  split
  · exact h
  rename_i s hi
  have hchain := hf s hi
  obtain ⟨hsteady, hspares⟩ := hchain.steady (h.steady i s hi)
  have hready := hchain.ready (h.ready i s hi)
  show World.Good clean ⟨(f (w.on s)).1.registry, Function.update w.conns i (some (f (w.on s)).1), _⟩
  generalize (f (w.on s)).1 = s' at *
  have hother : ∀ j t, Function.update w.conns i (some s') j = some t → j = i ∧ t = s' ∨ j ≠ i ∧
      w.conns j = some t := by
    intro j t hj
    by_cases hji : j = i
    · subst hji
      rw [update_self] at hj
      exact .inl ⟨rfl, (Option.some.inj hj).symm⟩
    · rw [update_of_ne hji] at hj
      exact .inr ⟨hji, hj⟩
  refine ⟨hsteady.tidy, fun j t hj => ?_, fun j t hj => ?_, fun j j' t t' k hjj hj hj' hk => ?_⟩
  · rcases hother j t hj with ⟨-, rfl⟩ | ⟨hji, hj⟩
    · exact hsteady
    · exact (h.spared (Ne.symm hji) hi hj hspares hsteady).1
  · rcases hother j t hj with ⟨-, rfl⟩ | ⟨hji, hj⟩
    · exact hready
    · exact (h.spared (Ne.symm hji) hi hj hspares hsteady).2.1
  rcases hother j t hj with ⟨rfl, rfl⟩ | ⟨hji, hold⟩ <;> rcases hother j' t' hj' with ⟨rfl, rfl⟩ | ⟨hji', hold'⟩
  · exact absurd rfl hjj
  · exact fun hk' => (h.spared (Ne.symm hji') hi hold' hspares hsteady).2.2 k hk' hk
  · exact (h.spared (Ne.symm hji) hi hold hspares hsteady).2.2 k hk
  · exact h.apart j j' t t' k hjj hold hold' hk

theorem Good.connect (h : w.Good clean) (i : Nat) : (w.act (.connect i)).Good clean := by
  unfold World.act
  dsimp only
  split
  · rename_i hnone
    have hother : ∀ j t, Function.update w.conns i (some {}) j = some t → t = {} ∨ w.conns j = some t := by
      intro j t hj
      by_cases hji : j = i
      · subst hji
        rw [update_self] at hj
        exact .inl (Option.some.inj hj).symm
      · rw [update_of_ne hji] at hj
        exact .inr hj
    refine ⟨h.tidy, fun j t hj => ?_, fun j t hj => ?_, fun j j' t t' k hjj hj hj' hk => ?_⟩
    · rcases hother j t hj with rfl | hj
      · exact ⟨h.tidy, nofun, nofun⟩
      · exact h.steady j t hj
    · rcases hother j t hj with rfl | hj
      · exact ⟨by simp, nofun, nofun, fun _ _ => rfl⟩
      · exact h.ready j t hj
    rcases hother j t hj with rfl | hj
    · cases hk
    rcases hother j' t' hj' with rfl | hj'
    · exact nofun
    · exact h.apart j j' t t' k hjj hj hj' hk
  · exact h

theorem Good.disconnect (h : w.Good clean) (i : Nat) (env : Env) : (w.act (.disconnect i env)).Good clean := by
  unfold World.act
  dsimp only
  split
  · exact h
  rename_i s hi
  -- What is left of the session is what it did to the stores.
  obtain ⟨hsteady, hspares⟩ := (h.steady i s hi).resetOnRelease env
  have hclose := hsteady.close
  have hspares' := hspares.trans hclose.2
  have hreg : ∀ k, ((w.on s).releaseStore env).eventsOf k = ((w.on s).resetOnRelease env).close.registry.eventsOf
      k := by
    intro k
    unfold Session.releaseStore
    dsimp only
    split <;> rfl
  have hnext : ((w.on s).releaseStore env).nextIn = ((w.on s).resetOnRelease env).close.registry.nextIn := by
    unfold Session.releaseStore
    dsimp only
    split <;> rfl
  have hactive : ∀ k, ((w.on s).resetOnRelease env).close.registry.active k →
      ((w.on s).resetOnRelease env).close.regKey ≠ some k → ((w.on s).releaseStore env).active k := by
    intro k ha hk
    unfold Session.releaseStore
    dsimp only
    split
    · exact ha
    rename_i k' hk'
    have hne : k ≠ k' := fun heq => hk (heq ▸ hk')
    simpa [Registry.release, update_of_ne hne] using ha
  have hother : ∀ j t, Function.update w.conns i none j = some t → i ≠ j ∧ w.conns j = some t := by
    intro j t hj
    by_cases hji : j = i
    · subst hji
      rw [update_self] at hj
      cases hj
    · rw [update_of_ne hji] at hj
      exact ⟨Ne.symm hji, hj⟩
  refine ⟨fun k => ?_, fun j t hj => ?_, fun j t hj => ?_, fun j j' t t' k hjj hj hj' hk => ?_⟩
  · rw [hreg, hnext]
    exact hclose.1.tidy k
  · obtain ⟨hij, hj⟩ := hother j t hj
    obtain ⟨hst, -, hne⟩ := h.spared hij hi hj hspares' hclose.1
    refine ⟨fun k => ?_, fun k hk => hactive k (hst.active k hk) (hne k hk), fun k hk => ?_⟩
    · show Tidy (((w.on s).releaseStore env).eventsOf k) ∧ _ < ((w.on s).releaseStore env).nextIn k
      rw [hreg, hnext]
      exact hclose.1.tidy k
    · show lastHandled (((w.on s).releaseStore env).eventsOf k) < t.inSeqNum
      rw [hreg]
      exact hst.low k hk
  · obtain ⟨hij, hj⟩ := hother j t hj
    obtain ⟨-, hready, hne⟩ := h.spared hij hi hj hspares' hclose.1
    exact ⟨hready.waiting, fun hc k hk => hactive k (hready.active hc k hk) (hne k hk), hready.opened, hready.fresh⟩
  · exact h.apart j j' t t' k hjj (hother j t hj).2 (hother j' t' hj').2 hk

/-- The condition on a frame: what is assumed of its message by the session that takes it. -/
def Admits (clean : Prop) (w : World) : Action → Prop
  | .frame i _ (.ok msg) => ∀ s, w.conns i = some s → s.Takes clean msg
  | _ => True

theorem Good.act (h : w.Good clean) (a : Action) (ha : w.Admits clean a) : (w.act a).Good clean := by
  cases a with
  | connect i => exact h.connect i
  | frame i env frame =>
    unfold World.act
    dsimp only
    split
    · refine h.update fun s hi => Session.read_chain env frame (h.ready i s hi) fun _ hmsg => ?_
      subst hmsg
      have htakes := ha s hi
      exact ⟨htakes.bounded, htakes.identity, htakes.logon⟩
    · exact h
  | send i env o => exact h.update (f := fun s => (s.send env o, w.reading i)) fun s _ => Session.send_chain env o _
  | logout i env reason =>
    exact h.update (f := fun s => (s.logout env reason, w.reading i)) fun s _ => Session.logout_chain env reason _
  | endOfSchedule i env =>
    exact h.update (f := fun s => (s.endOfSchedule env, w.reading i)) fun s _ => Session.endOfSchedule_chain env _
  | close i => exact h.update (f := fun s => (s.close, w.reading i)) fun s _ => Session.close_chain _
  | disconnect i env => exact h.disconnect i env

private theorem good_boot {events} (h : ∀ k, Tidy ((Registry.eventsOf { events }) k)) :
    (boot events).Good clean where
  tidy := fun k => ⟨h k, (h k).last.durable⟩
  steady := fun _ _ hi => absurd hi (by simp [boot])
  ready := fun _ _ hi => absurd hi (by simp [boot])
  apart := fun _ _ _ _ _ _ hi => absurd hi (by simp [boot])

private theorem tidy_resets {events} (h : ∀ k, Tidy ((Registry.eventsOf { events }) k))
    (resets : List SessionKey) (k : SessionKey) :
    Tidy ((Registry.eventsOf { events := events ++ resets.map fun k => (k, .reset true) }) k) := by
  induction resets using List.reverseRecOn with
  | nil => simpa using h k
  | append_singleton resets k' ih =>
    have hrecord := Registry.eventsOf_record
      { events := events ++ resets.map fun k => (k, .reset true) } k' k (.reset true)
    unfold Registry.record at hrecord
    rw [map_append, ← append_assoc]
    refine hrecord.symm ▸ ?_
    split
    · exact ih.reset true
    · exact ih

theorem Good.kill (h : w.Good clean) (written : Nat) (resets : List SessionKey) :
    (boot (w.registry.events.take written ++ resets.map fun k => (k, .reset true))).Good clean := by
  refine good_boot (tidy_resets (fun k => (h.tidy k).1.cut ?_) resets)
  exact (List.take_prefix _ _).filterMap _

theorem good_init : ({} : World).Good clean := @good_boot clean [] fun _ => .nil

/-- The number of an inbound message can be increased. -/
def numberBounded : Action → Bool
  | .frame _ _ (.ok msg) => atoi (msg.get 34) ≠ some maxInt
  | _ => true

def actionOf : Move → Action
  | .act a => a
  | .kill during _ _ => during

private theorem good_after (moves : List Move) (h : ∀ m ∈ moves, numberBounded (actionOf m)) :
    (after moves).Good False := by
  unfold after
  induction moves using List.reverseRecOn with
  | nil => exact good_init
  | append_singleton moves m ih =>
    rw [foldl_append]
    have hgood := ih fun m' hm' => h m' (mem_append_left _ hm')
    have hbounded := h m (by simp)
    have hact : (World.act (actionOf m) (moves.foldl move {})).Good False := by
      apply hgood.act
      generalize actionOf m = a at *
      unfold Admits
      split
      · intro s _
        exact ⟨by simpa [numberBounded] using hbounded, nofun, nofun⟩
      · trivial
    cases m with
    | act => exact hact
    | kill _ _ resets => exact hact.kill _ resets

/-- If no inbound message has the largest `int`, application messages are handled in order, at most once between
resets, and each after the disk expects a greater number. -/
theorem handled_exactly_once (moves : List Move) (h : ∀ m ∈ moves, numberBounded (actionOf m)) (k : SessionKey) :
    ExactlyOnce ((after moves).registry.eventsOf k) :=
  ((good_after moves h).tidy k).1.once

def sampleEnv : Env := { senderCompID := text "BRIDGE" }

def sampleKey : SessionKey := ⟨text "FIX.4.4", text "BRIDGE", text "CLIENT"⟩

def clientMessage (msgType : String) (seq : Int) (fields : List Field) : Message :=
  ⟨[⟨8, text "FIX.4.4"⟩, ⟨35, text msgType⟩, ⟨49, text "CLIENT"⟩, ⟨56, text "BRIDGE"⟩, ⟨34, itoa seq⟩,
    ⟨52, text "20240101-00:00:00"⟩] ++ fields⟩

def clientFrame (msgType : String) (seq : Int) (fields : List Field) : Action :=
  .frame 0 sampleEnv (.ok (clientMessage msgType seq fields))

def orderFields : List Field :=
  [⟨11, text "1"⟩, ⟨55, text "EURUSD"⟩, ⟨54, text "1"⟩, ⟨60, text "20240101-00:00:00"⟩, ⟨38, text "1"⟩, ⟨40, text "1"⟩]

/-- Message 4 comes before 3, which comes twice; a GapFill skips to 8, which a kill keeps from being handled. -/
def sampleMoves : List Move :=
  [.act (.connect 0), .act (clientFrame "A" 1 [⟨98, text "0"⟩, ⟨108, text "30"⟩]),
    .act (clientFrame "D" 2 orderFields), .act (clientFrame "D" 4 orderFields), .act (clientFrame "D" 3 orderFields),
    .act (clientFrame "D" 3 (⟨43, text "Y"⟩ :: ⟨122, text "20240101-00:00:00"⟩ :: orderFields)),
    .act (clientFrame "4" 5 [⟨123, text "Y"⟩, ⟨36, text "8"⟩]), .kill (clientFrame "D" 8 orderFields) 1 [],
    .act (.connect 0), .act (clientFrame "A" 9 [⟨98, text "0"⟩, ⟨108, text "30"⟩]),
    .act (clientFrame "D" 10 orderFields)]

theorem handled_exactly_once_sample :
    ((after sampleMoves).registry.eventsOf sampleKey).filter (fun e => e matches .handled _) =
        [.handled 2, .handled 3, .handled 4, .handled 10] ∧
      ExactlyOnce ((after sampleMoves).registry.eventsOf sampleKey) :=
  ⟨by decide +kernel, handled_exactly_once sampleMoves (by decide +kernel) sampleKey⟩

/-- A SequenceReset sets the largest number, and the message with that number is consumed: the next number wraps. -/
def wrapMoves : List Move :=
  [.act (.connect 0), .act (clientFrame "A" 1 [⟨98, text "0"⟩, ⟨108, text "30"⟩]),
    .act (clientFrame "4" 2 [⟨36, itoa maxInt⟩]), .act (clientFrame "D" maxInt orderFields)]

/-- Message `2 ^ 63 - 1` is handled when the disk expects a number below it. -/
theorem handled_after_wrap : ¬ ExactlyOnce ((after wrapMoves).registry.eventsOf sampleKey) := by
  have hevents : (after wrapMoves).registry.eventsOf sampleKey =
      [.persisted 2, .persisted 2, .persisted maxInt, .persisted (-2 ^ 63)] ++ [.handled maxInt] := by decide +kernel
  intro h
  exact absurd (h _ _ [] hevents).2 (by decide)

end World

end Fxp.Fix

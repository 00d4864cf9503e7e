import Fxp.Lib.Maps

/-!
# Market-data requests

The bridge records which `MarketDataRequest`s are owed a snapshot or updates of a symbol. Every operation holds the
mutex to its end, so an interleaving of the FIX session and the gateway loop is a list of whole operations.
-/

namespace Fxp.Fix

open List Function

/-- One request for one symbol; `stream` asks for updates behind the snapshot. -/
structure MdRequest where
  id : String
  stream : Bool
  needSnapshot : Bool
deriving DecidableEq

structure MdSubscriptions where
  bySym : Std.ExtTreeMap String (List MdRequest) := ∅

namespace MdSubscriptions

def requests (s : MdSubscriptions) (sym : String) : List MdRequest := s.bySym[sym]?.getD []

/-- A symbol without requests is not in the map. -/
def setLocked (sym : String) (reqs : List MdRequest) (s : MdSubscriptions) : MdSubscriptions :=
  ⟨if reqs = [] then s.bySym.erase sym else s.bySym.insert sym reqs⟩

/-- The lists that a `subscribe` has replaced, as its `undo` holds them, each key once. -/
abbrev Saved := List (String × List MdRequest)

/-- One round of the loop of `subscribe`. -/
def subscribeTo (reqID : String) (stream : Bool) (p : MdSubscriptions × Saved) (sym : String) :
    MdSubscriptions × Saved :=
  let reqs := (p.1.requests sym).filter (·.id ≠ reqID)
  (⟨p.1.bySym.insert sym (reqs ++ [{ id := reqID, stream := stream, needSnapshot := true }])⟩,
    if p.2.any (·.1 = sym) then p.2 else p.2 ++ [(sym, p.1.requests sym)])

def subscribe (reqID : String) (stream : Bool) (symbols : List String) (s : MdSubscriptions) :
    MdSubscriptions × Saved :=
  symbols.foldl (subscribeTo reqID stream) (s, [])

def undo (prev : Saved) (s : MdSubscriptions) : MdSubscriptions := prev.foldl (fun s p => s.setLocked p.1 p.2) s

/-- The loop runs over the map once, and each round changes the entry of its own key. -/
def unsubscribe (reqID : String) (symbols : List String) (s : MdSubscriptions) : MdSubscriptions :=
  ⟨s.bySym.filterMap fun sym reqs =>
    if symbols ≠ [] ∧ sym ∉ symbols then some reqs
    else if reqs.filter (·.id ≠ reqID) = [] then none else some (reqs.filter (·.id ≠ reqID))⟩

/-- What is left of a request when a snapshot is sent. -/
def serve (r : MdRequest) : Option MdRequest :=
  if r.needSnapshot then if r.stream then some { r with needSnapshot := false } else none else some r

def snapshotTargets (symbol : String) (s : MdSubscriptions) : List String × MdSubscriptions :=
  (((s.requests symbol).filter (·.needSnapshot)).map (·.id), s.setLocked symbol ((s.requests symbol).filterMap serve))

def incrementalTargets (symbol : String) (s : MdSubscriptions) : List String :=
  ((s.requests symbol).filter fun r => r.stream && !r.needSnapshot).map (·.id)

def others (reqID : String) (reqs : List MdRequest) : List MdRequest := reqs.filter (·.id ≠ reqID)

variable {s : MdSubscriptions} {reqID sym : String} {stream : Bool} {symbols : List String}

private theorem requests_setLocked (sym' : String) (reqs : List MdRequest) :
    (s.setLocked sym' reqs).requests sym = if sym' = sym then reqs else s.requests sym := by
  unfold setLocked requests
  by_cases hsym : sym' = sym
  · subst hsym
    split <;> simp_all
  · split <;> simp [hsym]

private theorem requests_unsubscribe : (s.unsubscribe reqID symbols).requests sym =
    if symbols ≠ [] ∧ sym ∉ symbols then s.requests sym else others reqID (s.requests sym) := by
  simp only [requests, unsubscribe, Std.ExtTreeMap.getElem?_filterMap', others]
  rcases s.bySym[sym]? with _ | _
  · simp
  rw [Option.bind_some]
  split
  · rfl
  · split <;> simp_all

/-- What `undo` sets the list of `sym` to. -/
def Saved.restored (prev : Saved) (sym : String) : Option (List MdRequest) :=
  prev.foldl (fun reqs q => if q.1 = sym then some q.2 else reqs) none

theorem Saved.foldl_restored (prev : Saved) (reqs : Option (List MdRequest)) :
    prev.foldl (fun reqs q => if q.1 = sym then some q.2 else reqs) reqs = (prev.restored sym).or reqs := by
  unfold restored
  induction prev generalizing reqs with
  | nil => rfl
  | cons q _ ih =>
    rw [foldl_cons, foldl_cons, ih, ih (if q.1 = sym then some q.2 else none)]
    split <;> simp

private theorem requests_undo (prev : Saved) :
    (s.undo prev).requests sym = (prev.restored sym).getD (s.requests sym) := by
  induction prev generalizing s with
  | nil => rfl
  | cons q prev ih =>
    have hcons : Saved.restored (q :: prev) sym = _ := Saved.foldl_restored prev (if q.1 = sym then some q.2 else none)
    rw [undo, foldl_cons, ← undo, ih, requests_setLocked, hcons]
    cases Saved.restored prev sym <;> split <;> rfl

theorem Saved.isSome_restored (prev : Saved) : (prev.restored sym).isSome = prev.any (·.1 = sym) := by
  induction prev with
  | nil => rfl
  | cons _ _ ih =>
    rw [restored, foldl_cons, foldl_restored, Option.isSome_or, ih, any_cons, Bool.or_comm]
    split <;> simp [*]

/-- A list of requests with a new one in the place of those with its id. -/
def renewed (reqID : String) (stream : Bool) (reqs : List MdRequest) : List MdRequest :=
  others reqID reqs ++ [{ id := reqID, stream := stream, needSnapshot := true }]

private theorem renewed_renewed (reqs : List MdRequest) :
    renewed reqID stream (renewed reqID stream reqs) = renewed reqID stream reqs := by
  simp [renewed, others]

private theorem subscribeTo_spec (p : MdSubscriptions × Saved) (sym' : String) :
    (subscribeTo reqID stream p sym').1.requests sym =
        (if sym' = sym then renewed reqID stream (p.1.requests sym) else p.1.requests sym) ∧
      (subscribeTo reqID stream p sym').2.restored sym =
        if sym' = sym then some ((p.2.restored sym).getD (p.1.requests sym)) else p.2.restored sym := by
  unfold subscribeTo
  constructor
  · simp only [requests, Maps.getElem?_insert]
    split
    · rename_i hsym
      rw [hsym]
      rfl
    · rfl
  · dsimp only
    rw [← Saved.isSome_restored]
    by_cases hsym : sym' = sym
    · subst hsym
      cases hprev : p.2.restored sym' with
      | none => simp [Saved.restored]
      | some => simpa using hprev
    · rw [if_neg hsym]
      split
      · rfl
      · simp [Saved.restored, hsym]

/-- `subscribe` renews the lists of its symbols, and its `undo` sets them back. -/
theorem subscribe_spec :
    (s.subscribe reqID stream symbols).1.requests sym =
        (if sym ∈ symbols then renewed reqID stream (s.requests sym) else s.requests sym) ∧
      (s.subscribe reqID stream symbols).2.restored sym = if sym ∈ symbols then some (s.requests sym) else none := by
  -- the first round of the symbol saves its list; a later one takes out what that has put in
  have hloop : ∀ (symbols : List String) (p : MdSubscriptions × Saved) (seen : Prop) [Decidable seen],
      p.1.requests sym = (if seen then renewed reqID stream (s.requests sym) else s.requests sym) →
      p.2.restored sym = (if seen then some (s.requests sym) else none) →
      (symbols.foldl (subscribeTo reqID stream) p).1.requests sym =
          (if seen ∨ sym ∈ symbols then renewed reqID stream (s.requests sym) else s.requests sym) ∧
        (symbols.foldl (subscribeTo reqID stream) p).2.restored sym =
          if seen ∨ sym ∈ symbols then some (s.requests sym) else none := by
    intro symbols
    induction symbols with
    | nil =>
      intro p seen _ hreqs hprev
      simpa using ⟨hreqs, hprev⟩
    | cons sym' _ ih =>
      intro p seen _ hreqs hprev
      obtain ⟨hreqs', hprev'⟩ := @subscribeTo_spec reqID sym stream p sym'
      have := ih (subscribeTo reqID stream p sym') (seen ∨ sym' = sym) ?_ ?_
      · simpa [or_assoc, eq_comm] using this
      · rw [hreqs', hreqs]
        by_cases hseen : seen <;> by_cases hsym : sym' = sym <;> simp [hseen, hsym, renewed_renewed]
      · rw [hprev', hprev, hreqs]
        by_cases hseen : seen <;> by_cases hsym : sym' = sym <;> simp [hseen, hsym]
  have hall := hloop symbols (s, []) False rfl rfl
  simp only [false_or] at hall
  exact hall

/-- The request is recorded for exactly these symbols, once each, and owed a snapshot. -/
def Recorded (s : MdSubscriptions) (reqID : String) (stream : Bool) (symbols : List String) : Prop :=
  ∀ sym, (s.requests sym).filter (·.id = reqID) =
    if sym ∈ symbols then [{ id := reqID, stream := stream, needSnapshot := true }] else []

/-- A new request is recorded for exactly its symbols if and only if no earlier one with its id is recorded for
another symbol; and then nothing of another symbol is sent under this id. -/
theorem subscribe_recorded_iff (s : MdSubscriptions) (reqID : String) (stream : Bool) (symbols : List String) :
    ((s.subscribe reqID stream symbols).1.Recorded reqID stream symbols ↔
      ∀ sym, sym ∉ symbols → ∀ r ∈ s.requests sym, r.id ≠ reqID) ∧
    ((s.subscribe reqID stream symbols).1.Recorded reqID stream symbols → ∀ sym, sym ∉ symbols →
      reqID ∉ ((s.subscribe reqID stream symbols).1.snapshotTargets sym).1 ∧
        reqID ∉ (s.subscribe reqID stream symbols).1.incrementalTargets sym) := by
  refine ⟨⟨fun h sym hsym r hr hid => ?_, fun h sym => ?_⟩, fun hrecorded sym hsym => ?_⟩
  · have hnone := h sym
    rw [subscribe_spec.1, if_neg hsym, if_neg hsym, filter_eq_nil_iff] at hnone
    exact hnone r hr (by simpa using hid)
  · rw [subscribe_spec.1]
    split
    · simp [renewed, others]
    · rename_i hsym
      exact filter_eq_nil_iff.mpr fun r hr => by simpa using h sym hsym r hr
  · have hnone := hrecorded sym
    rw [if_neg hsym, filter_eq_nil_iff] at hnone
    constructor <;>
    · intro hmem
      obtain ⟨r, hr, hid⟩ := mem_map.mp hmem
      exact hnone r (mem_filter.mp hr).1 (by simpa using hid)

/-- A request for `A`, replaced by one for `B` under the same id, goes on with updates of `A`. -/
theorem replaced_request_stays : ∃ s : MdSubscriptions,
    s = (((({} : MdSubscriptions).subscribe "R" true ["A"]).1.snapshotTargets "A").2.subscribe "R" true ["B"]).1 ∧
      ¬ s.Recorded "R" true ["B"] ∧ s.incrementalTargets "A" = ["R"] := by
  refine ⟨_, rfl, fun h => ?_, by decide⟩
  have := h "A"
  revert this
  decide

end MdSubscriptions

open MdSubscriptions

/-- The operations; a `subscribe` and its `undo` have a number in common, which no other pair has. -/
inductive MdAction
  | subscribe (call : Nat) (reqID : String) (stream : Bool) (symbols : List String)
  | undo (call : Nat)
  | unsubscribe (reqID : String) (symbols : List String)
  | snapshotTargets (symbol : String)
  | incrementalTargets (symbol : String)

def MdAction.call : MdAction → Option Nat
  | .subscribe call .. | .undo call => some call
  | _ => none

/-- The subscriptions, and what each `undo` that has not been called holds. -/
structure MdState where
  subs : MdSubscriptions := {}
  undos : Nat → Saved := fun _ => []

variable (s : MdState)

def MdState.step : MdAction → MdState
  | .subscribe call reqID stream symbols =>
    let (subs, prev) := s.subs.subscribe reqID stream symbols
    ⟨subs, update s.undos call prev⟩
  | .undo call => ⟨s.subs.undo (s.undos call), update s.undos call []⟩
  | .unsubscribe reqID symbols => { s with subs := s.subs.unsubscribe reqID symbols }
  | .snapshotTargets symbol => { s with subs := (s.subs.snapshotTargets symbol).2 }
  | .incrementalTargets _ => s

def MdState.run (actions : List MdAction) : MdState := actions.foldl MdState.step s

structure SymView where
  reqs : List MdRequest
  undos : Nat → Option (List MdRequest)

def MdState.view (sym : String) : SymView := ⟨s.subs.requests sym, fun u => (s.undos u).restored sym⟩

def SymView.step (sym : String) (v : SymView) : MdAction → SymView
  | .subscribe call reqID stream symbols =>
    if sym ∈ symbols then ⟨renewed reqID stream v.reqs, update v.undos call (some v.reqs)⟩
    else ⟨v.reqs, update v.undos call none⟩
  | .undo call => ⟨(v.undos call).getD v.reqs, update v.undos call none⟩
  | .unsubscribe reqID symbols =>
    if symbols ≠ [] ∧ sym ∉ symbols then v else ⟨others reqID v.reqs, v.undos⟩
  | .snapshotTargets symbol => if symbol = sym then ⟨v.reqs.filterMap serve, v.undos⟩ else v
  | .incrementalTargets _ => v

theorem MdState.view_step (a : MdAction) (sym : String) : (s.step a).view sym = (s.view sym).step sym a := by
  have hupdate : ∀ (call : Nat) (prev : Saved), (fun u => (update s.undos call prev u).restored sym) =
      update (s.view sym).undos call (prev.restored sym) := by
    intro call prev
    funext u
    rw [update_apply, update_apply]
    split <;> rfl
  cases a with
  | subscribe call reqID stream symbols =>
    obtain ⟨hreqs, hprev⟩ := @subscribe_spec s.subs reqID sym stream symbols
    show SymView.mk (s.subs.subscribe reqID stream symbols |>.1.requests sym)
      (fun u => (update s.undos call (s.subs.subscribe reqID stream symbols).2 u).restored sym) = _
    rw [hupdate, hprev, hreqs]
    unfold SymView.step
    dsimp only
    split <;> rfl
  | undo call =>
    show SymView.mk _ (fun u => (update s.undos call [] u).restored sym) = _
    rw [hupdate, show (s.step (.undo call)).subs.requests sym = _ from requests_undo _]
    rfl
  | unsubscribe reqID symbols =>
    show SymView.mk ((s.subs.unsubscribe reqID symbols).requests sym) _ = _
    rw [requests_unsubscribe]
    unfold SymView.step
    dsimp only
    split <;> rfl
  | snapshotTargets symbol =>
    show SymView.mk ((s.subs.setLocked symbol _).requests sym) _ = _
    rw [requests_setLocked]
    unfold SymView.step
    dsimp only
    split
    · rename_i hsym
      rw [hsym]
      rfl
    · rfl
  | incrementalTargets => rfl

/-- Two views that differ in requests with the id `reqID` and in the `undo` of one call at most. -/
structure Alike (reqID : String) (call : Nat) (v v' : SymView) : Prop where
  reqs : others reqID v.reqs = others reqID v'.reqs
  undos : ∀ u, u ≠ call → (v.undos u).map (others reqID) = (v'.undos u).map (others reqID)

section alike

variable {reqID sym : String} {call : Nat} {v v' : SymView}

private theorem others_comm (reqID' : String) (reqs : List MdRequest) :
    others reqID (others reqID' reqs) = others reqID' (others reqID reqs) := by
  rw [others, others, others, others, filter_filter, filter_filter]
  exact filter_congr fun _ _ => Bool.and_comm ..

private theorem others_serve (reqs : List MdRequest) :
    others reqID (reqs.filterMap serve) = (others reqID reqs).filterMap serve := by
  rw [others, others, filter_filterMap, filterMap_filter]
  refine filterMap_congr fun _ _ => ?_
  unfold serve
  split_ifs <;> simp_all

theorem Alike.step (h : Alike reqID call v v') (a : MdAction) (ha : a.call ≠ some call) :
    Alike reqID call (v.step sym a) (v'.step sym a) := by
  have hundos : ∀ (u : Nat) (r r' : Option (List MdRequest)), r.map (others reqID) = r'.map (others reqID) →
      ∀ u', u' ≠ call →
      (update v.undos u r u').map (others reqID) = (update v'.undos u r' u').map (others reqID) := by
    intro u r r' hr u' hu'
    rw [update_apply, update_apply]
    split
    · exact hr
    · exact h.undos u' hu'
  cases a with
  | subscribe u reqID' stream =>
    unfold SymView.step
    dsimp only
    split
    · refine ⟨?_, hundos u _ _ (congrArg some h.reqs)⟩
      have happend : ∀ l, others reqID (renewed reqID' stream l) = others reqID' (others reqID l) ++ others reqID [_] :=
        fun l => (filter_append ..).trans (congrArg (· ++ _) (others_comm reqID' l))
      rw [happend, happend, h.reqs]
    · exact ⟨h.reqs, hundos u none none rfl⟩
  | undo u =>
    refine ⟨?_, hundos u none none rfl⟩
    have hu := h.undos u fun heq => ha (congrArg some heq)
    have hget : ∀ w : SymView, others reqID ((w.undos u).getD w.reqs) =
        ((w.undos u).map (others reqID)).getD (others reqID w.reqs) := fun w => by cases w.undos u <;> rfl
    exact (hget v).trans (by rw [hu, h.reqs, ← hget v']; rfl)
  | unsubscribe reqID' =>
    unfold SymView.step
    dsimp only
    split
    · exact h
    · exact ⟨by rw [others_comm, others_comm reqID', h.reqs], h.undos⟩
  | snapshotTargets =>
    unfold SymView.step
    dsimp only
    split
    · exact ⟨by rw [others_serve, others_serve, h.reqs], h.undos⟩
    · exact h
  | incrementalTargets => exact h

end alike

/-- The state behind a `subscribe`, other operations and its `undo`. -/
def MdState.undone (call : Nat) (reqID : String) (stream : Bool) (symbols : List String)
    (between : List MdAction) : MdState :=
  (s.run (.subscribe call reqID stream symbols :: between)).step (.undo call)

/-- With and without a `subscribe`, other operations lead to states that differ in its requests only. -/
theorem MdState.run_alike {call : Nat} {s s' : MdState} {reqID sym : String} (between : List MdAction)
    (hcalls : ∀ a ∈ between, a.call ≠ some call) (h : Alike reqID call (s.view sym) (s'.view sym)) :
    Alike reqID call ((s.run between).view sym) ((s'.run between).view sym) ∧
      ((s.run between).view sym).undos call = (s.view sym).undos call := by
  induction between generalizing s s' with
  | nil => exact ⟨h, rfl⟩
  | cons a _ ih =>
    have ha := hcalls a mem_cons_self
    have hstep := @Alike.step reqID sym call _ _ h a ha
    rw [← view_step, ← view_step] at hstep
    obtain ⟨halike, hundo⟩ := ih (fun b hb => hcalls b (mem_cons_of_mem _ hb)) hstep
    refine ⟨halike, hundo.trans ?_⟩
    rw [view_step]
    cases a with
    | subscribe u =>
      have hu : call ≠ u := fun heq => ha (congrArg some heq.symm)
      unfold SymView.step
      dsimp only
      split <;> exact update_of_ne hu ..
    | undo => exact update_of_ne (fun heq => ha (congrArg some heq.symm)) ..
    | _ =>
      unfold SymView.step
      first | rfl | (dsimp only; split <;> rfl)

/-- A `subscribe` and its `undo` spare the requests with other ids if and only if, when `undo` begins, those of the
symbols that it sets back are as they were; and then it brings none of them back. -/
theorem undo_spares_others_iff (call : Nat) (reqID : String) (stream : Bool) (symbols : List String)
    (between : List MdAction) (hcalls : ∀ a ∈ between, a.call ≠ some call) :
    ((∀ sym, others reqID ((s.undone call reqID stream symbols between).subs.requests sym) =
        others reqID ((s.run between).subs.requests sym)) ↔
      ∀ sym ∈ symbols, others reqID ((s.run (.subscribe call reqID stream symbols :: between)).subs.requests sym) =
        others reqID (s.subs.requests sym)) ∧
    ((∀ sym, others reqID ((s.undone call reqID stream symbols between).subs.requests sym) =
        others reqID ((s.run between).subs.requests sym)) →
      ∀ sym, others reqID ((s.undone call reqID stream symbols between).subs.requests sym) =
        others reqID ((s.run (.subscribe call reqID stream symbols :: between)).subs.requests sym)) := by
  obtain ⟨s₁, hs₁⟩ : ∃ s₁, s₁ = s.step (.subscribe call reqID stream symbols) := ⟨_, rfl⟩
  have hrun : s.run (.subscribe call reqID stream symbols :: between) = s₁.run between := by rw [hs₁]; rfl
  have hview : ∀ sym, Alike reqID call (s₁.view sym) (s.view sym) ∧
      (s₁.view sym).undos call = if sym ∈ symbols then some (s.subs.requests sym) else none := by
    intro sym
    rw [hs₁, MdState.view_step]
    unfold SymView.step
    dsimp only
    split
    · exact ⟨⟨by simp [renewed, others], fun u hu => congrArg _ (update_of_ne hu ..)⟩, update_self ..⟩
    · exact ⟨⟨rfl, fun u hu => congrArg _ (update_of_ne hu ..)⟩, update_self ..⟩
  have halike := fun sym => (MdState.run_alike between hcalls (hview sym).1).1.reqs
  have hundone : ∀ sym, (s.undone call reqID stream symbols between).subs.requests sym =
      if sym ∈ symbols then s.subs.requests sym else (s₁.run between).subs.requests sym := by
    intro sym
    have hundo := congrArg SymView.reqs ((s₁.run between).view_step (.undo call) sym)
    rw [MdState.undone, hrun]
    refine hundo.trans ?_
    show (((s₁.run between).view sym).undos call).getD _ = _
    rw [(MdState.run_alike between hcalls (hview sym).1).2, (hview sym).2]
    split <;> rfl
  rw [hrun]
  refine ⟨⟨fun h sym hsym => ?_, fun h sym => ?_⟩, fun h sym => (h sym).trans (halike sym).symm⟩
  · rw [show others reqID ((s₁.run between).subs.requests sym) = _ from halike sym]
    refine (h sym).symm.trans ?_
    rw [hundone, if_pos hsym]
  rw [hundone]
  split
  · rename_i hsym
    exact (h sym hsym).symm.trans (halike sym)
  · exact halike sym

/-- The snapshot-only request `A` is served while `B` is on its way; it comes back when `B` is undone, for a second
snapshot. -/
theorem undo_brings_back_served : ∃ s : MdState, s = MdState.run {} [.subscribe 0 "A" false ["S"]] ∧
    ((s.run [.subscribe 1 "B" false ["S"]]).subs.snapshotTargets "S").1 = ["A", "B"] ∧
    (s.run [.snapshotTargets "S"]).subs.requests "S" = [] ∧
    (s.undone 1 "B" false ["S"] [.snapshotTargets "S"]).subs.requests "S" = [⟨"A", false, true⟩] ∧
    ((s.undone 1 "B" false ["S"] [.snapshotTargets "S"]).subs.snapshotTargets "S").1 = ["A"] :=
  ⟨_, rfl, by decide, by decide, by decide, by decide⟩

/-- While `B` is on its way a request for another symbol is served, and one is added. -/
theorem undo_spares_others_elsewhere : ∃ (s : MdState) (between : List MdAction),
    s.subs.requests "S" = [⟨"A", false, true⟩] ∧ s.subs.requests "T" = [⟨"A", false, true⟩] ∧
    (s.run between).subs.requests "T" = [⟨"C", true, true⟩] ∧
    ∀ sym, others "B" ((s.undone 1 "B" true ["S"] between).subs.requests sym) =
      others "B" ((s.run between).subs.requests sym) := by
  refine ⟨MdState.run {} [.subscribe 0 "A" false ["S", "T"]], [.snapshotTargets "T", .subscribe 2 "C" true ["T"]],
    by decide, by decide, by decide, ?_⟩
  refine (undo_spares_others_iff _ 1 "B" true ["S"] _ (by decide)).1.mpr fun sym hsym => ?_
  rw [mem_singleton.mp hsym]
  decide

end Fxp.Fix

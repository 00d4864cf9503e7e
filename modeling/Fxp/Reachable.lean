import Fxp.RequestSteps

/-!
# Runs

A call is two paths, one of its tick and one of its request, and between calls the engine is sound. `Run.invariant` is
the rule by which an invariant of the steps becomes an invariant of runs.
-/

namespace Fxp

open Checked

variable {R : Type}
variable {e e' e₀ : Engine R} {c c' : Call R} {x : Context R} {ok : Engine R → Engine R → Op R → Prop}

/-- The traits of the live orders of an engine. -/
def Engine.Holds (e : Engine R) (t : Traits) : Prop :=
  ∃ id pl, ∃ o ∈ (idle false { engine := e }).slot id pl, o.traits = t

/-- The context of a request, or of a tick, that an engine begins to handle. -/
def Engine.context (e : Engine R) (request : Option (Op R)) : Context R :=
  { request := request, start := e, known := fun t => e.Holds t ∨ ∃ op, request = some op ∧ op.brings e t }

theorem Engine.context_complete (e : Engine R) (request : Option (Op R)) : (e.context request).Complete :=
  fun op _ hreq hbrings => .inr ⟨op, hreq, hbrings⟩

/-- The invariant of an engine between two calls. -/
def Engine.Sound (e : Engine R) : Prop := Inv (e.context none) (idle false { engine := e })

/-- The engines differ in their status history at most. -/
def Engine.SameMarket (e e' : Engine R) : Prop :=
  e' = { e with statusHistory := e'.statusHistory, terminalHistory := e'.terminalHistory }

theorem Engine.SameMarket.refl (e : Engine R) : e.SameMarket e := rfl

theorem Engine.SameMarket.trans {e₁ e₂ e₃ : Engine R} (h₁ : e₁.SameMarket e₂) (h₂ : e₂.SameMarket e₃) :
    e₁.SameMarket e₃ := by
  rw [SameMarket, h₂, h₁]

theorem Engine.SameMarket.slot (h : c.engine.SameMarket c'.engine) (a b : Bool) (id : String) (pl : Place) :
    (idle b c').slot id pl = (idle a c).slot id pl := by
  refine @Progress.slot_congr R (idle a c) (idle b c') ?_ ?_ ?_ ?_ rfl id pl <;>
    simp only [idle] <;> rw [h]

/-- The invariant depends on the containers and on the traits that are known in them. -/
theorem Inv.transfer {y} {a b : Bool} (h : Inv x (idle a c))
    (hengine : c.engine.SameMarket c'.engine)
    (hknown : ∀ id pl, ∀ o ∈ (idle a c).slot id pl, y.known o.traits) : Inv y (idle b c') := by
  have hslot : ∀ id pl, (idle b c').slot id pl = (idle a c).slot id pl := hengine.slot a b
  have hstates : c'.engine.states = c.engine.states := by rw [hengine]
  refine ⟨?_, ?_, ?_, fun id => ?_⟩
  · simp only [idle]
    rw [hengine]
    exact h.book
  · simp only [idle]
    rw [hengine]
    exact h.stp
  · simp only [idle]
    rw [hengine]
    exact h.calls
  cases h.tracked id with
  | absent hs ht =>
    exact .absent (fun pl => (hslot id pl).trans (hs pl)) (by rw [← ht]; exact congrArg (·[id]?) hstates)
  | @live pl o _ hs ht hagrees hholds =>
    refine .live (fun pl' => (hslot id pl').trans (hs pl')) (by rw [← ht]; exact congrArg (·[id]?) hstates)
      hagrees hholds (hknown id pl o ?_)
    rw [hs pl, if_pos rfl]
    exact List.mem_singleton_self o

theorem Inv.sound {a : Bool} (h : Inv x (idle a c)) : c.engine.Sound :=
  h.transfer (.refl _) fun id pl o ho => .inl ⟨id, pl, o, ho, rfl⟩

theorem Engine.Sound.inv (h : e.Sound) (request : Option (Op R)) (out : List (Output R)) :
    Inv (e.context request) (idle false { engine := e, out := out }) :=
  h.transfer (.refl _) fun id pl o ho => .inl ⟨id, pl, o, ho, rfl⟩

theorem Engine.Sound.sameMarket (h : e.Sound) (he : e.SameMarket e') : e'.Sound :=
  have hinv : Inv (e.context none) (idle false { engine := e' }) := by
    refine h.transfer ?_ fun id pl o ho => .inl ⟨id, pl, o, ho, rfl⟩
    exact he
  hinv.sound

theorem Engine.Sound.new (cfg : Settings) :
    (Engine.new cfg : Engine R).Sound := by
  refine ⟨OrderBook.wf_new cfg.symbol, rfl, fun id _ ho => ?_, fun id => .absent (fun pl => ?_) ?_⟩
  · simp [idle, Engine.new] at ho
  · cases pl <;> simp [idle, Engine.new, Progress.slot, OrderBook.new]
  · simp [idle, Engine.new]

theorem Engine.rememberReport_market (e : Engine R) (r : Report) : e.SameMarket (e.rememberReport r) := by
  unfold Engine.rememberReport
  split
  · rfl
  simp only
  split
  · rfl
  cases e.statusHistory[r.orderId]? with
  | none | some =>
    simp only
    split
    · split <;> rfl
    · rfl

theorem Engine.forgetStep_market (h : e.forgetStep = some e') : e.SameMarket e' := by
  unfold Engine.forgetStep at h
  split at h
  · split at h
    · cases h
    · simp only at h
      split at h <;> cases h <;> rfl
  · cases h

theorem Engine.rememberStatus_market (e : Engine R) (out : List (Output R)) : e.SameMarket (e.rememberStatus out) := by
  have hfold : ∀ (l : List Report) (e : Engine R), e.SameMarket (l.foldl Engine.rememberReport e) := by
    intro l
    induction l with
    | nil => exact fun e => .refl e
    | cons r _ ih => exact fun e => (e.rememberReport_market r).trans (ih _)
  refine (hfold (out.filterMap Engine.reportOf) e).trans ?_
  exact Loop.run_induct (P := fun e' => Engine.SameMarket _ e')
    (fun _ _ h hstep => h.trans (Engine.forgetStep_market hstep)) _ (.refl _)

theorem Op.bindStatus_market (op : Op R) (c : Call R) :
    c.engine.SameMarket (op.bindStatus c).engine ∧ (op.bindStatus c).out = c.out := by
  have hbind : ∀ id sender, c.engine.SameMarket (c.bindStatusOwner id sender).engine := by
    intro id sender
    simp only [Call.bindStatusOwner, Engine.bindStatusOwner]
    split <;> rfl
  cases op with
  | newOrder | cancelReplace => exact ⟨hbind _ _, rfl⟩
  | _ => exact ⟨.refl _, rfl⟩

theorem Answered.market {op : Op R} {c₁ : Call R} (h : Answered op c c₁ c') :
    c₁.engine.SameMarket c'.engine ∧ c'.out = c₁.out := by
  cases h with
  | silent => exact ⟨.refl _, rfl⟩
  | remembered =>
    obtain ⟨hbind, hout⟩ := op.bindStatus_market c₁
    exact ⟨hbind.trans (Engine.rememberStatus_market _ _), hout⟩

/-- The tick of a call: its path, the end of its loop, and what is remembered of it. -/
structure Ticked (now : Time) (e : Engine R) (c₁ c : Call R) : Prop where
  path : Leads (e.context none) { engine := e } c₁
  done : Call.advance now e = .ok c₁
  call : c = c₁.rememberStatus

theorem tick_safe (h : e.Sound) (now : Time) : Safe (e.tick now) fun c => ∃ c₁, Ticked now e c₁ c := by
  have hadvance := advance_safe (h.inv none []) rfl now
  cases hc : Call.advance now e with
  | error =>
    rw [Engine.tick, hc]
    exact hadvance.of_error hc
  | ok c₁ =>
    rw [Engine.tick, hc]
    exact ⟨c₁, (hadvance.of_ok hc).1, hc, rfl⟩

theorem Ticked.sound {now c₁} (h : Ticked now e c₁ c) (he : e.Sound) :
    c.engine.Sound := by
  rw [h.call]
  exact (Inv.sound (h.path.inv (he.inv none []))).sameMarket (Engine.rememberStatus_market _ _)

/-- The request of a call: its path from the engine after the tick, and what is remembered of it. -/
theorem Engine.Sound.handle {op} (h : c.engine.Sound) (clock : Clock) (hrange : c.engine.inRange op) :
    Safe (c.handle clock op) fun c' => ∃ c₂, Leads (c.engine.context (some op)) c c₂ ∧ Answered op c c₂ c' :=
  handle_safe clock (h.inv (some op) c.out) rfl rfl (c.engine.context_complete _) hrange

/-- The calls one after the other, as long as `ok` holds of them and none of them panics. -/
def Engine.applyAll (ok : Engine R → Engine R → Op R → Prop) [∀ e e' op, Decidable (ok e e' op)] :
    List (Clock × Op R) → Engine R → Option (Engine R × List (Output R))
  | [], e => some (e, [])
  | (clock, op) :: calls, e =>
    match e.tick (clock .advance) with
    | .error _ => none
    | .ok c =>
      if ok e c.engine op then
        match c.handle clock op with
        | .error _ => none
        | .ok c' => (applyAll ok calls c'.engine).map fun r => (r.1, c'.out ++ r.2)
      else none

theorem Calls.applyAll [∀ e e' op, Decidable (ok e e' op)]
    {calls out out'} (hrun : Calls ok e₀ e out)
    (h : e.applyAll ok calls = some (e', out')) : Calls ok e₀ e' (out ++ out') := by
  induction calls generalizing e out out' with
  | nil =>
    cases h
    rwa [List.append_nil]
  | cons call _ ih =>
    obtain ⟨_, _⟩ := call
    simp only [Engine.applyAll] at h
    split at h
    · cases h
    rename_i c htick
    split at h
    · rename_i hok
      split at h
      · cases h
      rename_i c' hhandle
      obtain ⟨_, hr, heq⟩ := Option.map_eq_some_iff.mp h
      cases heq
      rw [← List.append_assoc]
      exact ih (.call hrun htick hok hhandle) hr
    · cases h

/-- Calls that compute, with a property of where they end. -/
theorem Calls.of_computed (ok : Engine R → Engine R → Op R → Prop) [∀ e e' op, Decidable (ok e e' op)] (e₀ : Engine R)
    (calls : List (Clock × Op R)) (P : Engine R → List (Output R) → Prop) [∀ e out, Decidable (P e out)]
    (h : (e₀.applyAll ok calls).any (fun r => decide (P r.1 r.2)) = true) : ∃ e out, Calls ok e₀ e out ∧ P e out := by
  obtain ⟨⟨e, out⟩, hr, hP⟩ := Option.any_eq_true _ _ |>.mp h
  exact ⟨e, out, Calls.nil.applyAll hr, of_decide_eq_true hP⟩

theorem Run.of_computed (ok : Engine R → Engine R → Op R → Prop) [∀ e e' op, Decidable (ok e e' op)] (e₀ : Engine R)
    (calls : List (Clock × Op R)) (P : Engine R → List (Output R) → Prop) [∀ e out, Decidable (P e out)]
    (h : (e₀.applyAll (fun e e' op => e'.inRange op ∧ ok e e' op) calls).any (fun r => decide (P r.1 r.2)) = true) :
    ∃ e out, Run ok e₀ e out ∧ P e out :=
  Calls.of_computed _ e₀ calls P h

theorem Calls.mono {ok' : Engine R → Engine R → Op R → Prop} {out}
    (h : Calls ok e₀ e out) (hok : ∀ e e' op, ok e e' op → ok' e e' op) : Calls ok' e₀ e out := by
  induction h with
  | nil => exact .nil
  | call _ htick hop hhandle ih => exact .call ih htick (hok _ _ _ hop) hhandle

theorem Run.mono {ok' : Engine R → Engine R → Op R → Prop} {out}
    (h : Run ok e₀ e out) (hok : ∀ e e' op, ok e e' op → ok' e e' op) : Run ok' e₀ e out :=
  Calls.mono h fun _ _ _ h => ⟨h.1, hok _ _ _ h.2⟩

/-- The request of the context is one that `ok` allows. -/
def Context.Allowed (ok : Engine R → Engine R → Op R → Prop) (x : Context R) : Prop :=
  ∀ op, x.request = some op → ∃ e, ok e x.start op

theorem Context.Allowed.mono {ok' : Engine R → Engine R → Op R → Prop} (h : x.Allowed ok)
    (hok : ∀ e e' op, ok e e' op → ok' e e' op) : x.Allowed ok' := by
  intro op hop
  obtain ⟨e, he⟩ := h op hop
  exact ⟨e, hok _ _ _ he⟩

section invariant

variable {ok : Engine R → Engine R → Op R → Prop} {e₀ e : Engine R} {out : List (Output R)}
  {J : List (Output R) → Progress R → Prop}

theorem Path.keeps {base w w'}
    (hstep : ∀ {w w'}, Inv x w → Step x w w' → J base w → J base w') (hinv : Inv x w) (h : Path x w w')
    (hw : J base w) : J base w' := by
  induction h with
  | refl => exact hw
  | tail hpath hlast ih => exact hstep (Path.inv hpath hinv) hlast ih

/-- An invariant of the steps that the status history does not touch is one of runs; steps may refer to the start of
their call. -/
theorem Run.invariant (hsound : e₀.Sound) (hstart : J [] (idle false { engine := e₀ }))
    (hstep : ∀ {base c request w w'}, J base (idle false c) → (c.engine.context request).Allowed ok →
      Inv (c.engine.context request) w → Step (c.engine.context request) w w' → J base w → J base w')
    (hstatus : ∀ {base c c'}, c.engine.SameMarket c'.engine → c'.out = c.out → J base (idle false c) →
      J base (idle false c'))
    (hnext : ∀ {base c}, J base (idle false c) → J (base ++ c.out) (idle false { engine := c.engine }))
    (h : Run ok e₀ e out) : e.Sound ∧ J out (idle false { engine := e }) := by
  induction h with
  | nil => exact ⟨hsound, hstart⟩
  | @call e out clock op c _ _ htick hok hhandle ih =>
    obtain ⟨he, hJ⟩ := ih
    obtain ⟨c₁, ht⟩ := (tick_safe he (clock .advance)).of_ok htick
    have hcsound := ht.sound he
    obtain ⟨c₂, hpath, hanswered⟩ := (hcsound.handle clock hok.1).of_ok hhandle
    obtain ⟨hmarket, hout⟩ := hanswered.market
    have hinv := hcsound.inv (some op) c.out
    have hJ₁ : J out (idle false c₁) :=
      Path.keeps (hstep hJ fun op h => absurd h (by simp [Engine.context])) (he.inv none []) ht.path hJ
    have hJc : J out (idle false c) := by
      rw [ht.call]
      exact hstatus (Engine.rememberStatus_market _ _) rfl hJ₁
    have hJ₂ : J out (idle false c₂) := by
      refine Path.keeps (hstep hJc fun _ h => ?_) hinv hpath hJc
      cases h
      exact ⟨e, hok.2⟩
    exact ⟨(Inv.sound (hpath.inv hinv)).sameMarket hmarket, hnext (hstatus hmarket hout hJ₂)⟩

end invariant

theorem Run.sound {out}
    (hsound : e₀.Sound) (h : Run ok e₀ e out) : e.Sound :=
  (Run.invariant (J := fun _ _ => True) hsound trivial (fun _ _ _ _ h => h) (fun _ _ h => h) (fun h => h) h).1

/-- A release build that starts at second `0`. -/
def Settings.sample (schedule : Option SessionSchedule) : Settings :=
  { symbol := "S", now := .ofSeconds 0, ids := fun n => toString n, schedule := schedule, stpDefault := .none
    symbolRules := {}, iterations := .sorted, arithmetic := .wrapping }

def Engine.sample (schedule : Option SessionSchedule) : Engine Nat := Engine.new (.sample schedule)

/-- The new orders of the requests are among `orders`. -/
def sampleCall (orders : List NewOrderSingle) (_ _ : Engine R) : Op R → Prop
  | .newOrder order _ => order ∈ orders
  | _ => True

instance [DecidableEq NewOrderSingle] (orders : List NewOrderSingle) (e e' : Engine R) (op : Op R) :
    Decidable (sampleCall orders e e' op) :=
  match op with
  | .newOrder _ _ => inferInstanceAs (Decidable (_ ∈ _))
  | .cancel _ | .cancelReplace _ | .massCancel _ | .subscribe _ | .beginOpeningCall _ | .tick => .isTrue trivial

/-- A clock that shows the same second throughout a call. -/
def Clock.at (seconds : Int) : Clock := fun _ => .ofSeconds seconds

def NewOrderSingle.sample (orderId sender : String) (side : OrderSide) (price : Int) (quantity : Int32) :
    NewOrderSingle :=
  { orderId := orderId, sender := sender, price := price, side := sideToProto side, quantity := quantity, orderType := 2
    timeInForce := 2 }

/-- A sample order that is entered at second `t`. -/
def orderAt (t : Int) (orderId sender : String) (side : OrderSide) (price : Int) (quantity : Int32) : Clock × Op Nat :=
  (.at t, .newOrder (.sample orderId sender side price quantity) 0)

/-- A replace at second `t` that asks for a time in force and a total; zero leaves them as they are. -/
def replaceAt (t : Int) (orderId newOrderId sender : String) (timeInForce quantity : Int32) : Clock × Op Nat :=
  (.at t, .cancelReplace
    { orderId, newOrderId, sender, newTimeInForce := timeInForce, newQuantity := quantity, outputTx := 0 })

/-- `A` is held back for the close on two days, and each time the book forgets what was filled, so that the order
quantity of the last replacement, `G`, is above the range of a `u32`. -/
def overflowCalls : List (Clock × Op Nat) :=
  [orderAt 250 "A" "a" .sell 100 2147483647, orderAt 251 "B" "b" .buy 100 2147483646, replaceAt 252 "A" "C" "a" 6 0,
    replaceAt 310 "C" "D" "a" 2 2147483647, orderAt 320 "E" "b" .buy 100 2147483646, replaceAt 86650 "D" "F" "a" 6 0,
    replaceAt 86710 "F" "G" "a" 2 2147483647]

/-- `G` is reported as filled when the first of it trades, and `5` of it stay on the book without a report state. -/
def orphanCalls : List (Clock × Op Nat) :=
  overflowCalls ++ [orderAt 173050 "H" "c" .buy 100 1, orderAt 173051 "I" "c" .buy 100 2147483641]

end Fxp

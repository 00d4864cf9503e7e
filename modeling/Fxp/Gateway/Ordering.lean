import Fxp.Gateway.Moves
import Fxp.Reachable

/-!
# The order of the requests of a client

The requests of one connection for one symbol stand in a line: in the handler, on a pooled connection, in the hand of
its reader in the core, and in the channel of the symbol.
-/

namespace Fxp.Gateway

open Machine Network List Function

variable {C K : Type} [DecidableEq C] [DecidableEq K] {cfg : Config K} {a : Action C K} {s s' : Network C K}
  {pin : C → String → K} {c : C} {symbol : String}

def Entry.isOf (c : C) (symbol : String) (e : Entry C) : Bool := e.client = c && e.request.symbol = symbol

/-- The requests of `c` for `symbol` that go over connection `k`, the oldest first. -/
def Network.line (c : C) (symbol : String) (k : K) (s : Network C K) : List (Entry C) :=
  (s.inbox symbol ++ (s.hand k).toList ++ s.up k ++ (s.handlers c).entry.toList).filter (Entry.isOf c symbol)

/-- The requests of a client for a symbol are all written on the connection `pin` chooses for them. -/
def pinned (pin : C → String → K) (a : Action C K) (s : Network C K) : Bool :=
  match a with
  | .write c k =>
    match s.handlers c with
    | .write e _ => k = pin c e.request.symbol
    | _ => true
  | _ => true

/-- What a handler is at work on comes from its connection. -/
def Network.HandlersOwn (s : Network C K) : Prop := ∀ c e, (s.handlers c).entry = some e → e.client = c

theorem Network.HandlersOwn.move (h : s.HandlersOwn) (hmove : Move cfg s a s') : s'.HandlersOwn := by
  intro c e he
  rcases hmove.handler_entry he with he | ⟨_, _, -, -, -, rfl⟩
  · exact h c e he
  · rfl

/-- The requests of `c` for `symbol` are on their connection only. -/
def Network.Pinned (pin : C → String → K) (c : C) (symbol : String) (s : Network C K) : Prop :=
  ∀ k e, s.hand k = some e ∨ e ∈ s.up k → e.isOf c symbol = true → k = pin c symbol

theorem Network.Pinned.move (h : s.Pinned pin c symbol) (hown : s.HandlersOwn) (hpin : pinned pin a s = true)
    (hmove : Move cfg s a s') : s'.Pinned pin c symbol := by
  intro k e he hof
  rcases he with he | he
  · rcases hmove.hand_entry he with he | he
    · exact h k e (.inl he) hof
    · exact h k e (.inr he) hof
  rcases hmove.up_entry he with he | ⟨c', _, rfl, hat⟩
  · exact h k e (.inr he) hof
  have hclient : e.client = c' := hown c' e (by rw [hat]; rfl)
  simp only [pinned, hat, decide_eq_true_eq] at hpin
  simp only [Entry.isOf, Bool.and_eq_true, decide_eq_true_eq] at hof
  rw [hpin, ← hclient, hof.1, hof.2]

omit [DecidableEq K] in
private theorem line_sublist {k} (hinbox : (s'.inbox symbol).Sublist (s.inbox symbol))
    (hhand : (s'.hand k).toList.Sublist (s.hand k).toList) (hup : (s'.up k).Sublist (s.up k))
    (hentry : (s'.handlers c).entry.toList.Sublist (s.handlers c).entry.toList) :
    (s'.line c symbol k).Sublist (s.line c symbol k) :=
  (((hinbox.append hhand).append hup).append hentry).filter _

omit [DecidableEq K] in
private theorem entry_sublist {c₀ h} (hh : ∀ e, h.entry = some e → (s.handlers c₀).entry = some e) :
    (update s.handlers c₀ h c).entry.toList.Sublist (s.handlers c).entry.toList := by
  cases he : (update s.handlers c₀ h c).entry with
  | none => exact nil_sublist _
  | some => rw [entry_update hh he]

omit [DecidableEq K] in
private theorem line_start {c₀ trader m k} (hidle : s.handlers c₀ = .idle)
    (hinbox : s'.inbox symbol = s.inbox symbol) (hhand : s'.hand = s.hand) (hup : s'.up = s.up)
    (hsent : s'.sent = update s.sent c₀ (s.sent c₀ + 1))
    (hhandlers : s'.handlers = update s.handlers c₀ (firstState (s.nextEntry c₀ trader m))) :
    (s'.line c symbol k).Sublist (s.line c symbol k) ∧ s.sent c ≤ s'.sent c ∨
      ∃ e, s'.line c symbol k = s.line c symbol k ++ [e] ∧ e.serial = s.sent c ∧ s'.sent c = s.sent c + 1 := by
  rw [hsent]
  by_cases hc : c = c₀
  · obtain rfl := hc
    have hentry : (s'.handlers c).entry = some (s.nextEntry c trader m) := by
      rw [hhandlers, update_self]
      unfold firstState
      split <;> rfl
    have hline : s'.line c symbol k =
        s.line c symbol k ++ [s.nextEntry c trader m].filter (Entry.isOf c symbol) := by
      rw [line, line, hinbox, hhand, hup, hentry, hidle]
      simp only [Handler.entry, Option.toList_none, Option.toList_some, append_nil, filter_append]
    rw [hline, update_self]
    cases hof : (s.nextEntry c trader m).isOf c symbol with
    | true => exact .inr ⟨_, by rw [filter_singleton, hof]; rfl, rfl, rfl⟩
    | false =>
      refine .inl ⟨?_, by omega⟩
      rw [filter_singleton, hof]
      simp
  · refine .inl ⟨line_sublist (by rw [hinbox]) (by rw [hhand]) (by rw [hup]) ?_, ?_⟩
    · rw [hhandlers, update_of_ne hc]
    · rw [update_of_ne hc]

private theorem line_write {c₀ k₀ e} {stored : Bool} (hat : s.handlers c₀ = .write e stored)
    (hown : s.HandlersOwn) (hpin : pinned pin (.write c₀ k₀) s = true) (hinbox : s'.inbox symbol = s.inbox symbol)
    (hhand : s'.hand = s.hand) (hup : s'.up = update s.up k₀ (s.up k₀ ++ [e]))
    (hhandlers : s'.handlers = update s.handlers c₀ .idle) :
    (s'.line c symbol (pin c symbol)).Sublist (s.line c symbol (pin c symbol)) := by
  have hclient : e.client = c₀ := hown c₀ e (by rw [hat]; rfl)
  simp only [pinned, hat, decide_eq_true_eq] at hpin
  have hentry : ∀ c, c ≠ c₀ → s'.handlers c = s.handlers c := fun c hc => by
    rw [hhandlers, update_of_ne hc]
  cases hof : e.isOf c symbol with
  | true =>
    simp only [Entry.isOf, Bool.and_eq_true, decide_eq_true_eq] at hof
    have hc : c₀ = c := hclient.symm.trans hof.1
    have hk : k₀ = pin c symbol := by rw [hpin, hc, hof.2]
    have hidle : s'.handlers c = .idle := by rw [hhandlers, hc, update_self]
    have hline : s'.line c symbol (pin c symbol) = s.line c symbol (pin c symbol) := by
      rw [line, line, hinbox, hhand, hup, hk, update_self, hidle, ← hc, hat]
      simp [Handler.entry]
    rw [hline]
  | false =>
    have hup' : (s'.up (pin c symbol)).filter (Entry.isOf c symbol) =
        (s.up (pin c symbol)).filter (Entry.isOf c symbol) := by
      rw [hup, update_apply]
      split
      · rename_i hk
        rw [hk, filter_append, filter_singleton, hof]
        simp
      · rfl
    have hrest : (s'.handlers c).entry.toList.Sublist (s.handlers c).entry.toList := by
      rw [hhandlers]
      exact entry_sublist fun e he => by cases he
    unfold line
    simp only [filter_append, hinbox, hhand, hup']
    exact (List.Sublist.refl _).append (hrest.filter _)

/-- A step takes requests out of the line, or puts the next message of the client at its end. -/
theorem Move.line (hmove : Move cfg s a s') (hown : s.HandlersOwn) (hpinned : s.Pinned pin c symbol)
    (hpin : pinned pin a s = true) :
    (s'.line c symbol (pin c symbol)).Sublist (s.line c symbol (pin c symbol)) ∧ s.sent c ≤ s'.sent c ∨
      ∃ e, s'.line c symbol (pin c symbol) = s.line c symbol (pin c symbol) ++ [e] ∧ e.serial = s.sent c ∧
        s'.sent c = s.sent c + 1 := by
  -- a reader of the core that is done with its request
  have done : ∀ k₀ k : K, (update s.hand k₀ none k).toList.Sublist (s.hand k).toList := by
    intro k₀ k
    rw [update_apply]
    split
    · exact nil_sublist _
    · exact .refl _
  rcases hmove.inbox symbol with hinbox | ⟨k, e, hhand, _, hhand', hother, hup, hhandlers, hinbox⟩
  · cases hmove with
    | start hidle => exact line_start hidle hinbox rfl rfl rfl rfl
    | refuse =>
      refine .inl ⟨line_sublist (by rw [hinbox]) (.refl _) (.refl _) (.refl _), ?_⟩
      show s.sent c ≤ update s.sent _ _ c
      rw [update_apply]
      split
      · rename_i hc
        rw [hc]
        omega
      · exact le_refl _
    | replacementKnown hat | registerReplacement hat | storePending hat | registerOrder hat | targetKnown hat
    | registerTarget hat | foreign hat | own hat | storeInflight hat | forget hat =>
      refine .inl ⟨line_sublist (by rw [hinbox]) (.refl _) (.refl _) ?_, le_refl _⟩
      exact entry_sublist fun e he => by rw [hat]; exact he
    | forgetInflight =>
      refine .inl ⟨line_sublist (by rw [hinbox]) (.refl _) (.refl _) ?_, le_refl _⟩
      exact entry_sublist fun e he => absurd he (by simp [Handler.entry])
    | fail hat =>
      refine .inl ⟨line_sublist (by rw [hinbox]) (.refl _) (.refl _) ?_, le_refl _⟩
      refine entry_sublist fun e he => ?_
      rw [hat]
      split at he <;> exact he
    | write hat => exact .inl ⟨line_write hat hown hpin hinbox rfl rfl rfl, le_refl _⟩
    | @coreRead k₀ e rest hhand hup =>
      refine .inl ⟨?_, le_refl _⟩
      by_cases hk : pin c symbol = k₀
      · refine List.Sublist.filter _ (.append ?_ (.refl _))
        show (_ ++ (update s.hand k₀ (some e) (pin c symbol)).toList ++
          update s.up k₀ rest (pin c symbol)).Sublist _
        rw [hk, update_self, update_self, hinbox, hhand, hup]
        simp
      · refine line_sublist (by rw [hinbox]) ?_ ?_ (.refl _)
        · show (update s.hand k₀ (some e) (pin c symbol)).toList.Sublist _
          rw [update_of_ne hk]
        · show (update s.up k₀ rest (pin c symbol)).Sublist _
          rw [update_of_ne hk]
    | deny | lose | enqueue =>
      exact .inl ⟨line_sublist (by rw [hinbox]) (done _ _) (.refl _) (.refl _), le_refl _⟩
    | _ => exact .inl ⟨line_sublist (by rw [hinbox]) (.refl _) (.refl _) (.refl _), le_refl _⟩
  · -- a request goes from the hand of a reader to the channel
    have hsent : s'.sent = s.sent := by
      cases hmove <;> first | rfl | exact absurd (hhand'.symm.trans hhand) (by simp)
    refine .inl ⟨?_, by rw [hsent]⟩
    by_cases hk : k = pin c symbol
    · obtain rfl := hk
      rw [Network.line, Network.line, hinbox, hhand', hup, hhandlers, hhand]
      simp
    have hof : e.isOf c symbol = false := by
      rw [Bool.eq_false_iff]
      exact fun hof => hk (hpinned k e (.inl hhand) hof)
    unfold Network.line
    rw [hinbox, hother _ (Ne.symm hk), hup, hhandlers]
    simp [hof]

theorem Move.inbox_symbol (hmove : Move cfg s a s') (h : ∀ e ∈ s.inbox symbol, e.request.symbol = symbol) :
    ∀ e ∈ s'.inbox symbol, e.request.symbol = symbol := by
  intro e he
  rcases hmove.inbox symbol with hinbox | ⟨_, _, -, hsymbol, -, -, -, -, hinbox⟩
  · exact h e (hinbox ▸ he)
  rw [hinbox] at he
  rcases mem_append.mp he with he | he
  · exact h e he
  · rw [mem_singleton.mp he, hsymbol]

/-- What holds of the line of `c` for `symbol` in every run. -/
structure InLine (pin : C → String → K) (c : C) (symbol : String) (s : Network C K) : Prop where
  own : s.HandlersOwn
  pinned : s.Pinned pin c symbol
  symbols : ∀ e ∈ s.inbox symbol, e.request.symbol = symbol
  ordered : (s.line c symbol (pin c symbol)).Pairwise (·.serial < ·.serial)
  sent : ∀ e ∈ s.line c symbol (pin c symbol), e.serial < s.sent c

omit [DecidableEq K] in
theorem InLine.init : InLine pin c symbol ({} : Network C K) where
  own c e he := by cases he
  pinned k e he := by rcases he with he | he <;> cases he
  symbols e he := by simp [inbox] at he
  ordered := by simp [line, inbox, Handler.entry]
  sent e he := by simp [line, inbox, Handler.entry] at he

theorem InLine.move (h : InLine pin c symbol s) (hmove : Move cfg s a s') (hpin : Gateway.pinned pin a s = true) :
    InLine pin c symbol s' := by
  have hline := hmove.line h.own h.pinned hpin
  refine ⟨h.own.move hmove, h.pinned.move h.own hpin hmove, hmove.inbox_symbol h.symbols, ?_, ?_⟩
  · rcases hline with ⟨hsub, -⟩ | ⟨_, hline, hserial, -⟩
    · exact h.ordered.sublist hsub
    rw [hline]
    refine pairwise_append.mpr ⟨h.ordered, pairwise_singleton _ _, fun e₁ h₁ _ h₂ => ?_⟩
    rw [mem_singleton.mp h₂, hserial]
    exact h.sent e₁ h₁
  · intro e he
    rcases hline with ⟨hsub, hsent⟩ | ⟨_, hline, _, hsent⟩
    · exact lt_of_lt_of_le (h.sent e (hsub.subset he)) hsent
    rw [hline] at he
    rcases mem_append.mp he with he | he
    · have := h.sent e he
      omega
    · rw [mem_singleton.mp he]
      omega

def Network.receivedBy (s : Network C K) (symbol : String) : List (Entry C) :=
  (s.tasks[symbol]?.map (·.received)).getD []

/-- If the requests of a client for a symbol use one pooled connection, its task receives them in order, and none
twice. -/
theorem client_order_preserved (pin : C → String → K) (h : Reached cfg (pinned pin · ·) s)
    (c : C) (symbol : String) :
    ((s.receivedBy symbol).filter (·.client = c)).Pairwise (·.serial < ·.serial) ∧
      ∀ e ∈ s.receivedBy symbol, e.request.symbol = symbol := by
  have hline : InLine pin c symbol s := by
    refine h.invariant InLine.init ?_
    intro a s s' hs hpin hstep
    exact hs.move (step_move hstep) hpin
  have hsub : (s.receivedBy symbol).Sublist (s.inbox symbol) := by
    unfold receivedBy inbox
    cases s.tasks[symbol]? with
    | none => exact .refl _
    | some => exact sublist_append_left _ _
  refine ⟨hline.ordered.sublist ?_, fun e he => hline.symbols e (hsub.subset he)⟩
  have hsame : (s.receivedBy symbol).filter (·.client = c) =
      (s.receivedBy symbol).filter (Entry.isOf c symbol) := by
    refine filter_congr fun e he => ?_
    rw [Entry.isOf, decide_eq_true (hline.symbols e (hsub.subset he)), Bool.and_true]
  rw [hsame]
  refine List.Sublist.filter _ (hsub.trans ?_)
  rw [append_assoc, append_assoc]
  exact sublist_append_left _ _

def Config.sample : Config Nat := { engine := fun symbol _ => { Engine.sample none with symbol } }

def Request.sample (orderId : String) : Request :=
  .newOrder { NewOrderSingle.sample orderId "" .buy 100 10 with symbol := "S" }

/-- A client logs on and sends two orders, on connections `k₁` and `k₂`. -/
def twoOrders (k₁ k₂ : Nat) : List (Action Nat Nat) :=
  [.logon 0 "t", .message 0 (.sample "A"), .handler 0, .write 0 k₁, .message 0 (.sample "B"), .handler 0, .write 0 k₂]

/-- The core takes a request from connection `k` to its task. -/
def takeUp (k : Nat) (time : Int) : List (Action Nat Nat) :=
  [.coreRead k, .coreRoute k (.ofSeconds time), .receive "S" (.at time)]

/-- The task sends the report of its call. -/
def answerOnce : List (Action Nat Nat) := [.emit "S"]

/-- Both orders on one connection. -/
theorem client_order_preserved_sample : ∃ s : Network Nat Nat,
    Reached Config.sample (pinned (fun _ _ => 0) · ·) s ∧
      (s.receivedBy "S").map Entry.serial = [0, 1] ∧
      ((s.receivedBy "S").filter (·.client = 0)).Pairwise (·.serial < ·.serial) := by
  obtain ⟨s, hs, hserials⟩ := Reached.of_exec Config.sample (pinned (fun _ _ => 0) · ·)
    (twoOrders 0 0 ++ takeUp 0 1 ++ answerOnce ++ takeUp 0 2)
    (fun s => (s.receivedBy "S").map Entry.serial = [0, 1]) (by decide +kernel)
  exact ⟨s, hs, of_decide_eq_true hserials, (client_order_preserved _ hs 0 "S").1⟩

/-- The orders on two connections: the core reads the second one first. -/
theorem client_order_reversed : ∃ s : Network Nat Nat, Reached Config.sample (anyAction · ·) s ∧
    (s.receivedBy "S").map (fun e => (e.client, e.serial, e.request.orderId)) =
      [(0, 1, "t::B"), (0, 0, "t::A")] := by
  obtain ⟨s, hs, hserials⟩ := Reached.of_exec Config.sample (anyAction · ·)
    (twoOrders 0 1 ++ takeUp 1 1 ++ answerOnce ++ takeUp 0 2)
    (fun s => (s.receivedBy "S").map (fun e => (e.client, e.serial, e.request.orderId)) =
      [(0, 1, "t::B"), (0, 0, "t::A")]) (by decide +kernel)
  exact ⟨s, hs, of_decide_eq_true hserials⟩

end Fxp.Gateway

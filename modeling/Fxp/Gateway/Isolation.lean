import Fxp.Gateway.Ordering

/-!
# Traders do not see each other's orders

Every id in a request is of the trader of the connection it came from, every route and every entry of
`inflightRequests` leads to a connection of the trader whose id it is stored under, and so does every delivery.
-/

namespace Fxp.Gateway

open Machine Network List

variable {C K : Type} [DecidableEq C] [DecidableEq K] {cfg : Config K} {a : Action C K} {s s' : Network C K}
variable {sessions : C → Option String}

/-- The traders that log on are among `traders`, and a connection that logs on again stays with its trader. -/
def staysWith (traders : List String) (a : Action C K) (s : Network C K) : Bool :=
  match a with
  | .logon c trader => trader ∈ traders && (s.sessions c).all (· = trader)
  | _ => true

/-- Reports about `id` may go to `c`. -/
def Owns (sessions : C → Option String) (c : C) (id : String) : Prop :=
  id = "" ∨ ∃ trader, sessions c = some trader ∧ InNamespace trader id

def Bound (sessions : C → Option String) (e : Entry C) : Prop :=
  ∃ trader m, sessions e.client = some trader ∧ e.request = bindOwner trader m

/-- A connection that has a trader keeps it. -/
def Extends (sessions sessions' : C → Option String) : Prop :=
  ∀ c trader, sessions c = some trader → sessions' c = some trader

omit [DecidableEq C] in
theorem Owns.extend {sessions' : C → Option String} {c id} (h : Owns sessions c id)
    (hext : Extends sessions sessions') : Owns sessions' c id := by
  rcases h with h | ⟨trader, hc, hid⟩
  · exact .inl h
  · exact .inr ⟨trader, hext c trader hc, hid⟩

omit [DecidableEq C] in
theorem Bound.extend {sessions' : C → Option String} {e} (h : Bound sessions e)
    (hext : Extends sessions sessions') : Bound sessions' e := by
  obtain ⟨trader, m, hc, hm⟩ := h
  exact ⟨trader, m, hext _ _ hc, hm⟩

omit [DecidableEq C] in
theorem Bound.owns_name {e id} (h : Bound sessions e)
    (hid : id ∈ e.request.names) : Owns sessions e.client id := by
  obtain ⟨trader, _, hc, hm⟩ := h
  by_cases hne : id = ""
  · exact .inl hne
  · exact .inr ⟨trader, hc, inNamespace_of_mem_names (hm ▸ hid) hne⟩

omit [DecidableEq C] in
theorem Bound.owns {e} (h : Bound sessions e) :
    Owns sessions e.client e.request.orderId ∧ Owns sessions e.client e.request.newOrderId := by
  refine ⟨h.owns_name mem_cons_self, ?_⟩
  by_cases hne : e.request.newOrderId = ""
  · exact .inl hne
  · exact h.owns_name (mem_cons_of_mem _ (mem_filter.mpr ⟨mem_singleton_self _, by simpa using hne⟩))

/-- The connections a reader may deliver to. -/
def Reader.targets : Reader C → List C
  | .reply route _ => [route.conn]
  | .deliver route targets _ => route.conn :: targets
  | .clearPending route _ => [route.conn]
  | .finish route _ => [route.conn]
  | .dropRoute route _ => [route.conn]
  | _ => []

def Delivery.orderId (d : Delivery C) : String :=
  match d.source with
  | some r => r.report.orderId
  | none => d.report.orderId

structure Isolated (traders : List String) (s : Network C K) : Prop where
  known : ∀ c trader, s.sessions c = some trader → trader ∈ traders
  own : s.HandlersOwn
  handler : ∀ c e, (s.handlers c).entry = some e → Bound s.sessions e
  up : ∀ k, ∀ e ∈ s.up k, Bound s.sessions e
  hand : ∀ k e, s.hand k = some e → Bound s.sessions e
  inbox : ∀ symbol, ∀ e ∈ s.inbox symbol, Bound s.sessions e
  route : ∀ (id : String) r, s.orderClientMap[id]? = some r → Owns s.sessions r.conn id
  inflight : ∀ (id : String) c, s.inflightRequests[id]? = some c → Owns s.sessions c id
  reader : ∀ k r, (s.readers k).sent = some r → ∀ c ∈ (s.readers k).targets, Owns s.sessions c r.report.orderId
  delivered : ∀ d ∈ s.delivered, Owns s.sessions d.client d.orderId

variable {traders : List String}

theorem Move.extends_sessions (hmove : Move cfg s a s') (hok : staysWith traders a s = true) :
    Extends s.sessions s'.sessions := by
  cases hmove with
  | @logon c₀ trader₀ =>
    intro c trader hc
    show Function.update s.sessions c₀ (some trader₀) c = some trader
    rw [Function.update_apply]
    split
    · rename_i heq
      simp only [staysWith, Bool.and_eq_true, ← heq, hc, Option.all_some, decide_eq_true_eq] at hok
      rw [hok.2]
    · exact hc
  | _ => exact fun c trader hc => hc

omit [DecidableEq C] [DecidableEq K] in
theorem Isolated.extend (h : Isolated traders s) (hext : Extends s.sessions sessions)
    (hknown : ∀ c trader, sessions c = some trader → trader ∈ traders) :
    Isolated traders { s with sessions } where
  known := hknown
  own := h.own
  handler c e he := (h.handler c e he).extend hext
  up k e he := (h.up k e he).extend hext
  hand k e he := (h.hand k e he).extend hext
  inbox symbol e he := (h.inbox symbol e he).extend hext
  route id r hr := (h.route id r hr).extend hext
  inflight id c hc := (h.inflight id c hc).extend hext
  reader k r hr c hc := (h.reader k r hr c hc).extend hext
  delivered d hd := (h.delivered d hd).extend hext

section

variable (h : Isolated traders s) (hmove : Move cfg s a s') (hsessions : s'.sessions = s.sessions)
include h hmove hsessions

theorem Isolated.move_route
    {id r} (hr : s'.orderClientMap[id]? = some r) : Owns s'.sessions r.conn id := by
  rw [hsessions]
  have store : ∀ {id₀ : String} {r₀ : OrderRoute C}, (s.orderClientMap.insert id₀ r₀)[id]? = some r →
      Owns s.sessions r₀.conn id₀ → Owns s.sessions r.conn id := by
    intro id₀ r₀ hr howns
    rw [Maps.getElem?_insert] at hr
    split at hr
    · rename_i hid
      cases hr
      exact hid ▸ howns
    · exact h.route id r hr
  have delete : ∀ {id₀ : String}, (s.orderClientMap.erase id₀)[id]? = some r → Owns s.sessions r.conn id := by
    intro id₀ hr
    rw [Maps.getElem?_erase] at hr
    split at hr
    · cases hr
    · exact h.route id r hr
  cases hmove with
  | registerReplacement hat => exact store hr (h.handler _ _ (by rw [hat]; rfl)).owns.2
  | registerOrder hat | registerTarget hat => exact store hr (h.handler _ _ (by rw [hat]; rfl)).owns.1
  | promote hat => exact store hr (h.reader _ _ (by rw [hat]; rfl) _ (by rw [hat]; exact mem_singleton_self _))
  | forget | dropRoute | dropDelete | retire => exact delete hr
  | _ => exact h.route id r hr

theorem Isolated.move_inflight {id c} (hc : s'.inflightRequests[id]? = some c) :
    Owns s'.sessions c id := by
  rw [hsessions]
  have delete : ∀ {id₀ : String}, (s.inflightRequests.erase id₀)[id]? = some c → Owns s.sessions c id := by
    intro id₀ hc
    rw [Maps.getElem?_erase] at hc
    split at hc
    · cases hc
    · exact h.inflight id c hc
  cases hmove with
  | @storeInflight _ e hat =>
    have hc : (s.inflightRequests.insert e.request.orderId e.client)[id]? = some c := hc
    rw [Maps.getElem?_insert] at hc
    split at hc
    · rename_i hid
      cases hc
      exact hid ▸ (h.handler _ _ (by rw [hat]; rfl)).owns.1
    · exact h.inflight id c hc
  | forgetInflight | replyForeign => exact delete hc
  | _ => exact h.inflight id c hc

theorem Isolated.move_reader
    {k r c} (hr : (s'.readers k).sent = some r) (hc : c ∈ (s'.readers k).targets) :
    Owns s'.sessions c r.report.orderId := by
  rw [hsessions]
  have go : ∀ {k₀ : K} {q : Reader C}, (Function.update s.readers k₀ q k).sent = some r →
      c ∈ (Function.update s.readers k₀ q k).targets →
      (q.sent = some r → c ∈ q.targets → Owns s.sessions c r.report.orderId) → Owns s.sessions c r.report.orderId := by
    intro k₀ q hr hc hq
    rw [Function.update_apply] at hr hc
    split at hr
    · rename_i hk
      rw [if_pos hk] at hc
      exact hq hr hc
    · rename_i hk
      rw [if_neg hk] at hc
      exact h.reader k r hr c hc
  cases hmove with
  | read => exact go hr hc fun _ hc => nomatch hc
  | unrouted | noPending | keep | dropDelete | retire | promote | finish => exact go hr hc fun hr _ => nomatch hr
  | @load _ r₀ route _ hroute =>
    refine go hr hc fun hr hc => ?_
    have hown : Owns s.sessions route.conn r₀.report.orderId := h.route _ _ hroute
    unfold afterLoad at hr hc
    split at hr
    · rename_i hreply
      rw [if_pos hreply] at hc
      cases hr
      rw [mem_singleton.mp hc]
      exact hown
    · rename_i hreply
      rw [if_neg hreply] at hc
      cases hr
      simp only [Reader.targets, mem_cons, not_mem_nil, or_false, or_self] at hc
      rw [hc]
      exact hown
  | @replyOwn _ _ _ hat =>
    refine go hr hc fun hr hc => ?_
    cases hr
    simp only [Reader.targets, mem_cons, not_mem_nil, or_false, or_self] at hc
    exact h.reader _ r (by rw [hat]; rfl) c (by rw [hat, hc]; exact mem_singleton_self _)
  | @replyForeign k₀ _ route req hat hinflight =>
    refine go hr hc fun hr hc => ?_
    cases hr
    have hconn : Owns s.sessions route.conn r.report.orderId :=
      h.reader k₀ r (by rw [hat]; rfl) _ (by rw [hat]; exact mem_singleton_self _)
    have hreq : Owns s.sessions req r.report.orderId := h.inflight _ _ hinflight
    have hc : c = route.conn ∨ c = req := by
      simp only [Reader.targets, mem_cons] at hc
      rcases hc with hc | hc
      · exact .inl hc
      split at hc
      · exact .inr (mem_singleton.mp hc)
      · exact mem_pair.mp hc
    rcases hc with rfl | rfl
    · exact hconn
    · exact hreq
  | @deliver k₀ _ _ _ _ hat =>
    refine go hr hc fun hr hc => ?_
    cases hr
    refine h.reader k₀ r (by rw [hat]; rfl) c ?_
    rw [hat]
    rcases mem_cons.mp hc with hc | hc
    · exact mem_cons.mpr (.inl hc)
    · exact mem_cons_of_mem _ (mem_cons_of_mem _ hc)
  | @delivered k₀ _ _ hat =>
    refine go hr hc fun hr hc => ?_
    refine h.reader k₀ r ?_ c ?_
    · rw [hat]
      unfold afterDelivery at hr
      split at hr
      · exact hr
      · split at hr <;> exact hr
    · rw [hat]
      unfold afterDelivery at hc
      split at hc
      · exact hc
      · split at hc <;> exact hc
  | dropRoute | keepRoute | takePending | dropLoad => exact go hr hc fun _ hc => nomatch hc
  | @clearPending k₀ _ _ hat =>
    refine go hr hc fun hr hc => ?_
    exact h.reader k₀ r (by rw [hat]; exact hr) c (by rw [hat]; exact hc)
  | _ => exact h.reader k r hr c hc

theorem Isolated.move_delivered {d} (hd : d ∈ s'.delivered) : Owns s'.sessions d.client d.orderId := by
  rw [hsessions]
  cases hmove with
  | @refuse c m trader _ hsession =>
    rcases mem_append.mp hd with hd | hd
    · exact h.delivered d hd
    rw [mem_singleton.mp hd]
    have hbound : Bound s.sessions ⟨c, 0, bindOwner trader m⟩ := ⟨trader, m, hsession, rfl⟩
    cases m with
    | orderCancelReplace => exact hbound.owns.2
    | _ => exact hbound.owns.1
  | @deliver k r route c _ hat =>
    have hd : d ∈ if s.closed c then s.delivered
      else s.delivered ++ [{ client := c, report := stripOwner route.owner r.report, source := some r }] := hd
    split at hd
    · exact h.delivered d hd
    rcases mem_append.mp hd with hd | hd
    · exact h.delivered d hd
    rw [mem_singleton.mp hd]
    refine h.reader k r (by rw [hat]; rfl) c ?_
    rw [hat]
    exact mem_cons_of_mem _ mem_cons_self
  | _ => exact h.delivered d hd

end

theorem Isolated.move (h : Isolated traders s) (hmove : Move cfg s a s') (hok : staysWith traders a s = true) :
    Isolated traders s' := by
  by_cases hlogon : ∃ c trader, a = .logon c trader
  · obtain ⟨_, _, rfl⟩ := hlogon
    have hext := hmove.extends_sessions hok
    cases hmove
    refine h.extend hext fun c' trader' hc' => ?_
    rw [Function.update_apply] at hc'
    split at hc'
    · cases hc'
      simp only [staysWith, Bool.and_eq_true, decide_eq_true_eq] at hok
      exact hok.1
    · exact h.known c' trader' hc'
  · have hsessions : s'.sessions = s.sessions := by
      cases hmove <;> first | rfl | exact absurd ⟨_, _, rfl⟩ hlogon
    constructor
    · rw [hsessions]
      exact h.known
    · exact h.own.move hmove
    · intro c e he
      rw [hsessions]
      rcases hmove.handler_entry he with he | ⟨m, trader, -, hsession, -, rfl⟩
      · exact h.handler c e he
      · exact ⟨trader, m, hsession, rfl⟩
    · intro k e he
      rw [hsessions]
      rcases hmove.up_entry he with he | ⟨c, _, -, hat⟩
      · exact h.up k e he
      · exact h.handler c e (by rw [hat]; rfl)
    · intro k e he
      rw [hsessions]
      rcases hmove.hand_entry he with he | he
      · exact h.hand k e he
      · exact h.up k e he
    · intro symbol e he
      rw [hsessions]
      rcases hmove.inbox symbol with hinbox | ⟨k, e', hhand, -, -, -, -, -, hinbox⟩
      · exact h.inbox symbol e (hinbox ▸ he)
      rw [hinbox] at he
      rcases mem_append.mp he with he | he
      · exact h.inbox symbol e he
      · rw [mem_singleton.mp he]
        exact h.hand k e' hhand
    · exact fun id r hr => h.move_route hmove hsessions hr
    · exact fun id c hc => h.move_inflight hmove hsessions hc
    · exact fun k r hr c hc => h.move_reader hmove hsessions hr hc
    · exact fun _ hd => h.move_delivered hmove hsessions hd

omit [DecidableEq C] [DecidableEq K] in
theorem Isolated.init : Isolated traders ({} : Network C K) where
  known c trader hc := by cases hc
  own c e he := by cases he
  handler c e he := by cases he
  up k e he := by cases he
  hand k e he := by cases he
  inbox symbol e he := by simp [Network.inbox] at he
  route id r hr := by simp at hr
  inflight id c hc := by simp at hc
  reader k r hr := by cases hr
  delivered d hd := by cases hd

/-- A request is in the gateway, on its way to the core, or in the core. -/
inductive Holds (s : Network C K) (e : Entry C) : Prop
  | handler {c : C} (h : (s.handlers c).entry = some e)
  | up {k : K} (h : e ∈ s.up k)
  | hand {k : K} (h : s.hand k = some e)
  | inbox {symbol : String} (h : e ∈ s.inbox symbol)

omit [DecidableEq C] [DecidableEq K] in
theorem Isolated.bound (h : Isolated traders s) {e} (he : Holds s e) : Bound s.sessions e := by
  cases he with
  | handler he => exact h.handler _ e he
  | up he => exact h.up _ e he
  | hand he => exact h.hand _ e he
  | inbox he => exact h.inbox _ e he

omit [DecidableEq C] [DecidableEq K] in
/-- With separate names, a connection that may see an id of `T` is authenticated as `T`. -/
theorem Isolated.session_of_owns (h : Isolated traders s)
    (hsep : ∀ T ∈ traders, ∀ U ∈ traders, T ≠ U → Separate T U) {T id} (hT : T ∈ traders)
    (hid : InNamespace T id) {c} (howns : Owns s.sessions c id) : s.sessions c = some T := by
  rcases howns with rfl | ⟨U, hc, hU⟩
  · obtain ⟨_, hown, hempty⟩ := hid
    rw [namespacedOrderID, if_neg hown] at hempty
    have := congrArg String.toList hempty
    simp [ownerSep] at this
  · by_cases hTU : T = U
    · rw [hc, hTU]
    · exact absurd hU (hid.not_of_separate (hsep T hT U (h.known c U hc) hTU))

/-- With separate names and connections that stay with their trader, ids of two traders differ, requests for an id of
`T` come from `T` only, and its routes and reports lead to `T` only. -/
theorem trader_isolation (hsep : ∀ T ∈ traders, ∀ U ∈ traders, T ≠ U → Separate T U)
    (h : Reached cfg (staysWith traders · ·) s) {T : String} (hT : T ∈ traders) :
    (∀ U ∈ traders, T ≠ U → ∀ x y : String, x ≠ "" → y ≠ "" → namespacedOrderID T x ≠ namespacedOrderID U y) ∧
      ∀ own : String, own ≠ "" →
        (∀ e, Holds s e → namespacedOrderID T own ∈ e.request.names → s.sessions e.client = some T) ∧
        (∀ r, s.orderClientMap[namespacedOrderID T own]? = some r → s.sessions r.conn = some T) ∧
        (∀ c, s.inflightRequests[namespacedOrderID T own]? = some c → s.sessions c = some T) ∧
        ∀ d ∈ s.delivered, d.orderId = namespacedOrderID T own → s.sessions d.client = some T := by
  have hisolated : Isolated traders s := by
    refine h.invariant Isolated.init ?_
    intro a s s' hs hok hstep
    exact hs.move (step_move hstep) hok
  refine ⟨fun U hU hTU => separate_iff.mp (hsep T hT U hU hTU), fun own hown => ?_⟩
  have hid : InNamespace T (namespacedOrderID T own) := ⟨own, hown, rfl⟩
  refine ⟨fun e he hname => ?_, fun r hr => ?_, fun c hc => ?_, fun d hd hdid => ?_⟩
  · exact hisolated.session_of_owns hsep hT hid ((hisolated.bound he).owns_name hname)
  · exact hisolated.session_of_owns hsep hT hid (hisolated.route _ r hr)
  · exact hisolated.session_of_owns hsep hT hid (hisolated.inflight _ c hc)
  · exact hisolated.session_of_owns hsep hT hid (hdid ▸ hisolated.delivered d hd)

/-- Client 0 sends an order, client 1 registers another one, and then client 0's report comes back. -/
def twoTraders (T U x y : String) : List (Action Nat Nat) :=
  [.logon 0 T, .logon 1 U, .message 0 (.sample x), .handler 0, .write 0 0] ++ takeUp 0 1 ++ answerOnce ++
    [.message 1 (.sample y), .handler 1, .read 0, .reader 0, .reader 0]

/-- Two traders use the same client order id. -/
theorem trader_isolation_same_id : ∃ s : Network Nat Nat,
    Reached Config.sample (staysWith ["a", "b"] · ·) s ∧
      s.delivered.map (fun d => (d.client, d.orderId, d.report.orderId)) =
      [(0, "a::x", "x")] ∧ (∀ d ∈ s.delivered, d.orderId = "a::x" → s.sessions d.client = some "a") ∧
      ∀ r, s.orderClientMap["b::x"]? = some r → s.sessions r.conn = some "b" := by
  obtain ⟨s, hs, hout⟩ := Reached.of_exec Config.sample (staysWith ["a", "b"] · ·) (twoTraders "a" "b" "x" "x")
    (fun s => s.delivered.map (fun d => (d.client, d.orderId, d.report.orderId)) = [(0, "a::x", "x")])
    (by decide +kernel)
  have hsep : ∀ T ∈ ["a", "b"], ∀ U ∈ ["a", "b"], T ≠ U → Separate T U := by decide +kernel
  obtain ⟨-, -, -, hdelivered⟩ := (trader_isolation hsep hs mem_cons_self).2 "x" (by decide)
  obtain ⟨-, hroute, -⟩ := (trader_isolation hsep hs (T := "b") (by decide)).2 "x" (by decide)
  exact ⟨s, hs, of_decide_eq_true hout, hdelivered, hroute⟩

/-- An id of trader `"a"` is also one of trader `"a::b"`, who takes over its route and report; and a connection that
logs on again gets the reports of its trader before. -/
theorem trader_isolation_broken : namespacedOrderID "a" "b::c" = namespacedOrderID "a::b" "c" ∧
    (∃ s : Network Nat Nat, Reached Config.sample (anyAction · ·) s ∧ s.sessions 0 = some "a" ∧
      s.sessions 1 = some "a::b" ∧
      s.delivered.map (fun d => (d.client, d.source.bind fun r => r.source.map Entry.client)) = [(1, some 0)]) ∧
    ∃ s : Network Nat Nat, Reached Config.sample (anyAction · ·) s ∧ s.sessions 0 = some "b" ∧
      s.delivered.map (fun d => (d.client, d.orderId)) = [(0, "a::x")] := by
  obtain ⟨s, hs, hout⟩ := Reached.of_exec Config.sample (anyAction · ·) (twoTraders "a" "a::b" "b::c" "c")
    (fun s => s.sessions 0 = some "a" ∧ s.sessions 1 = some "a::b" ∧
      s.delivered.map (fun d => (d.client, d.source.bind fun r => r.source.map Entry.client)) = [(1, some 0)])
    (by decide +kernel)
  obtain ⟨s', hs', hout'⟩ := Reached.of_exec Config.sample (anyAction · ·)
    ([.logon 0 "a", .message 0 (.sample "x"), .handler 0, .write 0 0] ++ takeUp 0 1 ++ answerOnce ++
      [.logon 0 "b", .read 0, .reader 0, .reader 0])
    (fun s => s.sessions 0 = some "b" ∧ s.delivered.map (fun d => (d.client, d.orderId)) = [(0, "a::x")])
    (by decide +kernel)
  exact ⟨by decide +kernel, ⟨s, hs, of_decide_eq_true hout⟩, s', hs', of_decide_eq_true hout'⟩

end Fxp.Gateway

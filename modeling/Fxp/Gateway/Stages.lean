import Fxp.Gateway.Transit

/-!
# How far a cancel or replace has come

`Stage` says how far a cancel or replace has come, from the first operation of its handler to the last of the reader
that routes the answer, and what the tables hold for it then: once it is written, a route for its order and an entry
of `inflightRequests` that lead the answer to the connection it came from.
-/

namespace Fxp.Gateway

open Machine Network List Function

variable {C K : Type} [DecidableEq C] [DecidableEq K] {cfg : Config K} {a : Action C K} {s s' : Network C K}
variable {route : OrderRoute C}

def Reader.ids : Reader C → List String
  | .dropLoad newID r => [r.report.orderId, newID]
  | .dropDelete newID r => [r.report.orderId, newID]
  | q => (q.sent.map (·.report.orderId)).toList

/-- No unanswered cancel or replace names an id of the request; before a cancel or replace, no replacement is left of
its order and no one is at work on its ids. -/
def Network.StartOk (s : Network C K) (m : Request) : Prop :=
  (∀ e ∈ s.outstanding, ∀ id ∈ m.names, id ∉ e.request.names) ∧
    (m.isChange = true → s.pendingReplace[m.orderId]? = none ∧
      (∀ c, ∀ e ∈ (s.handlers c).entry, e.request.isChange = false → e.request.orderId ∉ m.names) ∧
      ∀ k, ∀ id ∈ (s.readers k).ids, id ∉ m.names)

/-- A report that ends an order or answers a request is taken when only the request it answers is outstanding for the
order and no other reader is at work on such a report; a reject is for an outstanding request. -/
def Network.TakeOk (s : Network C K) (r : Sent C) : Prop :=
  (∀ e ∈ s.outstanding, e.request.orderId = r.report.orderId → e.answeredBy r = true) ∧
    (∀ k, ∀ r' ∈ (s.readers k).sent, terminal r'.report = true → r'.report.orderId ≠ r.report.orderId) ∧
    (requestReject r.report = true → ∃ e ∈ s.outstanding, e.answeredBy r = true)

def orderly (a : Action C K) (s : Network C K) : Prop :=
  match a with
  | .message c m => ∀ trader ∈ s.sessions c, s.StartOk (bindOwner trader m)
  | .read k => ∀ r ∈ (s.down k).head?, terminal r.report = true → s.TakeOk r
  | _ => True

theorem terminal_of_isRequestReply {rep} (h : isRequestReply rep = true) : terminal rep = true := by
  simp only [isRequestReply, requestReject, terminal, Bool.or_eq_true, Bool.and_eq_true] at h ⊢
  tauto

theorem isRequestReply_of_requestReject {rep} (h : requestReject rep = true) : isRequestReply rep = true := by
  simp only [isRequestReply, h, Bool.true_or]

/-- What the state of a reader says about its report. -/
def Reader.Proper : Reader C → Prop
  | .reply _ r => isRequestReply r.report = true
  | .dropRoute _ r => requestReject r.report = true
  | .takePending r => requestReject r.report = true
  | .dropLoad _ r => requestReject r.report = true
  | .dropDelete _ r => requestReject r.report = true
  | .clearPending _ r => r.report.orderStatus = .replaced
  | .finish _ r => requestReject r.report = false
  | _ => True

theorem Move.reader_proper (hmove : Move cfg s a s') (h : ∀ k, (s.readers k).Proper) (k : K) :
    (s'.readers k).Proper := by
  have step : ∀ {k₀ : K} {q : Reader C}, q.Proper → (update s.readers k₀ q k).Proper := by
    intro k₀ q hq
    rw [update_apply]
    split
    · exact hq
    · exact h k
  cases hmove with
  | load =>
    refine step ?_
    unfold afterLoad
    split
    · assumption
    · trivial
  | delivered =>
    refine step ?_
    unfold afterDelivery
    split
    · assumption
    split
    · assumption
    · rename_i hreject _
      exact Bool.eq_false_iff.mpr hreject
  | @clearPending k₀ r _ hat =>
    refine step ?_
    have hreplaced : r.report.orderStatus = .replaced := by
      have := h k₀
      rwa [hat] at this
    simp [Reader.Proper, requestReject, hreplaced]
  | @dropRoute k₀ r route hat | @keepRoute k₀ r route hat | @takePending k₀ r _ _ hat
  | @dropLoad k₀ _ _ _ hat =>
    refine step ?_
    have := h k₀
    rwa [hat] at this
  | read | unrouted | noPending | keep | dropDelete | retire | promote | finish | replyOwn | replyForeign | deliver =>
    exact step trivial
  | _ => exact h k

/-- What the state of a handler says about its request. -/
def Handler.Proper : Handler C → Prop
  | .registerNew e => e.request.newOrderId ≠ ""
  | .storePending e => e.request.newOrderId ≠ ""
  | .lookup e => e.request.isChange = true
  | .storeInflight e => e.request.isChange = true
  | _ => True

theorem Move.handler_proper (hmove : Move cfg s a s') (h : ∀ c, (s.handlers c).Proper) (c : C) :
    (s'.handlers c).Proper := by
  have step : ∀ {c₀ : C} {q : Handler C}, q.Proper → (update s.handlers c₀ q c).Proper := by
    intro c₀ q hq
    rw [update_apply]
    split
    · exact hq
    · exact h c
  cases hmove with
  | start =>
    refine step ?_
    unfold firstState
    split
    · assumption
    · trivial
  | @registerReplacement c₀ _ hat =>
    refine step ?_
    have := h c₀
    rwa [hat] at this
  | targetKnown _ hchange => exact step hchange
  | @foreign c₀ _ _ hat =>
    refine step ?_
    have := h c₀
    rwa [hat] at this
  | replacementKnown | storePending | registerOrder | registerTarget | own | storeInflight | forget | forgetInflight
  | write => exact step trivial
  | fail =>
    refine step ?_
    split <;> trivial
  | _ => exact h c

theorem Request.isChange_of_newOrderId {m : Request} (h : m.newOrderId ≠ "") : m.isChange = true := by
  cases m with
  | newOrder => exact absurd rfl h
  | orderCancel | orderCancelReplace => rfl

theorem Request.newOrderId_mem_names {m : Request} (h : m.newOrderId ≠ "") : m.newOrderId ∈ m.names :=
  mem_cons_of_mem _ (mem_filter.mpr ⟨mem_singleton_self _, by simpa using h⟩)

theorem Request.orderId_mem_names (m : Request) : m.orderId ∈ m.names := mem_cons_self

theorem Entry.answeredBy_iff {e : Entry C} {r : Sent C} : e.answeredBy r = true ↔
    e.request.isChange = true ∧ r.source = some e ∧ r.report.orderId = e.request.orderId ∧
      isRequestReply r.report = true := by
  simp only [answeredBy, Bool.and_eq_true, decide_eq_true_eq, and_assoc]

theorem Entry.terminal_of_answeredBy {e : Entry C} {r : Sent C} (h : e.answeredBy r = true) :
    terminal r.report = true :=
  terminal_of_isRequestReply (answeredBy_iff.mp h).2.2.2

/-- A provisional route for `id` that the request has registered. -/
def Tagged (s : Network C K) (e : Entry C) (id : String) : Prop :=
  ∃ route, s.orderClientMap[id]? = some route ∧ route.provisional = true ∧ route.request = e

/-- A route for the replacement, which `pendingReplace` knows of. -/
def Linked (s : Network C K) (e : Entry C) (id : String) : Prop :=
  id = e.request.newOrderId ∧ s.pendingReplace[e.request.orderId]? = some (e.request.newOrderId, e)

/-- The connection of the request has got an answer, or it is closed. -/
def Got (s : Network C K) (e : Entry C) : Prop :=
  s.closed e.client = true ∨
    ∃ d ∈ s.delivered, d.client = e.client ∧ ∃ r, d.source = some r ∧ e.answeredBy r = true

/-- An answer that is routed by `route` goes to the connection of the request. -/
def Leads (s : Network C K) (e : Entry C) (route : OrderRoute C) : Prop :=
  s.inflightRequests[e.request.orderId]? = some e.client ∨
    s.inflightRequests[e.request.orderId]? = none ∧ route.conn = e.client

/-- A route that is no longer provisional in the hands of the reader is not provisional in the table. -/
def Copied (s : Network C K) (e : Entry C) (route : OrderRoute C) : Prop :=
  route.provisional = false → ∀ cur, s.orderClientMap[e.request.orderId]? = some cur → cur.provisional = false

/-- Where a reader is with the answer to a request. -/
inductive Answering (s : Network C K) (e : Entry C) : Reader C → Prop
  | reply {route r} (hleads : Leads s e route) (hcopied : Copied s e route)
    (htags : ∀ id, Tagged s e id → id = e.request.orderId ∨ Linked s e id) : Answering s e (.reply route r)
  | deliver {route targets r} (hgot : e.client ∈ targets ∨ Got s e)
    (hinflight : s.inflightRequests[e.request.orderId]? = none) (hcopied : Copied s e route)
    (htags : ∀ id, Tagged s e id → id = e.request.orderId ∨ Linked s e id) : Answering s e (.deliver route targets r)
  | dropRoute {route r} (hgot : Got s e)
    (hinflight : s.inflightRequests[e.request.orderId]? = none) (hcopied : Copied s e route)
    (htags : ∀ id, Tagged s e id → id = e.request.orderId ∨ Linked s e id) : Answering s e (.dropRoute route r)
  | takePending {r} (hgot : Got s e) (hinflight : s.inflightRequests[e.request.orderId]? = none)
    (htags : ∀ id, Tagged s e id → Linked s e id) : Answering s e (.takePending r)
  | dropLoad {newID r} (hgot : Got s e)
    (hinflight : s.inflightRequests[e.request.orderId]? = none)
    (hpending : s.pendingReplace[e.request.orderId]? = none) (htags : ∀ id, Tagged s e id → id = newID) :
    Answering s e (.dropLoad newID r)
  | dropDelete {newID r} (hgot : Got s e)
    (hinflight : s.inflightRequests[e.request.orderId]? = none)
    (hpending : s.pendingReplace[e.request.orderId]? = none) (htags : ∀ id, Tagged s e id → id = newID) :
    Answering s e (.dropDelete newID r)
  | clearPending {route r} (hgot : Got s e)
    (hinflight : s.inflightRequests[e.request.orderId]? = none) : Answering s e (.clearPending route r)
  | finish {route r} (hgot : Got s e)
    (hinflight : s.inflightRequests[e.request.orderId]? = none) : Answering s e (.finish route r)

/-- Where a request is before it waits for its answer, and what the tables hold for it. -/
inductive Registering (s : Network C K) (e : Entry C) : Handler C → Prop
  | begun (hpending : s.pendingReplace[e.request.orderId]? = none) (htags : ∀ id, ¬ Tagged s e id) :
    Registering s e (.registerNew e)
  | replacing (htags : ∀ id, Tagged s e id → id = e.request.newOrderId) : Registering s e (.storePending e)
  | registering (htags : ∀ id, Tagged s e id → Linked s e id) : Registering s e (.register e)
  | looking (hroute : ∃ route, s.orderClientMap[e.request.orderId]? = some route)
    (htags : ∀ id, Tagged s e id → Linked s e id) : Registering s e (.lookup e)
  | asking (hroute : ∃ route, s.orderClientMap[e.request.orderId]? = some route)
    (htags : ∀ id, Tagged s e id → Linked s e id) : Registering s e (.storeInflight e)

inductive Stage (s : Network C K) (e : Entry C) : Prop
  | registering (hat : Registering s e (s.handlers e.client))
    (hinflight : s.inflightRequests[e.request.orderId]? = none)
  | failing (hat : s.handlers e.client = .forget e ∨ s.handlers e.client = .forgetInflight e)
  | waiting (hat : (∃ stored, s.handlers e.client = .write e stored) ∨ (s.handlers e.client).entry ≠ some e)
    (hroute : ∃ route, s.orderClientMap[e.request.orderId]? = some route ∧ Leads s e route)
    (htags : ∀ id, Tagged s e id → id = e.request.orderId ∨ Linked s e id)
    (hreaders : ∀ k r, (s.readers k).sent = some r → e.answeredBy r = true → s.readers k = .load r)
  | answering {k r} (hsent : (s.readers k).sent = some r) (hanswer : e.answeredBy r = true)
    (hat : Answering s e (s.readers k))

/-- The request has not failed, and no reader has found a route for its answer yet. -/
def Standing (s : Network C K) (e : Entry C) : Prop :=
  s.handlers e.client ≠ .forget e ∧ s.handlers e.client ≠ .forgetInflight e ∧
    ∀ k r, (s.readers k).sent = some r → e.answeredBy r = true → s.readers k = .load r

def Reader.copy : Reader C → Option (OrderRoute C)
  | .deliver route _ _ => some route
  | .finish route _ => some route
  | _ => none

structure Answerable (s : Network C K) : Prop where
  numbered : Numbered s
  readers : ∀ k, (s.readers k).Proper
  handlers : ∀ c, (s.handlers c).Proper
  change : ∀ e ∈ s.outstanding, e.request.isChange = true
  recent : ∀ e ∈ s.outstanding, e.serial < s.sent e.client
  disjoint : ∀ e ∈ s.outstanding, ∀ e' ∈ s.outstanding, ∀ id ∈ e.request.names, id ∈ e'.request.names → e = e'
  handled : ∀ c e, (s.handlers c).entry = some e → e.request.isChange = true → e ∈ s.outstanding
  orders : ∀ c e, (s.handlers c).entry = some e → e.request.isChange = false →
    ∀ e' ∈ s.outstanding, e.request.orderId ∉ e'.request.names
  inflight : ∀ (id : String) c, s.inflightRequests[id]? = some c → ∃ e ∈ s.outstanding, e.request.orderId = id
  pendingTag : ∀ (id : String) p, s.pendingReplace[id]? = some p →
    p.2.request.orderId = id ∧ p.1 = p.2.request.newOrderId ∧ p.2.request.newOrderId ≠ ""
  pendingOwn : ∀ e ∈ s.outstanding, ∀ p, s.pendingReplace[e.request.orderId]? = some p → p.2 = e
  terminals : ∀ k r, (s.readers k).sent = some r → terminal r.report = true →
    ∀ e ∈ s.outstanding, e.request.orderId = r.report.orderId → e.answeredBy r = true
  single : ∀ k k' r r', (s.readers k).sent = some r → (s.readers k').sent = some r' → terminal r.report = true →
    terminal r'.report = true → r.report.orderId = r'.report.orderId → k = k'
  rejects : ∀ k r, (s.readers k).sent = some r → requestReject r.report = true →
    ∃ e ∈ s.outstanding, e.answeredBy r = true
  drops : ∀ k newID r, s.readers k = .dropLoad newID r ∨ s.readers k = .dropDelete newID r →
    ∀ e ∈ s.outstanding, newID ∈ e.request.names → e.answeredBy r = true
  copies : ∀ k route r, (s.readers k).copy = some route → (s.readers k).sent = some r → terminal r.report = false →
    ∀ e ∈ s.outstanding, e.request.orderId = r.report.orderId → Standing s e →
      ∃ cur, s.orderClientMap[e.request.orderId]? = some cur ∧ cur.conn = route.conn
  stages : ∀ e ∈ s.outstanding, Stage s e
  away : ∀ e, Away s e → e.request.isChange = true → e ∈ s.outstanding ∨ Got s e
  emitted : ∀ p ∈ s.emitted, OnItsWay s p.1 p.2 ∨
    ∀ e, e.answeredBy p.2 = true → e ∉ s.outstanding ∧ (requestReject p.2.report = true → e ∈ s.refused)
  tagRecent : ∀ e id, Tagged s e id → e.serial < s.sent e.client
  cleared : ∀ e ∈ s.refused, (∃ p ∈ s.emitted, p.2.source = some e) ∧ (∀ id, ¬ Tagged s e id) ∧
    ∀ (id : String) p, s.pendingReplace[id]? = some p → p.2 ≠ e

/-- The step is one of the handler of the request, or of a reader that has an answer to it. -/
inductive Acts (s : Network C K) (e : Entry C) : Action C K → Prop
  | handler (h : (s.handlers e.client).entry = some e) : Acts s e (.handler e.client)
  | write {k} (h : (s.handlers e.client).entry = some e) : Acts s e (.write e.client k)
  | fail (h : (s.handlers e.client).entry = some e) : Acts s e (.fail e.client)
  | reader {k r} (hsent : (s.readers k).sent = some r) (hanswer : e.answeredBy r = true) :
    Acts s e (.reader k)

/-- What the steps of others leave as it is for an outstanding request. -/
structure Undisturbed (s s' : Network C K) (e : Entry C) : Prop where
  route : s'.orderClientMap[e.request.orderId]? = s.orderClientMap[e.request.orderId]? ∨
    ∃ k route r, s.readers k = .finish route r ∧ r.report.orderId = e.request.orderId ∧ terminal r.report = false ∧
      s'.orderClientMap[e.request.orderId]? = some { route with provisional := false }
  inflight : s'.inflightRequests[e.request.orderId]? = s.inflightRequests[e.request.orderId]?
  pending : s'.pendingReplace[e.request.orderId]? = s.pendingReplace[e.request.orderId]?
  tags : ∀ id, Tagged s' e id → Tagged s e id
  got : Got s e → Got s' e

theorem Move.got (hmove : Move cfg s a s') {e} (h : Got s e) : Got s' e := by
  rcases h with h | ⟨d, hd, h⟩
  · refine .inl ?_
    cases hmove with
    | close =>
      show update s.closed _ true e.client = true
      rw [update_apply]
      split
      · rfl
      · exact h
    | _ => exact h
  · refine .inr ⟨d, ?_, h⟩
    cases hmove with
    | refuse => exact mem_append_left _ hd
    | @deliver _ _ _ c =>
      show d ∈ if s.closed c then s.delivered else _
      split
      · exact hd
      · exact mem_append_left _ hd
    | _ => exact hd

theorem Move.tagged (hmove : Move cfg s a s') {e id} (h : Tagged s' e id) :
    Tagged s e id ∨ ∃ c, a = .handler c ∧ (s.handlers c).entry = some e := by
  obtain ⟨route, hroute, hprov, he⟩ := h
  rcases hmove.route_at id with hsame | hedit
  · exact .inl ⟨route, hsame ▸ hroute, hprov, he⟩
  rw [hroute] at hedit
  cases hedit with
  | replacement hat => exact .inr ⟨_, rfl, by rw [hat, ← he]; rfl⟩
  | order => cases hprov
  | target hat => exact .inr ⟨_, rfl, by rw [hat, ← he]; rfl⟩
  | promote => cases hprov

namespace Answerable

variable {e : Entry C}

section

variable (h : Answerable s)
include h

omit [DecidableEq K] in
theorem reader_at {k q} (hat : s.readers k = q) : q.Proper := hat ▸ h.readers k

omit [DecidableEq K] in
theorem handler_at {c q} (hat : s.handlers c = q) : q.Proper := hat ▸ h.handlers c

end

omit [DecidableEq K] in
/-- A handler at work on an id of an outstanding request is the one of this request. -/
theorem acts_of_handler (h : Answerable s) (he : e ∈ s.outstanding) {c : C} {e' : Entry C} {id : String}
    (hat : (s.handlers c).entry = some e') (hid' : id ∈ e'.request.names) (hid : id ∈ e.request.names) :
    c = e.client ∧ (s.handlers e.client).entry = some e := by
  cases hchange : e'.request.isChange with
  | true =>
    obtain rfl := h.disjoint e' (h.handled c e' hat hchange) e he id hid' hid
    obtain rfl := h.numbered.own c e' hat
    exact ⟨rfl, hat⟩
  | false =>
    have hnew : e'.request.newOrderId = "" := by
      by_contra hne
      rw [Request.isChange_of_newOrderId hne] at hchange
      cases hchange
    have : id = e'.request.orderId := by
      simpa [Request.names, hnew] using hid'
    exact absurd hid (this ▸ h.orders c e' hat hchange e he)

theorem undisturbed (h : Answerable s) (he : e ∈ s.outstanding) (hmove : Move cfg s a s') (hacts : ¬ Acts s e a) :
    Undisturbed s s' e := by
  have hname := e.request.orderId_mem_names
  have handlers : ∀ {c : C} {e' : Entry C} {id : String}, (s.handlers c).entry = some e' → id ∈ e'.request.names →
      id ∈ e.request.names → a = .handler c → False := by
    intro c e' id hat hid' hid ha
    obtain ⟨hc, hentry⟩ := h.acts_of_handler he hat hid' hid
    exact hacts (ha ▸ hc ▸ .handler hentry)
  have orders : ∀ {c : C} {e' : Entry C}, (s.handlers c).entry = some e' → e'.request.orderId = e.request.orderId →
      a = .handler c → False := fun hat hid => handlers hat (hid ▸ Request.orderId_mem_names _) hname
  have readers : ∀ {k : K} {r : Sent C}, (s.readers k).sent = some r → terminal r.report = true →
      r.report.orderId = e.request.orderId → a = .reader k → False := by
    intro k r hsent hterminal hid ha
    exact hacts (ha ▸ .reader hsent (h.terminals k r hsent hterminal e he hid.symm))
  constructor
  · rcases hmove.route_at e.request.orderId with hsame | hedit
    · exact .inl hsame
    generalize s'.orderClientMap[e.request.orderId]? = new at hedit ⊢
    cases hedit with
    | @replacement _ e' hat hid =>
      have hne : e'.request.newOrderId ≠ "" := h.handler_at hat
      exact (handlers (by rw [hat]; rfl) (hid ▸ Request.newOrderId_mem_names hne) hname rfl).elim
    | order hat hid | target hat hid | forget hat hid => exact (orders (by rw [hat]; rfl) hid rfl).elim
    | @drop _ _ r hat hid =>
      have hreject : requestReject r.report = true := h.reader_at hat
      exact (readers (by rw [hat]; rfl)
        (terminal_of_isRequestReply (isRequestReply_of_requestReject hreject)) hid rfl).elim
    | @dropReplacement k r hat =>
      have hanswer := h.drops k _ r (.inr hat) e he hname
      exact (hacts (.reader (by rw [hat]; rfl) hanswer)).elim
    | @retire _ _ _ hat hid hterminal => exact (readers (by rw [hat]; rfl) hterminal hid rfl).elim
    | @promote k route r hat hid hterminal => exact .inr ⟨k, route, r, hat, hid, hterminal, rfl⟩
  · rcases hmove.inflight_at e.request.orderId with hsame | hedit
    · exact hsame
    generalize s'.inflightRequests[e.request.orderId]? = new at hedit ⊢
    cases hedit with
    | store hat hid | forget hat hid => exact (orders (by rw [hat]; rfl) hid rfl).elim
    | @take _ _ r hat hid =>
      have hreply : isRequestReply r.report = true := h.reader_at hat
      exact (readers (by rw [hat]; rfl) (terminal_of_isRequestReply hreply) hid rfl).elim
  · rcases hmove.pending_at e.request.orderId with hsame | hedit
    · exact hsame
    generalize s'.pendingReplace[e.request.orderId]? = new at hedit ⊢
    cases hedit with
    | store hat hid => exact (orders (by rw [hat]; rfl) hid rfl).elim
    | @take _ r hat hid =>
      have hreject : requestReject r.report = true := h.reader_at hat
      exact (readers (by rw [hat]; rfl)
        (terminal_of_isRequestReply (isRequestReply_of_requestReject hreject)) hid rfl).elim
    | @clear _ _ r hat hid =>
      have hreplaced : r.report.orderStatus = .replaced := h.reader_at hat
      exact (readers (by rw [hat]; rfl) (by simp [terminal, hreplaced]) hid rfl).elim
  · intro id hid
    rcases hmove.tagged hid with hid | ⟨c, rfl, hat⟩
    · exact hid
    · obtain rfl := h.numbered.own c e hat
      exact (hacts (.handler hat)).elim
  · exact hmove.got

end Answerable

section Undisturbed

variable {e : Entry C}

omit [DecidableEq K] in
theorem Undisturbed.linked (hu : Undisturbed s s' e) {id} (h : Linked s e id) : Linked s' e id :=
  ⟨h.1, hu.pending.trans h.2⟩

omit [DecidableEq K] in
theorem Undisturbed.own_or_linked (hu : Undisturbed s s' e)
    (h : ∀ id, Tagged s e id → id = e.request.orderId ∨ Linked s e id) (id : String) (hid : Tagged s' e id) :
    id = e.request.orderId ∨ Linked s' e id :=
  (h id (hu.tags id hid)).imp_right hu.linked

omit [DecidableEq K] in
theorem Undisturbed.leads (hu : Undisturbed s s' e) (h : Leads s e route) : Leads s' e route := by
  unfold Leads
  rw [hu.inflight]
  exact h

omit [DecidableEq K] in
theorem Undisturbed.copied (hu : Undisturbed s s' e) (h : Copied s e route) :
    Copied s' e route := by
  intro hprov cur hcur
  rcases hu.route with hsame | ⟨_, _, _, -, -, -, hnew⟩
  · exact h hprov cur (hsame ▸ hcur)
  rw [hnew] at hcur
  cases hcur
  rfl

omit [DecidableEq K] in
theorem Registering.undisturbed {q} (hu : Undisturbed s s' e) (h : Registering s e q) :
    Registering s' e q := by
  have hroute : (∃ route, s.orderClientMap[e.request.orderId]? = some route) →
      ∃ route, s'.orderClientMap[e.request.orderId]? = some route := by
    rintro ⟨route, hroute⟩
    rcases hu.route with hsame | ⟨_, _, _, -, -, -, hnew⟩
    · exact ⟨route, hsame.trans hroute⟩
    · exact ⟨_, hnew⟩
  cases h with
  | begun hpending htags => exact .begun (hu.pending.trans hpending) fun id hid => htags id (hu.tags id hid)
  | replacing htags => exact .replacing fun id hid => htags id (hu.tags id hid)
  | registering htags => exact .registering fun id hid => hu.linked (htags id (hu.tags id hid))
  | looking h htags => exact .looking (hroute h) fun id hid => hu.linked (htags id (hu.tags id hid))
  | asking h htags => exact .asking (hroute h) fun id hid => hu.linked (htags id (hu.tags id hid))

omit [DecidableEq K] in
theorem Answering.undisturbed {q} (hu : Undisturbed s s' e) (h : Answering s e q) : Answering s' e q := by
  cases h with
  | reply hleads hcopied htags => exact .reply (hu.leads hleads) (hu.copied hcopied) (hu.own_or_linked htags)
  | deliver hgot hinflight hcopied htags =>
    exact .deliver (hgot.imp_right hu.got) (hu.inflight.trans hinflight) (hu.copied hcopied) (hu.own_or_linked htags)
  | dropRoute hgot hinflight hcopied htags =>
    exact .dropRoute (hu.got hgot) (hu.inflight.trans hinflight) (hu.copied hcopied) (hu.own_or_linked htags)
  | takePending hgot hinflight htags =>
    exact .takePending (hu.got hgot) (hu.inflight.trans hinflight) fun id hid => hu.linked (htags id (hu.tags id hid))
  | dropLoad hgot hinflight hpending htags =>
    exact .dropLoad (hu.got hgot) (hu.inflight.trans hinflight) (hu.pending.trans hpending)
      fun id hid => htags id (hu.tags id hid)
  | dropDelete hgot hinflight hpending htags =>
    exact .dropDelete (hu.got hgot) (hu.inflight.trans hinflight) (hu.pending.trans hpending)
      fun id hid => htags id (hu.tags id hid)
  | clearPending hgot hinflight => exact .clearPending (hu.got hgot) (hu.inflight.trans hinflight)
  | finish hgot hinflight => exact .finish (hu.got hgot) (hu.inflight.trans hinflight)

omit [DecidableEq C] [DecidableEq K] in
theorem Registering.entry {q} (h : Registering s e q) : q.entry = some e := by
  cases h <;> rfl

section

variable (hmove : Move cfg s a s')
include hmove

/-- The handler of a request that it is at work on is moved by its own steps only. -/
theorem handler_of_not_acts (hacts : ¬ Acts s e a)
    (hentry : (s.handlers e.client).entry = some e) : s'.handlers e.client = s.handlers e.client := by
  rcases hmove.handlers_at e.client with hsame | ⟨_, rfl⟩ | rfl | ⟨_, rfl⟩ | rfl
  · exact hsame
  · have hidle : s.handlers e.client = .idle := by
      cases hmove <;> assumption
    rw [hidle] at hentry
    cases hentry
  · exact (hacts (.handler hentry)).elim
  · exact (hacts (.write hentry)).elim
  · exact (hacts (.fail hentry)).elim

private theorem entry_ne (hrecent : e.serial < s.sent e.client)
    (hentry : (s.handlers e.client).entry ≠ some e) : (s'.handlers e.client).entry ≠ some e := by
  intro hentry'
  rcases hmove.handler_entry hentry' with h | ⟨_, _, -, -, -, he⟩
  · exact hentry h
  · have hserial : e.serial = s.sent e.client := congrArg Entry.serial he
    omega

/-- A reader that has an answer to the request is moved by its own steps only. -/
theorem reader_of_not_acts (hacts : ¬ Acts s e a) {k r}
    (hsent : (s.readers k).sent = some r) (hanswer : e.answeredBy r = true) : s'.readers k = s.readers k := by
  rcases hmove.readers_at k with hsame | rfl | rfl
  · exact hsame
  · obtain ⟨_, hidle, -⟩ := hmove.read_sent
    rw [hidle] at hsent
    cases hsent
  · exact (hacts (.reader hsent hanswer)).elim

private theorem load_of_not_acts (hacts : ¬ Acts s e a)
    (h : ∀ k r, (s.readers k).sent = some r → e.answeredBy r = true → s.readers k = .load r) (k : K) (r : Sent C)
    (hsent : (s'.readers k).sent = some r) (hanswer : e.answeredBy r = true) : s'.readers k = .load r := by
  rcases hmove.readers_at k with hsame | rfl | rfl
  · rw [hsame] at hsent ⊢
    exact h k r hsent hanswer
  · obtain ⟨_, -, -, hload⟩ := hmove.read_sent
    rw [hload] at hsent ⊢
    cases hsent
    rfl
  obtain ⟨_, hr', ⟨hgoes, -⟩ | ⟨hdone, -⟩⟩ := hmove.reader_sent
  · rw [hsent] at hgoes
    cases hgoes
    exact (hacts (.reader hr' hanswer)).elim
  · rw [hdone] at hsent
    cases hsent

end

theorem Stage.others (h : Answerable s) (he : e ∈ s.outstanding) (hmove : Move cfg s a s') (hacts : ¬ Acts s e a) :
    Stage s' e := by
  have hu := h.undisturbed he hmove hacts
  cases h.stages e he with
  | registering hat hinflight =>
    have hsame := handler_of_not_acts hmove hacts hat.entry
    exact .registering (hsame ▸ hat.undisturbed hu) (hu.inflight.trans hinflight)
  | failing hat =>
    have hsame : s'.handlers e.client = s.handlers e.client := by
      refine handler_of_not_acts hmove hacts ?_
      rcases hat with hat | hat <;> rw [hat] <;> rfl
    exact .failing (by rw [hsame]; exact hat)
  | waiting hat hroute htags hreaders =>
    refine .waiting ?_ ?_ (hu.own_or_linked htags) (load_of_not_acts hmove hacts hreaders)
    · rcases hat with ⟨stored, hat⟩ | hat
      · exact .inl ⟨stored, (handler_of_not_acts hmove hacts (by rw [hat]; rfl)).trans hat⟩
      · exact .inr (entry_ne hmove (h.recent e he) hat)
    obtain ⟨cur, hcur, hleads⟩ := hroute
    rcases hu.route with hsame | ⟨k, route, r, hat', hid, hterminal, hnew⟩
    · exact ⟨cur, hsame.trans hcur, hu.leads hleads⟩
    -- a reader promotes a copy of the route, which leads to the same connection
    have hstanding : Standing s e := by
      refine ⟨?_, ?_, hreaders⟩ <;> intro hforget <;> rcases hat with ⟨stored, hat⟩ | hat <;>
        rw [hforget] at hat <;> first | cases hat | exact hat rfl
    obtain ⟨_, hcur', hconn⟩ := h.copies k route r (by rw [hat']; rfl) (by rw [hat']; rfl) hterminal e he
      hid.symm hstanding
    rw [hcur] at hcur'
    cases hcur'
    refine ⟨_, hnew, hu.leads ?_⟩
    rcases hleads with hin | ⟨hnone, hc⟩
    · exact .inl hin
    · exact .inr ⟨hnone, hconn.symm.trans hc⟩
  | @answering _ _ hsent hanswer hat =>
    have hsame := reader_of_not_acts hmove hacts hsent hanswer
    refine .answering (by rw [hsame]; exact hsent) hanswer ?_
    rw [hsame]
    exact hat.undisturbed hu

end Undisturbed

section Handler

variable {e : Entry C}

omit [DecidableEq K] in
/-- No reader has an answer to a request that has not been written. -/
theorem Numbered.no_answer (h : Numbered s) {c : C} (hentry : (s.handlers c).entry = some e) {k : K} {r : Sent C}
    (hsent : (s.readers k).sent = some r) : e.answeredBy r ≠ true := by
  intro hanswer
  have haway : Away s e := .source (h.onWay k r (.reader hsent)) (Entry.answeredBy_iff.mp hanswer).2.1
  exact h.not_in_handler haway hentry

omit [DecidableEq K] in
theorem Stage.of_update {q} (hs' : s'.handlers = update s.handlers e.client q)
    (hat : Registering s' e q) (hinflight : s'.inflightRequests[e.request.orderId]? = none) : Stage s' e := by
  refine .registering ?_ hinflight
  rw [hs', update_self]
  exact hat

omit [DecidableEq C] [DecidableEq K] in
theorem Tagged.of_insert {id key} (hs' : s'.orderClientMap = s.orderClientMap.insert key route)
    (h : Tagged s' e id) : id = key ∨ Tagged s e id := by
  obtain ⟨cur, hcur, h⟩ := h
  rw [hs', Maps.getElem?_insert] at hcur
  split at hcur
  · rename_i heq
    exact .inl heq.symm
  · exact .inr ⟨cur, hcur, h⟩

omit [DecidableEq C] [DecidableEq K] in
theorem Tagged.of_erase {id key} (hs' : s'.orderClientMap = s.orderClientMap.erase key) (h : Tagged s' e id) :
    id ≠ key ∧ Tagged s e id := by
  obtain ⟨cur, hcur, h⟩ := h
  rw [hs', Maps.getElem?_erase] at hcur
  split at hcur
  · cases hcur
  · rename_i hne
    exact ⟨Ne.symm hne, cur, hcur, h⟩

theorem Stage.registered (h : Answerable s) (hmove : Move cfg s (.handler e.client) s') (he : e ∈ s.outstanding)
    (hat : s.handlers e.client = .register e) (hinflight : s.inflightRequests[e.request.orderId]? = none)
    (htags : ∀ id, Tagged s e id → Linked s e id) : Stage s' e := by
  have hs' := hmove.handler_eq
  simp only [Network.handler, hat, h.change e he, if_true] at hs'
  split at hs'
  · rename_i hknown
    cases hs'
    exact .of_update rfl (.looking (Maps.contains_iff.mp hknown) htags) hinflight
  cases hs'
  refine .waiting (.inl ⟨true, update_self ..⟩) ⟨e.route true, ?_, .inr ⟨hinflight, rfl⟩⟩ ?_ ?_
  · show (s.orderClientMap.insert e.request.orderId (e.route true))[e.request.orderId]? = _
    rw [Maps.getElem?_insert, if_pos rfl]
  · exact fun id hid => (hid.of_insert rfl).imp_right (htags id)
  · intro k r hsent hanswer
    exact absurd hanswer (h.numbered.no_answer (by rw [hat]; rfl) hsent)

theorem Stage.looked (h : Answerable s) (hmove : Move cfg s (.handler e.client) s')
    (hat : s.handlers e.client = .lookup e) (hinflight : s.inflightRequests[e.request.orderId]? = none)
    (hroute : ∃ route, s.orderClientMap[e.request.orderId]? = some route)
    (htags : ∀ id, Tagged s e id → Linked s e id) : Stage s' e := by
  obtain ⟨route, hroute⟩ := hroute
  have hs' := hmove.handler_eq
  simp only [Network.handler, hat, hroute, Option.any_some] at hs'
  split at hs'
  · cases hs'
    exact .of_update rfl (.asking ⟨route, hroute⟩ htags) hinflight
  rename_i hconn
  cases hs'
  refine .waiting (.inl ⟨false, update_self ..⟩) ⟨route, hroute, .inr ⟨hinflight, by simpa using hconn⟩⟩
    (fun id hid => .inr (htags id hid)) ?_
  intro k r hsent hanswer
  exact absurd hanswer (h.numbered.no_answer (by rw [hat]; rfl) hsent)

/-- The handler of a request brings it a stage further, until the last step after a failed write. -/
theorem Stage.handler (h : Answerable s) (he : e ∈ s.outstanding) (hmove : Move cfg s (.handler e.client) s')
    (hentry : (s.handlers e.client).entry = some e) : Stage s' e ∨ s.handlers e.client = .forgetInflight e := by
  have hs' := hmove.handler_eq
  unfold Network.handler at hs'
  cases h.stages e he with
  | registering hat hinflight =>
    refine .inl ?_
    generalize hq : s.handlers e.client = q at hat
    rw [hq] at hs'
    cases hat with
    | begun _ htags =>
      dsimp only at hs'
      split at hs'
      · cases hs'
        exact .of_update rfl (.registering fun id hid => absurd hid (htags id)) hinflight
      cases hs'
      refine .of_update rfl (.replacing fun id hid => ?_) hinflight
      exact (hid.of_insert rfl).resolve_right (htags id)
    | replacing htags =>
      cases hs'
      refine .of_update rfl (.registering fun id hid => ⟨htags id hid, ?_⟩) hinflight
      show (s.pendingReplace.insert _ _)[e.request.orderId]? = _
      rw [Maps.getElem?_insert, if_pos rfl]
    | registering htags => exact .registered h hmove he hq hinflight htags
    | looking hroute htags => exact .looked h hmove hq hinflight hroute htags
    | asking hroute htags =>
      cases hs'
      obtain ⟨route, hroute⟩ := hroute
      refine .waiting (.inl ⟨false, update_self ..⟩) ⟨route, hroute, .inl ?_⟩
        (fun id hid => .inr (htags id hid)) ?_
      · show (s.inflightRequests.insert _ _)[e.request.orderId]? = _
        rw [Maps.getElem?_insert, if_pos rfl]
      · intro k r hsent hanswer
        exact absurd hanswer (h.numbered.no_answer hentry hsent)
  | failing hat =>
    rcases hat with hat | hat
    · rw [hat] at hs'
      cases hs'
      exact .inl (.failing (.inr (update_self ..)))
    · exact .inr hat
  | waiting hat =>
    rcases hat with ⟨_, hat⟩ | hat
    · rw [hat] at hs'
      cases hs'
    · exact absurd hentry hat
  | answering hsent hanswer => exact absurd hanswer (h.numbered.no_answer hentry hsent)

theorem Stage.write (h : Answerable s) (he : e ∈ s.outstanding) {k} (hmove : Move cfg s (.write e.client k) s')
    (hentry : (s.handlers e.client).entry = some e) : Stage s' e := by
  cases hmove with
  | @write _ _ _ _ hat' =>
    cases h.stages e he with
    | registering hat =>
      rw [hat'] at hat
      cases hat
    | failing hat => rcases hat with hat | hat <;> rw [hat'] at hat <;> cases hat
    | waiting _ hroute htags hreaders =>
      refine .waiting (.inr ?_) hroute htags hreaders
      show (update s.handlers e.client .idle e.client).entry ≠ some e
      rw [update_self]
      simp [Handler.entry]
    | answering hsent hanswer => exact absurd hanswer (h.numbered.no_answer hentry hsent)

theorem Stage.fail (hmove : Move cfg s (.fail e.client) s') (hentry : (s.handlers e.client).entry = some e) :
    Stage s' e := by
  cases hmove with
  | @fail _ _ stored hat' =>
    rw [hat'] at hentry
    cases hentry
    have hat : update s.handlers e.client (if stored then .forget e else .forgetInflight e) e.client =
        if stored then .forget e else .forgetInflight e := update_self ..
    refine .failing ?_
    cases stored with
    | true => exact .inl hat
    | false => exact .inr hat

end Handler

section Reader

variable {e : Entry C} {k : K} {r : Sent C}

omit [DecidableEq K] in
/-- Where the reader is with the answer to an outstanding request. -/
theorem Stage.at_reader (h : Answerable s) (he : e ∈ s.outstanding) (hsent : (s.readers k).sent = some r)
    (hanswer : e.answeredBy r = true) :
    (s.readers k = .load r ∧ (∃ route, s.orderClientMap[e.request.orderId]? = some route ∧ Leads s e route) ∧
      ∀ id, Tagged s e id → id = e.request.orderId ∨ Linked s e id) ∨ Answering s e (s.readers k) := by
  cases h.stages e he with
  | registering hat => exact absurd hanswer (h.numbered.no_answer hat.entry hsent)
  | failing hat =>
    refine absurd hanswer (h.numbered.no_answer (c := e.client) ?_ hsent)
    rcases hat with hat | hat <;> rw [hat] <;> rfl
  | waiting _ hroute htags hreaders => exact .inl ⟨hreaders k r hsent hanswer, hroute, htags⟩
  | @answering k' r' hsent' hanswer' hat =>
    have hid := (Entry.answeredBy_iff.mp hanswer).2.2.1
    have hid' := (Entry.answeredBy_iff.mp hanswer').2.2.1
    obtain rfl := h.single k k' r r' hsent hsent' (Entry.terminal_of_answeredBy hanswer)
      (Entry.terminal_of_answeredBy hanswer') (hid.trans hid'.symm)
    exact .inr hat

/-- The reader goes on with the answer. -/
structure GoesOn (s : Network C K) (e : Entry C) (k : K) (r : Sent C) : Prop where
  sent : (s.readers k).sent = some r
  at_answer : Answering s e (s.readers k)

theorem GoesOn.of_update {q} (hs' : s'.readers = update s.readers k q) (hsent : q.sent = some r)
    (hat : Answering s' e q) : GoesOn s' e k r := by
  have hq : s'.readers k = q := by rw [hs', update_self]
  exact ⟨by rw [hq]; exact hsent, by rw [hq]; exact hat⟩

/-- After the reject of a request nothing is left of it. -/
def Cleared (s : Network C K) (e : Entry C) : Prop :=
  (∀ id, ¬ Tagged s e id) ∧ s.pendingReplace[e.request.orderId]? = none

section

variable (hanswer : e.answeredBy r = true) (hmove : Move cfg s (.reader k) s')
include hanswer hmove

theorem GoesOn.load (hat : s.readers k = .load r)
    (hroute : ∃ route, s.orderClientMap[e.request.orderId]? = some route ∧ Leads s e route)
    (htags : ∀ id, Tagged s e id → id = e.request.orderId ∨ Linked s e id) : GoesOn s' e k r := by
  obtain ⟨-, -, hid, hreply⟩ := Entry.answeredBy_iff.mp hanswer
  obtain ⟨cur, hcur, hleads⟩ := hroute
  have hs' := hmove.reader_eq
  simp only [Network.reader, hat, hid, hcur, hreply, if_true] at hs'
  cases hs'
  refine GoesOn.of_update (q := .reply cur r) rfl rfl (.reply hleads ?_ htags)
  intro hprov cur' hcur'
  cases hcur.symm.trans hcur'
  exact hprov

theorem GoesOn.reply (hat : s.readers k = .reply route r) (hleads : Leads s e route) (hcopied : Copied s e route)
    (htags : ∀ id, Tagged s e id → id = e.request.orderId ∨ Linked s e id) : GoesOn s' e k r := by
  have hid := (Entry.answeredBy_iff.mp hanswer).2.2.1
  have hs' := hmove.reader_eq
  rcases hleads with hsome | ⟨hnone, hconn⟩
  · simp only [Network.reader, hat, hid, hsome] at hs'
    cases hs'
    refine GoesOn.of_update (q := .deliver route _ r) rfl rfl (.deliver (.inl ?_) ?_ hcopied htags)
    · split <;> simp
    · show (s.inflightRequests.erase e.request.orderId)[e.request.orderId]? = none
      rw [Maps.getElem?_erase, if_pos rfl]
  · simp only [Network.reader, hat, hid, hnone] at hs'
    cases hs'
    refine GoesOn.of_update (q := .deliver route [route.conn] r) rfl rfl (.deliver (.inl ?_) hnone hcopied htags)
    rw [hconn]
    exact mem_singleton_self _

theorem GoesOn.deliver {targets} (hat : s.readers k = .deliver route targets r)
    (hgot : e.client ∈ targets ∨ Got s e) (hinflight : s.inflightRequests[e.request.orderId]? = none)
    (hcopied : Copied s e route) (htags : ∀ id, Tagged s e id → id = e.request.orderId ∨ Linked s e id) :
    GoesOn s' e k r := by
  have hs' := hmove.reader_eq
  simp only [Network.reader, hat] at hs'
  cases targets with
  | cons _ rest =>
    cases hs'
    refine GoesOn.of_update (q := .deliver route rest r) rfl rfl (.deliver ?_ hinflight hcopied htags)
    rcases hgot with hmem | hgot
    · rcases mem_cons.mp hmem with rfl | hmem
      · -- the report goes to the connection of the request, if that is still open
        refine .inr ?_
        cases hclosed : s.closed e.client with
        | true => exact .inl hclosed
        | false =>
          refine .inr ⟨⟨e.client, stripOwner route.owner r.report, some r⟩, ?_, rfl, r, rfl, hanswer⟩
          exact mem_append_right _ (mem_singleton_self _)
      · exact .inl hmem
    · exact .inr (hmove.got hgot)
  | nil =>
    cases hs'
    have hgot : Got s e := hgot.resolve_left not_mem_nil
    refine GoesOn.of_update rfl ?_ ?_
    · split
      · rfl
      · split <;> rfl
    split
    · exact .dropRoute (hmove.got hgot) hinflight hcopied htags
    split
    · exact .clearPending (hmove.got hgot) hinflight
    · exact .finish (hmove.got hgot) hinflight

theorem GoesOn.dropRoute (hat : s.readers k = .dropRoute route r) (hgot : Got s e)
    (hinflight : s.inflightRequests[e.request.orderId]? = none) (hcopied : Copied s e route)
    (htags : ∀ id, Tagged s e id → id = e.request.orderId ∨ Linked s e id) : GoesOn s' e k r := by
  have hid := (Entry.answeredBy_iff.mp hanswer).2.2.1
  have hs' := hmove.reader_eq
  simp only [Network.reader, hat, hid] at hs'
  cases hprov : route.provisional with
  | true =>
    rw [if_pos hprov] at hs'
    cases hs'
    refine GoesOn.of_update (q := .takePending r) rfl rfl (.takePending (hmove.got hgot) hinflight fun id hid => ?_)
    obtain ⟨hne, htag⟩ := hid.of_erase rfl
    exact (htags id htag).resolve_left hne
  | false =>
    rw [if_neg (Bool.eq_false_iff.mp hprov)] at hs'
    cases hs'
    refine GoesOn.of_update (q := .takePending r) rfl rfl (.takePending (hmove.got hgot) hinflight ?_)
    rintro id ⟨cur, hcur, hcurProv, htag⟩
    refine (htags id ⟨cur, hcur, hcurProv, htag⟩).resolve_left ?_
    rintro rfl
    rw [hcopied hprov cur hcur] at hcurProv
    cases hcurProv

end

theorem GoesOn.takePending (h : Answerable s) (he : e ∈ s.outstanding) (hanswer : e.answeredBy r = true)
    (hmove : Move cfg s (.reader k) s') (hat : s.readers k = .takePending r) (hgot : Got s e)
    (hinflight : s.inflightRequests[e.request.orderId]? = none) (htags : ∀ id, Tagged s e id → Linked s e id) :
    GoesOn s' e k r ∨ s'.readers k = .idle ∧ Cleared s' e := by
  have hid := (Entry.answeredBy_iff.mp hanswer).2.2.1
  have hs' := hmove.reader_eq
  simp only [Network.reader, hat, hid] at hs'
  split at hs'
  · rename_i hpending
    cases hs'
    refine .inr ⟨update_self .., ?_, hpending⟩
    intro id htag
    obtain ⟨-, hlinked⟩ := htags id htag
    rw [hpending] at hlinked
    cases hlinked
  · rename_i newID e' hpending
    cases hs'
    obtain rfl : e' = e := h.pendingOwn e he _ hpending
    obtain ⟨-, hnew, -⟩ := h.pendingTag _ _ hpending
    have hnew : newID = e'.request.newOrderId := hnew
    refine .inl (GoesOn.of_update (q := .dropLoad newID r) rfl rfl (.dropLoad (hmove.got hgot) hinflight ?_ ?_))
    · show (s.pendingReplace.erase e'.request.orderId)[e'.request.orderId]? = none
      rw [Maps.getElem?_erase, if_pos rfl]
    · intro id htag
      exact (htags id htag).1.trans hnew.symm

theorem GoesOn.dropReplacement {newID} (hmove : Move cfg s (.reader k) s')
    (hat : s.readers k = .dropLoad newID r ∨ s.readers k = .dropDelete newID r) (hgot : Got s e)
    (hinflight : s.inflightRequests[e.request.orderId]? = none)
    (hpending : s.pendingReplace[e.request.orderId]? = none) (htags : ∀ id, Tagged s e id → id = newID) :
    GoesOn s' e k r ∨ s'.readers k = .idle ∧ Cleared s' e := by
  have hs' := hmove.reader_eq
  unfold Network.reader at hs'
  rcases hat with hat | hat
  · simp only [hat] at hs'
    split at hs'
    · cases hs'
      exact .inl
        (GoesOn.of_update (q := .dropDelete newID r) rfl rfl (.dropDelete (hmove.got hgot) hinflight hpending htags))
    rename_i hprov
    cases hs'
    refine .inr ⟨update_self .., ?_, hpending⟩
    rintro id ⟨cur, hcur, hcurProv, htag⟩
    obtain rfl := htags id ⟨cur, hcur, hcurProv, htag⟩
    exact hprov ((Option.any_eq_true _ _).mpr ⟨cur, hcur, hcurProv⟩)
  · simp only [hat] at hs'
    cases hs'
    refine .inr ⟨update_self .., fun id hid => ?_, hpending⟩
    obtain ⟨hne, htag⟩ := hid.of_erase rfl
    exact hne (htags id htag)

/-- The reader of the answer brings the request a stage further; at the end the client has got it, and nothing is left
of a rejected request. -/
theorem Stage.reader (h : Answerable s) (he : e ∈ s.outstanding) (hsent : (s.readers k).sent = some r)
    (hanswer : e.answeredBy r = true) (hmove : Move cfg s (.reader k) s') :
    GoesOn s' e k r ∨ s'.readers k = .idle ∧ Got s' e ∧ s.inflightRequests[e.request.orderId]? = none ∧
      (requestReject r.report = true → Cleared s' e) := by
  have hproper := h.readers k
  rcases Stage.at_reader h he hsent hanswer with ⟨hat, hroute, htags⟩ | hat
  · exact .inl (.load hanswer hmove hat hroute htags)
  generalize hq : s.readers k = q at hat
  rw [hq] at hsent hproper
  cases hat with
  | reply hleads hcopied htags =>
    cases hsent
    exact .inl (.reply hanswer hmove hq hleads hcopied htags)
  | deliver hgot hinflight hcopied htags =>
    cases hsent
    exact .inl (.deliver hanswer hmove hq hgot hinflight hcopied htags)
  | dropRoute hgot hinflight hcopied htags =>
    cases hsent
    exact .inl (.dropRoute hanswer hmove hq hgot hinflight hcopied htags)
  | takePending hgot hinflight htags =>
    cases hsent
    exact (GoesOn.takePending h he hanswer hmove hq hgot hinflight htags).imp_right
      fun hdone => ⟨hdone.1, hmove.got hgot, hinflight, fun _ => hdone.2⟩
  | dropLoad hgot hinflight hpending htags =>
    cases hsent
    exact (GoesOn.dropReplacement hmove (.inl hq) hgot hinflight hpending htags).imp_right
      fun hdone => ⟨hdone.1, hmove.got hgot, hinflight, fun _ => hdone.2⟩
  | dropDelete hgot hinflight hpending htags =>
    cases hsent
    exact (GoesOn.dropReplacement hmove (.inr hq) hgot hinflight hpending htags).imp_right
      fun hdone => ⟨hdone.1, hmove.got hgot, hinflight, fun _ => hdone.2⟩
  | @clearPending route _ hgot hinflight =>
    cases hsent
    have hs' := hmove.reader_eq
    rw [Network.reader, hq] at hs'
    cases hs'
    exact .inl (GoesOn.of_update (q := .finish route r) rfl rfl (.finish (hmove.got hgot) hinflight))
  | finish hgot hinflight =>
    cases hsent
    have hdone : s'.readers k = .idle := by
      have hs' := hmove.reader_eq
      simp only [Network.reader, hq] at hs'
      split_ifs at hs' <;> cases hs' <;> exact update_self ..
    refine .inr ⟨hdone, hmove.got hgot, hinflight, fun hreject => ?_⟩
    have hnot : requestReject r.report = false := hproper
    rw [hreject] at hnot
    cases hnot

end Reader

end Fxp.Gateway

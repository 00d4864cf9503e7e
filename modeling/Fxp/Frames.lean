import Fxp.Lib.Protobuf
import Fxp.Recovery
import Fxp.Rejects
import Fxp.Snapshot

/-!
# Snapshots on the wire

The core sends a snapshot as one frame, and the gateway drops a connection on which a frame has no body or one of more
than `2 ^ 20` bytes.
-/

namespace Fxp

open Checked OrderBook Protobuf List

variable {R : Type}
variable {n : Nat} {e : Engine Nat}

def MdLevel.encode (l : MdLevel) : List UInt8 := int 1 l.price ++ int 2 l.size ++ int 3 l.side.toInt

def snapshotHeader : List UInt8 := string 1 "2.6" ++ int 2 1

def Time.encode (t : Time) : List UInt8 := int 1 t.seconds ++ int 2 t.nanos

def MdSnapshot.encode (s : MdSnapshot) : List UInt8 :=
  delimited 1 snapshotHeader ++ string 2 s.symbol ++ s.bidLevels.flatMap (fun l => delimited 3 l.encode) ++
    s.askLevels.flatMap (fun l => delimited 4 l.encode) ++ delimited 7 s.timestamp.encode

/-- The `FxpMessage` around a snapshot: the body of its frame. -/
def MdSnapshot.message (s : MdSnapshot) : List UInt8 := delimited 9 s.encode

def frameMessage (encoded : List UInt8) : List UInt8 := toBeBytes encoded.length ++ encoded

/-- One round of `readCoreFrames`: the body of the next frame and the rest; otherwise the connection is dropped. -/
def readCoreFrame (stream : List UInt8) : Option (List UInt8 × List UInt8) :=
  if stream.length < 4 then none
  else
    let msgLen := fromBeBytes (stream.take 4)
    if msgLen = 0 ∨ 1048576 < msgLen then none
    else
      let rest := stream.drop 4
      if rest.length < msgLen then none else some (rest.take msgLen, rest.drop msgLen)

private theorem readCoreFrame_frame {body} (hbody : body.length < 2 ^ 32) (later : List UInt8) :
    readCoreFrame (frameMessage body ++ later) =
      if body.length = 0 ∨ 1048576 < body.length then none else some (body, later) := by
  have htake : (frameMessage body ++ later).take 4 = toBeBytes body.length := by
    rw [frameMessage, append_assoc]
    exact take_left' (toBeBytes_length _)
  have hdrop : (frameMessage body ++ later).drop 4 = body ++ later := by
    rw [frameMessage, append_assoc]
    exact drop_left' (toBeBytes_length _)
  have hlength : ¬ (frameMessage body ++ later).length < 4 := by
    simp only [frameMessage, length_append, toBeBytes_length]
    omega
  simp only [readCoreFrame, if_neg hlength, htake, hdrop, fromBeBytes_toBeBytes hbody]
  split
  · rfl
  · rw [if_neg (by simp), take_left, drop_left]

private theorem mdLevel_encode_length (side : OrderSide) (l : Int × Nat) : (mdLevel side l).encode.length ≤ 24 := by
  have hprice := int_length_le 1 (by omega) (mdLevel side l).price
  have hsize := int_length_le 2 (by omega) (mdLevel side l).size
  have hside : (int 3 (sideToProto side).toInt).length ≤ 2 := by
    apply int_length_of_lt 3 (by omega)
    · cases side <;> decide
    · cases side <;> decide
  rw [MdLevel.encode, length_append, length_append]
  simp only [mdLevel] at hprice hsize ⊢
  omega

private theorem le_mdLevel_encode_length (side : OrderSide) {l} (hl : l.1 ≠ 0) :
    4 ≤ (mdLevel side l).encode.length := by
  have hprice := le_int_length 1 (by omega) (n := (mdLevel side l).price) hl
  have hside : 2 ≤ (int 3 (sideToProto side).toInt).length := by
    apply le_int_length 3 (by omega)
    cases side <;> decide
  rw [MdLevel.encode, length_append, length_append]
  simp only [mdLevel] at hprice ⊢
  omega

private theorem levels_length_le (field : Nat) (hfield : field < 15) (side : OrderSide) (l : List (Int × Nat)) :
    ((l.map (mdLevel side)).flatMap fun x => delimited field x.encode).length ≤ 26 * l.length := by
  induction l with
  | nil => simp
  | cons x =>
    have hx := mdLevel_encode_length side x
    rw [map_cons, flatMap_cons, length_append, length_cons,
      delimited_length_of_lt field hfield (by omega)]
    omega

private theorem le_levels_length (field : Nat) (hfield : field < 15) (side : OrderSide) {l : List (Int × Nat)}
    (hl : ∀ x ∈ l, x.1 ≠ 0) :
    6 * l.length ≤ ((l.map (mdLevel side)).flatMap fun x => delimited field x.encode).length := by
  induction l with
  | nil => simp
  | cons x _ ih =>
    have hx := le_mdLevel_encode_length side (hl x mem_cons_self)
    have hrest := ih fun y hy => hl y (mem_cons_of_mem _ hy)
    have hdelimited := (delimited_length field hfield (mdLevel side x).encode).1
    rw [map_cons, flatMap_cons, length_append, length_cons]
    omega

/-- How many price levels the book has. -/
def OrderBook.depth (b : OrderBook) : Nat := (b.levels .buy).size + (b.levels .sell).size

private theorem shownLevels_length (b : OrderBook) (side : OrderSide) :
    (b.shownLevels side).length = (b.levels side).size := by
  rw [shownLevels, length_map, Std.ExtTreeMap.length_toList]

private theorem message_length {b m now snap} (h : snapshot m b now = .ok snap) :
    0 < snap.message.length ∧ snap.message.length ≤ 26 * b.depth + b.symbol.toUTF8.toList.length + 55 := by
  rw [snapshot_eq h]
  have hheader : (delimited 1 snapshotHeader).length = 9 := by decide +kernel
  have hsymbol := string_length_le 2 (by omega) b.symbol
  have hbids := levels_length_le 3 (by omega) .buy (b.shownLevels .buy).reverse
  have hasks := levels_length_le 4 (by omega) .sell (b.shownLevels .sell)
  have htime : (delimited 7 now.encode).length ≤ 24 := by
    have hseconds := int_length_le 1 (by omega) now.seconds
    have hnanos := int_length_le 2 (by omega) now.nanos
    have hencode : now.encode.length ≤ 22 := by
      rw [Time.encode, length_append]
      omega
    rw [delimited_length_of_lt 7 (by omega) (by omega)]
    omega
  rw [length_reverse, shownLevels_length] at hbids
  rw [shownLevels_length] at hasks
  obtain ⟨hpos, hle⟩ := delimited_length 9 (by omega) (MdSnapshot.encode
    { symbol := b.symbol, bidLevels := ((b.shownLevels .buy).reverse.map (mdLevel .buy))
      askLevels := (b.shownLevels .sell).map (mdLevel .sell), timestamp := now })
  simp only [MdSnapshot.encode, length_append] at hpos hle
  simp only [MdSnapshot.message, MdSnapshot.encode]
  rw [depth]
  omega

private theorem subscribe_out {c c' : Call R} {clock : Clock} {owner : R} (h : c.subscribe clock owner = .ok c') :
    ∃ snap rest, snapshot c.engine.arithmetic c.engine.book (clock .request) = .ok snap ∧
      c'.out = c.out ++ .snapshot owner snap :: rest := by
  obtain ⟨snap, hsnap, h⟩ := bind_eq_ok.mp h
  obtain ⟨_, hl, -⟩ := (publishIndicative_fresh h).2.1
  exact ⟨snap, _, hsnap, hl.trans (by simp only [Call.push, append_assoc]; rfl)⟩

/-- As long as the book of an engine has so few price levels, the gateway reads the frame of its snapshot. -/
theorem snapshot_frame_fits {clock : Clock} {owner : R} {c₀ c : Call R}
    (hdepth : 26 * c₀.engine.book.depth + c₀.engine.book.symbol.toUTF8.toList.length + 55 ≤ 1048576)
    (hsub : c₀.handle clock (.subscribe owner) = .ok c) :
    ∃ snap rest, c.out = c₀.out ++ .snapshot owner snap :: rest ∧
      1 ≤ snap.message.length ∧ snap.message.length ≤ 1048576 ∧
      ∀ later, readCoreFrame (frameMessage snap.message ++ later) = some (snap.message, later) := by
  obtain ⟨snap, rest, hsnap, hout⟩ := subscribe_out hsub
  obtain ⟨hpos, _⟩ := message_length hsnap
  refine ⟨snap, rest, hout, hpos, by omega, fun later => ?_⟩
  rw [readCoreFrame_frame (by omega), if_neg (by omega)]

def rung (n : Nat) : String := n.repr

theorem rung_injective {m : Nat} (h : rung m = rung n) : m = n := by
  have hdigits := congrArg (fun s => Nat.ofDigitChars 10 s.toList 0) h
  simpa [rung, Nat.ofDigitChars_toDigits] using hdigits

/-- An engine with `n` bids of quantity one at the prices from `1` to `n`. -/
structure Ladder (n : Nat) (e : Engine Nat) : Prop where
  schedule : e.schedule = none
  callUntil : e.callUntil = none
  phase : e.phase = .continuous
  seen : e.lastSeen = .ofSeconds 0
  rules : e.symbolRules = {}
  stp : e.stpDefault = .none
  stops : e.stopBook = {}
  live : ∀ i, i < n → ∃ st, e.states[rung i]? = some st ∧ st.sender = "a"
  free : ∀ i, n ≤ i → e.states[rung i]? = none
  symbol : e.book.symbol = "S"
  clean : e.book.stp = {}
  asks : e.book.sellOrders = ∅
  bids : ∀ p : Int, (∃ o : Order, o.quantity = 1 ∧ e.book.buyOrders[p]? = some [o]) ∧ 0 < p ∧ p ≤ n ∨
    e.book.buyOrders[p]? = none ∧ ¬ (0 < p ∧ p ≤ n)

theorem Ladder.sameMarket {e'} (h : Ladder n e) (he : e.SameMarket e') : Ladder n e' := by
  rw [he]
  exact ⟨h.schedule, h.callUntil, h.phase, h.seen, h.rules, h.stp, h.stops, h.live, h.free, h.symbol, h.clean,
    h.asks, h.bids⟩

theorem Ladder.start : Ladder 0 (Engine.sample none) where
  schedule := rfl
  callUntil := rfl
  phase := rfl
  seen := rfl
  rules := rfl
  stp := rfl
  stops := rfl
  live i hi := absurd hi (Nat.not_lt_zero i)
  free i _ := by simp [Engine.sample, Engine.new]
  symbol := rfl
  clean := rfl
  asks := rfl
  bids p := by
    refine .inr ⟨by simp [Engine.sample, Engine.new, OrderBook.new], ?_⟩
    omega

theorem Ladder.tick (h : Ladder n e) :
    ∃ c, e.tick (Clock.at 0 .advance) = .ok c ∧ Ladder n c.engine := by
  have hadvance : Call.advance (.ofSeconds 0) e = .ok { engine := e } := by
    have hnow : ¬ Time.ofSeconds 0 < Time.ofSeconds 0 := by decide
    have hsame : { e with lastSeen := Time.ofSeconds 0, callUntil := none } = e := by rw [← h.seen, ← h.callUntil]
    simp only [Call.advance, Call.advanceFuel, h.callUntil, h.seen, Loop.runM, Call.advanceStep, if_neg hnow, ok_bind]
    rw [hsame]
  refine ⟨{ engine := e.rememberStatus [] }, ?_, h.sameMarket (Engine.rememberStatus_market e [])⟩
  simp only [Engine.tick, Clock.at, hadvance, ok_bind]

def bid (n : Nat) : NewOrderSingle := .sample (rung n) "a" .buy (n + 1) 1

def bidOrder (n : Nat) (symbol : String) : Order :=
  { orderId := rung n, traderId := "a", symbol, price := n + 1, quantity := 1, displayQuantity := 0, side := .buy
    orderType := .limit, timeInForce := .gtc, timestamp := 0, stopPrice := 0, expireDate := "", account := ""
    clientOrderId := "", stp := { mode := .none, group := "" } }

theorem Ladder.invalidReason (h : Ladder n e) :
    Call.invalidReason e (bid n) (.ofSeconds 0) = none := by
  have henums : parseOrderEnums (bid n) = .ok (.buy, .limit, .gtc) := rfl
  have hfree : e.states.contains (rung n) = false := Maps.contains_eq_false_iff.mpr (h.free n (le_refl n))
  have hauctions : e.auctionsEnabled = false := by
    rw [Engine.auctionsEnabled, Engine.fullSchedule, h.callUntil, h.schedule]
    rfl
  have hpositive : ¬ ((n : Int) + 1 ≤ 0) := by omega
  have hprice : ({} : SymbolRules).validatePrice (n + 1) = none := by
    rw [SymbolRules.validatePrice, if_neg]
    simp
  have hquantity : ({} : SymbolRules).validateQuantity (asU32 (Int32.toInt 1)) = none := by decide
  have hentry : entryReason .continuous false .limit .gtc = none := by decide
  have hstp : parseStp 0 .none = .ok (.none, false) := rfl
  have hiceberg : icebergReason (Int32.toInt 0) (asU32 (Int32.toInt 1)) .limit .gtc false 1 = none := by decide
  simp only [Call.invalidReason, henums, h.phase, h.rules, h.stp, hauctions]
  simp only [bid, NewOrderSingle.sample, hfree, hpositive, hentry, hprice, hquantity, hstp, hiceberg]
  simp

theorem Ladder.orderOf (h : Ladder n e) :
    Call.orderOf e (bid n) (.ofSeconds 0) = .ok (bidOrder n e.symbol) := by
  have hstp : parseStp (bid n).stpMode e.stpDefault = .ok (.none, false) := by
    rw [h.stp]
    rfl
  rw [Call.orderOf, hstp]
  rfl

private theorem matchInto_bids {b : OrderBook} (hstp : b.stp = {}) (hasks : b.sellOrders = ∅) (out : Execution) :
    b.matchInto out = .ok (b, out) := by
  have hsame : { b with stp := {} } = b := by rw [← hstp]
  have hbest : b.bestPrice .sell = none := by
    rw [bestPrice, hasks]
    rfl
  have hmatch : b.matchOrders = .ok { book := b, fills := [], updates := [] } := by
    rw [matchOrders, hsame, Loop.runM, matchStep, hbest]
    cases b.bestPrice .buy <;> rfl
  rw [matchInto, hmatch, ok_bind]
  simp only [Execution.absorbStp, hstp, map_nil, append_nil]
  rw [hsame]

private theorem executeInto_bid {b : OrderBook} (hstp : b.stp = {}) (hasks : b.sellOrders = ∅) (n : Nat)
    (symbol : String) : b.executeInto (bidOrder n symbol) {} =
      .ok ((b.addOrder (bidOrder n symbol)).1, { rested := [(b.addOrder (bidOrder n symbol)).2] }, true) := by
  have hsame : { b with stp := {} } = b := by rw [← hstp]
  have hlimit : b.processAggressive (bidOrder n symbol) = (b, restResult (bidOrder n symbol)) := rfl
  have htype : triggeredType (bidOrder n symbol) = bidOrder n symbol := rfl
  have hmatch := matchInto_bids (b := (b.addOrder (bidOrder n symbol)).1) hstp hasks
  simp only [executeInto, htype, hlimit, Execution.absorbStp, hstp, hsame]
  rw [if_neg (by simp [restResult, bidOrder]), if_neg (by simp [restResult])]
  simp only [restResult]
  rw [hmatch]
  rfl

private theorem executeOrder_bid {c : Call Nat} (symbol : String) (hstp : c.engine.book.stp = {})
    (hasks : c.engine.book.sellOrders = ∅) (hstops : c.engine.stopBook = {}) {state : OrderState Nat}
    (hstate : c.engine.states[rung n]? = some state) (ts : Time) :
    ∃ c', c.executeOrder 0 (bidOrder n symbol) ts = .ok c' ∧ c'.engine =
      { c.engine with book := (c.engine.book.addOrder (bidOrder n symbol)).1, issued := c.engine.issued + 1 } := by
  have hid : (bidOrder n symbol).orderId = rung n := rfl
  simp only [Call.executeOrder, executeInto_bid hstp hasks, ok_bind, hid, hstate]
  -- nothing traded, so no stop is triggered
  simp only [Call.cascade, Call.acknowledge, Call.report, hstops]
  exact ⟨_, rfl, rfl⟩

theorem Ladder.next {c : Call Nat} (h : Ladder n c.engine) (state : OrderState Nat) (hsender : state.sender = "a")
    (symbol : String) (ts : Time) : ∃ c', (c.setState (rung n) state).executeOrder 0 (bidOrder n symbol) ts = .ok c' ∧
      Ladder (n + 1) c'.engine := by
  have hstate : (c.setState (rung n) state).engine.states[rung n]? = some state := by
    rw [Call.setState, Maps.getElem?_insert, if_pos rfl]
  obtain ⟨c', hc', hengine⟩ := executeOrder_bid (c := c.setState (rung n) state) symbol h.clean h.asks h.stops hstate ts
  refine ⟨c', hc', ?_⟩
  rw [hengine]
  refine ⟨h.schedule, h.callUntil, h.phase, h.seen, h.rules, h.stp, h.stops, fun i hi => ?_, fun i hi =>
    ?_, h.symbol, h.clean, h.asks, fun p => ?_⟩
  · show ∃ st, (c.engine.states.insert (rung n) state)[rung i]? = some st ∧ st.sender = "a"
    rw [Maps.getElem?_insert]
    split
    · exact ⟨state, rfl, hsender⟩
    · rename_i hne
      exact h.live i (Nat.lt_of_le_of_ne (Nat.lt_succ_iff.mp hi) fun heq => hne (congrArg rung heq.symm))
  · have hne : rung n ≠ rung i := fun heq => by
      have := rung_injective heq
      omega
    show (c.engine.states.insert (rung n) state)[rung i]? = none
    rw [Maps.getElem?_insert, if_neg hne]
    exact h.free i (by omega)
  · have hlevel : (c.engine.book.addOrder (bidOrder n symbol)).1.buyOrders[p]? = if (n : Int) + 1 = p then
        some (Levels.queue c.engine.book.buyOrders ((n : Int) + 1) ++ [bidOrder n symbol])
        else c.engine.book.buyOrders[p]? := Maps.getElem?_insert ..
    show (∃ o : Order, o.quantity = 1 ∧ (c.engine.book.addOrder (bidOrder n symbol)).1.buyOrders[p]? = some [o]) ∧ _ ∨
      (c.engine.book.addOrder (bidOrder n symbol)).1.buyOrders[p]? = none ∧ _
    rw [hlevel]
    rcases h.bids p with ⟨⟨o, ho⟩, hpos, _⟩ | ⟨hnone, _⟩
    · rw [if_neg (by omega)]
      exact .inl ⟨⟨o, ho⟩, hpos, by omega⟩
    split
    · rename_i hp
      subst hp
      rw [Levels.queue, hnone]
      exact .inl ⟨⟨_, rfl, rfl⟩, by omega, by omega⟩
    · exact .inr ⟨hnone, by omega⟩

theorem Ladder.newOrder {c : Call Nat} (h : Ladder n c.engine) :
    ∃ c', c.handle (.at 0) (.newOrder (bid n) 0) = .ok c' ∧ Ladder (n + 1) c'.engine := by
  have harrival : Ladder n { c.engine with nextArrival := c.engine.nextArrival + 1 } :=
    ⟨h.schedule, h.callUntil, h.phase, h.seen, h.rules, h.stp, h.stops, h.live, h.free, h.symbol, h.clean,
      h.asks, h.bids⟩
  obtain ⟨c₁, hc₁⟩ :
    ∃ c₁ : Call Nat, c₁ = { c with engine := { c.engine with nextArrival := c.engine.nextArrival + 1 } } := ⟨_, rfl⟩
  have h₁ : Ladder n c₁.engine := by
    rw [hc₁]
    exact harrival
  obtain ⟨c₂, hc₂, h₂⟩ := h₁.next (OrderState.new (bid n) 1 0 (c.engine.nextArrival + 1)) rfl c₁.engine.symbol
    (.ofSeconds 0)
  have hprocess : c₁.processOrder (.at 0) (bid n) 0 (c.engine.nextArrival + 1) = .ok c₂ := by
    rw [Call.processOrder]
    simp only [Clock.at, h₁.invalidReason, h₁.orderOf, ok_bind]
    rw [if_neg (by simp [bidOrder]), if_neg (by simp [bidOrder]), if_neg (by simp [bidOrder, h₁.phase])]
    exact hc₂
  have hpublish : c₂.publishIndicative (.ofSeconds 0) = .ok c₂ := by
    rw [Call.publishIndicative, h₂.phase]
    rfl
  have hcall : c.process (.at 0) (.order (bid n) 0) = .ok c₂ := by
    simp only [Call.process, Call.dispatch, Call.preflight, ok_bind, ← hc₁]
    rw [if_neg (by decide), hprocess]
    exact hpublish
  refine ⟨_, by rw [Call.handle, Call.newOrder, hcall]; rfl, ?_⟩
  obtain ⟨hbind, -⟩ := (Op.newOrder (bid n) 0).bindStatus_market c₂
  exact h₂.sameMarket (hbind.trans (Engine.rememberStatus_market _ _))

theorem exists_ladder (n : Nat) : ∃ e out, Run anyCall (Engine.sample none) e out ∧ Ladder n e := by
  induction n with
  | zero => exact ⟨_, _, .nil, .start⟩
  | succ _ ih =>
    obtain ⟨_, _, hrun, h⟩ := ih
    obtain ⟨_, htick, hc⟩ := h.tick
    obtain ⟨_, hcall, hc'⟩ := hc.newOrder
    exact ⟨_, _, hrun.call htick ⟨rfl, trivial⟩ hcall, hc'⟩

theorem Ladder.asks_size (h : Ladder n e) : (e.book.levels .sell).size = 0 := by
  rw [OrderBook.levels, h.asks]
  rfl

theorem Ladder.depth (h : Ladder n e) : e.book.depth = n := by
  have hkeys : (e.book.levels .buy).keys.Perm ((List.range n).map fun i : Nat => (i : Int) + 1) := by
    rw [perm_ext_iff_of_nodup (Maps.keys_nodup _)]
    · intro p
      rw [Std.ExtTreeMap.mem_keys, Std.ExtTreeMap.mem_iff_isSome_getElem?, mem_map]
      rcases h.bids p with ⟨⟨o, -, ho⟩, _, _⟩ | ⟨hnone, hout⟩
      · have hlevel : (e.book.levels .buy)[p]? = some [o] := ho
        rw [hlevel]
        refine ⟨fun _ => ⟨(p - 1).toNat, mem_range.mpr (by omega), by omega⟩, fun _ => rfl⟩
      have hlevel : (e.book.levels .buy)[p]? = none := hnone
      rw [hlevel]
      constructor
      · intro hsome
        cases hsome
      rintro ⟨_, hi, rfl⟩
      rw [mem_range] at hi
      exact absurd ⟨by omega, by omega⟩ hout
    · refine List.Nodup.map ?_ nodup_range
      intro i j hij
      simpa using hij
  have hbids : (e.book.levels .buy).size = n := by
    rw [← Std.ExtTreeMap.length_keys, hkeys.length_eq, length_map, length_range]
  rw [OrderBook.depth, hbids, h.asks_size, Nat.add_zero]

theorem Ladder.snapshot (h : Ladder n e) (hwf : e.book.WF) (now : Time) :
    ∃ snap, Fxp.snapshot e.arithmetic e.book now = .ok snap := by
  have hbids : e.book.levelSizes e.arithmetic .buy = .ok (e.book.shownLevels .buy) := by
    apply mapM_ok
    intro l hl
    rw [Std.ExtTreeMap.mem_toList_iff_getElem?_eq_some] at hl
    have hl : e.book.buyOrders[l.1]? = some l.2 := hl
    rcases h.bids l.1 with ⟨⟨o, _, ho⟩, -⟩ | ⟨hnone, -⟩
    · rw [hl, Option.some.injEq] at ho
      have hmem : o ∈ e.book.queue .buy l.1 := by
        rw [queue, Levels.queue, OrderBook.levels, hl, ho]
        exact mem_singleton_self o
      obtain ⟨-, -, _, -⟩ := hwf.visible_eq (hwf.lookup_of_mem hmem)
      simp only [ho, map_cons, map_nil, sumU32, foldlM_cons, foldlM_nil, addU32, Nat.zero_add]
      rw [if_pos (by omega)]
      rfl
    · rw [hl] at hnone
      cases hnone
  have hasks : e.book.levelSizes e.arithmetic .sell = .ok [] := by
    rw [OrderBook.levelSizes, OrderBook.levels, h.asks]
    rfl
  simp only [Fxp.snapshot, OrderBook.getMarketSnapshot, hbids, hasks, ok_bind]
  exact ⟨_, rfl⟩

theorem Ladder.message (h : Ladder n e) {now : Time} {snap : MdSnapshot}
    {m : Arithmetic} (hsnap : Fxp.snapshot m e.book now = .ok snap) : 6 * n ≤ snap.message.length := by
  have hlength : (e.book.shownLevels .buy).reverse.length = n := by
    rw [length_reverse, shownLevels_length, ← h.depth, OrderBook.depth, h.asks_size, Nat.add_zero]
  have hprices : ∀ x ∈ (e.book.shownLevels .buy).reverse, x.1 ≠ 0 := by
    intro x hx
    obtain ⟨l, hl, rfl⟩ := mem_map.mp (mem_reverse.mp hx)
    rw [Std.ExtTreeMap.mem_toList_iff_getElem?_eq_some] at hl
    have hl : e.book.buyOrders[l.1]? = some l.2 := hl
    rcases h.bids l.1 with ⟨-, hpos, -⟩ | ⟨hnone, -⟩
    · exact hpos.ne'
    · rw [hl] at hnone
      cases hnone
  have hbids := le_levels_length 3 (by omega) .buy hprices
  have hmessage := (delimited_length 9 (by omega) snap.encode).1
  rw [snapshot_eq hsnap] at hmessage ⊢
  simp only [MdSnapshot.encode, length_append] at hmessage
  simp only [MdSnapshot.message, MdSnapshot.encode]
  omega

private theorem exists_subscribe (n : Nat) : ∃ (e : Engine Nat) (out : List (Output Nat)) (c c' : Call Nat),
    Run anyCall (Engine.sample none) e out ∧ e.tick (Clock.at 0 .advance) = .ok c ∧
      c.handle (.at 0) (.subscribe 0) = .ok c' ∧ c.engine.Sound ∧ Ladder n c.engine := by
  obtain ⟨e, out, hrun, h⟩ := exists_ladder n
  obtain ⟨c, htick, hc⟩ := h.tick
  have hsound := hrun.sound (.new ..)
  obtain ⟨_, hticked⟩ := (tick_safe hsound _).of_ok htick
  have hsound₀ := hticked.sound hsound
  obtain ⟨_, hsnap⟩ := hc.snapshot hsound₀.book (.ofSeconds 0)
  have hsub : ∃ c', c.handle (.at 0) (.subscribe 0) = .ok c' := by
    simp only [Call.handle, Call.subscribe, Clock.at, hsnap, ok_bind, Call.publishIndicative, Call.push, hc.phase]
    exact ⟨_, rfl⟩
  obtain ⟨c', hsub⟩ := hsub
  exact ⟨e, out, c, c', hrun, htick, hsub, hsound₀, hc⟩

/-- A book of 40000 levels fits. -/
theorem snapshot_frame_fits_deep : ∃ (e : Engine Nat) (out : List (Output Nat)) (c₀ c : Call Nat) (snap : MdSnapshot)
    (rest : List (Output Nat)), Run anyCall (Engine.sample none) e out ∧ c₀.engine.book.depth = 40000 ∧
      c.out = c₀.out ++ .snapshot 0 snap :: rest ∧ 240000 ≤ snap.message.length ∧ snap.message.length ≤ 1048576 := by
  obtain ⟨e, out, c₀, c, hrun, htick, hsub, hsound, h⟩ := exists_subscribe 40000
  have hsymbol : "S".toUTF8.toList.length = 1 := by decide +kernel
  obtain ⟨snap, rest, hout, -, hle, -⟩ := snapshot_frame_fits (by rw [h.depth, h.symbol, hsymbol]; omega) hsub
  obtain ⟨_, _, hsnap, hout', -⟩ := subscribe_eq hsound hsub
  rw [hout] at hout'
  cases append_cancel_left hout'
  exact ⟨e, out, c₀, c, snap, rest, hrun, h.depth, hout, h.message hsnap, hle⟩

/-- With enough bids the frame of a snapshot is too long for the gateway. -/
theorem snapshot_frame_too_long : ∃ (e : Engine Nat) (out : List (Output Nat)) (owner : Nat) (snap : MdSnapshot),
    Run anyCall (Engine.sample none) e out ∧ .snapshot owner snap ∈ out ∧ 1048576 < snap.message.length ∧
      ∀ later, readCoreFrame (frameMessage snap.message ++ later) = none := by
  obtain ⟨_, _, _, _, hrun, htick, hsub, hsound, h⟩ := exists_subscribe 175000
  obtain ⟨snap, _, hsnap, hout, -⟩ := subscribe_eq hsound hsub
  have hlong := h.message hsnap
  obtain ⟨-, hle⟩ := message_length hsnap
  have hsymbol : "S".toUTF8.toList.length = 1 := by decide +kernel
  rw [h.depth, h.symbol, hsymbol] at hle
  refine ⟨_, _, 0, snap, hrun.call htick ⟨rfl, trivial⟩ hsub, ?_, by omega, fun later => ?_⟩
  · rw [hout]
    simp
  · rw [readCoreFrame_frame (by omega), if_pos (by omega)]

end Fxp

import Fxp.Lib.Checked
import Fxp.Lib.Loop
import Fxp.Lib.Maps
import Mathlib

/-!
# The call auction

`uncross` finds the clearing price of a list of auction orders by one sweep over the limit prices with running totals
of the buy and sell quantity; `allocate` distributes the clearing volume in market, price, time priority.
-/

namespace Fxp

open Checked

inductive AuctionSide
  | buy
  | sell
deriving DecidableEq, Repr

/-- `limitPrice` is `none` for a market order. -/
structure AuctionOrder where
  id : String
  side : AuctionSide
  limitPrice : Option Int
  quantity : Nat
  seq : Nat
deriving DecidableEq, Repr

structure AuctionResult where
  price : Int := 0
  volume : Nat := 0
  imbalance : Int := 0
deriving DecidableEq, Repr

structure AuctionFill where
  buyId : String
  sellId : String
  quantity : Nat
  price : Int
deriving DecidableEq, Repr

namespace Auction

/-- Buy and sell quantity at each limit price. -/
abbrev PriceTable := Std.ExtTreeMap Int (Nat × Nat)

/-- The running totals of the first pass: all buys, market sells and all sells. -/
structure Totals where
  levels : PriceTable := ∅
  buys : Nat := 0
  sells : Nat := 0
  totalSells : Nat := 0

def addLimit (levels : PriceTable) (order : AuctionOrder) : PriceTable :=
  match order.limitPrice with
  | none => levels
  | some price =>
    let level := levels[price]?.getD (0, 0)
    match order.side with
    | .buy => levels.insert price (level.1 + order.quantity, level.2)
    | .sell => levels.insert price (level.1, level.2 + order.quantity)

def Totals.add (t : Totals) (order : AuctionOrder) : Totals :=
  let levels := addLimit t.levels order
  match order.side with
  | .buy => { t with levels := levels, buys := t.buys + order.quantity }
  | .sell =>
    { t with
      levels := levels
      totalSells := t.totalSells + order.quantity
      sells := if order.limitPrice.isNone then t.sells + order.quantity else t.sells }

def totals (orders : List AuctionOrder) : Totals := orders.foldl Totals.add {}

/-- The sweep over the limit prices: at each one the sells up to it join, the result is recorded, and the buys at it
leave. -/
def candidates : List (Int × Nat × Nat) → Nat → Nat → Except Panic (List AuctionResult)
  | [], _, _ => .ok []
  | (price, atBuy, atSell) :: levels, buys, sells => do
    let sells := sells + atSell
    let candidate : AuctionResult := { price := price, volume := min buys sells, imbalance := buys - sells }
    let buys ← sub buys atBuy
    let later ← candidates levels buys sells
    .ok (candidate :: later)

def closestBy (f : AuctionResult → Nat) (l : List AuctionResult) : Except Panic (List AuctionResult) := do
  let m ← get (l.map f).min?
  .ok (l.filter (f · = m))

/-- The tie-break among the candidates of largest volume. -/
def choose (l : List AuctionResult) (referencePrice : Option Int) : Except Panic AuctionResult := do
  let l ← closestBy (·.imbalance.natAbs) l
  let l ←
    match referencePrice with
    | none => .ok l
    | some reference => closestBy (fun r => (r.price - reference).natAbs) l
  if l.all (0 < ·.imbalance) then get l.getLast? else get l.head?

end Auction

open Auction

def uncross (orders : List AuctionOrder) (referencePrice : Option Int) : Except Panic AuctionResult := do
  let t := totals orders
  let noCross : AuctionResult := { price := 0, volume := 0, imbalance := t.buys - t.totalSells }
  if t.levels.isEmpty then
    match referencePrice with
    | some price =>
      if 0 < min t.buys t.sells then
        .ok { price := price, volume := min t.buys t.sells, imbalance := noCross.imbalance }
      else .ok noCross
    | none => .ok noCross
  else
    let l ← candidates t.levels.toList t.buys t.sells
    let maxVolume ← get (l.map (·.volume)).max?
    if maxVolume = 0 then .ok noCross
    else choose (l.filter (·.volume = maxVolume)) referencePrice

namespace Auction

def eligible (side : AuctionSide) (price : Int) (o : AuctionOrder) : Bool :=
  o.side = side && 0 < o.quantity &&
    match o.limitPrice with
    | none => true
    | some p =>
      match side with
      | .buy => price ≤ p
      | .sell => p ≤ price

/-- Market orders first, then the better limit, then the earlier arrival, then the id. -/
def priority (side : AuctionSide) (a b : AuctionOrder) : Ordering :=
  (compare a.limitPrice.isSome b.limitPrice.isSome).then <|
    (match side with
      | .buy => compare b.limitPrice a.limitPrice
      | .sell => compare a.limitPrice b.limitPrice).then <|
    (compare a.seq b.seq).then (compare a.id b.id)

def queue (orders : List AuctionOrder) (side : AuctionSide) (price : Int) : List AuctionOrder :=
  (orders.filter (eligible side price)).insertionSort fun a b => (priority side a b).isLE

structure AllocState where
  buys : List AuctionOrder
  sells : List AuctionOrder
  buyUsed : Nat := 0
  sellUsed : Nat := 0
  remaining : Nat
  fills : List AuctionFill := []

/-- One fill between the orders at the head of the two queues. -/
def allocStep (price : Int) (s : AllocState) : Option AllocState :=
  if 0 < s.remaining then
    match s.buys, s.sells with
    | buy :: buys, sell :: sells =>
      let buyLeft := buy.quantity - s.buyUsed
      let sellLeft := sell.quantity - s.sellUsed
      let quantity := min (min buyLeft sellLeft) s.remaining
      let buyUsed := s.buyUsed + quantity
      let sellUsed := s.sellUsed + quantity
      some
        { buys := if buyUsed = buy.quantity then buys else buy :: buys
          buyUsed := if buyUsed = buy.quantity then 0 else buyUsed
          sells := if sellUsed = sell.quantity then sells else sell :: sells
          sellUsed := if sellUsed = sell.quantity then 0 else sellUsed
          remaining := s.remaining - quantity
          fills := s.fills ++ [{ buyId := buy.id, sellId := sell.id, quantity := quantity, price := price }] }
    | _, _ => none
  else none

end Auction

/-- Allocates an uncross result. Every fill finishes an order or the volume, which bounds the loop. -/
def allocate (orders : List AuctionOrder) (result : AuctionResult) : List AuctionFill :=
  let buys := queue orders .buy result.price
  let sells := queue orders .sell result.price
  (Loop.run (allocStep result.price) (buys.length + sells.length + 1)
    { buys := buys, sells := sells, remaining := result.volume }).fills

end Fxp

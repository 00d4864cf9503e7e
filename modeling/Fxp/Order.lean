import Mathlib

/-!
# Orders

The order record of the book, its enumerations, and the scope in which self-trade prevention (STP) compares two
orders: the STP group if one is set, otherwise the owner.
-/

namespace Fxp

inductive OrderSide
  | buy
  | sell
deriving DecidableEq, Repr

inductive OrderType
  | market
  | limit
  | stop
  | stopLimit
deriving DecidableEq, Repr

inductive TimeInForce
  | day
  | gtc
  | ioc
  | fok
  | atOpen
  | atClose
  | gtd
deriving DecidableEq, Repr

inductive StpMode
  | none
  | cancelNewest
  | cancelOldest
  | cancelBoth
  | decrementAndCancel
deriving DecidableEq, Repr

def StpMode.asStr : StpMode → String
  | .none => "none"
  | .cancelNewest => "cancel-newest"
  | .cancelOldest => "cancel-oldest"
  | .cancelBoth => "cancel-both"
  | .decrementAndCancel => "decrement-and-cancel"

/-- The STP instruction of an order. The mode of the newer order governs a match with the same `Order.stpKey`. -/
structure Stp where
  mode : StpMode
  group : String
deriving DecidableEq, Repr

/-- An explicit group never equals an owner id, even if the strings are equal. -/
inductive StpKey
  | owner (traderId : String)
  | group (name : String)
deriving DecidableEq, Repr

/-- Prices are in minor units. `quantity` is what is left, hidden reserve included; a `displayQuantity` of `0` shows
it all. -/
structure Order where
  orderId : String
  traderId : String
  symbol : String
  price : Int
  quantity : Nat
  displayQuantity : Nat
  side : OrderSide
  orderType : OrderType
  timeInForce : TimeInForce
  timestamp : Nat
  stopPrice : Int
  expireDate : String
  account : String
  clientOrderId : String
  stp : Stp
deriving DecidableEq, Repr

def Order.stpKey (o : Order) : StpKey :=
  if o.stp.group.isEmpty then .owner o.traderId else .group o.stp.group

def OrderSide.opposite : OrderSide → OrderSide
  | .buy => .sell
  | .sell => .buy

@[simp] theorem OrderSide.opposite_ne (s : OrderSide) : s.opposite ≠ s := by
  cases s <;> decide

/-- Whether an order is an iceberg: it shows at most `displayQuantity` at a time. -/
def Order.isIceberg (o : Order) : Bool := o.displayQuantity != 0

end Fxp

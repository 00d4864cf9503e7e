import Fxp.Service

/-!
# Order ids of traders

The gateway puts the name of the authenticated trader in front of every order id before a request goes to the core,
and takes it off the reports on the way back. `Separate` is what the names of two traders need for their ids to
differ.
-/

namespace Fxp

deriving instance DecidableEq for NewOrderSingle, OrderCancelRequest, OrderCancelReplaceRequest

namespace Gateway

/-- An order-entry message. -/
inductive Request
  | newOrder (m : NewOrderSingle)
  | orderCancel (m : OrderCancelRequest)
  | orderCancelReplace (m : OrderCancelReplaceRequest)
deriving DecidableEq

namespace Request

/-- The id the gateway registers for the answer: of the new order, or of the order that the request is about. -/
def orderId : Request → String
  | .newOrder m => m.orderId
  | .orderCancel m => m.orderId
  | .orderCancelReplace m => m.orderId

def newOrderId : Request → String
  | .orderCancelReplace m => m.newOrderId
  | _ => ""

def symbol : Request → String
  | .newOrder m => m.symbol
  | .orderCancel m => m.symbol
  | .orderCancelReplace m => m.symbol

def sender : Request → String
  | .newOrder m => m.sender
  | .orderCancel m => m.sender
  | .orderCancelReplace m => m.sender

def isChange : Request → Bool
  | .newOrder _ => false
  | _ => true

def names (r : Request) : List String := r.orderId :: [r.newOrderId].filter (· ≠ "")

end Request

def validateEnum (value : Int32) (name : String) (known : List Int32) : String :=
  if value = 0 then name ++ " is required"
  else if value ∈ known then ""
  else "unknown " ++ name ++ " " ++ toString value.toInt

/-- Why a message is not sent to the core, or nothing. -/
def validateOrderEnums : Request → String
  | .newOrder m =>
    let side := validateEnum m.side "side" [0, 1, 2]
    let orderType := validateEnum m.orderType "order_type" [0, 1, 2, 3, 4]
    if side ≠ "" then side
    else if orderType ≠ "" then orderType
    else validateEnum m.timeInForce "time_in_force" [0, 1, 2, 3, 4, 5, 6, 7]
  | .orderCancel _ => ""
  | .orderCancelReplace m =>
    if m.newTimeInForce = 0 ∨ m.newTimeInForce ∈ [0, 1, 2, 3, 4, 5, 6, 7] then ""
    else "unknown new_time_in_force " ++ toString m.newTimeInForce.toInt

def orderReject (m : Request) (reason : String) : Report :=
  { Engine.emptyReport with
    orderId :=
      match m with
      | .orderCancelReplace cr => cr.newOrderId
      | m => m.orderId
    symbol := m.symbol
    side :=
      match m with
      | .newOrder order => order.side
      | _ => 0
    executionType := .rejected
    orderStatus := .rejected
    rejectReason := reason }

def ownerSep : String := "::"

def namespacedOrderID (owner id : String) : String := if id = "" then "" else owner ++ ownerSep ++ id

/-- The length in front keeps groups apart when the names of traders hold the separator. -/
def stpGroupID (owner group : String) : String :=
  if group = "" then "" else toString owner.utf8ByteSize ++ ":" ++ owner ++ ownerSep ++ group

def bindOwner (traderID : String) : Request → Request
  | .newOrder m =>
    .newOrder
      { m with
        sender := traderID
        orderId := namespacedOrderID traderID m.orderId
        stpGroup := stpGroupID traderID m.stpGroup }
  | .orderCancel m => .orderCancel { m with sender := traderID, orderId := namespacedOrderID traderID m.orderId }
  | .orderCancelReplace m =>
    .orderCancelReplace
      { m with
        sender := traderID
        orderId := namespacedOrderID traderID m.orderId
        newOrderId := namespacedOrderID traderID m.newOrderId }

def trimStart (start s : List Char) : List Char := if start.isPrefixOf s then s.drop start.length else s

/-- `strings.Replace` of the first occurrence by nothing. -/
def cutFirst (part : List Char) : List Char → List Char
  | [] => []
  | c :: rest => if part.isPrefixOf (c :: rest) then (c :: rest).drop part.length else c :: cutFirst part rest

def stripOwner (owner : String) (rep : Report) : Report :=
  if owner = "" then rep
  else
    let start := (owner ++ ownerSep).toList
    { rep with
      orderId := String.ofList (trimStart start rep.orderId.toList)
      origOrderId := String.ofList (trimStart start rep.origOrderId.toList)
      executionId := String.ofList (cutFirst start rep.executionId.toList) }

/-- The ids that `bindOwner` makes for a trader. -/
def InNamespace (trader id : String) : Prop := ∃ own : String, own ≠ "" ∧ id = namespacedOrderID trader own

/-- Neither name, with the separator after it, is the beginning of the other. -/
def Separate (T U : String) : Prop :=
  ¬ (T ++ ownerSep).toList <+: (U ++ ownerSep).toList ∧ ¬ (U ++ ownerSep).toList <+: (T ++ ownerSep).toList

instance (T U : String) : Decidable (Separate T U) := inferInstanceAs (Decidable (_ ∧ _))

private theorem namespacedOrderID_toList {T own} (h : own ≠ "") :
    (namespacedOrderID T own).toList = (T ++ ownerSep).toList ++ own.toList := by
  rw [namespacedOrderID, if_neg h, String.toList_append]

/-- The ids of two traders never agree exactly if the names of the traders are separate. -/
theorem separate_iff {T U} :
    Separate T U ↔ ∀ x y : String, x ≠ "" → y ≠ "" → namespacedOrderID T x ≠ namespacedOrderID U y := by
  -- a name that begins the other leaves a rest, which is the beginning of the id that collides
  have collide : ∀ {T U : String}, (T ++ ownerSep).toList <+: (U ++ ownerSep).toList →
      ∃ x y : String, x ≠ "" ∧ y ≠ "" ∧ namespacedOrderID T x = namespacedOrderID U y := by
    rintro _ _ ⟨rest, hrest⟩
    have hx : String.ofList (rest ++ ['x']) ≠ "" := by
      intro h
      have := congrArg String.toList h
      simp at this
    have hy : String.ofList ['x'] ≠ "" := by decide
    refine ⟨String.ofList (rest ++ ['x']), String.ofList ['x'], hx, hy, String.toList_inj.mp ?_⟩
    rw [namespacedOrderID_toList hx, namespacedOrderID_toList hy, ← hrest]
    simp
  constructor
  · rintro ⟨hTU, hUT⟩ x y hx hy heq
    have hlist : (T ++ ownerSep).toList ++ x.toList = (U ++ ownerSep).toList ++ y.toList := by
      rw [← namespacedOrderID_toList hx, ← namespacedOrderID_toList hy, heq]
    rcases List.prefix_or_prefix_of_prefix ⟨x.toList, hlist⟩ (List.prefix_append _ y.toList) with h | h
    · exact hTU h
    · exact hUT h
  · intro h
    refine ⟨fun hTU => ?_, fun hUT => ?_⟩
    · obtain ⟨x, y, hx, hy, heq⟩ := collide hTU
      exact h x y hx hy heq
    · obtain ⟨y, x, hy, hx, heq⟩ := collide hUT
      exact h x y hx hy heq.symm

theorem InNamespace.not_of_separate {T U id} (hT : InNamespace T id) (h : Separate T U) :
    ¬ InNamespace U id := by
  rintro ⟨y, hy, hyid⟩
  obtain ⟨x, hx, rfl⟩ := hT
  exact separate_iff.mp h x y hx hy hyid

private theorem namespacedOrderID_eq (T own : String) : namespacedOrderID T own = "" ∨
    InNamespace T (namespacedOrderID T own) := by
  by_cases h : own = ""
  · exact .inl (if_pos h)
  · exact .inr ⟨own, h, rfl⟩

theorem inNamespace_of_mem_names {T id m} (h : id ∈ (bindOwner T m).names) (hne : id ≠ "") :
    InNamespace T id := by
  have hown : ∃ own, id = namespacedOrderID T own := by
    rcases List.mem_cons.mp h with rfl | h
    · cases m <;> exact ⟨_, rfl⟩
    have hid := List.mem_singleton.mp (List.mem_filter.mp h).1
    cases m with
    | orderCancelReplace => exact ⟨_, hid⟩
    | newOrder | orderCancel => exact absurd hid hne
  obtain ⟨own, rfl⟩ := hown
  exact (namespacedOrderID_eq T own).resolve_left hne

end Gateway

end Fxp

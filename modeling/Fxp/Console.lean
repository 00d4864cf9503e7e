import Fxp.MarketData

/-!
# The book of the web console

The console keeps a quantity per price. It starts from a snapshot and applies every later market data update. Updates
are sent in another order than the book changed, so a level could go below zero in between; the console would then
drop it and be out of step for good.
-/

namespace Fxp

open OrderBook Checked Prefixes List

variable {R : Type}
variable {book : Console} {out : List (Output R)}

/-- Quantity per price; `anomalies` counts the changes that the book did not have the quantity for. -/
structure Console where
  symbol : String
  bids : Std.ExtTreeMap Int Int := ∅
  asks : Std.ExtTreeMap Int Int := ∅
  synced : Bool := false
  anomalies : Nat := 0

namespace Console

def emptyBook (symbol : String) : Console := { symbol := symbol }

def addLevel (levels : Std.ExtTreeMap Int Int) (l : MdLevel) : Std.ExtTreeMap Int Int :=
  if 0 < l.size then levels.insert l.price (levels[l.price]?.getD 0 + l.size) else levels

def snapshotLevels (levels : List MdLevel) : Std.ExtTreeMap Int Int := levels.foldl addLevel ∅

def applySnapshot (book : Console) (snap : MdSnapshot) : Console :=
  { book with bids := snapshotLevels snap.bidLevels, asks := snapshotLevels snap.askLevels, synced := true }

/-- A change of one side, and the anomalies it counts.  A level that reaches zero or below is deleted. -/
def changeLevels (levels : Std.ExtTreeMap Int Int) (c : MdChange) : Std.ExtTreeMap Int Int × Nat :=
  let cur := levels[c.price]?.getD 0
  if c.updateType = 0 then (levels.insert c.price (cur + c.quantity), 0)
  else if c.updateType ≠ 1 ∧ c.updateType ≠ 2 then (levels, 1)
  else
    let next := cur - c.quantity
    (if next ≤ 0 then levels.erase c.price else levels.insert c.price next, if next < 0 then 1 else 0)

def applyChange (book : Console) (c : MdChange) : Console :=
  if (c.side ≠ sideToProto .buy ∧ c.side ≠ sideToProto .sell) ∨ c.quantity < 0 then
    { book with anomalies := book.anomalies + 1 }
  else if c.side = sideToProto .buy then
    let (bids, n) := changeLevels book.bids c
    { book with bids := bids, anomalies := book.anomalies + n }
  else
    let (asks, n) := changeLevels book.asks c
    { book with asks := asks, anomalies := book.anomalies + n }

/-- Before a snapshot updates are ignored; the result tells whether the update was applied. -/
def applyIncremental (book : Console) (inc : MdUpdate) : Console × Bool :=
  if book.synced then (inc.changes.foldl applyChange book, true) else (book, false)

/-- The console after the outputs of an engine. -/
def follow (book : Console) (out : List (Output R)) : Console :=
  out.foldl (fun book o =>
    match o with
    | .marketData inc => (book.applyIncremental inc).1
    | _ => book) book

def levels (book : Console) : OrderSide → Std.ExtTreeMap Int Int
  | .buy => book.bids
  | .sell => book.asks

def level (book : Console) (side : OrderSide) (price : Int) : Int := (book.levels side)[price]?.getD 0

/-- A synced book without empty levels. -/
structure Good (book : Console) : Prop where
  synced : book.synced = true
  positive : ∀ (s : OrderSide) (p q : Int), (book.levels s)[p]? = some q → 0 < q

theorem Good.level_eq (h : book.Good) {s} {p : Int} :
    (book.levels s)[p]? = if book.level s p = 0 then none else some (book.level s p) := by
  unfold level
  cases hq : (book.levels s)[p]? with
  | none => rfl
  | some q => simp [(h.positive s p q hq).ne']

section positive

variable {levels : Std.ExtTreeMap Int Int} (hpos : ∀ p q : Int, levels[p]? = some q → 0 < q)
include hpos

private theorem getD_nonneg (p : Int) : 0 ≤ levels[p]?.getD 0 := by
  cases hq : levels[p]? with
  | none => exact le_rfl
  | some q => exact (hpos _ q hq).le

private theorem insert_positive {n : Int} (hn : 0 < n) (p : Int) : ∀ p' q : Int, (levels.insert p n)[p']? = some q →
    0 < q := by
  intro p' q hq
  rw [Maps.getElem?_insert] at hq
  split at hq
  · cases hq
    exact hn
  · exact hpos p' q hq

omit hpos in
private theorem getD_insert (p n p' : Int) : (levels.insert p (levels[p]?.getD 0 + n))[p']?.getD 0 =
    levels[p']?.getD 0 + if p = p' then n else 0 := by
  rw [Maps.getElem?_insert]
  split
  · rename_i hp
    rw [hp, Option.getD_some]
  · rw [Int.add_zero]

private theorem changeLevels_spec {c} (htype : c.updateType = 0 ∨ c.updateType = 1 ∨ c.updateType = 2)
    (hc : 0 < c.quantity) (hcover : 0 ≤ levels[c.price]?.getD 0 + c.delta) :
    (changeLevels levels c).2 = 0 ∧ (∀ p q : Int, (changeLevels levels c).1[p]? = some q → 0 < q) ∧
      ∀ p : Int, (changeLevels levels c).1[p]?.getD 0 = levels[p]?.getD 0 + if c.price = p then c.delta else 0 := by
  have hcur := getD_nonneg hpos c.price
  by_cases hnew : c.updateType = 0
  · have hdelta : c.delta = c.quantity := if_pos hnew
    simp only [changeLevels, hnew, if_true, true_and]
    exact ⟨insert_positive hpos (by omega) _, fun p => hdelta ▸ getD_insert ..⟩
  have hdelta : c.delta = -c.quantity := if_neg hnew
  have hknown : ¬ (c.updateType ≠ 1 ∧ c.updateType ≠ 2) := by omega
  simp only [changeLevels, hnew, hknown, if_false]
  by_cases hzero : levels[c.price]?.getD 0 - c.quantity ≤ 0
  · simp only [hzero, if_true, Maps.getElem?_erase]
    refine ⟨if_neg (by omega), fun p q hq => ?_, fun p => ?_⟩
    · split at hq
      · cases hq
      · exact hpos p q hq
    split
    · rename_i hp
      rw [← hp, Option.getD_none]
      omega
    · rw [Int.add_zero]
  · simp only [hzero, if_false]
    exact ⟨if_neg (by omega), insert_positive hpos (by omega) _, fun p => hdelta ▸ getD_insert ..⟩

end positive

/-- A change that the console takes without an anomaly, if the level has the quantity. -/
def Valid (c : MdChange) : Prop :=
  (∃ s, c.side = sideToProto s) ∧ (c.updateType = 0 ∨ c.updateType = 1 ∨ c.updateType = 2) ∧ 0 < c.quantity

private theorem applyChange_spec {c} (h : book.Good) (hc : Valid c)
    (hcover : ∀ s, c.side = sideToProto s → 0 ≤ book.level s c.price + c.delta) :
    (book.applyChange c).Good ∧ (book.applyChange c).anomalies = book.anomalies ∧
      ∀ s p, (book.applyChange c).level s p =
        book.level s p + if c.side = sideToProto s ∧ c.price = p then c.delta else 0 := by
  obtain ⟨⟨side, hside⟩, htype, hpos⟩ := hc
  obtain ⟨hnone, hpositive, hlevel⟩ := changeLevels_spec (h.positive side) htype hpos (hcover side hside)
  have hvalid : ¬ ((c.side ≠ sideToProto .buy ∧ c.side ≠ sideToProto .sell) ∨ c.quantity < 0) := by
    rintro (⟨hb, hs⟩ | _)
    · cases side
      · exact hb hside
      · exact hs hside
    · omega
  have heq : ∀ s, (book.applyChange c).levels s =
      if side = s then (changeLevels (book.levels side) c).1 else book.levels s := by
    intro s
    rw [applyChange, if_neg hvalid]
    cases side <;> cases s <;> simp [hside, sideToProto, levels]
  refine ⟨⟨?_, fun s p q hq => ?_⟩, ?_, fun s p => ?_⟩
  · rw [applyChange, if_neg hvalid]
    split <;> exact h.synced
  · rw [heq] at hq
    split at hq
    · exact hpositive p q hq
    · exact h.positive s p q hq
  · rw [applyChange, if_neg hvalid]
    cases side <;> simp only [levels] at hnone <;> simp [hside, sideToProto, hnone]
  rw [level, heq]
  by_cases hs : side = s
  · subst hs
    rw [if_pos rfl]
    simpa [hside, level] using hlevel p
  · have hother : c.side ≠ sideToProto s := by
      rw [hside]
      cases side <;> cases s <;> first | exact absurd rfl hs | decide
    simp [hs, hother, level]

private theorem foldl_applyChange_spec {changes : List MdChange} (h : book.Good) (hvalid : ∀ c ∈ changes, Valid c)
    (hcover : ∀ s p, AtLeast 0 (book.level s p) (deltasAt p (changes.filter (·.side = sideToProto s)))) :
    (changes.foldl applyChange book).Good ∧ (changes.foldl applyChange book).anomalies = book.anomalies ∧
      ∀ s p, (changes.foldl applyChange book).level s p =
        book.level s p + netAt p (changes.filter (·.side = sideToProto s)) := by
  induction changes generalizing book with
  | nil => exact ⟨h, rfl, fun s p => (Int.add_zero _).symm⟩
  | cons c changes ih =>
    -- the deltas of the level that the change is about start with its own
    have hdeltas : ∀ s p, deltasAt p ((c :: changes).filter (·.side = sideToProto s)) =
        (if c.side = sideToProto s ∧ c.price = p then [c.delta] else []) ++
          deltasAt p (changes.filter (·.side = sideToProto s)) := by
      intro s p
      by_cases hs : c.side = sideToProto s
      · by_cases hp : c.price = p <;> simp [deltasAt, hs, hp]
      · simp [hs]
    obtain ⟨hgood, hanomalies, hlevel⟩ := applyChange_spec h (hvalid c mem_cons_self) fun s hs => by
      have hfirst := hcover s c.price
      rw [hdeltas, if_pos ⟨hs, rfl⟩] at hfirst
      exact by simpa using (AtLeast.append.mp hfirst).1.sum
    obtain ⟨hgood', hanomalies', hlevel'⟩ := ih hgood (fun c hc => hvalid c (mem_cons_of_mem _ hc)) fun s p => by
      have hall := hcover s p
      rw [hdeltas, AtLeast.append] at hall
      rw [hlevel]
      refine hall.2.mono (le_of_eq ?_)
      split <;> simp
    refine ⟨hgood', hanomalies'.trans hanomalies, fun s p => ?_⟩
    rw [foldl_cons, hlevel', hlevel, netAt, netAt, hdeltas, sum_append]
    split <;> simp [Int.add_assoc]

private theorem follow_append (book : Console) (out out' : List (Output R)) :
    book.follow (out ++ out') = (book.follow out).follow out' := by
  rw [follow, foldl_append]
  rfl

private theorem follow_eq (h : book.synced = true) (out : List (Output R)) :
    book.follow out = (out.flatMap mdOf).foldl applyChange book := by
  have hsynced : ∀ (l : List MdChange) (book : Console), book.synced = true →
      (l.foldl applyChange book).synced = true := by
    intro l
    induction l with
    | nil => exact fun _ h => h
    | cons _ _ ih =>
      intro book h
      refine ih _ ?_
      unfold applyChange
      split
      · exact h
      · split <;> exact h
  induction out generalizing book with
  | nil => rfl
  | cons o out ih =>
    rw [flatMap_cons, foldl_append]
    cases o with
    | marketData inc =>
      have hstep : book.follow (.marketData inc :: out) = ((book.applyIncremental inc).1).follow out := rfl
      rw [hstep, applyIncremental, if_pos h]
      exact ih (hsynced _ _ h)
    | _ => exact ih h

private theorem follow_spec (h : book.Good) (hvalid : ∀ c ∈ out.flatMap mdOf, Valid c)
    (hcover : ∀ s p, AtLeast 0 (book.level s p) (deltasAt p (mdChanges s out))) :
    (book.follow out).Good ∧ (book.follow out).anomalies = book.anomalies ∧
      ∀ s p, (book.follow out).level s p = book.level s p + netAt p (mdChanges s out) := by
  rw [follow_eq h.synced]
  exact foldl_applyChange_spec h hvalid hcover

private theorem snapshotLevels_spec {l} (hl : ∀ x ∈ l, 0 ≤ x.size) :
    (∀ p q : Int, (snapshotLevels l)[p]? = some q → 0 < q) ∧
      ∀ p : Int, (snapshotLevels l)[p]?.getD 0 = ((l.filter (·.price = p)).map MdLevel.size).sum := by
  -- the fold, from any map of positive quantities
  have hfold : ∀ (l : List MdLevel) (m : Std.ExtTreeMap Int Int), (∀ x ∈ l, 0 ≤ x.size) →
      (∀ p q : Int, m[p]? = some q → 0 < q) →
      (∀ p q : Int, (l.foldl addLevel m)[p]? = some q → 0 < q) ∧
        ∀ p : Int, (l.foldl addLevel m)[p]?.getD 0 = m[p]?.getD 0 +
        ((l.filter (·.price = p)).map MdLevel.size).sum := by
    intro l
    induction l with
    | nil => exact fun m _ hm => ⟨hm, fun p => (Int.add_zero _).symm⟩
    | cons x l ih =>
      intro m hl hm
      have hx := hl x mem_cons_self
      have htail : ∀ y ∈ l, 0 ≤ y.size := fun y hy => hl y (mem_cons_of_mem _ hy)
      have hcur := getD_nonneg hm x.price
      rw [foldl_cons, addLevel]
      split
      · obtain ⟨hpos, hsum⟩ := ih _ htail (insert_positive hm (n := m[x.price]?.getD 0 + x.size) (by omega) x.price)
        refine ⟨hpos, fun p => ?_⟩
        rw [hsum p, getD_insert]
        by_cases hp : x.price = p
        · simp only [hp, if_true, filter_cons, decide_true, map_cons, sum_cons]
          omega
        · simp [hp]
      · have hzero : x.size = 0 := by omega
        obtain ⟨hpos, hsum⟩ := ih m htail hm
        refine ⟨hpos, fun p => ?_⟩
        rw [hsum p]
        by_cases hp : x.price = p
        · simp [hp, hzero]
        · simp [hp]
  obtain ⟨hpos, hsum⟩ := hfold l ∅ hl (by simp)
  exact ⟨hpos, fun p => (hsum p).trans (by simp)⟩

theorem levelSizes_eq {b : OrderBook} {m : Arithmetic} {side : OrderSide} {sizes : List (Int × Nat)}
    (h : b.levelSizes m side = .ok sizes) :
    sizes = (b.levels side).toList.map fun l => (l.1, wrapU32 (l.2.map b.visible).sum) := by
  refine mapM_eq_map (fun l _ hsize => ?_) h
  obtain ⟨_, hn, hsize⟩ := bind_eq_ok.mp hsize
  cases hsize
  rw [(sumU32_wrap ..).of_ok hn]

private theorem sum_levelSizes (b : OrderBook) (side : OrderSide) (p : Int) :
    ((((b.levels side).toList.map fun l => (l.1, (l.2.map b.visible).sum)).filter (·.1 = p)).map Prod.snd).sum =
      b.shownAt side p := by
  have hlevel : (b.levels side).toList.filter (·.1 = p) = ((b.levels side)[p]?.map fun l => (p, l)).toList := by
    refine Maps.filter_eq_toList (f := Prod.fst) ?_ fun l => ?_
    · rw [Std.ExtTreeMap.map_fst_toList_eq_keys]
      exact Maps.keys_nodup _
    obtain ⟨_, l⟩ := l
    rw [Std.ExtTreeMap.mem_toList_iff_getElem?_eq_some]
    simp only [Option.map_eq_some_iff, Prod.mk.injEq]
    constructor
    · rintro ⟨hl, rfl⟩
      exact ⟨l, hl, rfl, rfl⟩
    · rintro ⟨_, hl, rfl, rfl⟩
      exact ⟨hl, rfl⟩
  rw [filter_map]
  simp only [Function.comp_def, map_map, hlevel]
  unfold shownAt weighed queue Levels.queue
  cases (b.levels side)[p]? <;> simp

/-- No level shows more than the wire can carry. -/
def FitsWire (b : OrderBook) : Prop :=
  ∀ side ∈ [OrderSide.buy, .sell], ∀ l ∈ (b.levels side).toList, (l.2.map b.visible).sum < 2 ^ 31

instance (b : OrderBook) : Decidable (FitsWire b) := by
  unfold FitsWire
  infer_instance

/-- Sums that fit the wire are not wrapped around. -/
theorem FitsWire.levelSizes_eq {b : OrderBook} (hb : FitsWire b) {m : Arithmetic} {side : OrderSide}
    {sizes : List (Int × Nat)} (h : b.levelSizes m side = .ok sizes) :
    sizes = (b.levels side).toList.map fun l => (l.1, (l.2.map b.visible).sum) := by
  rw [Console.levelSizes_eq h]
  refine map_congr_left fun l hl => ?_
  have hlt := hb side (by cases side <;> simp) l hl
  rw [wrapU32_of_lt (by omega)]

private theorem applySnapshot_spec {b m now snap}
    (h : snapshot m b now = .ok snap) (hb : FitsWire b) (symbol : String) :
    ((emptyBook symbol).applySnapshot snap).Good ∧ ((emptyBook symbol).applySnapshot snap).anomalies = 0 ∧
      ∀ s p, ((emptyBook symbol).applySnapshot snap).level s p = b.shownAt s p := by
  obtain ⟨_, hsnap', h⟩ := bind_eq_ok.mp h
  obtain ⟨bids, hbids, hsnap'⟩ := bind_eq_ok.mp hsnap'
  obtain ⟨asks, hasks, hsnap'⟩ := bind_eq_ok.mp hsnap'
  cases hsnap'
  cases h
  -- what the wire carries of one side
  have hside : ∀ side : OrderSide, ∀ sizes l : List (Int × Nat), b.levelSizes m side = .ok sizes → l.Perm sizes →
      (∀ p q : Int,
        (snapshotLevels (l.map fun x => { price := x.1, size := asI32 x.2, side := sideToProto side }))[p]? = some q →
        0 < q) ∧
      ∀ p : Int,
        (snapshotLevels (l.map fun x => { price := x.1, size := asI32 x.2, side := sideToProto side }))[p]?.getD 0 =
        b.shownAt side p := by
    intro side sizes l hsizes hperm
    have hsmall : ∀ x ∈ l, x.2 < 2 ^ 31 := by
      intro x hx
      rw [hperm.mem_iff, hb.levelSizes_eq hsizes] at hx
      obtain ⟨level, hlevel, rfl⟩ := mem_map.mp hx
      exact hb side (by cases side <;> simp) level hlevel
    obtain ⟨hpos, hsum⟩ := snapshotLevels_spec
      (l := l.map fun x => { price := x.1, size := asI32 x.2, side := sideToProto side }) (by
        intro x hx
        obtain ⟨y, hy, rfl⟩ := mem_map.mp hx
        simp only [asI32_of_lt (hsmall y hy)]
        omega)
    refine ⟨hpos, fun p => ?_⟩
    rw [hsum p, filter_map, map_map, ← sum_levelSizes b side p, ← hb.levelSizes_eq hsizes]
    have hcast : ∀ l' : List (Int × Nat), (∀ x ∈ l', x.2 < 2 ^ 31) →
        (l'.map fun x => asI32 x.2).sum = ((l'.map Prod.snd).sum : Nat) := by
      intro l' hl'
      induction l' with
      | nil => rfl
      | cons x _ ih =>
        simp only [map_cons, sum_cons, asI32_of_lt (hl' x mem_cons_self),
          ih fun y hy => hl' y (mem_cons_of_mem _ hy), Nat.cast_add]
    refine (hcast (l.filter (·.1 = p)) fun x hx => hsmall x (mem_filter.mp hx).1).trans ?_
    exact congrArg Nat.cast (((hperm.filter _).map Prod.snd).sum_eq)
  obtain ⟨hbid, hbidSum⟩ := hside .buy bids bids.reverse hbids bids.reverse_perm
  obtain ⟨hask, haskSum⟩ := hside .sell asks asks hasks (.refl _)
  refine ⟨⟨rfl, fun s p q hq => ?_⟩, rfl, fun s p => ?_⟩
  · cases s with
    | buy => exact hbid p q hq
    | sell => exact hask p q hq
  · cases s with
    | buy => exact hbidSum p
    | sell => exact haskSum p

end Console

instance (a b : Traits) : Decidable (a.Conflict b) := inferInstanceAs (Decidable (_ ∧ _))

def Engine.traits (e : Engine R) : List Traits :=
  (e.book.orderLookup.values ++ e.stopBook.parked ++ e.callMarkets.values ++ e.heldClose.values).map Order.traits

def Op.traits (e : Engine R) : Op R → List Traits
  | .newOrder order _ =>
    match Call.orderOf e order (.ofSeconds 0) with
    | .ok o => [o.traits]
    | .error _ => []
  | .cancelReplace m => e.book.orderLookup[m.orderId]?.toList.map fun o =>
    { o.traits with iceberg := ((m.newDisplayQuantity.map fun q => asU32 q.toInt).getD o.displayQuantity) != 0 }
  | .cancel _ | .massCancel _ | .subscribe _ | .beginOpeningCall _ | .tick => []

/-- No operator's call, and no iceberg that self-trade prevention can keep from trading with another order. -/
def fairCall (e e' : Engine R) (op : Op R) : Prop :=
  noOperatorCall e e' op ∧
    ∀ a ∈ e'.traits ++ op.traits e', ∀ b ∈ e'.traits ++ op.traits e', a.iceberg = true → ¬ a.Conflict b

instance (e e' : Engine R) (op : Op R) : Decidable (fairCall e e' op) := inferInstanceAs (Decidable (_ ∧ _))

theorem Engine.Holds.mem_traits {e : Engine R} {t : Traits} (h : e.Holds t) : t ∈ e.traits := by
  obtain ⟨id, pl, o, ho, rfl⟩ := h
  refine mem_map.mpr ⟨o, ?_, rfl⟩
  simp only [mem_append, Maps.mem_values]
  cases pl with
  | book => exact .inl (.inl (.inl ⟨id, Option.mem_toList.mp ho⟩))
  | stops => exact .inl (.inl (.inr (mem_filter.mp ho).1))
  | call => exact .inl (.inr ⟨id, Option.mem_toList.mp ho⟩)
  | held => exact .inr ⟨id, Option.mem_toList.mp ho⟩
  | transit => simp [Progress.slot, idle] at ho

theorem Op.brings.mem_traits {e : Engine R} {t : Traits} {op : Op R} (h : op.brings e t) : t ∈ op.traits e := by
  cases op with
  | newOrder =>
    obtain ⟨_, _, ho, rfl⟩ := h
    simp only [Op.traits]
    unfold Call.orderOf at ho ⊢
    split at ho
    · cases ho
      simp [Order.traits, Order.isIceberg, Order.stpKey]
    · cases ho
  | cancelReplace =>
    obtain ⟨o, ho, rfl⟩ := h
    exact mem_map.mpr ⟨o, by simp [ho], rfl⟩
  | _ => cases h

/-- No iceberg that can meet the call conflicts with another order that can. -/
def Context.Fair (x : Context R) : Prop := ∀ a b, x.known a → x.known b → a.iceberg = true → ¬ a.Conflict b

/-- No live iceberg conflicts with a live order. -/
def Progress.Harmless (w : Progress R) : Prop :=
  ∀ id pl, ∀ o ∈ w.slot id pl, ∀ id' pl', ∀ o' ∈ w.slot id' pl', o.traits.iceberg = true → ¬ o.traits.Conflict o'.traits

theorem Progress.Harmless.fair {c : Call R} {request : Option (Op R)} (hw : (idle false c).Harmless)
    (hok : (c.engine.context request).Allowed fairCall) : (c.engine.context request).Fair := by
  intro a b ha hb
  cases request with
  | none =>
    rcases ha with ⟨id, pl, o, ho, rfl⟩ | ⟨op, h, -⟩
    · rcases hb with ⟨id', pl', o', ho', rfl⟩ | ⟨_, h, -⟩
      · exact hw id pl o ho id' pl' o' ho'
      · cases h
    · cases h
  | some op =>
    obtain ⟨_, -, hfair⟩ := hok op rfl
    have hmem : ∀ t, (c.engine.context (some op)).known t → t ∈ c.engine.traits ++ op.traits c.engine := by
      rintro _ (hholds | ⟨_, h, hbrings⟩)
      · exact mem_append_left _ hholds.mem_traits
      · cases h
        exact mem_append_right _ hbrings.mem_traits
    exact hfair a (hmem a ha) b (hmem b hb)

theorem Context.Fair.harmless {x : Context R} {w : Progress R} (h : x.Fair) (hinv : Inv x w) : w.Harmless := by
  have hknown : ∀ id pl, ∀ o ∈ w.slot id pl, x.known o.traits := by
    intro id pl o ho
    obtain ⟨-, -, -, -, -, hknown⟩ := (hinv.tracked id).of_mem ho
    exact hknown
  exact fun id pl o ho id' pl' o' ho' => h _ _ (hknown id pl o ho) (hknown id' pl' o' ho')

/-- What the orders of a level show that hide nothing. -/
def OrderBook.plainAt (b : OrderBook) (s : OrderSide) (p : Int) : Nat :=
  b.weighed (fun o d => if o.displayQuantity = 0 then d else 0) s p

private theorem plain_le (o : Order) (d : Nat) : (if o.displayQuantity = 0 then d else 0) ≤ d := by
  split
  · exact le_rfl
  · exact Nat.zero_le _

theorem OrderBook.plainAt_le (b : OrderBook) (s : OrderSide) (p : Int) : b.plainAt s p ≤ b.shownAt s p :=
  sum_le_sum fun _ _ => plain_le ..

theorem OrderBook.plainAt_add_le {b : OrderBook} {s : OrderSide} {p : Int} {o : Order} (ho : o ∈ b.queue s p)
    (hd : o.displayQuantity ≠ 0) : b.plainAt s p + b.visible o ≤ b.shownAt s p := by
  unfold plainAt shownAt weighed
  generalize b.queue s p = l at ho
  induction l with
  | nil => cases ho
  | cons x l ih =>
    simp only [map_cons, sum_cons] at ih ⊢
    rcases mem_cons.mp ho with rfl | ho
    · have htail : (l.map fun o => if o.displayQuantity = 0 then b.visible o else 0).sum ≤
        (l.map fun o => b.visible o).sum := sum_le_sum fun _ _ => plain_le ..
      rw [if_neg hd]
      omega
    · have hhead := plain_le x (b.visible x)
      have htail := ih ho
      omega

/-- The changes of an edit keep the level covered; a cut of an iceberg would be sent before its fills. -/
theorem Edit.covered {o : Order} {v : Nat} {k : Edit} (hwithin : k.Within o v)
    (hplain : o.displayQuantity = 0 → v = o.quantity) (hauction : ∀ q, k = .auction q → o.displayQuantity = 0)
    (hcut : ∀ n, k = .cut n → o.displayQuantity = 0) {floor floor' level : Int} {a b c : List Int}
    (hdrop : k = .drop → a = [] ∧ b = [] ∧ c = [])
    (hfloor : floor' + (if o.displayQuantity = 0 then v else 0 : Nat) =
      floor + (if o.displayQuantity = 0 then k.shows o v else 0 : Nat))
    (hlevel : floor + (if o.displayQuantity = 0 then 0 else v : Nat) ≤ level + a.sum + b.sum + c.sum)
    (hdropped : k = .drop → floor' ≤ level - v ∧ (v : Int) ≤ level) (h : Covered floor level a b c) :
    Covered floor' level (a ++ (k.restedChanges o v).map MarketOrderUpdate.signed)
      (b ++ (k.stpChanges o v).map MarketOrderUpdate.signed)
      (c ++ (k.fillChanges o v).map MarketOrderUpdate.signed) := by
  cases k with
  | fill q =>
    simp only [Edit.Within] at hwithin
    simp only [Edit.restedChanges, Edit.stpChanges, Edit.fillChanges, Edit.shows, Edit.left, afterFill, refreshChange,
      nextSlice, map_nil, append_nil, map_cons, fillChange, MarketOrderUpdate.signed] at hfloor ⊢
    by_cases hd : o.displayQuantity = 0
    · have hv := hplain hd
      have hshow : (if o.quantity - q = 0 then (none : Option (Nat × Nat)) else
          some (o.quantity - q, if v - q = 0 then min (o.quantity - q) o.displayQuantity else v - q)).elim 0
          Prod.snd = v - q := by
        by_cases hn : o.quantity - q = 0
        · simp [hn]
          omega
        · have hv' : v - q ≠ 0 := by omega
          simp [hn, hv']
      rw [hshow] at hfloor
      simp only [hd, if_true] at hfloor hlevel
      have hnone : ¬ refreshed o (o.quantity - q) (v - q) = true := by simp [refreshed, hd]
      rw [if_neg hnone]
      exact h.extend (by omega) (AtLeast.cons.mpr ⟨by omega, AtLeast.nil.mpr (by omega)⟩)
    · simp only [hd, if_false] at hfloor hlevel
      refine h.extend (by omega) (AtLeast.cons.mpr ⟨by omega, ?_⟩)
      rw [apply_ite (List.map MarketOrderUpdate.signed)]
      split
      · simp only [map_cons, map_nil, MarketOrderUpdate.signed]
        exact AtLeast.cons.mpr ⟨by omega, AtLeast.nil.mpr (by omega)⟩
      · exact AtLeast.nil.mpr (by omega)
  | auction q =>
    simp only [Edit.Within] at hwithin
    have hd := hauction q rfl
    have hv := hplain hd
    simp only [Edit.restedChanges, Edit.stpChanges, Edit.fillChanges, Edit.shows, Edit.left, afterAuction, map_nil,
      append_nil, map_cons, fillChange, MarketOrderUpdate.signed, hd, if_true] at hfloor hlevel ⊢
    have hshow :
        (if o.quantity - q = 0 then (none : Option (Nat × Nat)) else some (o.quantity - q, o.quantity - q)).elim 0
        Prod.snd = v - q := by
      by_cases hn : o.quantity - q = 0
      · simp [hn]
        omega
      · simp [hn]
        omega
    rw [hshow] at hfloor
    exact h.extend (by omega) (AtLeast.cons.mpr ⟨by omega, AtLeast.nil.mpr (by omega)⟩)
  | cut n =>
    simp only [Edit.Within] at hwithin
    have hd := hcut n rfl
    have hv := hplain hd
    simp only [Edit.restedChanges, Edit.stpChanges, Edit.fillChanges, Edit.shows, Edit.left, afterCut, map_nil,
      append_nil, hd, if_true] at hfloor ⊢
    have hshow : (if n = 0 then (none : Option (Nat × Nat)) else some (n, min v n)).elim 0 Prod.snd = n := by
      by_cases hn : n = 0
      · simp [hn]
      · simp [hn]
        omega
    rw [hshow] at hfloor
    rw [if_pos (by omega)]
    exact h.cut (by simp only [MarketOrderUpdate.signed]; omega) (by simp only [MarketOrderUpdate.signed]; omega)
  | drop =>
    obtain ⟨rfl, rfl, rfl⟩ := hdrop rfl
    obtain ⟨_, _⟩ := hdropped rfl
    exact h.drop (by simp only [MarketOrderUpdate.signed]; omega) (by simp only [MarketOrderUpdate.signed]; omega)

/-- The console has followed the outputs so far without an anomaly, and what waits can be sent. -/
structure Progress.InStep (con : Console) (base : List (Output R)) (w : Progress R) : Prop where
  good : (con.follow (base ++ w.call.out)).Good
  clean : (con.follow (base ++ w.call.out)).anomalies = 0
  level : ∀ s p, (con.follow (base ++ w.call.out)).level s p =
    con.level s p + netAt p (mdChanges s (base ++ w.call.out))
  waiting : ∀ u ∈ w.rested ++ w.stp ++ w.fills, 0 < u.quantity ∧ u.quantity < 2 ^ 31
  covered : ∀ s p, Covered (w.call.engine.book.plainAt s p) ((con.follow (base ++ w.call.out)).level s p)
    (waitingAt s p w.rested) (waitingAt s p w.stp) (waitingAt s p w.fills)

section inStep

variable {x : Context R} {w w' : Progress R} {con : Console} {base : List (Output R)}

theorem Console.follow_silent (hbook : book.synced = true)
    (h : ∀ o ∈ out, mdOf o = []) : book.follow out = book := by
  rw [follow_eq hbook, flatMap_eq_nil_iff.mpr h]
  rfl

theorem Progress.InStep.silent (hw : w.InStep con base) {l} (hout : w'.call.out = w.call.out ++ l)
    (hsilent : ∀ o ∈ l, mdOf o = []) (hrested : w'.rested = w.rested) (hstp : w'.stp = w.stp)
    (hfills : w'.fills = w.fills)
    (hplain : ∀ s p, w'.call.engine.book.plainAt s p = w.call.engine.book.plainAt s p) : w'.InStep con base := by
  have hfollow : con.follow (base ++ w'.call.out) = con.follow (base ++ w.call.out) := by
    rw [hout, ← append_assoc, Console.follow_append, Console.follow_silent hw.good.synced hsilent]
  refine ⟨?_, ?_, fun s p => ?_, ?_, fun s p => ?_⟩
  · rw [hfollow]
    exact hw.good
  · rw [hfollow]
    exact hw.clean
  · rw [hfollow, hout, ← append_assoc, mdChanges_append, mdChanges_silent hsilent, append_nil]
    exact hw.level s p
  · rw [hrested, hstp, hfills]
    exact hw.waiting
  · rw [hfollow, hrested, hstp, hfills, hplain]
    exact hw.covered s p

/-- What the console holds, with what waits, is what the book displays. -/
theorem Progress.InStep.balance (hw : w.InStep con base) (hbalanced : w.Balanced con.level base)
    (s : OrderSide) (p : Int) :
    (con.follow (base ++ w.call.out)).level s p + (waitingAt s p w.rested).sum + (waitingAt s p w.stp).sum +
      (waitingAt s p w.fills).sum = w.call.engine.book.shownAt s p := by
  have hsum := hbalanced s p
  rw [← hw.level] at hsum
  simp only [waitingAt_append, sum_append] at hsum
  omega

theorem Shift.inStep {id : String} {o : Order} {k : Edit} {pl : Place} (hinv : Inv x w) (hdiscreet : w.Discreet)
    (hfair : x.Fair) (hbalanced : w.Balanced con.level base) (h : Shift x w id o k pl w') (hw : w.InStep con base) :
    w'.InStep con base := by
  cases h with
  | @book b ho hedit _ hwithin hauction hdrop hcut =>
    obtain ⟨ho', hsmall, hpos, hle, hplain⟩ := hinv.resting ho
    have hmem : o ∈ w.slot id .book := Progress.mem_book.mpr ho
    have hchanges : ∀ u ∈ k.restedChanges o (w.call.engine.book.visible o) ++
        k.stpChanges o (w.call.engine.book.visible o) ++ k.fillChanges o (w.call.engine.book.visible o),
        u.side = o.side ∧ u.price = o.price ∧ 0 < u.quantity ∧ u.quantity < 2 ^ 31 := by
      intro u hu
      obtain ⟨hside, hprice, hq, hle'⟩ := Edit.mem_changes hwithin hpos hle hu
      exact ⟨hside, hprice, hq, lt_of_le_of_lt hle' hsmall⟩
    have hlevel : ∀ l : List MarketOrderUpdate, (∀ u ∈ l, u ∈ k.restedChanges o (w.call.engine.book.visible o) ++
        k.stpChanges o (w.call.engine.book.visible o) ++ k.fillChanges o (w.call.engine.book.visible o)) → ∀ s p,
        waitingAt s p l = if o.side = s ∧ o.price = p then l.map MarketOrderUpdate.signed else [] :=
      fun l hl => waitingAt_level fun u hu => by
        obtain ⟨hside, hprice, -, hq⟩ := hchanges u (hl u hu)
        exact ⟨hside, hprice, hq⟩
    refine ⟨hw.good, hw.clean, hw.level, fun u hu => ?_, fun s p => ?_⟩
    · simp only [mem_append] at hu
      have hold := hw.waiting u
      have hnew := hchanges u
      simp only [mem_append] at hold hnew
      rcases hu with ((hu | hu) | hu | hu) | hu | hu
      · exact hold (.inl (.inl hu))
      · exact (hnew (.inl (.inl hu))).2.2
      · exact hold (.inl (.inr hu))
      · exact (hnew (.inl (.inr hu))).2.2
      · exact hold (.inr hu)
      · exact (hnew (.inr hu)).2.2
    · simp only [waitingAt_append]
      rw [hlevel (k.restedChanges ..) (fun u hu => by simp [hu]), hlevel (k.stpChanges ..) (fun u hu => by simp [hu]),
        hlevel (k.fillChanges ..) (fun u hu => by simp [hu])]
      have hbalance := hw.balance hbalanced s p
      by_cases hhere : o.side = s ∧ o.price = p
      · simp only [if_pos hhere]
        obtain ⟨rfl, rfl⟩ := hhere
        have hweighed := hedit.weighed_here hinv.book ho' fun o d => if o.displayQuantity = 0 then d else 0
        have hshown : b.shownAt o.side o.price + w.call.engine.book.visible o =
            w.call.engine.book.shownAt o.side o.price + k.shows o (w.call.engine.book.visible o) :=
          hedit.weighed_here hinv.book ho' fun _ d => d
        have hafter := b.plainAt_le o.side o.price
        have hqueue : o ∈ w.call.engine.book.queue o.side o.price := hinv.book.mem_queue ho'
        have hbefore : w.call.engine.book.plainAt o.side o.price +
            (if o.displayQuantity = 0 then 0 else w.call.engine.book.visible o) ≤
              w.call.engine.book.shownAt o.side o.price := by
          split
          · exact w.call.engine.book.plainAt_le ..
          · rename_i hd
            exact OrderBook.plainAt_add_le hqueue hd
        refine Edit.covered hwithin hplain
          (fun q hq => hdiscreet.plain (.inr (hauction q hq)) id .book o hmem) (fun n hn => ?_) (fun hk => ?_) ?_ ?_
          (fun hk => ?_) (hw.covered _ _)
        · -- the order is cut because it conflicts with another one, so it is no iceberg
          obtain ⟨_, ht, hconflict⟩ := hcut n hn
          obtain ⟨-, -, -, -, -, hknown⟩ := (hinv.tracked id).of_mem hmem
          by_contra hd
          refine hfair _ _ hknown ht ?_ hconflict
          simpa [Order.traits, Order.isIceberg] using hd
        · obtain ⟨hr, hs, hf⟩ := hdrop hk
          simp [hr, hs, hf]
        · have helim : (k.left o (w.call.engine.book.visible o)).elim 0
              (fun l => if (o.withQuantity l.1).displayQuantity = 0 then l.2 else 0) =
              if o.displayQuantity = 0 then k.shows o (w.call.engine.book.visible o) else 0 := by
            unfold Edit.shows
            cases k.left o (w.call.engine.book.visible o) with
            | none => simp
            | some => rfl
          rw [helim] at hweighed
          exact_mod_cast hweighed
        · have hcast : ((w.call.engine.book.plainAt o.side o.price + (if o.displayQuantity = 0 then 0 else
              w.call.engine.book.visible o) : Nat) : Int) ≤ w.call.engine.book.shownAt o.side o.price := by
              exact_mod_cast hbefore
          rw [← hbalance, Nat.cast_add] at hcast
          exact hcast
        obtain ⟨hr, hs, hf⟩ := hdrop hk
        subst hk
        simp only [hr, hs, hf, waitingAt_nil, sum_nil, Int.add_zero] at hbalance
        have hgone : Edit.shows o (w.call.engine.book.visible o) .drop = 0 := rfl
        rw [hgone] at hshown
        simp only [Call.onEngine_engine, Call.onEngine_out]
        omega
      · simp only [if_neg hhere, append_nil]
        have hplainAt : b.plainAt s p = w.call.engine.book.plainAt s p := hedit.weighed_elsewhere hinv.book ho' _ hhere
        simp only [Call.onEngine_engine, Call.onEngine_out, hplainAt]
        exact hw.covered s p
  | _ => exact ⟨hw.good, hw.clean, hw.level, hw.waiting, hw.covered⟩

private theorem firstSlice_pos {o} (h : 0 < o.quantity) : 0 < firstSlice o := by
  unfold firstSlice
  split
  · exact h
  · omega

theorem Console.valid_toWire {u : MarketOrderUpdate} (hpos : 0 < u.quantity) (hsmall : u.quantity < 2 ^ 31) :
    Console.Valid u.toWire := by
  refine ⟨⟨u.side, rfl⟩, ?_, ?_⟩
  · simp only [MarketOrderUpdate.toWire]
    cases u.updateType <;> decide
  · simp only [MarketOrderUpdate.toWire, asI32_of_lt hsmall]
    omega

theorem Step.inStep (hinv : Inv x w) (hdiscreet : w.Discreet) (hfair : x.Fair) (hbalanced : w.Balanced con.level base)
    (h : Step x w w') (hw : w.InStep con base) : w'.InStep con base := by
  have hone : ∀ {o : Output R}, mdOf o = [] → ∀ o' ∈ [o], mdOf o' = [] := by
    intro o ho o' ho'
    rwa [mem_singleton.mp ho']
  have hnone : ∀ o ∈ ([] : List (Output R)), mdOf o = [] := fun o ho => absurd ho not_mem_nil
  cases h with
  | edit _ hshift =>
    have hw₁ := hshift.inStep hinv hdiscreet hfair hbalanced hw
    exact hw₁.silent rfl (hone rfl) rfl rfl rfl fun _ _ => rfl
  | swap _ hshift =>
    have hw₁ := hshift.inStep hinv hdiscreet hfair hbalanced hw
    refine hw₁.silent (l := [_, _]) (append_assoc ..) (fun o ho => ?_) rfl rfl rfl fun _ _ => rfl
    simp only [mem_cons, not_mem_nil, or_false] at ho
    rcases ho with rfl | rfl <;> rfl
  | @enter _ _ _ _ _ ack =>
    cases ack
    · exact hw.silent (append_nil _).symm hnone rfl rfl rfl fun _ _ => rfl
    · exact hw.silent rfl (hone rfl) rfl rfl rfl fun _ _ => rfl
  | @rest _ _ t _ b ht _ _ _ _ hadd =>
    obtain ⟨_, -, hagrees, -, hslot⟩ := hinv.in_transit (t := t) (by simp [ht])
    have hfresh := Progress.slot_book.mp (hslot .book (by decide))
    have hslice : firstSlice t.order < 2 ^ 31 := lt_of_le_of_lt (firstSlice_le t.order) hagrees.small
    refine ⟨hw.good, hw.clean, hw.level, fun u hu => ?_, fun s p => ?_⟩
    · have hold := hw.waiting u
      simp only [mem_append, mem_singleton] at hu hold
      rcases hu with ((hu | rfl) | hu) | hu
      · exact hold (.inl (.inl hu))
      · exact ⟨firstSlice_pos hagrees.positive, hslice⟩
      · exact hold (.inl (.inr hu))
      · exact hold (.inr hu)
    · have hplain : b.plainAt s p = w.call.engine.book.plainAt s p + _ := hadd.weighed hinv.book hfresh _ s p
      simp only [waitingAt_append, Call.onEngine_engine, Call.onEngine_out, hplain]
      rw [waitingAt_cons hslice, waitingAt_nil, append_nil]
      split
      · refine (hw.covered s p).add (by simp [MarketOrderUpdate.signed]) ?_
        simp only [MarketOrderUpdate.signed]
        split <;> simp
      · simpa using hw.covered s p
  | note hquiet =>
    obtain ⟨_, hout, hl⟩ := hquiet.out
    exact hw.silent hout (fun o ho => (hl o ho).2.1) rfl rfl rfl fun s p => hquiet.book.weighed _ s p
  | @flush out hmd hout =>
    -- everything that waits is sent: first the orders that came to rest or left, then the cuts, then the fills
    have hdeltas : ∀ s p, deltasAt p (mdChanges s out) = waitingAt s p (w.rested ++ w.stp ++ w.fills) := by
      intro s p
      rw [hout s]
      rfl
    have hvalid : ∀ c ∈ out.flatMap mdOf, Console.Valid c := by
      intro c hc
      obtain ⟨o, ho, hco⟩ := mem_flatMap.mp hc
      obtain ⟨_, rfl, hu⟩ := hmd o ho
      obtain ⟨s, hs⟩ := hu c hco
      have hmem : c ∈ mdChanges s out := mem_filter.mpr ⟨hc, by simpa using hs⟩
      rw [hout s] at hmem
      obtain ⟨m, hm, rfl⟩ := mem_map.mp hmem
      obtain ⟨hpos, hsmall⟩ := hw.waiting m (mem_filter.mp hm).1
      exact Console.valid_toWire hpos hsmall
    obtain ⟨hgood, hanomalies, hlevel⟩ := Console.follow_spec hw.good hvalid fun s p => by
      rw [hdeltas, waitingAt_append, waitingAt_append]
      exact (hw.covered s p).sent (Int.natCast_nonneg _)
    have hfollow : con.follow (base ++ (w.call.out ++ out)) = (con.follow (base ++ w.call.out)).follow out := by
      rw [← append_assoc, Console.follow_append]
    simp only [netAt, hdeltas] at hlevel
    refine ⟨?_, ?_, fun s p => ?_, fun u hu => absurd hu not_mem_nil, fun s p => ?_⟩
    · rw [Call.send_out, hfollow]
      exact hgood
    · rw [Call.send_out, hfollow]
      exact hanomalies.trans hw.clean
    · have hsplit : netAt p (mdChanges s (base ++ (w.call.out ++ out))) = netAt p (mdChanges s (base ++ w.call.out)) +
          (waitingAt s p (w.rested ++ w.stp ++ w.fills)).sum := by
        rw [← append_assoc, mdChanges_append, netAt_append, ← hdeltas]
        rfl
      rw [Call.send_out, hfollow, hlevel, hw.level, hsplit, Int.add_assoc]
    · have hshown := hw.balance hbalanced s p
      have hplain := w.call.engine.book.plainAt_le s p
      rw [Call.send_out, hfollow, hlevel]
      simp only [waitingAt_append, sum_append, Call.send_engine, waitingAt_nil, Int.add_assoc] at hshown ⊢
      rw [hshown]
      exact ⟨AtLeast.nil.mpr (by omega), fun _ hd => absurd hd not_mem_nil, AtLeast.nil.mpr (by simpa using hplain)⟩
  | setPhase =>
    unfold Call.setPhase
    split
    · exact ⟨hw.good, hw.clean, hw.level, hw.waiting, hw.covered⟩
    · exact hw.silent rfl (hone rfl) rfl rfl rfl fun _ _ => rfl
  | print | reject => exact hw.silent rfl (hone rfl) rfl rfl rfl fun _ _ => rfl
  | _ => exact ⟨hw.good, hw.clean, hw.level, hw.waiting, hw.covered⟩

end inStep

variable {cfg : Settings}

/-- A snapshot is that of the book after the tick, and nothing that follows it in the call changes the book. -/
theorem subscribe_eq {c c' : Call R} {clock : Clock} {owner : R} (hsound : c.engine.Sound)
    (h : c.subscribe clock owner = .ok c') :
    ∃ snap rest, snapshot c.engine.arithmetic c.engine.book (clock .request) = .ok snap ∧
      c'.out = c.out ++ .snapshot owner snap :: rest ∧
      (∀ o ∈ rest, mdOf o = []) ∧ SameBook c.engine.book c'.engine.book := by
  obtain ⟨snap, hsnap, h⟩ := bind_eq_ok.mp h
  obtain ⟨c₁, hc₁⟩ : ∃ c₁, c₁ = ((c.push (.snapshot owner snap)).push (.tradingSessionStatus
    { symbol := c.engine.symbol, phase := c.engine.phase, timestamp := clock .request })).onEngine
      fun e => { e with lastIndicative := none } := ⟨_, rfl⟩
  have hstart := hsound.inv none c.out
  have hinv : Inv (c.engine.context none) (idle false c₁) := by
    rw [hc₁]
    exact Step.inv hstart (.note (welcome_quiet hstart owner snap (clock .request)) fun _ => rfl)
  have hpublish := publishIndicative_safe hinv (clock .request)
  rw [hc₁] at hpublish
  obtain ⟨hquiet, -⟩ := hpublish.of_ok h
  obtain ⟨l, hl, hmd⟩ := hquiet.out
  refine ⟨snap, .tradingSessionStatus
    { symbol := c.engine.symbol, phase := c.engine.phase, timestamp := clock .request } :: l,
    hsnap, ?_, fun o ho => ?_, hquiet.book⟩
  · rw [hl]
    simp only [Call.onEngine_out, Call.push, append_assoc]
    rfl
  · rcases mem_cons.mp ho with rfl | ho
    · rfl
    · exact (hmd o ho).2.1

theorem Progress.Harmless.congr {w w' : Progress R} (hw : w.Harmless) (hslot : ∀ id pl, w'.slot id pl = w.slot id pl) :
    w'.Harmless := by
  intro id pl o ho id' pl' o' ho'
  rw [hslot] at ho ho'
  exact hw id pl o ho id' pl' o' ho'

/-- Icebergs stay within their slices and out of the way of self-trade prevention. -/
theorem Run.fair {e : Engine R}
    (h : Run fairCall (Engine.new cfg) e out) :
    e.Sound ∧ (idle false { engine := e }).Discreet ∧ (idle false { engine := e }).Harmless := by
  refine h.invariant (J := fun _ w => w.Discreet ∧ w.Harmless) (.new ..) ⟨.start .., fun id pl _ ho => ?_⟩ ?_
    (fun hmarket _ hw => ⟨hw.1.sameMarket hmarket, hw.2.congr (hmarket.slot false false)⟩)
    (fun hw => ⟨hw.1.restart, hw.2.congr fun id pl => Progress.slot_congr rfl rfl rfl rfl rfl id pl⟩)
  · cases pl <;> simp [Progress.slot, idle, Engine.new, OrderBook.new] at ho
  intro base c request w w' hstart hok hinv hstep hw
  have hcalls := hok.mono fun _ _ _ h => callsWithoutIcebergs_of_none h.1
  exact ⟨hstep.discreet hcalls hinv hw.1, (hstart.2.fair hok).harmless (hstep.inv hinv)⟩

theorem Run.inStep {e₀ e : Engine R} {con : Console} (hsound : e₀.Sound)
    (hdiscreet : (idle false { engine := e₀ }).Discreet) (hharmless : (idle false { engine := e₀ }).Harmless)
    (hbalanced : (idle false { engine := e₀ }).Balanced con.level []) (hw : (idle false { engine := e₀ }).InStep con [])
    (h : Run fairCall e₀ e out) :
    (idle false { engine := e }).Balanced con.level out ∧ (idle false { engine := e }).InStep con out := by
  refine (h.invariant (J := fun base w => w.Discreet ∧ w.Harmless ∧ w.Balanced con.level base ∧ w.InStep con base)
    hsound
    ⟨hdiscreet, hharmless, hbalanced, hw⟩ ?_ ?_ ?_).2.2.2
  · intro base c request w w' hstart hok hinv hstep ⟨hdiscreet, _, hbalanced, hw⟩
    have hcalls := hok.mono fun _ _ _ h => callsWithoutIcebergs_of_none h.1
    have hfair := hstart.2.1.fair hok
    exact ⟨hstep.discreet hcalls hinv hdiscreet, hfair.harmless (hstep.inv hinv),
      hstep.balanced hinv hdiscreet hbalanced, hstep.inStep hinv hdiscreet hfair hbalanced hw⟩
  · intro base c c' hmarket hout ⟨hdiscreet, hharmless, hbalanced, hw⟩
    have hnone : ∀ o ∈ ([] : List (Output R)), mdOf o = [] := fun o ho => absurd ho not_mem_nil
    refine ⟨hdiscreet.sameMarket hmarket, hharmless.congr (hmarket.slot false false),
      hbalanced.silent (l := []) (by simp [idle, hout]) hnone rfl fun s p => ?_,
      hw.silent (l := []) (by simp [idle, hout]) hnone rfl rfl rfl fun s p => ?_⟩
    · simp only [idle]
      rw [hmarket]
    · simp only [idle]
      rw [hmarket]
  · intro base c ⟨hdiscreet, hharmless, hbalanced, hw⟩
    refine ⟨hdiscreet.restart, hharmless.congr fun id pl => Progress.slot_congr rfl rfl rfl rfl rfl id pl,
      fun s p => ?_, ?_, ?_, fun s p => ?_, hw.waiting, fun s p => ?_⟩
    · simpa [idle] using hbalanced s p
    · simpa [idle] using hw.good
    · simpa [idle] using hw.clean
    · simpa [idle] using hw.level s p
    · simpa [idle] using hw.covered s p

/-- A console that starts from a snapshot sees no anomaly, and after every call it holds what the book displays. -/
theorem console_in_step {e₁ e₂ : Engine R}
    {out₁ out₂ : List (Output R)} {clock : Clock} {owner : R} {c₀ c : Call R}
    (h₁ : Run fairCall (Engine.new cfg) e₁ out₁)
    (htick : e₁.tick (clock .advance) = .ok c₀) (hok : fairCall e₁ c₀.engine (.subscribe owner))
    (hsub : c₀.handle clock (.subscribe owner) = .ok c) (hfits : Console.FitsWire c₀.engine.book)
    (h₂ : Run fairCall c.engine e₂ out₂) :
    ∃ snap rest, c.out = c₀.out ++ .snapshot owner snap :: rest ∧
      (((Console.emptyBook cfg.symbol).applySnapshot snap).follow (rest ++ out₂)).anomalies = 0 ∧
      ∀ side price, ((((Console.emptyBook cfg.symbol).applySnapshot snap).follow (rest ++ out₂)).levels side)[price]? =
        if ((e₂.book.queue side price).map e₂.book.visible).sum = 0 then none
        else some (((e₂.book.queue side price).map e₂.book.visible).sum : Int) := by
  have h₀ : Run fairCall (Engine.new cfg) c.engine _ := .call h₁ htick ⟨rfl, hok⟩ hsub
  obtain ⟨hsound, hdiscreet, hharmless⟩ := h₀.fair
  obtain ⟨_, hticked⟩ := (tick_safe h₁.fair.1 _).of_ok htick
  obtain ⟨snap, rest, hsnap, hout, hsilent, hbook⟩ := subscribe_eq (hticked.sound h₁.fair.1) hsub
  obtain ⟨hgood, hclean, hlevel⟩ := Console.applySnapshot_spec hsnap hfits cfg.symbol
  refine ⟨snap, rest, hout, ?_⟩
  rw [Console.follow_append, Console.follow_silent hgood.synced hsilent]
  generalize (Console.emptyBook cfg.symbol).applySnapshot snap = con at hgood hclean hlevel ⊢
  have hshown : ∀ s p, con.level s p = c.engine.book.shownAt s p := fun s p => by
    rw [hlevel, shownAt, shownAt, hbook.weighed]
  have hstart : (idle false ({ engine := c.engine } : Call R)).InStep con [] := by
    refine ⟨hgood, hclean, fun s p => ?_, fun _ hu => absurd hu not_mem_nil, fun s p => ?_⟩
    · simp [idle, mdChanges, netAt, deltasAt, Console.follow]
    have hplain := c.engine.book.plainAt_le s p
    have hlevel₀ : (con.follow ([] ++ (idle false ({ engine := c.engine } : Call R)).call.out)).level s p =
        c.engine.book.shownAt s p := hshown s p
    rw [hlevel₀]
    exact ⟨AtLeast.nil.mpr (by omega), fun _ hd => absurd hd not_mem_nil,
      AtLeast.nil.mpr (by simpa [idle] using hplain)⟩
  obtain ⟨hbalanced, hstep⟩ := h₂.inStep hsound hdiscreet hharmless
    (fun s p => by simp [idle, mdChanges, netAt, deltasAt, hshown]) hstart
  have hbalance := hstep.balance hbalanced
  have hgood₂ := hstep.good
  have hclean₂ := hstep.clean
  simp only [idle, append_nil, waitingAt_nil, sum_nil, Int.add_zero] at hbalance hgood₂ hclean₂
  refine ⟨hclean₂, fun side price => ?_⟩
  rw [hgood₂.level_eq, hbalance]
  simp only [shownAt, weighed, Nat.cast_eq_zero]

/-- An iceberg and a plain order are traded with while self-trade prevention cuts another plain one. -/
theorem console_in_step_cut : ∃ e₁ out₁, ∃ c₀ c : Call Nat, ∃ e₂ out₂, Run fairCall (Engine.sample none) e₁ out₁ ∧
    Run fairCall c.engine e₂ out₂ ∧ ((e₂.book.queue .sell 100).map e₂.book.visible).sum = 2 ∧
    ∃ snap rest, c.out = c₀.out ++ .snapshot 0 snap :: rest ∧
      (((Console.emptyBook "S").applySnapshot snap).follow (rest ++ out₂)).anomalies = 0 ∧
      ∀ side price, ((((Console.emptyBook "S").applySnapshot snap).follow (rest ++ out₂)).levels side)[price]? =
        if ((e₂.book.queue side price).map e₂.book.visible).sum = 0 then none
        else some (((e₂.book.queue side price).map e₂.book.visible).sum : Int) := by
  obtain ⟨e₁, out₁, h₁, hrest⟩ := Run.of_computed fairCall (Engine.sample none)
    [(.at 1, .newOrder { NewOrderSingle.sample "A" "a" .sell 100 10 with displayQuantity := 2 } 0),
      orderAt 1 "B" "b" .sell 100 3]
    (fun e₁ _ => (match e₁.tick (Clock.at 2 .advance) with
      | .error _ => false
      | .ok c₀ => decide (fairCall e₁ c₀.engine (.subscribe 0)) && decide (Console.FitsWire c₀.engine.book) &&
        match c₀.handle (.at 2) (.subscribe 0) with
        | .error _ => false
        | .ok c => (c.engine.applyAll (fun e e' op => e'.inRange op ∧ fairCall e e' op)
            [(.at 3, .newOrder { NewOrderSingle.sample "C" "b" .buy 100 8 with stpMode := 3 } 0)]).any
              fun r => decide (((r.1.book.queue .sell 100).map r.1.book.visible).sum = 2)) = true) (by decide +kernel)
  split at hrest
  · cases hrest
  rename_i c₀ htick
  rw [Bool.and_eq_true, Bool.and_eq_true, decide_eq_true_eq, decide_eq_true_eq] at hrest
  obtain ⟨⟨hok, hfits⟩, hrest⟩ := hrest
  split at hrest
  · cases hrest
  rename_i c hsub
  obtain ⟨⟨e₂, out₂⟩, hr, hshown⟩ := Option.any_eq_true _ _ |>.mp hrest
  have h₂ : Run fairCall c.engine e₂ out₂ := Calls.nil.applyAll hr
  exact ⟨e₁, out₁, c₀, c, e₂, out₂, h₁, h₂, of_decide_eq_true hshown, console_in_step h₁ htick hok hsub hfits h₂⟩

/-- An iceberg trades and is then cut by self-trade prevention: the cut is published before the trade, and the console
keeps a bid that the book does not have. -/
theorem console_out_of_step : ∃ e snap rest, Run noOperatorCall (Engine.sample none) e (.snapshot 0 snap :: rest) ∧
    (((Console.emptyBook "S").applySnapshot snap).follow rest).anomalies = 1 ∧
    ((((Console.emptyBook "S").applySnapshot snap).follow rest).levels .buy)[(100 : Int)]? = some 1 ∧
    e.book.queue .buy 100 = [] := by
  let snap : MdSnapshot := ⟨"S", [], [], ⟨1, 0⟩⟩
  obtain ⟨e, out, hrun, hout, hshown⟩ := Run.of_computed noOperatorCall (Engine.sample none)
    [(.at 1, .subscribe 0), orderAt 2 "A" "a" .sell 100 1, orderAt 3 "B" "b" .sell 100 5,
      (.at 4, .newOrder { NewOrderSingle.sample "C" "b" .buy 100 3 with stpMode := 2, displayQuantity := 1 } 0)]
    (fun e out => out = .snapshot 0 snap :: out.tail ∧
      (((Console.emptyBook "S").applySnapshot snap).follow out.tail).anomalies = 1 ∧
      ((((Console.emptyBook "S").applySnapshot snap).follow out.tail).levels .buy)[(100 : Int)]? = some 1 ∧
      e.book.queue .buy 100 = []) (by decide +kernel)
  exact ⟨e, snap, out.tail, hout ▸ hrun, hshown⟩

end Fxp

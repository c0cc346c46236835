/-
  The price-time-priority book the order book stands for: per side and level index a queue of
  orders, oldest first. Orders carry an id of an arbitrary type; nothing here knows about
  slots, links, bitmaps or cached indices.

  `Ladder.add` serves an incoming order from the crossing levels of the other side, best level
  first and oldest order first (`Lib.sweepLevels`), and rests what is left. `Ladder.cancel`
  deletes the order with a given id.
-/
import LiteExchange.Lib.Sweep
import LiteExchange.Proto.Messages

namespace LiteExchange.Book

open Lib Proto

/-- A resting order of the reference book. -/
structure Resting (ι : Type) where
  id : ι
  orderId : UInt64
  price : Int64
  qty : UInt32
  session : UInt32
  deriving DecidableEq, Repr

/-- What the order still offers. -/
def Resting.amount {ι : Type} (o : Resting ι) : Nat := o.qty.toNat

/-- The order after it has given `k`. -/
def Resting.less {ι : Type} (o : Resting ι) (k : Nat) : Resting ι :=
  { o with qty := o.qty - UInt32.ofNat k }

theorem Resting.amount_less {ι : Type} (o : Resting ι) (k : Nat) (h : k ≤ o.amount) :
    (o.less k).amount = o.amount - k := by
  have hk : (UInt32.ofNat k).toNat = k :=
    UInt32.toNat_ofNat_of_lt' (Nat.lt_of_le_of_lt h o.qty.toNat_lt)
  have hle : UInt32.ofNat k ≤ o.qty := by
    rw [UInt32.le_iff_toNat_le, hk]
    exact h
  simp only [amount, less, UInt32.toNat_sub_of_le _ _ hle, hk]

/-! ## Levels in order of priority -/

/-- The levels of a side, best first. -/
def bestFirst (L : Nat) : SideClass → List Nat
  | .ask => List.range L
  | .bid => (List.range L).reverse

/-- An order of side `S` with limit level `a` may trade at level `j` of the other side. -/
def crosses (S : SideClass) (a j : Nat) : Bool :=
  match S with
  | .bid => decide (j ≤ a)
  | .ask => decide (a ≤ j)

/-- The levels an order of side `S` with limit level `a` trades at, best first. -/
def crossing (L : Nat) (S : SideClass) (a : Nat) : List Nat :=
  (bestFirst L S.opp).filter (crosses S a)

theorem mem_bestFirst {L j : Nat} {S : SideClass} : j ∈ bestFirst L S ↔ j < L := by
  cases S <;> simp [bestFirst]

theorem bestFirst_nodup (L : Nat) (S : SideClass) : (bestFirst L S).Nodup := by
  cases S with
  | ask => exact List.nodup_range
  | bid => exact List.nodup_reverse.mpr List.nodup_range

theorem mem_crossing {L a j : Nat} {S : SideClass} :
    j ∈ crossing L S a ↔ j < L ∧ crosses S a j = true := by
  rw [crossing, List.mem_filter, mem_bestFirst]

theorem crossing_nodup (L : Nat) (S : SideClass) (a : Nat) : (crossing L S a).Nodup :=
  (bestFirst_nodup L S.opp).filter _

theorem length_crossing_le (L : Nat) (S : SideClass) (a : Nat) : (crossing L S a).length ≤ L := by
  have h : (bestFirst L S.opp).length = L := by cases S <;> simp [SideClass.opp, bestFirst]
  exact (List.length_filter_le _ _).trans (Nat.le_of_eq h)

/-! ## The book -/

/-- Per side and level index, the queue of resting orders, oldest first. -/
def Ladder (ι : Type) : Type := SideClass → Nat → List (Resting ι)

variable {ι : Type}

/-- The book with the queues of one side replaced. -/
def Ladder.setSide (bk : Ladder ι) (S : SideClass) (qs : Nat → List (Resting ι)) : Ladder ι :=
  fun T => if T = S then qs else bk T

@[simp] theorem Ladder.setSide_self (bk : Ladder ι) (S : SideClass)
    (qs : Nat → List (Resting ι)) : bk.setSide S qs S = qs := if_pos rfl

theorem Ladder.setSide_of_ne (bk : Ladder ι) {S T : SideClass} (qs : Nat → List (Resting ι))
    (h : T ≠ S) : bk.setSide S qs T = bk T := if_neg h

/-- The outcome of an incoming order: the book after it, the orders it traded with and the
    quantity of each trade, in order, what is left of it, and whether that rests. -/
structure Added (ι : Type) where
  book : Ladder ι
  trades : List (Resting ι × Nat)
  left : Nat
  rests : Bool

/-- The service of an incoming order of limit level `a`. -/
def Ladder.serve (L : Nat) (bk : Ladder ι) (msg : NewOrder) (a maxFills : Nat) :
    SweptLevels (Resting ι) :=
  sweepLevels Resting.amount Resting.less (crossing L msg.side.cls a) (bk msg.side.cls.opp)
    msg.qty.toNat maxFills

/-- The order that rests with what is left of `msg`. -/
def Resting.ofMsg (id : ι) (msg : NewOrder) (left : Nat) : Resting ι :=
  ⟨id, msg.orderId, msg.price, UInt32.ofNat left, msg.hdr.sessionId⟩

/-- An incoming order with id `id` and limit level `a`. -/
def Ladder.add (L : Nat) (bk : Ladder ι) (id : ι) (msg : NewOrder) (a maxFills : Nat) : Added ι :=
  let t := bk.serve L msg a maxFills
  let served := bk.setSide msg.side.cls.opp t.levels
  if 0 < t.demand ∧ msg.tif ≠ TimeInForce.ioc then
    ⟨served.setSide msg.side.cls (Function.update (bk msg.side.cls) a
      (bk msg.side.cls a ++ [Resting.ofMsg id msg t.demand])), t.taken, t.demand, true⟩
  else ⟨served, t.taken, t.demand, false⟩

theorem Ladder.add_of_left {L : Nat} {bk : Ladder ι} {msg : NewOrder} {a maxFills : Nat}
    {t : SweptLevels (Resting ι)} (ht : bk.serve L msg a maxFills = t)
    (h : 0 < t.demand ∧ msg.tif ≠ TimeInForce.ioc) (id : ι) : bk.add L id msg a maxFills =
      ⟨(bk.setSide msg.side.cls.opp t.levels).setSide msg.side.cls
        (Function.update (bk msg.side.cls) a
          (bk msg.side.cls a ++ [Resting.ofMsg id msg t.demand])), t.taken, t.demand, true⟩ := by
  subst ht
  exact if_pos h

theorem Ladder.add_of_done {L : Nat} {bk : Ladder ι} {msg : NewOrder} {a maxFills : Nat}
    {t : SweptLevels (Resting ι)} (ht : bk.serve L msg a maxFills = t)
    (h : ¬ (0 < t.demand ∧ msg.tif ≠ TimeInForce.ioc)) (id : ι) : bk.add L id msg a maxFills =
      ⟨bk.setSide msg.side.cls.opp t.levels, t.taken, t.demand, false⟩ := by
  subst ht
  exact if_neg h

theorem Ladder.add_trades {L : Nat} {bk : Ladder ι} {id : ι} {msg : NewOrder} {a maxFills : Nat} :
    (bk.add L id msg a maxFills).trades = (bk.serve L msg a maxFills).taken := by
  by_cases hl : 0 < (bk.serve L msg a maxFills).demand ∧ msg.tif ≠ TimeInForce.ioc
  · rw [Ladder.add_of_left rfl hl]
  · rw [Ladder.add_of_done rfl hl]

theorem Ladder.add_left_eq {L : Nat} {bk : Ladder ι} {id : ι} {msg : NewOrder} {a maxFills : Nat} :
    (bk.add L id msg a maxFills).left = (bk.serve L msg a maxFills).demand := by
  by_cases hl : 0 < (bk.serve L msg a maxFills).demand ∧ msg.tif ≠ TimeInForce.ioc
  · rw [Ladder.add_of_left rfl hl]
  · rw [Ladder.add_of_done rfl hl]

theorem Ladder.add_rests {L : Nat} {bk : Ladder ι} {id : ι} {msg : NewOrder} {a maxFills : Nat} :
    (bk.add L id msg a maxFills).rests = true ↔
      0 < (bk.add L id msg a maxFills).left ∧ msg.tif ≠ TimeInForce.ioc := by
  rw [Ladder.add_left_eq]
  by_cases hl : 0 < (bk.serve L msg a maxFills).demand ∧ msg.tif ≠ TimeInForce.ioc
  · rw [Ladder.add_of_left rfl hl]
    exact iff_of_true rfl hl
  · rw [Ladder.add_of_done rfl hl]
    exact iff_of_false Bool.false_ne_true hl

/-- What is taken and what is left are what the order asked for. -/
theorem Ladder.add_demand (L : Nat) (bk : Ladder ι) (id : ι) (msg : NewOrder) (a maxFills : Nat) :
    ((bk.add L id msg a maxFills).trades.map Prod.snd).sum + (bk.add L id msg a maxFills).left =
      msg.qty.toNat := by
  obtain ⟨htaken, hdemand, -, -⟩ := sweepLevels_flatMap (crossing_nodup L msg.side.cls a)
  rw [Ladder.add_trades, Ladder.add_left_eq, Ladder.serve, htaken, hdemand]
  exact sweep_demand

/-- The side an incoming order takes from. -/
theorem Ladder.add_opp {L : Nat} {bk : Ladder ι} {id : ι} {msg : NewOrder} {a maxFills : Nat} :
    (bk.add L id msg a maxFills).book msg.side.cls.opp = (bk.serve L msg a maxFills).levels := by
  by_cases hl : 0 < (bk.serve L msg a maxFills).demand ∧ msg.tif ≠ TimeInForce.ioc
  · rw [Ladder.add_of_left rfl hl]
    dsimp only
    rw [Ladder.setSide_of_ne _ _ msg.side.cls.opp_ne, Ladder.setSide_self]
  · rw [Ladder.add_of_done rfl hl]
    exact Ladder.setSide_self ..

/-- An incoming order trades with orders of the levels it crosses, and takes no more than they
    have. -/
theorem Ladder.mem_trades {L : Nat} {bk : Ladder ι} {id : ι} {msg : NewOrder} {a maxFills : Nat}
    {t : Resting ι × Nat} (h : t ∈ (bk.add L id msg a maxFills).trades) :
    (∃ j ∈ crossing L msg.side.cls a, t.1 ∈ bk msg.side.cls.opp j) ∧ t.2 ≤ t.1.amount := by
  rw [Ladder.add_trades, Ladder.serve, (sweepLevels_flatMap (crossing_nodup L msg.side.cls a)).1] at h
  obtain ⟨hmem, hle⟩ := mem_taken h
  exact ⟨List.mem_flatMap.mp hmem, hle⟩

/-- The order named `id` rests. -/
def Ladder.Rests (bk : Ladder ι) (id : ι) : Prop := ∃ S i, ∃ o ∈ bk S i, o.id = id

/-- Delete the order named `id`. -/
def Ladder.cancel [DecidableEq ι] (bk : Ladder ι) (id : ι) : Ladder ι :=
  fun S i => (bk S i).filter fun o => decide (o.id ≠ id)

/-- The first non-empty level of a side, best first. -/
def Ladder.best (L : Nat) (bk : Ladder ι) (S : SideClass) : Option Nat :=
  (bestFirst L S).find? fun i => !(bk S i).isEmpty

/-- The prices of the best levels, with the two extremes for an empty side. -/
def Ladder.bestBidPrice (L : Nat) (bk : Ladder ι) (basePrice tickSize : Int64) : Int64 :=
  match bk.best L .bid with
  | none => Int64.minValue
  | some i => basePrice + Int64.ofNat i * tickSize

def Ladder.bestAskPrice (L : Nat) (bk : Ladder ι) (basePrice tickSize : Int64) : Int64 :=
  match bk.best L .ask with
  | none => Int64.maxValue
  | some i => basePrice + Int64.ofNat i * tickSize

/-- The report of one trade of the incoming order `orderId`, addressed to the resting side. -/
def fillOf (orderId : UInt64) (t : Resting ι × Nat) : Fill :=
  { hdr := ⟨40, .fill, 0, t.1.session⟩, aggressorId := orderId, restingId := t.1.orderId,
    price := t.1.price, qty := UInt32.ofNat t.2 }

end LiteExchange.Book

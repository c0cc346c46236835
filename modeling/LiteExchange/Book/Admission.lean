/-
  Which prices `add_order` takes and at which level (`OrderBook::price_to_idx` and the range
  check of `add_order` in `book/order_book.hpp`).

  The index is `(price - base_price_) / tick_size_`, a subtraction in 64 bits and a division
  that truncates toward zero, narrowed to 32 bits. `OrderBook.exactIdx` is the same quotient
  of unbounded integers. Three things keep the index from being the level whose tick holds the
  price:

  * the subtraction may leave the 64-bit range, which has no meaning in the source;
  * the quotient may leave the 32-bit range, and then a price a multiple of `2^32` ticks away
    has the index of a price on the ladder;
  * a price less than one tick below the base price has quotient zero, not minus one.

  `exact_admission_iff`: admission is exact for a price exactly when none of the three happens.
-/
import LiteExchange.Book.Desk

namespace LiteExchange.Book

open Lib Proto

/-! ## Truncated quotients -/

section Quotient

variable {x t n : Int}

theorem tdiv_lt_iff (ht : 0 < t) (hn : 0 < n) : x.tdiv t < n ↔ x < n * t := by
  by_cases hx : 0 ≤ x
  · rw [Int.tdiv_eq_ediv_of_nonneg hx]
    exact Int.ediv_lt_iff_lt_mul ht
  · have hquot : 0 ≤ (-x).tdiv t := Int.tdiv_nonneg (by omega) (by omega)
    rw [Int.neg_tdiv] at hquot
    have hpos : 0 < n * t := Int.mul_pos hn ht
    constructor <;> intro <;> omega

theorem neg_lt_tdiv_iff (ht : 0 < t) (hn : 0 < n) : -n < x.tdiv t ↔ -(n * t) < x := by
  have h := tdiv_lt_iff (x := -x) ht hn
  rw [Int.neg_tdiv] at h
  constructor <;> intro <;> omega

/-- Quotient `i` is the half-open interval of `i`, but for `i = 0` the interval reaches down to
    `-t`. -/
theorem tdiv_eq_iff (ht : 0 < t) (i : Nat) :
    x.tdiv t = i ↔ x < (i + 1) * t ∧ if i = 0 then -t < x else i * t ≤ x := by
  have hup : x.tdiv t < (i : Int) + 1 ↔ x < (i + 1) * t := tdiv_lt_iff ht (by omega)
  by_cases hi : i = 0
  · have hlow := neg_lt_tdiv_iff (x := x) ht Int.one_pos
    rw [Int.one_mul] at hlow
    rw [if_pos hi, ← hup, ← hlow]
    omega
  · have hlow : x.tdiv t < (i : Int) ↔ x < i * t := tdiv_lt_iff ht (by omega)
    rw [if_neg hi, ← hup, ← Int.not_lt, ← hlow]
    omega

end Quotient

/-! ## The index -/

/-- The distance of a price from the base price. -/
def OrderBook.offset (bk : OrderBook) (price : Int64) : Int := price.toInt - bk.basePrice.toInt

/-- The index, were integers unbounded. -/
def OrderBook.exactIdx (bk : OrderBook) (price : Int64) : Int :=
  (bk.offset price).tdiv bk.tickSize.toInt

/-- Neither does the subtraction leave 64 bits nor the cast lose any. -/
def OrderBook.IndexFits (bk : OrderBook) (price : Int64) : Prop :=
  (-2 ^ 63 ≤ bk.offset price ∧ bk.offset price < 2 ^ 63) ∧
    -2 ^ 31 ≤ bk.exactIdx price ∧ bk.exactIdx price < 2 ^ 31

/-- The range check of `add_order`, with the level it hands on. -/
def OrderBook.levelAt (d : Dims) (bk : OrderBook) (price : Int64) : Option Nat :=
  if bk.priceToIdx price < 0 ∨ d.L ≤ bk.levelOf price then none else some (bk.levelOf price)

section Index

variable {d : Dims} {bk : OrderBook} {price : Int64}

theorem priceToIdx_exact (htick : 0 < bk.tickSize) (h : bk.IndexFits price) :
    (bk.priceToIdx price).toInt = bk.exactIdx price := by
  obtain ⟨⟨h₁, h₂⟩, h₃, h₄⟩ := h
  have hne : bk.tickSize ≠ -1 := by
    rintro heq
    rw [heq] at htick
    exact absurd htick (by decide)
  have hsub : (price - bk.basePrice).toInt = bk.offset price := by
    rw [Int64.toInt_sub]
    exact Int.bmod_eq_of_le h₁ h₂
  rw [OrderBook.priceToIdx, Int64.toInt_toInt32, Int64.toInt_div_of_ne_right _ _ hne, hsub]
  exact Int.bmod_eq_of_le h₃ h₄

theorem levelAt_eq_some {i : Nat} :
    bk.levelAt d price = some i ↔ (bk.priceToIdx price).toInt = i ∧ i < d.L := by
  have hnat : 0 ≤ bk.priceToIdx price → (bk.levelOf price : Int) = (bk.priceToIdx price).toInt := by
    intro h
    have hpos : 0 ≤ (bk.priceToIdx price).toInt := Int32.le_iff_toInt_le.mp h
    rw [OrderBook.levelOf, Int32.toNat_toUInt32_of_le h, ← Int32.toNat_toInt]
    exact Int.toNat_of_nonneg hpos
  unfold OrderBook.levelAt
  by_cases hneg : bk.priceToIdx price < 0
  · have hlt : (bk.priceToIdx price).toInt < 0 := Int32.lt_iff_toInt_lt.mp hneg
    rw [if_pos (Or.inl hneg)]
    constructor
    · intro h
      cases h
    · intro h
      omega
  · have hlevel := hnat (Int32.not_lt.mp hneg)
    by_cases hout : d.L ≤ bk.levelOf price
    · rw [if_pos (Or.inr hout)]
      constructor
      · intro h
        cases h
      · intro h
        omega
    · rw [if_neg (not_or.mpr ⟨hneg, hout⟩), Option.some_inj]
      constructor
      · intro h
        omega
      · intro h
        omega

theorem levelAt_none_iff : bk.levelAt d price = none ↔ ¬ bk.OnLadder d price := by
  unfold OrderBook.levelAt OrderBook.OnLadder
  rw [ite_eq_left_iff]
  simp only [reduceCtorEq, imp_false, not_not, not_and_or, Int32.not_le, Nat.not_lt]

theorem levelAt_of_onLadder (h : bk.OnLadder d price) :
    bk.levelAt d price = some (bk.levelOf price) := by
  refine if_neg ?_
  rw [not_or, Int32.not_lt, Nat.not_le]
  exact h

/-- Where the index does not leave its range, the admitted level is that of the exact quotient. -/
theorem levelAt_exact (htick : 0 < bk.tickSize) (h : bk.IndexFits price) (i : Nat) :
    bk.levelAt d price = some i ↔ i < d.L ∧ bk.offset price < (i + 1) * bk.tickSize.toInt ∧
      if i = 0 then -bk.tickSize.toInt < bk.offset price
      else i * bk.tickSize.toInt ≤ bk.offset price := by
  rw [levelAt_eq_some, priceToIdx_exact htick h, OrderBook.exactIdx,
    tdiv_eq_iff (Int64.lt_iff_toInt_lt.mp htick), and_comm]

end Index

/-! ## Admission -/

/-- The call is the range check and what follows it. -/
theorem addOrder_eq_enterAt {d : Dims} {fl : Floor} {b : Nat} {msg : NewOrder} {i : Nat}
    (maxFills : Nat) (h : (fl.books b).levelAt d msg.price = some i) :
    fl.addOrder d b msg maxFills = fl.enterAt d b msg maxFills i := by
  unfold OrderBook.levelAt at h
  split at h
  · cases h
  · rename_i hin
    obtain rfl := Option.some_inj.mp h
    unfold Floor.addOrder
    dsimp only
    rw [if_neg hin]

/-- The order is placed or matched at level `i`: with a free slot, the range check hands `i` on to
    the rest of the call. -/
def Floor.PlacesAt (d : Dims) (fl : Floor) (b : Nat) (msg : NewOrder) (maxFills i : Nat) : Prop :=
  0 < fl.pool.freeTop ∧ (fl.books b).levelAt d msg.price = some i ∧
    fl.addOrder d b msg maxFills = fl.enterAt d b msg maxFills i

/-- A book as its links spell it out, every order under the name of its slot. -/
def Floor.ladder (d : Dims) (fl : Floor) (b : Nat) : Ladder Nat :=
  absBook fl (fun s => s) (fl.queue d) b

/-- What became of an order that entered at level `i`: fills, book and handle are those of the
    reference step of an order of that level, and a remainder that rests is on the list of the
    level. -/
structure Floor.EnteredAt (d : Dims) (fl : Floor) (b : Nat) (msg : NewOrder) (maxFills i : Nat)
    (r : AddResult) : Prop where
  fills : r.fills = ((fl.ladder d b).add d.L fl.pool.top msg i maxFills).trades.map
    (fillOf msg.orderId)
  book : r.floor.ladder d b = ((fl.ladder d b).add d.L fl.pool.top msg i maxFills).book
  handle : r.handle.valid = ((fl.ladder d b).add d.L fl.pool.top msg i maxFills).rests
  rests : r.handle.valid = true → r.handle.slot ∈ r.floor.queue d b msg.side.cls i

theorem Floor.PlacesAt.entered {d : Dims} {fl : Floor} {v : View} {place : Nat → Place} {b : Nat}
    {msg : NewOrder} {maxFills i : Nat} (h : fl.PlacesAt d b msg maxFills i)
    (hr : FloorRep d fl v place) :
    ∃ r, fl.addOrder d b msg maxFills = .ok r ∧ fl.EnteredAt d b msg maxFills i r := by
  obtain ⟨hfree, hadmit, -⟩ := h
  have hon : (fl.books b).OnLadder d msg.price := by
    refine not_not.mp fun hoff => ?_
    rw [levelAt_none_iff.mpr hoff] at hadmit
    cases hadmit
  have hlevel : (fl.books b).levelOf msg.price = i := by
    unfold OrderBook.levelAt at hadmit
    split at hadmit
    · cases hadmit
    · exact Option.some_inj.mp hadmit
  obtain ⟨r, v', place', hrun, hrep, hspec⟩ :=
    addOrder_admitted hr (fun s => s) fl.pool.top maxFills hon hfree
  have hvalid := hspec.valid_eq hr.threads
  have hbook := hspec.book
  have hnames : Function.update (fun s : Nat => s) fl.pool.top fl.pool.top = fun s => s :=
    Function.update_eq_self fl.pool.top (fun s : Nat => s)
  rw [hnames, hrep.threads.view_eq] at hbook
  have hfills := hspec.fills
  rw [hr.threads.view_eq, hlevel] at hbook hfills hvalid
  refine ⟨r, hrun, hfills, hbook, hvalid, fun hrests => ?_⟩
  rw [hvalid] at hrests
  have hslot := hspec.slot_place
  have hhandle := hspec.handle
  rw [hr.threads.view_eq, hlevel] at hslot hhandle
  -- the slot of the order is the one the arena gave out
  rw [← hrep.threads.view_eq, hrep.threads.queued, hhandle, if_pos hrests, hslot, if_pos hrests]

/-- Admission is exact for an order: the index does not leave its range, the order enters at the
    level whose tick holds its price, and off the ladder it changes nothing. -/
structure ExactAdmission (d : Dims) (fl : Floor) (b : Nat) (msg : NewOrder) (maxFills : Nat) :
    Prop where
  fits : (fl.books b).IndexFits msg.price
  placed : ∀ i : Nat, fl.PlacesAt d b msg maxFills i ↔ i < d.L ∧
    (fl.books b).basePrice.toInt + i * (fl.books b).tickSize.toInt ≤ msg.price.toInt ∧
    msg.price.toInt < (fl.books b).basePrice.toInt + (i + 1) * (fl.books b).tickSize.toInt
  refused : msg.price.toInt < (fl.books b).basePrice.toInt ∨
      (fl.books b).basePrice.toInt + d.L * (fl.books b).tickSize.toInt ≤ msg.price.toInt →
    fl.addOrder d b msg maxFills = .ok ⟨fl, [], [], OrderHandle.invalid⟩

/-- The price is less than `2^63` from the base price and, in ticks, within 32 bits of it, and not
    in the tick below it. -/
def OrderBook.PriceInReach (d : Dims) (bk : OrderBook) (price : Int64) : Prop :=
  (-2 ^ 63 ≤ price.toInt - bk.basePrice.toInt ∧ price.toInt - bk.basePrice.toInt < 2 ^ 63) ∧
    (-((2 ^ 31 + 1) * bk.tickSize.toInt) < price.toInt - bk.basePrice.toInt ∧
      price.toInt - bk.basePrice.toInt < 2 ^ 31 * bk.tickSize.toInt) ∧
    ¬ (0 < d.L ∧ bk.basePrice.toInt - bk.tickSize.toInt < price.toInt ∧
      price.toInt < bk.basePrice.toInt)

section Exact

variable {d : Dims} {fl : Floor} {b : Nat} {msg : NewOrder} {maxFills : Nat}

theorem indexFits_iff {bk : OrderBook} {price : Int64} (htick : 0 < bk.tickSize) :
    bk.IndexFits price ↔ (-2 ^ 63 ≤ bk.offset price ∧ bk.offset price < 2 ^ 63) ∧
      -((2 ^ 31 + 1) * bk.tickSize.toInt) < bk.offset price ∧
      bk.offset price < 2 ^ 31 * bk.tickSize.toInt := by
  have ht : 0 < bk.tickSize.toInt := Int64.lt_iff_toInt_lt.mp htick
  unfold OrderBook.IndexFits OrderBook.exactIdx
  rw [← tdiv_lt_iff ht (by decide), ← neg_lt_tdiv_iff ht (by decide)]
  constructor
  · intro h
    exact ⟨h.1, by omega, h.2.2⟩
  · intro h
    exact ⟨h.1, by omega, h.2.2⟩

theorem placesAt_iff (hfree : 0 < fl.pool.freeTop) {i : Nat} :
    fl.PlacesAt d b msg maxFills i ↔ (fl.books b).levelAt d msg.price = some i := by
  constructor
  · intro h
    exact h.2.1
  · intro h
    exact ⟨hfree, h, addOrder_eq_enterAt maxFills h⟩

/-- Off the ladder for the exact index, off the ladder for the call. -/
theorem levelAt_off_ladder (htick : 0 < (fl.books b).tickSize)
    (hfits : (fl.books b).IndexFits msg.price)
    (hgap : ¬ (0 < d.L ∧ -(fl.books b).tickSize.toInt < (fl.books b).offset msg.price ∧
      (fl.books b).offset msg.price < 0))
    (hoff : (fl.books b).offset msg.price < 0 ∨
      d.L * (fl.books b).tickSize.toInt ≤ (fl.books b).offset msg.price) :
    (fl.books b).levelAt d msg.price = none := by
  have ht : 0 < (fl.books b).tickSize.toInt := Int64.lt_iff_toInt_lt.mp htick
  cases hadm : (fl.books b).levelAt d msg.price with
  | none => rfl
  | some i =>
    obtain ⟨hi, hup, hlow⟩ := (levelAt_exact htick hfits i).mp hadm
    rcases hoff with hneg | habove
    · by_cases hz : i = 0
      · rw [if_pos hz] at hlow
        exact absurd ⟨by omega, hlow, hneg⟩ hgap
      · rw [if_neg hz] at hlow
        have := Int.mul_nonneg (Int.natCast_nonneg i) (Int.le_of_lt ht)
        omega
    · have hle : ((i : Int) + 1) * (fl.books b).tickSize.toInt ≤
          d.L * (fl.books b).tickSize.toInt :=
        Int.mul_le_mul_of_nonneg_right (by omega) (Int.le_of_lt ht)
      omega

/-- Admission is exact for a price exactly when the price is in reach; and in a well-formed book an
    order that is placed at a level is treated as one of that level. -/
theorem exact_admission_iff (d : Dims) (fl : Floor) (b : Nat) (msg : NewOrder) (maxFills : Nat)
    (htick : 0 < (fl.books b).tickSize) (hfree : 0 < fl.pool.freeTop) :
    (ExactAdmission d fl b msg maxFills ↔ (fl.books b).PriceInReach d msg.price) ∧
    ∀ v place, FloorRep d fl v place → ∀ i, fl.PlacesAt d b msg maxFills i →
      ∃ r, fl.addOrder d b msg maxFills = .ok r ∧ fl.EnteredAt d b msg maxFills i r := by
  refine ⟨?_, fun v place hr i h => h.entered hr⟩
  have ht : 0 < (fl.books b).tickSize.toInt := Int64.lt_iff_toInt_lt.mp htick
  have hoffset : (fl.books b).offset msg.price =
      msg.price.toInt - (fl.books b).basePrice.toInt := rfl
  constructor
  · intro h
    have hfits := (indexFits_iff htick).mp h.fits
    refine ⟨hfits.1, hfits.2, ?_⟩
    -- in the tick below the base price the order enters at level 0
    intro hgap
    have hzero : (fl.books b).levelAt d msg.price = some 0 := by
      refine (levelAt_exact htick h.fits 0).mpr ⟨hgap.1, ?_, ?_⟩
      · rw [hoffset]
        omega
      · rw [if_pos rfl, hoffset]
        omega
    have hbase := ((h.placed 0).mp ((placesAt_iff hfree).mpr hzero)).2.1
    omega
  · intro h
    have hfits := (indexFits_iff htick).mpr ⟨h.1, h.2.1⟩
    refine ⟨hfits, fun i => ?_, fun hoff => ?_⟩
    · rw [placesAt_iff hfree, levelAt_exact htick hfits, hoffset]
      by_cases hz : i = 0
      · rw [if_pos hz, hz]
        have hgap := h.2.2
        constructor
        · intro hadm
          refine ⟨hadm.1, ?_, by omega⟩
          by_contra hlt
          exact hgap ⟨hadm.1, by omega, by omega⟩
        · intro hin
          exact ⟨hin.1, by omega, by omega⟩
      · rw [if_neg hz]
        constructor
        · intro hadm
          exact ⟨hadm.1, by omega, by omega⟩
        · intro hin
          exact ⟨hin.1, by omega, by omega⟩
    · refine addOrder_refused maxFills (Or.inl (levelAt_none_iff.mp ?_))
      refine levelAt_off_ladder htick hfits (fun hgap => h.2.2 ?_) ?_
      · rw [hoffset] at hgap
        exact ⟨hgap.1, by omega, by omega⟩
      · rw [hoffset]
        omega

/-- Base price 1000, tick size 10: 1075 enters at level 7, the last one of eight. -/
theorem exact_admission_iff_last_level :
    ExactAdmission smallDims (Floor.init 4 1000 10) 0 (limitOrder 1 Side.buy 1075 5) 64 ∧
      ∃ r, (Floor.init 4 1000 10).addOrder smallDims 0 (limitOrder 1 Side.buy 1075 5) 64 = .ok r ∧
        (Floor.init 4 1000 10).EnteredAt smallDims 0 (limitOrder 1 Side.buy 1075 5) 64 7 r := by
  obtain ⟨hiff, henter⟩ := exact_admission_iff smallDims (Floor.init 4 1000 10) 0
    (limitOrder 1 Side.buy 1075 5) 64 (by decide) (by decide)
  have hexact := hiff.mpr (by unfold OrderBook.PriceInReach; decide)
  exact ⟨hexact, henter _ _ (floorRep_init smallDims 1000 10) 7 ((hexact.placed 7).mpr (by decide))⟩

end Exact

/-- Base price 1000, tick size 10, eight levels. A bid at 995, below the base price, rests at level
    0 and is quoted as a bid at 1000; so is a bid `2^32` ticks above. -/
theorem below_base_admitted :
    ¬ ExactAdmission smallDims (Floor.init 4 1000 10) 0 (limitOrder 1 Side.buy 995 5) 64 ∧
    ¬ ExactAdmission smallDims (Floor.init 4 1000 10) 0
      (limitOrder 1 Side.buy (1000 + 2 ^ 32 * 10) 5) 64 ∧
    ∀ price ∈ [995, 1000 + 2 ^ 32 * 10], ∃ r,
      (Floor.init 4 1000 10).addOrder smallDims 0 (limitOrder 1 Side.buy price 5) 64 = .ok r ∧
        r.handle.valid = true ∧ (r.floor.books 0).bestBidPrice = 1000 := by
  refine ⟨fun h => ?_, fun h => ?_, fun price hp => ?_⟩
  · have hplaced := (h.placed 0).mp ⟨by decide, by decide, addOrder_eq_enterAt 64 (by decide)⟩
    exact absurd hplaced.2.1 (by decide)
  · exact absurd h.fits.2.2 (by decide)
  · rcases List.mem_cons.mp hp with rfl | hp
    · exact ⟨_, rfl, by decide, by decide⟩
    · rw [List.mem_singleton.mp hp]
      exact ⟨_, rfl, by decide, by decide⟩

end LiteExchange.Book

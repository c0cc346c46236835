/-
  Crossed books. `exhausted_add`: the match of an admitted order stops when its quantity is used
  up, when `max_fills` fills were made, or when no order is left at a crossing level; which of
  them can be told from the book before the call (`Floor.Uncut`). `uncrossed_add`,
  `uncrossed_cancel`: a book with no bid at or above an ask stays so unless a match was cut short
  by `max_fills`.
-/
import LiteExchange.Book.Calls

namespace LiteExchange.Book

open Lib Proto

/-! ## The reference book -/

section Ladder

variable {ι : Type} {L a maxFills : Nat} {bk : Ladder ι} {msg : NewOrder}

/-- Every bid is below every ask. -/
def Ladder.Uncrossed (bk : Ladder ι) : Prop := ∀ i j, bk .bid i ≠ [] → bk .ask j ≠ [] → i < j

/-- The same, seen from either side. -/
theorem Ladder.uncrossed_iff (S : SideClass) : bk.Uncrossed ↔
    ∀ i j, bk S i ≠ [] → bk S.opp j ≠ [] → crosses S i j = false := by
  cases S with
  | bid => simp only [Ladder.Uncrossed, crosses, SideClass.opp, decide_eq_false_iff_not, Nat.not_le]
  | ask =>
    simp only [Ladder.Uncrossed, crosses, SideClass.opp, decide_eq_false_iff_not, Nat.not_le]
    exact ⟨fun h i j hi hj => h j i hj hi, fun h i j hi hj => h j i hj hi⟩

/-- A queue that is empty stays empty while the side is served. -/
theorem Ladder.serve_eq_nil {j : Nat} (h : bk msg.side.cls.opp j = []) :
    (bk.serve L msg a maxFills).levels j = [] := by
  obtain ⟨d, r, hat⟩ := sweepLevels_at (j := j) (crossing_nodup L msg.side.cls a)
  rw [Ladder.serve, hat, h]
  rfl

/-- Nothing is left at the crossing levels. -/
def Ladder.Emptied (L : Nat) (bk : Ladder ι) (msg : NewOrder) (a maxFills : Nat) : Prop :=
  ∀ j ∈ crossing L msg.side.cls a, (bk.serve L msg a maxFills).levels j = []

theorem Ladder.emptied_iff : bk.Emptied L msg a maxFills ↔
    (sweep Resting.amount Resting.less ((crossing L msg.side.cls a).flatMap (bk msg.side.cls.opp))
      msg.qty.toNat maxFills).rest = [] := by
  rw [← (sweepLevels_flatMap (crossing_nodup L msg.side.cls a)).2.2.2, List.flatMap_eq_nil_iff]
  rfl

theorem Ladder.serve_stops : (bk.serve L msg a maxFills).demand = 0 ∨
    (bk.serve L msg a maxFills).taken.length = maxFills ∨ bk.Emptied L msg a maxFills := by
  obtain ⟨htaken, hdemand, -, -⟩ := sweepLevels_flatMap (crossing_nodup L msg.side.cls a)
  rw [Ladder.emptied_iff, Ladder.serve, htaken, hdemand]
  refine sweep_exhausted.imp_right (Or.imp_left fun hroom => ?_)
  rw [← Nat.add_zero (List.length _), ← hroom]
  exact sweep_room

/-- An order whose match was not cut short leaves the book uncrossed. -/
theorem Ladder.Uncrossed.add (h : bk.Uncrossed) (hL : ∀ j, bk msg.side.cls.opp j ≠ [] → j < L)
    (hdone : (bk.serve L msg a maxFills).demand = 0 ∨ bk.Emptied L msg a maxFills) (id : ι) :
    (bk.add L id msg a maxFills).book.Uncrossed := by
  rw [Ladder.uncrossed_iff msg.side.cls] at h ⊢
  have hopp : ∀ j, (bk.serve L msg a maxFills).levels j ≠ [] → bk msg.side.cls.opp j ≠ [] :=
    fun j hj hnil => hj (Ladder.serve_eq_nil hnil)
  rw [Ladder.add_opp]
  intro i j hi hj
  by_cases hl : 0 < (bk.serve L msg a maxFills).demand ∧ msg.tif ≠ TimeInForce.ioc
  · rw [Ladder.add_of_left rfl hl] at hi
    dsimp only at hi
    rw [Ladder.setSide_self] at hi
    by_cases hia : i = a
    · -- the level of the new order: nothing that it crosses is left
      have hemptied := hdone.resolve_left (Nat.ne_of_gt hl.1)
      rw [hia, ← Bool.not_eq_true]
      exact fun hc => hj (hemptied j (mem_crossing.mpr ⟨hL j (hopp j hj), hc⟩))
    · rw [Function.update_of_ne hia] at hi
      exact h i j hi (hopp j hj)
  · rw [Ladder.add_of_done rfl hl] at hi
    dsimp only at hi
    rw [Ladder.setSide_of_ne _ _ msg.side.cls.opp_ne.symm] at hi
    exact h i j hi (hopp j hj)

end Ladder

/-! ## The floor -/

/-- Every bid of book `b` is on a lower level than every ask. -/
def Floor.Uncrossed (d : Dims) (fl : Floor) (b : Nat) : Prop :=
  ∀ i j, fl.queue d b .bid i ≠ [] → fl.queue d b .ask j ≠ [] → i < j

/-- The orders in reach are few enough, or have enough among the first of them, for `maxFills`
    fills to see the incoming order through. -/
def Floor.Uncut (d : Dims) (fl : Floor) (b : Nat) (msg : NewOrder) (maxFills : Nat) : Prop :=
  (fl.reach d b msg).length ≤ maxFills ∨ msg.qty.toNat ≤
    (((fl.reach d b msg).take maxFills).map fun s => (fl.pool.slots s).qty.toNat).sum

/-- The call filled the order completely. -/
def AddResult.Filled (msg : NewOrder) (r : AddResult) : Prop :=
  (r.fills.map fun f => f.qty.toNat).sum = msg.qty.toNat

/-- After the call no opposite order is left at a crossing level. -/
def AddResult.Cleared (d : Dims) (fl : Floor) (b : Nat) (msg : NewOrder) (r : AddResult) : Prop :=
  ∀ j, crosses msg.side.cls ((fl.books b).levelOf msg.price) j = true →
    r.floor.queue d b msg.side.cls.opp j = []

section Floor

variable {d : Dims} {fl : Floor} {v : View} {place : Nat → Place} {b maxFills : Nat}
variable {msg : NewOrder}

theorem FloorRep.uncrossed_iff {ι : Type} (h : FloorRep d fl v place) (owner : Nat → ι) (b : Nat) :
    fl.Uncrossed d b ↔ (absBook fl owner v b).Uncrossed := by
  rw [Floor.Uncrossed, ← h.threads.view_eq, Ladder.Uncrossed]
  simp only [absBook, absSide, ne_eq, absQueue_eq_nil]

/-- Whether `maxFills` cuts the match short can be told beforehand. -/
theorem FloorRep.uncut_iff {ι : Type} (h : FloorRep d fl v place) (owner : Nat → ι) :
    fl.Uncut d b msg maxFills ↔
      ((absBook fl owner v b).serve d.L msg ((fl.books b).levelOf msg.price) maxFills).demand = 0 ∨
        (absBook fl owner v b).Emptied d.L msg ((fl.books b).levelOf msg.price) maxFills := by
  obtain ⟨-, hdemand, -, -⟩ := sweepLevels_flatMap
    (crossing_nodup d.L msg.side.cls ((fl.books b).levelOf msg.price))
  rw [Ladder.emptied_iff, Ladder.serve, hdemand, sweep_complete_iff, ← h.reach_eq, absQueue,
    List.length_map, ← List.map_take, List.map_map]
  rfl

section Admitted

variable {ι : Type} {owner : Nat → ι} {id : ι} {slot : Nat} {r : AddResult} {v' : View}
variable {place' : Nat → Place}

/-- The fills add up to what the order is served. -/
theorem AddSpec.sum_fills {add : Added ι}
    (hs : AddSpec fl owner v place b id msg add slot r v' place')
    (hadd : (absBook fl owner v b).add d.L id msg ((fl.books b).levelOf msg.price) maxFills = add) :
    (r.fills.map fun f => f.qty.toNat).sum + add.left = msg.qty.toNat := by
  have hqty : (r.fills.map fun f => f.qty.toNat) = add.trades.map Prod.snd := by
    rw [hs.fills, List.map_map]
    refine List.map_congr_left fun t ht => ?_
    have hle : t.2 ≤ t.1.amount := (Ladder.mem_trades (hadd ▸ ht)).2
    exact UInt32.toNat_ofNat_of_lt' (Nat.lt_of_le_of_lt hle t.1.qty.toNat_lt)
  rw [hqty, ← hadd]
  exact Ladder.add_demand ..

theorem AddSpec.cleared {add : Added ι}
    (hs : AddSpec fl owner v place b id msg add slot r v' place')
    (hadd : (absBook fl owner v b).add d.L id msg ((fl.books b).levelOf msg.price) maxFills = add)
    (hr : FloorRep d r.floor v' place')
    (he : (absBook fl owner v b).Emptied d.L msg ((fl.books b).levelOf msg.price) maxFills) :
    r.Cleared d fl b msg := by
  intro j hj
  rw [← hr.threads.view_eq]
  by_contra hne
  have hqueue : absBook r.floor (Function.update owner slot id) v' b msg.side.cls.opp j ≠ [] :=
    fun hnil => hne (absQueue_eq_nil.mp hnil)
  rw [hs.book, ← hadd, Ladder.add_opp] at hqueue
  exact hqueue (he j (mem_crossing.mpr ⟨hr.threads.lt_L hne, hj⟩))

end Admitted

/-- How the match of an admitted order ends. -/
theorem exhausted_add (h : FloorRep d fl v place) {r : AddResult}
    (hadm : (fl.books b).OnLadder d msg.price ∧ 0 < fl.pool.freeTop)
    (hrun : fl.addOrder d b msg maxFills = .ok r) :
    (r.Filled msg ∨ r.fills.length = maxFills ∨ r.Cleared d fl b msg) ∧
      (fl.Uncut d b msg maxFills → r.Filled msg ∨ r.Cleared d fl b msg) := by
  obtain ⟨r', v', place', hrun', hrep, hs⟩ := addOrder_admitted h (fun _ => ()) () maxFills
    hadm.1 hadm.2
  obtain rfl : r = r' := Except.ok.inj (hrun.symm.trans hrun')
  have hfilled : ((absBook fl (fun _ => ()) v b).serve d.L msg ((fl.books b).levelOf msg.price)
      maxFills).demand = 0 → r.Filled msg := fun hzero => by
    have hsum := hs.sum_fills rfl
    rw [Ladder.add_left_eq, hzero] at hsum
    exact hsum
  have hcleared := hs.cleared rfl hrep
  constructor
  · refine Ladder.serve_stops.imp hfilled (Or.imp (fun hlen => ?_) hcleared)
    rw [hs.fills, List.length_map, Ladder.add_trades, hlen]
  · intro huncut
    exact ((h.uncut_iff fun _ => ()).mp huncut).imp hfilled hcleared

/-- An admitted order whose match is not cut short keeps all books uncrossed. -/
theorem uncrossed_add (h : FloorRep d fl v place) {r : AddResult}
    (hadm : (fl.books b).OnLadder d msg.price ∧ 0 < fl.pool.freeTop)
    (hrun : fl.addOrder d b msg maxFills = .ok r) (huncut : fl.Uncut d b msg maxFills)
    (hall : ∀ b', fl.Uncrossed d b') (b' : Nat) : r.floor.Uncrossed d b' := by
  obtain ⟨r', v', place', hrun', hrep, hs⟩ := addOrder_admitted h (fun _ => ()) () maxFills
    hadm.1 hadm.2
  obtain rfl : r = r' := Except.ok.inj (hrun.symm.trans hrun')
  rw [hrep.uncrossed_iff (Function.update (fun _ => ()) fl.pool.top ())]
  by_cases hb : b' = b
  · rw [hb, hs.book]
    refine ((h.uncrossed_iff _ b).mp (hall b)).add (fun j hj => ?_)
      ((h.uncut_iff fun _ => ()).mp huncut) ()
    exact h.threads.lt_L fun hnil => hj (absQueue_eq_nil.mpr hnil)
  · rw [hs.others b' hb]
    exact (h.uncrossed_iff _ b').mp (hall b')

/-- So does a cancel. -/
theorem uncrossed_cancel (h : FloorRep d fl v place) {fl' : Floor} {v' : View}
    {place' : Nat → Place} (h' : FloorRep d fl' v' place') {i slot : Nat} {S : SideClass}
    (hc : CancelSpec fl v b S i slot fl' v') (hall : ∀ b', fl.Uncrossed d b') (b' : Nat) :
    fl'.Uncrossed d b' := by
  -- no queue that was empty gets an order
  have hsub : ∀ T j, v' b' T j ≠ [] → v b' T j ≠ [] := by
    intro T j hne
    obtain ⟨xs, ys, hv, rfl⟩ := hc.view
    by_cases he : b' = b ∧ T = S ∧ j = i
    · obtain ⟨rfl, rfl, rfl⟩ := he
      rw [hv]
      simp
    · rwa [v.set_of_ne _ he] at hne
  have hold := hall b'
  rw [Floor.Uncrossed, ← h.threads.view_eq] at hold
  rw [Floor.Uncrossed, ← h'.threads.view_eq]
  exact fun i j hi hj => hold i j (hsub _ _ hi) (hsub _ _ hj)

end Floor

end LiteExchange.Book

/-
  Quantities balance. `quantity_conserved`: at the end of every run of fewer than `2^32` calls
  the quantity an admitted order was submitted with is what it took, what it gave, what it still
  has on a list, and what was given up when it was killed or cancelled; and every fill took the
  same positive amount from both of its parties.

  The balance is kept by the reference book (`Ladder.tally_add`, `Ladder.tally_cancel`) and
  carried over by the refinement.
-/
import LiteExchange.Book.Refinement

namespace LiteExchange.Book

open Lib Proto

/-! ## The reference book conserves quantity -/

section Ladder

variable {L a maxFills k : Nat} {bk : Ladder Nat} {msg : NewOrder}

/-- What the order named `k` has in a queue. -/
def tallyOf (k : Nat) (xs : List (Resting Nat)) : Nat :=
  tally Resting.amount (fun o => decide (o.id = k)) xs

/-- What the order named `k` has on the ladder. -/
def Ladder.tally (L : Nat) (bk : Ladder Nat) (k : Nat) : Nat := tallyOf k (bk.orders L)

/-- What was taken from the order named `k`. -/
def takenFrom (k : Nat) (trades : List (Resting Nat × Nat)) : Nat :=
  Lib.tally Prod.snd (fun t => decide (t.1.id = k)) trades

theorem tallyOf_append (k : Nat) (xs ys : List (Resting Nat)) :
    tallyOf k (xs ++ ys) = tallyOf k xs + tallyOf k ys := tally_append ..

theorem tallyOf_cons (k : Nat) (o : Resting Nat) (xs : List (Resting Nat)) :
    tallyOf k (o :: xs) = (if o.id = k then o.amount else 0) + tallyOf k xs := by
  rw [tallyOf, tally_cons]
  simp only [decide_eq_true_eq]
  rfl

theorem Ladder.tally_eq (L : Nat) (bk : Ladder Nat) (k : Nat) : bk.tally L k =
    ∑ i ∈ Finset.range L, tallyOf k (bk .bid i) + ∑ i ∈ Finset.range L, tallyOf k (bk .ask i) := by
  have hside : ∀ f : Nat → List (Resting Nat), tallyOf k ((List.range L).flatMap f) =
      ∑ i ∈ Finset.range L, tallyOf k (f i) := fun f => by
    rw [tallyOf, tally_flatMap, ← List.toFinset_range, List.sum_toFinset _ List.nodup_range]
    rfl
  rw [Ladder.tally, Ladder.orders, tallyOf, tally_append]
  exact congrArg₂ (· + ·) (hside _) (hside _)

/-- The same, by the two sides seen from one of them. -/
theorem Ladder.tally_eq_sides (L : Nat) (bk : Ladder Nat) (k : Nat) (S : SideClass) :
    bk.tally L k = ∑ i ∈ Finset.range L, tallyOf k (bk S i) +
      ∑ i ∈ Finset.range L, tallyOf k (bk S.opp i) := by
  rw [Ladder.tally_eq]
  cases S with
  | bid => rfl
  | ask => exact Nat.add_comm _ _

theorem sweep_tallyOf (k : Nat) (xs : List (Resting Nat)) (d r : Nat) :
    takenFrom k (sweep Resting.amount Resting.less xs d r).taken +
      tallyOf k (sweep Resting.amount Resting.less xs d r).rest = tallyOf k xs := by
  rw [takenFrom, tallyOf, tallyOf]
  exact sweep_tally (fun o : Resting Nat => decide (o.id = k)) (fun _ _ => rfl) Resting.amount_less

/-- The side an incoming order takes from loses what was taken. -/
theorem tally_serve (L : Nat) (bk : Ladder Nat) (msg : NewOrder) (a maxFills k : Nat) :
    takenFrom k (bk.serve L msg a maxFills).taken +
      ∑ i ∈ Finset.range L, tallyOf k ((bk.serve L msg a maxFills).levels i) =
      ∑ i ∈ Finset.range L, tallyOf k (bk msg.side.cls.opp i) := by
  have hnd := crossing_nodup L msg.side.cls a
  -- the levels in reach, as a set
  have hset : (Finset.range L).filter (fun j => crosses msg.side.cls a j = true) =
      (crossing L msg.side.cls a).toFinset := by
    ext j
    rw [Finset.mem_filter, Finset.mem_range, List.mem_toFinset, mem_crossing]
  have hreach : ∀ f : Nat → List (Resting Nat),
      ∑ i ∈ (Finset.range L).filter (fun j => crosses msg.side.cls a j = true), tallyOf k (f i) =
        tallyOf k ((crossing L msg.side.cls a).flatMap f) := fun f => by
    rw [hset, List.sum_toFinset _ hnd, tallyOf, tally_flatMap]
    rfl
  have hfar : ∑ i ∈ (Finset.range L).filter (fun j => ¬ crosses msg.side.cls a j = true),
        tallyOf k ((bk.serve L msg a maxFills).levels i) =
      ∑ i ∈ (Finset.range L).filter (fun j => ¬ crosses msg.side.cls a j = true),
        tallyOf k (bk msg.side.cls.opp i) := by
    refine Finset.sum_congr rfl fun j hj => ?_
    rw [Finset.mem_filter] at hj
    rw [Ladder.serve, sweepLevels_frame fun hmem => hj.2 (mem_crossing.mp hmem).2]
  have hsweep := sweep_tallyOf k ((crossing L msg.side.cls a).flatMap (bk msg.side.cls.opp))
    msg.qty.toNat maxFills
  obtain ⟨htaken, -, -, hrest⟩ := sweepLevels_flatMap hnd
  rw [← htaken, ← hrest] at hsweep
  rw [← Finset.sum_filter_add_sum_filter_not (Finset.range L)
      (fun j => crosses msg.side.cls a j = true),
    ← Finset.sum_filter_add_sum_filter_not (Finset.range L)
      (fun j => crosses msg.side.cls a j = true), hreach, hreach, hfar, ← Nat.add_assoc]
  exact congrArg (· + _) hsweep

/-- Two ladders that differ in one queue. -/
theorem Ladder.tally_of_level (bk bk' : Ladder Nat) {S : SideClass} {i : Nat} (hi : i < L)
    (hopp : ∀ j, bk' S.opp j = bk S.opp j) (hne : ∀ j, j ≠ i → bk' S j = bk S j) (k : Nat) :
    bk'.tally L k + tallyOf k (bk S i) = bk.tally L k + tallyOf k (bk' S i) := by
  have hrest : ∑ j ∈ (Finset.range L).erase i, tallyOf k (bk' S j) =
      ∑ j ∈ (Finset.range L).erase i, tallyOf k (bk S j) :=
    Finset.sum_congr rfl fun j hj => by rw [hne j (Finset.ne_of_mem_erase hj)]
  have hside : ∑ j ∈ Finset.range L, tallyOf k (bk' S.opp j) =
      ∑ j ∈ Finset.range L, tallyOf k (bk S.opp j) :=
    Finset.sum_congr rfl fun j _ => by rw [hopp]
  rw [bk'.tally_eq_sides L k S, bk.tally_eq_sides L k S, hside,
    ← Finset.add_sum_erase _ _ (Finset.mem_range.mpr hi),
    ← Finset.add_sum_erase _ (fun j => tallyOf k (bk S j)) (Finset.mem_range.mpr hi), hrest]
  omega

/-- An incoming order takes from the resting ones and leaves its own rest. -/
theorem Ladder.tally_add (ha : a < L) (id : Nat) :
    takenFrom k (bk.add L id msg a maxFills).trades + (bk.add L id msg a maxFills).book.tally L k =
      bk.tally L k + if (bk.add L id msg a maxFills).rests = true ∧ id = k
        then (bk.add L id msg a maxFills).left else 0 := by
  have hserve := tally_serve L bk msg a maxFills k
  have hopp : msg.side.cls ≠ msg.side.cls.opp := msg.side.cls.opp_ne.symm
  have hserved : ((bk.setSide msg.side.cls.opp (bk.serve L msg a maxFills).levels).tally L k) +
      takenFrom k (bk.serve L msg a maxFills).taken = bk.tally L k := by
    rw [Ladder.tally_eq_sides L _ k msg.side.cls, Ladder.tally_eq_sides L bk k msg.side.cls,
      Ladder.setSide_self, Ladder.setSide_of_ne _ _ hopp]
    omega
  by_cases hl : 0 < (bk.serve L msg a maxFills).demand ∧ msg.tif ≠ TimeInForce.ioc
  · have hleft := bk.add_demand L id msg a maxFills
    rw [Ladder.add_of_left rfl hl] at hleft ⊢
    dsimp only at hleft ⊢
    generalize bk.serve L msg a maxFills = t at hserved hleft ⊢
    -- only the queue the rest joins differs from the served book
    have hjoin := Ladder.tally_of_level (bk.setSide msg.side.cls.opp t.levels)
      ((bk.setSide msg.side.cls.opp t.levels).setSide msg.side.cls (Function.update
        (bk msg.side.cls) a (bk msg.side.cls a ++ [Resting.ofMsg id msg t.demand]))) ha
      (fun j => by rw [Ladder.setSide_of_ne _ _ hopp.symm])
      (fun j hj => by rw [Ladder.setSide_self, Ladder.setSide_of_ne _ _ hopp,
        Function.update_of_ne hj]) k
    have hamount : (Resting.ofMsg id msg t.demand).amount = t.demand :=
      UInt32.toNat_ofNat_of_lt' (Nat.lt_of_le_of_lt (by omega) msg.qty.toNat_lt)
    have htail : tallyOf k [Resting.ofMsg id msg t.demand] = if id = k then t.demand else 0 := by
      rw [tallyOf_cons, hamount]
      exact Nat.add_zero _
    rw [Ladder.setSide_self, Ladder.setSide_of_ne _ _ hopp, Function.update_self,
      tallyOf_append] at hjoin
    simp only [true_and]
    omega
  · rw [Ladder.add_of_done rfl hl]
    simp only [Bool.false_eq_true, false_and, if_false]
    omega

/-- A cancel takes the order named `id` off the ladder and no other. -/
theorem Ladder.tally_cancel (L : Nat) (bk : Ladder Nat) (id k : Nat) :
    (bk.cancel id).tally L k = if id = k then 0 else bk.tally L k := by
  have horders : (bk.cancel id).orders L = (bk.orders L).filter fun o => decide (o.id ≠ id) := by
    unfold Ladder.orders Ladder.cancel
    rw [List.filter_append, List.filter_flatMap, List.filter_flatMap]
  unfold Ladder.tally tallyOf
  rw [horders]
  split
  · rename_i hid
    refine tally_eq_zero _ fun o ho => decide_eq_false fun he => ?_
    exact of_decide_eq_true (List.mem_filter.mp ho).2 (he.trans hid.symm)
  · rename_i hid
    unfold Lib.tally
    rw [List.filter_filter]
    refine congrArg (fun xs => (List.map Resting.amount xs).sum)
      (List.filter_congr fun o _ => ?_)
    by_cases he : o.id = k
    · simp [he, Ne.symm hid]
    · simp [he]

end Ladder

/-! ## The accounts of a run -/

/-- What the order of call `k` took as the incoming party of a trade. -/
def Desk.took (dk : Desk) (k : Nat) : Nat :=
  tally (fun t => t.fill.qty.toNat) (fun t => decide (t.taker = k)) dk.tape

/-- What the order of call `k` gave as the resting party of a trade. -/
def Desk.gave (dk : Desk) (k : Nat) : Nat :=
  tally (fun t => t.fill.qty.toNat) (fun t => decide (t.maker = k)) dk.tape

/-- What was given up of the order of call `k`. -/
def Desk.dropped (dk : Desk) (k : Nat) : Nat :=
  tally (fun x => x.2.toNat) (fun x => decide (x.1 = k)) dk.drops

/-- The slots on the lists of book `b`. -/
def Floor.slotsOn (d : Dims) (fl : Floor) (b : Nat) : List Nat :=
  (List.range d.L).flatMap (fl.queue d b .bid) ++ (List.range d.L).flatMap (fl.queue d b .ask)

/-- What the order of call `k` has on the lists of book `b`. -/
def Desk.onLists (d : Dims) (dk : Desk) (b k : Nat) : Nat :=
  tally (fun s => (dk.floor.pool.slots s).qty.toNat) (fun s => decide (dk.owner s = k))
    (dk.floor.slotsOn d b)

/-- The accounts balance: every trade and every drop is of a known call, every fill takes a
    positive amount alike from both parties, and every admitted order is accounted for. -/
structure Ledger (d : Dims) (dk : Desk) (v : View) : Prop where
  parties : ∀ t ∈ dk.tape, t.taker < dk.placed.length ∧ t.maker < dk.placed.length
  dropped_lt : ∀ x ∈ dk.drops, x.1 < dk.placed.length
  fills : ∀ t ∈ dk.tape, 0 < t.fill.qty ∧ t.hit.Balanced t.fill
  balance : ∀ k p, dk.placed[k]? = some p → p.admitted = true → p.msg.qty.toNat =
    dk.took k + dk.gave k + (absBook dk.floor dk.owner v p.book).tally d.L k + dk.dropped k

section Accounts

variable {d : Dims} {basePrice tickSize : Int64} {dk : Desk} {v : View} {place : Nat → Place}

theorem FloorRep.onLists_eq (h : FloorRep d dk.floor v place) (b k : Nat) :
    dk.onLists d b k = (absBook dk.floor dk.owner v b).tally d.L k := by
  have horders : (absBook dk.floor dk.owner v b).orders d.L = (dk.floor.slotsOn d b).map fun s =>
      (dk.floor.pool.slots s).view (dk.owner s) (dk.floor.session s) := by
    rw [Ladder.orders, Floor.slotsOn, ← h.threads.view_eq, List.map_append, List.map_flatMap,
      List.map_flatMap]
    rfl
  rw [Ladder.tally, horders, tallyOf, tally_map]
  rfl

/-- The new trades, seen from the maker. -/
theorem gave_zip {trades : List (Resting Nat × Nat)} {hits : List Hit} {owner : Nat → Nat}
    {n : Nat} (k : Nat) (orderId : UInt64)
    (hh : (hits.map fun h => owner h.slot) = trades.map fun t => t.1.id)
    (hq : ∀ t ∈ trades, t.2 ≤ t.1.amount) :
    tally (fun t => t.fill.qty.toNat) (fun t => decide (t.maker = k))
      (List.zipWith (fun f h => (⟨n, owner h.slot, f, h⟩ : Trade)) (trades.map (fillOf orderId))
        hits) = takenFrom k trades := by
  have hmap := congrArg (tally RefTrade.qty fun t => decide (t.maker = k))
    (tape_eq (k := n) orderId hh hq)
  rw [tally_map, tally_map] at hmap
  exact hmap

/-- The new trades, seen from the taker. -/
theorem took_zip {trades : List (Resting Nat × Nat)} {hits : List Hit} {owner : Nat → Nat}
    {n : Nat} (k : Nat) (orderId : UInt64)
    (hh : (hits.map fun h => owner h.slot) = trades.map fun t => t.1.id)
    (hq : ∀ t ∈ trades, t.2 ≤ t.1.amount) :
    tally (fun t => t.fill.qty.toNat) (fun t => decide (t.taker = k))
      (List.zipWith (fun f h => (⟨n, owner h.slot, f, h⟩ : Trade)) (trades.map (fillOf orderId))
        hits) = if n = k then (trades.map Prod.snd).sum else 0 := by
  have hmap := congrArg (tally RefTrade.qty fun t => decide (t.taker = k))
    (tape_eq (k := n) orderId hh hq)
  rw [tally_map, tally_map] at hmap
  refine hmap.trans ?_
  by_cases hk : n = k
  · rw [if_pos hk, tally_eq_sum _ fun t _ => decide_eq_true hk]
  · rw [if_neg hk, tally_eq_zero _ fun t _ => decide_eq_false hk]

theorem forall_zip_balanced {hits : List Hit} {fills : List Fill} {owner : Nat → Nat} {n : Nat}
    (h : List.Forall₂ Hit.Balanced hits fills) :
    ∀ t ∈ List.zipWith (fun f h => (⟨n, owner h.slot, f, h⟩ : Trade)) fills hits,
      t.hit.Balanced t.fill := by
  induction h with
  | nil => simp
  | cons hb _ ih =>
    rw [List.zipWith_cons_cons, List.forall_mem_cons]
    exact ⟨hb, ih⟩

theorem ledger_init (d : Dims) (basePrice tickSize : Int64) :
    Ledger d (Desk.init d basePrice tickSize) fun _ _ _ => [] :=
  ⟨fun t ht => absurd ht List.not_mem_nil, fun x hx => absurd hx List.not_mem_nil,
    fun t ht => absurd ht List.not_mem_nil, fun k p hp => by simp [Desk.init] at hp⟩

/-- Calls that are not admitted have no account. -/
theorem Ledger.congr {dk' : Desk} {extra : List Placed} (hl : Ledger d dk v)
    (hf : dk'.floor = dk.floor) (ho : dk'.owner = dk.owner) (ht : dk'.tape = dk.tape)
    (hd : dk'.drops = dk.drops) (hp : dk'.placed = dk.placed ++ extra)
    (hextra : ∀ p ∈ extra, p.admitted = false) : Ledger d dk' v := by
  have hlen : dk.placed.length ≤ dk'.placed.length := by
    rw [hp, List.length_append]
    exact Nat.le_add_right ..
  refine ⟨fun t h => ?_, fun x h => ?_, by rw [ht]; exact hl.fills, fun k p h hadm => ?_⟩
  · rw [ht] at h
    exact ⟨(hl.parties t h).1.trans_le hlen, (hl.parties t h).2.trans_le hlen⟩
  · rw [hd] at h
    exact (hl.dropped_lt x h).trans_le hlen
  · rw [hp] at h
    by_cases hk : k < dk.placed.length
    · rw [List.getElem?_append_left hk] at h
      rw [Desk.took, Desk.gave, Desk.dropped, ht, hd, hf, ho]
      exact hl.balance k p h hadm
    · rw [List.getElem?_append_right (Nat.le_of_not_lt hk)] at h
      rw [hextra p (List.mem_of_getElem? h)] at hadm
      cases hadm

/-- No account has an entry for a call that has not been made. -/
theorem Ledger.fresh (hl : Ledger d dk v) :
    dk.took dk.placed.length = 0 ∧ dk.gave dk.placed.length = 0 ∧
      dk.dropped dk.placed.length = 0 :=
  ⟨tally_eq_zero _ fun t ht => decide_eq_false (Nat.ne_of_lt (hl.parties t ht).1),
    tally_eq_zero _ fun t ht => decide_eq_false (Nat.ne_of_lt (hl.parties t ht).2),
    tally_eq_zero _ fun x hx => decide_eq_false (Nat.ne_of_lt (hl.dropped_lt x hx))⟩

theorem DeskRep.tally_fresh (h : DeskRep d basePrice tickSize dk v place) (b : Nat) :
    (absBook dk.floor dk.owner v b).tally d.L dk.placed.length = 0 := by
  refine tally_eq_zero _ fun o ho => decide_eq_false ?_
  obtain ⟨S, i, -, hmem⟩ := Ladder.mem_orders.mp ho
  obtain ⟨q, hcall, -⟩ := h.maker hmem
  exact Nat.ne_of_lt (List.getElem?_eq_some_iff.mp hcall).1

section Added

variable {b maxFills : Nat} {msg : NewOrder} {add : Added Nat} {r : AddResult} {v' : View}
variable {place' : Nat → Place}

/-- What an admitted order trades with: known calls on its own book, positive amounts. -/
theorem DeskRep.trade (h : DeskRep d basePrice tickSize dk v place) {a id : Nat}
    (hadd : (absBook dk.floor dk.owner v b).add d.L id msg a maxFills = add)
    {t : Resting Nat × Nat} (ht : t ∈ add.trades) :
    (∃ q, dk.placed[t.1.id]? = some q ∧ q.book = b) ∧ 0 < t.2 ∧ t.2 ≤ t.1.amount := by
  subst hadd
  obtain ⟨⟨j, -, hmem⟩, hle⟩ := Ladder.mem_trades ht
  obtain ⟨q, hcall, hbook, -⟩ := h.maker hmem
  refine ⟨⟨q, hcall, hbook⟩, ?_, hle⟩
  rw [Ladder.add_trades, Ladder.serve, (sweepLevels_flatMap (crossing_nodup _ _ _)).1] at ht
  refine taken_pos (fun o ho => ?_) ht
  obtain ⟨i, -, hi⟩ := List.mem_flatMap.mp ho
  exact h.amount_pos hi

/-- The entries an admitted order makes. -/
theorem AddedSpec.accounts (hs : AddedSpec d dk v place b msg add r v' place')
    (hadm : dk.floor.Admits d b msg.price) (hq : ∀ t ∈ add.trades, t.2 ≤ t.1.amount)
    (hleft : add.left ≤ msg.qty.toNat) (k : Nat) :
    (dk.added d b msg r).took k =
        dk.took k + (if dk.placed.length = k then (add.trades.map Prod.snd).sum else 0) ∧
      (dk.added d b msg r).gave k = dk.gave k + takenFrom k add.trades ∧
      (dk.added d b msg r).dropped k =
        dk.dropped k + if add.rests = false ∧ dk.placed.length = k then add.left else 0 := by
  refine ⟨?_, ?_, ?_⟩
  · rw [← took_zip k msg.orderId hs.spec.hits hq, ← hs.spec.fills]
    exact tally_append ..
  · rw [← gave_zip k msg.orderId hs.spec.hits hq, ← hs.spec.fills]
    exact tally_append ..
  · have hnat : (UInt32.ofNat add.left).toNat = add.left :=
      UInt32.toNat_ofNat_of_lt' (Nat.lt_of_le_of_lt hleft msg.qty.toNat_lt)
    dsimp only [Desk.dropped, Desk.added]
    rw [tally_append, hs.spec.slot_qty, hs.valid]
    cases hr : add.rests with
    | true => simp
    | false => simp [hadm, tally_cons, hnat]

/-- What was taken from the order of call `k` is missing on its book. -/
theorem AddedSpec.tally_eq (h : DeskRep d basePrice tickSize dk v place)
    (hadm : dk.floor.Admits d b msg.price)
    (hadd : (absBook dk.floor dk.owner v b).add d.L dk.placed.length msg
      ((dk.floor.books b).levelOf msg.price) maxFills = add)
    (hs : AddedSpec d dk v place b msg add r v' place') {k : Nat} {p : Placed}
    (hp : (dk.added d b msg r).placed[k]? = some p) :
    takenFrom k add.trades +
        (absBook r.floor (dk.added d b msg r).owner v' p.book).tally d.L k =
      (absBook dk.floor dk.owner v p.book).tally d.L k +
        if add.rests = true ∧ dk.placed.length = k then add.left else 0 := by
  rw [hs.books p.book]
  by_cases hb : p.book = b
  · rw [if_pos hb, hb, ← hadd]
    exact Ladder.tally_add hadm.1.2 _
  · -- an order of another book, so an earlier one
    have hk : k < dk.placed.length := by
      have hlt := (List.getElem?_eq_some_iff.mp hp).1
      dsimp only [Desk.added] at hp hlt
      rw [List.length_append, List.length_singleton] at hlt
      rcases Nat.lt_succ_iff_lt_or_eq.mp hlt with hk | rfl
      · exact hk
      · rw [List.getElem?_concat_length, Option.some_inj] at hp
        exact absurd (by rw [← hp]) hb
    have hold : dk.placed[k]? = some p := by
      rw [← hp]
      exact (List.getElem?_append_left hk).symm
    have hnone : takenFrom k add.trades = 0 := tally_eq_zero _ fun t ht =>
      decide_eq_false fun e => by
        obtain ⟨⟨q, hcall, hqb⟩, -⟩ := h.trade hadd ht
        rw [e, hold, Option.some_inj] at hcall
        exact hb (hcall ▸ hqb)
    rw [if_neg hb, hnone, if_neg fun e => absurd e.2 (by omega), Nat.zero_add, Nat.add_zero]

/-- An admitted order keeps the accounts. -/
theorem Ledger.enter (hl : Ledger d dk v) (h : DeskRep d basePrice tickSize dk v place)
    (hadm : dk.floor.Admits d b msg.price)
    (hadd : (absBook dk.floor dk.owner v b).add d.L dk.placed.length msg
      ((dk.floor.books b).levelOf msg.price) maxFills = add)
    (hs : AddedSpec d dk v place b msg add r v' place') : Ledger d (dk.added d b msg r) v' := by
  have hsum : (add.trades.map Prod.snd).sum + add.left = msg.qty.toNat :=
    hadd ▸ Ladder.add_demand ..
  have hlen : (dk.added d b msg r).placed.length = dk.placed.length + 1 := List.length_append
  refine ⟨?_, ?_, ?_, fun k p hp hpadm => ?_⟩
  · rw [hlen]
    dsimp only [Desk.added]
    rw [List.forall_mem_append, hs.spec.fills, forall_zip_trades
      (fun taker maker _ => taker < dk.placed.length + 1 ∧ maker < dk.placed.length + 1)
      hs.spec.hits]
    refine ⟨fun t ht => ⟨Nat.lt_succ_of_lt (hl.parties t ht).1,
      Nat.lt_succ_of_lt (hl.parties t ht).2⟩, fun t ht => ⟨Nat.lt_succ_self _, ?_⟩⟩
    obtain ⟨⟨q, hcall, -⟩, -⟩ := h.trade hadd ht
    exact Nat.lt_succ_of_lt (List.getElem?_eq_some_iff.mp hcall).1
  · rw [hlen]
    dsimp only [Desk.added]
    rw [List.forall_mem_append]
    refine ⟨fun x hx => Nat.lt_succ_of_lt (hl.dropped_lt x hx), fun x hx => ?_⟩
    split at hx
    · rw [List.mem_singleton.mp hx]
      exact Nat.lt_succ_self _
    · cases hx
  · dsimp only [Desk.added]
    rw [List.forall_mem_append]
    refine ⟨hl.fills, fun t ht => ⟨?_, forall_zip_balanced hs.spec.balanced t ht⟩⟩
    rw [hs.spec.fills] at ht
    refine (forall_zip_trades (fun _ _ f => 0 < f.qty) hs.spec.hits).mpr (fun t ht => ?_) t ht
    obtain ⟨-, hpos, hle⟩ := h.trade hadd ht
    rw [UInt32.lt_iff_toNat_lt, fillOf,
      UInt32.toNat_ofNat_of_lt' (Nat.lt_of_le_of_lt hle t.1.qty.toNat_lt)]
    exact hpos
  · obtain ⟨htook, hgave, hdropped⟩ :=
      hs.accounts hadm (fun t ht => (h.trade hadd ht).2.2) (by omega) k
    have htally := hs.tally_eq h hadm hadd hp
    rw [htook, hgave, hdropped]
    dsimp only [Desk.added] at hp htally ⊢
    rcases Nat.lt_trichotomy k dk.placed.length with hk | rfl | hk
    · -- an earlier order: what was taken from it left its queue
      rw [List.getElem?_append_left hk] at hp
      have hold := hl.balance k p hp hpadm
      have hne : dk.placed.length ≠ k := by omega
      simp only [hne, and_false, if_false, Nat.add_zero] at htally ⊢
      omega
    · -- the new order: what it took, and its rest on the list or dropped
      rw [List.getElem?_concat_length, Option.some_inj] at hp
      subst hp
      obtain ⟨h1, h2, h3⟩ := hl.fresh
      have hfresh := h.tally_fresh b
      dsimp only at htally ⊢
      simp only [and_true, if_true] at htally ⊢
      cases hr : add.rests with
      | true => simp only [hr, Bool.true_eq_false, if_true, if_false] at htally ⊢; omega
      | false => simp only [hr, Bool.false_eq_true, if_true, if_false] at htally ⊢; omega
    · have hlt := (List.getElem?_eq_some_iff.mp hp).1
      rw [List.length_append, List.length_singleton] at hlt
      omega

end Added

/-- A cancel takes the order's amount off its book. -/
theorem CancelSpec.tally_eq {b i slot : Nat} {S : SideClass} {fl : Floor} {v' : View}
    (hc : CancelSpec dk.floor v b S i slot fl v') (hi : i < d.L) (k : Nat) :
    (absBook fl dk.owner v' b).tally d.L k +
      (if dk.owner slot = k then (dk.floor.pool.slots slot).qty.toNat else 0) =
      (absBook dk.floor dk.owner v b).tally d.L k := by
  obtain ⟨xs, ys, hv, rfl⟩ := hc.view
  have hqueue : ∀ S' i', absBook fl dk.owner (v.set b S i (xs ++ ys)) b S' i' =
      absQueue dk.floor.pool.slots dk.floor.session dk.owner (v.set b S i (xs ++ ys) b S' i') :=
    fun S' i' => absQueue_congr fun s _ => ⟨hc.data s, by rw [hc.session], rfl⟩
  have hopp := S.opp_ne
  have hlevel := Ladder.tally_of_level (absBook dk.floor dk.owner v b)
    (absBook fl dk.owner (v.set b S i (xs ++ ys)) b) hi
    (fun j => by rw [hqueue, v.set_of_ne _ fun e => hopp e.2.1]; rfl)
    (fun j hj => by rw [hqueue, v.set_of_ne _ fun e => hj e.2.2]; rfl) k
  have hbefore : tallyOf k (absBook dk.floor dk.owner v b S i) =
      tallyOf k (absQueue dk.floor.pool.slots dk.floor.session dk.owner (xs ++ ys)) +
        if dk.owner slot = k then (dk.floor.pool.slots slot).qty.toNat else 0 := by
    dsimp only [absBook, absSide]
    rw [hv, absQueue_append, absQueue_append, absQueue_cons, tallyOf_append, tallyOf_append,
      tallyOf_cons]
    exact (Nat.add_assoc ..).symm.trans (Nat.add_right_comm ..)
  rw [hbefore, hqueue, v.set_self] at hlevel
  omega

/-- A cancelled order's amount is dropped. -/
theorem Ledger.cancel (hl : Ledger d dk v) (h : DeskRep d basePrice tickSize dk v place) {k i : Nat}
    {S : SideClass} {p : Placed} (hp : dk.placed[k]? = some p)
    (hpl : place p.handle.slot = .level p.book S i) (hown : dk.owner p.handle.slot = k) {fl : Floor}
    {v' : View} (hc : CancelSpec dk.floor v p.book S i p.handle.slot fl v') :
    Ledger d (dk.cancelled k p.handle.slot true fl) v' := by
  have hi : i < d.L := (h.rep.threads.records p.book S i _
    ((h.rep.threads.queued p.book S i _).mpr hpl)).1
  refine ⟨hl.parties, ?_, hl.fills, fun k' p' hp' hadm => ?_⟩
  · dsimp only [Desk.cancelled]
    rw [List.forall_mem_append]
    refine ⟨hl.dropped_lt, fun x hx => ?_⟩
    rw [if_pos rfl] at hx
    rw [List.mem_singleton.mp hx]
    exact (List.getElem?_eq_some_iff.mp hp).1
  · have hold := hl.balance k' p' hp' hadm
    have hdropped : (dk.cancelled k p.handle.slot true fl).dropped k' = dk.dropped k' +
        if k = k' then (dk.floor.pool.slots p.handle.slot).qty.toNat else 0 := by
      dsimp only [Desk.dropped, Desk.cancelled]
      rw [if_pos rfl, tally_append, tally_cons, tally_nil, Nat.add_zero]
      simp only [decide_eq_true_eq]
    rw [hdropped]
    change _ = dk.took k' + dk.gave k' + (absBook fl dk.owner v' p'.book).tally d.L k' + _
    by_cases hb : p'.book = p.book
    · have htally := hc.tally_eq hi k'
      rw [hown] at htally
      rw [hb] at hold ⊢
      omega
    · have hk : k ≠ k' := fun e => hb (by
        rw [← e] at hp'
        rw [Option.some_inj.mp (hp'.symm.trans hp)])
      rw [hc.absBook_other hb, if_neg hk]
      omega

/-- The accounts balance after every call. -/
theorem Ledger.step {n : Nat} {c : Call} {dk' : Desk} {v' : View} {place' : Nat → Place}
    (hl : Ledger d dk v) (h : DeskRep d basePrice tickSize dk v place) (ht : Tagged d dk place n)
    (hstep : Stepped d dk v place c dk' v' place') : Ledger d dk' v' := by
  cases hstep with
  | added hadm hspec => exact hl.enter h hadm rfl hspec
  | refused hadm =>
    refine hl.congr rfl rfl (List.append_nil _) (by simp [Desk.added, hadm]) rfl fun p hp => ?_
    rw [List.mem_singleton.mp hp]
    exact decide_eq_false hadm
  | @cancelled k i S p fl v' hp hpl hgen hspec =>
    have hN : p.handle.slot < d.N := h.rep.threads.lt_of_place (by rw [hpl]; simp)
    exact hl.cancel h hp hpl ((ht.past k p hp hN).2 hgen.symm).1 hspec
  | stale hp hs =>
    exact hl.congr rfl rfl rfl (List.append_nil _) (List.append_nil _).symm (by simp)
  | idle hp => exact hl.congr rfl rfl rfl rfl (List.append_nil _).symm (by simp)

/-- Every run of fewer than `2^32` calls. -/
theorem ledger_run (d : Dims) (basePrice tickSize : Int64) (calls : List Call)
    (hlen : calls.length < 2 ^ 32) :
    ∃ dk v place, run (Desk.step d) (Desk.init d basePrice tickSize) calls = .ok dk ∧
      DeskRep d basePrice tickSize dk v place ∧ Tagged d dk place calls.length ∧
      Ledger d dk v := by
  induction calls using List.reverseRecOn with
  | nil =>
    exact ⟨_, _, _, rfl, deskRep_init d basePrice tickSize, tagged_init d basePrice tickSize,
      ledger_init d basePrice tickSize⟩
  | append_singleton calls c ih =>
    rw [List.length_append, List.length_singleton] at hlen ⊢
    obtain ⟨dk, v, place, hrun, h, ht, hl⟩ := ih (by omega)
    obtain ⟨dk', v', place', hstep, h', hcase⟩ := h.step c (ht.benign h c)
    exact ⟨dk', v', place', by rw [run_snoc hrun, hstep], h', ht.step (by omega) hcase,
      hl.step h ht hcase⟩

end Accounts

/-! ## Conservation -/

/-- After every sequence of fewer than `2^32` calls an admitted order's quantity is what it took,
    gave, still has on a list, and lost when it was killed or cancelled; and every fill took one
    positive amount from both parties, which had at least that much. -/
theorem quantity_conserved (d : Dims) (basePrice tickSize : Int64) (calls : List Call)
    (hlen : calls.length < 2 ^ 32) :
    ∃ dk, run (Desk.step d) (Desk.init d basePrice tickSize) calls = .ok dk ∧
      (∀ k p, dk.placed[k]? = some p → p.admitted = true → p.msg.qty.toNat =
        dk.took k + dk.gave k + dk.onLists d p.book k + dk.dropped k) ∧
      ∀ t ∈ dk.tape, 0 < t.fill.qty ∧ t.hit.Balanced t.fill := by
  obtain ⟨dk, v, place, hrun, h, -, hl⟩ := ledger_run d basePrice tickSize calls hlen
  refine ⟨dk, hrun, fun k p hp hadm => ?_, hl.fills⟩
  rw [h.rep.onLists_eq]
  exact hl.balance k p hp hadm

/-- A seller of 5 sells 3 and cancels the rest. -/
theorem quantity_conserved_cancelled_rest :
    ∃ dk, run (Desk.step smallDims) (Desk.init smallDims 100 1)
        [.add 0 (limitOrder 1 Side.sell 103 5) 64, .add 0 (limitOrder 2 Side.buy 104 3) 64,
          .cancel 0] = .ok dk ∧
      5 = dk.took 0 + dk.gave 0 + dk.onLists smallDims 0 0 + dk.dropped 0 ∧ dk.gave 0 = 3 := by
  obtain ⟨dk, hrun, hbalance, -⟩ := quantity_conserved smallDims 100 1
    [.add 0 (limitOrder 1 Side.sell 103 5) 64, .add 0 (limitOrder 2 Side.buy 104 3) 64, .cancel 0]
    (by decide)
  cases hrun
  exact ⟨_, rfl, hbalance 0 _ rfl rfl, rfl⟩

end LiteExchange.Book

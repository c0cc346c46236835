/-
  `add_order` and `cancel_order` against the reference book. A floor stands for one ladder per
  book (`absBook`); `owner` names the order in each slot.

  * `addOrder_refused`: an order off the ladder, or one that finds the arena full, changes
    nothing and is answered with the invalid handle.
  * `addOrder_admitted`: any other order is `Ladder.add` on its book.
  * `cancelOrder_stale`, `cancelOrder_live`: a handle whose generation has moved on changes
    nothing; the handle of a resting order takes that order off its list.
-/
import LiteExchange.Book.Matching

namespace LiteExchange.Book

open Lib Proto

section Sides

variable {d : Dims} {fl : Floor} {v : View} {place : Nat → Place} {b uidx slot : Nat}
variable {S : SideClass}

theorem RecordOk.of_data {bk : OrderBook} {i : Nat} {o o' : Order} (h : RecordOk bk S i o)
    (hd : o'.data = o.data) : RecordOk bk S i o' :=
  ⟨by rw [qty_of_data hd]; exact h.qty_pos, by rw [tif_of_data hd]; exact h.tif,
    by rw [side_of_data hd]; exact h.side, by rw [price_of_data hd]; exact h.idx_nonneg,
    by rw [price_of_data hd]; exact h.level⟩

/-- The tail of `add_order`: a held slot joins the back of its level. -/
theorem rest_spec (ht : Threads d fl v place)
    (hix : IndexRep d.L S ((fl.books b).half S) fun i => v b S i ≠ []) (hslot : place slot = .held)
    (hu : uidx < d.L) (hrec : RecordOk (fl.books b) S uidx (fl.pool.slots slot)) :
    ∃ h slots, ((fl.books b).half S).rest d S uidx slot fl.pool.slots = .ok (h, slots) ∧
      Threads d (fl.during fl.session b S { fl.pool with slots := slots } h)
        (v.set b S uidx (v b S uidx ++ [slot])) (move place slot (.level b S uidx)) ∧
      IndexRep d.L S h (fun i => v.set b S uidx (v b S uidx ++ [slot]) b S i ≠ []) ∧
      LinkFrame (v b S uidx ++ [slot]) fl.pool.slots slots := by
  have hN : slot < d.N := ht.lt_of_place (by rw [hslot]; simp)
  have hmem : ∀ s ∈ v b S uidx, s < d.N := fun s hs => ht.mem_lt hs
  have hnot : slot ∉ v b S uidx := fun h => by
    rw [ht.queued, hslot] at h
    cases h
  obtain ⟨l, slots, hpush, hrep, hframe⟩ :=
    pushBack_rep d.N_le_nullIdx (ht.levels b S uidx hu) hmem hN hnot
  obtain ⟨occ, hset, hbits⟩ := set_spec d.L_fits ((fl.books b).half S).occ hu
  have hoff : ∀ s b' S' i', place s = .level b' S' i' → ¬ (b' = b ∧ S' = S ∧ i' = uidx) →
      s ∉ v b S uidx ++ [slot] := by
    intro s b' S' i' hs hn hin
    rcases List.mem_append.mp hin with h | h
    · rw [ht.queued, hs] at h
      cases h
      exact hn ⟨rfl, rfl, rfl⟩
    · rw [List.mem_singleton.mp h, hslot] at hs
      cases hs
  refine ⟨⟨if ((fl.books b).half S).bestIdx = nullIdx ∨ ahead S uidx ((fl.books b).half S).bestIdx
    then uidx else ((fl.books b).half S).bestIdx,
    Function.update ((fl.books b).half S).levels uidx l, occ⟩, slots, ?_, ?_, ?_, hframe⟩
  · rw [Half.rest, fetch_of_lt _ hu, ok_bind, hpush, ok_bind]
    dsimp only
    rw [hset, ok_bind]
    rfl
  · have hlist : Threads d (fl.during fl.session b S { fl.pool with slots := slots }
        { (fl.books b).half S with levels := Function.update ((fl.books b).half S).levels uidx l })
        (v.set b S uidx (v b S uidx ++ [slot])) (move place slot (.level b S uidx)) := by
      refine ht.setLevel hu hrep (fun s b' S' i' hs hn => hframe.outside s (hoff s b' S' i' hs hn))
        (fun s hs => ?_) (fun s => ?_) (fun s => ?_)
      · rcases List.mem_append.mp hs with h | h
        · exact (ht.records b S uidx s h).2.of_data (hframe.data s)
        · rw [List.mem_singleton.mp h]
          exact hrec.of_data (hframe.data slot)
      · by_cases he : s = slot
        · subst he
          simp [move_self]
        · simp [move_of_ne _ _ he, he, ht.queued]
      · by_cases he : s = slot
        · subst he
          exact Or.inr (Or.inr ⟨hslot, move_self ..⟩)
        · exact Or.inl (move_of_ne _ _ he)
    exact hlist.reindex_during rfl
  · have hne : ∀ j, v.set b S uidx (v b S uidx ++ [slot]) b S j ≠ [] ↔ v b S j ≠ [] ∨ j = uidx :=
      fun j => by
        by_cases hj : j = uidx
        · simp [hj]
        · rw [v.set_of_ne _ fun e => hj e.2.2]
          simp [hj]
    refine ⟨fun j => ?_, (bestOf_insert hix).congr fun j => (hne j).symm, fun j hj => ?_⟩
    · rw [hbits, Bool.or_eq_true, hix.occ, decide_eq_true_eq, hne]
    · rcases (hne j).mp hj with h | rfl
      · exact hix.lt j h
      · exact hu

/-- `cancel_order` moves the best index as `match` does. -/
theorem refindBest_eq_advance (d : Dims) (S : SideClass) (h : Half) (i : Nat) :
    refindBest d.L S h i = advance d.L S h i := by
  cases S with
  | ask => rfl
  | bid =>
    by_cases hi : 0 < i
    · simp only [refindBest, advance, if_pos hi]
    · have := d.L_lt_nullIdx
      simp only [refindBest, advance, if_neg hi, findBest, LevelBitmap.nextDown]
      exact if_pos (by omega)

/-- The heart of `cancel_order`: a slot leaves its level. -/
theorem unrest_spec (ht : Threads d fl v place)
    (hix : IndexRep d.L S ((fl.books b).half S) fun i => v b S i ≠ []) {xs ys : List Nat}
    (hv : v b S uidx = xs ++ slot :: ys) :
    ∃ h slots, ((fl.books b).half S).unrest d S uidx slot fl.pool.slots = .ok (h, slots) ∧
      Threads d (fl.during fl.session b S { fl.pool with slots := slots } h)
        (v.set b S uidx (xs ++ ys)) (move place slot .held) ∧
      IndexRep d.L S h (fun i => v.set b S uidx (xs ++ ys) b S i ≠ []) ∧
      LinkFrame (xs ++ ys) fl.pool.slots slots := by
  have hvne : v b S uidx ≠ [] := by rw [hv]; simp
  have hu : uidx < d.L := ht.lt_L hvne
  have hplace : ∀ s, s ∈ xs ++ slot :: ys ↔ place s = .level b S uidx := fun s => by
    rw [← hv]
    exact ht.queued b S uidx s
  have hlevel := ht.levels b S uidx hu
  rw [hv] at hlevel
  have hslot : slot ∉ xs ++ ys := by
    have := hlevel.links.nodup
    grind
  have hmem : ∀ s, s ∈ xs ++ ys ↔ s ∈ xs ++ slot :: ys ∧ s ≠ slot := fun s => by grind
  obtain ⟨l, slots, hrem, hrep, hframe⟩ := remove_rep d.N_le_nullIdx hlevel fun s hs =>
    ht.mem_lt (hv ▸ hs)
  have hlist : Threads d (fl.during fl.session b S { fl.pool with slots := slots }
      { (fl.books b).half S with levels := Function.update ((fl.books b).half S).levels uidx l })
      (v.set b S uidx (xs ++ ys)) (move place slot .held) := by
    refine ht.setLevel hu hrep (fun s b' S' i' hs hn => hframe.outside s fun hin => hn ?_)
      (fun s hs => ?_) (fun s => ?_) (fun s => ?_)
    · have := (hplace s).mp ((hmem s).mp hin).1
      rw [hs] at this
      cases this
      exact ⟨rfl, rfl, rfl⟩
    · exact (ht.records b S uidx s (hv ▸ ((hmem s).mp hs).1)).2.of_data (hframe.data s)
    · by_cases he : s = slot
      · subst he
        simp [move_self, hslot]
      · rw [move_of_ne _ _ he, hmem, hplace]
        simp [he]
    · by_cases he : s = slot
      · subst he
        exact Or.inr (Or.inl ⟨(hplace s).mp (by simp), move_self ..⟩)
      · exact Or.inl (move_of_ne _ _ he)
  have hne : ∀ j, v.set b S uidx (xs ++ ys) b S j ≠ [] ↔
      if j = uidx then xs ++ ys ≠ [] else v b S j ≠ [] := fun j => by
    by_cases hj : j = uidx
    · rw [hj, View.set_self, if_pos rfl]
    · rw [v.set_of_ne _ fun e => hj e.2.2, if_neg hj]
  rw [Half.unrest, fetch_of_lt _ hu, ok_bind, hrem, ok_bind]
  dsimp only
  by_cases hempty : xs ++ ys = []
  · have hv' : ∀ j, v.set b S uidx (xs ++ ys) b S j ≠ [] ↔ v b S j ≠ [] ∧ j ≠ uidx := fun j => by
      rw [hne, hempty]
      by_cases hj : j = uidx <;> simp [hj]
    obtain ⟨occ, hclear, hbits⟩ := clear_spec d.L_fits ((fl.books b).half S).occ hu
    have hocc : ∀ j, bit occ j = true ↔ v.set b S uidx (xs ++ ys) b S j ≠ [] := fun j => by
      rw [hbits, Bool.and_eq_true, hix.occ, decide_eq_true_eq, hv']
    have hlt : ∀ j, v.set b S uidx (xs ++ ys) b S j ≠ [] → j < d.L := fun j hj =>
      hix.lt j ((hv' j).mp hj).1
    rw [if_pos (hrep.empty_iff.mpr hempty), hclear, ok_bind]
    by_cases hbest : ((fl.books b).half S).bestIdx = uidx
    · rw [if_pos hbest, refindBest_eq_advance]
      obtain ⟨best, hadv, hbestof⟩ := bestOf_advance
        (h := { (fl.books b).half S with
          levels := Function.update ((fl.books b).half S).levels uidx l })
        (hix.of_eq rfl rfl) hbest hvne hbits
      rw [hadv, ok_bind]
      exact ⟨_, slots, rfl, hlist.reindex_during rfl,
        ⟨hocc, hbestof.congr fun j => (hv' j).symm, hlt⟩, hframe⟩
    · rw [if_neg hbest]
      exact ⟨_, slots, rfl, hlist.reindex_during rfl,
        ⟨hocc, (bestOf_drop hix.best hbest).congr fun j => (hv' j).symm, hlt⟩, hframe⟩
  · rw [if_neg (hrep.empty_iff.not.mpr hempty)]
    refine ⟨_, slots, rfl, hlist, IndexRep.of_eq (hix.congr fun j => ?_) rfl rfl, hframe⟩
    rw [hne]
    by_cases hj : j = uidx
    · simp [hj, hvne, hempty]
    · rw [if_neg hj]

end Sides

/-! ## add_order -/

/-- The price has a level on the ladder. -/
def OrderBook.OnLadder (d : Dims) (bk : OrderBook) (price : Int64) : Prop :=
  0 ≤ bk.priceToIdx price ∧ bk.levelOf price < d.L

instance (d : Dims) (bk : OrderBook) (price : Int64) : Decidable (bk.OnLadder d price) :=
  inferInstanceAs (Decidable (_ ∧ _))

/-- The ladder that a book of the floor stands for. -/
def absBook {ι : Type} (fl : Floor) (owner : Nat → ι) (v : View) (b : Nat) : Ladder ι :=
  fun S => absSide fl.pool.slots fl.session owner (v b S)

/-- What `add_order` did with an order it admitted into `slot`, `add` being the reference
    step. -/
structure AddSpec {ι : Type} (fl : Floor) (owner : Nat → ι) (v : View) (place : Nat → Place)
    (b : Nat) (id : ι) (msg : NewOrder) (add : Added ι) (slot : Nat) (r : AddResult) (v' : View)
    (place' : Nat → Place) : Prop where
  was_free : place slot = .free
  book : absBook r.floor (Function.update owner slot id) v' b = add.book
  fills : r.fills = add.trades.map (fillOf msg.orderId)
  hits : (r.hits.map fun h => owner h.slot) = add.trades.map fun t => t.1.id
  balanced : List.Forall₂ Hit.Balanced r.hits r.fills
  handle : r.handle = if add.rests then ⟨slot, fl.pool.gen slot⟩ else OrderHandle.invalid
  slot_place : place' slot =
    if add.rests then .level b msg.side.cls ((fl.books b).levelOf msg.price) else .free
  slot_gen : r.floor.pool.gen slot =
    if add.rests then fl.pool.gen slot else fl.pool.gen slot + 1
  slot_fixed : (r.floor.pool.slots slot).fixed = (Order.ofMsg msg).fixed
  slot_qty : (r.floor.pool.slots slot).qty = UInt32.ofNat add.left
  session : r.floor.session = Function.update fl.session slot msg.hdr.sessionId
  released : ∀ s, s ≠ slot → (place' s = place s ∧ r.floor.pool.gen s = fl.pool.gen s) ∨
    ((∃ i, place s = .level b msg.side.cls.opp i) ∧ place' s = .free ∧
      r.floor.pool.gen s = fl.pool.gen s + 1)
  fixed : ∀ s, s ≠ slot → (r.floor.pool.slots s).fixed = (fl.pool.slots s).fixed
  others : ∀ b', b' ≠ b → absBook r.floor (Function.update owner slot id) v' b' =
    absBook fl owner v b'
  books : ∀ b', b' ≠ b → r.floor.books b' = fl.books b'
  params : (r.floor.books b).basePrice = (fl.books b).basePrice ∧
    (r.floor.books b).tickSize = (fl.books b).tickSize

section Add

variable {d : Dims} {fl : Floor} {v : View} {place : Nat → Place} {b : Nat} {msg : NewOrder}
variable {ι : Type}

/-- An order off the ladder or a full arena: nothing happens. -/
theorem addOrder_refused (maxFills : Nat)
    (h : ¬ (fl.books b).OnLadder d msg.price ∨ fl.pool.freeTop = 0) :
    fl.addOrder d b msg maxFills = .ok ⟨fl, [], [], OrderHandle.invalid⟩ := by
  unfold Floor.addOrder
  dsimp only
  by_cases hl : (fl.books b).priceToIdx msg.price < 0 ∨ d.L ≤ (fl.books b).levelOf msg.price
  · rw [if_pos hl]
  · have hon : (fl.books b).OnLadder d msg.price := by
      rw [not_or, Int32.not_lt, Nat.not_le] at hl
      exact hl
    have htop := h.resolve_left (not_not_intro hon)
    rw [if_neg hl, Floor.enterAt, Pool.alloc, if_pos htop, ok_bind]
    exact if_pos rfl

/-- The floor when `add_order` has written the new order into its slot. -/
def Floor.opened (fl : Floor) (slot : Nat) (msg : NewOrder) : Floor :=
  { fl with
    pool := { fl.pool with
      freeTop := fl.pool.freeTop - 1
      slots := Function.update fl.pool.slots slot (Order.ofMsg msg) }
    session := Function.update fl.session slot msg.hdr.sessionId }

@[simp] theorem opened_slots_self (fl : Floor) (slot : Nat) (msg : NewOrder) :
    (fl.opened slot msg).pool.slots slot = Order.ofMsg msg := Function.update_self ..

theorem opened_slots_of_ne (fl : Floor) {slot s : Nat} (msg : NewOrder) (h : s ≠ slot) :
    (fl.opened slot msg).pool.slots s = fl.pool.slots s := Function.update_of_ne h ..

theorem opened_session_of_ne (fl : Floor) {slot s : Nat} (msg : NewOrder) (h : s ≠ slot) :
    (fl.opened slot msg).session s = fl.session s := Function.update_of_ne h ..

theorem during_self (fl : Floor) (b : Nat) (S : SideClass) :
    fl.during fl.session b S fl.pool ((fl.books b).half S) = fl := by
  have : (fl.books b).setHalf S ((fl.books b).half S) = fl.books b := by cases S <;> rfl
  simp only [Floor.during, this, Function.update_eq_self]

/-- Taking a slot and writing the order into it disturbs no list. -/
theorem opened_threads (ht : Threads d fl v place) (htop : 0 < fl.pool.freeTop) (msg : NewOrder) :
    Threads d (fl.opened fl.pool.top msg) v
      (move place fl.pool.top .held) :=
  (ht.alloc htop).2.writeHeld (move_self ..) _ _

/-- The slot of the incoming order is on no list. -/
theorem opened_absBook (ht : Threads d fl v place) (owner : Nat → ι) {slot : Nat}
    (hslot : place slot = .free) (msg : NewOrder) (b : Nat) :
    absBook (fl.opened slot msg) owner v b = absBook fl owner v b := by
  funext S i
  refine absQueue_congr fun s hs => ?_
  have hne : s ≠ slot := by
    rintro rfl
    rw [ht.queued, hslot] at hs
    cases hs
  exact ⟨by rw [opened_slots_of_ne fl msg hne], opened_session_of_ne fl msg hne, rfl⟩

/-- `add_order` up to the end of `match`. -/
theorem addOrder_eq (hr : FloorRep d fl v place) (maxFills : Nat)
    (hon : (fl.books b).OnLadder d msg.price) (htop : 0 < fl.pool.freeTop) {slot : Nat}
    (hslot : fl.pool.top = slot) :
    fl.addOrder d b msg maxFills = (do
      let st ← matchOrders d msg.side.cls (fl.opened slot msg).session slot
        ((fl.books b).levelOf msg.price) maxFills (fl.opened slot msg).pool
        ((fl.books b).half msg.side.cls.opp)
      let bk := (fl.books b).setHalf msg.side.cls.opp st.opp
      let o ← fetch d.N st.pool.slots slot
      if 0 < o.qty ∧ msg.tif ≠ TimeInForce.ioc then
        let (h, slots) ← (bk.half msg.side.cls).rest d msg.side.cls
          ((fl.books b).levelOf msg.price) slot st.pool.slots
        return ⟨⟨{ st.pool with slots := slots }, (fl.opened slot msg).session,
          Function.update fl.books b (bk.setHalf msg.side.cls h)⟩, st.fills, st.hits,
          ⟨slot, st.pool.gen slot⟩⟩
      else
        let pool ← st.pool.free d.N slot
        return ⟨⟨pool, (fl.opened slot msg).session, Function.update fl.books b bk⟩, st.fills,
          st.hits, OrderHandle.invalid⟩) := by
  have hN : slot < d.N := by
    rw [← hslot]
    exact hr.threads.lt_of_place (by rw [(hr.threads.alloc htop).1]; simp)
  have hnull := d.N_le_nullIdx
  unfold Floor.addOrder
  dsimp only
  rw [if_neg (by rw [not_or, Int32.not_lt, Nat.not_le]; exact hon), Floor.enterAt,
    Pool.alloc_of_pos htop hr.threads.top_le, ok_bind, hslot]
  dsimp only
  rw [if_neg (by omega), store_of_lt _ _ hN, ok_bind, store_of_lt _ _ hN, ok_bind]
  rfl

/-- The state `match` leaves to the rest of `add_order`. -/
structure Matched (d : Dims) (fl : Floor) (owner : Nat → ι) (v : View) (place : Nat → Place)
    (b : Nat) (msg : NewOrder) (slot : Nat) (t : SweptLevels (Resting ι)) (st : MatchState)
    (v' : View) (place' : Nat → Place) : Prop where
  served : Served d (fl.opened slot msg) (fl.opened slot msg).session b msg.side.cls.opp slot owner
    ⟨(fl.opened slot msg).pool, (fl.books b).half msg.side.cls.opp, [], []⟩ v
    (move place slot .held) t.taken t.demand t.levels st v' place'
  index : ∀ b' S', IndexRep d.L S' ((((fl.opened slot msg).during (fl.opened slot msg).session b
    msg.side.cls.opp st.pool st.opp).books b').half S') fun i => v' b' S' i ≠ []

theorem matched_spec (hr : FloorRep d fl v place) (owner : Nat → ι) (maxFills : Nat)
    (htop : 0 < fl.pool.freeTop) {slot : Nat}
    (hslot : fl.pool.top = slot) {t : SweptLevels (Resting ι)}
    (ht : (absBook fl owner v b).serve d.L msg ((fl.books b).levelOf msg.price) maxFills = t) :
    ∃ st v' place', matchOrders d msg.side.cls (fl.opened slot msg).session slot
        ((fl.books b).levelOf msg.price) maxFills (fl.opened slot msg).pool
        ((fl.books b).half msg.side.cls.opp) = .ok st ∧
      Matched d fl owner v place b msg slot t st v' place' := by
  have hfree := (hr.threads.alloc htop).1
  have hthreads := opened_threads hr.threads htop msg
  rw [hslot] at hfree hthreads
  have hm : Mid d (fl.opened slot msg) (fl.opened slot msg).session b msg.side.cls.opp slot
      ⟨(fl.opened slot msg).pool, (fl.books b).half msg.side.cls.opp, [], []⟩ v
      (move place slot .held) :=
    ⟨by rw [← during_self (fl.opened slot msg) b msg.side.cls.opp] at hthreads; exact hthreads,
      move_self ..⟩
  have ht' : sweepLevels Resting.amount Resting.less
      (crossing d.L msg.side.cls ((fl.books b).levelOf msg.price))
      (absSide (fl.opened slot msg).pool.slots (fl.opened slot msg).session owner
        (v b msg.side.cls.opp)) ((fl.opened slot msg).pool.slots slot).qty.toNat maxFills = t := by
    rw [← ht, Ladder.serve, ← opened_absBook hr.threads owner hfree msg b, opened_slots_self]
    rfl
  obtain ⟨st, v', place', hrun, hserved, hix⟩ :=
    matchOrders_spec maxFills hm (hr.index b msg.side.cls.opp) ht'
  have hindex : ∀ b S, IndexRep d.L S (((fl.opened slot msg).books b).half S) fun i =>
      v b S i ≠ [] := hr.index
  exact ⟨st, v', place', hrun, hserved, indexRep_during hindex hix hserved.frame.views⟩

/-- The books after `match`: only the side it took from has changed. -/
theorem Matched.absBook_eq (hr : FloorRep d fl v place) {owner : Nat → ι} {slot : Nat}
    (hfree : place slot = .free) {t : SweptLevels (Resting ι)} {st : MatchState} {v' : View}
    {place' : Nat → Place} (hmt : Matched d fl owner v place b msg slot t st v' place') (b' : Nat) :
    absBook ((fl.opened slot msg).during (fl.opened slot msg).session b msg.side.cls.opp st.pool
        st.opp) owner v' b' =
      if b' = b then (absBook fl owner v b).setSide msg.side.cls.opp t.levels
      else absBook fl owner v b' := by
  have hkeep : ∀ S', ¬ (b' = b ∧ S' = msg.side.cls.opp) →
      absSide st.pool.slots (fl.opened slot msg).session owner (v' b' S') =
        absBook fl owner v b' S' := fun S' hne => by
    funext i
    rw [absSide, hmt.served.frame.views b' S' i hne]
    refine absQueue_congr fun s hs => ?_
    have hp := (hr.threads.queued b' S' i s).mp hs
    have hs' : s ≠ slot := by
      rintro rfl
      rw [hfree] at hp
      cases hp
    have hold := hmt.served.frame.others s hs' fun j hj => by
      rw [move_of_ne _ _ hs', hp] at hj
      cases hj
      exact hne ⟨rfl, rfl⟩
    exact ⟨by rw [hold, opened_slots_of_ne fl msg hs'], opened_session_of_ne fl msg hs', rfl⟩
  by_cases hb : b' = b
  · subst hb
    rw [if_pos rfl]
    funext S'
    by_cases hS : S' = msg.side.cls.opp
    · subst hS
      rw [Ladder.setSide_self]
      exact hmt.served.queues_eq
    · rw [Ladder.setSide_of_ne _ _ hS]
      exact hkeep S' fun e => hS e.2
  · rw [if_neg hb]
    funext S'
    exact hkeep S' fun e => hb e.1

section Finish

variable {owner : Nat → ι} {slot : Nat} {t : SweptLevels (Resting ι)} {st : MatchState}
variable {v₁ : View} {place₁ : Nat → Place}

/-- What `match` did to the slots other than the aggressor's. -/
theorem Matched.released (hmt : Matched d fl owner v place b msg slot t st v₁ place₁) {s : Nat}
    (hs : s ≠ slot) : (place₁ s = place s ∧ st.pool.gen s = fl.pool.gen s) ∨
      ((∃ i, place s = .level b msg.side.cls.opp i) ∧ place₁ s = .free ∧
        st.pool.gen s = fl.pool.gen s + 1) := by
  have := hmt.served.frame.released s
  rw [move_of_ne _ _ hs] at this
  exact this

theorem Matched.slot_gen (hmt : Matched d fl owner v place b msg slot t st v₁ place₁) :
    st.pool.gen slot = fl.pool.gen slot := by
  rcases hmt.served.frame.released slot with ⟨-, h⟩ | ⟨⟨i, h⟩, -, -⟩
  · exact h
  · rw [move_self] at h
    cases h

theorem Matched.slot_fixed (hmt : Matched d fl owner v place b msg slot t st v₁ place₁) :
    (st.pool.slots slot).fixed = (Order.ofMsg msg).fixed := by
  rw [hmt.served.frame.fixed, opened_slots_self]

theorem Matched.fixed (hmt : Matched d fl owner v place b msg slot t st v₁ place₁) {s : Nat}
    (hs : s ≠ slot) : (st.pool.slots s).fixed = (fl.pool.slots s).fixed := by
  rw [hmt.served.frame.fixed, opened_slots_of_ne fl msg hs]

theorem Matched.slot_qty (hmt : Matched d fl owner v place b msg slot t st v₁ place₁) :
    (st.pool.slots slot).qty = UInt32.ofNat t.demand := by
  rw [← hmt.served.demand_eq, UInt32.ofNat_toNat]

theorem Matched.fills (hmt : Matched d fl owner v place b msg slot t st v₁ place₁) :
    st.fills = t.taken.map (fillOf msg.orderId) := by
  have := hmt.served.fills_eq
  rw [opened_slots_self, List.nil_append] at this
  exact this

theorem Matched.hits (hmt : Matched d fl owner v place b msg slot t st v₁ place₁) :
    (st.hits.map fun h => owner h.slot) = t.taken.map fun p => p.1.id := by
  obtain ⟨hs, he, hm, -⟩ := hmt.served.hits_eq
  rw [he, List.nil_append, hm]

theorem Matched.balanced (hmt : Matched d fl owner v place b msg slot t st v₁ place₁) :
    List.Forall₂ Hit.Balanced st.hits st.fills := by
  obtain ⟨hs, he, -, hb⟩ := hmt.served.hits_eq
  rw [he, List.nil_append, hmt.fills]
  rw [opened_slots_self] at hb
  exact hb

/-- The queues do not depend on the name given to a slot that is on none of them. -/
theorem absQueue_rename {slots : Nat → Order} {session : Nat → UInt32} {xs : List Nat}
    (hs : slot ∉ xs) (id : ι) : absQueue slots session (Function.update owner slot id) xs =
      absQueue slots session owner xs :=
  absQueue_congr fun s hmem =>
    ⟨rfl, rfl, Function.update_of_ne (fun e : s = slot => hs (e ▸ hmem)) ..⟩

/-- The slot of the incoming order is on no list while it is matched. -/
theorem Matched.off_lists (hmt : Matched d fl owner v place b msg slot t st v₁ place₁) (b' : Nat)
    (S : SideClass) (i : Nat) : slot ∉ v₁ b' S i := by
  intro hmem
  rw [hmt.served.mid.threads.queued, hmt.served.mid.held] at hmem
  cases hmem

/-- What is left of an order that is to rest belongs on its level. -/
theorem Matched.record_ok (hmt : Matched d fl owner v place b msg slot t st v₁ place₁)
    (hon : (fl.books b).OnLadder d msg.price)
    (hleft : 0 < t.demand ∧ msg.tif ≠ TimeInForce.ioc) :
    RecordOk (((fl.opened slot msg).during (fl.opened slot msg).session b
      msg.side.cls.opp st.pool st.opp).books b) msg.side.cls ((fl.books b).levelOf msg.price)
      (st.pool.slots slot) := by
  have hfix := hmt.slot_fixed
  refine ⟨?_, by rw [tif_of_fixed hfix]; exact hleft.2, by rw [side_of_fixed hfix]; rfl, ?_, ?_⟩
  · rw [UInt32.lt_iff_toNat_lt, hmt.served.demand_eq]
    exact hleft.1
  · rw [price_of_fixed hfix]
    simpa [Floor.during, Floor.opened, Order.ofMsg] using hon.1
  · rw [price_of_fixed hfix]
    simp [Floor.during, Floor.opened, Order.ofMsg]

/-- Its record is the order the reference book rests. -/
theorem Matched.view_slot (hmt : Matched d fl owner v place b msg slot t st v₁ place₁) (id : ι)
    {o : Order} (hd : o.data = (st.pool.slots slot).data) :
    o.view id ((fl.opened slot msg).session slot) = Resting.ofMsg id msg t.demand := by
  have hfix := hmt.slot_fixed
  rw [Order.view, orderId_of_data hd, price_of_data hd, qty_of_data hd]
  exact congr (congr (congr (congrArg (Resting.mk id) (orderId_of_fixed hfix))
    (price_of_fixed hfix)) hmt.slot_qty) (Function.update_self ..)

/-- The end of `add_order` that frees the slot: the order is filled, killed or empty. -/
theorem addOrder_done (hr : FloorRep d fl v place) (hfree : place slot = .free)
    (hmt : Matched d fl owner v place b msg slot t st v₁ place₁) (id : ι) {maxFills : Nat}
    (ht : (absBook fl owner v b).serve d.L msg ((fl.books b).levelOf msg.price) maxFills = t)
    (hdone : ¬ (0 < t.demand ∧ msg.tif ≠ TimeInForce.ioc)) :
    ∃ place', st.pool.free d.N slot = .ok (st.pool.freed slot) ∧
      FloorRep d ⟨st.pool.freed slot, (fl.opened slot msg).session, Function.update fl.books b
        ((fl.books b).setHalf msg.side.cls.opp st.opp)⟩ v₁ place' ∧
      AddSpec fl owner v place b id msg
        ((absBook fl owner v b).add d.L id msg ((fl.books b).levelOf msg.price) maxFills) slot
        ⟨⟨st.pool.freed slot, (fl.opened slot msg).session, Function.update fl.books b
          ((fl.books b).setHalf msg.side.cls.opp st.opp)⟩, st.fills, st.hits, OrderHandle.invalid⟩
        v₁ place' := by
  obtain ⟨hrun, hthreads⟩ := hmt.served.mid.threads.release hmt.served.mid.held
  have habs : ∀ b', absBook ⟨st.pool.freed slot, (fl.opened slot msg).session,
        Function.update fl.books b ((fl.books b).setHalf msg.side.cls.opp st.opp)⟩
        (Function.update owner slot id) v₁ b' =
      if b' = b then (absBook fl owner v b).setSide msg.side.cls.opp t.levels
      else absBook fl owner v b' := fun b' => by
    rw [← hmt.absBook_eq hr hfree b']
    funext S i
    exact absQueue_rename (hmt.off_lists b' S i) id
  refine ⟨_, hrun, ⟨hthreads, hmt.index⟩, ?_⟩
  rw [Ladder.add_of_done ht hdone]
  exact {
    was_free := hfree
    book := (habs b).trans (if_pos rfl)
    fills := hmt.fills
    hits := hmt.hits
    balanced := hmt.balanced
    handle := rfl
    slot_place := move_self ..
    slot_gen := by
      dsimp only
      rw [Pool.freed_gen_self, hmt.slot_gen]
      rfl
    slot_fixed := hmt.slot_fixed
    slot_qty := hmt.slot_qty
    session := rfl
    released := fun s hs => by
      dsimp only
      rw [move_of_ne _ _ hs, Pool.freed_gen_of_ne _ hs]
      exact hmt.released hs
    fixed := fun s hs => hmt.fixed hs
    others := fun b' hb => (habs b').trans (if_neg hb)
    books := fun b' hb => Function.update_of_ne hb ..
    params := by simp }

/-- The end of `add_order` that rests the remainder. -/
theorem addOrder_rests (hr : FloorRep d fl v place) (hfree : place slot = .free)
    (hmt : Matched d fl owner v place b msg slot t st v₁ place₁) (id : ι) {maxFills : Nat}
    (hon : (fl.books b).OnLadder d msg.price)
    (ht : (absBook fl owner v b).serve d.L msg ((fl.books b).levelOf msg.price) maxFills = t)
    (hleft : 0 < t.demand ∧ msg.tif ≠ TimeInForce.ioc) :
    ∃ h slots v' place', (((fl.books b).setHalf msg.side.cls.opp st.opp).half msg.side.cls).rest d
        msg.side.cls ((fl.books b).levelOf msg.price) slot st.pool.slots = .ok (h, slots) ∧
      FloorRep d ⟨{ st.pool with slots := slots }, (fl.opened slot msg).session,
        Function.update fl.books b
          (((fl.books b).setHalf msg.side.cls.opp st.opp).setHalf msg.side.cls h)⟩ v' place' ∧
      AddSpec fl owner v place b id msg
        ((absBook fl owner v b).add d.L id msg ((fl.books b).levelOf msg.price) maxFills) slot
        ⟨⟨{ st.pool with slots := slots }, (fl.opened slot msg).session, Function.update fl.books b
          (((fl.books b).setHalf msg.side.cls.opp st.opp).setHalf msg.side.cls h)⟩, st.fills,
          st.hits, ⟨slot, st.pool.gen slot⟩⟩ v' place' := by
  have hS : msg.side.cls ≠ msg.side.cls.opp := (SideClass.opp_ne _).symm
  have hfix := hmt.slot_fixed
  obtain ⟨h, slots, hrest, hthreads, hix, hframe⟩ := rest_spec hmt.served.mid.threads
    (hmt.index b msg.side.cls) hmt.served.mid.held hon.2 (hmt.record_ok hon hleft)
  have hfloor : ((fl.opened slot msg).during (fl.opened slot msg).session b msg.side.cls.opp
      st.pool st.opp).during (fl.opened slot msg).session b msg.side.cls
        { st.pool with slots := slots } h =
      ⟨{ st.pool with slots := slots }, (fl.opened slot msg).session, Function.update fl.books b
        (((fl.books b).setHalf msg.side.cls.opp st.opp).setHalf msg.side.cls h)⟩ := by
    simp only [Floor.during, Function.update_self, Function.update_idem]
    rfl
  -- queues without the new slot read as before
  have hkeep : ∀ b' S i, absQueue slots (fl.opened slot msg).session (Function.update owner slot id)
      (v₁ b' S i) = (if b' = b then (absBook fl owner v b).setSide msg.side.cls.opp t.levels
        else absBook fl owner v b') S i := fun b' S i => by
    rw [absQueue_rename (hmt.off_lists b' S i), absQueue_congr fun s _ => ⟨hframe.data s, rfl, rfl⟩,
      ← hmt.absBook_eq hr hfree b']
    rfl
  refine ⟨h, slots, v₁.set b msg.side.cls ((fl.books b).levelOf msg.price)
    (v₁ b msg.side.cls ((fl.books b).levelOf msg.price) ++ [slot]), move place₁ slot
    (.level b msg.side.cls ((fl.books b).levelOf msg.price)), ?_, ⟨hfloor ▸ hthreads, ?_⟩, ?_⟩
  · simpa [Floor.during, Floor.opened] using hrest
  · exact hfloor ▸ indexRep_during hmt.index hix
      (fun b' S' i' hne => v₁.set_of_ne _ fun e => hne ⟨e.1, e.2.1⟩)
  rw [Ladder.add_of_left ht hleft]
  exact {
    was_free := hfree
    book := by
      funext S i
      dsimp only [absBook, absSide]
      by_cases hSi : S = msg.side.cls
      · subst hSi
        rw [Ladder.setSide_self]
        by_cases hi : i = (fl.books b).levelOf msg.price
        · subst hi
          rw [Function.update_self, View.set_self, absQueue_append, hkeep, if_pos rfl,
            Ladder.setSide_of_ne _ _ hS, absQueue_cons, Function.update_self,
            hmt.view_slot id (hframe.data slot)]
          rfl
        · rw [Function.update_of_ne hi, v₁.set_of_ne _ fun e => hi e.2.2]
          exact (hkeep ..).trans (by rw [if_pos rfl, Ladder.setSide_of_ne _ _ hS]; rfl)
      · rw [Ladder.setSide_of_ne _ _ hSi, v₁.set_of_ne _ fun e => hSi e.2.1]
        exact (hkeep ..).trans (by rw [if_pos rfl])
    fills := hmt.fills
    hits := hmt.hits
    balanced := hmt.balanced
    handle := by
      dsimp only
      rw [hmt.slot_gen]
      rfl
    slot_place := move_self ..
    slot_gen := hmt.slot_gen
    slot_fixed := (fixed_of_data (hframe.data slot)).trans hfix
    slot_qty := (qty_of_data (hframe.data slot)).trans hmt.slot_qty
    session := rfl
    released := fun s hs => by
      rw [move_of_ne _ _ hs]
      exact hmt.released hs
    fixed := fun s hs => (fixed_of_data (hframe.data s)).trans (hmt.fixed hs)
    others := fun b' hb => by
      funext S i
      dsimp only [absBook, absSide]
      rw [v₁.set_of_ne _ fun e => hb e.1]
      exact (hkeep ..).trans (by rw [if_neg hb]; rfl)
    books := fun b' hb => Function.update_of_ne hb ..
    params := by simp }

end Finish

/-- An admitted order is `Ladder.add` on its book. -/
theorem addOrder_admitted (hr : FloorRep d fl v place) (owner : Nat → ι) (id : ι) (maxFills : Nat)
    (hon : (fl.books b).OnLadder d msg.price) (htop : 0 < fl.pool.freeTop) :
    ∃ r v' place', fl.addOrder d b msg maxFills = .ok r ∧ FloorRep d r.floor v' place' ∧
      AddSpec fl owner v place b id msg
        ((absBook fl owner v b).add d.L id msg ((fl.books b).levelOf msg.price) maxFills)
        fl.pool.top r v' place' := by
  obtain ⟨slot, hslot⟩ : ∃ slot, fl.pool.top = slot := ⟨_, rfl⟩
  obtain ⟨t, ht⟩ : ∃ t, (absBook fl owner v b).serve d.L msg ((fl.books b).levelOf msg.price)
    maxFills = t := ⟨_, rfl⟩
  have hfree := (hr.threads.alloc htop).1
  rw [hslot] at hfree ⊢
  obtain ⟨st, v₁, place₁, hrun, hmt⟩ := matched_spec hr owner maxFills htop hslot ht
  have hN : slot < d.N := hr.threads.lt_of_place (by rw [hfree]; simp)
  have hqty : 0 < (st.pool.slots slot).qty ↔ 0 < t.demand := by
    rw [UInt32.lt_iff_toNat_lt, UInt32.toNat_zero, hmt.served.demand_eq]
  rw [addOrder_eq hr maxFills hon htop hslot, hrun, ok_bind]
  dsimp only
  rw [fetch_of_lt _ hN, ok_bind]
  by_cases hleft : 0 < t.demand ∧ msg.tif ≠ TimeInForce.ioc
  · rw [if_pos ⟨hqty.mpr hleft.1, hleft.2⟩]
    obtain ⟨h, slots, v', place', hrest, hrep, hspec⟩ := addOrder_rests hr hfree hmt id hon ht hleft
    rw [hrest, ok_bind]
    exact ⟨_, v', place', rfl, hrep, hspec⟩
  · rw [if_neg fun h => hleft ⟨hqty.mp h.1, h.2⟩]
    obtain ⟨place', hrel, hrep, hspec⟩ := addOrder_done hr hfree hmt id ht hleft
    rw [hrel, ok_bind]
    exact ⟨_, v₁, place', rfl, hrep, hspec⟩

/-! ### What an admitted order leaves behind -/

variable {owner : Nat → ι} {id : ι} {add : Added ι} {slot : Nat} {r : AddResult} {v' : View}
variable {place' : Nat → Place}

theorem AddSpec.valid_eq (hs : AddSpec fl owner v place b id msg add slot r v' place')
    (ht : Threads d fl v place) : r.handle.valid = add.rests := by
  have hN : slot < d.N := ht.lt_of_place (by rw [hs.was_free]; simp)
  have hnull := d.N_le_nullIdx
  rw [hs.handle]
  cases add.rests with
  | true =>
    have hne : slot ≠ nullIdx := by omega
    simpa [OrderHandle.valid] using hne
  | false => rfl

/-- A slot on a list after the call is the order's own, or was there before. -/
theorem AddSpec.level_cases (hs : AddSpec fl owner v place b id msg add slot r v' place')
    {s b' i : Nat} {S : SideClass} (hpl : place' s = .level b' S i) :
    (s = slot ∧ add.rests = true ∧ b' = b) ∨ (s ≠ slot ∧ place s = .level b' S i) := by
  by_cases he : s = slot
  · rw [he, hs.slot_place] at hpl
    split at hpl
    · injection hpl with hb
      exact Or.inl ⟨he, by assumption, hb.symm⟩
    · cases hpl
  · rcases hs.released s he with ⟨hsame, -⟩ | ⟨-, hfree, -⟩
    · exact Or.inr ⟨he, hsame ▸ hpl⟩
    · rw [hfree] at hpl
      cases hpl

theorem AddSpec.settled (hs : AddSpec fl owner v place b id msg add slot r v' place')
    (hheld : ∀ s, place s ≠ .held) (s : Nat) : place' s ≠ .held := by
  by_cases he : s = slot
  · rw [he, hs.slot_place]
    split <;> simp
  · rcases hs.released s he with ⟨hsame, -⟩ | ⟨-, hfree, -⟩
    · rw [hsame]
      exact hheld s
    · simp [hfree]

/-- The books after the call, the order being named only if it rests. -/
theorem AddSpec.books_eq (hs : AddSpec fl owner v place b id msg add slot r v' place')
    (ht' : Threads d r.floor v' place') (b' : Nat) :
    absBook r.floor (if add.rests then Function.update owner slot id else owner) v' b' =
      if b' = b then add.book else absBook fl owner v b' := by
  -- naming the slot of an order that does not rest changes no queue
  have hname : absBook r.floor (if add.rests then Function.update owner slot id else owner) v' b' =
      absBook r.floor (Function.update owner slot id) v' b' := by
    cases hrest : add.rests with
    | true => rw [if_pos rfl]
    | false =>
      have hfree : place' slot = .free := hs.slot_place.trans (by rw [hrest]; rfl)
      rw [if_neg Bool.false_ne_true]
      funext S i
      refine (absQueue_rename (fun hmem => ?_) _).symm
      rw [ht'.queued, hfree] at hmem
      cases hmem
  rw [hname]
  by_cases hb : b' = b
  · rw [if_pos hb, hb]
    exact hs.book
  · rw [if_neg hb]
    exact hs.others b' hb

/-- The opposite orders at crossing indices, in the order they are matched. -/
def Floor.reach (d : Dims) (fl : Floor) (b : Nat) (msg : NewOrder) : List Nat :=
  (crossing d.L msg.side.cls ((fl.books b).levelOf msg.price)).flatMap
    (fl.queue d b msg.side.cls.opp)

theorem FloorRep.reach_eq (hr : FloorRep d fl v place) :
    absQueue fl.pool.slots fl.session owner (fl.reach d b msg) =
      (crossing d.L msg.side.cls ((fl.books b).levelOf msg.price)).flatMap
        (absBook fl owner v b msg.side.cls.opp) := by
  rw [Floor.reach, ← hr.threads.view_eq, absQueue, List.map_flatMap]
  rfl

end Add

/-! ## cancel_order -/

/-- What `cancel_order` did with the resting order in `slot`, on level `i` of side `S` of
    book `b`. -/
structure CancelSpec (fl : Floor) (v : View) (b : Nat) (S : SideClass) (i slot : Nat)
    (fl' : Floor) (v' : View) : Prop where
  view : ∃ xs ys, v b S i = xs ++ slot :: ys ∧ v' = v.set b S i (xs ++ ys)
  data : ∀ s, (fl'.pool.slots s).data = (fl.pool.slots s).data
  gen_self : fl'.pool.gen slot = fl.pool.gen slot + 1
  gen_of_ne : ∀ s, s ≠ slot → fl'.pool.gen s = fl.pool.gen s
  session : fl'.session = fl.session
  books : ∀ b', b' ≠ b → fl'.books b' = fl.books b'
  params : (fl'.books b).basePrice = (fl.books b).basePrice ∧
    (fl'.books b).tickSize = (fl.books b).tickSize

section Cancel

variable {d : Dims} {fl fl' : Floor} {v v' : View} {place : Nat → Place} {b i slot : Nat}
variable {S : SideClass} {h : OrderHandle}

/-- A slot out of range or a generation that has moved on: nothing happens. -/
theorem cancelOrder_stale (hs : d.N ≤ h.slot ∨ fl.pool.gen h.slot ≠ h.gen) :
    fl.cancelOrder d b h = .ok (false, fl) := if_pos hs

/-- The handle of a resting order takes it off its list. -/
theorem cancelOrder_live (hr : FloorRep d fl v place) (hplace : place h.slot = .level b S i)
    (hgen : fl.pool.gen h.slot = h.gen) :
    ∃ fl' v', fl.cancelOrder d b h = .ok (true, fl') ∧
      FloorRep d fl' v' (move place h.slot .free) ∧ CancelSpec fl v b S i h.slot fl' v' := by
  have hmem : h.slot ∈ v b S i := (hr.threads.queued b S i h.slot).mpr hplace
  have hN : h.slot < d.N := hr.threads.mem_lt hmem
  obtain ⟨hi, hrec⟩ := hr.threads.records b S i h.slot hmem
  obtain ⟨xs, ys, hv⟩ := List.append_of_mem hmem
  obtain ⟨half, slots, hrun, hthreads, hix, hframe⟩ := unrest_spec hr.threads (hr.index b S) hv
  obtain ⟨hfree, hdone⟩ := hthreads.release (move_self ..)
  have hmove : move (move place h.slot .held) h.slot .free = move place h.slot .free :=
    Function.update_idem ..
  refine ⟨_, v.set b S i (xs ++ ys), ?_, ⟨hmove ▸ hdone, ?_⟩, ?_⟩
  · unfold Floor.cancelOrder
    rw [if_neg (by rw [not_or, Nat.not_le, not_not]; exact ⟨hN, hgen⟩)]
    dsimp only
    rw [fetch_of_lt _ hN, ok_bind, hrec.side, hrec.level, hrun, ok_bind]
    dsimp only
    rw [show Pool.free d.N { fl.pool with slots := slots } h.slot = _ from hfree, ok_bind]
    rfl
  · exact indexRep_during hr.index hix (fun b' S' i' hne => v.set_of_ne _ fun e => hne ⟨e.1, e.2.1⟩)
  · exact {
      view := ⟨xs, ys, hv, rfl⟩
      data := hframe.data
      gen_self := Pool.freed_gen_self ..
      gen_of_ne := fun s hs => Pool.freed_gen_of_ne _ hs
      session := rfl
      books := fun b' hb => Function.update_of_ne hb ..
      params := by simp [Floor.during] }

variable {ι : Type} {owner : Nat → ι}

theorem CancelSpec.absBook_other (hc : CancelSpec fl v b S i slot fl' v') {b' : Nat}
    (hb : b' ≠ b) : absBook fl' owner v' b' = absBook fl owner v b' := by
  obtain ⟨xs, ys, -, rfl⟩ := hc.view
  funext S' i'
  dsimp only [absBook, absSide]
  rw [v.set_of_ne _ fun e => hb e.1]
  exact absQueue_congr fun s _ => ⟨hc.data s, by rw [hc.session], rfl⟩

/-- On the cancelled order's book, `cancel_order` is the reference step. -/
theorem CancelSpec.absBook_eq [DecidableEq ι] (ht : Threads d fl v place)
    (hc : CancelSpec fl v b S i slot fl' v')
    (huniq : ∀ S' i' s, s ∈ v b S' i' → owner s = owner slot → s = slot) :
    absBook fl' owner v' b = (absBook fl owner v b).cancel (owner slot) := by
  obtain ⟨xs, ys, hv, rfl⟩ := hc.view
  funext S' i'
  have hkeep : absQueue fl'.pool.slots fl'.session owner (v.set b S i (xs ++ ys) b S' i') =
      absQueue fl.pool.slots fl.session owner (v.set b S i (xs ++ ys) b S' i') :=
    absQueue_congr fun s _ => ⟨hc.data s, by rw [hc.session], rfl⟩
  -- exactly the slot itself is filtered out
  have hfilter : v.set b S i (xs ++ ys) b S' i' = (v b S' i').filter fun s => decide (s ≠ slot) := by
    by_cases he : S' = S ∧ i' = i
    · obtain ⟨rfl, rfl⟩ := he
      have hnd : (xs ++ slot :: ys).Nodup := by
        have hlev := ht.levels b S' i' (ht.lt_L (by rw [hv]; simp))
        rw [hv] at hlev
        exact hlev.links.nodup
      have hkept : ∀ s ∈ xs ++ ys, s ≠ slot := by grind
      rw [View.set_self, hv, List.filter_append, List.filter_cons_of_neg (by simp),
        ← List.filter_append, List.filter_eq_self.mpr fun s hs => decide_eq_true (hkept s hs)]
    · rw [v.set_of_ne _ fun e => he e.2, List.filter_eq_self.mpr fun s hs => decide_eq_true ?_]
      rintro rfl
      have h₁ := (ht.queued b S' i' s).mp hs
      rw [(ht.queued b S i s).mp (by rw [hv]; simp)] at h₁
      cases h₁
      exact he ⟨rfl, rfl⟩
  dsimp only [absBook, absSide, Ladder.cancel]
  rw [hkeep, hfilter, absQueue, absQueue, List.filter_map]
  congr 1
  refine List.filter_congr fun s hs => ?_
  rw [Function.comp_apply, decide_eq_decide]
  exact not_congr ⟨fun e => by rw [e]; rfl, huniq S' i' s hs⟩

end Cancel

end LiteExchange.Book

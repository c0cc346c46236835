/-
  Floors that look alike. The arena keeps more than its books show: the generations of all slots,
  and the records and owners last written to free ones. `Alike`: two floors that agree on the rest,
  the free stack and the orders on every list with their slots.

  * `Alike.add`, `Alike.cancel`: a call does the same on both. It returns the same fills and the
    same slot, and the floors stay alike.
  * `alike_of_idle`: an order that neither trades nor rests takes a slot and gives it back; the
    floor is then like the one before.
-/
import LiteExchange.Book.Stack

namespace LiteExchange.Book

open Lib Proto

/-! ## Floors that look alike -/

/-- Two floors with the same free stack and the same orders in the same slots, `v` being the
    lists of both. The generations of slots and the records of free ones may differ. -/
structure Alike (v : View) (fl fl' : Floor) : Prop where
  stack : fl'.pool.stack = fl.pool.stack
  books : ∀ b, absBook fl' id v b = absBook fl id v b
  params : ∀ b, (fl'.books b).basePrice = (fl.books b).basePrice ∧
    (fl'.books b).tickSize = (fl.books b).tickSize

section Alike

variable {d : Dims} {fl fl' fl₁ fl₁' : Floor} {v v₁ v₁' : View} {place place' : Nat → Place}
variable {b maxFills : Nat} {msg : NewOrder} {r r' : AddResult}

theorem Alike.refl (v : View) (fl : Floor) : Alike v fl fl :=
  ⟨rfl, fun _ => rfl, fun _ => ⟨rfl, rfl⟩⟩

/-- The slots can be read off the books. -/
theorem view_of_books (h : ∀ b, absBook fl' id v₁ b = absBook fl id v b) : v₁ = v := by
  funext b S i
  have hids := congrArg (List.map Resting.id) (congrFun (congrFun (h b) S) i)
  unfold absBook absSide at hids
  rwa [map_id_absQueue, map_id_absQueue] at hids

/-- Between calls the lists determine where every slot is. -/
theorem Threads.place_of_view (h : Threads d fl v place) (h' : Threads d fl' v place')
    (hheld : ∀ s, place s ≠ .held) (hheld' : ∀ s, place' s ≠ .held) : place' = place := by
  funext s
  cases hp : place' s with
  | held => exact absurd hp (hheld' s)
  | outside => rw [(h.outside_iff s).mpr ((h'.outside_iff s).mp hp)]
  | level b S i => rw [(h.queued b S i s).mp ((h'.queued b S i s).mpr hp)]
  | free =>
    cases hq : place s with
    | free => rfl
    | held => exact absurd hq (hheld s)
    | outside =>
      rw [(h'.outside_iff s).mpr ((h.outside_iff s).mp hq)] at hp
      cases hp
    | level b S i =>
      rw [(h'.queued b S i s).mp ((h.queued b S i s).mpr hq)] at hp
      cases hp

theorem Alike.freeTop (h : Alike v fl fl') : fl'.pool.freeTop = fl.pool.freeTop := by
  have hlen := congrArg List.length h.stack
  unfold Pool.stack at hlen
  rwa [List.length_map, List.length_map, List.length_range, List.length_range] at hlen

theorem Alike.index (h : Alike v fl fl') (b : Nat) (price : Int64) :
    (fl'.books b).priceToIdx price = (fl.books b).priceToIdx price := by
  unfold OrderBook.priceToIdx
  rw [(h.params b).1, (h.params b).2]

theorem Alike.levelOf (h : Alike v fl fl') (b : Nat) (price : Int64) :
    (fl'.books b).levelOf price = (fl.books b).levelOf price := by
  unfold OrderBook.levelOf
  rw [h.index]

theorem Alike.admits_iff (h : Alike v fl fl') (price : Int64) :
    fl'.Admits d b price ↔ fl.Admits d b price := by
  unfold Floor.Admits OrderBook.OnLadder
  rw [h.index, h.levelOf, h.freeTop]

/-- The books after an admitted order, the orders being named by their slots. -/
theorem AddSpec.books_slots {add : Added Nat} {slot : Nat}
    (hs : AddSpec fl id v place b slot msg add slot r v₁ place') (b' : Nat) :
    absBook r.floor id v₁ b' = if b' = b then add.book else absBook fl id v b' := by
  have hname : Function.update (id : Nat → Nat) slot slot = id := Function.update_eq_self slot id
  have hbook := hs.book
  have hothers := hs.others b'
  rw [hname] at hbook hothers
  split
  · rename_i he
    rw [he, hbook]
  · exact hothers ‹_›

theorem AddSpec.params_eq {add : Added Nat} {slot : Nat}
    (hs : AddSpec fl id v place b slot msg add slot r v₁ place') (b' : Nat) :
    (r.floor.books b').basePrice = (fl.books b').basePrice ∧
      (r.floor.books b').tickSize = (fl.books b').tickSize := by
  by_cases hb : b' = b
  · rw [hb]
    exact hs.params
  · rw [hs.books b' hb]
    exact ⟨rfl, rfl⟩

theorem Alike.top (h : Alike v fl fl') (hfree : 0 < fl.pool.freeTop) :
    fl'.pool.top = fl.pool.top := by
  have hstack := h.stack
  rw [Pool.stack_top hfree fl.pool.slots, Pool.stack_top (h.freeTop ▸ hfree) fl'.pool.slots]
    at hstack
  exact List.singleton_inj.mp (List.append_inj_right' hstack rfl)

/-- An order that is admitted does the same on both floors. -/
theorem Alike.add {place₁ place₁' : Nat → Place} (h : Alike v fl fl')
    (hr : FloorRep d fl v place) (hr' : FloorRep d fl' v place) (hheld : ∀ s, place s ≠ .held)
    (hadm : fl.Admits d b msg.price) (hrun : fl.addOrder d b msg maxFills = .ok r)
    (hrun' : fl'.addOrder d b msg maxFills = .ok r') (hr₁ : FloorRep d r.floor v₁ place₁)
    (hr₁' : FloorRep d r'.floor v₁' place₁') :
    v₁' = v₁ ∧ place₁' = place₁ ∧ Alike v₁ r.floor r'.floor ∧ r'.fills = r.fills ∧
      r'.handle.slot = r.handle.slot := by
  have hadm' : fl'.Admits d b msg.price := (h.admits_iff msg.price).mpr hadm
  obtain ⟨q, v₂, place₂, hq, hrep, hspec⟩ := addOrder_admitted hr id fl.pool.top maxFills
    hadm.1 hadm.2
  obtain ⟨q', v₂', place₂', hq', hrep', hspec'⟩ := addOrder_admitted hr' id fl'.pool.top maxFills
    hadm'.1 hadm'.2
  obtain rfl : r = q := Except.ok.inj (hrun.symm.trans hq)
  obtain rfl : r' = q' := Except.ok.inj (hrun'.symm.trans hq')
  obtain rfl : v₁ = v₂ := hr₁.threads.view_eq.trans hrep.threads.view_eq.symm
  obtain rfl : v₁' = v₂' := hr₁'.threads.view_eq.trans hrep'.threads.view_eq.symm
  obtain rfl : place₁ = place₂ := hrep.threads.place_eq hr₁.threads
  obtain rfl : place₁' = place₂' := hrep'.threads.place_eq hr₁'.threads
  -- both are the same step of the reference book
  rw [h.books, h.levelOf, h.top hadm.2] at hspec'
  have hbooks : ∀ b', absBook r'.floor id v₁' b' = absBook r.floor id v₁ b' := by
    intro b'
    rw [hspec'.books_slots, hspec.books_slots, h.books]
  have hview : v₁' = v₁ := view_of_books hbooks
  subst hview
  have hplace : place₁' = place₁ := hr₁.threads.place_of_view hr₁'.threads
    (hspec.settled hheld) (hspec'.settled hheld)
  subst hplace
  have hhits : r'.hits.map Hit.slot = r.hits.map Hit.slot := hspec'.hits.trans hspec.hits.symm
  have hvalid : r'.handle.valid = r.handle.valid :=
    (hspec'.valid_eq hr'.threads).trans (hspec.valid_eq hr.threads).symm
  refine ⟨rfl, rfl, ⟨?_, hbooks, fun b' => ?_⟩, hspec'.fills.trans hspec.fills.symm, ?_⟩
  · obtain ⟨rest, hold, hnew⟩ := addOrder_stack hr hadm hrun
    obtain ⟨rest', hold', hnew'⟩ := addOrder_stack hr' hadm' hrun'
    have hrest : rest' = rest := by
      have hstack := h.stack
      rw [hold, hold'] at hstack
      exact List.append_inj_left' hstack rfl
    rw [hnew, hnew', hrest, hvalid, h.top hadm.2, emptied_eq hr hadm hrun hr₁.threads,
      emptied_eq hr' hadm' hrun' hr₁'.threads, hhits]
  · rw [(hspec'.params_eq b').1, (hspec'.params_eq b').2, (hspec.params_eq b').1,
      (hspec.params_eq b').2]
    exact h.params b'
  · rw [hspec'.handle, hspec.handle]
    split <;> rfl

theorem CancelSpec.books_slots {S : SideClass} {i slot : Nat}
    (hc : CancelSpec fl v b S i slot fl₁ v₁) (ht : Threads d fl v place) (b' : Nat) :
    absBook fl₁ id v₁ b' = if b' = b then (absBook fl id v b).cancel slot
      else absBook fl id v b' := by
  split
  · rename_i he
    rw [he]
    exact hc.absBook_eq ht fun _ _ _ _ hs => hs
  · exact hc.absBook_other ‹_›

theorem CancelSpec.params_eq {S : SideClass} {i slot : Nat}
    (hc : CancelSpec fl v b S i slot fl₁ v₁) (b' : Nat) :
    (fl₁.books b').basePrice = (fl.books b').basePrice ∧
      (fl₁.books b').tickSize = (fl.books b').tickSize := by
  by_cases hb : b' = b
  · rw [hb]
    exact hc.params
  · rw [hc.books b' hb]
    exact ⟨rfl, rfl⟩

/-- So does the cancel of an order in the same slot. -/
theorem Alike.cancel {S : SideClass} {i slot : Nat} (h : Alike v fl fl')
    (hr : FloorRep d fl v place) (hr' : FloorRep d fl' v place)
    (hc : CancelSpec fl v b S i slot fl₁ v₁) (hc' : CancelSpec fl' v b S i slot fl₁' v₁')
    (hstack : fl₁.pool.stack = fl.pool.stack ++ [slot])
    (hstack' : fl₁'.pool.stack = fl'.pool.stack ++ [slot]) : v₁' = v₁ ∧ Alike v₁ fl₁ fl₁' := by
  have hbooks : ∀ b', absBook fl₁' id v₁' b' = absBook fl₁ id v₁ b' := by
    intro b'
    rw [hc'.books_slots hr'.threads, hc.books_slots hr.threads, h.books, h.books]
  have hview : v₁' = v₁ := view_of_books hbooks
  subst hview
  refine ⟨rfl, by rw [hstack, hstack', h.stack], hbooks, fun b' => ?_⟩
  rw [(hc'.params_eq b').1, (hc'.params_eq b').2, (hc.params_eq b').1, (hc.params_eq b').2]
  exact h.params b'

/-! ## Orders with nothing to do -/

/-- An order of no quantity, or one that is not to rest and has no order in reach. -/
def Floor.Idle (d : Dims) (fl : Floor) (b : Nat) (msg : NewOrder) : Prop :=
  msg.qty = 0 ∨ (msg.tif = TimeInForce.ioc ∧ fl.reach d b msg = [])

instance (d : Dims) (fl : Floor) (b : Nat) (msg : NewOrder) : Decidable (fl.Idle d b msg) :=
  inferInstanceAs (Decidable (_ ∨ _))

theorem Ladder.add_idle {L a : Nat} {bk : Ladder Nat}
    (h : msg.qty = 0 ∨ (msg.tif = TimeInForce.ioc ∧
      ∀ j ∈ crossing L msg.side.cls a, bk msg.side.cls.opp j = [])) (k : Nat) :
    bk.add L k msg a maxFills = ⟨bk, [], msg.qty.toNat, false⟩ := by
  have hserve : bk.serve L msg a maxFills = ⟨[], bk msg.side.cls.opp, msg.qty.toNat, maxFills⟩ := by
    unfold Ladder.serve
    rcases h with hzero | ⟨-, hempty⟩
    · exact sweepLevels_stop (Or.inl (by rw [hzero]; rfl))
    · exact sweepLevels_empty hempty
  have hdone : ¬ (0 < msg.qty.toNat ∧ msg.tif ≠ TimeInForce.ioc) := by
    rintro ⟨hpos, htif⟩
    rcases h with hzero | ⟨hioc, -⟩
    · rw [hzero] at hpos
      exact absurd hpos (Nat.lt_irrefl 0)
    · exact htif hioc
  have hsame : bk.setSide msg.side.cls.opp (bk msg.side.cls.opp) = bk := by
    funext S
    unfold Ladder.setSide
    split
    · rename_i he
      rw [he]
    · rfl
  rw [Ladder.add_of_done hserve hdone, hsame]

/-- Such an order takes a slot, gives it back and leaves the floor as it was. -/
theorem alike_of_idle {place₁ : Nat → Place} (hr : FloorRep d fl v place)
    (hheld : ∀ s, place s ≠ .held) (hadm : fl.Admits d b msg.price) (hidle : fl.Idle d b msg)
    (hrun : fl.addOrder d b msg maxFills = .ok r) (hr₁ : FloorRep d r.floor v₁ place₁) :
    v₁ = v ∧ place₁ = place ∧ Alike v r.floor fl ∧ r.fills = [] ∧ r.handle.valid = false := by
  obtain ⟨q, v₂, place₂, hq, hrep, hspec⟩ := addOrder_admitted hr id fl.pool.top maxFills
    hadm.1 hadm.2
  obtain rfl : r = q := Except.ok.inj (hrun.symm.trans hq)
  obtain rfl : v₁ = v₂ := hr₁.threads.view_eq.trans hrep.threads.view_eq.symm
  obtain rfl : place₁ = place₂ := hrep.threads.place_eq hr₁.threads
  have hempty : msg.qty = 0 ∨ (msg.tif = TimeInForce.ioc ∧
      ∀ j ∈ crossing d.L msg.side.cls ((fl.books b).levelOf msg.price),
        absBook fl id v b msg.side.cls.opp j = []) := by
    refine hidle.imp_right fun ⟨hioc, hreach⟩ => ⟨hioc, fun j hj => ?_⟩
    unfold Floor.reach at hreach
    rw [← hr.threads.view_eq, List.flatMap_eq_nil_iff] at hreach
    exact absQueue_eq_nil.mpr (hreach j hj)
  rw [Ladder.add_idle hempty] at hspec
  have hbooks : ∀ b', absBook r.floor id v₁ b' = absBook fl id v b' := by
    intro b'
    rw [hspec.books_slots]
    split
    · rename_i he
      rw [he]
    · rfl
  have hview : v₁ = v := view_of_books hbooks
  subst hview
  have hplace : place₁ = place := hr.threads.place_of_view hr₁.threads hheld (hspec.settled hheld)
  subst hplace
  have hvalid : r.handle.valid = false := hspec.valid_eq hr.threads
  refine ⟨rfl, rfl, ⟨?_, fun b' => (hbooks b').symm, fun b' => ?_⟩, hspec.fills, hvalid⟩
  · obtain ⟨rest, hold, hnew⟩ := addOrder_stack hr hadm hrun
    have hhits : r.hits = [] := List.map_eq_nil_iff.mp hspec.hits
    rw [hnew, hold, hhits, hvalid]
    simp [emptied]
  · exact ⟨(hspec.params_eq b').1.symm, (hspec.params_eq b').2.symm⟩

end Alike

end LiteExchange.Book

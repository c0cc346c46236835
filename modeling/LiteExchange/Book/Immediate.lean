/-
  Orders that are not to rest. An order with another time in force trades in the same way, and
  differs only in what becomes of its remainder.

  * `alike_of_done`: if nothing remains, the floor is afterwards like the one after the order that
    is not to rest.
  * `alike_of_cancelled`: if the remainder rests and is cancelled at once, so it is then.
-/
import LiteExchange.Book.Alike

namespace LiteExchange.Book

open Lib Proto

/-- The order with another time in force. -/
def withTif (msg : NewOrder) (tif : TimeInForce) : NewOrder := { msg with tif := tif }

section Ladder

variable {bk : Ladder Nat} {L a maxFills id : Nat} {msg : NewOrder} {tif : TimeInForce}

theorem Ladder.serve_withTif :
    bk.serve L (withTif msg tif) a maxFills = bk.serve L msg a maxFills := rfl

/-- The trades and what is left do not depend on it. -/
theorem Ladder.add_withTif : (bk.add L id (withTif msg tif) a maxFills).trades =
      (bk.add L id msg a maxFills).trades ∧
    (bk.add L id (withTif msg tif) a maxFills).left = (bk.add L id msg a maxFills).left := by
  rw [Ladder.add_trades, Ladder.add_trades, Ladder.add_left_eq, Ladder.add_left_eq,
    Ladder.serve_withTif]
  exact ⟨rfl, rfl⟩

theorem Ladder.add_ioc (hioc : msg.tif = TimeInForce.ioc) : bk.add L id msg a maxFills =
    ⟨bk.setSide msg.side.cls.opp (bk.serve L msg a maxFills).levels,
      (bk.serve L msg a maxFills).taken, (bk.serve L msg a maxFills).demand, false⟩ :=
  Ladder.add_of_done rfl (fun h => h.2 hioc) id

/-- What the service leaves has the ids of what was there. -/
theorem Ladder.serve_ids (hid : ∀ S i, ∀ o ∈ bk S i, o.id ≠ id) (j : Nat) :
    ∀ o ∈ (bk.serve L msg a maxFills).levels j, o.id ≠ id := by
  have hleft : ∃ demand room, (bk.serve L msg a maxFills).levels j =
      (sweep Resting.amount Resting.less (bk msg.side.cls.opp j) demand room).rest :=
    sweepLevels_at (crossing_nodup L msg.side.cls a)
  obtain ⟨demand, room, hat⟩ := hleft
  rw [hat]
  exact rest_forall (fun _ _ h => h) (hid _ j)

theorem Ladder.cancel_absent {xs : List (Resting Nat)} (h : ∀ o ∈ xs, o.id ≠ id) :
    (xs.filter fun o => decide (o.id ≠ id)) = xs :=
  List.filter_eq_self.mpr fun o ho => decide_eq_true (h o ho)

/-- A remainder that rests and is cancelled leaves the book of the order that is not to rest. -/
theorem Ladder.add_cancel (hioc : msg.tif = TimeInForce.ioc)
    (hid : ∀ S i, ∀ o ∈ bk S i, o.id ≠ id)
    (hrests : (bk.add L id (withTif msg tif) a maxFills).rests = true) :
    (bk.add L id (withTif msg tif) a maxFills).book.cancel id =
      (bk.add L id msg a maxFills).book := by
  have hl : 0 < (bk.serve L (withTif msg tif) a maxFills).demand ∧
      (withTif msg tif).tif ≠ TimeInForce.ioc := by
    have hleft := Ladder.add_rests.mp hrests
    rwa [Ladder.add_left_eq] at hleft
  rw [Ladder.add_ioc hioc, Ladder.add_of_left rfl hl]
  dsimp only
  rw [Ladder.serve_withTif]
  funext S j
  unfold Ladder.cancel
  by_cases hS : S = msg.side.cls
  · have hown : S = (withTif msg tif).side.cls := hS
    have hopp : S ≠ msg.side.cls.opp := by
      rw [hS]
      exact msg.side.cls.opp_ne.symm
    rw [hown, Ladder.setSide_self, ← hown, Ladder.setSide_of_ne _ _ hopp]
    by_cases hj : j = a
    · rw [hj, Function.update_self, List.filter_append, Ladder.cancel_absent (hid S a)]
      have hnew : decide ((Resting.ofMsg id (withTif msg tif)
          (bk.serve L msg a maxFills).demand).id ≠ id) = false := decide_eq_false fun h => h rfl
      rw [List.filter_cons_of_neg (by rw [hnew]; exact Bool.false_ne_true), List.filter_nil,
        List.append_nil]
    · rw [Function.update_of_ne hj]
      exact Ladder.cancel_absent (hid S j)
  · have hother : S ≠ (withTif msg tif).side.cls := hS
    rw [Ladder.setSide_of_ne _ _ hother]
    by_cases hopp : S = msg.side.cls.opp
    · rw [hopp]
      change List.filter _ (Ladder.setSide bk msg.side.cls.opp _ msg.side.cls.opp j) = _
      rw [Ladder.setSide_self]
      exact Ladder.cancel_absent (Ladder.serve_ids hid j)
    · change List.filter _ (Ladder.setSide bk msg.side.cls.opp _ S j) = _
      rw [Ladder.setSide_of_ne _ _ hopp]
      exact Ladder.cancel_absent (hid S j)

/-- A remainder that does not rest is nothing. -/
theorem Ladder.add_done (hioc : msg.tif = TimeInForce.ioc)
    (hrests : (bk.add L id (withTif msg tif) a maxFills).rests = false) :
    (bk.add L id (withTif msg tif) a maxFills).book = (bk.add L id msg a maxFills).book := by
  have hl : ¬ (0 < (bk.serve L (withTif msg tif) a maxFills).demand ∧
      (withTif msg tif).tif ≠ TimeInForce.ioc) := by
    intro h
    have hleft : 0 < (bk.add L id (withTif msg tif) a maxFills).left := by
      rw [Ladder.add_left_eq]
      exact h.1
    rw [Ladder.add_rests.mpr ⟨hleft, h.2⟩] at hrests
    cases hrests
  rw [Ladder.add_ioc hioc, Ladder.add_of_done rfl hl]
  rfl

end Ladder

section Floor

variable {d : Dims} {fl fl₂ : Floor} {v v₁ v₂ v₃ : View} {place place₁ place₂ : Nat → Place}
variable {b maxFills : Nat} {msg : NewOrder} {tif : TimeInForce} {r r' : AddResult}

/-- What two calls with the two orders do, as steps of the reference book. -/
theorem addOrder_both (hr : FloorRep d fl v place) (hadm : fl.Admits d b msg.price)
    (hrun : fl.addOrder d b msg maxFills = .ok r)
    (hrun' : fl.addOrder d b (withTif msg tif) maxFills = .ok r')
    (hr₁ : FloorRep d r.floor v₁ place₁) (hr₂ : FloorRep d r'.floor v₂ place₂) :
    ∃ add add' : Added Nat, (absBook fl id v b).add d.L fl.pool.top msg
        ((fl.books b).levelOf msg.price) maxFills = add ∧
      (absBook fl id v b).add d.L fl.pool.top (withTif msg tif)
        ((fl.books b).levelOf msg.price) maxFills = add' ∧
      AddSpec fl id v place b fl.pool.top msg add fl.pool.top r v₁ place₁ ∧
      AddSpec fl id v place b fl.pool.top (withTif msg tif) add' fl.pool.top r' v₂ place₂ := by
  obtain ⟨q, w, at₁, hq, hrep, hspec⟩ := addOrder_admitted hr id fl.pool.top maxFills
    hadm.1 hadm.2
  have hon : (fl.books b).OnLadder d (withTif msg tif).price := hadm.1
  obtain ⟨q', w', at₂, hq', hrep', hspec'⟩ := addOrder_admitted hr id fl.pool.top maxFills
    hon hadm.2
  obtain rfl : r = q := Except.ok.inj (hrun.symm.trans hq)
  obtain rfl : r' = q' := Except.ok.inj (hrun'.symm.trans hq')
  obtain rfl : v₁ = w := hr₁.threads.view_eq.trans hrep.threads.view_eq.symm
  obtain rfl : v₂ = w' := hr₂.threads.view_eq.trans hrep'.threads.view_eq.symm
  obtain rfl : place₁ = at₁ := hrep.threads.place_eq hr₁.threads
  obtain rfl : place₂ = at₂ := hrep'.threads.place_eq hr₂.threads
  exact ⟨_, _, rfl, rfl, hspec, hspec'⟩

/-- The slots of the counterparties were on lists. -/
theorem hits_ne_top (hr : FloorRep d fl v place) (hadm : fl.Admits d b msg.price)
    (hrun : fl.addOrder d b msg maxFills = .ok r) {s : Nat} (hs : s ∈ r.hits.map Hit.slot) :
    s ≠ fl.pool.top := by
  rintro rfl
  have hmem := (hits_reach hr hadm hrun).subset hs
  unfold Floor.reach at hmem
  rw [← hr.threads.view_eq] at hmem
  obtain ⟨i, -, hi⟩ := List.mem_flatMap.mp hmem
  have hfree := (hr.threads.alloc hadm.2).1
  rw [(hr.threads.queued _ _ _ _).mp hi] at hfree
  cases hfree

/-- The other order trades alike; this one does not rest. -/
theorem fills_withTif (hr : FloorRep d fl v place) (hadm : fl.Admits d b msg.price)
    (hioc : msg.tif = TimeInForce.ioc) (hrun : fl.addOrder d b msg maxFills = .ok r)
    (hrun' : fl.addOrder d b (withTif msg tif) maxFills = .ok r')
    (hr₁ : FloorRep d r.floor v₁ place₁) (hr₂ : FloorRep d r'.floor v₂ place₂) :
    r'.fills = r.fills ∧ r'.hits.map Hit.slot = r.hits.map Hit.slot ∧
      r.handle.valid = false := by
  obtain ⟨add, add', hadd, hadd', hspec, hspec'⟩ := addOrder_both hr hadm hrun hrun' hr₁ hr₂
  have htrades : add'.trades = add.trades := by
    rw [← hadd, ← hadd']
    exact Ladder.add_withTif.1
  refine ⟨?_, ?_, ?_⟩
  · rw [hspec'.fills, hspec.fills, htrades]
    rfl
  · exact hspec'.hits.trans ((congrArg _ htrades).trans hspec.hits.symm)
  · rw [hspec.valid_eq hr.threads, ← hadd, Ladder.add_ioc hioc]

/-- Nothing of the other order rests. -/
theorem alike_of_done (hr : FloorRep d fl v place) (hheld : ∀ s, place s ≠ .held)
    (hadm : fl.Admits d b msg.price) (hioc : msg.tif = TimeInForce.ioc)
    (hrun : fl.addOrder d b msg maxFills = .ok r)
    (hrun' : fl.addOrder d b (withTif msg tif) maxFills = .ok r')
    (hr₁ : FloorRep d r.floor v₁ place₁) (hr₂ : FloorRep d r'.floor v₂ place₂)
    (hdone : r'.handle.valid = false) :
    v₂ = v₁ ∧ place₂ = place₁ ∧ Alike v₁ r.floor r'.floor := by
  obtain ⟨-, hhits, hvalid⟩ := fills_withTif hr hadm hioc hrun hrun' hr₁ hr₂
  obtain ⟨add, add', hadd, hadd', hspec, hspec'⟩ := addOrder_both hr hadm hrun hrun' hr₁ hr₂
  have hbook : add'.book = add.book := by
    rw [← hadd, ← hadd']
    refine Ladder.add_done hioc ?_
    rw [hadd', ← hspec'.valid_eq hr.threads, hdone]
  have hbooks : ∀ b', absBook r'.floor id v₂ b' = absBook r.floor id v₁ b' := by
    intro b'
    rw [hspec'.books_slots, hspec.books_slots, hbook]
  have hview : v₂ = v₁ := view_of_books hbooks
  subst hview
  have hplace : place₂ = place₁ := hr₁.threads.place_of_view hr₂.threads (hspec.settled hheld)
    (hspec'.settled hheld)
  subst hplace
  have hadm' : fl.Admits d b (withTif msg tif).price := hadm
  refine ⟨rfl, rfl, ?_, hbooks, fun b' => ?_⟩
  · obtain ⟨rest, hold, hnew⟩ := addOrder_stack hr hadm hrun
    obtain ⟨rest', hold', hnew'⟩ := addOrder_stack hr hadm' hrun'
    have hrest : rest' = rest := List.append_inj_left' (hold'.symm.trans hold) rfl
    rw [hnew, hnew', hrest, hvalid, hdone, emptied_eq hr hadm hrun hr₁.threads,
      emptied_eq hr hadm' hrun' hr₂.threads, hhits]
  · rw [(hspec'.params_eq b').1, (hspec'.params_eq b').2, (hspec.params_eq b').1,
      (hspec.params_eq b').2]
    exact ⟨rfl, rfl⟩

/-- The remainder of the other order rests and is cancelled. -/
theorem alike_of_cancelled {S : SideClass} {i : Nat} (hr : FloorRep d fl v place)
    (hheld : ∀ s, place s ≠ .held) (hadm : fl.Admits d b msg.price)
    (hioc : msg.tif = TimeInForce.ioc) (hrun : fl.addOrder d b msg maxFills = .ok r)
    (hrun' : fl.addOrder d b (withTif msg tif) maxFills = .ok r')
    (hr₁ : FloorRep d r.floor v₁ place₁) (hr₂ : FloorRep d r'.floor v₂ place₂)
    (hrests : r'.handle.valid = true)
    (hc : CancelSpec r'.floor v₂ b S i fl.pool.top fl₂ v₃)
    (hr₃ : FloorRep d fl₂ v₃ (move place₂ fl.pool.top .free))
    (hstack : fl₂.pool.stack = r'.floor.pool.stack ++ [fl.pool.top]) :
    v₃ = v₁ ∧ move place₂ fl.pool.top .free = place₁ ∧ Alike v₁ r.floor fl₂ := by
  obtain ⟨-, hhits, hvalid⟩ := fills_withTif hr hadm hioc hrun hrun' hr₁ hr₂
  obtain ⟨add, add', hadd, hadd', hspec, hspec'⟩ := addOrder_both hr hadm hrun hrun' hr₁ hr₂
  have hfresh : ∀ S i, ∀ o ∈ absBook fl id v b S i, o.id ≠ fl.pool.top := by
    rintro S i o ho he
    obtain ⟨s, hs, rfl⟩ := List.mem_map.mp ho
    have hfree := (hr.threads.alloc hadm.2).1
    rw [← he] at hfree
    have hlevel := (hr.threads.queued b S i s).mp hs
    exact Place.noConfusion (hfree.symm.trans hlevel)
  have hbook : add'.book.cancel fl.pool.top = add.book := by
    rw [← hadd, ← hadd']
    refine Ladder.add_cancel hioc hfresh ?_
    rw [hadd', ← hspec'.valid_eq hr.threads, hrests]
  have hbooks : ∀ b', absBook fl₂ id v₃ b' = absBook r.floor id v₁ b' := by
    intro b'
    rw [hc.books_slots hr₂.threads, hspec'.books_slots, hspec'.books_slots, hspec.books_slots,
      if_pos rfl, hbook]
    by_cases hb : b' = b
    · rw [if_pos hb, if_pos hb]
    · rw [if_neg hb, if_neg hb, if_neg hb]
  have hview : v₃ = v₁ := view_of_books hbooks
  subst hview
  have hsettled : ∀ s, move place₂ fl.pool.top .free s ≠ .held := by
    intro s
    by_cases hs : s = fl.pool.top
    · rw [hs, move_self]
      exact Place.noConfusion
    · rw [move_of_ne _ _ hs]
      exact hspec'.settled hheld s
  have hplace : move place₂ fl.pool.top .free = place₁ :=
    hr₁.threads.place_of_view hr₃.threads (hspec.settled hheld) hsettled
  have hadm' : fl.Admits d b (withTif msg tif).price := hadm
  refine ⟨rfl, hplace, ?_, hbooks, fun b' => ?_⟩
  · -- the emptied slots first, then the order's own
    obtain ⟨rest, hold, hnew⟩ := addOrder_stack hr hadm hrun
    obtain ⟨rest', hold', hnew'⟩ := addOrder_stack hr hadm' hrun'
    have hrest : rest' = rest := List.append_inj_left' (hold'.symm.trans hold) rfl
    have hemptied : emptied r'.hits = emptied r.hits := by
      rw [emptied_eq hr hadm hrun hr₁.threads, emptied_eq hr hadm' hrun' hr₂.threads, hhits]
      refine List.filter_congr fun s hs => ?_
      rw [← hplace, move_of_ne _ _ (hits_ne_top hr hadm hrun hs)]
    rw [hstack, hnew, hnew', hrest, hvalid, hrests, hemptied, if_pos rfl,
      if_neg Bool.false_ne_true, List.append_nil]
  · rw [(hc.params_eq b').1, (hc.params_eq b').2, (hspec'.params_eq b').1,
      (hspec'.params_eq b').2, (hspec.params_eq b').1, (hspec.params_eq b').2]
    exact ⟨rfl, rfl⟩

end Floor

end LiteExchange.Book

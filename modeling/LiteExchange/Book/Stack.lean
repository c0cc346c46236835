/-
  The free stack of the arena. `add_order` takes the slot on top of it, `match` puts the slots of
  the orders it fills completely on it, one by one, and an order that does not rest goes back
  last (`addOrder_stack`); `cancel_order` puts its slot on top (`cancelOrder_stack`). The loops of
  `match` are followed by their code alone (`MatchState.Frees`).

  `emptied_eq`: which slots `match` frees, and in which order, can be read off the orders it meets
  and the places after the call.
-/
import LiteExchange.Book.Refinement

namespace LiteExchange.Book

open Lib Proto

/-- `free_list_[0 .. free_top_)`. -/
def Pool.stack (p : Pool) : List Nat := (List.range p.freeTop).map p.freeList

theorem Pool.stack_freed (p : Pool) (idx : Nat) : (p.freed idx).stack = p.stack ++ [idx] := by
  unfold Pool.stack Pool.freed
  dsimp only
  rw [List.range_succ, List.map_append, List.map_singleton, Function.update_self]
  refine congrArg (· ++ [idx]) (List.map_congr_left fun j hj => ?_)
  exact Function.update_of_ne (Nat.ne_of_lt (List.mem_range.mp hj)) ..

/-- Taking a slot takes the last entry off. -/
theorem Pool.stack_top {p : Pool} (h : 0 < p.freeTop) (slots : Nat → Order) :
    p.stack = { p with freeTop := p.freeTop - 1, slots := slots }.stack ++ [p.top] := by
  unfold Pool.stack Pool.top
  dsimp only
  rw [← List.map_singleton, ← List.map_append, ← List.range_succ, Nat.succ_eq_add_one,
    Nat.sub_add_cancel h]

theorem Pool.free_eq_ok {N idx : Nat} {p p' : Pool} (h : p.free N idx = .ok p') :
    p' = p.freed idx := by
  unfold Pool.free at h
  obtain ⟨g, hfetch, h⟩ := bind_eq_ok h
  obtain ⟨gen, hgen, h⟩ := bind_eq_ok h
  obtain ⟨freeList, hlist, h⟩ := bind_eq_ok h
  obtain ⟨-, rfl⟩ := fetch_eq_ok hfetch
  obtain ⟨-, rfl⟩ := store_eq_ok hgen
  obtain ⟨-, rfl⟩ := store_eq_ok hlist
  cases h
  rfl

/-! ## Matching -/

/-- The slots of the orders that were filled completely, in the order of their fills. -/
def emptied (hits : List Hit) : List Nat := (hits.filter fun h => h.restAfter = 0).map Hit.slot

theorem emptied_snoc (hits : List Hit) (h : Hit) :
    emptied (hits ++ [h]) = emptied hits ++ if h.restAfter = 0 then [h.slot] else [] := by
  unfold emptied
  rw [List.filter_append, List.map_append, List.filter_singleton]
  split <;> simp_all

section Loops

variable {d : Dims} {N agg i : Nat} {session : Nat → UInt32} {st st' : MatchState}
variable {base : List Nat}

/-- The stack is `base` and what the fills so far have freed. -/
def MatchState.Frees (st : MatchState) (base : List Nat) : Prop :=
  st.pool.stack = base ++ emptied st.hits

theorem fillHead_stack (hrun : fillHead N session agg i st = .ok st') (h : st.Frees base) :
    st'.Frees base := by
  unfold fillHead at hrun
  dsimp only at hrun
  obtain ⟨a, -, hrun⟩ := bind_eq_ok hrun
  obtain ⟨o, -, hrun⟩ := bind_eq_ok hrun
  obtain ⟨owner, -, hrun⟩ := bind_eq_ok hrun
  obtain ⟨slots, -, hrun⟩ := bind_eq_ok hrun
  obtain ⟨o', -, hrun⟩ := bind_eq_ok hrun
  obtain ⟨slots', -, hrun⟩ := bind_eq_ok hrun
  unfold MatchState.Frees at h ⊢
  split at hrun
  · rename_i hzero
    obtain ⟨⟨_, level, slots''⟩, -, hrun⟩ := bind_eq_ok hrun
    obtain ⟨pool, hfree, hrun⟩ := bind_eq_ok hrun
    cases hrun
    obtain rfl := Pool.free_eq_ok hfree
    rw [Pool.stack_freed, emptied_snoc, if_pos hzero, ← List.append_assoc, ← h]
    rfl
  · rename_i hleft
    cases hrun
    rw [emptied_snoc, if_neg hleft, List.append_nil, ← h]
    rfl

theorem fillLevel_stack {room room' : Nat} {returned : Bool}
    (hrun : fillLevel N session agg i room st = .ok (room', returned, st')) (h : st.Frees base) :
    st'.Frees base := by
  induction room generalizing st with
  | zero =>
    unfold fillLevel at hrun
    obtain ⟨a, -, hrun⟩ := bind_eq_ok hrun
    split at hrun <;> cases hrun <;> exact h
  | succ room ih =>
    unfold fillLevel at hrun
    obtain ⟨a, -, hrun⟩ := bind_eq_ok hrun
    split at hrun
    · obtain ⟨st₁, hhead, hrun⟩ := bind_eq_ok hrun
      exact ih hrun (fillHead_stack hhead h)
    · cases hrun
      exact h

theorem matchLoop_stack {S : SideClass} {aggIdx fuel room : Nat}
    (hrun : matchLoop d S session agg aggIdx fuel room st = .ok st') (h : st.Frees base) :
    st'.Frees base := by
  induction fuel generalizing room st with
  | zero => cases hrun
  | succ fuel ih =>
    unfold matchLoop at hrun
    obtain ⟨a, -, hrun⟩ := bind_eq_ok hrun
    split at hrun
    · split at hrun
      · cases hrun
        exact h
      · obtain ⟨l, -, hrun⟩ := bind_eq_ok hrun
        obtain ⟨⟨room₁, returned, st₁⟩, hlevel, hrun⟩ := bind_eq_ok hrun
        have h₁ := fillLevel_stack hlevel h
        dsimp only at hrun
        split at hrun
        · cases hrun
          exact h₁
        · split at hrun
          · obtain ⟨occ, -, hrun⟩ := bind_eq_ok hrun
            obtain ⟨best, -, hrun⟩ := bind_eq_ok hrun
            exact ih hrun h₁
          · exact ih hrun h₁
    · cases hrun
      exact h

end Loops

/-! ## Calls -/

section Calls

variable {d : Dims} {fl fl' : Floor} {v : View} {place : Nat → Place} {b maxFills : Nat}
variable {msg : NewOrder} {r : AddResult}

theorem addOrder_stack (hr : FloorRep d fl v place) (hadm : fl.Admits d b msg.price)
    (hrun : fl.addOrder d b msg maxFills = .ok r) : ∃ rest, fl.pool.stack = rest ++ [fl.pool.top] ∧
      r.floor.pool.stack = rest ++ emptied r.hits ++
        if r.handle.valid then [] else [fl.pool.top] := by
  obtain ⟨hon, hfree⟩ := hadm
  obtain ⟨slot, hslot⟩ : ∃ slot, fl.pool.top = slot := ⟨_, rfl⟩
  have hN : slot < d.N :=
    hr.threads.lt_of_place (by rw [← hslot, (hr.threads.alloc hfree).1]; exact Place.noConfusion)
  have hnull := d.N_le_nullIdx
  refine ⟨(fl.opened slot msg).pool.stack, Pool.stack_top hfree _, ?_⟩
  rw [addOrder_eq hr maxFills hon hfree hslot] at hrun
  obtain ⟨st, hmatch, hrun⟩ := bind_eq_ok hrun
  obtain ⟨o, -, hrun⟩ := bind_eq_ok hrun
  have hfrees : st.Frees (fl.opened slot msg).pool.stack :=
    matchLoop_stack hmatch (List.append_nil _).symm
  unfold MatchState.Frees at hfrees
  split at hrun
  · obtain ⟨⟨h, slots⟩, -, hrun⟩ := bind_eq_ok hrun
    cases hrun
    have hvalid : (⟨slot, st.pool.gen slot⟩ : OrderHandle).valid = true := by
      unfold OrderHandle.valid
      rw [bne_iff_ne]
      dsimp only
      omega
    rw [if_pos hvalid, List.append_nil, ← hfrees]
    rfl
  · obtain ⟨pool, hpool, hrun⟩ := bind_eq_ok hrun
    cases hrun
    obtain rfl := Pool.free_eq_ok hpool
    rw [Pool.stack_freed, hfrees, hslot]
    rfl

theorem cancelOrder_stack {h : OrderHandle} {done : Bool}
    (hrun : fl.cancelOrder d b h = .ok (done, fl')) :
    fl'.pool.stack = fl.pool.stack ∨ fl'.pool.stack = fl.pool.stack ++ [h.slot] := by
  unfold Floor.cancelOrder at hrun
  split at hrun
  · cases hrun
    exact Or.inl rfl
  · dsimp only at hrun
    obtain ⟨o, -, hrun⟩ := bind_eq_ok hrun
    obtain ⟨⟨half, slots⟩, -, hrun⟩ := bind_eq_ok hrun
    obtain ⟨pool, hpool, hrun⟩ := bind_eq_ok hrun
    cases hrun
    obtain rfl := Pool.free_eq_ok hpool
    exact Or.inr (Pool.stack_freed ..)

/-! ## What a call frees -/

theorem mem_stack (h : Threads d fl v place) {s : Nat} :
    s ∈ fl.pool.stack ↔ place s = .free := by
  rw [h.free_iff, Pool.stack, List.mem_map]
  simp only [List.mem_range]

theorem map_id_absQueue (slots : Nat → Order) (session : Nat → UInt32) (xs : List Nat) :
    (absQueue slots session id xs).map Resting.id = xs := by
  unfold absQueue
  rw [List.map_map]
  exact List.map_id xs

/-- No order is met twice. -/
theorem reach_nodup (h : Threads d fl v place) : (fl.reach d b msg).Nodup := by
  unfold Floor.reach
  rw [← h.view_eq, List.nodup_flatMap]
  refine ⟨fun i hi => (h.levels b _ i (mem_crossing.mp hi).1).links.nodup, ?_⟩
  refine (crossing_nodup d.L msg.side.cls _).imp fun {i j} hne s hi hj => hne ?_
  have hpl := ((h.queued b _ i s).mp hi).symm.trans ((h.queued b _ j s).mp hj)
  injection hpl

/-- The fills are against the first orders in reach. -/
theorem hits_reach (hr : FloorRep d fl v place) (hadm : fl.Admits d b msg.price)
    (hrun : fl.addOrder d b msg maxFills = .ok r) : r.hits.map Hit.slot <+: fl.reach d b msg := by
  obtain ⟨r', v', place', hrun', -, hspec⟩ := addOrder_admitted hr id fl.pool.top maxFills
    hadm.1 hadm.2
  obtain rfl : r = r' := Except.ok.inj (hrun.symm.trans hrun')
  have hhits : r.hits.map Hit.slot = _ := hspec.hits
  have hreach : fl.reach d b msg = ((crossing d.L msg.side.cls ((fl.books b).levelOf
      msg.price)).flatMap (absBook fl id v b msg.side.cls.opp)).map Resting.id := by
    rw [← hr.reach_eq, map_id_absQueue]
  rw [hhits, hreach, Ladder.add_trades, Ladder.serve,
    (sweepLevels_flatMap (crossing_nodup d.L msg.side.cls _)).1]
  have htaken := (map_fst_taken Resting.amount Resting.less ((crossing d.L msg.side.cls
    ((fl.books b).levelOf msg.price)).flatMap (absBook fl id v b msg.side.cls.opp))
    msg.qty.toNat maxFills).map Resting.id
  rw [List.map_map] at htaken
  exact htaken

/-- The slots of filled orders are free after the call, and only those of the orders met. -/
theorem emptied_eq (hr : FloorRep d fl v place) (hadm : fl.Admits d b msg.price)
    (hrun : fl.addOrder d b msg maxFills = .ok r) {v' : View} {place' : Nat → Place}
    (hr' : Threads d r.floor v' place') :
    emptied r.hits = (r.hits.map Hit.slot).filter fun s => place' s = .free := by
  obtain ⟨rest, hstack, hstack'⟩ := addOrder_stack hr hadm hrun
  have hfirst := hits_reach hr hadm hrun
  have hnd : (r.hits.map Hit.slot).Nodup := (reach_nodup hr.threads).sublist hfirst.sublist
  unfold emptied
  rw [List.filter_map]
  refine congrArg (List.map Hit.slot) (List.filter_congr fun h hh => ?_)
  rw [Function.comp_apply, decide_eq_decide, ← mem_stack hr', hstack', List.mem_append,
    List.mem_append]
  constructor
  · intro hzero
    exact Or.inl (Or.inr (List.mem_map_of_mem (List.mem_filter.mpr ⟨hh, decide_eq_true hzero⟩)))
  · -- the slot was on a list, so it was not free before
    intro hmem
    have hold : h.slot ∉ fl.pool.stack := by
      have hin := hfirst.subset (List.mem_map_of_mem hh)
      unfold Floor.reach at hin
      rw [← hr.threads.view_eq] at hin
      obtain ⟨i, -, hi⟩ := List.mem_flatMap.mp hin
      rw [mem_stack hr.threads, (hr.threads.queued _ _ _ _).mp hi]
      exact Place.noConfusion
    rw [hstack, List.mem_append, not_or] at hold
    rcases hmem with (hmem | hmem) | hmem
    · exact absurd hmem hold.1
    · obtain ⟨h', hh', he⟩ := List.mem_map.mp hmem
      obtain ⟨hh', hzero⟩ := List.mem_filter.mp hh'
      obtain rfl := List.inj_on_of_nodup_map hnd hh' hh he
      exact of_decide_eq_true hzero
    · split at hmem
      · cases hmem
      · exact absurd hmem hold.2

end Calls

end LiteExchange.Book

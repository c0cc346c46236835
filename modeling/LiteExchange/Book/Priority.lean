/-
  Price-time priority. An order outranks another of the same side of the same book when its
  level is better, or when the level is the same and its `add_order` call came first.

  `Ladder.Aged`: every level queue is in the order of the calls. It survives every call, partial
  fills and cancels included, because a matched order keeps its place (`Ladder.Aged.add`,
  `Ladder.Aged.cancel`).

  `price_time_priority`: in every run, what an `add_order` call trades with comes in the order of
  rank, and an order that outranks one of its counterparties has given all it had to that same
  call.
-/
import LiteExchange.Book.Refinement

namespace LiteExchange.Book

open Lib Proto

/-! ## Ranks -/

theorem ahead_asymm {S : SideClass} {i j : Nat} (h : ahead S i j) : ¬ ahead S j i := by
  cases S with
  | ask => exact Nat.lt_asymm h
  | bid => exact Nat.lt_asymm h

theorem ahead_ne {S : SideClass} {i j : Nat} (h : ahead S i j) : i ≠ j := by
  rintro rfl
  exact ahead_asymm h h

/-- A level better than one that is crossed is crossed. -/
theorem crosses_of_ahead {S : SideClass} {a i j : Nat} (h : ahead S.opp i j)
    (hj : crosses S a j = true) : crosses S a i = true := by
  rw [crosses_iff] at hj ⊢
  exact not_beyond_of_not_ahead hj (ahead_asymm h)

/-- The order of call `k` outranks that of call `k'`: same book, same side, and a better level or
    the same level and an earlier call. -/
def Outranks (basePrice tickSize : Int64) (placed : List Placed) (k k' : Nat) : Prop :=
  ∃ p p', placed[k]? = some p ∧ placed[k']? = some p' ∧ p.book = p'.book ∧
    p.msg.side.cls = p'.msg.side.cls ∧
    let level := (OrderBook.init basePrice tickSize).levelOf
    (ahead p.msg.side.cls (level p.msg.price) (level p'.msg.price) ∨
      level p.msg.price = level p'.msg.price ∧ k < k')

theorem Outranks.asymm {basePrice tickSize : Int64} {placed : List Placed} {k k' : Nat}
    (h : Outranks basePrice tickSize placed k k') : ¬ Outranks basePrice tickSize placed k' k := by
  obtain ⟨p, p', hp, hp', -, hside, hrank⟩ := h
  rintro ⟨q', q, hq', hq, -, -, hrank'⟩
  obtain rfl : p = q := Option.some_inj.mp (hp.symm.trans hq)
  obtain rfl : p' = q' := Option.some_inj.mp (hp'.symm.trans hq')
  dsimp only at hrank hrank'
  rw [hside] at hrank
  rcases hrank with hb | ⟨he, hlt⟩
  · rcases hrank' with hb' | ⟨he', -⟩
    · exact ahead_asymm hb hb'
    · exact ahead_ne hb he'.symm
  · rcases hrank' with hb' | ⟨-, hlt'⟩
    · exact ahead_ne hb' he.symm
    · omega

/-! ## Queues in the order of the calls -/

/-- Every queue is in the order of the ids. -/
def Ladder.Aged (bk : Ladder Nat) : Prop :=
  ∀ S i, (bk S i).Pairwise fun o o' => o.id < o'.id

section Aged

variable {bk : Ladder Nat} {L a maxFills id : Nat} {msg : NewOrder}

theorem Ladder.Aged.serve (h : bk.Aged) (j : Nat) :
    ((bk.serve L msg a maxFills).levels j).Pairwise fun o o' => o.id < o'.id := by
  have hleft : ∃ demand room, (bk.serve L msg a maxFills).levels j =
      (sweep Resting.amount Resting.less (bk msg.side.cls.opp j) demand room).rest :=
    sweepLevels_at (crossing_nodup L msg.side.cls a)
  obtain ⟨demand, room, hat⟩ := hleft
  rw [hat]
  exact rest_pairwise (fun _ _ _ hlt => hlt) (h _ j)

/-- An order that comes after all others takes the last place of its queue. -/
theorem Ladder.Aged.add (h : bk.Aged) (hid : ∀ S i, ∀ o ∈ bk S i, o.id < id) :
    (bk.add L id msg a maxFills).book.Aged := by
  have hserved : (bk.setSide msg.side.cls.opp (bk.serve L msg a maxFills).levels).Aged := by
    intro S j
    by_cases hS : S = msg.side.cls.opp
    · rw [hS, Ladder.setSide_self]
      exact h.serve j
    · rw [Ladder.setSide_of_ne _ _ hS]
      exact h S j
  by_cases hl : 0 < (bk.serve L msg a maxFills).demand ∧ msg.tif ≠ TimeInForce.ioc
  · rw [Ladder.add_of_left rfl hl]
    intro S j
    dsimp only
    by_cases hS : S = msg.side.cls
    · rw [hS, Ladder.setSide_self]
      by_cases hj : j = a
      · rw [hj, Function.update_self, List.pairwise_append]
        refine ⟨h _ a, List.pairwise_singleton .., fun o ho o' ho' => ?_⟩
        rw [List.mem_singleton.mp ho']
        exact hid _ a o ho
      · rw [Function.update_of_ne hj]
        exact h _ j
    · rw [Ladder.setSide_of_ne _ _ hS]
      exact hserved S j
  · rw [Ladder.add_of_done rfl hl]
    exact hserved

theorem Ladder.Aged.cancel (h : bk.Aged) (k : Nat) : (bk.cancel k).Aged :=
  fun S i => (h S i).filter _

end Aged

section Desk

variable {d : Dims} {basePrice tickSize : Int64} {dk : Desk} {v : View} {place : Nat → Place}

/-- All books of the desk are in the order of the calls. -/
def Desk.Aged (dk : Desk) (v : View) : Prop := ∀ b, (absBook dk.floor dk.owner v b).Aged

theorem DeskRep.id_lt (h : DeskRep d basePrice tickSize dk v place) {b i : Nat} {S : SideClass}
    {o : Resting Nat} (ho : o ∈ absBook dk.floor dk.owner v b S i) : o.id < dk.placed.length := by
  obtain ⟨q, hq, -⟩ := h.maker ho
  exact (List.getElem?_eq_some_iff.mp hq).1

theorem Desk.Aged.step {c : Call} {dk' : Desk} {v' : View} {place' : Nat → Place}
    (ha : dk.Aged v) (h : DeskRep d basePrice tickSize dk v place)
    (hstep : Stepped d dk v place c dk' v' place') : dk'.Aged v' := by
  cases hstep with
  | @added b msg maxFills r v' place' hadm hspec =>
    intro b'
    refine Eq.mpr (congrArg Ladder.Aged (hspec.books b')) ?_
    by_cases hb : b' = b
    · rw [if_pos hb]
      exact (ha b).add fun S i o ho => h.id_lt ho
    · rw [if_neg hb]
      exact ha b'
  | refused hadm => exact ha
  | @cancelled k i S p fl v' hp hpl hgen hspec =>
    intro b'
    by_cases hb : b' = p.book
    · rw [hb]
      have hbook : absBook fl dk.owner v' p.book =
          (absBook dk.floor dk.owner v p.book).cancel (dk.owner p.handle.slot) :=
        hspec.absBook_eq h.rep.threads fun S' i' s hs he =>
          h.owner_inj ((h.rep.threads.queued _ _ _ _).mp hs) hpl he
      exact Eq.mpr (congrArg Ladder.Aged hbook) ((ha p.book).cancel _)
    · exact Eq.mpr (congrArg Ladder.Aged (hspec.absBook_other hb)) (ha b')
  | stale hp hs => exact ha
  | idle hp => exact ha

theorem aged_run (d : Dims) (basePrice tickSize : Int64) (calls : List Call)
    (hlen : calls.length < 2 ^ 32) :
    ∃ dk v place, run (Desk.step d) (Desk.init d basePrice tickSize) calls = .ok dk ∧
      DeskRep d basePrice tickSize dk v place ∧ Tagged d dk place calls.length ∧ dk.Aged v := by
  induction calls using List.reverseRecOn with
  | nil =>
    exact ⟨_, _, _, rfl, deskRep_init d basePrice tickSize, tagged_init d basePrice tickSize,
      fun _ _ _ => List.Pairwise.nil⟩
  | append_singleton calls c ih =>
    rw [List.length_append, List.length_singleton] at hlen ⊢
    obtain ⟨dk, v, place, hrun, h, ht, ha⟩ := ih (by omega)
    obtain ⟨dk', v', place', hstep, h', hcase⟩ := h.step c (ht.benign h c)
    exact ⟨dk', v', place', by rw [run_snoc hrun, hstep], h', ht.step (by omega) hcase,
      ha.step h hcase⟩

/-! ## The trades of one call -/

/-- The call of an order on level `i`. -/
theorem DeskRep.placed_at (h : DeskRep d basePrice tickSize dk v place) {b i : Nat}
    {S : SideClass} {o : Resting Nat} (ho : o ∈ absBook dk.floor dk.owner v b S i) :
    ∃ q, dk.placed[o.id]? = some q ∧ q.book = b ∧ q.msg.side.cls = S ∧
      (OrderBook.init basePrice tickSize).levelOf q.msg.price = i := by
  obtain ⟨q, hq, hbook, hprice, hside, -⟩ := h.maker ho
  refine ⟨q, hq, hbook, hside, ?_⟩
  obtain ⟨s, hs, rfl⟩ := mem_absBook.mp ho
  rw [hprice, ← h.levelOf_eq b]
  exact (h.rep.threads.records b S i s hs).2.level

/-- Ranks of orders that rest on one side. -/
theorem DeskRep.outranks_of (h : DeskRep d basePrice tickSize dk v place) {b i j : Nat}
    {S : SideClass} {o o' : Resting Nat} (ho : o ∈ absBook dk.floor dk.owner v b S i)
    (ho' : o' ∈ absBook dk.floor dk.owner v b S j)
    (hrank : ahead S i j ∨ i = j ∧ o.id < o'.id) :
    Outranks basePrice tickSize dk.placed o.id o'.id := by
  obtain ⟨p, hp, hb, hS, hl⟩ := h.placed_at ho
  obtain ⟨p', hp', hb', hS', hl'⟩ := h.placed_at ho'
  refine ⟨p, p', hp, hp', hb.trans hb'.symm, hS.trans hS'.symm, ?_⟩
  dsimp only
  rw [hl, hl', hS]
  exact hrank

/-- An order that outranks one resting on a crossed level rests on a crossed level itself. -/
theorem DeskRep.crossing_of_outranks (h : DeskRep d basePrice tickSize dk v place)
    {b b' a i j : Nat} {S S' : SideClass} {o o' : Resting Nat}
    (ho : o ∈ absBook dk.floor dk.owner v b' S' i)
    (ho' : o' ∈ absBook dk.floor dk.owner v b S.opp j) (hj : j ∈ crossing d.L S a)
    (hrank : Outranks basePrice tickSize dk.placed o.id o'.id) :
    b' = b ∧ S' = S.opp ∧ i ∈ crossing d.L S a := by
  obtain ⟨p, hp, hb, hS, hl⟩ := h.placed_at ho
  obtain ⟨p', hp', hb', hS', hl'⟩ := h.placed_at ho'
  obtain ⟨q, q', hq, hq', hbook, hside, hlev⟩ := hrank
  obtain rfl : p = q := Option.some_inj.mp (hp.symm.trans hq)
  obtain rfl : p' = q' := Option.some_inj.mp (hp'.symm.trans hq')
  have hSS : S' = S.opp := by rw [← hS, hside, hS']
  refine ⟨by rw [← hb, hbook, hb'], hSS, ?_⟩
  dsimp only at hlev
  rw [hl, hl', hS, hSS] at hlev
  rcases hlev with hbetter | ⟨rfl, -⟩
  · obtain ⟨s, hs, -⟩ := mem_absBook.mp ho
    have hi : i < d.L := (h.rep.threads.records b' S' i s hs).1
    exact mem_crossing.mpr ⟨hi, crosses_of_ahead hbetter (mem_crossing.mp hj).2⟩
  · exact hj

/-- The orders in reach, as they are served, are in the order of rank. -/
theorem DeskRep.reach_ranked (h : DeskRep d basePrice tickSize dk v place) (ha : dk.Aged v)
    (b a : Nat) (S : SideClass) :
    ((crossing d.L S a).flatMap (absBook dk.floor dk.owner v b S.opp)).Pairwise fun o o' =>
      Outranks basePrice tickSize dk.placed o.id o'.id := by
  rw [List.pairwise_flatMap]
  refine ⟨fun i hi => ?_, (crossing_sorted d.L S a).imp fun hbetter o ho o' ho' => ?_⟩
  · refine (ha b S.opp i).imp_of_mem fun ho ho' hlt => ?_
    exact h.outranks_of ho ho' (Or.inr ⟨rfl, hlt⟩)
  · exact h.outranks_of ho ho' (Or.inl hbetter)

/-- The trades of an admitted order: in the order of rank, and what outranks a counterparty gives
    all it has. -/
theorem DeskRep.trades_ranked (h : DeskRep d basePrice tickSize dk v place) (ha : dk.Aged v)
    {b a id maxFills : Nat} {msg : NewOrder} {add : Added Nat}
    (hadd : (absBook dk.floor dk.owner v b).add d.L id msg a maxFills = add) :
    (add.trades.Pairwise fun t u => Outranks basePrice tickSize dk.placed t.1.id u.1.id) ∧
      ∀ t ∈ add.trades, ∀ b' S' i, ∀ o ∈ absBook dk.floor dk.owner v b' S' i,
        Outranks basePrice tickSize dk.placed o.id t.1.id → (o, o.amount) ∈ add.trades := by
  have htrades : add.trades = (sweep Resting.amount Resting.less
      ((crossing d.L msg.side.cls a).flatMap (absBook dk.floor dk.owner v b msg.side.cls.opp))
      msg.qty.toNat maxFills).taken := by
    rw [← hadd, Ladder.add_trades, Ladder.serve, (sweepLevels_flatMap (crossing_nodup ..)).1]
  have hranked := h.reach_ranked ha b a msg.side.cls
  rw [htrades]
  refine ⟨taken_pairwise hranked, fun t ht b' S' i o ho hrank => ?_⟩
  obtain ⟨j, hj, hmem⟩ := List.mem_flatMap.mp (mem_taken ht).1
  obtain ⟨rfl, rfl, hi⟩ := h.crossing_of_outranks ho hmem hj hrank
  exact taken_full (fun _ _ hr => hr.asymm) hranked ht (List.mem_flatMap.mpr ⟨i, hi, ho⟩) hrank

end Desk

/-! ## Every run -/

/-- In every sequence of fewer than `2^32` calls, the trades of each call are with orders in the
    order of rank, and a resting order that outranks one of them is executed in full by the same
    call. -/
theorem price_time_priority (d : Dims) (basePrice tickSize : Int64) (calls : List Call) (c : Call)
    (hlen : calls.length + 1 < 2 ^ 32) :
    ∃ dk dk' new, run (Desk.step d) (Desk.init d basePrice tickSize) calls = .ok dk ∧
      dk.step d c = .ok dk' ∧ dk'.tape = dk.tape ++ new ∧
      (new.Pairwise fun t u => Outranks basePrice tickSize dk.placed t.maker u.maker) ∧
      ∀ t ∈ new, ∀ b s, dk.floor.Rests d b s →
        Outranks basePrice tickSize dk.placed (dk.owner s) t.maker →
        ∃ u ∈ new, u.maker = dk.owner s ∧ u.fill.qty = (dk.floor.pool.slots s).qty := by
  obtain ⟨dk, v, place, hrun, h, ht, ha⟩ := aged_run d basePrice tickSize calls (by omega)
  obtain ⟨dk', v', place', hstep, -, hcase⟩ := h.step c (ht.benign h c)
  cases hcase with
  | @added b msg maxFills r v' place' hadm hspec =>
    obtain ⟨hranked, hfull⟩ := h.trades_ranked ha (Eq.refl ((absBook dk.floor dk.owner v b).add d.L
      dk.placed.length msg ((dk.floor.books b).levelOf msg.price) maxFills))
    generalize (absBook dk.floor dk.owner v b).add d.L dk.placed.length msg
      ((dk.floor.books b).levelOf msg.price) maxFills = add at hspec hranked hfull
    have hzip := zip_trades (k := dk.placed.length) msg.orderId hspec.spec.hits
    rw [← hspec.spec.fills] at hzip
    refine ⟨dk, _, _, hrun, hstep, rfl, ?_, ?_⟩
    · -- the counterparties are those of the reference step, in its order
      have hmakers := congrArg (List.map fun x : Nat × Nat × Fill => x.2.1) hzip
      rw [List.map_map, List.map_map] at hmakers
      rw [← List.pairwise_map (f := Trade.maker), show List.map Trade.maker _ = _ from hmakers,
        List.pairwise_map]
      exact hranked
    · intro t hmem b' s hrests hrank
      have hmem' := List.mem_map_of_mem (f := fun t : Trade => (t.taker, t.maker, t.fill)) hmem
      rw [hzip] at hmem'
      obtain ⟨x, hx, hxt⟩ := List.mem_map.mp hmem'
      obtain ⟨S, i, hpl⟩ := h.rep.rests_iff.mp hrests
      have ho : (dk.floor.pool.slots s).view (dk.owner s) (dk.floor.session s) ∈
          absBook dk.floor dk.owner v b' S i :=
        mem_absBook.mpr ⟨s, (h.rep.threads.queued b' S i s).mpr hpl, rfl⟩
      have hid : x.1.id = t.maker := congrArg (fun y : Nat × Nat × Fill => y.2.1) hxt
      have hgave := hfull x hx b' S i _ ho (hid ▸ hrank)
      have hin := List.mem_map_of_mem
        (f := fun t : Resting Nat × Nat => (dk.placed.length, t.1.id, fillOf msg.orderId t)) hgave
      rw [← hzip] at hin
      obtain ⟨u, hu, hux⟩ := List.mem_map.mp hin
      refine ⟨u, hu, congrArg (fun y : Nat × Nat × Fill => y.2.1) hux, ?_⟩
      have hqty := congrArg (fun y : Nat × Nat × Fill => y.2.2.qty) hux
      exact hqty.trans (UInt32.ofNat_toNat ..)
  | refused hadm =>
    exact ⟨dk, _, [], hrun, hstep, rfl, List.Pairwise.nil, fun t ht => nomatch ht⟩
  | cancelled hp hpl hgen hspec =>
    exact ⟨dk, _, [], hrun, hstep, (List.append_nil _).symm, List.Pairwise.nil,
      fun t ht => nomatch ht⟩
  | stale hp hs =>
    exact ⟨dk, _, [], hrun, hstep, (List.append_nil _).symm, List.Pairwise.nil,
      fun t ht => nomatch ht⟩
  | idle hp =>
    exact ⟨dk, _, [], hrun, hstep, (List.append_nil _).symm, List.Pairwise.nil,
      fun t ht => nomatch ht⟩

/-- Three sellers, the first at the worse price. -/
def threeSellers : List Call :=
  [.add 0 (limitOrder 1 Side.sell 103 5) 64, .add 0 (limitOrder 2 Side.sell 102 2) 64,
    .add 0 (limitOrder 3 Side.sell 102 3) 64]

/-- A buyer takes the two at the better price, oldest first, and then some of the first. -/
theorem price_time_priority_three_sellers :
    ∃ dk dk' new, run (Desk.step smallDims) (Desk.init smallDims 100 1) threeSellers = .ok dk ∧
      dk.step smallDims (.add 0 (limitOrder 4 Side.buy 103 6) 64) = .ok dk' ∧
      dk'.tape = dk.tape ++ new ∧ new.map Trade.maker = [1, 2, 0] ∧
      new.Pairwise fun t u => Outranks 100 1 dk.placed t.maker u.maker := by
  obtain ⟨dk, dk', new, hrun, hstep, htape, hranked, -⟩ := price_time_priority smallDims 100 1
    threeSellers (.add 0 (limitOrder 4 Side.buy 103 6) 64) (by decide)
  have hbefore : (run (Desk.step smallDims) (Desk.init smallDims 100 1) threeSellers).map
      (fun dk => dk.tape.map Trade.maker) = .ok [] := by decide +kernel
  have hafter : (run (Desk.step smallDims) (Desk.init smallDims 100 1)
      (threeSellers ++ [.add 0 (limitOrder 4 Side.buy 103 6) 64])).map
      (fun dk => dk.tape.map Trade.maker) = .ok [1, 2, 0] := by decide +kernel
  rw [run_snoc hrun, hstep] at hafter
  rw [hrun] at hbefore
  have hold : dk.tape.map Trade.maker = [] := Except.ok.inj hbefore
  have hall : dk'.tape.map Trade.maker = [1, 2, 0] := Except.ok.inj hafter
  rw [htape, List.map_append, hold, List.nil_append] at hall
  exact ⟨dk, dk', new, hrun, hstep, htape, hall, hranked⟩

end LiteExchange.Book

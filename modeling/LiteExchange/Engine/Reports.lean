/-
  Who is told of a trade. `reports_exact`: in a run with genuine cancels, a new order on a hosted
  symbol is answered, for each of its fills in match order, with one Fill to the session that
  submitted the resting order and, if that is another session, the same Fill to the sender; and
  then with an Ack exactly when the order itself rests.
-/
import LiteExchange.Engine.Arena
import LiteExchange.Engine.Cancels

namespace LiteExchange.Engine

open Lib Proto Book

/-- The session that sent the `k`-th message, a new order. -/
def submitter (msgs : List InboundMsg) (k : Nat) : UInt32 :=
  match msgs[k]? with
  | some (.newOrder m) => m.hdr.sessionId
  | _ => 0

/-- The fill addressed to a session. -/
def Fill.addressed (f : Fill) (sessionId : UInt32) : OutboundMsg :=
  .fill { f with hdr := { f.hdr with sessionId := sessionId } }

/-- The reports of one fill between the owner of the resting order and the sender. -/
def tell (f : Fill) (owner sender : UInt32) : List OutboundMsg :=
  Fill.addressed f owner :: if owner ≠ sender then [Fill.addressed f sender] else []

theorem emitFill_eq_tell (f : Fill) (sender : UInt32) :
    emitFill f sender = tell f f.hdr.sessionId sender := by
  by_cases h : f.hdr.sessionId = sender
  · rw [emitFill, tell, if_neg (by simp [h]), if_neg (by simp [h])]
    rfl
  · rw [emitFill, tell, if_pos (Ne.symm h), if_pos h]
    rfl

/-- Fills addressed to the sessions of their makers. -/
theorem emitFills_eq {trades : List (Resting Nat × Nat)} {hits : List Hit} {owner : Nat → Nat}
    {sub : Nat → UInt32} (orderId : UInt64) (sender : UInt32)
    (hh : (hits.map fun h => owner h.slot) = trades.map fun t => t.1.id)
    (hsub : ∀ t ∈ trades, t.1.session = sub t.1.id) :
    ((trades.map (fillOf orderId)).flatMap fun f => emitFill f sender) =
      (List.zipWith (fun f h => tell f (sub (owner h.slot)) sender) (trades.map (fillOf orderId))
        hits).flatten := by
  induction trades generalizing hits with
  | nil => rfl
  | cons t ts ih =>
    cases hits with
    | nil => cases hh
    | cons h hs =>
      rw [List.map_cons, List.map_cons, List.cons_eq_cons] at hh
      rw [List.forall_mem_cons] at hsub
      rw [List.map_cons, List.flatMap_cons, List.zipWith_cons_cons, List.flatten_cons,
        ih hh.2 hsub.2, emitFill_eq_tell, hh.1, ← hsub.1]
      rfl

/-- The new order `m`, labelled `k`, was matched with result `r` and answered as it should be,
    `sub` giving the sessions of the orders. -/
structure Reported (cfg : ShardConfig) (sub : Nat → UInt32) (lg : Log) (k : Nat) (m : NewOrder)
    (r : AddResult) (lg' : Log) : Prop where
  sent : lg'.sent = lg.sent ++ [(List.zipWith (fun f h => tell f (sub (lg.owner h.slot))
      m.hdr.sessionId) r.fills r.hits).flatten ++
    if r.handle.valid then [emitAck m.orderId (r.handle.toToken lg.shard.shardId) m.hdr.sessionId]
    else []]
  paired : r.fills.length = r.hits.length
  resting : ∀ x ∈ r.hits, ∃ i, lg.RestsAt cfg (lg.owner x.slot)
    (lg.shard.localBook cfg m.symbolId) m.side.cls.opp i x.slot
  acked : r.handle.valid = true ↔ ∃ S i s, 0 < (lg'.shard.floor.pool.slots s).qty ∧
    lg'.RestsAt cfg k (lg.shard.localBook cfg m.symbolId) S i s

section Report

variable {su : Setup} {xs : List (Nat × InboundMsg)} {lg : Log} {dk : Desk} {lab : Nat → Nat}
variable {v : View} {place : Nat → Place}

/-- The slots `match` hits are on the lists of the other side. -/
theorem hits_listed {d : Dims} {fl : Floor} (h : FloorRep d fl v place) {b maxFills : Nat}
    {msg : NewOrder} {r : AddResult} (hadm : fl.Admits d b msg.price)
    (hrun : fl.addOrder d b msg maxFills = .ok r) :
    ∀ x ∈ r.hits, ∃ i, x.slot ∈ fl.queue d b msg.side.cls.opp i := by
  intro x hx
  have hmem := (hits_reach h hadm hrun).subset (List.mem_map_of_mem hx)
  unfold Floor.reach at hmem
  obtain ⟨i, -, hi⟩ := List.mem_flatMap.mp hmem
  exact ⟨i, hi⟩

/-- An order that is not among the messages rests nowhere. -/
theorem LogRep.not_rests (h : LogRep su xs lg dk lab v place) {k s b i : Nat} {S : SideClass}
    (hk : k ∉ xs.map Prod.fst) (hpl : place s = .level b S i) : lg.owner s ≠ k := by
  intro e
  obtain ⟨m, hmem, -⟩ := h.msg_of_slot hpl
  exact hk (e ▸ List.mem_map_of_mem hmem)

/-- The answer to a new order. -/
theorem LogRep.report (h : LogRep su xs lg dk lab v place) (hN : su.cfg.N ≤ 2 ^ 24) {k : Nat}
    {m : NewOrder} (hk : k ∉ xs.map Prod.fst) (hn : xs.length + 1 < 2 ^ 32)
    (hb : lg.shard.localBook su.cfg m.symbolId ≠ noBook) {sub : Nat → UInt32}
    (hsub : ∀ k m, (k, .newOrder m) ∈ xs → sub k = m.hdr.sessionId) :
    ∃ r lg', lg.shard.floor.addOrder su.cfg.toDims (lg.shard.localBook su.cfg m.symbolId) m
        maxFillsPerOrder = .ok r ∧ lg.receive su.cfg (k, .newOrder m) = .ok lg' ∧
      Reported su.cfg sub lg k m r lg' := by
  obtain ⟨lg', dk', lab', v', place', hrec, h', hcase⟩ := h.receive_new hN m hk hn
  have hrep : FloorRep su.cfg.toDims lg.shard.floor v place := h.floor ▸ h.desk.rep
  cases hcase with
  | unhosted hnone => exact absurd hnone hb
  | refused _ hadm =>
    have hrefused : ¬ (lg.shard.floor.books (lg.shard.localBook su.cfg m.symbolId)).OnLadder
        su.cfg.toDims m.price ∨ lg.shard.floor.pool.freeTop = 0 := by
      rw [Floor.Admits, not_and_or, Nat.pos_iff_ne_zero, not_not] at hadm
      exact hadm
    refine ⟨_, _, addOrder_refused _ hrefused, hrec, rfl, rfl, nofun, nofun, ?_⟩
    rintro ⟨S, i, s, -, hrests⟩
    obtain ⟨hpl, hown⟩ := h.restsAt_iff.mp hrests
    exact absurd hown (h.not_rests hk hpl)
  | @added _ _ r _ _ _ hadm hrun hspec =>
    refine ⟨r, _, hrun, hrec, ?_, ?_, fun x hx => ?_, ?_⟩
    · dsimp only [Log.record, reportOf]
      rw [hspec.fills, emitFills_eq m.orderId m.hdr.sessionId hspec.hits fun t ht => ?_]
      obtain ⟨⟨j, -, hj⟩, -⟩ := Ladder.mem_trades ht
      obtain ⟨s, hs, he⟩ := mem_absBook.mp hj
      obtain ⟨q, hq, -, -, -, hsess⟩ := h.msg_of_slot ((hrep.threads.queued _ _ _ _).mp hs)
      rw [← he]
      exact hsess.trans (hsub _ q hq).symm
    · have hlen := congrArg List.length hspec.hits
      rw [List.length_map, List.length_map] at hlen
      rw [hspec.fills, List.length_map, hlen]
    · obtain ⟨i, hi⟩ := hits_listed hrep hadm hrun x hx
      exact ⟨i, hi, rfl⟩
    · have hvalid := hspec.valid_eq hrep.threads
      have howner := lg.owner_call k lg.shard.shardId m r m.hdr.sessionId
        { lg.shard with floor := r.floor } (reportOf lg.shard.shardId m r m.hdr.sessionId)
      constructor
      · intro hv
        have hpl := hspec.slot_place
        rw [if_pos (hvalid.symm.trans hv)] at hpl
        refine ⟨_, _, lg.shard.floor.pool.top, ?_, h'.restsAt_iff.mpr ⟨hpl, ?_⟩⟩
        · exact (h'.belongs ((h'.desk.rep.threads.queued _ _ _ _).mpr hpl)).qty_pos
        · rw [howner, if_pos hv, Function.update_self]
      · rintro ⟨S, i, s, -, hrests⟩
        obtain ⟨hpl, hown⟩ := h'.restsAt_iff.mp hrests
        rcases hspec.level_cases hpl with ⟨-, hrest, -⟩ | ⟨hslot, hold⟩
        · exact hvalid.trans hrest
        · -- an earlier order has another label
          have hsame := congrFun howner s
          rw [ite_apply, Function.update_of_ne hslot, ite_self] at hsame
          exact absurd (hsame.symm.trans hown) (h.not_rests hk hold)

end Report

/-- In a run with genuine cancels, with at most `2^24` slots, every further new order on a hosted
    symbol is answered as it should be. -/
theorem reports_exact (su : Setup) (hN : su.cfg.N ≤ 2 ^ 24) (msgs : List InboundMsg)
    (hlen : msgs.length + 1 < 2 ^ 32)
    (hg : Along (Log.receive su.cfg) Log.Genuine (Log.init su) (numbered msgs)) :
    ∃ lg, run (Log.receive su.cfg) (Log.init su) (numbered msgs) = .ok lg ∧
      ∀ m, lg.shard.localBook su.cfg m.symbolId ≠ noBook →
        ∃ r lg', lg.shard.floor.addOrder su.cfg.toDims (lg.shard.localBook su.cfg m.symbolId) m
            maxFillsPerOrder = .ok r ∧
          lg.receive su.cfg (msgs.length, .newOrder m) = .ok lg' ∧
          Reported su.cfg (submitter msgs) lg msgs.length m r lg' := by
  obtain ⟨lg, dk, lab, v, place, hrun, h⟩ := genuine_run su hN msgs (by omega) hg
  refine ⟨lg, hrun, fun m hb => h.report hN (fun hmem => ?_) (by rwa [length_numbered]) hb
    fun k m hm => ?_⟩
  · obtain ⟨⟨k, m⟩, hkm, rfl⟩ := List.mem_map.mp hmem
    have hlt := (List.getElem?_eq_some_iff.mp (mem_numbered.mp hkm)).1
    exact Nat.lt_irrefl _ hlt
  · rw [submitter, mem_numbered.mp hm]

/-- Session 1 offers 5 at 103 and session 2 buys 3 at 104: one fill, told to both. -/
theorem reports_exact_two_sessions :
    ∃ lg, run (Log.receive smallShard) (Log.init smallSetup)
        (numbered [.newOrder (orderFrom 1 1 Side.sell 103 5)]) = .ok lg ∧
      ∃ r lg', lg.receive smallShard (1, .newOrder (orderFrom 2 2 Side.buy 104 3)) = .ok lg' ∧
        Reported smallShard (submitter [.newOrder (orderFrom 1 1 Side.sell 103 5)]) lg 1
          (orderFrom 2 2 Side.buy 104 3) r lg' ∧ r.fills.length = 1 := by
  obtain ⟨lg, hrun, hreport⟩ := reports_exact smallSetup (by decide)
    [.newOrder (orderFrom 1 1 Side.sell 103 5)] (by decide) (genuine_of_check (by decide +kernel))
  cases hrun
  obtain ⟨r, lg', hadd, hrec, hrep⟩ := hreport (orderFrom 2 2 Side.buy 104 3) (by decide)
  cases hadd
  exact ⟨_, rfl, _, lg', hrec, hrep, rfl⟩

/-- An arena with three slots more than a token can tell apart. -/
def wideSetup : Setup :=
  ⟨{ maxOrders := 0x1000003, ladderSize := 64, words_fit := sixty_four_levels_fit, maxSymbols := 1,
     symbolSpace := 0 }, 0, 1, 0, allSymbols _⟩

/-- The tokens of slots `2^24 + 2` and 2 are alike. Two cancels meant for the first free the
    second, which is then handed out twice: to an order of session 1, and, while it rests, to one
    of session 2. -/
def aliasedRun : List InboundMsg :=
  [.newOrder (orderFrom 9 1 Side.sell 30 5), .newOrder (orderFrom 9 2 Side.buy 1 5),
    .newOrder (orderFrom 9 3 Side.sell 60 5), cancelFrom 9 2, cancelFrom 9 1,
    .newOrder (orderFrom 9 4 Side.buy 30 5), .newOrder (orderFrom 9 5 Side.buy 2 5),
    .newOrder (orderFrom 9 6 Side.buy 3 5), cancelFrom 9 0x1000002,
    .newOrder (orderFrom 1 7 Side.sell 20 5)]

/-- The messages a new order should be answered with after `msgs`, compared with those it is
    answered with. -/
def sentAsExpected (su : Setup) (msgs : List InboundMsg) (m : NewOrder) : Except Fault Bool := do
  let lg ← run (Log.receive su.cfg) (Log.init su) (numbered msgs)
  let r ← lg.shard.floor.addOrder su.cfg.toDims (lg.shard.localBook su.cfg m.symbolId) m
    maxFillsPerOrder
  let lg' ← lg.receive su.cfg (msgs.length, .newOrder m)
  return decide (lg'.sent = lg.sent ++ [(List.zipWith (fun f h =>
      tell f (submitter msgs (lg.owner h.slot)) m.hdr.sessionId) r.fills r.hits).flatten ++
    if r.handle.valid then [emitAck m.orderId (r.handle.toToken lg.shard.shardId) m.hdr.sessionId]
    else []])

/-- Without the bound on the arena a fill is addressed to the wrong session: the buyer of
    session 2 is matched with the order of session 1 in the slot it was given itself, and is
    taken for its owner. -/
theorem aliased_slot_misaddresses_fill :
    ¬ ∀ (su : Setup) (msgs : List InboundMsg), msgs.length + 1 < 2 ^ 32 →
      Along (Log.receive su.cfg) Log.Genuine (Log.init su) (numbered msgs) →
      ∃ lg, run (Log.receive su.cfg) (Log.init su) (numbered msgs) = .ok lg ∧
        ∀ m, lg.shard.localBook su.cfg m.symbolId ≠ noBook →
          ∃ r lg', lg.shard.floor.addOrder su.cfg.toDims (lg.shard.localBook su.cfg m.symbolId) m
              maxFillsPerOrder = .ok r ∧
            lg.receive su.cfg (msgs.length, .newOrder m) = .ok lg' ∧
            Reported su.cfg (submitter msgs) lg msgs.length m r lg' := by
  intro hall
  have hgenuine : Along (Log.receive wideSetup.cfg) Log.Genuine (Log.init wideSetup)
      (numbered aliasedRun) := genuine_of_check (by decide +kernel)
  have hcode : sentAsExpected wideSetup aliasedRun (orderFrom 2 8 Side.buy 20 5) = .ok false := by
    decide +kernel
  have hhosted : (run (Log.receive wideSetup.cfg) (Log.init wideSetup) (numbered aliasedRun) >>=
      fun lg => .ok (decide (lg.shard.localBook wideSetup.cfg 0 ≠ noBook))) = .ok true := by
    decide +kernel
  obtain ⟨lg, hrun, hreport⟩ := hall wideSetup aliasedRun (by decide) hgenuine
  rw [hrun, ok_bind] at hhosted
  obtain ⟨r, lg', hadd, hrec, hrep⟩ := hreport (orderFrom 2 8 Side.buy 20 5)
    (of_decide_eq_true (Except.ok.inj hhosted))
  rw [sentAsExpected, hrun, ok_bind, hadd, ok_bind, hrec, ok_bind, decide_eq_true hrep.sent] at hcode
  cases hcode

end LiteExchange.Engine

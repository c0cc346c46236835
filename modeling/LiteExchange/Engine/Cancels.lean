/-
  Cancels are exact. `cancel_exact`: in a run with genuine cancels the token of an Ack belongs to
  one order. A cancel with that token takes the order off its list if it rests there, and is
  rejected without any change if the order is gone, whatever its slot has been used for since.
-/
import LiteExchange.Engine.Log

namespace LiteExchange.Engine

open Lib Proto Book

/-- The order labelled `k` is in slot `s`, on level `i` of side `S` of book `b`. -/
def Log.RestsAt (cfg : ShardConfig) (lg : Log) (k b : Nat) (S : SideClass) (i s : Nat) : Prop :=
  s ∈ lg.shard.floor.queue cfg.toDims b S i ∧ lg.owner s = k

/-- From `lg` to `lg'` exactly the order labelled `k` was removed, from the book `b`: its slot
    leaves its list, and no other list and no record changes. -/
structure Removed (cfg : ShardConfig) (lg : Log) (k b : Nat) (lg' : Log) : Prop where
  unlinked : ∃ S i s xs ys, lg.RestsAt cfg k b S i s ∧
    lg.shard.floor.queue cfg.toDims b S i = xs ++ s :: ys ∧
    lg'.shard.floor.queue cfg.toDims = (lg.shard.floor.queue cfg.toDims).set b S i (xs ++ ys)
  records : ∀ s, (lg'.shard.floor.pool.slots s).data = (lg.shard.floor.pool.slots s).data
  others : ∀ k' b' S i s, lg'.RestsAt cfg k' b' S i s ↔ lg.RestsAt cfg k' b' S i s ∧ k' ≠ k

section Cancel

variable {su : Setup} {xs : List (Nat × InboundMsg)} {lg : Log} {dk : Desk} {lab : Nat → Nat}
variable {v : View} {place : Nat → Place}

theorem LogRep.restsAt_iff (h : LogRep su xs lg dk lab v place) {k b i s : Nat} {S : SideClass} :
    lg.RestsAt su.cfg k b S i s ↔ place s = .level b S i ∧ lg.owner s = k := by
  rw [Log.RestsAt, h.floor, ← h.desk.rep.threads.view_eq, h.desk.rep.threads.queued]

/-- What one cancel of the order labelled `k'` does. -/
theorem LogRep.cancel (h : LogRep su xs lg dk lab v place) (hN : su.cfg.N ≤ 2 ^ 24) (k : Nat)
    {c : CancelOrder} {k' : Nat} (hk' : lg.tokenOf k' = some c.orderToken)
    (hn : xs.length + 1 < 2 ^ 32) : ∃ lg', lg.receive su.cfg (k, .cancel c) = .ok lg' ∧
      ((∃ b S i s, lg.RestsAt su.cfg k' b S i s) →
        (∃ m, (k', .newOrder m) ∈ xs ∧
          Removed su.cfg lg k' (lg.shard.localBook su.cfg m.symbolId) lg') ∧
        lg'.sent = lg.sent ++ [[emitAck 0 c.orderToken c.hdr.sessionId]]) ∧
      ((¬ ∃ b S i s, lg.RestsAt su.cfg k' b S i s) → lg'.shard = lg.shard ∧
        lg'.sent = lg.sent ++ [[emitReject 0 .unknownOrder c.hdr.sessionId]]) := by
  obtain ⟨lg', dk', v', place', hrun, h', hcase⟩ := h.receive_cancel hN k hk' hn
  refine ⟨lg', hrun, ?_⟩
  cases hcase with
  | @cancelled _ k2 s b i _ S fl _ htoken hpl hown hspec =>
    obtain rfl := h.once k' k2 _ hk' htoken
    have hrests : lg.RestsAt su.cfg k' b S i s := h.restsAt_iff.mpr ⟨hpl, hown⟩
    refine ⟨fun _ => ⟨?_, rfl⟩, fun hn => absurd ⟨b, S, i, s, hrests⟩ hn⟩
    obtain ⟨m, hmem, hbook, -⟩ := h.msg_of_slot hpl
    refine ⟨m, hown ▸ hmem, ?_⟩
    rw [hbook]
    obtain ⟨ys, zs, hv, hv'⟩ := hspec.view
    have hq : v = lg.shard.floor.queue su.cfg.toDims := by
      rw [h.floor]
      exact h.desk.rep.threads.view_eq
    have hq' : v' = fl.queue su.cfg.toDims := by
      rw [h'.desk.rep.threads.view_eq, ← h'.floor]
      rfl
    refine ⟨⟨S, i, s, ys, zs, hrests, hq ▸ hv, ?_⟩, hspec.data, fun k2 b' S' i' s' => ?_⟩
    · rw [← hq, ← hv', hq']
      rfl
    · rw [h'.restsAt_iff, h.restsAt_iff]
      by_cases hs : s' = s
      · subst hs
        rw [move_self]
        exact ⟨fun hf => Place.noConfusion hf.1, fun hf => absurd (hf.1.2.symm.trans hown) hf.2⟩
      · rw [move_of_ne _ _ hs]
        refine ⟨fun hr => ⟨hr, fun e => hs (h.owner_inj hr.1 hpl ?_)⟩, fun hr => hr.1⟩
        exact hr.2.trans (e.trans hown.symm)
  | @stale _ k2 _ htoken hgone =>
    obtain rfl := h.once k' k2 _ hk' htoken
    refine ⟨?_, fun _ => ⟨rfl, rfl⟩⟩
    rintro ⟨b, S, i, s, hrests⟩
    obtain ⟨hpl, hown⟩ := h.restsAt_iff.mp hrests
    exact absurd hown (hgone s b S i hpl)

end Cancel

/-- In a run with genuine cancels a token belongs to one order. A further cancel with it removes
    that order from its symbol's book and is acknowledged, if the order rests; otherwise it is
    rejected and nothing changes. -/
theorem cancel_exact (su : Setup) (hN : su.cfg.N ≤ 2 ^ 24) (msgs : List InboundMsg)
    (hlen : msgs.length + 1 < 2 ^ 32)
    (hg : Along (Log.receive su.cfg) Log.Genuine (Log.init su) (numbered msgs)) :
    ∃ lg, run (Log.receive su.cfg) (Log.init su) (numbered msgs) = .ok lg ∧
      (∀ k k' t, AckedAs msgs lg k t → AckedAs msgs lg k' t → k = k') ∧
      ∀ c k, AckedAs msgs lg k c.orderToken →
        ∃ lg', lg.receive su.cfg (msgs.length, .cancel c) = .ok lg' ∧
          ((∃ b S i s, lg.RestsAt su.cfg k b S i s) →
            (∃ m, msgs[k]? = some (.newOrder m) ∧
              Removed su.cfg lg k (lg.shard.localBook su.cfg m.symbolId) lg') ∧
            lg'.sent = lg.sent ++ [[emitAck 0 c.orderToken c.hdr.sessionId]]) ∧
          ((¬ ∃ b S i s, lg.RestsAt su.cfg k b S i s) → lg'.shard = lg.shard ∧
            lg'.sent = lg.sent ++ [[emitReject 0 .unknownOrder c.hdr.sessionId]]) := by
  obtain ⟨lg, dk, lab, v, place, hrun, h⟩ := genuine_run su hN msgs (by omega) hg
  refine ⟨lg, hrun, fun k k' t hk hk' => ?_, fun c k hk => ?_⟩
  · exact h.once k k' t ((tokenOf_iff_ackedAs hrun).mpr hk) ((tokenOf_iff_ackedAs hrun).mpr hk')
  · obtain ⟨lg', hrec, hlive, hgone⟩ := h.cancel hN msgs.length
      ((tokenOf_iff_ackedAs hrun).mpr hk) (by rwa [length_numbered])
    refine ⟨lg', hrec, fun hrests => ?_, hgone⟩
    obtain ⟨⟨m, hmem, hremoved⟩, hsent⟩ := hlive hrests
    exact ⟨⟨m, mem_numbered.mp hmem, hremoved⟩, hsent⟩

/-- A buyer's order rests in slot 3 and is cancelled, and an order of another symbol gets the
    slot. -/
def reusedSlot : List InboundMsg :=
  [.newOrder (limitOrder 1 Side.buy 103 5), .cancel ⟨⟨16, .cancelOrder, 0, 7⟩, 3⟩,
    .newOrder { limitOrder 2 Side.buy 104 5 with symbolId := 1 }]

/-- The old token is rejected; the new one, of the next generation, is acknowledged. -/
theorem cancel_exact_buyer :
    ∃ lg lg₁ lg₂, run (Log.receive smallShard) (Log.init smallSetup) (numbered reusedSlot) =
        .ok lg ∧
      (lg.receive smallShard (3, .cancel ⟨⟨16, .cancelOrder, 0, 7⟩, 3⟩) = .ok lg₁ ∧
        lg₁.shard = lg.shard ∧ lg₁.sent = lg.sent ++ [[emitReject 0 .unknownOrder 7]]) ∧
      lg.receive smallShard (3, .cancel ⟨⟨16, .cancelOrder, 0, 7⟩, 2 ^ 24 + 3⟩) = .ok lg₂ ∧
        lg₂.sent = lg.sent ++ [[emitAck 0 (2 ^ 24 + 3) 7]] := by
  obtain ⟨lg, hrun, -, hcancel⟩ := cancel_exact smallSetup (by decide) reusedSlot (by decide)
    ⟨trivial, fun lg hlg => by
      cases hlg
      exact ⟨List.mem_singleton.mpr rfl, fun _ _ => ⟨trivial, fun _ _ => trivial⟩⟩⟩
  cases hrun
  obtain ⟨lg₁, hrec₁, hlive₁, hgone₁⟩ := hcancel ⟨⟨16, .cancelOrder, 0, 7⟩, 3⟩ 0
    ⟨_, _, rfl, rfl, rfl⟩
  obtain ⟨lg₂, hrec₂, hlive₂, -⟩ := hcancel ⟨⟨16, .cancelOrder, 0, 7⟩, 2 ^ 24 + 3⟩ 2
    ⟨_, _, rfl, rfl, rfl⟩
  -- what the code answers to the old token tells that its order does not rest
  have hreject : lg₁.sent.getLast? = some [emitReject 0 .unknownOrder 7] := by
    cases hrec₁
    rfl
  have hgone := hgone₁ fun hrests => by
    rw [(hlive₁ hrests).2, List.getLast?_concat] at hreject
    cases Option.some_inj.mp hreject
  exact ⟨_, lg₁, lg₂, rfl, ⟨hrec₁, hgone⟩, hrec₂,
    (hlive₂ ⟨1, .bid, 4, 3, List.mem_singleton.mpr rfl, rfl⟩).2⟩

end LiteExchange.Engine

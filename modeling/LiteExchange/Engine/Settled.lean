/-
  Whether a new order is answered. A client that sends an order without IOC expects to hear what
  became of it: fills for all of it, an Ack when it rests, or a Reject. `settled_iff`: on a shard
  whose cancels were all sound, this is what it gets when the symbol is not hosted, or when the
  price is on the ladder, a slot is free and the quantity is positive. Any other order is dropped
  without a word (`dropped_silently`).
-/
import LiteExchange.Book.Crossing
import LiteExchange.Engine.Forged
import LiteExchange.Engine.Log

namespace LiteExchange.Engine

open Lib Proto Book

/-- The quantity of a Fill addressed to a session. -/
def filledTo (sessionId : UInt32) : OutboundMsg → Option Nat
  | .fill f => if f.hdr.sessionId = sessionId then some f.qty.toNat else none
  | _ => none

/-- The messages tell the sender what became of the order. -/
def Settles (m : NewOrder) (out : List OutboundMsg) : Prop :=
  (0 < m.qty.toNat ∧ (out.filterMap (filledTo m.hdr.sessionId)).sum = m.qty.toNat) ∨
    (∃ a, .ack a ∈ out ∧ a.orderId = m.orderId ∧ a.hdr.sessionId = m.hdr.sessionId) ∨
    ∃ r, .reject r ∈ out ∧ r.orderId = m.orderId ∧ r.hdr.sessionId = m.hdr.sessionId

/-- The symbol is not hosted, or the order gets a slot and asks for something. -/
def Shard.Answers (cfg : ShardConfig) (sh : Shard) (m : NewOrder) : Prop :=
  sh.localBook cfg m.symbolId = noBook ∨
    (sh.floor.Admits cfg.toDims (sh.localBook cfg m.symbolId) m.price ∧ 0 < m.qty.toNat)

theorem not_settles_nil (m : NewOrder) : ¬ Settles m [] := by
  unfold Settles
  simp only [List.filterMap_nil, List.sum_nil, List.not_mem_nil, false_and, exists_false, or_false]
  omega

/-- Each trade is told to the aggressor once. -/
theorem filledTo_emitFill (f : Fill) (sessionId : UInt32) :
    (emitFill f sessionId).filterMap (filledTo sessionId) = [f.qty.toNat] := by
  unfold emitFill
  split
  · rename_i hne
    simp [filledTo, Ne.symm hne]
  · rename_i heq
    simp [filledTo, (not_not.mp heq).symm]

theorem filledTo_report (shardId : UInt8) (m : NewOrder) (r : AddResult) (sessionId : UInt32) :
    (reportOf shardId m r sessionId).filterMap (filledTo sessionId) =
      r.fills.map fun f => f.qty.toNat := by
  have hack : (if r.handle.valid then [emitAck m.orderId (r.handle.toToken shardId) sessionId]
      else []).filterMap (filledTo sessionId) = [] := by
    split <;> rfl
  unfold reportOf
  rw [List.filterMap_append, hack, List.append_nil, List.filterMap_flatMap]
  simp only [filledTo_emitFill]
  exact List.map_eq_flatMap.symm

section Report

variable {shardId : UInt8} {m : NewOrder} {r : AddResult} {sessionId : UInt32}

theorem fill_of_emitFill {f : Fill} {o : OutboundMsg} (ho : o ∈ emitFill f sessionId) :
    ∃ f', o = .fill f' := by
  unfold emitFill at ho
  split at ho
  · rcases List.mem_pair.mp ho with rfl | rfl
    · exact ⟨_, rfl⟩
    · exact ⟨_, rfl⟩
  · rw [List.mem_singleton.mp ho]
    exact ⟨_, rfl⟩

/-- A message of a report that is not a Fill is the Ack of an order that rests. -/
theorem ack_of_report {o : OutboundMsg} (ho : o ∈ reportOf shardId m r sessionId) :
    (∃ f, o = .fill f) ∨
      (r.handle.valid = true ∧ o = emitAck m.orderId (r.handle.toToken shardId) sessionId) := by
  unfold reportOf at ho
  rcases List.mem_append.mp ho with ho | ho
  · obtain ⟨f, -, hf⟩ := List.mem_flatMap.mp ho
    exact Or.inl (fill_of_emitFill hf)
  · split at ho
    · rename_i hv
      exact Or.inr ⟨hv, List.mem_singleton.mp ho⟩
    · cases ho

/-- A report settles its order when the fills make it up or it rests. -/
theorem settles_report_iff :
    Settles m (reportOf shardId m r m.hdr.sessionId) ↔
      (0 < m.qty.toNat ∧ (r.fills.map fun f => f.qty.toNat).sum = m.qty.toNat) ∨
        r.handle.valid = true := by
  unfold Settles
  rw [filledTo_report]
  refine or_congr_right ⟨?_, fun hv => Or.inl ?_⟩
  · rintro (⟨a, ha, -⟩ | ⟨a, ha, -⟩)
    · rcases ack_of_report ha with ⟨f, hf⟩ | ⟨hv, -⟩
      · cases hf
      · exact hv
    · rcases ack_of_report ha with ⟨f, hf⟩ | ⟨hv, -⟩
      · cases hf
      · exact hv
  · refine ⟨⟨⟨24, .ack, 0, m.hdr.sessionId⟩, m.orderId, r.handle.toToken shardId⟩, ?_, rfl, rfl⟩
    unfold reportOf
    rw [if_pos hv]
    exact List.mem_append_right _ (List.mem_singleton.mpr rfl)

end Report

/-- The answer to an order without IOC on a well-formed shard. -/
theorem ShardRep.settles_iff {cfg : ShardConfig} {symbols : SymbolList cfg} {sh : Shard} {v : View}
    {place : Nat → Place} (h : ShardRep cfg symbols sh v place) (m : NewOrder)
    (htif : m.tif ≠ TimeInForce.ioc) :
    ∃ sh' out, sh.tick cfg (some (.newOrder m)) = .ok (sh', out) ∧
      (Settles m out ↔ sh.Answers cfg m) := by
  by_cases hb : sh.localBook cfg m.symbolId = noBook
  · refine ⟨_, _, handleNew_unhosted hb m.hdr.sessionId, iff_of_true ?_ (Or.inl hb)⟩
    exact Or.inr (Or.inr ⟨_, List.mem_singleton.mpr rfl, rfl, rfl⟩)
  have hK := sh.localBook_lt h.table hb
  by_cases hadm : sh.floor.Admits cfg.toDims (sh.localBook cfg m.symbolId) m.price
  · obtain ⟨r, v', place', hrun, -, hspec⟩ := addOrder_admitted h.rep (fun _ => ()) ()
      maxFillsPerOrder hadm.1 hadm.2
    refine ⟨_, _, handleNew_hosted hb hK hrun m.hdr.sessionId, ?_⟩
    have hsum := hspec.sum_fills rfl
    have hrests : r.handle.valid = true ↔ _ :=
      (hspec.valid_eq h.rep.threads) ▸ Ladder.add_rests
    unfold Shard.Answers
    rw [settles_report_iff, hrests]
    simp only [hb, hadm, false_or, true_and, htif, ne_eq, not_false_eq_true, and_true]
    omega
  · have hrefused := hadm
    unfold Floor.Admits at hrefused
    rw [not_and_or, Nat.pos_iff_ne_zero, not_not] at hrefused
    refine ⟨_, _, handleNew_hosted hb hK (addOrder_refused _ hrefused) m.hdr.sessionId, ?_⟩
    refine iff_of_false (not_settles_nil m) fun ha => ?_
    exact hadm (ha.resolve_left hb).1

/-- In every state that a run with sound cancels reaches, the answer to a new order without IOC
    tells its sender what became of it exactly when the symbol is not hosted, or the order gets a
    slot and asks for something. -/
theorem settled_iff (su : Setup) (msgs : List InboundMsg)
    (hsound : Along (Shard.receive su.cfg) (Shard.SoundMsg su.cfg) su.shard msgs) :
    ∃ sh, run (Shard.receive su.cfg) su.shard msgs = .ok sh ∧
      ∀ m, m.tif ≠ TimeInForce.ioc → ∃ sh' out,
        sh.tick su.cfg (some (.newOrder m)) = .ok (sh', out) ∧
          (Settles m out ↔ sh.Answers su.cfg m) := by
  obtain ⟨sh, v, place, hrun, h⟩ := sound_run su.cfg su.basePrice su.tickSize su.shardId su.symbols
    hsound
  exact ⟨sh, hrun, fun m htif => h.settles_iff m htif⟩

/-- A buyer at 103 rests and cancels with the token of the Ack; the next buyer is acknowledged. -/
theorem settled_buyer :
    ∃ sh, run (Shard.receive smallShard) smallSetup.shard
        [.newOrder (orderFrom 1 1 Side.buy 103 5), cancelFrom 1 3] = .ok sh ∧
      ∃ sh' out, sh.tick smallShard (some (.newOrder (orderFrom 2 9 Side.buy 104 5))) =
          .ok (sh', out) ∧
        Settles (orderFrom 2 9 Side.buy 104 5) out := by
  obtain ⟨sh, hrun, hall⟩ := settled_iff smallSetup
    [.newOrder (orderFrom 1 1 Side.buy 103 5), cancelFrom 1 3]
    ⟨trivial, fun sh hsh => by
      cases hsh
      exact ⟨Or.inr (Or.inr (Or.inr ⟨0, .bid, 3, List.mem_singleton.mpr rfl⟩)),
        fun _ _ => trivial⟩⟩
  obtain ⟨sh', out, htick, hiff⟩ := hall (orderFrom 2 9 Side.buy 104 5) (by decide)
  cases hrun
  exact ⟨_, rfl, sh', out, htick, hiff.mpr (Or.inr (by decide))⟩

/-- A price above the ladder, here 108 on eight levels from 100: nothing is sent. -/
theorem dropped_silently :
    ¬ ∀ (su : Setup) (msgs : List InboundMsg) (sh : Shard),
      run (Shard.receive su.cfg) su.shard msgs = .ok sh →
      ∀ m, m.tif ≠ TimeInForce.ioc → ∃ sh' out,
        sh.tick su.cfg (some (.newOrder m)) = .ok (sh', out) ∧ Settles m out := by
  intro hall
  obtain ⟨sh', out, htick, hsettles⟩ := hall smallSetup [] _ rfl (orderFrom 1 1 Side.buy 108 5)
    (by decide)
  cases htick
  exact not_settles_nil _ hsettles

end LiteExchange.Engine

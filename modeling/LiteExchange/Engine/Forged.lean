/-
  Cancels with arbitrary tokens. `handle_cancel` trusts a token whose slot is in range and whose
  generation is the slot's current one. A slot that is free has a current generation too, and
  the record it holds (the zero record of a slot never used, or the last order that had it) is
  then cancelled as if it rested.

  * `cancel_harmless_iff`: on a well-formed shard a cancel does no harm exactly when its token is
    `Sound`: it fails the check, or its slot's symbol is not hosted, or its slot is on a list.
  * `sound_cancels_harmless`: a shard that only ever got sound cancels, and any new orders, is
    well formed, so this describes every state of such a run.
  * `forged_token_breaks_shard`: token 0 on a fresh shard.
-/
import LiteExchange.Book.Desk
import LiteExchange.Engine.Shard

namespace LiteExchange.Engine

open Lib Proto Book

/-- One message through `tick`, keeping the shard. -/
def Shard.receive (cfg : ShardConfig) (sh : Shard) (m : InboundMsg) : Except Fault Shard := do
  let (sh, _) ← sh.tick cfg (some m)
  return sh

/-- The token names, by slot and generation, an order on a list of one of the books. -/
def Shard.NamesResting (cfg : ShardConfig) (sh : Shard) (token : UInt64) : Prop :=
  sh.floor.pool.gen (OrderHandle.fromToken token).slot = (OrderHandle.fromToken token).gen ∧
    ∃ b < cfg.K, sh.floor.Rests cfg.toDims b (OrderHandle.fromToken token).slot

/-- A cancel with this token is answered, with an Ack only if it names a resting order, and
    otherwise with one Reject and no change at all. -/
def Shard.CancelHarmless (cfg : ShardConfig) (sh : Shard) (token : UInt64) : Prop :=
  ∀ hdr : Header, ∃ sh' out, sh.tick cfg (some (.cancel ⟨hdr, token⟩)) = .ok (sh', out) ∧
    ((∃ a, OutboundMsg.ack a ∈ out) → sh.NamesResting cfg token) ∧
    (¬ sh.NamesResting cfg token →
      out = [emitReject 0 .unknownOrder hdr.sessionId] ∧ sh' = sh)

/-- The token fails the check, or leads to no book, or to a slot that is on a list. -/
def Shard.Sound (cfg : ShardConfig) (sh : Shard) (token : UInt64) : Prop :=
  cfg.N ≤ (OrderHandle.fromToken token).slot ∨
    sh.floor.pool.gen (OrderHandle.fromToken token).slot ≠ (OrderHandle.fromToken token).gen ∨
    sh.localBook cfg (sh.floor.pool.slots (OrderHandle.fromToken token).slot).symbol = noBook ∨
    ∃ b, sh.floor.Rests cfg.toDims b (OrderHandle.fromToken token).slot

/-- New orders are arbitrary, cancels have sound tokens. -/
def Shard.SoundMsg (cfg : ShardConfig) (sh : Shard) : InboundMsg → Prop
  | .cancel c => sh.Sound cfg c.orderToken
  | _ => True

/-! ## Well-formed shards -/

/-- The books are well formed, and every resting order is on the book of its symbol. -/
structure ShardRep (cfg : ShardConfig) (symbols : SymbolList cfg) (sh : Shard) (v : View)
    (place : Nat → Place) : Prop where
  rep : FloorRep cfg.toDims sh.floor v place
  settled : ∀ s, place s ≠ .held
  table : sh.localOf = symbolTable cfg symbols.ids
  home : ∀ s b S i, place s = .level b S i →
    sh.localBook cfg (sh.floor.pool.slots s).symbol = b ∧ b ≠ noBook

section Step

variable {cfg : ShardConfig} {symbols : SymbolList cfg} {sh : Shard} {v : View}
variable {place : Nat → Place}

theorem shardRep_init (cfg : ShardConfig) (basePrice tickSize : Int64) (shardId : UInt8)
    (symbols : SymbolList cfg) :
    ShardRep cfg symbols (Shard.init cfg basePrice tickSize shardId symbols) (fun _ _ _ => [])
      (fun s => if s < cfg.N then .free else .outside) where
  rep := floorRep_init cfg.toDims basePrice tickSize
  settled := fun s => by by_cases hs : s < cfg.N <;> simp [hs]
  table := rfl
  home := fun s b S i hs => by by_cases hN : s < cfg.N <;> simp [hN] at hs

/-- What a message can have done to the books. -/
inductive Received (cfg : ShardConfig) (sh : Shard) (v : View) : InboundMsg → Shard → View → Prop
  | kept {m : InboundMsg} : Received cfg sh v m sh v
  | added {m : NewOrder} {r : AddResult} {v' : View}
      (hadm : sh.floor.Admits cfg.toDims (sh.localBook cfg m.symbolId) m.price)
      (hb : sh.localBook cfg m.symbolId ≠ noBook)
      (hrun : sh.floor.addOrder cfg.toDims (sh.localBook cfg m.symbolId) m maxFillsPerOrder =
        .ok r) : Received cfg sh v (.newOrder m) { sh with floor := r.floor } v'
  | cancelled {c : CancelOrder} {b i s : Nat} {S : SideClass} {fl : Floor} {v' : View}
      (hspec : CancelSpec sh.floor v b S i s fl v') :
      Received cfg sh v (.cancel c) { sh with floor := fl } v'

/-- Any new order leaves a well-formed shard. -/
theorem ShardRep.new (h : ShardRep cfg symbols sh v place) (m : NewOrder) :
    ∃ sh' out v' place', sh.tick cfg (some (.newOrder m)) = .ok (sh', out) ∧
      ShardRep cfg symbols sh' v' place' ∧ Received cfg sh v (.newOrder m) sh' v' := by
  by_cases hb : sh.localBook cfg m.symbolId = noBook
  · exact ⟨sh, _, v, place, handleNew_unhosted hb _, h, .kept⟩
  have hK := sh.localBook_lt h.table hb
  by_cases hadm : sh.floor.Admits cfg.toDims (sh.localBook cfg m.symbolId) m.price
  · obtain ⟨r, v', place', hrun, hrep, hs⟩ := addOrder_admitted h.rep (fun _ => ()) ()
      maxFillsPerOrder hadm.1 hadm.2
    refine ⟨_, _, v', place', handleNew_hosted hb hK hrun _, ⟨hrep, hs.settled h.settled, h.table,
      fun s b S i hpl => ?_⟩, .added hadm hb hrun⟩
    rcases hs.level_cases hpl with ⟨hslot, -, hbook⟩ | ⟨hslot, hold⟩
    · rw [hslot, symbol_of_fixed hs.slot_fixed, hbook]
      exact ⟨rfl, hb⟩
    · rw [symbol_of_fixed (hs.fixed s hslot)]
      exact h.home s b S i hold
  · have hrefused : ¬ (sh.floor.books (sh.localBook cfg m.symbolId)).OnLadder cfg.toDims m.price ∨
        sh.floor.pool.freeTop = 0 := by
      rw [Floor.Admits, not_and_or, Nat.pos_iff_ne_zero, not_not] at hadm
      exact hadm
    exact ⟨_, _, v, place, handleNew_hosted hb hK (addOrder_refused _ hrefused) _,
      ⟨h.rep, h.settled, h.table, h.home⟩, .kept⟩

/-- What a cancel with a sound token does. -/
theorem ShardRep.cancel (h : ShardRep cfg symbols sh v place) (c : CancelOrder)
    (hc : sh.Sound cfg c.orderToken) :
    (sh.tick cfg (some (.cancel c)) = .ok (sh, [emitReject 0 .unknownOrder c.hdr.sessionId]) ∨
      sh.NamesResting cfg c.orderToken ∧ ∃ sh' v' place', ShardRep cfg symbols sh' v' place' ∧
        sh.tick cfg (some (.cancel c)) =
          .ok (sh', [emitAck 0 c.orderToken c.hdr.sessionId]) ∧
        Received cfg sh v (.cancel c) sh' v') := by
  obtain ⟨hd, hhd⟩ : ∃ hd, OrderHandle.fromToken c.orderToken = hd := ⟨_, rfl⟩
  rw [Shard.Sound, hhd] at hc
  by_cases hstale : cfg.N ≤ hd.slot ∨ sh.floor.pool.gen hd.slot ≠ hd.gen
  · exact Or.inl (handleCancel_stale (by rw [hhd]; exact hstale) _)
  rw [not_or, Nat.not_le, not_ne_iff] at hstale
  obtain ⟨hN, hgen⟩ := hstale
  by_cases hb : sh.localBook cfg (sh.floor.pool.slots hd.slot).symbol = noBook
  · exact Or.inl ((handleCancel_checked hhd hN hgen _).trans (if_pos hb))
  -- the check is passed and the symbol hosted, so the slot is on a list
  obtain ⟨b, hrests⟩ : ∃ b, sh.floor.Rests cfg.toDims b hd.slot := by
    rcases hc with hc | hc | hc | hc
    · omega
    · exact absurd hgen hc
    · exact absurd hc hb
    · exact hc
  obtain ⟨S, i, hpl⟩ := h.rep.rests_iff.mp hrests
  obtain ⟨hbook, hne⟩ := h.home _ b S i hpl
  have hK : b < cfg.K := hbook ▸ sh.localBook_lt h.table (hbook ▸ hne)
  obtain ⟨fl, v', hrun, hrep, hspec⟩ := cancelOrder_live h.rep hpl hgen
  refine Or.inr ⟨?_, { sh with floor := fl }, v', move place hd.slot .free,
    ⟨hrep, fun s => ?_, h.table, fun s b' S' i' hs => ?_⟩,
    handleCancel_done hhd hN hgen hbook hne hK hrun _, .cancelled hspec⟩
  · rw [Shard.NamesResting, hhd]
    exact ⟨hgen, b, hK, hrests⟩
  · by_cases hslot : s = hd.slot
    · rw [hslot, move_self]
      simp
    · rw [move_of_ne _ _ hslot]
      exact h.settled s
  · by_cases hslot : s = hd.slot
    · rw [hslot, move_self] at hs
      cases hs
    · rw [move_of_ne _ _ hslot] at hs
      have hsymbol : (fl.pool.slots s).symbol = (sh.floor.pool.slots s).symbol :=
        show (fl.pool.slots s).data.symbol = (sh.floor.pool.slots s).data.symbol from
          congrArg Order.symbol (hspec.data s)
      dsimp only [Shard.localBook]
      rw [hsymbol]
      exact h.home s b' S' i' hs

/-- A token that passes the check is never refused by the book. -/
theorem cancelOrder_passed {d : Dims} {fl fl' : Floor} {b : Nat} {hd : OrderHandle} {done : Bool}
    (hN : hd.slot < d.N) (hgen : fl.pool.gen hd.slot = hd.gen)
    (hrun : fl.cancelOrder d b hd = .ok (done, fl')) : done = true := by
  have hpass : ¬ (d.N ≤ hd.slot ∨ fl.pool.gen hd.slot ≠ hd.gen) := by
    rw [not_or, Nat.not_le, not_ne_iff]
    exact ⟨hN, hgen⟩
  rw [Floor.cancelOrder, if_neg hpass] at hrun
  obtain ⟨_, -, hrun⟩ := bind_eq_ok hrun
  obtain ⟨_, -, hrun⟩ := bind_eq_ok hrun
  obtain ⟨_, -, hrun⟩ := bind_eq_ok hrun
  cases hrun
  rfl

/-- On a well-formed shard a cancel does no harm exactly when its token is sound. -/
theorem ShardRep.cancel_harmless_iff (h : ShardRep cfg symbols sh v place) (token : UInt64) :
    sh.CancelHarmless cfg token ↔ sh.Sound cfg token := by
  constructor
  · intro hharm
    by_contra hsound
    obtain ⟨hd, hhd⟩ : ∃ hd, OrderHandle.fromToken token = hd := ⟨_, rfl⟩
    rw [Shard.Sound, hhd, not_or, not_or, not_or, Nat.not_le, not_ne_iff] at hsound
    obtain ⟨hN, hgen, hb, hfree⟩ := hsound
    -- the book takes the slot for a resting order: it faults, or answers with an Ack
    obtain ⟨sh', out, hrun, hack, -⟩ := hharm ⟨0, .cancelOrder, 0, 0⟩
    have hpassed := (handleCancel_checked (c := ⟨⟨0, .cancelOrder, 0, 0⟩, token⟩) hhd hN hgen
      0).symm.trans hrun
    rw [if_neg hb, fetch_of_lt _ (sh.localBook_lt h.table hb), ok_bind] at hpassed
    obtain ⟨⟨done, fl⟩, hcancel, hsent⟩ := bind_eq_ok hpassed
    obtain rfl := cancelOrder_passed hN hgen hcancel
    cases hsent
    obtain ⟨-, b, -, hrests⟩ := hack ⟨_, List.mem_singleton.mpr rfl⟩
    exact hfree ⟨b, hhd ▸ hrests⟩
  · intro hsound hdr
    rcases h.cancel ⟨hdr, token⟩ hsound with hrej | ⟨hnames, sh', v', place', -, hack, -⟩
    · refine ⟨sh, _, hrej, ?_, fun _ => ⟨rfl, rfl⟩⟩
      rintro ⟨a, ha⟩
      cases List.mem_singleton.mp ha
    · exact ⟨sh', _, hack, fun _ => hnames, fun hn => absurd hnames hn⟩

/-- One message. -/
theorem ShardRep.receive (h : ShardRep cfg symbols sh v place) (m : InboundMsg)
    (hm : sh.SoundMsg cfg m) : ∃ sh' v' place', sh.receive cfg m = .ok sh' ∧
      ShardRep cfg symbols sh' v' place' ∧ Received cfg sh v m sh' v' := by
  cases m with
  | newOrder m =>
    obtain ⟨sh', out, v', place', hrun, h', hcase⟩ := h.new m
    exact ⟨sh', v', place', by rw [Shard.receive, hrun, ok_bind]; rfl, h', hcase⟩
  | cancel c =>
    rcases h.cancel c hm with hrun | ⟨-, sh', v', place', h', hrun, hcase⟩
    · exact ⟨sh, v, place, by rw [Shard.receive, hrun, ok_bind]; rfl, h, .kept⟩
    · exact ⟨sh', v', place', by rw [Shard.receive, hrun, ok_bind]; rfl, h', hcase⟩
  | other hdr => exact ⟨sh, v, place, rfl, h, .kept⟩

end Step

/-! ## Runs with sound cancels -/

/-- Sound cancels keep a shard well formed, whatever the new orders. -/
theorem sound_run (cfg : ShardConfig) (basePrice tickSize : Int64) (shardId : UInt8)
    (symbols : SymbolList cfg) {msgs : List InboundMsg}
    (hsound : Along (Shard.receive cfg) (Shard.SoundMsg cfg)
      (Shard.init cfg basePrice tickSize shardId symbols) msgs) :
    ∃ sh v place, run (Shard.receive cfg) (Shard.init cfg basePrice tickSize shardId symbols)
      msgs = .ok sh ∧ ShardRep cfg symbols sh v place := by
  obtain ⟨sh, hrun, v, place, h⟩ := run_inv (P := Shard.SoundMsg cfg)
    (I := fun _ sh => ∃ v place, ShardRep cfg symbols sh v place) (n := 0)
    (fun n sh m ⟨v, place, h⟩ hm => by
      obtain ⟨sh', v', place', hrun, h', -⟩ := h.receive m hm
      exact ⟨sh', hrun, v', place', h'⟩)
    ⟨_, _, shardRep_init cfg basePrice tickSize shardId symbols⟩ hsound
  exact ⟨sh, v, place, hrun, h⟩

/-- In every run whose cancels all have sound tokens nothing faults, and in the state reached a
    cancel with any token does no harm exactly when that token is sound. -/
theorem sound_cancels_harmless (cfg : ShardConfig) (basePrice tickSize : Int64) (shardId : UInt8)
    (symbols : SymbolList cfg) (msgs : List InboundMsg)
    (hsound : Along (Shard.receive cfg) (Shard.SoundMsg cfg)
      (Shard.init cfg basePrice tickSize shardId symbols) msgs) :
    ∃ sh, run (Shard.receive cfg) (Shard.init cfg basePrice tickSize shardId symbols) msgs =
        .ok sh ∧ ∀ token, sh.CancelHarmless cfg token ↔ sh.Sound cfg token := by
  obtain ⟨sh, v, place, hrun, h⟩ := sound_run cfg basePrice tickSize shardId symbols hsound
  exact ⟨sh, hrun, h.cancel_harmless_iff⟩

/-- A buyer of symbol 0 who cancels with the token of the Ack, slot 3 of generation 0. -/
theorem sound_cancels_harmless_buyer :
    ∃ sh, run (Shard.receive smallShard) (Shard.init smallShard 100 1 0 (allSymbols smallShard))
        [.newOrder (limitOrder 1 Side.buy 103 5), .cancel ⟨⟨16, .cancelOrder, 0, 7⟩, 3⟩] =
          .ok sh ∧ sh.CancelHarmless smallShard 3 := by
  obtain ⟨sh, hrun, hiff⟩ := sound_cancels_harmless smallShard 100 1 0 (allSymbols smallShard)
    [.newOrder (limitOrder 1 Side.buy 103 5), .cancel ⟨⟨16, .cancelOrder, 0, 7⟩, 3⟩]
    ⟨trivial, fun sh hsh => by
      cases hsh
      exact ⟨Or.inr (Or.inr (Or.inr ⟨0, .bid, 3, List.mem_singleton.mpr rfl⟩)),
        fun _ _ => trivial⟩⟩
  cases hrun
  exact ⟨_, rfl, (hiff 3).mpr (Or.inr (Or.inl (by decide)))⟩

/-- Token 0 names slot 0 in its first generation. On a fresh shard that slot is free, and the
    zero record in it is of symbol 0 at price 0, which is off the ladder: the cancel indexes a
    level out of range. -/
theorem forged_token_breaks_shard :
    ¬ ∀ msgs sh, run (Shard.receive smallShard)
        (Shard.init smallShard 100 1 0 (allSymbols smallShard)) msgs = .ok sh →
      ∀ token, sh.CancelHarmless smallShard token := by
  intro hall
  obtain ⟨sh', out, hrun, -⟩ := hall [] _ rfl 0 ⟨16, .cancelOrder, 0, 7⟩
  have hfault : Shard.tick smallShard (Shard.init smallShard 100 1 0 (allSymbols smallShard))
      (some (.cancel ⟨⟨16, .cancelOrder, 0, 7⟩, 0⟩)) = .error .outOfRange := rfl
  rw [hfault] at hrun
  cases hrun

end LiteExchange.Engine

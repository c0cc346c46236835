/-
  One matching shard (`engine/shard.hpp`): a floor of books over one arena, the table from
  global symbol ids to books, and the message handlers of `tick`.

  `tick` takes the result of `inbound_.pop` and returns the messages handed to `push_out`, in
  order. `push_out` spins until the outbound ring has room, so every message is pushed and
  only its time depends on the consumer.

  `symbolTable_ok`: the table the constructor builds gives hosted symbols books of their own.
-/
import LiteExchange.Book.OrderBook
import LiteExchange.Proto.Layout

namespace LiteExchange.Engine

open Lib Proto Book

/-- `ShardConfig`, less the ring depth. -/
structure ShardConfig extends Dims where
  maxSymbols : UInt16
  symbolSpace : UInt16

/-- `MAX_FILLS_PER_ORDER`. -/
def maxFillsPerOrder : Nat := 64

/-- `NO_BOOK`. -/
def noBook : Nat := 2 ^ 16 - 1

/-- `SYMBOL_SPACE`. -/
def ShardConfig.space (cfg : ShardConfig) : Nat :=
  if cfg.symbolSpace ≠ 0 then cfg.symbolSpace.toNat else cfg.maxSymbols.toNat

/-- The number of books. -/
def ShardConfig.K (cfg : ShardConfig) : Nat := cfg.maxSymbols.toNat

/-- A symbol list that meets the constructor's two assertions. -/
structure SymbolList (cfg : ShardConfig) where
  ids : List UInt16
  fits : ids.length ≤ cfg.K
  inSpace : ∀ s ∈ ids, s.toNat < cfg.space

structure Shard where
  floor : Floor
  localOf : Nat → Nat
  shardId : UInt8

/-- The constructor's loop over a non-empty symbol list: `local_of_[s] = next++`. -/
def assignBooks : List UInt16 → Nat → (Nat → Nat) → (Nat → Nat)
  | [], _, t => t
  | s :: ss, next, t => assignBooks ss (next + 1) (Function.update t s.toNat next)

/-- The symbol table the constructor builds. An empty list is the identity mapping. -/
def symbolTable (cfg : ShardConfig) (symbols : List UInt16) : Nat → Nat :=
  if symbols = [] then fun s => if s < cfg.K ∧ s < cfg.space then s else noBook
  else assignBooks symbols 0 fun _ => noBook

/-- `Shard(base_price, tick_size, shard_id, symbols)`. -/
def Shard.init (cfg : ShardConfig) (basePrice tickSize : Int64) (shardId : UInt8)
    (symbols : SymbolList cfg) : Shard :=
  ⟨Floor.init cfg.N basePrice tickSize, symbolTable cfg symbols.ids, shardId⟩

/-- `local_book(symbol)`. -/
def Shard.localBook (cfg : ShardConfig) (sh : Shard) (symbol : UInt16) : Nat :=
  if symbol.toNat < cfg.space then sh.localOf symbol.toNat else noBook

/-- `best_bid(symbol)`. -/
def Shard.bestBid (cfg : ShardConfig) (sh : Shard) (symbol : UInt16) : Int64 :=
  if sh.localBook cfg symbol = noBook then Int64.minValue
  else (sh.floor.books (sh.localBook cfg symbol)).bestBidPrice

/-- `best_ask(symbol)`. -/
def Shard.bestAsk (cfg : ShardConfig) (sh : Shard) (symbol : UInt16) : Int64 :=
  if sh.localBook cfg symbol = noBook then Int64.maxValue
  else (sh.floor.books (sh.localBook cfg symbol)).bestAskPrice

/-! ## Emitting -/

/-- `emit_fill`: to the passive owner, and to the aggressor unless it is the same session. -/
def emitFill (fill : Fill) (aggressorSession : UInt32) : List OutboundMsg :=
  if aggressorSession ≠ fill.hdr.sessionId then
    [.fill fill, .fill { fill with hdr := { fill.hdr with sessionId := aggressorSession } }]
  else [.fill fill]

/-- `emit_ack`. -/
def emitAck (orderId token : UInt64) (sessionId : UInt32) : OutboundMsg :=
  .ack ⟨⟨24, .ack, 0, sessionId⟩, orderId, token⟩

/-- `emit_reject`. -/
def emitReject (orderId : UInt64) (reason : RejectReason) (sessionId : UInt32) : OutboundMsg :=
  .reject ⟨⟨24, .reject, 0, sessionId⟩, orderId, reason⟩

/-! ## Handlers -/

/-- `handle_new(order, session_id)`. -/
def Shard.handleNew (cfg : ShardConfig) (sh : Shard) (order : NewOrder) (sessionId : UInt32) :
    Except Fault (Shard × List OutboundMsg) := do
  let book := sh.localBook cfg order.symbolId
  if book = noBook then
    return (sh, [emitReject order.orderId .unknownSymbol sessionId])
  let _ ← fetch cfg.K sh.floor.books book
  let r ← sh.floor.addOrder cfg.toDims book order maxFillsPerOrder
  let fills := r.fills.flatMap fun f => emitFill f sessionId
  -- resting order: Ack carries the cancel token
  let ack := if r.handle.valid then [emitAck order.orderId (r.handle.toToken sh.shardId) sessionId]
    else []
  return ({ sh with floor := r.floor }, fills ++ ack)

/-- `handle_cancel(cancel, session_id)`. Slot and generation are validated before the slot's
    symbol is read. -/
def Shard.handleCancel (cfg : ShardConfig) (sh : Shard) (cancel : CancelOrder)
    (sessionId : UInt32) : Except Fault (Shard × List OutboundMsg) := do
  let h := OrderHandle.fromToken cancel.orderToken
  if cfg.N ≤ h.slot ∨ sh.floor.pool.gen h.slot ≠ h.gen then
    return (sh, [emitReject 0 .unknownOrder sessionId])
  let o ← fetch cfg.N sh.floor.pool.slots h.slot
  let book := sh.localBook cfg o.symbol
  if book = noBook then
    return (sh, [emitReject 0 .unknownOrder sessionId])
  let _ ← fetch cfg.K sh.floor.books book
  let (done, floor) ← sh.floor.cancelOrder cfg.toDims book h
  if done then
    return ({ sh with floor := floor }, [emitAck 0 cancel.orderToken sessionId])
  else
    return ({ sh with floor := floor }, [emitReject 0 .unknownOrder sessionId])

/-- `tick()`, given what `inbound_.pop` delivered. -/
def Shard.tick (cfg : ShardConfig) (sh : Shard) : Option InboundMsg →
    Except Fault (Shard × List OutboundMsg)
  | none => .ok (sh, [])
  | some (.newOrder m) => sh.handleNew cfg m m.hdr.sessionId
  | some (.cancel m) => sh.handleCancel cfg m m.hdr.sessionId
  | some (.other _) => .ok (sh, [])  -- unknown type: drop

/-! ## What the handlers answer -/

section Handlers

variable {cfg : ShardConfig} {sh : Shard}

/-- The messages sent for a new order: its fills, and an Ack if it rests. -/
def reportOf (shardId : UInt8) (order : NewOrder) (r : AddResult) (sessionId : UInt32) :
    List OutboundMsg :=
  (r.fills.flatMap fun f => emitFill f sessionId) ++
    if r.handle.valid then [emitAck order.orderId (r.handle.toToken shardId) sessionId] else []

theorem handleNew_unhosted {m : NewOrder} (hb : sh.localBook cfg m.symbolId = noBook)
    (sessionId : UInt32) : sh.handleNew cfg m sessionId =
      .ok (sh, [emitReject m.orderId .unknownSymbol sessionId]) := by
  rw [Shard.handleNew, if_pos hb]
  rfl

theorem handleNew_hosted {m : NewOrder} (hb : sh.localBook cfg m.symbolId ≠ noBook)
    (hK : sh.localBook cfg m.symbolId < cfg.K) {r : AddResult}
    (hr : sh.floor.addOrder cfg.toDims (sh.localBook cfg m.symbolId) m maxFillsPerOrder = .ok r)
    (sessionId : UInt32) : sh.handleNew cfg m sessionId =
      .ok ({ sh with floor := r.floor }, reportOf sh.shardId m r sessionId) := by
  rw [Shard.handleNew, if_neg hb, fetch_of_lt _ hK, ok_bind, hr, ok_bind]
  rfl

theorem handleCancel_stale {c : CancelOrder}
    (hs : cfg.N ≤ (OrderHandle.fromToken c.orderToken).slot ∨
      sh.floor.pool.gen (OrderHandle.fromToken c.orderToken).slot ≠
        (OrderHandle.fromToken c.orderToken).gen)
    (sessionId : UInt32) : sh.handleCancel cfg c sessionId =
      .ok (sh, [emitReject 0 .unknownOrder sessionId]) := by
  rw [Shard.handleCancel]
  exact if_pos hs

/-- A token that passes the check is handed to the book of the slot's symbol. -/
theorem handleCancel_checked {c : CancelOrder} {h : OrderHandle}
    (hc : OrderHandle.fromToken c.orderToken = h) (hN : h.slot < cfg.N)
    (hgen : sh.floor.pool.gen h.slot = h.gen) (sessionId : UInt32) :
    sh.handleCancel cfg c sessionId =
      if sh.localBook cfg (sh.floor.pool.slots h.slot).symbol = noBook then
        .ok (sh, [emitReject 0 .unknownOrder sessionId])
      else do
        let _ ← fetch cfg.K sh.floor.books (sh.localBook cfg (sh.floor.pool.slots h.slot).symbol)
        let (done, floor) ← sh.floor.cancelOrder cfg.toDims
          (sh.localBook cfg (sh.floor.pool.slots h.slot).symbol) h
        if done then
          return ({ sh with floor := floor }, [emitAck 0 c.orderToken sessionId])
        else
          return ({ sh with floor := floor }, [emitReject 0 .unknownOrder sessionId]) := by
  subst hc
  have hpass : ¬ (cfg.N ≤ (OrderHandle.fromToken c.orderToken).slot ∨
      sh.floor.pool.gen (OrderHandle.fromToken c.orderToken).slot ≠
        (OrderHandle.fromToken c.orderToken).gen) := by
    rw [not_or, Nat.not_le, not_ne_iff]
    exact ⟨hN, hgen⟩
  rw [Shard.handleCancel, if_neg hpass, fetch_of_lt _ hN, ok_bind]
  rfl

theorem handleCancel_done {c : CancelOrder} {h : OrderHandle} {b : Nat} {fl : Floor}
    (hc : OrderHandle.fromToken c.orderToken = h) (hN : h.slot < cfg.N)
    (hgen : sh.floor.pool.gen h.slot = h.gen)
    (hb : sh.localBook cfg (sh.floor.pool.slots h.slot).symbol = b) (hne : b ≠ noBook)
    (hK : b < cfg.K) (hrun : sh.floor.cancelOrder cfg.toDims b h = .ok (true, fl))
    (sessionId : UInt32) : sh.handleCancel cfg c sessionId =
      .ok ({ sh with floor := fl }, [emitAck 0 c.orderToken sessionId]) := by
  rw [handleCancel_checked hc hN hgen, hb, if_neg hne, fetch_of_lt _ hK, ok_bind, hrun, ok_bind]
  rfl

/-- What one message makes a shard send: a fill is reported at most twice. -/
theorem length_emitFills (fills : List Fill) (sessionId : UInt32) :
    (fills.flatMap fun f => emitFill f sessionId).length ≤ 2 * fills.length := by
  induction fills with
  | nil => exact Nat.le_refl _
  | cons f fills ih =>
    have hone : (emitFill f sessionId).length ≤ 2 := by
      unfold emitFill
      split
      · exact Nat.le_refl 2
      · exact Nat.le_succ 1
    rw [List.flatMap_cons, List.length_append, List.length_cons]
    omega

/-- In any state, `tick` sends at most `2 * MAX_FILLS_PER_ORDER + 1` messages. -/
theorem tick_count {m : Option InboundMsg} {sh' : Shard} {out : List OutboundMsg}
    (h : sh.tick cfg m = .ok (sh', out)) : out.length ≤ 2 * maxFillsPerOrder + 1 := by
  match m with
  | none =>
    cases h
    exact Nat.zero_le _
  | some (.other hdr) =>
    cases h
    exact Nat.zero_le _
  | some (.newOrder m) =>
    unfold Shard.tick Shard.handleNew at h
    dsimp only at h
    split at h
    · cases h
      exact Nat.succ_le_succ (Nat.zero_le _)
    · obtain ⟨book, -, h⟩ := bind_eq_ok h
      obtain ⟨r, hadd, h⟩ := bind_eq_ok h
      have hcount := (addOrder_sessions hadd).count
      have hfills := length_emitFills r.fills m.hdr.sessionId
      cases h
      rw [List.length_append]
      split
      · rw [List.length_singleton]
        omega
      · rw [List.length_nil]
        omega
  | some (.cancel c) =>
    have hone : out.length = 1 := by
      unfold Shard.tick Shard.handleCancel at h
      dsimp only at h
      split at h
      · cases h
        rfl
      · obtain ⟨o, -, h⟩ := bind_eq_ok h
        split at h
        · cases h
          rfl
        · obtain ⟨book, -, h⟩ := bind_eq_ok h
          obtain ⟨⟨done, fl⟩, -, h⟩ := bind_eq_ok h
          dsimp only at h
          split at h <;> cases h <;> rfl
    rw [hone]
    exact Nat.succ_le_succ (Nat.zero_le _)

/-- A message of `emit_fill` has the header of a fill and is for its owner or for the aggressor. -/
theorem emitFill_sends {f : Fill} {owner sessionId : UInt32} {m : OutboundMsg}
    (hf : f.hdr = ⟨40, .fill, 0, owner⟩) (hm : m ∈ emitFill f sessionId) :
    m.Sound ∧ (m.hdr.sessionId = sessionId ∨ m.hdr.sessionId = owner) := by
  unfold emitFill at hm
  rw [hf] at hm
  split at hm
  · rcases List.mem_pair.mp hm with rfl | rfl
    · exact ⟨⟨by rw [hf], by rw [hf]⟩, .inr (by rw [OutboundMsg.hdr, hf])⟩
    · exact ⟨⟨rfl, rfl⟩, .inl rfl⟩
  · rw [List.mem_singleton.mp hm]
    exact ⟨⟨by rw [hf], by rw [hf]⟩, .inr (by rw [OutboundMsg.hdr, hf])⟩

/-- What `tick` sends, whatever the state: messages that say their own type and size, to the sender
    and to the sessions of slots. The session of a slot stays or becomes the sender's. -/
structure TickSends (sh : Shard) (msg : InboundMsg) (sh' : Shard) (out : List OutboundMsg) :
    Prop where
  sound : ∀ m ∈ out, m.Sound
  sent : ∀ m ∈ out, m.hdr.sessionId = msg.hdr.sessionId ∨
    ∃ s, m.hdr.sessionId = sh.floor.session s
  slots : ∀ s, sh'.floor.session s = msg.hdr.sessionId ∨
    sh'.floor.session s = sh.floor.session s

/-- One message to the sender. -/
theorem tickSends_one {msg : InboundMsg} {sh' : Shard} {m : OutboundMsg} (hm : m.Sound)
    (hsession : m.hdr.sessionId = msg.hdr.sessionId)
    (hslots : sh'.floor.session = sh.floor.session) : TickSends sh msg sh' [m] := by
  refine ⟨fun m' hm' => ?_, fun m' hm' => ?_, fun s => .inr (by rw [hslots])⟩
  · rw [List.mem_singleton.mp hm']
    exact hm
  · rw [List.mem_singleton.mp hm']
    exact .inl hsession

theorem handleNew_sends {order : NewOrder} {sh' : Shard} {out : List OutboundMsg}
    (h : sh.handleNew cfg order order.hdr.sessionId = .ok (sh', out)) :
    TickSends sh (.newOrder order) sh' out := by
  unfold Shard.handleNew at h
  dsimp only at h
  split at h
  · cases h
    exact tickSends_one ⟨rfl, rfl⟩ rfl rfl
  · obtain ⟨book, -, h⟩ := bind_eq_ok h
    obtain ⟨r, hadd, h⟩ := bind_eq_ok h
    have hsessions := addOrder_sessions hadd
    cases h
    have hboth : ∀ m ∈ reportOf sh.shardId order r order.hdr.sessionId, m.Sound ∧
        (m.hdr.sessionId = order.hdr.sessionId ∨ ∃ s, m.hdr.sessionId = sh.floor.session s) := by
      intro m hm
      rcases List.mem_append.mp hm with hm | hm
      · obtain ⟨f, hf, hm⟩ := List.mem_flatMap.mp hm
        obtain ⟨owner, hhdr, howner⟩ := hsessions.fills f hf
        obtain ⟨hsound, hsession⟩ := emitFill_sends hhdr hm
        refine ⟨hsound, ?_⟩
        rcases hsession with he | he
        · exact .inl he
        · rw [he]
          exact howner
      · split at hm
        · rw [List.mem_singleton.mp hm]
          exact ⟨⟨rfl, rfl⟩, .inl rfl⟩
        · cases hm
    exact ⟨fun m hm => (hboth m hm).1, fun m hm => (hboth m hm).2, hsessions.slots⟩

theorem cancelOrder_session {d : Dims} {fl fl' : Floor} {b : Nat} {h : OrderHandle} {done : Bool}
    (hrun : fl.cancelOrder d b h = .ok (done, fl')) : fl'.session = fl.session := by
  unfold Floor.cancelOrder at hrun
  split at hrun
  · cases hrun
    rfl
  · obtain ⟨o, -, hrun⟩ := bind_eq_ok hrun
    obtain ⟨⟨half, slots⟩, -, hrun⟩ := bind_eq_ok hrun
    obtain ⟨pool, -, hrun⟩ := bind_eq_ok hrun
    cases hrun
    rfl

theorem handleCancel_sends {c : CancelOrder} {sh' : Shard} {out : List OutboundMsg}
    (h : sh.handleCancel cfg c c.hdr.sessionId = .ok (sh', out)) :
    TickSends sh (.cancel c) sh' out := by
  unfold Shard.handleCancel at h
  dsimp only at h
  split at h
  · cases h
    exact tickSends_one ⟨rfl, rfl⟩ rfl rfl
  · obtain ⟨o, -, h⟩ := bind_eq_ok h
    split at h
    · cases h
      exact tickSends_one ⟨rfl, rfl⟩ rfl rfl
    · obtain ⟨book, -, h⟩ := bind_eq_ok h
      obtain ⟨⟨done, fl⟩, hcancel, h⟩ := bind_eq_ok h
      have hsession := cancelOrder_session hcancel
      dsimp only at h
      split at h <;> cases h <;> exact tickSends_one ⟨rfl, rfl⟩ rfl hsession

theorem tick_sends {msg : InboundMsg} {sh' : Shard} {out : List OutboundMsg}
    (h : sh.tick cfg (some msg) = .ok (sh', out)) : TickSends sh msg sh' out := by
  cases msg with
  | newOrder m => exact handleNew_sends h
  | cancel c => exact handleCancel_sends h
  | other hdr =>
    cases h
    exact ⟨nofun, nofun, fun s => .inr rfl⟩

end Handlers

/-! ## The symbol table -/

/-- Different hosted symbols have different books, all below `next`. -/
structure TableOk (next : Nat) (t : Nat → Nat) : Prop where
  lt : ∀ s, t s = noBook ∨ t s < next
  inj : ∀ s s', t s ≠ noBook → t s = t s' → s = s'

theorem TableOk.assign {next : Nat} {t : Nat → Nat} (h : TableOk next t) (s : Nat) :
    TableOk (next + 1) (Function.update t s next) := by
  refine ⟨fun x => ?_, fun x y hx he => ?_⟩
  · by_cases hxs : x = s
    · rw [hxs, Function.update_self]
      exact Or.inr (Nat.lt_succ_self next)
    · rw [Function.update_of_ne hxs]
      exact (h.lt x).imp_right Nat.lt_succ_of_lt
  · by_cases hxs : x = s <;> by_cases hys : y = s
    · rw [hxs, hys]
    -- an entry below `next` against the new one
    · rw [hxs, Function.update_self, Function.update_of_ne hys] at he
      rw [hxs, Function.update_self, he] at hx
      have := (h.lt y).resolve_left hx
      omega
    · rw [Function.update_of_ne hxs] at hx
      rw [hys, Function.update_self, Function.update_of_ne hxs] at he
      have := (h.lt x).resolve_left hx
      omega
    · rw [Function.update_of_ne hxs] at hx
      rw [Function.update_of_ne hxs, Function.update_of_ne hys] at he
      exact h.inj x y hx he

theorem assignBooks_ok {ss : List UInt16} {next : Nat} {t : Nat → Nat} (h : TableOk next t) :
    TableOk (next + ss.length) (assignBooks ss next t) := by
  induction ss generalizing next t with
  | nil => exact h
  | cons s ss ih =>
    rw [List.length_cons, Nat.add_comm ss.length, ← Nat.add_assoc]
    exact ih (h.assign s.toNat)

theorem symbolTable_ok (cfg : ShardConfig) (symbols : SymbolList cfg) :
    TableOk cfg.K (symbolTable cfg symbols.ids) := by
  rw [symbolTable]
  split
  · refine ⟨fun s => ?_, fun s s' hs he => ?_⟩
    · by_cases h : s < cfg.K ∧ s < cfg.space
      · rw [if_pos h]
        exact Or.inr h.1
      · exact Or.inl (if_neg h)
    · have hs1 : s < cfg.K ∧ s < cfg.space := by
        by_contra h
        exact hs (if_neg h)
      rw [if_pos hs1] at he hs
      by_cases h : s' < cfg.K ∧ s' < cfg.space
      · rwa [if_pos h] at he
      · rw [if_neg h] at he
        exact absurd he hs
  · have h := @assignBooks_ok symbols.ids 0 _ ⟨fun _ => Or.inl rfl, fun _ _ h _ => absurd rfl h⟩
    refine ⟨fun s => (h.lt s).imp_right fun hlt => ?_, h.inj⟩
    have := symbols.fits
    omega

section LocalBook

variable {cfg : ShardConfig} {symbols : SymbolList cfg} {sh : Shard}

theorem Shard.localBook_lt (h : sh.localOf = symbolTable cfg symbols.ids) {s : UInt16}
    (hs : sh.localBook cfg s ≠ noBook) : sh.localBook cfg s < cfg.K := by
  rw [Shard.localBook] at hs ⊢
  split at hs
  · rename_i hspace
    rw [if_pos hspace]
    rw [h] at hs ⊢
    exact ((symbolTable_ok cfg symbols).lt _).resolve_left hs
  · exact absurd rfl hs

theorem Shard.localBook_inj (h : sh.localOf = symbolTable cfg symbols.ids) {s s' : UInt16}
    (hs : sh.localBook cfg s ≠ noBook) (he : sh.localBook cfg s = sh.localBook cfg s') :
    s = s' := by
  have hs' := he ▸ hs
  rw [Shard.localBook] at hs hs'
  split at hs
  · split at hs'
    · rename_i hspace hspace'
      rw [Shard.localBook, Shard.localBook, if_pos hspace, if_pos hspace', h] at he
      rw [h] at hs
      exact UInt16.toNat_inj.mp ((symbolTable_ok cfg symbols).inj _ _ hs he)
    · exact absurd rfl hs'
  · exact absurd rfl hs

/-- The books of a list, and those assigned before. -/
theorem assignBooks_ne {ss : List UInt16} {next : Nat} {t : Nat → Nat}
    (hnext : next + ss.length ≤ noBook) (s : UInt16) :
    assignBooks ss next t s.toNat ≠ noBook ↔ s ∈ ss ∨ t s.toNat ≠ noBook := by
  induction ss generalizing next t with
  | nil => simp [assignBooks]
  | cons a ss ih =>
    rw [List.length_cons] at hnext
    unfold assignBooks
    rw [ih (by omega), List.mem_cons]
    rcases eq_or_ne s a with rfl | hne
    · rw [Function.update_self]
      exact iff_of_true (.inr (by omega)) (.inl (.inl rfl))
    · rw [Function.update_of_ne fun e => hne (UInt16.toNat_inj.mp e), or_assoc]
      exact (or_iff_right hne).symm

/-- A shard built from a symbol list hosts the symbols of the list. -/
theorem Shard.localBook_init_ne (cfg : ShardConfig) (basePrice tickSize : Int64) (shardId : UInt8)
    (symbols : SymbolList cfg) (hne : symbols.ids ≠ []) (s : UInt16) :
    (Shard.init cfg basePrice tickSize shardId symbols).localBook cfg s ≠ noBook ↔
      s ∈ symbols.ids := by
  have hK : symbols.ids.length ≤ noBook := by
    have hfits := symbols.fits
    have hlt : cfg.maxSymbols.toNat < 2 ^ 16 := cfg.maxSymbols.toNat_lt
    unfold ShardConfig.K at hfits
    unfold noBook
    omega
  have htable : (Shard.init cfg basePrice tickSize shardId symbols).localOf s.toNat ≠ noBook ↔
      s ∈ symbols.ids := by
    unfold Shard.init symbolTable
    dsimp only
    rw [if_neg hne, assignBooks_ne (by omega), or_iff_left (not_not_intro rfl)]
  unfold Shard.localBook
  split
  · exact htable
  · rename_i hspace
    exact iff_of_false (not_not_intro rfl) fun hs => hspace (symbols.inSpace s hs)

end LocalBook

/-! ## A small shard, for the runs on fixed inputs -/

/-- Two books of eight levels over four slots. -/
def smallShard : ShardConfig :=
  { maxOrders := 4, ladderSize := 8, words_fit := eight_levels_fit, maxSymbols := 2,
    symbolSpace := 0 }

/-- The identity mapping. -/
def allSymbols (cfg : ShardConfig) : SymbolList cfg := ⟨[], Nat.zero_le _, by simp⟩

end LiteExchange.Engine

/-
  Runs of a shard. A `Log` is a shard with the record of a run: what it sent for each message,
  the token in the Ack of each new order, and for each slot the order last put into it. Messages
  carry labels, different ones for different messages, that name the orders of the run; nothing
  in the shard reads them.

  * `LogRep`: behind a log there is a `Desk`, run by the calls the shard made, so what is proved
    of call sequences holds of the shard. The tokens the shard sent are those of the handles the
    calls returned.
  * `LogRep.receive`: with at most `2^24` slots, a shard whose cancels are `Genuine` (their token
    was sent in an Ack) keeps this, and `Handled` lists what one message does.
-/
import LiteExchange.Book.Refinement
import LiteExchange.Book.Token
import LiteExchange.Engine.Shard

namespace LiteExchange.Engine

open Lib Proto Book

/-! ## Logs -/

/-- The arguments of a shard's constructor. -/
structure Setup where
  cfg : ShardConfig
  basePrice : Int64
  tickSize : Int64
  shardId : UInt8
  symbols : SymbolList cfg

/-- A shard and the record of its run. -/
structure Log where
  shard : Shard
  sent : List (List OutboundMsg)
  owner : Nat → Nat
  tokenOf : Nat → Option UInt64

def Setup.shard (su : Setup) : Shard :=
  Shard.init su.cfg su.basePrice su.tickSize su.shardId su.symbols

def Log.init (su : Setup) : Log := ⟨su.shard, [], fun _ => 0, fun _ => none⟩

/-- The token of an Ack. -/
def ackToken : OutboundMsg → Option UInt64
  | .ack a => some a.orderToken
  | _ => none

/-- The token sent for a new order, if it was acknowledged. -/
def newToken : InboundMsg → List OutboundMsg → Option UInt64
  | .newOrder _, out => out.findSome? ackToken
  | _, _ => none

/-- The record after a message labelled `k`. A new order is put into the top free slot. -/
def Log.record (lg : Log) (k : Nat) (token : Option UInt64) (sh : Shard)
    (out : List OutboundMsg) : Log where
  shard := sh
  sent := lg.sent ++ [out]
  owner := if token.isSome then Function.update lg.owner lg.shard.floor.pool.top k else lg.owner
  tokenOf := if token.isSome then Function.update lg.tokenOf k token else lg.tokenOf

/-- One labelled message. -/
def Log.receive (cfg : ShardConfig) (lg : Log) (x : Nat × InboundMsg) : Except Fault Log := do
  let (sh, out) ← lg.shard.tick cfg (some x.2)
  return lg.record x.1 (newToken x.2 out) sh out

/-- The tokens of all Acks sent so far. -/
def Log.acked (lg : Log) : List UInt64 := lg.sent.flatten.filterMap ackToken

/-- A cancel carries a token of an earlier Ack. -/
def Log.Genuine (lg : Log) (x : Nat × InboundMsg) : Prop :=
  match x.2 with
  | .cancel c => c.orderToken ∈ lg.acked
  | _ => True

instance (lg : Log) : ∀ x : Nat × InboundMsg, Decidable (lg.Genuine x)
  | (_, .newOrder _) => isTrue trivial
  | (_, .cancel c) => inferInstanceAs (Decidable (c.orderToken ∈ lg.acked))
  | (_, .other _) => isTrue trivial

/-! ## Calls behind a log -/

/-- The log of the messages `xs`, and the desk whose call `j` was made for the message labelled
    `lab j`. -/
structure LogRep (su : Setup) (xs : List (Nat × InboundMsg)) (lg : Log) (dk : Desk)
    (lab : Nat → Nat) (v : View) (place : Nat → Place) : Prop where
  desk : DeskRep su.cfg.toDims su.basePrice su.tickSize dk v place
  tagged : Tagged su.cfg.toDims dk place xs.length
  floor : lg.shard.floor = dk.floor
  table : lg.shard.localOf = symbolTable su.cfg su.symbols.ids
  id : lg.shard.shardId = su.shardId
  calls : ∀ j p, dk.placed[j]? = some p → (lab j, .newOrder p.msg) ∈ xs ∧
    lg.shard.localBook su.cfg p.msg.symbolId = p.book ∧ p.book ≠ noBook
  valid : ∀ (j : Nat) p, dk.placed[j]? = some p → p.handle.valid = true →
    p.handle.slot < su.cfg.N
  inj : ∀ j j', j < dk.placed.length → j' < dk.placed.length → lab j = lab j' → j = j'
  owner : ∀ s b S i, place s = .level b S i → lg.owner s = lab (dk.owner s)
  token : ∀ k t, lg.tokenOf k = some t ↔ ∃ j p, dk.placed[j]? = some p ∧
    p.handle.valid = true ∧ lab j = k ∧ p.handle.toToken su.shardId = t
  acked : ∀ t ∈ lg.acked, ∃ k, lg.tokenOf k = some t
  once : ∀ k k' t, lg.tokenOf k = some t → lg.tokenOf k' = some t → k = k'

theorem logRep_init (su : Setup) : LogRep su [] (Log.init su)
    (Desk.init su.cfg.toDims su.basePrice su.tickSize) (fun _ => 0) (fun _ _ _ => [])
    (fun s => if s < su.cfg.N then .free else .outside) where
  desk := deskRep_init su.cfg.toDims su.basePrice su.tickSize
  tagged := tagged_init su.cfg.toDims su.basePrice su.tickSize
  floor := rfl
  table := rfl
  id := rfl
  calls := fun j p hp => by simp [Desk.init] at hp
  valid := fun j p hp => by simp [Desk.init] at hp
  inj := fun j j' hj => absurd hj (Nat.not_lt_zero _)
  owner := fun s b S i hs => by by_cases hN : s < su.cfg.N <;> simp [hN] at hs
  token := fun k t => ⟨fun h => (Option.some_ne_none t h.symm).elim, fun ⟨j, p, hp, _⟩ => by
    simp [Desk.init] at hp⟩
  acked := fun t ht => absurd ht List.not_mem_nil
  once := fun k k' t h => (Option.some_ne_none t h.symm).elim

/-! ## What one message does to the record -/

theorem acks_report (shardId : UInt8) (m : NewOrder) (r : AddResult) (sessionId : UInt32) :
    (reportOf shardId m r sessionId).filterMap ackToken =
      if r.handle.valid then [r.handle.toToken shardId] else [] := by
  have hfills : (r.fills.flatMap fun f => emitFill f sessionId).filterMap ackToken = [] := by
    rw [List.filterMap_eq_nil_iff]
    intro o ho
    obtain ⟨f, -, hf⟩ := List.mem_flatMap.mp ho
    rw [emitFill] at hf
    split at hf
    · rcases List.mem_pair.mp hf with rfl | rfl <;> rfl
    · rw [List.mem_singleton.mp hf]
      rfl
  rw [reportOf, List.filterMap_append, hfills, List.nil_append]
  split <;> rfl

theorem newToken_report (shardId : UInt8) (m : NewOrder) (r : AddResult) (sessionId : UInt32) :
    newToken (.newOrder m) (reportOf shardId m r sessionId) =
      if r.handle.valid then some (r.handle.toToken shardId) else none := by
  rw [newToken, ← List.head?_filterMap, acks_report]
  split <;> rfl

theorem Log.owner_call (lg : Log) (k : Nat) (shardId : UInt8) (m : NewOrder) (r : AddResult)
    (sessionId : UInt32) (sh : Shard) (out : List OutboundMsg) :
    (lg.record k (newToken (.newOrder m) (reportOf shardId m r sessionId)) sh out).owner =
      if r.handle.valid then Function.update lg.owner lg.shard.floor.pool.top k else lg.owner := by
  dsimp only [Log.record]
  rw [newToken_report]
  cases r.handle.valid <;> rfl

theorem Log.acked_record (lg : Log) (k : Nat) (token : Option UInt64) (sh : Shard)
    (out : List OutboundMsg) :
    (lg.record k token sh out).acked = lg.acked ++ out.filterMap ackToken := by
  rw [Log.acked, Log.record, List.flatten_append, List.filterMap_append, List.flatten_singleton]
  rfl

section Record

variable {su : Setup} {xs : List (Nat × InboundMsg)} {lg : Log} {dk : Desk} {lab : Nat → Nat}
variable {v : View} {place : Nat → Place}

/-- A message that makes no `add_order` call. -/
theorem LogRep.keep (h : LogRep su xs lg dk lab v place) (x : Nat × InboundMsg) {fl : Floor}
    {out : List OutboundMsg} {dk' : Desk} {v' : View} {place' : Nat → Place}
    (hdesk : DeskRep su.cfg.toDims su.basePrice su.tickSize dk' v' place')
    (htag : Tagged su.cfg.toDims dk' place' (xs.length + 1)) (hfloor : fl = dk'.floor)
    (hplaced : dk'.placed = dk.placed) (howner : dk'.owner = dk.owner)
    (hplace : ∀ s b S i, place' s = .level b S i → place s = .level b S i)
    (hack : ∀ t ∈ out.filterMap ackToken, ∃ k, lg.tokenOf k = some t) :
    LogRep su (xs ++ [x]) (lg.record x.1 none { lg.shard with floor := fl } out) dk' lab v'
      place' where
  desk := hdesk
  tagged := by rwa [List.length_append, List.length_singleton]
  floor := hfloor
  table := h.table
  id := h.id
  calls := fun j p hp => by
    rw [hplaced] at hp
    obtain ⟨hmem, hbook⟩ := h.calls j p hp
    exact ⟨List.mem_append_left _ hmem, hbook⟩
  valid := hplaced ▸ h.valid
  inj := hplaced ▸ h.inj
  owner := fun s b S i hs => by
    rw [howner]
    exact h.owner s b S i (hplace s b S i hs)
  token := hplaced ▸ h.token
  acked := fun t ht => by
    rw [Log.acked_record, List.mem_append] at ht
    rcases ht with ht | ht
    · exact h.acked t ht
    · exact hack t ht
  once := h.once

/-- Equal tokens of two calls come from equal handles. -/
theorem LogRep.handle_of_token (h : LogRep su xs lg dk lab v place) (hN : su.cfg.N ≤ 2 ^ 24)
    {j : Nat} {p : Placed} (hp : dk.placed[j]? = some p) (hv : p.handle.valid = true) :
    OrderHandle.fromToken (p.handle.toToken su.shardId) = p.handle :=
  OrderHandle.fromToken_toToken ((h.valid j p hp hv).trans_le hN) su.shardId

theorem getElem?_placed {d : Dims} {b : Nat} {m : NewOrder} {r : AddResult} {j : Nat}
    {p : Placed} : (dk.added d b m r).placed[j]? = some p ↔ dk.placed[j]? = some p ∨
      (j = dk.placed.length ∧ p = ⟨b, m, decide (dk.floor.Admits d b m.price), r.handle⟩) := by
  dsimp only [Desk.added]
  rcases Nat.lt_trichotomy j dk.placed.length with hj | rfl | hj
  · rw [List.getElem?_append_left hj]
    exact ⟨Or.inl, fun hp => hp.resolve_right fun e => absurd e.1 (Nat.ne_of_lt hj)⟩
  · rw [List.getElem?_concat_length, List.getElem?_eq_none (Nat.le_refl _), Option.some_inj]
    exact ⟨fun e => Or.inr ⟨rfl, e.symm⟩, fun hp => (hp.resolve_left nofun).2.symm⟩
  · rw [List.getElem?_eq_none (by simp; omega), List.getElem?_eq_none (Nat.le_of_lt hj)]
    exact ⟨nofun, fun hp => absurd (hp.resolve_left nofun).1 (by omega)⟩

/-- The token of a slot that is free is new. -/
theorem LogRep.token_fresh (h : LogRep su xs lg dk lab v place) (hN : su.cfg.N ≤ 2 ^ 24)
    {s : Nat} (hfree : place s = .free) (hs : s < su.cfg.N) (k : Nat) :
    lg.tokenOf k ≠ some ((⟨s, dk.floor.pool.gen s⟩ : OrderHandle).toToken su.shardId) := by
  intro ht
  obtain ⟨j, p, hp, hv, -, htok⟩ := (h.token k _).mp ht
  have hsame : p.handle = ⟨s, dk.floor.pool.gen s⟩ := by
    rw [← h.handle_of_token hN hp hv, htok, OrderHandle.fromToken_toToken (hs.trans_le hN)]
  -- the earlier order would still rest there
  obtain ⟨-, hlive⟩ := h.tagged.past j p hp (h.valid j p hp hv)
  rw [hsame] at hlive
  obtain ⟨-, S, i, hpl⟩ := hlive rfl
  rw [hfree] at hpl
  cases hpl

theorem Log.tokenOf_call {k : Nat} (hk : lg.tokenOf k = none) (shardId : UInt8) (m : NewOrder)
    (r : AddResult) (sessionId : UInt32) (sh : Shard) (out : List OutboundMsg) (k' : Nat)
    (t : UInt64) :
    (lg.record k (newToken (.newOrder m) (reportOf shardId m r sessionId)) sh out).tokenOf k' =
        some t ↔ lg.tokenOf k' = some t ∨
      (r.handle.valid = true ∧ k = k' ∧ r.handle.toToken shardId = t) := by
  dsimp only [Log.record]
  rw [newToken_report]
  cases hv : r.handle.valid with
  | false => simp
  | true =>
    simp only [if_true, Option.isSome_some, true_and]
    by_cases he : k' = k
    · subst he
      simp [hk]
    · simp [Function.update_of_ne he, Ne.symm he]

/-- The calls so far were made for other messages than one with a new label. -/
theorem LogRep.lab_ne (h : LogRep su xs lg dk lab v place) {k j : Nat} (hk : k ∉ xs.map Prod.fst)
    (hj : j < dk.placed.length) : lab j ≠ k := by
  intro he
  have hmem := (h.calls _ _ (List.getElem?_eq_getElem hj)).1
  exact hk (he ▸ List.mem_map_of_mem hmem)

theorem LogRep.tokenOf_fresh (h : LogRep su xs lg dk lab v place) {k : Nat}
    (hk : k ∉ xs.map Prod.fst) : lg.tokenOf k = none := by
  rw [Option.eq_none_iff_forall_ne_some]
  intro t ht
  obtain ⟨j, p, hp, -, hj, -⟩ := (h.token k t).mp ht
  exact h.lab_ne hk (List.getElem?_eq_some_iff.mp hp).1 hj

/-- Different calls keep different labels. -/
theorem LogRep.update_inj (h : LogRep su xs lg dk lab v place) {k : Nat}
    (hk : k ∉ xs.map Prod.fst) {j j' : Nat} (hj : j < dk.placed.length + 1)
    (hj' : j' < dk.placed.length + 1) (he : Function.update lab dk.placed.length k j =
      Function.update lab dk.placed.length k j') : j = j' := by
  have hlab : ∀ {j}, j < dk.placed.length → Function.update lab dk.placed.length k j = lab j :=
    fun hj => Function.update_of_ne (Nat.ne_of_lt hj) ..
  rcases Nat.lt_succ_iff_lt_or_eq.mp hj with hj | rfl <;>
    rcases Nat.lt_succ_iff_lt_or_eq.mp hj' with hj' | rfl
  · rw [hlab hj, hlab hj'] at he
    exact h.inj j j' hj hj' he
  · rw [hlab hj, Function.update_self] at he
    exact absurd he (h.lab_ne hk hj)
  · rw [hlab hj', Function.update_self] at he
    exact absurd he.symm (h.lab_ne hk hj')
  · rfl

/-- The slots on lists are labelled by the messages of their calls. -/
theorem LogRep.call_owner (h : LogRep su xs lg dk lab v place) (k b : Nat) (m : NewOrder)
    {r : AddResult} {place' : Nat → Place}
    (hslot : r.handle.valid = true → r.handle.slot = dk.floor.pool.top)
    (hplace : ∀ s b' S i, place' s = .level b' S i →
      (s = dk.floor.pool.top ∧ r.handle.valid = true) ∨
        ((r.handle.valid = true → s ≠ dk.floor.pool.top) ∧ place s = .level b' S i))
    {s b' i : Nat} {S : SideClass} (hs : place' s = .level b' S i) :
    (if r.handle.valid then Function.update lg.owner lg.shard.floor.pool.top k else lg.owner) s =
      Function.update lab dk.placed.length k ((dk.added su.cfg.toDims b m r).owner s) := by
  rw [h.floor]
  dsimp only [Desk.added]
  rcases hplace s b' S i hs with ⟨rfl, hv⟩ | ⟨hs', hold⟩
  · rw [if_pos hv, if_pos hv, hslot hv, Function.update_self, Function.update_self,
      Function.update_self]
  · obtain ⟨q, hq⟩ := h.desk.names s b' S i hold
    have hlt : dk.owner s < dk.placed.length := (List.getElem?_eq_some_iff.mp hq.call).1
    have hlab : Function.update lab dk.placed.length k (dk.owner s) = lab (dk.owner s) :=
      Function.update_of_ne (Nat.ne_of_lt hlt) ..
    have hown := h.owner s b' S i hold
    by_cases hv : r.handle.valid = true
    · rw [if_pos hv, if_pos hv, hslot hv, Function.update_of_ne (hs' hv),
        Function.update_of_ne (hs' hv), hlab, hown]
    · rw [if_neg hv, if_neg hv, hlab, hown]

/-- A message labelled `k` that makes an `add_order` call with result `r`. -/
theorem LogRep.call (h : LogRep su xs lg dk lab v place) (hN : su.cfg.N ≤ 2 ^ 24) {k b : Nat}
    {m : NewOrder} {r : AddResult} {v' : View} {place' : Nat → Place}
    (hk : k ∉ xs.map Prod.fst) (hb : lg.shard.localBook su.cfg m.symbolId = b) (hne : b ≠ noBook)
    (hdesk : DeskRep su.cfg.toDims su.basePrice su.tickSize (dk.added su.cfg.toDims b m r) v' place')
    (htag : Tagged su.cfg.toDims (dk.added su.cfg.toDims b m r) place' (xs.length + 1))
    (hnew : r.handle.valid = true → place dk.floor.pool.top = .free ∧
      r.handle = ⟨dk.floor.pool.top, dk.floor.pool.gen dk.floor.pool.top⟩)
    (hplace : ∀ s b' S i, place' s = .level b' S i →
      (s = dk.floor.pool.top ∧ r.handle.valid = true) ∨
        ((r.handle.valid = true → s ≠ dk.floor.pool.top) ∧ place s = .level b' S i))
    (sessionId : UInt32) :
    LogRep su (xs ++ [(k, .newOrder m)]) (lg.record k
        (newToken (.newOrder m) (reportOf lg.shard.shardId m r sessionId))
        { lg.shard with floor := r.floor } (reportOf lg.shard.shardId m r sessionId))
      (dk.added su.cfg.toDims b m r) (Function.update lab dk.placed.length k) v' place' := by
  have hlt : ∀ {j : Nat} {p}, dk.placed[j]? = some p → j < dk.placed.length := fun hp =>
    (List.getElem?_eq_some_iff.mp hp).1
  have hlab : ∀ {j}, j < dk.placed.length → Function.update lab dk.placed.length k j = lab j :=
    fun hj => Function.update_of_ne (Nat.ne_of_lt hj) ..
  have htop : r.handle.valid = true → dk.floor.pool.top < su.cfg.N := fun hv =>
    h.desk.rep.threads.lt_of_place (by rw [(hnew hv).1]; simp)
  have hlen : (dk.added su.cfg.toDims b m r).placed.length = dk.placed.length + 1 :=
    List.length_append
  have htoken := Log.tokenOf_call (h.tokenOf_fresh hk) lg.shard.shardId m r sessionId
    { lg.shard with floor := r.floor } (reportOf lg.shard.shardId m r sessionId)
  refine ⟨hdesk, by rwa [List.length_append, List.length_singleton], rfl, h.table, h.id,
    fun j p hp => ?_, fun j p hp hv => ?_, fun j j' hj hj' he => h.update_inj hk (hlen ▸ hj)
      (hlen ▸ hj') he, fun s b' S i hs => ?_, fun k' t => ?_, fun t ht => ?_,
    fun k1 k2 t h1 h2 => ?_⟩
  · rcases getElem?_placed.mp hp with hp | ⟨rfl, rfl⟩
    · rw [hlab (hlt hp)]
      obtain ⟨hmem, hbook⟩ := h.calls j p hp
      exact ⟨List.mem_append_left _ hmem, hbook⟩
    · rw [Function.update_self]
      exact ⟨List.mem_append_right _ (List.mem_singleton.mpr rfl), hb, hne⟩
  · rcases getElem?_placed.mp hp with hp | ⟨rfl, rfl⟩
    · exact h.valid j p hp hv
    · dsimp only at hv ⊢
      rw [(hnew hv).2]
      exact htop hv
  · rw [Log.owner_call]
    exact h.call_owner k b m (fun hv => congrArg OrderHandle.slot (hnew hv).2) hplace hs
  · rw [htoken, h.token]
    constructor
    · rintro (⟨j, p, hp, hv, hj, ht⟩ | ⟨hv, hk', ht⟩)
      · exact ⟨j, p, getElem?_placed.mpr (Or.inl hp), hv, by rw [hlab (hlt hp), hj], ht⟩
      · exact ⟨dk.placed.length, _, getElem?_placed.mpr (Or.inr ⟨rfl, rfl⟩), hv,
          by rw [Function.update_self, hk'], h.id ▸ ht⟩
    · rintro ⟨j, p, hp, hv, hj, ht⟩
      rcases getElem?_placed.mp hp with hp | ⟨rfl, rfl⟩
      · exact Or.inl ⟨j, p, hp, hv, by rw [← hj, hlab (hlt hp)], ht⟩
      · rw [Function.update_self] at hj
        exact Or.inr ⟨hv, hj, h.id ▸ ht⟩
  · rw [Log.acked_record, acks_report, List.mem_append] at ht
    rcases ht with ht | ht
    · obtain ⟨k', hk'⟩ := h.acked t ht
      exact ⟨k', (htoken k' t).mpr (Or.inl hk')⟩
    · split at ht
      · rename_i hv
        exact ⟨k, (htoken k t).mpr (Or.inr ⟨hv, rfl, (List.mem_singleton.mp ht).symm⟩)⟩
      · cases ht
  · have hold : ∀ k', lg.tokenOf k' = some t → r.handle.valid = true →
        r.handle.toToken lg.shard.shardId ≠ t := fun k' hk' hv e => by
      rw [(hnew hv).2, h.id] at e
      exact h.token_fresh hN (hnew hv).1 (htop hv) k' (e ▸ hk')
    rcases (htoken k1 t).mp h1 with h1 | ⟨hv, rfl, e⟩ <;>
      rcases (htoken k2 t).mp h2 with h2 | ⟨hv', rfl, e'⟩
    · exact h.once k1 k2 t h1 h2
    · exact absurd e' (hold k1 h1 hv')
    · exact absurd e (hold k2 h2 hv)
    · rfl

end Record

/-! ## One message -/

/-- What a message does, in terms of the lists `v` and the labels of the orders on them. -/
inductive Handled (cfg : ShardConfig) (lg : Log) (v : View) (place : Nat → Place) :
    Nat × InboundMsg → Log → View → (Nat → Place) → Prop
  | unhosted {k : Nat} {m : NewOrder} (hb : lg.shard.localBook cfg m.symbolId = noBook) :
      Handled cfg lg v place (k, .newOrder m) (lg.record k none lg.shard
        [emitReject m.orderId .unknownSymbol m.hdr.sessionId]) v place
  | refused {k : Nat} {m : NewOrder} (hb : lg.shard.localBook cfg m.symbolId ≠ noBook)
      (hadm : ¬ lg.shard.floor.Admits cfg.toDims (lg.shard.localBook cfg m.symbolId) m.price) :
      Handled cfg lg v place (k, .newOrder m) (lg.record k none lg.shard []) v place
  | added {k : Nat} {m : NewOrder} {r : AddResult} {v' : View} {place' : Nat → Place}
      (hb : lg.shard.localBook cfg m.symbolId ≠ noBook)
      (hadm : lg.shard.floor.Admits cfg.toDims (lg.shard.localBook cfg m.symbolId) m.price)
      (hrun : lg.shard.floor.addOrder cfg.toDims (lg.shard.localBook cfg m.symbolId) m
        maxFillsPerOrder = .ok r)
      (hspec : AddSpec lg.shard.floor lg.owner v place (lg.shard.localBook cfg m.symbolId) k m
        ((absBook lg.shard.floor lg.owner v (lg.shard.localBook cfg m.symbolId)).add cfg.L k m
          ((lg.shard.floor.books (lg.shard.localBook cfg m.symbolId)).levelOf m.price)
          maxFillsPerOrder) lg.shard.floor.pool.top r v' place') :
      Handled cfg lg v place (k, .newOrder m) (lg.record k
        (newToken (.newOrder m) (reportOf lg.shard.shardId m r m.hdr.sessionId))
        { lg.shard with floor := r.floor } (reportOf lg.shard.shardId m r m.hdr.sessionId)) v' place'
  | cancelled {k k' s b i : Nat} {c : CancelOrder} {S : SideClass} {fl : Floor} {v' : View}
      (htoken : lg.tokenOf k' = some c.orderToken) (hpl : place s = .level b S i)
      (hown : lg.owner s = k') (hspec : CancelSpec lg.shard.floor v b S i s fl v') :
      Handled cfg lg v place (k, .cancel c) (lg.record k none { lg.shard with floor := fl }
        [emitAck 0 c.orderToken c.hdr.sessionId]) v' (move place s .free)
  | stale {k k' : Nat} {c : CancelOrder} (htoken : lg.tokenOf k' = some c.orderToken)
      (hgone : ∀ s b S i, place s = .level b S i → lg.owner s ≠ k') :
      Handled cfg lg v place (k, .cancel c) (lg.record k none lg.shard
        [emitReject 0 .unknownOrder c.hdr.sessionId]) v place
  | dropped {k : Nat} {hdr : Header} :
      Handled cfg lg v place (k, .other hdr) (lg.record k none lg.shard []) v place

section Receive

variable {su : Setup} {xs : List (Nat × InboundMsg)} {lg : Log} {dk : Desk} {lab : Nat → Nat}
variable {v : View} {place : Nat → Place}

/-- A message the books do not hear of. -/
theorem LogRep.skip (h : LogRep su xs lg dk lab v place) (x : Nat × InboundMsg)
    {out : List OutboundMsg} (hack : out.filterMap ackToken = []) :
    LogRep su (xs ++ [x]) (lg.record x.1 none lg.shard out) dk lab v place :=
  h.keep x h.desk (h.tagged.congr rfl rfl rfl (Nat.le_succ _)) h.floor rfl rfl
    (fun _ _ _ _ hs => hs) (by rw [hack]; simp)

theorem LogRep.receive_new (h : LogRep su xs lg dk lab v place) (hN : su.cfg.N ≤ 2 ^ 24) {k : Nat}
    (m : NewOrder) (hk : k ∉ xs.map Prod.fst) (hn : xs.length + 1 < 2 ^ 32) :
    ∃ lg' dk' lab' v' place', lg.receive su.cfg (k, .newOrder m) = .ok lg' ∧
      LogRep su (xs ++ [(k, .newOrder m)]) lg' dk' lab' v' place' ∧
      Handled su.cfg lg v place (k, .newOrder m) lg' v' place' := by
  by_cases hb : lg.shard.localBook su.cfg m.symbolId = noBook
  · refine ⟨_, dk, lab, v, place, ?_, h.skip (k, .newOrder m) rfl, .unhosted hb⟩
    rw [Log.receive, Shard.tick, handleNew_unhosted hb, ok_bind]
    rfl
  have hK := lg.shard.localBook_lt h.table hb
  by_cases hadm : lg.shard.floor.Admits su.cfg.toDims (lg.shard.localBook su.cfg m.symbolId) m.price
  · have hadm' := h.floor ▸ hadm
    obtain ⟨r, v', place', hrun, hdesk, hadd⟩ := h.desk.add _ m maxFillsPerOrder hadm'
    -- the same call, with the orders named by their labels
    obtain ⟨r', v'', place'', hrun', hrep, hspec⟩ := addOrder_admitted
      (h.floor.symm ▸ h.desk.rep) lg.owner k maxFillsPerOrder hadm.1 hadm.2
    obtain rfl : r = r' := by
      rw [h.floor] at hrun'
      exact Except.ok.inj (hrun.symm.trans hrun')
    obtain rfl : v' = v'' := hdesk.rep.threads.view_eq.trans hrep.threads.view_eq.symm
    obtain rfl : place' = place'' := hrep.threads.place_eq hdesk.rep.threads
    refine ⟨_, _, _, v', place', ?_, h.call hN hk rfl hb hdesk (h.tagged.add hn hadd)
      (fun hv => ?_) (fun s b' S i hpl => ?_) m.hdr.sessionId, .added hb hadm hrun' hspec⟩
    · rw [Log.receive, Shard.tick, handleNew_hosted hb hK hrun', ok_bind]
      rfl
    · have hrests := hadd.valid.symm.trans hv
      exact ⟨hadd.spec.was_free, by rw [hadd.spec.handle, if_pos hrests]⟩
    · exact (hadd.spec.level_cases hpl).imp (fun hl => ⟨hl.1, hadd.valid.trans hl.2.1⟩)
        (fun hr => ⟨fun _ => hr.1, hr.2⟩)
  · have hadm' := h.floor ▸ hadm
    obtain ⟨hrun, hdesk⟩ := h.desk.refuse _ m maxFillsPerOrder hadm'
    refine ⟨_, _, _, v, place, ?_, h.call hN hk rfl hb hdesk (h.tagged.refuse hn) nofun
      (fun s b' S i hpl => Or.inr ⟨nofun, hpl⟩) m.hdr.sessionId, ?_⟩
    · rw [Log.receive, Shard.tick, handleNew_hosted hb hK (by rw [h.floor]; exact hrun), ok_bind]
      rfl
    · rw [← h.floor]
      exact .refused hb hadm

/-- The order behind a resting slot. -/
theorem LogRep.call_of_slot (h : LogRep su xs lg dk lab v place) {s b i : Nat} {S : SideClass}
    (hpl : place s = .level b S i) : ∃ p, Names dk b s (dk.owner s) p ∧
      lg.shard.localBook su.cfg (dk.floor.pool.slots s).symbol = b ∧ b ≠ noBook := by
  obtain ⟨p, hp⟩ := h.desk.names s b S i hpl
  obtain ⟨-, hbook, hne⟩ := h.calls _ p hp.call
  refine ⟨p, hp, ?_, hp.book ▸ hne⟩
  rw [symbol_of_fixed hp.fixed, ← hp.book]
  exact hbook

/-- Two resting slots hold different orders. -/
theorem LogRep.owner_inj (h : LogRep su xs lg dk lab v place) {s s' b b' i i' : Nat}
    {S S' : SideClass} (hs : place s = .level b S i) (hs' : place s' = .level b' S' i')
    (he : lg.owner s = lg.owner s') : s = s' := by
  obtain ⟨p, hp⟩ := h.desk.names s b S i hs
  obtain ⟨p', hp'⟩ := h.desk.names s' b' S' i' hs'
  refine h.desk.owner_inj hs hs' (h.inj _ _ (List.getElem?_eq_some_iff.mp hp.call).1
    (List.getElem?_eq_some_iff.mp hp'.call).1 ?_)
  rw [← h.owner s b S i hs, ← h.owner s' b' S' i' hs', he]

/-- The order in a resting slot is one of the messages, for a symbol of the slot's book. -/
theorem LogRep.msg_of_slot (h : LogRep su xs lg dk lab v place) {s b i : Nat} {S : SideClass}
    (hpl : place s = .level b S i) : ∃ m, (lg.owner s, .newOrder m) ∈ xs ∧
      lg.shard.localBook su.cfg m.symbolId = b ∧ b ≠ noBook ∧
      (lg.shard.floor.pool.slots s).fixed = (Order.ofMsg m).fixed ∧
      lg.shard.floor.session s = m.hdr.sessionId := by
  obtain ⟨p, hp⟩ := h.desk.names s b S i hpl
  obtain ⟨hmem, hbook, hne⟩ := h.calls _ p hp.call
  rw [h.owner s b S i hpl, h.floor]
  exact ⟨p.msg, hmem, hbook.trans hp.book, hp.book ▸ hne, hp.fixed, hp.session⟩

theorem LogRep.receive_cancel (h : LogRep su xs lg dk lab v place) (hN : su.cfg.N ≤ 2 ^ 24)
    (k : Nat) {c : CancelOrder} {k' : Nat} (hk' : lg.tokenOf k' = some c.orderToken)
    (hn : xs.length + 1 < 2 ^ 32) :
    ∃ lg' dk' v' place', lg.receive su.cfg (k, .cancel c) = .ok lg' ∧
      LogRep su (xs ++ [(k, .cancel c)]) lg' dk' lab v' place' ∧
      Handled su.cfg lg v place (k, .cancel c) lg' v' place' := by
  obtain ⟨j, p, hp, hv, hj, htok⟩ := (h.token k' _).mp hk'
  have hhandle : OrderHandle.fromToken c.orderToken = p.handle := htok ▸ h.handle_of_token hN hp hv
  have hslot := h.valid j p hp hv
  by_cases hgen : dk.floor.pool.gen p.handle.slot = p.handle.gen
  · obtain ⟨hown, S, i, hpl⟩ := (h.tagged.past j p hp hslot).2 hgen.symm
    obtain ⟨fl, v', hrun, hdesk, hspec⟩ := h.desk.cancel hpl hgen j
    obtain ⟨-, -, hbook, hne⟩ := h.call_of_slot hpl
    have hK : p.book < su.cfg.K := hbook ▸ lg.shard.localBook_lt h.table (hbook ▸ hne)
    rw [← h.floor] at hgen hrun hbook hspec
    refine ⟨_, _, v', _, ?_, h.keep (k, .cancel c) hdesk (h.tagged.cancel hn (h.floor ▸ hspec)) rfl
      rfl rfl (fun s b S' i' hs => ?_) (fun t ht => ⟨k', ?_⟩),
      .cancelled hk' hpl (by rw [h.owner _ _ _ _ hpl, hown, hj]) hspec⟩
    · rw [Log.receive, Shard.tick, handleCancel_done hhandle hslot hgen hbook hne hK hrun, ok_bind]
      rfl
    · by_cases he : s = p.handle.slot
      · rw [he, move_self] at hs
        cases hs
      · rwa [move_of_ne _ _ he] at hs
    · rw [List.mem_singleton.mp ht]
      exact hk'
  · refine ⟨_, dk, v, place, ?_, h.skip (k, .cancel c) rfl, .stale hk' fun s b S i hpl he => hgen ?_⟩
    · rw [Log.receive, Shard.tick, handleCancel_stale (by rw [hhandle, h.floor]; exact Or.inr hgen),
        ok_bind]
      rfl
    · -- the order would still rest, and its handle match
      obtain ⟨q, hq, -⟩ := h.call_of_slot hpl
      have hown : dk.owner s = j := by
        refine h.inj _ _ (List.getElem?_eq_some_iff.mp hq.call).1
          (List.getElem?_eq_some_iff.mp hp).1 ?_
        rw [← h.owner s b S i hpl, he, hj]
      have hqp : q = p := Option.some_inj.mp (hq.call.symm.trans (hown ▸ hp))
      have hbook : p.book = b := hqp ▸ hq.book
      exact ((h.tagged.live_iff h.desk hp).mpr ⟨s, S, i, hbook ▸ hpl, hown⟩).2

/-- Every message with a new label, if it is a cancel a genuine one, is answered. -/
theorem LogRep.receive (h : LogRep su xs lg dk lab v place) (hN : su.cfg.N ≤ 2 ^ 24)
    {x : Nat × InboundMsg} (hk : x.1 ∉ xs.map Prod.fst) (hg : lg.Genuine x)
    (hn : xs.length + 1 < 2 ^ 32) :
    ∃ lg' dk' lab' v' place', lg.receive su.cfg x = .ok lg' ∧
      LogRep su (xs ++ [x]) lg' dk' lab' v' place' ∧
      Handled su.cfg lg v place x lg' v' place' := by
  obtain ⟨k, m⟩ := x
  cases m with
  | newOrder m => exact h.receive_new hN m hk hn
  | cancel c =>
    obtain ⟨k', hk'⟩ := h.acked _ hg
    obtain ⟨lg', dk', v', place', hrun, h', hcase⟩ := h.receive_cancel hN k hk' hn
    exact ⟨lg', dk', lab, v', place', hrun, h', hcase⟩
  | other hdr => exact ⟨_, dk, lab, v, place, rfl, h.skip (k, .other hdr) rfl, .dropped⟩

end Receive

/-! ## Runs -/

/-- Runs with genuine cancels. A property `P` of messages and log that every step keeps, from
    states that have it and under a condition `Q` on the step, holds at their end. -/
theorem logged_run (su : Setup) (hN : su.cfg.N ≤ 2 ^ 24)
    {P : List (Nat × InboundMsg) → Log → Prop} {Q : Log → Nat × InboundMsg → Prop}
    (hQ : ∀ lg x, Q lg x → lg.Genuine x) (hinit : P [] (Log.init su))
    (hstep : ∀ {xs lg dk lab v place x lg' v' place'}, LogRep su xs lg dk lab v place →
      ((xs ++ [x]).map Prod.fst).Nodup → P xs lg → Q lg x →
      Handled su.cfg lg v place x lg' v' place' → P (xs ++ [x]) lg')
    (xs : List (Nat × InboundMsg)) (hnd : (xs.map Prod.fst).Nodup) (hlen : xs.length < 2 ^ 32)
    (hg : Along (Log.receive su.cfg) Q (Log.init su) xs) :
    ∃ lg dk lab v place, run (Log.receive su.cfg) (Log.init su) xs = .ok lg ∧
      LogRep su xs lg dk lab v place ∧ P xs lg := by
  induction xs using List.reverseRecOn with
  | nil => exact ⟨_, _, _, _, _, rfl, logRep_init su, hinit⟩
  | append_singleton xs x ih =>
    rw [List.length_append, List.length_singleton] at hlen
    obtain ⟨hpre, hlast⟩ := along_append.mp hg
    have hnd' := hnd
    rw [List.map_append, List.nodup_append] at hnd'
    obtain ⟨lg, dk, lab, v, place, hrun, h, hP⟩ := ih hnd'.1 (by omega) hpre
    have hq : Q lg x := (hlast lg hrun).1
    have hk : x.1 ∉ xs.map Prod.fst := fun hmem =>
      hnd'.2.2 _ hmem _ (List.mem_singleton.mpr rfl) rfl
    obtain ⟨lg', dk', lab', v', place', hrec, h', hcase⟩ := h.receive hN hk (hQ lg x hq) hlen
    exact ⟨lg', dk', lab', v', place', by rw [run_snoc hrun, hrec], h', hstep h hnd hP hq hcase⟩

/-- Entries labelled by their position. -/
def numbered {α : Type} (xs : List α) : List (Nat × α) := xs.zipIdx.map Prod.swap

theorem numbered_nodup {α : Type} (xs : List α) : ((numbered xs).map Prod.fst).Nodup := by
  have hfst : (numbered xs).map Prod.fst = xs.zipIdx.map Prod.snd := List.map_map ..
  rw [hfst, List.zipIdx_map_snd]
  exact List.nodup_range' ..

theorem length_numbered {α : Type} (xs : List α) : (numbered xs).length = xs.length := by
  rw [numbered, List.length_map, List.length_zipIdx]

theorem numbered_map_snd {α : Type} (xs : List α) : (numbered xs).map Prod.snd = xs := by
  rw [numbered, List.map_map]
  exact List.zipIdx_map_fst ..

theorem mem_numbered {α : Type} {xs : List α} {k : Nat} {a : α} :
    (k, a) ∈ numbered xs ↔ xs[k]? = some a := by
  rw [← List.mk_mem_zipIdx_iff_getElem?, numbered, List.mem_map]
  constructor
  · rintro ⟨x, hx, he⟩
    rw [← Prod.swap_swap x, he] at hx
    exact hx
  · intro h
    exact ⟨(a, k), h, rfl⟩

theorem numbered_append {α : Type} (xs : List α) (a : α) :
    numbered (xs ++ [a]) = numbered xs ++ [(xs.length, a)] := by
  rw [numbered, List.zipIdx_append, List.map_append, Nat.zero_add]
  rfl

theorem getElem?_numbered {α : Type} {xs : List α} {i k : Nat} {a : α} :
    (numbered xs)[i]? = some (k, a) ↔ i = k ∧ xs[k]? = some a := by
  rw [numbered, List.getElem?_map, List.getElem?_zipIdx]
  cases hx : xs[i]? with
  | none => simp only [Option.map_none, reduceCtorEq, false_iff]; rintro ⟨rfl, h⟩; simp [hx] at h
  | some b =>
    simp only [Option.map_some, Prod.swap_prod_mk, Nat.zero_add, Option.some_inj, Prod.mk.injEq]
    constructor
    · rintro ⟨rfl, rfl⟩
      exact ⟨rfl, hx⟩
    · rintro ⟨rfl, h⟩
      exact ⟨rfl, Option.some_inj.mp (hx.symm.trans h)⟩

/-- The `k`-th message is a new order that was answered with an Ack of token `t`. -/
def AckedAs (msgs : List InboundMsg) (lg : Log) (k : Nat) (t : UInt64) : Prop :=
  ∃ m out, msgs[k]? = some m ∧ lg.sent[k]? = some out ∧ newToken m out = some t

/-- The record of tokens is what was sent. -/
theorem tokenOf_run {su : Setup} {xs : List (Nat × InboundMsg)} {lg : Log}
    (hnd : (xs.map Prod.fst).Nodup) (hrun : run (Log.receive su.cfg) (Log.init su) xs = .ok lg) :
    lg.sent.length = xs.length ∧ ∀ k t, lg.tokenOf k = some t ↔
      ∃ m out, ((k, m), out) ∈ xs.zip lg.sent ∧ newToken m out = some t := by
  induction xs using List.reverseRecOn generalizing lg with
  | nil =>
    cases hrun
    exact ⟨rfl, fun k t => ⟨nofun, fun ⟨m, out, hmem, _⟩ => absurd hmem List.not_mem_nil⟩⟩
  | append_singleton xs x ih =>
    rw [run_append] at hrun
    obtain ⟨lg0, hrun0, hrun⟩ := bind_eq_ok hrun
    rw [List.map_append, List.nodup_append] at hnd
    obtain ⟨hlen, htoken⟩ := ih hnd.1 hrun0
    obtain ⟨lg1, hstep, hrun⟩ := bind_eq_ok hrun
    cases hrun
    obtain ⟨⟨sh, out⟩, -, hrec⟩ := bind_eq_ok hstep
    cases hrec
    obtain ⟨k0, m0⟩ := x
    have hnew : ∀ {k m out}, ((k, m), out) ∈ xs.zip lg0.sent → k ≠ k0 := fun hmem e =>
      hnd.2.2 _ (List.mem_map_of_mem (List.of_mem_zip hmem).1) k0 (List.mem_singleton.mpr rfl) e
    have hfresh : lg0.tokenOf k0 = none := by
      rw [Option.eq_none_iff_forall_ne_some]
      intro t ht
      obtain ⟨m, out, hmem, -⟩ := (htoken k0 t).mp ht
      exact hnew hmem rfl
    refine ⟨by simp [Log.record, hlen], fun k t => ?_⟩
    dsimp only [Log.record]
    rw [List.zip_append hlen.symm]
    simp only [List.mem_append, List.zip_cons_cons, List.zip_nil_right, List.mem_singleton,
      Prod.mk.injEq]
    by_cases hk : k = k0
    · subst hk
      have hself : (if (newToken m0 out).isSome then
          Function.update lg0.tokenOf k (newToken m0 out) else lg0.tokenOf) k = newToken m0 out := by
        cases newToken m0 out with
        | none => exact hfresh
        | some t => exact Function.update_self ..
      rw [hself]
      constructor
      · exact fun ht => ⟨m0, out, Or.inr ⟨⟨rfl, rfl⟩, rfl⟩, ht⟩
      · rintro ⟨m, out', hmem | ⟨⟨-, rfl⟩, rfl⟩, ht⟩
        · exact absurd rfl (hnew hmem)
        · exact ht
    · have hother : (if (newToken m0 out).isSome then
          Function.update lg0.tokenOf k0 (newToken m0 out) else lg0.tokenOf) k = lg0.tokenOf k := by
        split
        · exact Function.update_of_ne hk ..
        · rfl
      rw [hother, htoken]
      constructor
      · exact fun ⟨m, out', hmem, ht⟩ => ⟨m, out', Or.inl hmem, ht⟩
      · rintro ⟨m, out', hmem | ⟨⟨e, -⟩, -⟩, ht⟩
        · exact ⟨m, out', hmem, ht⟩
        · exact absurd e hk

theorem tokenOf_iff_ackedAs {su : Setup} {msgs : List InboundMsg} {lg : Log}
    (hrun : run (Log.receive su.cfg) (Log.init su) (numbered msgs) = .ok lg) {k : Nat}
    {t : UInt64} : lg.tokenOf k = some t ↔ AckedAs msgs lg k t := by
  rw [(tokenOf_run (numbered_nodup msgs) hrun).2, AckedAs]
  refine exists_congr fun m => exists_congr fun out => ?_
  rw [← and_assoc]
  refine and_congr_left fun _ => ?_
  rw [List.mem_iff_getElem?]
  simp only [List.getElem?_zip_eq_some, getElem?_numbered]
  constructor
  · rintro ⟨i, ⟨rfl, hm⟩, hout⟩
    exact ⟨hm, hout⟩
  · exact fun ⟨hm, hout⟩ => ⟨k, ⟨rfl, hm⟩, hout⟩

theorem genuine_run (su : Setup) (hN : su.cfg.N ≤ 2 ^ 24) (msgs : List InboundMsg)
    (hlen : msgs.length < 2 ^ 32)
    (hg : Along (Log.receive su.cfg) Log.Genuine (Log.init su) (numbered msgs)) :
    ∃ lg dk lab v place, run (Log.receive su.cfg) (Log.init su) (numbered msgs) = .ok lg ∧
      LogRep su (numbered msgs) lg dk lab v place := by
  obtain ⟨lg, dk, lab, v, place, hrun, h, -⟩ := logged_run su hN (P := fun _ _ => True)
    (fun _ _ hq => hq) trivial (fun _ _ _ _ _ => trivial) (numbered msgs) (numbered_nodup msgs)
    (by rwa [length_numbered]) hg
  exact ⟨lg, dk, lab, v, place, hrun, h⟩

/-- Cancels on a run of fixed messages, checked by computation. -/
theorem genuine_of_check {su : Setup} {msgs : List InboundMsg}
    (h : checkAlong (Log.receive su.cfg) (fun lg x => decide (lg.Genuine x)) (Log.init su)
      (numbered msgs) = true) :
    Along (Log.receive su.cfg) Log.Genuine (Log.init su) (numbered msgs) :=
  along_of_check (fun _ _ hx => of_decide_eq_true hx) h

/-! ## Fixed inputs -/

/-- The small shard with base price 100 and tick 1. -/
def smallSetup : Setup := ⟨smallShard, 100, 1, 0, allSymbols smallShard⟩

/-- A limit order of symbol 0 from a session. -/
def orderFrom (sessionId : UInt32) (orderId : UInt64) (side : Side) (price : Int64)
    (qty : UInt32) : NewOrder :=
  { limitOrder orderId side price qty with hdr := ⟨32, .newOrder, 0, sessionId⟩ }

def cancelFrom (sessionId : UInt32) (token : UInt64) : InboundMsg :=
  .cancel ⟨⟨16, .cancelOrder, 0, sessionId⟩, token⟩

end LiteExchange.Engine

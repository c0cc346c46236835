/-
  Requests that leave no trace. A shard that rejects or kills a request may have changed state on
  the way: an order that neither trades nor rests takes a slot, writes its record and owner, and
  gives the slot back with a new generation.

  `rejected_without_trace`: take such a request out of a run. What is sent for the later requests
  is the same, the generations in tokens apart, and so are the best prices at the end. The two
  runs are compared step by step (`Twins`): they hand out the same slots, and their tokens differ
  in the generation only.
-/
import LiteExchange.Book.Alike
import LiteExchange.Engine.Cancels
import LiteExchange.Engine.Market
import LiteExchange.Engine.Reports

namespace LiteExchange.Engine

open Lib Proto Book

/-! ## Runs -/

/-- What a client sends: a request, or a message of a type the shard drops. -/
inductive Item where
  | request (q : Request)
  | other (hdr : Header)

/-- One labelled item. -/
def Log.send (cfg : ShardConfig) (lg : Log) (x : Nat × Item) : Except Fault Log :=
  match x.2 with
  | .request q => lg.perform cfg (x.1, q)
  | .other hdr => lg.receive cfg (x.1, .other hdr)

/-- A cancel names an order that was acknowledged. -/
def Log.Named (lg : Log) (x : Nat × Item) : Prop :=
  match x.2 with
  | .request (.cancel target _) => (lg.tokenOf target).isSome
  | _ => True

instance (lg : Log) : ∀ x : Nat × Item, Decidable (lg.Named x)
  | (_, .request (.cancel target _)) =>
    inferInstanceAs (Decidable ((lg.tokenOf target).isSome = true))
  | (_, .request (.place _)) => isTrue trivial
  | (_, .other _) => isTrue trivial

/-- A message whose token has its generation erased. -/
def eraseGen : OutboundMsg → OutboundMsg
  | .ack a => .ack { a with orderToken := OrderHandle.eraseGen a.orderToken }
  | o => o

/-- The requests that are rejected or killed: an order for an unhosted symbol, off the ladder,
    without a free slot, of no quantity, or to be filled at once with nothing to fill it; and a
    cancel of an order that rests nowhere. -/
def Log.Traceless (cfg : ShardConfig) (lg : Log) : Item → Prop
  | .request (.place m) => lg.shard.localBook cfg m.symbolId = noBook ∨
      ¬ (lg.shard.floor.books (lg.shard.localBook cfg m.symbolId)).OnLadder cfg.toDims m.price ∨
      lg.shard.floor.pool.freeTop = 0 ∨
      lg.shard.floor.Idle cfg.toDims (lg.shard.localBook cfg m.symbolId) m
  | .request (.cancel target _) => ¬ ∃ b S i s, lg.RestsAt cfg target b S i s
  | .other _ => True

/-! ## Two logs -/

/-- A log of messages with the labels `ks`. -/
def Logged (su : Setup) (ks : List Nat) (lg : Log) (v : View) (place : Nat → Place) : Prop :=
  ∃ xs dk lab, LogRep su xs lg dk lab v place ∧ xs.map Prod.fst = ks

/-- Two logs whose shards look alike: the same orders rest in the same slots, and the same orders
    were acknowledged, with the same tokens up to the generation. -/
structure Twins (su : Setup) (ks ks' : List Nat) (v : View) (place : Nat → Place)
    (lg lg' : Log) : Prop where
  logged : Logged su ks lg v place
  logged' : Logged su ks' lg' v place
  floor : Alike v lg.shard.floor lg'.shard.floor
  owner : ∀ s b S i, place s = .level b S i → lg'.owner s = lg.owner s
  token : ∀ k, (lg'.tokenOf k).map OrderHandle.eraseGen = (lg.tokenOf k).map OrderHandle.eraseGen

/-- The two logs have sent the same for one more message. -/
def SameAnswer (lg lg' lg₁ lg₁' : Log) : Prop :=
  ∃ out out', lg₁.sent = lg.sent ++ [out] ∧ lg₁'.sent = lg'.sent ++ [out'] ∧
    out'.map eraseGen = out.map eraseGen

section Orders

variable {su : Setup} {ks ks' : List Nat} {lg lg' : Log} {v : View} {place : Nat → Place}

theorem Logged.rep (h : Logged su ks lg v place) :
    FloorRep su.cfg.toDims lg.shard.floor v place := by
  obtain ⟨_, _, _, hl, _⟩ := h
  rw [hl.floor]
  exact hl.desk.rep

theorem Logged.settled (h : Logged su ks lg v place) (s : Nat) : place s ≠ .held := by
  obtain ⟨_, _, _, hl, _⟩ := h
  exact hl.desk.settled s

theorem Logged.id (h : Logged su ks lg v place) : lg.shard.shardId = su.shardId := by
  obtain ⟨_, _, _, hl, _⟩ := h
  exact hl.id

theorem Logged.localBook (h : Logged su ks lg v place) (s : UInt16) :
    lg.shard.localBook su.cfg s = su.book s := by
  obtain ⟨_, _, _, hl, _⟩ := h
  exact hl.localBook_eq s

theorem Twins.localBook (h : Twins su ks ks' v place lg lg') (s : UInt16) :
    lg'.shard.localBook su.cfg s = lg.shard.localBook su.cfg s := by
  rw [h.logged.localBook, h.logged'.localBook]

/-- The log after a new order with the result `r` of `add_order`. -/
def Log.booked (lg : Log) (k : Nat) (m : NewOrder) (r : AddResult) : Log :=
  lg.record k (newToken (.newOrder m) (reportOf lg.shard.shardId m r m.hdr.sessionId))
    { lg.shard with floor := r.floor } (reportOf lg.shard.shardId m r m.hdr.sessionId)

theorem Log.booked_tokenOf (lg : Log) (k : Nat) (m : NewOrder) (r : AddResult) :
    (lg.booked k m r).tokenOf = if r.handle.valid then
      Function.update lg.tokenOf k (some (r.handle.toToken lg.shard.shardId)) else lg.tokenOf := by
  unfold Log.booked
  dsimp only [Log.record]
  rw [newToken_report]
  cases r.handle.valid <;> rfl

theorem Log.booked_owner (lg : Log) (k : Nat) (m : NewOrder) (r : AddResult) :
    (lg.booked k m r).owner = if r.handle.valid then
      Function.update lg.owner lg.shard.floor.pool.top k else lg.owner :=
  lg.owner_call ..

/-- Equal fills and slots are reported alike. -/
theorem eraseGen_report {r r' : AddResult} (hfills : r'.fills = r.fills)
    (hslot : r'.handle.slot = r.handle.slot) (shardId : UInt8) (m : NewOrder)
    (sessionId : UInt32) : (reportOf shardId m r' sessionId).map eraseGen =
      (reportOf shardId m r sessionId).map eraseGen := by
  have hvalid : r'.handle.valid = r.handle.valid := congrArg (· != nullIdx) hslot
  unfold reportOf
  rw [List.map_append, List.map_append, hfills, hvalid]
  refine congrArg _ ?_
  split
  · unfold emitAck
    rw [List.map_singleton, List.map_singleton, eraseGen, eraseGen,
      OrderHandle.eraseGen_toToken hslot]
  · rfl

/-- Both shards admit the order. -/
theorem Twins.added (h : Twins su ks ks' v place lg lg') {k : Nat} {m : NewOrder}
    {r r' : AddResult} {v₁ v₁' : View} {place₁ place₁' : Nat → Place} {add : Added Nat}
    (hadm : lg.shard.floor.Admits su.cfg.toDims (su.book m.symbolId) m.price)
    (hrun : lg.shard.floor.addOrder su.cfg.toDims (su.book m.symbolId) m maxFillsPerOrder = .ok r)
    (hrun' : lg'.shard.floor.addOrder su.cfg.toDims (su.book m.symbolId) m maxFillsPerOrder =
      .ok r')
    (hspec : AddSpec lg.shard.floor lg.owner v place (su.book m.symbolId) k m add
      lg.shard.floor.pool.top r v₁ place₁)
    (hl : Logged su (ks ++ [k]) (lg.booked k m r) v₁ place₁)
    (hl' : Logged su (ks' ++ [k]) (lg'.booked k m r') v₁' place₁') :
    Twins su (ks ++ [k]) (ks' ++ [k]) v₁ place₁ (lg.booked k m r) (lg'.booked k m r') ∧
      SameAnswer lg lg' (lg.booked k m r) (lg'.booked k m r') := by
  obtain ⟨rfl, rfl, halike, hfills, hslot⟩ := h.floor.add h.logged.rep h.logged'.rep
    h.logged.settled hadm hrun hrun' hl.rep hl'.rep
  have hid : lg'.shard.shardId = lg.shard.shardId := h.logged'.id.trans h.logged.id.symm
  have hvalid : r'.handle.valid = r.handle.valid := congrArg (· != nullIdx) hslot
  have hrests : r.handle.valid = add.rests := hspec.valid_eq h.logged.rep.threads
  refine ⟨⟨hl, hl', halike, fun s b S i hpl => ?_, fun k' => ?_⟩, _, _, rfl, rfl, ?_⟩
  · rw [Log.booked_owner, Log.booked_owner, hvalid, h.floor.top hadm.2]
    rcases hspec.level_cases hpl with ⟨rfl, hnew, -⟩ | ⟨hne, hold⟩
    · rw [if_pos (hrests.trans hnew), if_pos (hrests.trans hnew), Function.update_self,
        Function.update_self]
    · split
      · rw [Function.update_of_ne hne, Function.update_of_ne hne]
        exact h.owner s b S i hold
      · exact h.owner s b S i hold
  · rw [Log.booked_tokenOf, Log.booked_tokenOf, hvalid, hid]
    split
    · by_cases hk : k' = k
      · rw [hk, Function.update_self, Function.update_self, Option.map_some, Option.map_some,
          OrderHandle.eraseGen_toToken hslot]
      · rw [Function.update_of_ne hk, Function.update_of_ne hk]
        exact h.token k'
    · exact h.token k'
  · rw [hid]
    exact eraseGen_report hfills hslot _ _ _

/-- Neither shard changes, and both send the same. -/
theorem Twins.skip (h : Twins su ks ks' v place lg lg') {k : Nat} {out out' : List OutboundMsg}
    (hl : Logged su (ks ++ [k]) (lg.record k none lg.shard out) v place)
    (hl' : Logged su (ks' ++ [k]) (lg'.record k none lg'.shard out') v place)
    (hout : out'.map eraseGen = out.map eraseGen) :
    Twins su (ks ++ [k]) (ks' ++ [k]) v place (lg.record k none lg.shard out)
        (lg'.record k none lg'.shard out') ∧
      SameAnswer lg lg' (lg.record k none lg.shard out) (lg'.record k none lg'.shard out') :=
  ⟨⟨hl, hl', h.floor, h.owner, h.token⟩, out, out', rfl, rfl, hout⟩

/-- What a new order does to a log. -/
theorem Logged.order (h : Logged su ks lg v place) (hN : su.cfg.N ≤ 2 ^ 24) {k : Nat}
    (m : NewOrder) (hk : k ∉ ks) (hn : ks.length + 1 < 2 ^ 32) :
    ∃ lg₁ v₁ place₁, lg.receive su.cfg (k, .newOrder m) = .ok lg₁ ∧
      Logged su (ks ++ [k]) lg₁ v₁ place₁ ∧
      Handled su.cfg lg v place (k, .newOrder m) lg₁ v₁ place₁ := by
  obtain ⟨xs, dk, lab, hl, rfl⟩ := h
  rw [List.length_map] at hn
  obtain ⟨lg₁, dk₁, lab₁, v₁, place₁, hrun, hl₁, hcase⟩ := hl.receive_new hN m hk hn
  exact ⟨lg₁, v₁, place₁, hrun, ⟨_, dk₁, lab₁, hl₁, List.map_append⟩, hcase⟩

theorem Twins.order (h : Twins su ks ks' v place lg lg') (hN : su.cfg.N ≤ 2 ^ 24) {k : Nat}
    (m : NewOrder) (hk : k ∉ ks) (hk' : k ∉ ks') (hn : ks.length + 1 < 2 ^ 32)
    (hn' : ks'.length + 1 < 2 ^ 32) :
    ∃ lg₁ lg₁' v₁ place₁, lg.receive su.cfg (k, .newOrder m) = .ok lg₁ ∧
      lg'.receive su.cfg (k, .newOrder m) = .ok lg₁' ∧
      Twins su (ks ++ [k]) (ks' ++ [k]) v₁ place₁ lg₁ lg₁' ∧ SameAnswer lg lg' lg₁ lg₁' := by
  obtain ⟨lg₁, v₁, place₁, hrec, hl, hcase⟩ := h.logged.order hN m hk hn
  obtain ⟨lg₁', v₁', place₁', hrec', hl', hcase'⟩ := h.logged'.order hN m hk' hn'
  refine ⟨lg₁, lg₁', v₁, place₁, hrec, hrec', ?_⟩
  have hbook := h.logged.localBook m.symbolId
  have hbook' := h.logged'.localBook m.symbolId
  -- the symbol, the ladder and the free stack decide between the cases, alike on both sides
  cases hcase with
  | unhosted hb =>
    rw [hbook] at hb
    cases hcase' with
    | unhosted _ => exact h.skip hl hl' rfl
    | refused hb' _ => exact absurd hb (hbook' ▸ hb')
    | added hb' _ _ _ => exact absurd hb (hbook' ▸ hb')
  | refused hb hadm =>
    rw [hbook] at hb hadm
    cases hcase' with
    | unhosted hb' => exact absurd (hbook' ▸ hb') hb
    | refused _ _ => exact h.skip hl hl' rfl
    | added _ hadm' _ _ => exact absurd ((h.floor.admits_iff m.price).mp (hbook' ▸ hadm')) hadm
  | added hb hadm hrun hspec =>
    rw [hbook] at hb hadm hrun hspec
    cases hcase' with
    | unhosted hb' => exact absurd (hbook' ▸ hb') hb
    | refused _ hadm' => exact absurd ((h.floor.admits_iff m.price).mpr hadm) (hbook' ▸ hadm')
    | added _ _ hrun' _ => exact h.added hadm hrun (hbook' ▸ hrun') hspec hl hl'

end Orders

/-! ## Cancels -/

section Cancels

variable {su : Setup} {ks ks' : List Nat} {lg lg' : Log} {v : View} {place : Nat → Place}

/-- A cancel leaves the free stack as it is or puts one slot on it. -/
theorem handleCancel_stack {cfg : ShardConfig} {sh sh₁ : Shard} {c : CancelOrder}
    {sessionId : UInt32} {out : List OutboundMsg}
    (hrun : sh.handleCancel cfg c sessionId = .ok (sh₁, out)) :
    sh₁.floor.pool.stack = sh.floor.pool.stack ∨
      ∃ s, sh₁.floor.pool.stack = sh.floor.pool.stack ++ [s] := by
  unfold Shard.handleCancel at hrun
  dsimp only at hrun
  split at hrun
  · cases hrun
    exact Or.inl rfl
  · obtain ⟨o, -, hrun⟩ := bind_eq_ok hrun
    split at hrun
    · cases hrun
      exact Or.inl rfl
    · obtain ⟨bk, -, hrun⟩ := bind_eq_ok hrun
      obtain ⟨⟨done, fl⟩, hdone, hrun⟩ := bind_eq_ok hrun
      have hstack : fl.pool.stack = sh.floor.pool.stack ∨
          ∃ s, fl.pool.stack = sh.floor.pool.stack ++ [s] :=
        (cancelOrder_stack hdone).imp_right fun hs => ⟨_, hs⟩
      dsimp only at hrun
      split at hrun <;> cases hrun <;> exact hstack

theorem receive_cancel_stack {cfg : ShardConfig} {lg₁ : Log} {k : Nat} {c : CancelOrder}
    (hrun : lg.receive cfg (k, .cancel c) = .ok lg₁) :
    lg₁.shard.floor.pool.stack = lg.shard.floor.pool.stack ∨
      ∃ s, lg₁.shard.floor.pool.stack = lg.shard.floor.pool.stack ++ [s] := by
  unfold Log.receive at hrun
  obtain ⟨⟨sh, out⟩, hcancel, hrun⟩ := bind_eq_ok hrun
  cases hrun
  exact handleCancel_stack hcancel

/-- The slot that is put on it is the one that left its list. -/
theorem stack_of_cancelled {d : Dims} {fl fl₁ : Floor} {v₁ : View} {s b i : Nat} {S : SideClass}
    (ht : Threads d fl v place) (ht₁ : Threads d fl₁ v₁ (move place s .free))
    (hpl : place s = .level b S i) (hstack : fl₁.pool.stack = fl.pool.stack ∨
      ∃ s', fl₁.pool.stack = fl.pool.stack ++ [s']) :
    fl₁.pool.stack = fl.pool.stack ++ [s] := by
  have hnew : s ∈ fl₁.pool.stack := (mem_stack ht₁).mpr (move_self ..)
  have hold : s ∉ fl.pool.stack := by
    rw [mem_stack ht, hpl]
    exact Place.noConfusion
  rcases hstack with hsame | ⟨s', hs'⟩
  · rw [hsame] at hnew
    exact absurd hnew hold
  · rw [hs', List.mem_append, List.mem_singleton] at hnew
    rw [hs', hnew.resolve_left hold]

/-- What a cancel with the token of the order labelled `target` does to a log. -/
theorem Logged.cancel (h : Logged su ks lg v place) (hN : su.cfg.N ≤ 2 ^ 24) (k : Nat)
    {c : CancelOrder} {target : Nat} (htoken : lg.tokenOf target = some c.orderToken)
    (hn : ks.length + 1 < 2 ^ 32) :
    ∃ lg₁ v₁ place₁, lg.receive su.cfg (k, .cancel c) = .ok lg₁ ∧
      Logged su (ks ++ [k]) lg₁ v₁ place₁ ∧
      ((∃ s b S i fl, place s = .level b S i ∧ lg.owner s = target ∧
          CancelSpec lg.shard.floor v b S i s fl v₁ ∧
          fl.pool.stack = lg.shard.floor.pool.stack ++ [s] ∧ place₁ = move place s .free ∧
          lg₁ = lg.record k none { lg.shard with floor := fl }
            [emitAck 0 c.orderToken c.hdr.sessionId]) ∨
        ((∀ s b S i, place s = .level b S i → lg.owner s ≠ target) ∧ v₁ = v ∧ place₁ = place ∧
          lg₁ = lg.record k none lg.shard [emitReject 0 .unknownOrder c.hdr.sessionId])) := by
  have hr := h.rep
  obtain ⟨xs, dk, lab, hl, rfl⟩ := h
  rw [List.length_map] at hn
  obtain ⟨lg₁, dk₁, v₁, place₁, hrun, hl₁, hcase⟩ := hl.receive_cancel hN k htoken hn
  have hlog : Logged su (xs.map Prod.fst ++ [k]) lg₁ v₁ place₁ :=
    ⟨_, dk₁, lab, hl₁, List.map_append⟩
  refine ⟨lg₁, v₁, place₁, hrun, hlog, ?_⟩
  cases hcase with
  | @cancelled _ k' s b i _ S fl _ htoken' hpl hown hspec =>
    obtain rfl : target = k' := hl.once _ _ _ htoken htoken'
    have hstack := stack_of_cancelled hr.threads hlog.rep.threads hpl (receive_cancel_stack hrun)
    exact Or.inl ⟨s, b, S, i, fl, hpl, hown, hspec, hstack, rfl, rfl⟩
  | @stale _ k' _ htoken' hgone =>
    obtain rfl : target = k' := hl.once _ _ _ htoken htoken'
    exact Or.inr ⟨hgone, rfl, rfl, rfl⟩

theorem Logged.owner_inj (h : Logged su ks lg v place) {s s' b b' i i' : Nat} {S S' : SideClass}
    (hs : place s = .level b S i) (hs' : place s' = .level b' S' i')
    (he : lg.owner s = lg.owner s') : s = s' := by
  obtain ⟨_, _, _, hl, _⟩ := h
  exact hl.owner_inj hs hs' he

theorem Twins.cancel (h : Twins su ks ks' v place lg lg') (hN : su.cfg.N ≤ 2 ^ 24) (k : Nat)
    (hdr : Header) {target : Nat} {t t' : UInt64} (ht : lg.tokenOf target = some t)
    (ht' : lg'.tokenOf target = some t') (hn : ks.length + 1 < 2 ^ 32)
    (hn' : ks'.length + 1 < 2 ^ 32) :
    ∃ lg₁ lg₁' v₁ place₁, lg.receive su.cfg (k, .cancel ⟨hdr, t⟩) = .ok lg₁ ∧
      lg'.receive su.cfg (k, .cancel ⟨hdr, t'⟩) = .ok lg₁' ∧
      Twins su (ks ++ [k]) (ks' ++ [k]) v₁ place₁ lg₁ lg₁' ∧ SameAnswer lg lg' lg₁ lg₁' := by
  obtain ⟨lg₁, v₁, place₁, hrec, hl, hcase⟩ := h.logged.cancel hN k (c := ⟨hdr, t⟩) ht hn
  obtain ⟨lg₁', v₁', place₁', hrec', hl', hcase'⟩ := h.logged'.cancel hN k (c := ⟨hdr, t'⟩) ht' hn'
  have herase : OrderHandle.eraseGen t' = OrderHandle.eraseGen t := by
    have htokens := h.token target
    rw [ht, ht'] at htokens
    exact Option.some_inj.mp htokens
  refine ⟨lg₁, lg₁', v₁, place₁, hrec, hrec', ?_⟩
  rcases hcase with ⟨s, b, S, i, fl, hpl, hown, hspec, hstack, rfl, rfl⟩ | ⟨hgone, rfl, rfl, rfl⟩
  · rcases hcase' with
      ⟨s', b', S', i', fl', hpl', hown', hspec', hstack', rfl, rfl⟩ | ⟨hgone', -, -, -⟩
    · -- both find the order, in the same slot
      have hsame : lg.owner s' = lg.owner s := by
        rw [← h.owner s' b' S' i' hpl', hown', hown]
      obtain rfl : s' = s := h.logged.owner_inj hpl' hpl hsame
      obtain ⟨rfl, rfl, rfl⟩ := Place.level.inj (hpl'.symm.trans hpl)
      obtain ⟨rfl, halike⟩ := h.floor.cancel h.logged.rep h.logged'.rep hspec hspec' hstack hstack'
      refine ⟨⟨hl, hl', halike, fun s₁ b₁ S₁ i₁ hpl₁ => ?_, h.token⟩, _, _, rfl, rfl, ?_⟩
      · by_cases he : s₁ = s'
        · rw [he, move_self] at hpl₁
          cases hpl₁
        · rw [move_of_ne _ _ he] at hpl₁
          exact h.owner s₁ b₁ S₁ i₁ hpl₁
      · unfold emitAck
        rw [List.map_singleton, List.map_singleton, eraseGen, eraseGen, herase]
    · exact absurd ((h.owner s b S i hpl).trans hown) (hgone' s b S i hpl)
  · rcases hcase' with ⟨s', b', S', i', -, hpl', hown', -, -, -, -⟩ | ⟨-, rfl, rfl, rfl⟩
    · exact absurd ((h.owner s' b' S' i' hpl').symm.trans hown') (hgone s' b' S' i' hpl')
    · exact h.skip hl hl' rfl

end Cancels

/-! ## Steps and runs of twins -/

section Runs

variable {su : Setup} {ks ks' : List Nat} {lg lg' : Log} {v : View} {place : Nat → Place}

theorem Logged.drop (h : Logged su ks lg v place) (k : Nat) (hdr : Header) :
    lg.receive su.cfg (k, .other hdr) = .ok (lg.record k none lg.shard []) ∧
      Logged su (ks ++ [k]) (lg.record k none lg.shard []) v place := by
  obtain ⟨xs, dk, lab, hl, rfl⟩ := h
  exact ⟨rfl, _, dk, lab, hl.skip (k, .other hdr) rfl, List.map_append⟩

theorem Log.send_cancel {cfg : ShardConfig} {target : Nat} {t : UInt64}
    (ht : lg.tokenOf target = some t) (k : Nat) (hdr : Header) :
    lg.send cfg (k, .request (.cancel target hdr)) = lg.receive cfg (k, .cancel ⟨hdr, t⟩) := by
  unfold Log.send Log.perform Log.message
  dsimp only
  rw [ht]
  rfl

/-- Twins stay twins, and send the same. -/
theorem Twins.send (h : Twins su ks ks' v place lg lg') (hN : su.cfg.N ≤ 2 ^ 24) {x : Nat × Item}
    (hk : x.1 ∉ ks) (hk' : x.1 ∉ ks') (hn : ks.length + 1 < 2 ^ 32) (hn' : ks'.length + 1 < 2 ^ 32)
    (hnamed : lg.Named x) :
    lg'.Named x ∧ ∃ lg₁ lg₁' v₁ place₁, lg.send su.cfg x = .ok lg₁ ∧ lg'.send su.cfg x = .ok lg₁' ∧
      Twins su (ks ++ [x.1]) (ks' ++ [x.1]) v₁ place₁ lg₁ lg₁' ∧ SameAnswer lg lg' lg₁ lg₁' := by
  obtain ⟨k, item⟩ := x
  match item with
  | .request (.place m) => exact ⟨trivial, h.order hN m hk hk' hn hn'⟩
  | .request (.cancel target hdr) =>
    obtain ⟨t, ht⟩ := Option.isSome_iff_exists.mp hnamed
    obtain ⟨t', ht', -⟩ : ∃ t', lg'.tokenOf target = some t' ∧ _ := by
      have htoken := h.token target
      rw [ht] at htoken
      exact Option.map_eq_some_iff.mp htoken
    rw [Log.send_cancel ht, Log.send_cancel ht']
    exact ⟨Option.isSome_iff_exists.mpr ⟨t', ht'⟩, h.cancel hN k hdr ht ht' hn hn'⟩
  | .other hdr =>
    obtain ⟨hrun, hl⟩ := h.logged.drop k hdr
    obtain ⟨hrun', hl'⟩ := h.logged'.drop k hdr
    exact ⟨trivial, _, _, v, place, hrun, hrun', h.skip hl hl' rfl⟩

/-- Twins that have sent `pre` and `pre'` and then the same, with the items `as` before them. -/
def Paired (su : Setup) (all all' : List Nat) (pre pre' : List (List OutboundMsg))
    (as : List (Nat × Item)) (lg lg' : Log) : Prop :=
  ∃ ks ks' v place outs outs', Twins su ks ks' v place lg lg' ∧ ks ++ as.map Prod.fst = all ∧
    ks' ++ as.map Prod.fst = all' ∧ lg.sent = pre ++ outs ∧ lg'.sent = pre' ++ outs' ∧
    outs'.map (List.map eraseGen) = outs.map (List.map eraseGen)

theorem Paired.send {all all' : List Nat} {pre pre' : List (List OutboundMsg)} {x : Nat × Item}
    {as : List (Nat × Item)} (h : Paired su all all' pre pre' (x :: as) lg lg')
    (hN : su.cfg.N ≤ 2 ^ 24) (hnd : all.Nodup) (hnd' : all'.Nodup) (hlen : all.length < 2 ^ 32)
    (hlen' : all'.length < 2 ^ 32) (hnamed : lg.Named x) :
    lg'.Named x ∧ ∃ lg₁ lg₁', lg.send su.cfg x = .ok lg₁ ∧ lg'.send su.cfg x = .ok lg₁' ∧
      Paired su all all' pre pre' as lg₁ lg₁' := by
  obtain ⟨ks, ks', v, place, outs, outs', htwins, rfl, rfl, hsent, hsent', herase⟩ := h
  rw [List.map_cons] at hnd hnd' hlen hlen'
  rw [List.length_append, List.length_cons] at hlen hlen'
  have hk : x.1 ∉ ks := fun hmem =>
    (List.nodup_append.mp hnd).2.2 _ hmem _ List.mem_cons_self rfl
  have hk' : x.1 ∉ ks' := fun hmem =>
    (List.nodup_append.mp hnd').2.2 _ hmem _ List.mem_cons_self rfl
  obtain ⟨hnamed', lg₁, lg₁', v₁, place₁, hrun, hrun', htwins₁, out, out', hout, hout', hsame⟩ :=
    htwins.send hN hk hk' (by omega) (by omega) hnamed
  refine ⟨hnamed', lg₁, lg₁', hrun, hrun', ks ++ [x.1], ks' ++ [x.1], v₁, place₁, outs ++ [out],
    outs' ++ [out'], htwins₁, ?_, ?_, ?_, ?_, ?_⟩
  · rw [List.append_assoc]
    rfl
  · rw [List.append_assoc]
    rfl
  · rw [hout, hsent, List.append_assoc]
  · rw [hout', hsent', List.append_assoc]
  · rw [List.map_append, List.map_append, herase, List.map_singleton, List.map_singleton, hsame]

/-- Twins given the same items. -/
theorem Twins.run (h : Twins su ks ks' v place lg lg') (hN : su.cfg.N ≤ 2 ^ 24)
    (as : List (Nat × Item)) (hnd : (ks ++ as.map Prod.fst).Nodup)
    (hnd' : (ks' ++ as.map Prod.fst).Nodup) (hlen : (ks ++ as.map Prod.fst).length < 2 ^ 32)
    (hlen' : (ks' ++ as.map Prod.fst).length < 2 ^ 32)
    (hnamed : Along (Log.send su.cfg) Log.Named lg as) :
    Along (Log.send su.cfg) Log.Named lg' as ∧
      ∃ lg₁ lg₁' v₁ place₁ outs outs', Lib.run (Log.send su.cfg) lg as = .ok lg₁ ∧
        Lib.run (Log.send su.cfg) lg' as = .ok lg₁' ∧
        Twins su (ks ++ as.map Prod.fst) (ks' ++ as.map Prod.fst) v₁ place₁ lg₁ lg₁' ∧
        lg₁.sent = lg.sent ++ outs ∧ lg₁'.sent = lg'.sent ++ outs' ∧
        outs'.map (List.map eraseGen) = outs.map (List.map eraseGen) := by
  have hstart : Paired su (ks ++ as.map Prod.fst) (ks' ++ as.map Prod.fst) lg.sent lg'.sent as
      lg lg' :=
    ⟨ks, ks', v, place, [], [], h, rfl, rfl, (List.append_nil _).symm, (List.append_nil _).symm,
      rfl⟩
  obtain ⟨halong, lg₁, lg₁', hrun, hrun', hend⟩ := run_pair
    (fun x as lg lg' hpair hx => hpair.send hN hnd hnd' hlen hlen' hx) hstart hnamed
  obtain ⟨ks₁, ks₁', v₁, place₁, outs, outs', htwins, hks, hks', hsent, hsent', herase⟩ := hend
  rw [List.map_nil, List.append_nil] at hks hks'
  subst hks hks'
  exact ⟨halong, lg₁, lg₁', v₁, place₁, outs, outs', hrun, hrun', htwins, hsent, hsent', herase⟩

end Runs

/-! ## Requests without a trace -/

section Traceless

variable {su : Setup} {ks : List Nat} {lg : Log} {v : View} {place : Nat → Place}

theorem Logged.refl (h : Logged su ks lg v place) : Twins su ks ks v place lg lg :=
  ⟨h, h, Alike.refl v _, fun _ _ _ _ _ => rfl, fun _ => rfl⟩

/-- A request that is answered and forgotten. -/
theorem Logged.forget (h : Logged su ks lg v place) {k : Nat} {out : List OutboundMsg}
    (hl : Logged su (ks ++ [k]) (lg.record k none lg.shard out) v place) :
    Twins su (ks ++ [k]) ks v place (lg.record k none lg.shard out) lg :=
  ⟨hl, h, Alike.refl v _, fun _ _ _ _ _ => rfl, fun _ => rfl⟩

/-- An order that takes a slot and gives it back. -/
theorem Logged.idle (h : Logged su ks lg v place) {k : Nat} {m : NewOrder} {r : AddResult}
    {v₁ : View} {place₁ : Nat → Place}
    (hadm : lg.shard.floor.Admits su.cfg.toDims (su.book m.symbolId) m.price)
    (hidle : lg.shard.floor.Idle su.cfg.toDims (su.book m.symbolId) m)
    (hrun : lg.shard.floor.addOrder su.cfg.toDims (su.book m.symbolId) m maxFillsPerOrder = .ok r)
    (hl : Logged su (ks ++ [k]) (lg.booked k m r) v₁ place₁) :
    Twins su (ks ++ [k]) ks v place (lg.booked k m r) lg := by
  obtain ⟨rfl, rfl, halike, -, hvalid⟩ := alike_of_idle h.rep h.settled hadm hidle hrun hl.rep
  have hinvalid : ¬ r.handle.valid = true := by
    rw [hvalid]
    exact Bool.false_ne_true
  refine ⟨hl, h, halike, fun s b S i _ => ?_, fun k' => ?_⟩
  · rw [Log.booked_owner, if_neg hinvalid]
  · rw [Log.booked_tokenOf, if_neg hinvalid]

/-- A request that is to leave no trace leaves a twin of the log before it. -/
theorem Logged.traceless (h : Logged su ks lg v place) (hN : su.cfg.N ≤ 2 ^ 24) {x : Nat × Item}
    (hk : x.1 ∉ ks) (hn : ks.length + 1 < 2 ^ 32) (hnamed : lg.Named x)
    (htrace : lg.Traceless su.cfg x.2) :
    ∃ lg₁ out, lg.send su.cfg x = .ok lg₁ ∧ lg₁.sent = lg.sent ++ [out] ∧
      Twins su (ks ++ [x.1]) ks v place lg₁ lg := by
  obtain ⟨k, item⟩ := x
  match item with
  | .request (.place m) =>
    obtain ⟨lg₁, v₁, place₁, hrec, hl, hcase⟩ := h.order hN m hk hn
    have hbook := h.localBook m.symbolId
    unfold Log.Traceless at htrace
    dsimp only at htrace
    rw [hbook] at htrace
    cases hcase with
    | unhosted _ => exact ⟨_, _, hrec, rfl, h.forget hl⟩
    | refused _ _ => exact ⟨_, _, hrec, rfl, h.forget hl⟩
    | added hb hadm hrun _ =>
      rw [hbook] at hb hadm hrun
      rcases htrace with hhost | hladder | hfull | hidle
      · exact absurd hhost hb
      · exact absurd hadm.1 hladder
      · exact absurd hfull (Nat.pos_iff_ne_zero.mp hadm.2)
      · exact ⟨_, _, hrec, rfl, h.idle hadm hidle hrun hl⟩
  | .request (.cancel target hdr) =>
    obtain ⟨t, ht⟩ := Option.isSome_iff_exists.mp hnamed
    rw [Log.send_cancel ht]
    obtain ⟨lg₁, v₁, place₁, hrec, hl, hcase⟩ := h.cancel hN k (c := ⟨hdr, t⟩) ht hn
    rcases hcase with ⟨s, b, S, i, -, hpl, hown, -, -, -, -⟩ | ⟨-, rfl, rfl, rfl⟩
    · refine absurd ⟨b, S, i, s, ?_, hown⟩ htrace
      rw [← h.rep.threads.view_eq]
      exact (h.rep.threads.queued b S i s).mpr hpl
    · exact ⟨_, _, hrec, rfl, h.forget hl⟩
  | .other hdr =>
    obtain ⟨hrec, hl⟩ := h.drop k hdr
    exact ⟨_, _, hrec, rfl, h.forget hl⟩

/-- Twins show the same best prices. -/
theorem Twins.best {ks' : List Nat} {lg' : Log} (h : Twins su ks ks' v place lg lg') (s : UInt16) :
    lg'.shard.bestBid su.cfg s = lg.shard.bestBid su.cfg s ∧
      lg'.shard.bestAsk su.cfg s = lg.shard.bestAsk su.cfg s := by
  unfold Shard.bestBid Shard.bestAsk
  rw [h.localBook]
  obtain ⟨hbase, htick⟩ := h.floor.params (lg.shard.localBook su.cfg s)
  rw [h.logged.rep.bestBidPrice_eq id, h.logged.rep.bestAskPrice_eq id,
    h.logged'.rep.bestBidPrice_eq id, h.logged'.rep.bestAskPrice_eq id, h.floor.books, hbase, htick]
  exact ⟨rfl, rfl⟩

end Traceless

/-- Without `x` the items `ys` after `xs` are answered as with it, generations apart, the cancels
    among them name acknowledged orders, and the best prices at the end are the same. -/
def NoTrace (su : Setup) (xs : List (Nat × Item)) (x : Nat × Item) (ys : List (Nat × Item)) :
    Prop :=
  ∃ mid lg lg' out outs outs', run (Log.send su.cfg) (Log.init su) xs = .ok mid ∧
    run (Log.send su.cfg) (Log.init su) (xs ++ x :: ys) = .ok lg ∧
    run (Log.send su.cfg) (Log.init su) (xs ++ ys) = .ok lg' ∧
    Along (Log.send su.cfg) Log.Named (Log.init su) (xs ++ ys) ∧
    lg.sent = mid.sent ++ out :: outs ∧ lg'.sent = mid.sent ++ outs' ∧
    outs'.map (List.map eraseGen) = outs.map (List.map eraseGen) ∧
    ∀ s, lg'.shard.bestBid su.cfg s = lg.shard.bestBid su.cfg s ∧
      lg'.shard.bestAsk su.cfg s = lg.shard.bestAsk su.cfg s

/-- On at most `2^24` slots, in any run of fewer than `2^32` messages whose cancels name
    acknowledged orders, a request that is rejected or killed leaves no trace. -/
theorem rejected_without_trace (su : Setup) (hN : su.cfg.N ≤ 2 ^ 24) (xs : List (Nat × Item))
    (x : Nat × Item) (ys : List (Nat × Item)) (hnd : ((xs ++ x :: ys).map Prod.fst).Nodup)
    (hlen : (xs ++ x :: ys).length < 2 ^ 32)
    (hnamed : Along (Log.send su.cfg) Log.Named (Log.init su) (xs ++ x :: ys))
    (htrace : ∀ mid, run (Log.send su.cfg) (Log.init su) xs = .ok mid →
      mid.Traceless su.cfg x.2) : NoTrace su xs x ys := by
  have hinit : Logged su [] (Log.init su) _ _ := ⟨[], _, _, logRep_init su, rfl⟩
  rw [List.map_append, List.map_cons] at hnd
  have hlen' : (xs.map Prod.fst ++ x.1 :: ys.map Prod.fst).length < 2 ^ 32 := by
    rwa [← List.map_cons (f := Prod.fst), ← List.map_append, List.length_map]
  rw [List.length_append, List.length_cons] at hlen'
  obtain ⟨hxs, hrest⟩ := along_append.mp hnamed
  -- the common part
  have hxsnd : (xs.map Prod.fst).Nodup := (List.nodup_append.mp hnd).1
  obtain ⟨-, mid, mid', v, place, outs₀, -, hmid, hmid', htwins, -⟩ := hinit.refl.run hN
    xs hxsnd hxsnd (by rw [List.nil_append]; omega) (by rw [List.nil_append]; omega) hxs
  obtain ⟨hx, hys⟩ := hrest mid hmid
  have hk : x.1 ∉ xs.map Prod.fst := fun hmem =>
    (List.nodup_append.mp hnd).2.2 _ hmem _ List.mem_cons_self rfl
  -- the request itself, in the first run only
  obtain ⟨lg₁, out, hsend, hout, htwins₁⟩ := htwins.logged.traceless hN hk
    (by rw [List.nil_append]; omega) hx (htrace mid hmid)
  rw [List.nil_append] at htwins₁
  -- the rest
  have hysnd : (xs.map Prod.fst ++ [x.1] ++ ys.map Prod.fst).Nodup := by
    rwa [List.append_assoc]
  have hysnd' : (xs.map Prod.fst ++ ys.map Prod.fst).Nodup :=
    hnd.sublist (List.Sublist.append_left (List.sublist_cons_self ..) _)
  obtain ⟨halong, lg, lg', v₂, place₂, outs, outs', hrun, hrun', htwins₂, hsent, hsent', herase⟩ :=
    htwins₁.run hN ys hysnd hysnd'
      (by
        rw [List.append_assoc, List.length_append, List.singleton_append, List.length_cons]
        omega)
      (by rw [List.length_append]; omega) (hys lg₁ hsend)
  refine ⟨mid, lg, lg', out, outs, outs', hmid, ?_, ?_, ?_, ?_, hsent', herase, htwins₂.best⟩
  · rw [run_append, hmid, ok_bind, run, hsend, ok_bind, hrun]
  · rw [run_append, hmid, ok_bind, hrun']
  · refine along_append.mpr ⟨hxs, fun t ht => ?_⟩
    obtain rfl : mid = t := Except.ok.inj (hmid.symm.trans ht)
    exact halong
  · rw [hsent, hout, List.append_assoc]
    rfl

/-- An order that is filled at once or not at all. -/
def killedOrder (price : Int64) : NewOrder :=
  { orderFrom 7 9 Side.buy price 3 with tif := TimeInForce.ioc }

/-- A seller rests, a buyer's order below is killed, another one trades, and the seller cancels. -/
theorem rejected_without_trace_killed :
    NoTrace smallSetup [(0, .request (.place (orderFrom 7 1 Side.sell 103 5)))]
      (1, .request (.place (killedOrder 102)))
      [(2, .request (.place (orderFrom 8 2 Side.buy 103 2))),
        (3, .request (.cancel 0 ⟨16, .cancelOrder, 0, 7⟩))] := by
  refine rejected_without_trace smallSetup (by decide) _ _ _ (by decide) (by decide)
    (along_of_check (p := fun lg x => decide (lg.Named x)) (fun _ _ hx => of_decide_eq_true hx)
      (by decide +kernel)) fun mid hmid => ?_
  cases hmid
  exact Or.inr (Or.inr (Or.inr (Or.inr (by decide +kernel))))

/-- An order that is killed before a seller rests and cancels. -/
def killedFirst : (Nat × Item) × List (Nat × Item) :=
  ((0, .request (.place (killedOrder 20))),
    [(1, .request (.place (orderFrom 7 1 Side.sell 30 5))),
      (2, .request (.cancel 1 ⟨16, .cancelOrder, 0, 7⟩))])

/-- What is sent for `ys`, with `x` before it and without. -/
def sentWithout (su : Setup) (x : Nat × Item) (ys : List (Nat × Item)) : Except Fault Bool := do
  let lg ← run (Log.send su.cfg) (Log.init su) (x :: ys)
  let lg' ← run (Log.send su.cfg) (Log.init su) ys
  return decide (lg'.sent.map (List.map eraseGen) = lg.sent.tail.map (List.map eraseGen))

/-- Without the bound on the arena the killed order is noticed: it leaves slot `2^24 + 2` with
    generation 1, and the seller's token names slot 2 with that generation and is rejected; with
    generation 0 it is accepted. -/
theorem high_slot_leaves_trace :
    ¬ ∀ (su : Setup) (xs : List (Nat × Item)) (x : Nat × Item) (ys : List (Nat × Item)),
      ((xs ++ x :: ys).map Prod.fst).Nodup → (xs ++ x :: ys).length < 2 ^ 32 →
      Along (Log.send su.cfg) Log.Named (Log.init su) (xs ++ x :: ys) →
      (∀ mid, run (Log.send su.cfg) (Log.init su) xs = .ok mid → mid.Traceless su.cfg x.2) →
      NoTrace su xs x ys := by
  intro hall
  have hcode : sentWithout wideSetup killedFirst.1 killedFirst.2 = .ok false := by decide +kernel
  obtain ⟨mid, lg, lg', out, outs, outs', hmid, hrun, hrun', -, hsent, hsent', herase, -⟩ :=
    hall wideSetup [] killedFirst.1 killedFirst.2 (by decide) (by decide)
      (along_of_check (p := fun lg x => decide (lg.Named x)) (fun _ _ hx => of_decide_eq_true hx)
        (by decide +kernel)) fun mid hmid => by
          cases hmid
          exact Or.inr (Or.inr (Or.inr (Or.inr (by decide +kernel))))
  cases hmid
  rw [List.nil_append] at hrun hrun'
  have hsame : lg'.sent.map (List.map eraseGen) = lg.sent.tail.map (List.map eraseGen) := by
    rw [hsent, hsent']
    exact herase
  rw [sentWithout, hrun, ok_bind, hrun', ok_bind, decide_eq_true hsame] at hcode
  cases hcode

end LiteExchange.Engine

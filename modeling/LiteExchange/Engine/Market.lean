/-
  The market of one symbol. A shard keeps all its books over one arena, but what it answers to
  the requests for a symbol is what the symbol's own market answers, a reference book that hears
  of nothing else.

  * Requests name orders by label, and a cancel names its order by the label of the request that
    placed it. `Log.perform` sends a request to a shard, a cancel with the token of that order's
    Ack.
  * `Served`: every book of the shard is the book of its symbol's market, the same orders were
    acknowledged, and the messages sent are the market's, tokens apart. `Served.perform`: a
    request keeps this as long as an order finds a free slot and a cancel a token.
-/
import LiteExchange.Engine.Log

namespace LiteExchange.Engine

open Lib Proto Book

/-! ## Requests -/

/-- A new order, or a cancel of the order that the request labelled `target` placed. -/
inductive Request where
  | place (m : NewOrder)
  | cancel (target : Nat) (hdr : Header)

/-- The message of a request. A cancel needs the token its order was acknowledged with. -/
def Log.message (lg : Log) : Request → Option InboundMsg
  | .place m => some (.newOrder m)
  | .cancel target hdr => (lg.tokenOf target).map fun t => .cancel ⟨hdr, t⟩

/-- One labelled request. Without a token there is nothing to send. -/
def Log.perform (cfg : ShardConfig) (lg : Log) (x : Nat × Request) : Except Fault Log :=
  match lg.message x.2 with
  | some m => lg.receive cfg (x.1, m)
  | none => .ok lg

/-- A new order finds a free slot, a cancel names an order that was acknowledged. -/
def Log.Ready (lg : Log) (x : Nat × Request) : Prop :=
  match x.2 with
  | .place _ => 0 < lg.shard.floor.pool.freeTop
  | .cancel target _ => (lg.tokenOf target).isSome

instance (lg : Log) : ∀ x : Nat × Request, Decidable (lg.Ready x)
  | (_, .place _) => inferInstanceAs (Decidable (0 < lg.shard.floor.pool.freeTop))
  | (_, .cancel target _) => inferInstanceAs (Decidable ((lg.tokenOf target).isSome = true))

/-- The symbol a request is about, `sym` giving the symbols of the orders. -/
def Request.symbol (sym : Nat → Option UInt16) : Request → Option UInt16
  | .place m => some m.symbolId
  | .cancel target _ => sym target

/-- The requests about a symbol. -/
def about (sym : Nat → Option UInt16) (s : UInt16) (x : Nat × Request) : Bool :=
  decide (x.2.symbol sym = some s)

/-- A message without its token. -/
def eraseToken : OutboundMsg → OutboundMsg
  | .ack a => .ack { a with orderToken := 0 }
  | o => o

/-! ## The market -/

/-- What a market is subject to: the size of the ladder, the level of each price, and whether
    the symbol is traded at all. -/
structure Terms where
  L : Nat
  level : Int64 → Option Nat
  hosted : Bool

/-- A book whose orders are named by label, the orders that were acknowledged, and the messages
    sent for each request. -/
structure Market where
  book : Ladder Nat
  acked : List Nat
  sent : List (List OutboundMsg)

def Market.init : Market := ⟨fun _ _ => [], [], []⟩

/-- The market after a request that leaves the book alone. -/
def Market.say (mk : Market) (out : List OutboundMsg) : Market :=
  { mk with sent := mk.sent ++ [out] }

/-- What is sent for a new order: its fills, and an Ack if it rests. -/
def tradeReport (m : NewOrder) (add : Added Nat) : List OutboundMsg :=
  (add.trades.flatMap fun t => emitFill (fillOf m.orderId t) m.hdr.sessionId) ++
    if add.rests then [emitAck m.orderId 0 m.hdr.sessionId] else []

/-- The market after a new order with outcome `add`. -/
def Market.added (mk : Market) (k : Nat) (m : NewOrder) (add : Added Nat) : Market :=
  ⟨add.book, if add.rests then mk.acked ++ [k] else mk.acked, mk.sent ++ [tradeReport m add]⟩

def Market.step (T : Terms) (mk : Market) (x : Nat × Request) : Market :=
  match x.2 with
  | .place m =>
    if T.hosted then
      match T.level m.price with
      | none => mk.say []
      | some a => mk.added x.1 m (mk.book.add T.L x.1 m a maxFillsPerOrder)
    else mk.say [emitReject m.orderId .unknownSymbol m.hdr.sessionId]
  | .cancel target hdr =>
    if (mk.book.find? T.L target).isSome then
      { mk.say [emitAck 0 0 hdr.sessionId] with book := mk.book.cancel target }
    else mk.say [emitReject 0 .unknownOrder hdr.sessionId]

def Market.run (T : Terms) (xs : List (Nat × Request)) : Market := xs.foldl (Market.step T) .init

theorem Market.run_snoc (T : Terms) (xs : List (Nat × Request)) (x : Nat × Request) :
    Market.run T (xs ++ [x]) = (Market.run T xs).step T x := by
  rw [Market.run, List.foldl_append]
  rfl

section Step

variable {T : Terms} {m : NewOrder}

theorem Market.mem_added {mk : Market} {k k' : Nat} {add : Added Nat} :
    k' ∈ (mk.added k m add).acked ↔ k' ∈ mk.acked ∨ (add.rests = true ∧ k' = k) := by
  cases h : add.rests <;> simp [Market.added, h]

theorem Market.step_unhosted (mk : Market) (k : Nat) (h : T.hosted = false) :
    mk.step T (k, .place m) = mk.say [emitReject m.orderId .unknownSymbol m.hdr.sessionId] :=
  if_neg (by simp [h])

theorem Market.step_off (mk : Market) (k : Nat) (h : T.hosted = true)
    (hl : T.level m.price = none) :
    mk.step T (k, .place m) = mk.say [] := by
  rw [Market.step]
  dsimp only
  rw [if_pos h, hl]

theorem Market.step_add (mk : Market) (k : Nat) (h : T.hosted = true) {a : Nat}
    (hl : T.level m.price = some a) :
    mk.step T (k, .place m) = mk.added k m (mk.book.add T.L k m a maxFillsPerOrder) := by
  rw [Market.step]
  dsimp only
  rw [if_pos h, hl]

theorem Market.step_cancel (mk : Market) (k target : Nat) (hdr : Header)
    (h : ∃ S i, i < T.L ∧ ∃ o ∈ mk.book S i, o.id = target) : mk.step T (k, .cancel target hdr) =
      { mk.say [emitAck 0 0 hdr.sessionId] with book := mk.book.cancel target } :=
  if_pos (Ladder.find?_isSome.mpr h)

theorem Market.step_gone (mk : Market) (k target : Nat) (hdr : Header)
    (h : ¬ ∃ S i, i < T.L ∧ ∃ o ∈ mk.book S i, o.id = target) :
    mk.step T (k, .cancel target hdr) = mk.say [emitReject 0 .unknownOrder hdr.sessionId] :=
  if_neg fun hs => h (Ladder.find?_isSome.mp hs)

end Step

/-- The book of a symbol on shards built from `su`. -/
def Setup.book (su : Setup) (s : UInt16) : Nat := su.shard.localBook su.cfg s

/-- The terms a shard gives a symbol. -/
def Setup.terms (su : Setup) (s : UInt16) : Terms :=
  ⟨su.cfg.L, ladderIdx su.cfg.toDims su.basePrice su.tickSize, decide (su.book s ≠ noBook)⟩

/-- What was sent for the requests about a symbol. -/
def sentFor (sym : Nat → Option UInt16) (s : UInt16) (xs : List (Nat × Request))
    (sent : List (List OutboundMsg)) : List (List OutboundMsg) :=
  ((xs.zip sent).filter fun y => about sym s y.1).map fun y => y.2.map eraseToken

theorem sentFor_snoc {sym : Nat → Option UInt16} {s : UInt16} {xs : List (Nat × Request)}
    {sent : List (List OutboundMsg)} (hlen : sent.length = xs.length) (x : Nat × Request)
    (out : List OutboundMsg) : sentFor sym s (xs ++ [x]) (sent ++ [out]) =
      sentFor sym s xs sent ++ if about sym s x then [out.map eraseToken] else [] := by
  rw [sentFor, List.zip_append hlen.symm, List.filter_append, List.map_append]
  cases h : about sym s x <;> simp [sentFor, h]

/-! ## Shards as markets -/

/-- The market of a symbol after the requests `xs`, of which it hears its own. -/
def Setup.market (su : Setup) (sym : Nat → Option UInt16) (s : UInt16)
    (xs : List (Nat × Request)) : Market :=
  Market.run (su.terms s) (xs.filter (about sym s))

/-- The shard after the requests `xs`, sent as the messages `ys`, is the markets of its
    symbols. -/
structure Served (su : Setup) (sym : Nat → Option UInt16) (xs : List (Nat × Request)) (lg : Log)
    (ys : List (Nat × InboundMsg)) (dk : Desk) (lab : Nat → Nat) (v : View) (place : Nat → Place) :
    Prop where
  rep : LogRep su ys lg dk lab v place
  labels : ys.map Prod.fst = xs.map Prod.fst
  orders : ∀ k m, (k, .newOrder m) ∈ ys → (k, .place m) ∈ xs
  length : lg.sent.length = xs.length
  book : ∀ s, su.book s ≠ noBook →
    absBook lg.shard.floor lg.owner v (su.book s) = (su.market sym s xs).book
  acked : ∀ s k, sym k = some s → ((lg.tokenOf k).isSome ↔ k ∈ (su.market sym s xs).acked)
  sent : ∀ s, sentFor sym s xs lg.sent = (su.market sym s xs).sent

theorem served_init (su : Setup) (sym : Nat → Option UInt16) :
    Served su sym [] (Log.init su) [] (Desk.init su.cfg.toDims su.basePrice su.tickSize)
      (fun _ => 0) (fun _ _ _ => []) (fun s => if s < su.cfg.N then .free else .outside) where
  rep := logRep_init su
  labels := rfl
  orders := fun _ _ h => absurd h List.not_mem_nil
  length := rfl
  book := fun _ _ => rfl
  acked := fun _ _ _ => ⟨nofun, fun h => absurd h List.not_mem_nil⟩
  sent := fun _ => rfl

section Served

variable {su : Setup} {sym : Nat → Option UInt16} {xs : List (Nat × Request)} {lg : Log}
variable {ys : List (Nat × InboundMsg)} {dk : Desk} {lab : Nat → Nat} {v : View}
variable {place : Nat → Place}

theorem LogRep.localBook_eq (h : LogRep su ys lg dk lab v place) (s : UInt16) :
    lg.shard.localBook su.cfg s = su.book s := by
  rw [Setup.book, Shard.localBook, h.table]
  rfl

theorem Setup.book_inj (su : Setup) {s s' : UInt16} (hs : su.book s ≠ noBook)
    (he : su.book s = su.book s') : s = s' :=
  Shard.localBook_inj (show su.shard.localOf = symbolTable su.cfg su.symbols.ids from rfl) hs he

theorem Setup.market_snoc_self (su : Setup) {s : UInt16} {x : Nat × Request}
    (hx : x.2.symbol sym = some s) (xs : List (Nat × Request)) :
    su.market sym s (xs ++ [x]) = (su.market sym s xs).step (su.terms s) x := by
  have hx' : [x].filter (about sym s) = [x] := List.filter_singleton.trans (by simp [about, hx])
  rw [Setup.market, List.filter_append, hx', Market.run_snoc]
  rfl

theorem Setup.market_snoc_of_ne (su : Setup) {s : UInt16} {x : Nat × Request}
    (hx : x.2.symbol sym ≠ some s) (xs : List (Nat × Request)) :
    su.market sym s (xs ++ [x]) = su.market sym s xs := by
  have hx' : [x].filter (about sym s) = [] := List.filter_singleton.trans (by simp [about, hx])
  rw [Setup.market, List.filter_append, hx', List.append_nil]
  rfl

/-- A request about `s` that changes no other book. `new` says whether its label has become the
    name of an acknowledged order. -/
theorem Served.extend (h : Served su sym xs lg ys dk lab v place) (new : Bool) {x : Nat × Request}
    {s : UInt16} (hx : x.2.symbol sym = some s) {m : InboundMsg} {lg' : Log} {dk' : Desk}
    {lab' : Nat → Nat} {v' : View} {place' : Nat → Place}
    (hrep : LogRep su (ys ++ [(x.1, m)]) lg' dk' lab' v' place')
    (hm : ∀ q, m = .newOrder q → x.2 = .place q) {out : List OutboundMsg}
    (hsent : lg'.sent = lg.sent ++ [out]) {mk : Market}
    (hmk : (su.market sym s xs).step (su.terms s) x = mk)
    (hmsent : mk.sent = (su.market sym s xs).sent ++ [out.map eraseToken])
    (hmacked : ∀ k, k ∈ mk.acked ↔ k ∈ (su.market sym s xs).acked ∨ (new = true ∧ k = x.1))
    (hnew : new = true → sym x.1 = some s)
    (hbook : su.book s ≠ noBook → absBook lg'.shard.floor lg'.owner v' (su.book s) = mk.book)
    (hother : ∀ b, b ≠ su.book s →
      absBook lg'.shard.floor lg'.owner v' b = absBook lg.shard.floor lg.owner v b)
    (htoken : ∀ k, (lg'.tokenOf k).isSome ↔ (lg.tokenOf k).isSome ∨ (new = true ∧ k = x.1)) :
    Served su sym (xs ++ [x]) lg' (ys ++ [(x.1, m)]) dk' lab' v' place' := by
  refine ⟨hrep, ?_, fun k q hq => ?_, ?_, fun s' hs' => ?_, fun s' k hk => ?_, fun s' => ?_⟩
  · rw [List.map_append, List.map_append, h.labels]
    rfl
  · rcases List.mem_append.mp hq with hq | hq
    · exact List.mem_append_left _ (h.orders k q hq)
    · obtain ⟨hk, hq⟩ := Prod.mk.inj (List.mem_singleton.mp hq)
      exact List.mem_append_right _ (List.mem_singleton.mpr (Prod.ext hk (hm q hq.symm).symm))
  · rw [hsent, List.length_append, List.length_append, h.length]
    rfl
  · by_cases he : s' = s
    · subst he
      rw [su.market_snoc_self hx, hmk, hbook hs']
    · have hne : su.book s' ≠ su.book s := fun e => he (su.book_inj hs' e)
      rw [su.market_snoc_of_ne fun e => he (Option.some_inj.mp (e.symm.trans hx)), hother _ hne,
        h.book s' hs']
  · rw [htoken]
    by_cases he : s' = s
    · subst he
      rw [su.market_snoc_self hx, hmk, hmacked, h.acked s' k hk]
    · rw [su.market_snoc_of_ne fun e => he (Option.some_inj.mp (e.symm.trans hx)),
        ← h.acked s' k hk]
      refine or_iff_left ?_
      rintro ⟨hn, rfl⟩
      exact he (Option.some_inj.mp (hk.symm.trans (hnew hn)))
  · rw [hsent, sentFor_snoc h.length, h.sent]
    by_cases he : s' = s
    · subst he
      rw [su.market_snoc_self hx, hmk, hmsent,
        if_pos (show about sym s' x = true from decide_eq_true hx)]
    · have hne : x.2.symbol sym ≠ some s' := fun e => he (Option.some_inj.mp (e.symm.trans hx))
      rw [su.market_snoc_of_ne hne, if_neg (by simp [about, hne]), List.append_nil]

/-! ## New orders -/

theorem erase_emitFill (f : Fill) (sessionId : UInt32) :
    (emitFill f sessionId).map eraseToken = emitFill f sessionId := by
  rw [emitFill]
  split <;> rfl

/-- The answer to a new order, tokens apart, is the one its trades call for. -/
theorem erase_report {add : Added Nat} {m : NewOrder} {r : AddResult}
    (hfills : r.fills = add.trades.map (fillOf m.orderId)) (hvalid : r.handle.valid = add.rests)
    (shardId : UInt8) :
    (reportOf shardId m r m.hdr.sessionId).map eraseToken = tradeReport m add := by
  rw [reportOf, tradeReport, List.map_append, List.map_flatMap, hfills, List.flatMap_map, hvalid]
  congr 1
  · exact List.flatMap_congr fun t _ => erase_emitFill ..
  · cases add.rests <;> rfl

theorem isSome_tokenOf_call {k : Nat} (hk : lg.tokenOf k = none) {m : NewOrder} {r : AddResult}
    {new : Bool} (hnew : r.handle.valid = new) (shardId : UInt8) (sessionId : UInt32) (sh : Shard)
    (out : List OutboundMsg) (k' : Nat) :
    ((lg.record k (newToken (.newOrder m) (reportOf shardId m r sessionId)) sh out).tokenOf
      k').isSome ↔ (lg.tokenOf k').isSome ∨ (new = true ∧ k' = k) := by
  subst hnew
  rw [Option.isSome_iff_exists, Option.isSome_iff_exists]
  simp only [Log.tokenOf_call hk, exists_or]
  refine or_congr_right ⟨?_, fun ⟨hv, he⟩ => ⟨_, hv, he.symm, rfl⟩⟩
  rintro ⟨t, hv, he, -⟩
  exact ⟨hv, he.symm⟩

/-- Labels of later requests name no order. -/
theorem Served.tokenOf_fresh (h : Served su sym xs lg ys dk lab v place) {k : Nat}
    (hk : k ∉ xs.map Prod.fst) : lg.tokenOf k = none := by
  rw [← h.labels] at hk
  exact h.rep.tokenOf_fresh hk

theorem Served.length_eq (h : Served su sym xs lg ys dk lab v place) : ys.length = xs.length := by
  rw [← List.length_map (f := Prod.fst), h.labels, List.length_map]

theorem Served.order (h : Served su sym xs lg ys dk lab v place) (hN : su.cfg.N ≤ 2 ^ 24) {k : Nat}
    {m : NewOrder} (hk : k ∉ xs.map Prod.fst) (hn : xs.length + 1 < 2 ^ 32)
    (hsym : sym k = some m.symbolId) (hfree : 0 < lg.shard.floor.pool.freeTop) :
    ∃ lg' ys' dk' lab' v' place', lg.perform su.cfg (k, .place m) = .ok lg' ∧
      Served su sym (xs ++ [(k, .place m)]) lg' ys' dk' lab' v' place' := by
  obtain ⟨lg', dk', lab', v', place', hrec, h', hcase⟩ := h.rep.receive_new hN m
    (h.labels ▸ hk) (h.length_eq ▸ hn)
  refine ⟨lg', ys ++ [(k, .newOrder m)], dk', lab', v', place', hrec, ?_⟩
  have hbook := h.rep.localBook_eq m.symbolId
  have hidx := h.rep.desk.ladderIdx_eq (su.book m.symbolId) m.price
  rw [← h.rep.floor] at hidx
  cases hcase with
  | unhosted hb =>
    rw [hbook] at hb
    have hstep := (su.market sym m.symbolId xs).step_unhosted k (T := su.terms m.symbolId)
      (m := m) (decide_eq_false (not_not.mpr hb))
    exact h.extend false rfl h' (fun q e => by cases e; rfl) rfl hstep rfl
      (by simp [Market.say]) nofun (fun hne => absurd hb hne) (fun _ _ => rfl)
      (by simp [Log.record])
  | refused hb hadm =>
    rw [hbook] at hb hadm
    have hoff : ¬ (lg.shard.floor.books (su.book m.symbolId)).OnLadder su.cfg.toDims m.price :=
      fun hon => hadm ⟨hon, hfree⟩
    rw [if_neg hoff] at hidx
    have hstep := (su.market sym m.symbolId xs).step_off k (T := su.terms m.symbolId)
      (m := m) (decide_eq_true hb) hidx
    exact h.extend false rfl h' (fun q e => by cases e; rfl) rfl hstep rfl
      (by simp [Market.say]) nofun (fun hne => h.book _ hne) (fun _ _ => rfl)
      (by simp [Log.record])
  | @added _ _ r _ _ hb hadm hrun hspec =>
    rw [hbook] at hb hadm hspec
    rw [if_pos hadm.1] at hidx
    rw [h.book _ hb] at hspec
    have hstep := (su.market sym m.symbolId xs).step_add k (T := su.terms m.symbolId)
      (m := m) (decide_eq_true hb) hidx
    have hvalid := hspec.valid_eq (h.rep.floor ▸ h.rep.desk.rep.threads)
    have hthreads := h'.floor ▸ h'.desk.rep.threads
    have hbooks := fun b => hspec.books_eq hthreads b
    rw [← hvalid, ← lg.owner_call k lg.shard.shardId m r m.hdr.sessionId
      { lg.shard with floor := r.floor } (reportOf lg.shard.shardId m r m.hdr.sessionId)] at hbooks
    exact h.extend _ rfl h' (fun q e => by cases e; rfl) rfl hstep
      (by rw [erase_report hspec.fills hvalid]; rfl) (fun _ => Market.mem_added) (fun _ => hsym)
      (fun _ => (hbooks _).trans (if_pos rfl)) (fun b hne => (hbooks b).trans (if_neg hne))
      (isSome_tokenOf_call (h.tokenOf_fresh hk) hvalid _ _ _ _)

/-! ## Cancels -/

/-- The symbol of an acknowledged order is hosted. -/
theorem Served.symbol_of_token (h : Served su sym xs lg ys dk lab v place)
    (hsym : ∀ k m, (k, .place m) ∈ xs → sym k = some m.symbolId) {k : Nat} {t : UInt64}
    (ht : lg.tokenOf k = some t) : ∃ s, sym k = some s ∧ su.book s ≠ noBook := by
  obtain ⟨j, p, hp, -, rfl, -⟩ := (h.rep.token k t).mp ht
  obtain ⟨hmem, hbook, hne⟩ := h.rep.calls j p hp
  refine ⟨p.msg.symbolId, hsym _ _ (h.orders _ _ hmem), ?_⟩
  rwa [← h.rep.localBook_eq, hbook]

/-- The order `k` of symbol `s` rests in its market exactly when it is in a slot on a list. -/
theorem Served.rests_iff (h : Served su sym xs lg ys dk lab v place)
    (hsym : ∀ k m, (k, .place m) ∈ xs → sym k = some m.symbolId) {k : Nat} {s : UInt16}
    (hk : sym k = some s) (hs : su.book s ≠ noBook) :
    (∃ S i, i < su.cfg.L ∧ ∃ o ∈ (su.market sym s xs).book S i, o.id = k) ↔
      ∃ c b S i, place c = .level b S i ∧ lg.owner c = k := by
  have hqueued := h.rep.desk.rep.threads.queued
  rw [← h.book s hs]
  constructor
  · rintro ⟨S, i, -, o, ho, rfl⟩
    obtain ⟨c, hc, rfl⟩ := mem_absBook.mp ho
    exact ⟨c, su.book s, S, i, (hqueued _ _ _ _).mp hc, rfl⟩
  · rintro ⟨c, b, S, i, hpl, rfl⟩
    -- the slot is on the book of the order's symbol
    obtain ⟨q, hq, hb, -, -, -⟩ := h.rep.msg_of_slot hpl
    obtain rfl : s = q.symbolId :=
      Option.some_inj.mp (hk.symm.trans (hsym _ _ (h.orders _ _ hq)))
    rw [h.rep.localBook_eq] at hb
    have hmem := (hqueued b S i c).mpr hpl
    refine ⟨S, i, (h.rep.desk.rep.threads.records b S i c hmem).1,
      (lg.shard.floor.pool.slots c).view (lg.owner c) (lg.shard.floor.session c), ?_, rfl⟩
    rw [hb]
    exact mem_absBook.mpr ⟨c, hmem, rfl⟩

theorem Served.cancel (h : Served su sym xs lg ys dk lab v place) (hN : su.cfg.N ≤ 2 ^ 24)
    (hsym : ∀ k m, (k, .place m) ∈ xs → sym k = some m.symbolId) (k : Nat) {target : Nat}
    (hdr : Header) (hn : xs.length + 1 < 2 ^ 32) (ht : (lg.tokenOf target).isSome) :
    ∃ lg' ys' dk' lab' v' place', lg.perform su.cfg (k, .cancel target hdr) = .ok lg' ∧
      Served su sym (xs ++ [(k, .cancel target hdr)]) lg' ys' dk' lab' v' place' := by
  obtain ⟨t, ht⟩ := Option.isSome_iff_exists.mp ht
  obtain ⟨s, hs, hhost⟩ := h.symbol_of_token hsym ht
  obtain ⟨lg', dk', v', place', hrec, h', hcase⟩ := h.rep.receive_cancel hN k (c := ⟨hdr, t⟩) ht
    (h.length_eq ▸ hn)
  refine ⟨lg', ys ++ [(k, .cancel ⟨hdr, t⟩)], dk', lab, v', place', ?_, ?_⟩
  · rw [Log.perform, Log.message, ht]
    exact hrec
  have hrests := h.rests_iff hsym hs hhost
  cases hcase with
  | @cancelled _ k' c b i _ S fl _ htoken hpl hown hspec =>
    obtain rfl : target = k' := h.rep.once _ _ _ ht htoken
    have hstep := (su.market sym s xs).step_cancel k target hdr (T := su.terms s)
      (hrests.mpr ⟨c, b, S, i, hpl, hown⟩)
    -- the slot's book is that of the symbol
    obtain ⟨q, hq, hb, -, -, -⟩ := h.rep.msg_of_slot hpl
    obtain rfl : s = q.symbolId :=
      Option.some_inj.mp (hs.symm.trans (hown ▸ hsym _ _ (h.orders _ _ hq)))
    rw [h.rep.localBook_eq] at hb
    subst hb
    have hthreads : Threads su.cfg.toDims lg.shard.floor v place :=
      h.rep.floor ▸ h.rep.desk.rep.threads
    have huniq : ∀ S' i' c', c' ∈ v (su.book q.symbolId) S' i' → lg.owner c' = lg.owner c →
        c' = c := fun S' i' c' hc' e => h.rep.owner_inj ((hthreads.queued _ _ _ _).mp hc') hpl e
    refine h.extend false (x := (k, .cancel target hdr)) hs h' nofun rfl hstep rfl
      (by simp [Market.say]) nofun (fun _ => ?_) (fun b hb => hspec.absBook_other hb)
      (by simp [Log.record])
    exact (hspec.absBook_eq hthreads huniq).trans (by rw [hown, h.book _ hhost])
  | @stale _ k' _ htoken hgone =>
    obtain rfl : target = k' := h.rep.once _ _ _ ht htoken
    have hstep := (su.market sym s xs).step_gone k target hdr (T := su.terms s) fun hr => by
      obtain ⟨c, b, S, i, hpl, hown⟩ := hrests.mp hr
      exact hgone c b S i hpl hown
    exact h.extend false (x := (k, .cancel target hdr)) hs h' nofun rfl hstep rfl
      (by simp [Market.say]) nofun (fun _ => h.book _ hhost) (fun _ _ => rfl) (by simp [Log.record])

/-- A request that is ready keeps the shard the markets of its symbols. -/
theorem Served.perform (h : Served su sym xs lg ys dk lab v place) (hN : su.cfg.N ≤ 2 ^ 24)
    {x : Nat × Request} (hsym : ∀ k m, (k, .place m) ∈ xs ++ [x] → sym k = some m.symbolId)
    (hk : x.1 ∉ xs.map Prod.fst) (hn : xs.length + 1 < 2 ^ 32) (hready : lg.Ready x) :
    ∃ lg' ys' dk' lab' v' place', lg.perform su.cfg x = .ok lg' ∧
      Served su sym (xs ++ [x]) lg' ys' dk' lab' v' place' := by
  obtain ⟨k, q⟩ := x
  cases q with
  | place m =>
    exact h.order hN hk hn (hsym k m (List.mem_append_right _ (List.mem_singleton.mpr rfl))) hready
  | cancel target hdr =>
    exact h.cancel hN (fun k m hm => hsym k m (List.mem_append_left _ hm)) k hdr hn hready

/-- An arena has room for as many requests as it has slots. -/
theorem Served.room_le (h : Served su sym xs lg ys dk lab v place) :
    su.cfg.N ≤ lg.shard.floor.pool.freeTop + xs.length := by
  have hused := h.rep.desk.rep.threads.card_used
  have hle : ((Finset.range su.cfg.N).filter fun c => ¬ place c = .free).card ≤ xs.length := by
    rw [← List.length_map (f := Prod.fst)]
    refine le_trans (Finset.card_le_card_of_injOn lg.owner (fun c hc => ?_)
      (fun c hc c' hc' e => ?_)) (List.toFinset_card_le _)
    · rw [Finset.mem_coe, Finset.mem_filter, Finset.mem_range] at hc
      obtain ⟨b, S, i, hpl⟩ := h.rep.desk.level_of_used hc.1 hc.2
      obtain ⟨q, hq, -⟩ := h.rep.msg_of_slot hpl
      rw [Finset.mem_coe, List.mem_toFinset, ← h.labels]
      exact List.mem_map_of_mem hq
    · rw [Finset.mem_coe, Finset.mem_filter, Finset.mem_range] at hc hc'
      obtain ⟨b, S, i, hpl⟩ := h.rep.desk.level_of_used hc.1 hc.2
      obtain ⟨b', S', i', hpl'⟩ := h.rep.desk.level_of_used hc'.1 hc'.2
      exact h.rep.owner_inj hpl hpl' e
  have hN : su.cfg.toDims.N = su.cfg.N := rfl
  rw [h.rep.floor]
  omega

end Served

/-- Orders alone, no more of them than there are slots. -/
theorem orders_run (su : Setup) (hN : su.cfg.N ≤ 2 ^ 24) (sym : Nat → Option UInt16)
    (ms : List (Nat × NewOrder)) (hnd : (ms.map Prod.fst).Nodup)
    (hsym : ∀ x ∈ ms, sym x.1 = some x.2.symbolId) (hlen : ms.length ≤ su.cfg.N) :
    ∃ lg ys dk lab v place,
      run (Log.receive su.cfg) (Log.init su) (ms.map fun x => (x.1, .newOrder x.2)) = .ok lg ∧
      Served su sym (ms.map fun x => (x.1, .place x.2)) lg ys dk lab v place := by
  induction ms using List.reverseRecOn with
  | nil => exact ⟨_, _, _, _, _, _, rfl, served_init su sym⟩
  | append_singleton ms x ih =>
    rw [List.length_append, List.length_singleton] at hlen
    rw [List.map_append, List.nodup_append] at hnd
    obtain ⟨lg, ys, dk, lab, v, place, hrun, h⟩ := ih hnd.1
      (fun y hy => hsym y (List.mem_append_left _ hy)) (by omega)
    have hroom := h.room_le
    rw [List.length_map] at hroom
    have hk : x.1 ∉ (ms.map fun x => (x.1, Request.place x.2)).map Prod.fst := fun hmem => by
      rw [List.map_map] at hmem
      exact hnd.2.2 _ hmem _ (List.mem_singleton.mpr rfl) rfl
    obtain ⟨lg', ys', dk', lab', v', place', hrec, h'⟩ := h.order hN hk
      (by rw [List.length_map]; omega)
      (hsym x (List.mem_append_right _ (List.mem_singleton.mpr rfl))) (by omega)
    refine ⟨lg', ys', dk', lab', v', place', ?_, ?_⟩
    · rw [List.map_append, List.map_singleton, run_snoc hrun]
      exact hrec
    · rw [List.map_append, List.map_singleton]
      exact h'

end LiteExchange.Engine

/-
  What a client knows of its orders. A client hears of an order by the messages sent to its session:
  Fills for what the order trades, an Ack with the token of what rests, and the Ack of its cancel.
  An `Account` is the book-keeping of a client for one order.

  `account_exact`: in every run with genuine cancels on at most `2^24` slots, the quantity left by
  the account is the quantity the order has on the lists of its book, and it is positive exactly
  when the order rests.

  The messages say so much under three conditions. The order id is not 0, which stands in the Ack
  of a cancel. No other order of the run has it, since a Fill names both parties by their ids alone.
  And the order is cancelled by its own session only: `handle_cancel` takes a token from any
  session and answers the one that sent it.
-/
import LiteExchange.Book.Ledger
import LiteExchange.Engine.Market
import LiteExchange.Engine.Reports

namespace LiteExchange.Engine

open Lib Proto Book

/-! ## Accounts -/

/-- The token of the order, what it has traded, and whether its cancel was acknowledged. -/
structure Account where
  token : Option UInt64
  filled : Nat
  cancelled : Bool
  deriving DecidableEq, Repr

def Account.fresh : Account := ⟨none, 0, false⟩

/-- The account of the order `m` after a message. -/
def Account.hear (m : NewOrder) (ac : Account) : OutboundMsg → Account
  | .ack a =>
    if a.orderId = m.orderId then { ac with token := some a.orderToken }
    else if a.orderId = 0 ∧ ac.token = some a.orderToken then { ac with cancelled := true }
    else ac
  | .fill f =>
    if f.aggressorId = m.orderId ∨ f.restingId = m.orderId then
      { ac with filled := ac.filled + f.qty.toNat }
    else ac
  | .reject _ => ac

/-- What is left of the order: nothing unless it was acknowledged and not cancelled. -/
def Account.left (m : NewOrder) (ac : Account) : Nat :=
  if ac.token.isSome ∧ ac.cancelled = false then m.qty.toNat - ac.filled else 0

/-- The account of the order `m`, by the messages to its session among those sent. -/
def account (m : NewOrder) (sent : List OutboundMsg) : Account :=
  (toSession m.hdr.sessionId sent).foldl (Account.hear m) Account.fresh

theorem toSession_append (k : UInt32) (xs ys : List OutboundMsg) :
    toSession k (xs ++ ys) = toSession k xs ++ toSession k ys := List.filter_append ..

theorem account_snoc (m : NewOrder) (sent : List (List OutboundMsg)) (out : List OutboundMsg) :
    account m (sent ++ [out]).flatten =
      (toSession m.hdr.sessionId out).foldl (Account.hear m) (account m sent.flatten) := by
  unfold account
  rw [List.flatten_append, List.flatten_singleton, toSession_append, List.foldl_append]

section Hear

variable {m : NewOrder} {ac : Account}

theorem Account.hear_one {o : OutboundMsg} (hs : o.hdr.sessionId = m.hdr.sessionId) :
    (toSession m.hdr.sessionId [o]).foldl (Account.hear m) ac = ac.hear m o := by
  unfold toSession
  rw [List.filter_cons_of_pos (by simpa using hs)]
  rfl

/-- A message that does not change the account, whoever it is for. -/
theorem Account.hear_quiet {o : OutboundMsg} (h : ac.hear m o = ac) :
    (toSession m.hdr.sessionId [o]).foldl (Account.hear m) ac = ac := by
  by_cases hs : o.hdr.sessionId = m.hdr.sessionId
  · rw [Account.hear_one hs, h]
  · unfold toSession
    rw [List.filter_cons_of_neg (by simpa using hs)]
    rfl

/-- The Ack of another order, or of its cancel. -/
theorem Account.hear_ack_other {a : Ack} (hid : a.orderId ≠ m.orderId)
    (htoken : ac.token ≠ some a.orderToken) : ac.hear m (.ack a) = ac := by
  unfold Account.hear
  dsimp only
  rw [if_neg hid, if_neg fun h => htoken h.2]

theorem toSession_addressed (f : Fill) (sessionId k : UInt32) :
    toSession k [Fill.addressed f sessionId] =
      if k = sessionId then [Fill.addressed f k] else [] := by
  unfold toSession
  split
  · rename_i hk
    subst hk
    exact List.filter_cons_of_pos (decide_eq_true rfl)
  · rename_i hk
    have hother : decide ((Fill.addressed f sessionId).hdr.sessionId = k) = false :=
      decide_eq_false (Ne.symm hk)
    exact List.filter_cons_of_neg (ne_true_of_eq_false hother)

/-- A fill is told to a session once or not at all. -/
theorem toSession_emitFill (f : Fill) (sender k : UInt32) :
    toSession k (emitFill f sender) =
      if k = f.hdr.sessionId ∨ k = sender then [Fill.addressed f k] else [] := by
  have hcons : ∀ xs, toSession k (Fill.addressed f f.hdr.sessionId :: xs) =
      toSession k [Fill.addressed f f.hdr.sessionId] ++ toSession k xs :=
    toSession_append k [_]
  rw [emitFill_eq_tell, tell, hcons, toSession_addressed]
  by_cases hsame : f.hdr.sessionId = sender
  · simp only [hsame, or_self, ne_eq, not_true_eq_false, if_false]
    exact List.append_nil _
  · rw [if_pos hsame, toSession_addressed]
    by_cases howner : k = f.hdr.sessionId
    · simp only [howner, hsame, true_or, if_true, if_false, List.append_nil]
    · simp only [howner, false_or, if_false, List.nil_append]

/-- The fill is told to the session of the order and names it. -/
def counts (m : NewOrder) (sender : UInt32) (f : Fill) : Bool :=
  decide ((m.hdr.sessionId = f.hdr.sessionId ∨ m.hdr.sessionId = sender) ∧
    (f.aggressorId = m.orderId ∨ f.restingId = m.orderId))

theorem Account.hear_fill (f : Fill) (sender : UInt32) :
    (toSession m.hdr.sessionId (emitFill f sender)).foldl (Account.hear m) ac =
      { ac with filled := ac.filled + if counts m sender f then f.qty.toNat else 0 } := by
  rw [toSession_emitFill]
  unfold counts
  by_cases htold : m.hdr.sessionId = f.hdr.sessionId ∨ m.hdr.sessionId = sender
  · by_cases hnamed : f.aggressorId = m.orderId ∨ f.restingId = m.orderId
    · rw [if_pos htold, if_pos (decide_eq_true ⟨htold, hnamed⟩)]
      exact if_pos hnamed
    · rw [if_pos htold, if_neg (mt of_decide_eq_true fun h => hnamed h.2)]
      exact if_neg hnamed
  · rw [if_neg htold, if_neg (mt of_decide_eq_true fun h => htold h.1)]
    rfl

/-- Fills are heard by their quantities. -/
theorem Account.hear_fills (fills : List Fill) (sender : UInt32) :
    (toSession m.hdr.sessionId (fills.flatMap fun f => emitFill f sender)).foldl
        (Account.hear m) ac =
      { ac with filled := ac.filled + tally (fun f => f.qty.toNat) (counts m sender) fills } := by
  induction fills generalizing ac with
  | nil => rfl
  | cons f fills ih =>
    rw [List.flatMap_cons, toSession_append, List.foldl_append, Account.hear_fill, ih, tally_cons,
      Nat.add_assoc]

end Hear

/-! ## The account of an order in a run -/

/-- Among the orders in `xs`, only `m` has its id; it is labelled `j`. -/
def Sole (j : Nat) (m : NewOrder) (xs : List (Nat × InboundMsg)) : Prop :=
  ∀ k q, (k, .newOrder q) ∈ xs → (k = j ∧ q = m) ∨ (k ≠ j ∧ q.orderId ≠ m.orderId)

/-- A cancel of the order labelled `j` is sent by this session. -/
def Log.OwnCancel (j : Nat) (sessionId : UInt32) (lg : Log) (x : Nat × InboundMsg) : Prop :=
  match x.2 with
  | .cancel c => lg.tokenOf j = some c.orderToken → c.hdr.sessionId = sessionId
  | _ => True

instance Log.decidableOwnCancel (j : Nat) (sessionId : UInt32) (lg : Log) :
    ∀ x : Nat × InboundMsg, Decidable (lg.OwnCancel j sessionId x)
  | (_, .newOrder _) => isTrue trivial
  | (_, .cancel c) => inferInstanceAs
      (Decidable (lg.tokenOf j = some c.orderToken → c.hdr.sessionId = sessionId))
  | (_, .other _) => isTrue trivial

/-- What the order labelled `j` has on the lists of book `b`. -/
def Log.onLists (cfg : ShardConfig) (lg : Log) (b j : Nat) : Nat :=
  tally (fun s => (lg.shard.floor.pool.slots s).qty.toNat) (fun s => decide (lg.owner s = j))
    (lg.shard.floor.slotsOn cfg.toDims b)

/-- The same for the order `m`, by the lists `v`. -/
def Setup.amount (su : Setup) (lg : Log) (v : View) (m : NewOrder) (j : Nat) : Nat :=
  (absBook lg.shard.floor lg.owner v (su.book m.symbolId)).tally su.cfg.L j

/-- The account of the order `m`, labelled `j`, after the messages `xs`. -/
structure Accounted (su : Setup) (j : Nat) (m : NewOrder) (xs : List (Nat × InboundMsg)) (lg : Log)
    (v : View) : Prop where
  token : (account m lg.sent.flatten).token = lg.tokenOf j
  unheard : j ∉ xs.map Prod.fst → account m lg.sent.flatten = .fresh
  live : (lg.tokenOf j).isSome → (account m lg.sent.flatten).cancelled = false →
    su.amount lg v m j + (account m lg.sent.flatten).filled = m.qty.toNat
  dead : lg.tokenOf j = none ∨ (account m lg.sent.flatten).cancelled = true →
    su.amount lg v m j = 0

section Steps

variable {su : Setup} {xs : List (Nat × InboundMsg)} {lg : Log} {dk : Desk} {lab : Nat → Nat}
variable {v : View} {place : Nat → Place} {j : Nat} {m : NewOrder}

theorem LogRep.onLists_eq (h : LogRep su xs lg dk lab v place) :
    lg.onLists su.cfg (su.book m.symbolId) j = su.amount lg v m j := by
  have hrep : FloorRep su.cfg.toDims
      ({ dk with floor := lg.shard.floor, owner := lg.owner } : Desk).floor v place :=
    h.floor.symm ▸ h.desk.rep
  exact hrep.onLists_eq _ j

theorem accounted_init (su : Setup) (j : Nat) (m : NewOrder) :
    Accounted su j m [] (Log.init su) fun _ _ _ => [] where
  token := rfl
  unheard := fun _ => rfl
  live := nofun
  dead := fun _ => by
    refine tally_eq_zero _ fun o ho => ?_
    obtain ⟨S, i, -, hmem⟩ := Ladder.mem_orders.mp ho
    cases hmem

/-- A message that does not concern the order. -/
theorem Accounted.keep (h : Accounted su j m xs lg v) (x : Nat × InboundMsg) {lg' : Log} {v' : View}
    (haccount : account m lg'.sent.flatten = account m lg.sent.flatten)
    (htoken : lg'.tokenOf j = lg.tokenOf j) (hamount : su.amount lg' v' m j = su.amount lg v m j) :
    Accounted su j m (xs ++ [x]) lg' v' := by
  refine ⟨?_, fun hj => ?_, ?_, ?_⟩
  · rw [haccount, htoken, h.token]
  · rw [List.map_append, List.mem_append, not_or] at hj
    rw [haccount, h.unheard hj.1]
  · rw [haccount, htoken, hamount]
    exact h.live
  · rw [haccount, htoken, hamount]
    exact h.dead

/-- The order an incoming one trades with is one of the messages. -/
theorem LogRep.traded (h : LogRep su xs lg dk lab v place) {b id a maxFills : Nat} {q : NewOrder}
    {t : Resting Nat × Nat}
    (ht : t ∈ ((absBook lg.shard.floor lg.owner v b).add su.cfg.L id q a maxFills).trades) :
    t.2 ≤ t.1.amount ∧ ∃ o, (t.1.id, .newOrder o) ∈ xs ∧ su.book o.symbolId = b ∧
      t.1.orderId = o.orderId ∧ t.1.session = o.hdr.sessionId := by
  obtain ⟨⟨i, -, hmem⟩, hle⟩ := Ladder.mem_trades ht
  obtain ⟨s, hs, hview⟩ := mem_absBook.mp hmem
  obtain ⟨o, ho, hbook, -, hfixed, hsession⟩ :=
    h.msg_of_slot ((h.desk.rep.threads.queued _ _ _ _).mp hs)
  rw [h.localBook_eq] at hbook
  rw [← hview]
  exact ⟨by rw [hview]; exact hle, o, ho, hbook, orderId_of_fixed hfixed, hsession⟩

theorem fillOf_qty {t : Resting Nat × Nat} (hle : t.2 ≤ t.1.amount) (orderId : UInt64) :
    (fillOf orderId t).qty.toNat = t.2 :=
  UInt32.toNat_ofNat_of_lt' (Nat.lt_of_le_of_lt hle t.1.qty.toNat_lt)

/-- The fills of another order count as far as they are with the order labelled `j`. -/
theorem tally_counts_other {trades : List (Resting Nat × Nat)} {q : NewOrder}
    (hq : q.orderId ≠ m.orderId) (hle : ∀ t ∈ trades, t.2 ≤ t.1.amount)
    (hid : ∀ t ∈ trades, t.1.orderId = m.orderId ↔ t.1.id = j)
    (hsession : ∀ t ∈ trades, t.1.id = j → t.1.session = m.hdr.sessionId) (sender : UInt32) :
    tally (fun f => f.qty.toNat) (counts m sender) (trades.map (fillOf q.orderId)) =
      takenFrom j trades := by
  rw [tally_map]
  refine tally_congr (fun t ht => decide_eq_decide.mpr ⟨?_, fun hj => ?_⟩)
    fun t ht => fillOf_qty (hle t ht) q.orderId
  · rintro ⟨-, hagg | hrest⟩
    · exact absurd hagg hq
    · exact (hid t ht).mp hrest
  · exact ⟨.inl (hsession t ht hj).symm, .inr ((hid t ht).mpr hj)⟩

/-- All fills of the order itself count. -/
theorem tally_counts_own {trades : List (Resting Nat × Nat)}
    (hle : ∀ t ∈ trades, t.2 ≤ t.1.amount) :
    tally (fun f => f.qty.toNat) (counts m m.hdr.sessionId) (trades.map (fillOf m.orderId)) =
      (trades.map Prod.snd).sum := by
  have hall : ∀ t ∈ trades, counts m m.hdr.sessionId (fillOf m.orderId t) = true :=
    fun t _ => decide_eq_true ⟨.inr rfl, .inl rfl⟩
  rw [tally_map, tally_eq_sum _ hall]
  exact congrArg List.sum (List.map_congr_left fun t ht => fillOf_qty (hle t ht) m.orderId)

/-- What an added order leaves of the order labelled `j`, and takes from it. -/
theorem LogRep.amount_added (h : LogRep su xs lg dk lab v place) (hsole : Sole j m xs) {k b : Nat}
    {q : NewOrder} {v' : View} {lg' : Log}
    (hadm : lg.shard.floor.Admits su.cfg.toDims b q.price) {add : Added Nat}
    (hadd : (absBook lg.shard.floor lg.owner v b).add su.cfg.L k q
      ((lg.shard.floor.books b).levelOf q.price) maxFillsPerOrder = add)
    (hbooks : ∀ b', absBook lg'.shard.floor lg'.owner v' b' =
      if b' = b then add.book else absBook lg.shard.floor lg.owner v b') :
    takenFrom j add.trades + su.amount lg' v' m j = su.amount lg v m j +
      if su.book m.symbolId = b ∧ add.rests = true ∧ k = j then add.left else 0 := by
  unfold Setup.amount
  rw [hbooks]
  by_cases hb : su.book m.symbolId = b
  · rw [if_pos hb, hb, ← hadd]
    simp only [true_and]
    exact Ladder.tally_add hadm.1.2 k
  · -- the orders it trades with are on another book
    have hnone : takenFrom j add.trades = 0 := by
      refine tally_eq_zero _ fun t ht => decide_eq_false fun hj => ?_
      rw [← hadd] at ht
      obtain ⟨-, o, ho, hbook, -⟩ := h.traded ht
      rw [hj] at ho
      rcases hsole j o ho with ⟨-, rfl⟩ | ⟨hne, -⟩
      · exact hb hbook
      · exact hne rfl
    rw [if_neg hb, hnone, if_neg fun e => hb e.1, Nat.zero_add, Nat.add_zero]

/-- The answer to a new order, as the client of the order `m` hears it. -/
theorem account_report (m q : NewOrder) (sent : List (List OutboundMsg)) (shardId : UInt8)
    {r : AddResult} {add : Added Nat} (hfills : r.fills = add.trades.map (fillOf q.orderId)) :
    account m (sent ++ [reportOf shardId q r q.hdr.sessionId]).flatten =
      (toSession m.hdr.sessionId (if r.handle.valid then
          [emitAck q.orderId (r.handle.toToken shardId) q.hdr.sessionId] else [])).foldl
        (Account.hear m)
        { account m sent.flatten with
          filled := (account m sent.flatten).filled +
            tally (fun f => f.qty.toNat) (counts m q.hdr.sessionId)
              (add.trades.map (fillOf q.orderId)) } := by
  rw [account_snoc, reportOf, hfills, toSession_append, List.foldl_append, Account.hear_fills]

/-- Another order. -/
theorem Accounted.other (h : Accounted su j m xs lg v) (hrep : LogRep su xs lg dk lab v place)
    {k b : Nat} {q : NewOrder} (hsole : Sole j m xs) (hq : q.orderId ≠ m.orderId)
    {add : Added Nat} {r : AddResult} {lg' : Log} {v' : View}
    (hadd : (absBook lg.shard.floor lg.owner v b).add su.cfg.L k q
      ((lg.shard.floor.books b).levelOf q.price) maxFillsPerOrder = add)
    (hfills : r.fills = add.trades.map (fillOf q.orderId))
    (hsent : lg'.sent = lg.sent ++ [reportOf lg.shard.shardId q r q.hdr.sessionId])
    (htoken : lg'.tokenOf j = lg.tokenOf j)
    (hfresh : r.handle.valid = true → lg.tokenOf j ≠ some (r.handle.toToken lg.shard.shardId))
    (hamount : takenFrom j add.trades + su.amount lg' v' m j = su.amount lg v m j) :
    Accounted su j m (xs ++ [(k, .newOrder q)]) lg' v' := by
  have hcounts : tally (fun f => f.qty.toNat) (counts m q.hdr.sessionId)
      (add.trades.map (fillOf q.orderId)) = takenFrom j add.trades := by
    subst hadd
    refine tally_counts_other hq (fun t ht => (hrep.traded ht).1) (fun t ht => ?_)
      (fun t ht hj => ?_) _
    · obtain ⟨-, o, ho, -, hoid, -⟩ := hrep.traded ht
      rcases hsole _ o ho with ⟨hj, rfl⟩ | ⟨hne, hother⟩
      · exact iff_of_true hoid hj
      · exact iff_of_false (hoid ▸ hother) hne
    · obtain ⟨-, o, ho, -, -, hsession⟩ := hrep.traded ht
      rcases hsole _ o ho with ⟨-, rfl⟩ | ⟨hne, -⟩
      · exact hsession
      · exact absurd hj hne
  have haccount : account m lg'.sent.flatten = { account m lg.sent.flatten with
      filled := (account m lg.sent.flatten).filled + takenFrom j add.trades } := by
    rw [hsent, account_report m q lg.sent lg.shard.shardId hfills, hcounts]
    split
    · rename_i hv
      refine Account.hear_quiet (Account.hear_ack_other hq ?_)
      rw [h.token]
      exact hfresh hv
    · rfl
  refine ⟨?_, fun hj => ?_, fun hsome hopen => ?_, fun hdead => ?_⟩
  · rw [haccount, htoken]
    exact h.token
  · rw [List.map_append, List.mem_append, not_or] at hj
    have hzero := h.dead (.inl (hrep.tokenOf_fresh hj.1))
    have hnone : takenFrom j add.trades = 0 := by omega
    rw [haccount, hnone]
    exact h.unheard hj.1
  · rw [haccount] at hopen ⊢
    rw [htoken] at hsome
    have hlive := h.live hsome hopen
    dsimp only
    omega
  · rw [haccount, htoken] at hdead
    have hzero := h.dead hdead
    omega

/-- The order itself. -/
theorem Accounted.own (h : Accounted su j m xs lg v) (hrep : LogRep su xs lg dk lab v place)
    (hj : j ∉ xs.map Prod.fst) {b : Nat} {add : Added Nat} {r : AddResult} {lg' : Log} {v' : View}
    (hadd : (absBook lg.shard.floor lg.owner v b).add su.cfg.L j m
      ((lg.shard.floor.books b).levelOf m.price) maxFillsPerOrder = add)
    (hfills : r.fills = add.trades.map (fillOf m.orderId))
    (hvalid : r.handle.valid = add.rests)
    (hsent : lg'.sent = lg.sent ++ [reportOf lg.shard.shardId m r m.hdr.sessionId])
    (htoken : lg'.tokenOf j =
      if r.handle.valid then some (r.handle.toToken lg.shard.shardId) else none)
    (hamount : takenFrom j add.trades + su.amount lg' v' m j =
      su.amount lg v m j + if add.rests = true then add.left else 0) :
    Accounted su j m (xs ++ [(j, .newOrder m)]) lg' v' := by
  have hzero := h.dead (.inl (hrep.tokenOf_fresh hj))
  have hsum : (add.trades.map Prod.snd).sum + add.left = m.qty.toNat := hadd ▸ Ladder.add_demand ..
  have htaken : takenFrom j add.trades = 0 := by
    refine tally_eq_zero _ fun t ht => decide_eq_false fun he => hj ?_
    rw [← hadd] at ht
    obtain ⟨-, o, ho, -⟩ := hrep.traded ht
    exact he ▸ List.mem_map_of_mem ho
  have hle : ∀ t ∈ add.trades, t.2 ≤ t.1.amount := by
    subst hadd
    exact fun t ht => (hrep.traded ht).1
  have haccount : account m lg'.sent.flatten =
      ⟨lg'.tokenOf j, (add.trades.map Prod.snd).sum, false⟩ := by
    rw [hsent, account_report m m lg.sent lg.shard.shardId hfills, tally_counts_own hle, h.unheard hj,
      htoken]
    split
    · rw [Account.hear_one rfl]
      exact (if_pos rfl).trans (congrArg (Account.mk _ · _) (Nat.zero_add _))
    · exact congrArg (Account.mk _ · _) (Nat.zero_add _)
  refine ⟨?_, fun hj' => ?_, fun hsome _ => ?_, fun hdead => ?_⟩
  · rw [haccount]
  · rw [List.map_append, List.mem_append, not_or] at hj'
    exact absurd (List.mem_singleton.mpr rfl) hj'.2
  · rw [haccount]
    rw [htoken, hvalid] at hsome
    cases hr : add.rests with
    | true =>
      rw [hr, if_pos rfl] at hamount
      dsimp only
      omega
    | false =>
      rw [hr] at hsome
      cases hsome
  · rw [haccount, htoken, hvalid] at hdead
    cases hr : add.rests with
    | true =>
      rw [hr] at hdead
      simp at hdead
    | false =>
      rw [hr, if_neg Bool.false_ne_true] at hamount
      omega

/-- A cancel that removes an order. -/
theorem Accounted.cancelled (h : Accounted su j m xs lg v) (hrep : LogRep su xs lg dk lab v place)
    (hsole : Sole j m xs) (hid : m.orderId ≠ 0) (k : Nat) {k' s b i : Nat} {c : CancelOrder}
    {S : SideClass} {fl : Floor} {v' : View} (htoken : lg.tokenOf k' = some c.orderToken)
    (hpl : place s = .level b S i) (hown : lg.owner s = k')
    (hspec : CancelSpec lg.shard.floor v b S i s fl v')
    (hself : lg.tokenOf j = some c.orderToken → c.hdr.sessionId = m.hdr.sessionId) :
    Accounted su j m (xs ++ [(k, .cancel c)]) (lg.record k none { lg.shard with floor := fl }
      [emitAck 0 c.orderToken c.hdr.sessionId]) v' := by
  have hthreads : Threads su.cfg.toDims lg.shard.floor v place :=
    hrep.floor ▸ hrep.desk.rep.threads
  have huniq : ∀ S' i' s', s' ∈ v b S' i' → lg.owner s' = lg.owner s → s' = s :=
    fun S' i' s' hs' he => hrep.owner_inj ((hthreads.queued _ _ _ _).mp hs') hpl he
  obtain ⟨o, ho, hbook, -⟩ := hrep.msg_of_slot hpl
  rw [hrep.localBook_eq] at hbook
  have hamount : (absBook fl lg.owner v' (su.book m.symbolId)).tally su.cfg.L j =
      if k' = j then 0 else su.amount lg v m j := by
    by_cases hb : su.book m.symbolId = b
    · rw [hb, hspec.absBook_eq hthreads huniq, hown, Ladder.tally_cancel, Setup.amount, hb]
    · have hne : k' ≠ j := by
        rintro rfl
        rcases hsole _ o ho with ⟨-, rfl⟩ | ⟨hne, -⟩
        · exact hb hbook
        · exact hne hown
      rw [hspec.absBook_other hb, if_neg hne]
      rfl
  by_cases hj : k' = j
  · subst hj
    have haccount : account m (lg.sent ++ [[emitAck 0 c.orderToken c.hdr.sessionId]]).flatten =
        { account m lg.sent.flatten with cancelled := true } := by
      have hhear : (account m lg.sent.flatten).hear m
          (emitAck 0 c.orderToken c.hdr.sessionId) =
            { account m lg.sent.flatten with cancelled := true } := by
        unfold Account.hear emitAck
        dsimp only
        rw [if_neg (Ne.symm hid), if_pos ⟨rfl, h.token.trans htoken⟩]
      rw [account_snoc, ← hhear]
      exact Account.hear_one (hself htoken)
    refine ⟨?_, fun hj => ?_, fun _ hopen => ?_, fun _ => ?_⟩
    · exact (congrArg Account.token haccount).trans h.token
    · rw [List.map_append, List.mem_append, not_or] at hj
      exact absurd (hown ▸ List.mem_map_of_mem ho) hj.1
    · exact absurd ((congrArg Account.cancelled haccount).symm.trans hopen) Bool.noConfusion
    · exact hamount.trans (if_pos rfl)
  · refine h.keep (k, .cancel c) ?_ rfl (hamount.trans (if_neg hj))
    refine (account_snoc ..).trans (Account.hear_quiet (Account.hear_ack_other (Ne.symm hid) ?_))
    rw [h.token]
    exact fun he => hj (hrep.once _ _ _ htoken he)

theorem account_reject (m : NewOrder) (sent : List (List OutboundMsg)) (orderId : UInt64)
    (reason : RejectReason) (sessionId : UInt32) :
    account m (sent ++ [[emitReject orderId reason sessionId]]).flatten =
      account m sent.flatten :=
  (account_snoc ..).trans (Account.hear_quiet rfl)

/-- An order that gets a slot. -/
theorem Accounted.added (h : Accounted su j m xs lg v) (hrep : LogRep su xs lg dk lab v place)
    {k : Nat} {q : NewOrder} (hsole : Sole j m (xs ++ [(k, .newOrder q)]))
    (hk : k ∉ xs.map Prod.fst) {r : AddResult} {dk' : Desk} {lab' : Nat → Nat} {v' : View}
    {place' : Nat → Place}
    (hadm : lg.shard.floor.Admits su.cfg.toDims (lg.shard.localBook su.cfg q.symbolId) q.price)
    (hspec : AddSpec lg.shard.floor lg.owner v place (lg.shard.localBook su.cfg q.symbolId) k q
      ((absBook lg.shard.floor lg.owner v (lg.shard.localBook su.cfg q.symbolId)).add su.cfg.L k q
        ((lg.shard.floor.books (lg.shard.localBook su.cfg q.symbolId)).levelOf q.price)
        maxFillsPerOrder) lg.shard.floor.pool.top r v' place')
    (hrep' : LogRep su (xs ++ [(k, .newOrder q)]) (lg.record k
      (newToken (.newOrder q) (reportOf lg.shard.shardId q r q.hdr.sessionId))
      { lg.shard with floor := r.floor } (reportOf lg.shard.shardId q r q.hdr.sessionId))
      dk' lab' v' place') :
    Accounted su j m (xs ++ [(k, .newOrder q)]) (lg.record k
      (newToken (.newOrder q) (reportOf lg.shard.shardId q r q.hdr.sessionId))
      { lg.shard with floor := r.floor } (reportOf lg.shard.shardId q r q.hdr.sessionId)) v' := by
  have hvalid := hspec.valid_eq (hrep.floor ▸ hrep.desk.rep.threads)
  have hfloor : r.floor = dk'.floor := hrep'.floor
  have hthreads : Threads su.cfg.toDims r.floor v' place' := hfloor ▸ hrep'.desk.rep.threads
  have hbooks := fun b => hspec.books_eq hthreads b
  rw [← hvalid, ← lg.owner_call k lg.shard.shardId q r q.hdr.sessionId
    { lg.shard with floor := r.floor } (reportOf lg.shard.shardId q r q.hdr.sessionId)] at hbooks
  have htoken := Log.tokenOf_call (hrep.tokenOf_fresh hk) lg.shard.shardId q r q.hdr.sessionId
    { lg.shard with floor := r.floor } (reportOf lg.shard.shardId q r q.hdr.sessionId)
  have hsole' : Sole j m xs := fun k q hq => hsole k q (List.mem_append_left _ hq)
  have hamount := hrep.amount_added hsole' hadm rfl hbooks
  rcases hsole k q (List.mem_append_right _ (List.mem_singleton.mpr rfl)) with
    ⟨rfl, rfl⟩ | ⟨hne, hq⟩
  · refine h.own hrep hk rfl hspec.fills hvalid rfl (Option.ext fun t => ?_) ?_
    · rw [htoken, hrep.tokenOf_fresh hk]
      split
      · rename_i hv
        simp [hv]
      · rename_i hv
        simp [hv]
    · rw [hrep.localBook_eq] at hamount ⊢
      simpa only [true_and, and_true] using hamount
  · refine h.other hrep hsole' hq rfl hspec.fills rfl (Option.ext fun t => ?_) (fun hv he => hne ?_)
      ?_
    · rw [htoken]
      exact or_iff_left fun ht => hne ht.2.1
    · exact hrep'.once _ _ _ ((htoken _ _).mpr (.inr ⟨hv, rfl, rfl⟩)) ((htoken _ _).mpr (.inl he))
    · rw [hamount, if_neg fun hc => hne hc.2.2, Nat.add_zero]

/-- Every message keeps the account. -/
theorem Accounted.step (h : Accounted su j m xs lg v) (hrep : LogRep su xs lg dk lab v place)
    {x : Nat × InboundMsg} (hsole : Sole j m (xs ++ [x])) (hid : m.orderId ≠ 0)
    (hk : x.1 ∉ xs.map Prod.fst) (hown : lg.OwnCancel j m.hdr.sessionId x) {lg' : Log} {dk' : Desk}
    {lab' : Nat → Nat} {v' : View} {place' : Nat → Place}
    (hrep' : LogRep su (xs ++ [x]) lg' dk' lab' v' place')
    (hcase : Handled su.cfg lg v place x lg' v' place') : Accounted su j m (xs ++ [x]) lg' v' := by
  cases hcase with
  | unhosted hb => exact h.keep _ (account_reject ..) rfl rfl
  | refused hb hadm => exact h.keep _ (account_snoc ..) rfl rfl
  | added hb hadm hrun hspec => exact h.added hrep hsole hk hadm hspec hrep'
  | cancelled htoken hpl howner hspec =>
    exact h.cancelled hrep (fun k q hq => hsole k q (List.mem_append_left _ hq)) hid _ htoken hpl
      howner hspec hown
  | stale htoken hgone => exact h.keep _ (account_reject ..) rfl rfl
  | dropped => exact h.keep _ (account_snoc ..) rfl rfl

/-- The order has something on the lists of its book exactly when it rests. -/
theorem LogRep.rests_iff_amount (h : LogRep su xs lg dk lab v place) (hsole : Sole j m xs) :
    (∃ b S i s, lg.RestsAt su.cfg j b S i s) ↔ 0 < su.amount lg v m j := by
  have hthreads := h.desk.rep.threads
  constructor
  · rintro ⟨b, S, i, s, hrests⟩
    obtain ⟨hpl, hown⟩ := h.restsAt_iff.mp hrests
    obtain ⟨o, ho, hbook, -⟩ := h.msg_of_slot hpl
    rw [h.localBook_eq] at hbook
    have hmem := (hthreads.queued b S i s).mpr hpl
    obtain ⟨hi, hrecord⟩ := hthreads.records b S i s hmem
    rcases hsole _ o ho with ⟨-, rfl⟩ | ⟨hne, -⟩
    · refine tally_pos (Ladder.mem_orders.mpr ⟨S, i, hi, mem_absBook.mpr ⟨s, hbook ▸ hmem, rfl⟩⟩)
        (decide_eq_true hown) ?_
      rw [h.floor]
      exact UInt32.lt_iff_toNat_lt.mp hrecord.qty_pos
    · exact absurd hown hne
  · intro hpos
    by_contra hnone
    refine Nat.ne_of_gt hpos (tally_eq_zero _ fun o ho => decide_eq_false fun hid => hnone ?_)
    obtain ⟨S, i, -, hmem⟩ := Ladder.mem_orders.mp ho
    obtain ⟨s, hs, rfl⟩ := mem_absBook.mp hmem
    exact ⟨_, S, i, s, h.restsAt_iff.mpr ⟨(hthreads.queued _ _ _ _).mp hs, hid⟩⟩

end Steps

/-- Every run with genuine cancels, those of the order sent by its own session. -/
theorem accounted_run (su : Setup) (hN : su.cfg.N ≤ 2 ^ 24) {j : Nat} {m : NewOrder}
    (hid : m.orderId ≠ 0) (xs : List (Nat × InboundMsg)) (hsole : Sole j m xs)
    (hnd : (xs.map Prod.fst).Nodup) (hlen : xs.length < 2 ^ 32)
    (hg : Along (Log.receive su.cfg) Log.Genuine (Log.init su) xs)
    (hown : Along (Log.receive su.cfg) (Log.OwnCancel j m.hdr.sessionId) (Log.init su) xs) :
    ∃ lg dk lab v place, run (Log.receive su.cfg) (Log.init su) xs = .ok lg ∧
      LogRep su xs lg dk lab v place ∧ Accounted su j m xs lg v := by
  induction xs using List.reverseRecOn with
  | nil => exact ⟨_, _, _, _, _, rfl, logRep_init su, accounted_init su j m⟩
  | append_singleton xs x ih =>
    rw [List.length_append, List.length_singleton] at hlen
    obtain ⟨hpre, hlast⟩ := along_append.mp hg
    obtain ⟨hpre', hlast'⟩ := along_append.mp hown
    have hnd' := hnd
    rw [List.map_append, List.nodup_append] at hnd'
    obtain ⟨lg, dk, lab, v, place, hrun, h, hacc⟩ :=
      ih (fun k q hq => hsole k q (List.mem_append_left _ hq)) hnd'.1 (by omega) hpre hpre'
    have hk : x.1 ∉ xs.map Prod.fst := fun hmem =>
      hnd'.2.2 _ hmem _ (List.mem_singleton.mpr rfl) rfl
    obtain ⟨lg', dk', lab', v', place', hrec, h', hcase⟩ := h.receive hN hk (hlast lg hrun).1 hlen
    exact ⟨lg', dk', lab', v', place', by rw [run_snoc hrun, hrec], h',
      hacc.step h hsole hid hk (hlast' lg hrun).1 h' hcase⟩

/-- In a run with genuine cancels on at most `2^24` slots, take an order whose id is not 0 and not
    that of another order, and whose cancels are sent by its own session. What is left of it by the
    messages sent to its session is what it has on the lists of its book, and it rests exactly when
    something is left. -/
theorem account_exact (su : Setup) (hN : su.cfg.N ≤ 2 ^ 24) (msgs : List InboundMsg)
    (hlen : msgs.length < 2 ^ 32) (j : Nat) (m : NewOrder) (hj : msgs[j]? = some (.newOrder m))
    (hid : m.orderId ≠ 0)
    (hsole : ∀ k q, msgs[k]? = some (.newOrder q) → q.orderId = m.orderId → k = j)
    (hg : Along (Log.receive su.cfg) Log.Genuine (Log.init su) (numbered msgs))
    (hown : Along (Log.receive su.cfg) (Log.OwnCancel j m.hdr.sessionId) (Log.init su)
      (numbered msgs)) :
    ∃ lg, run (Log.receive su.cfg) (Log.init su) (numbered msgs) = .ok lg ∧
      lg.onLists su.cfg (su.book m.symbolId) j = (account m lg.sent.flatten).left m ∧
      ((∃ b S i s, lg.RestsAt su.cfg j b S i s) ↔ 0 < (account m lg.sent.flatten).left m) := by
  have hsole' : Sole j m (numbered msgs) := by
    intro k q hq
    have hkq := mem_numbered.mp hq
    by_cases hk : k = j
    · subst hk
      rw [hj, Option.some_inj, InboundMsg.newOrder.injEq] at hkq
      exact .inl ⟨rfl, hkq.symm⟩
    · exact .inr ⟨hk, fun he => hk (hsole k q hkq he)⟩
  obtain ⟨lg, dk, lab, v, place, hrun, h, hacc⟩ := accounted_run su hN hid (numbered msgs) hsole'
    (numbered_nodup msgs) (by rwa [length_numbered]) hg hown
  have hleft : su.amount lg v m j = (account m lg.sent.flatten).left m := by
    unfold Account.left
    rw [hacc.token]
    split
    · rename_i hopen
      have hlive := hacc.live hopen.1 hopen.2
      omega
    · rename_i hclosed
      rw [not_and_or, Option.not_isSome_iff_eq_none, Bool.not_eq_false] at hclosed
      exact hacc.dead hclosed
  refine ⟨lg, hrun, ?_, ?_⟩
  · rw [h.onLists_eq, hleft]
  · rw [h.rests_iff_amount hsole', hleft]

/-- Session 1 offers 5, session 2 buys 3 of it: session 1 knows that 2 are left. -/
theorem account_exact_partly_sold :
    ∃ lg, run (Log.receive smallShard) (Log.init smallSetup)
        (numbered [.newOrder (orderFrom 1 1 Side.sell 103 5),
          .newOrder (orderFrom 2 2 Side.buy 104 3)]) = .ok lg ∧
      lg.onLists smallShard (smallSetup.book 0) 0 = 2 := by
  obtain ⟨lg, hrun, hlists, -⟩ := account_exact smallSetup (by decide)
    [.newOrder (orderFrom 1 1 Side.sell 103 5), .newOrder (orderFrom 2 2 Side.buy 104 3)]
    (by decide) 0 (orderFrom 1 1 Side.sell 103 5) rfl (by decide)
    (fun k q hq hid => by
      rcases k with _ | _ | k
      · rfl
      · cases hq
        exact absurd hid (by decide)
      · cases hq)
    (genuine_of_check (by decide +kernel))
    (along_of_check (p := fun lg x => decide (lg.OwnCancel 0 1 x))
      (fun _ _ h => of_decide_eq_true h) (by decide +kernel))
  cases hrun
  exact ⟨_, rfl, hlists.trans rfl⟩

/-- When another session cancels the order, the account still has it in full. -/
example : (run (Log.receive smallShard) (Log.init smallSetup)
    (numbered [.newOrder (orderFrom 1 1 Side.sell 103 5), cancelFrom 2 3])).map (fun lg =>
        (lg.onLists smallShard (smallSetup.book 0) 0,
          (account (orderFrom 1 1 Side.sell 103 5) lg.sent.flatten).left
            (orderFrom 1 1 Side.sell 103 5))) = .ok (0, 5) := by
  decide +kernel

end LiteExchange.Engine

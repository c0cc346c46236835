/-
  The order book (`book/order_book.hpp`): admission, matching and cancellation over a borrowed
  arena. The source keeps the bid and the ask members side by side (`best_bid_idx_`,
  `bid_levels_`, `bid_occ_` and their ask twins) and `add_order`, `cancel_order` and
  `match<Side>` treat them in two mirrored branches; here the three members of a side are a
  `Half`, and the branch is a `SideClass` argument.

  Prices are 64-bit and level indices 32-bit, as in the source: `priceToIdx` subtracts and
  divides in 64 bits and narrows to 32. (A signed overflow or a zero tick has no meaning in
  the source; here the subtraction wraps and `x / 0 = 0`.)

  An array index out of range faults. `Floor` is what the books of one shard share.
-/
import LiteExchange.Book.LevelBitmap
import LiteExchange.Book.PriceLevel

namespace LiteExchange.Book

open Lib Proto

/-! ## Handles -/

structure OrderHandle where
  slot : Nat
  gen : UInt32
  deriving DecidableEq, Repr

/-- The default handle, `{INVALID, 0}`. -/
def OrderHandle.invalid : OrderHandle := ⟨nullIdx, 0⟩

def OrderHandle.valid (h : OrderHandle) : Bool := h.slot != nullIdx

/-- `to_token(shard)`: `[63:56] shard | [55:24] gen | [23:0] slot`. -/
def OrderHandle.toToken (h : OrderHandle) (shard : UInt8) : UInt64 :=
  (shard.toUInt64 <<< 56) ||| (h.gen.toUInt64 <<< 24) ||| (UInt64.ofNat h.slot &&& 0xFFFFFF)

/-- `from_token(token)`; the shard bits are ignored. -/
def OrderHandle.fromToken (token : UInt64) : OrderHandle :=
  ⟨(token &&& 0xFFFFFF).toUInt32.toNat, ((token >>> 24) &&& 0xFFFFFFFF).toUInt32⟩

def OrderHandle.tokenShard (token : UInt64) : UInt8 := (token >>> 56).toUInt8

/-! ## The book -/

/-- `MAX_ORDERS` and `LADDER_SIZE`. The last field is what the build checks of the bitmap's
    word count (see `LevelBitmap`). -/
structure Dims where
  maxOrders : UInt32
  ladderSize : UInt32
  words_fit : ladderSize.toNat + 63 < 2 ^ 32

theorem eight_levels_fit : (8 : UInt32).toNat + 63 < 2 ^ 32 := by decide

theorem sixty_four_levels_fit : (64 : UInt32).toNat + 63 < 2 ^ 32 := by decide

/-- The number of arena slots. -/
def Dims.N (d : Dims) : Nat := d.maxOrders.toNat

/-- The number of price levels. -/
def Dims.L (d : Dims) : Nat := d.ladderSize.toNat

/-- One side of a book: its cached best index, its levels and their occupancy. -/
structure Half where
  bestIdx : Nat
  levels : Nat → PriceLevel
  occ : LevelBitmap

def Half.init : Half := ⟨nullIdx, fun _ => PriceLevel.init, LevelBitmap.init⟩

structure OrderBook where
  basePrice : Int64
  tickSize : Int64
  bid : Half
  ask : Half

/-- `OrderBook(base_price, tick_size, ..)`. -/
def OrderBook.init (basePrice tickSize : Int64) : OrderBook :=
  ⟨basePrice, tickSize, Half.init, Half.init⟩

def OrderBook.half (bk : OrderBook) : SideClass → Half
  | .bid => bk.bid
  | .ask => bk.ask

def OrderBook.setHalf (bk : OrderBook) : SideClass → Half → OrderBook
  | .bid, h => { bk with bid := h }
  | .ask, h => { bk with ask := h }

/-- `price_to_idx(price)`. -/
def OrderBook.priceToIdx (bk : OrderBook) (price : Int64) : Int32 :=
  ((price - bk.basePrice) / bk.tickSize).toInt32

/-- `static_cast<uint32_t>(price_to_idx(price))`. -/
def OrderBook.levelOf (bk : OrderBook) (price : Int64) : Nat :=
  (bk.priceToIdx price).toUInt32.toNat

def OrderBook.bestBidPrice (bk : OrderBook) : Int64 :=
  if bk.bid.bestIdx = nullIdx then Int64.minValue
  else bk.basePrice + Int64.ofNat bk.bid.bestIdx * bk.tickSize

def OrderBook.bestAskPrice (bk : OrderBook) : Int64 :=
  if bk.ask.bestIdx = nullIdx then Int64.maxValue
  else bk.basePrice + Int64.ofNat bk.ask.bestIdx * bk.tickSize

/-- `find_best<Side>(from)`. -/
def findBest (L : Nat) (S : SideClass) (h : Half) (start : Nat) : Except Fault Nat :=
  match S with
  | .bid => h.occ.nextDown L start
  | .ask => h.occ.nextUp L start

/-! ## Matching -/

/-- The resting slot of a fill and the quantities of both parties around it. -/
structure Hit where
  slot : Nat
  aggBefore : UInt32
  aggAfter : UInt32
  restBefore : UInt32
  restAfter : UInt32
  deriving DecidableEq, Repr

/-- What `match` mutates: the arena and the side it takes from, and the fills so far. `hits`
    is ghost state, one entry per fill: the source has no such list and no branch reads it. -/
structure MatchState where
  pool : Pool
  opp : Half
  fills : List Fill
  hits : List Hit

/-- One iteration of the inner loop of `match`, past the test of `max_fills`: fill against the
    head of level `i`. `aggressor` and `resting` are references into the arena, so the resting
    record is read again after the aggressor has been written. -/
def fillHead (N : Nat) (session : Nat → UInt32) (agg i : Nat) (st : MatchState) :
    Except Fault MatchState := do
  let level := st.opp.levels i
  let rslot := level.headIdx
  let a ← fetch N st.pool.slots agg
  let resting ← fetch N st.pool.slots rslot
  let fillQty := min a.qty resting.qty
  let owner ← fetch N session rslot
  -- addressed to the passive owner
  let f : Fill := {
    hdr := ⟨40, .fill, 0, owner⟩, aggressorId := a.orderId, restingId := resting.orderId,
    price := resting.price, qty := fillQty }
  let level := { level with totalQty := level.totalQty - fillQty }
  let slots ← store N st.pool.slots agg { a with qty := a.qty - fillQty }
  let resting ← fetch N slots rslot
  let slots ← store N slots rslot { resting with qty := resting.qty - fillQty }
  let hit : Hit := ⟨rslot, a.qty, a.qty - fillQty, resting.qty, resting.qty - fillQty⟩
  if resting.qty - fillQty = 0 then
    let (_, level, slots) ← level.popFront N slots
    let pool ← { st.pool with slots := slots }.free N rslot
    return ⟨pool, { st.opp with levels := Function.update st.opp.levels i level },
      st.fills ++ [f], st.hits ++ [hit]⟩
  else
    return ⟨{ st.pool with slots := slots },
      { st.opp with levels := Function.update st.opp.levels i level },
      st.fills ++ [f], st.hits ++ [hit]⟩

/-- The inner `while` of `match` at level `i`. The first argument is `max_fills - fill_count`;
    at zero the loop returns from `match`, which the Boolean of the result reports. -/
def fillLevel (N : Nat) (session : Nat → UInt32) (agg i : Nat) :
    Nat → MatchState → Except Fault (Nat × Bool × MatchState)
  | 0, st => do
    let a ← fetch N st.pool.slots agg
    if 0 < a.qty ∧ (st.opp.levels i).empty = false then return (0, true, st)
    else return (0, false, st)
  | room + 1, st => do
    let a ← fetch N st.pool.slots agg
    if 0 < a.qty ∧ (st.opp.levels i).empty = false then
      let st ← fillHead N session agg i st
      fillLevel N session agg i room st
    else return (room + 1, false, st)

/-- The `break` of `match<Side>`: the best opposite level is beyond the aggressor's index. -/
def beyond (S : SideClass) (best aggIdx : Nat) : Prop :=
  match S with
  | .bid => aggIdx < best
  | .ask => best < aggIdx

instance (S : SideClass) (best aggIdx : Nat) : Decidable (beyond S best aggIdx) :=
  match S with
  | .bid => inferInstanceAs (Decidable (_ < _))
  | .ask => inferInstanceAs (Decidable (_ < _))

/-- What `match<Side>` does with `best` once its level `i` is empty, `S` being the side the
    level belongs to. -/
def advance (L : Nat) (S : SideClass) (h : Half) (i : Nat) : Except Fault Nat :=
  match S with
  | .ask => findBest L .ask h (i + 1)
  | .bid => if 0 < i then findBest L .bid h (i - 1) else .ok nullIdx

/-- The outer `while` of `match<Side>`, `S` being the aggressor's side. Every iteration that
    does not leave moves `best` strictly away from it, so `LADDER_SIZE + 1` iterations suffice. -/
def matchLoop (d : Dims) (S : SideClass) (session : Nat → UInt32) (agg aggIdx : Nat) :
    Nat → Nat → MatchState → Except Fault MatchState
  | 0, _, _ => .error .diverged
  | fuel + 1, room, st => do
    let a ← fetch d.N st.pool.slots agg
    if 0 < a.qty ∧ st.opp.bestIdx ≠ nullIdx then
      if beyond S st.opp.bestIdx aggIdx then return st
      else
        let i := st.opp.bestIdx
        let _ ← fetch d.L st.opp.levels i
        let (room, returned, st) ← fillLevel d.N session agg i room st
        if returned then return st
        else if (st.opp.levels i).empty then
          let occ ← st.opp.occ.clear d.L i
          let best ← advance d.L S.opp { st.opp with occ := occ } i
          matchLoop d S session agg aggIdx fuel room
            { st with opp := { st.opp with occ := occ, bestIdx := best } }
        else matchLoop d S session agg aggIdx fuel room st
    else return st

/-- `match<Side>(aggressor, agg_idx, fills, fill_count, max_fills)` with `fill_count = 0`. -/
def matchOrders (d : Dims) (S : SideClass) (session : Nat → UInt32) (agg aggIdx maxFills : Nat)
    (pool : Pool) (opp : Half) : Except Fault MatchState :=
  matchLoop d S session agg aggIdx (d.L + 1) maxFills ⟨pool, opp, [], []⟩

/-! ## Orders and cancels -/

/-- What the books of one shard share, and the books. -/
structure Floor where
  pool : Pool
  session : Nat → UInt32
  books : Nat → OrderBook

/-- A fresh arena with books of the given base price and tick size. -/
def Floor.init (N : Nat) (basePrice tickSize : Int64) : Floor :=
  ⟨Pool.init N, fun _ => 0, fun _ => OrderBook.init basePrice tickSize⟩

/-- The results of `add_order`: the floor, the fills written, their ghost entries and the
    returned handle. -/
structure AddResult where
  floor : Floor
  fills : List Fill
  hits : List Hit
  handle : OrderHandle

/-- Level `i` is ahead of the cached best index of side `S`. -/
def ahead (S : SideClass) (i best : Nat) : Prop :=
  match S with
  | .bid => best < i
  | .ask => i < best

instance (S : SideClass) (i best : Nat) : Decidable (ahead S i best) :=
  match S with
  | .bid => inferInstanceAs (Decidable (_ < _))
  | .ask => inferInstanceAs (Decidable (_ < _))

/-- The record `add_order` writes into the slot it was given. -/
def Order.ofMsg (msg : NewOrder) : Order :=
  { orderId := msg.orderId, price := msg.price, qty := msg.qty, nextIdx := nullIdx,
    prevIdx := nullIdx, symbol := msg.symbolId, side := msg.side, tif := msg.tif }

/-- The tail of `add_order` that rests the remainder: `push_back`, `set`, and the cached best. -/
def Half.rest (d : Dims) (S : SideClass) (h : Half) (uidx slot : Nat) (slots : Nat → Order) :
    Except Fault (Half × (Nat → Order)) := do
  let level ← fetch d.L h.levels uidx
  let (level, slots) ← level.pushBack d.N slot slots
  let occ ← h.occ.set d.L uidx
  let best := if h.bestIdx = nullIdx ∨ ahead S uidx h.bestIdx then uidx else h.bestIdx
  return (⟨best, Function.update h.levels uidx level, occ⟩, slots)

/-- `add_order` behind the range check, for an order of level `uidx`. -/
def Floor.enterAt (d : Dims) (fl : Floor) (b : Nat) (msg : NewOrder) (maxFills uidx : Nat) :
    Except Fault AddResult := do
  let bk := fl.books b
  let (slot, pool) ← fl.pool.alloc d.N
  if slot = nullIdx then
    return ⟨fl, [], [], OrderHandle.invalid⟩
  let slots ← store d.N pool.slots slot (Order.ofMsg msg)
  let session ← store d.N fl.session slot msg.hdr.sessionId  -- owner, for routing passive fills
  let S := msg.side.cls
  let st ← matchOrders d S session slot uidx maxFills { pool with slots := slots } (bk.half S.opp)
  let bk := bk.setHalf S.opp st.opp
  let o ← fetch d.N st.pool.slots slot
  if 0 < o.qty ∧ msg.tif ≠ TimeInForce.ioc then
    let (h, slots) ← (bk.half S).rest d S uidx slot st.pool.slots
    return ⟨⟨{ st.pool with slots := slots }, session,
      Function.update fl.books b (bk.setHalf S h)⟩, st.fills, st.hits, ⟨slot, st.pool.gen slot⟩⟩
  else
    let pool ← st.pool.free d.N slot
    return ⟨⟨pool, session, Function.update fl.books b bk⟩, st.fills, st.hits,
      OrderHandle.invalid⟩

/-- `add_order(msg, fills, fill_count, max_fills)` on book `b`, with `fill_count = 0`. -/
def Floor.addOrder (d : Dims) (fl : Floor) (b : Nat) (msg : NewOrder) (maxFills : Nat) :
    Except Fault AddResult :=
  let bk := fl.books b
  let uidx := bk.levelOf msg.price
  if bk.priceToIdx msg.price < 0 ∨ d.L ≤ uidx then
    .ok ⟨fl, [], [], OrderHandle.invalid⟩
  else
    fl.enterAt d b msg maxFills uidx

/-- What `cancel_order` does with the best index once its level `i` is empty. -/
def refindBest (L : Nat) (S : SideClass) (h : Half) (i : Nat) : Except Fault Nat :=
  match S with
  | .bid => findBest L .bid h (if 0 < i then i - 1 else nullIdx)
  | .ask => findBest L .ask h (i + 1)

/-- The part of `cancel_order` that takes slot `slot` off level `uidx` of a side. -/
def Half.unrest (d : Dims) (S : SideClass) (h : Half) (uidx slot : Nat) (slots : Nat → Order) :
    Except Fault (Half × (Nat → Order)) := do
  let level ← fetch d.L h.levels uidx
  let (level, slots) ← level.remove d.N slot slots
  let h := { h with levels := Function.update h.levels uidx level }
  if level.empty then
    let occ ← h.occ.clear d.L uidx
    if h.bestIdx = uidx then
      let best ← refindBest d.L S { h with occ := occ } uidx
      return ({ h with occ := occ, bestIdx := best }, slots)
    else return ({ h with occ := occ }, slots)
  else return (h, slots)

/-- `cancel_order(h)` on book `b`. -/
def Floor.cancelOrder (d : Dims) (fl : Floor) (b : Nat) (h : OrderHandle) :
    Except Fault (Bool × Floor) := do
  if d.N ≤ h.slot ∨ fl.pool.gen h.slot ≠ h.gen then
    return (false, fl)
  let bk := fl.books b
  let o ← fetch d.N fl.pool.slots h.slot
  let uidx := bk.levelOf o.price
  let S := o.side.cls
  let (half, slots) ← (bk.half S).unrest d S uidx h.slot fl.pool.slots
  let pool ← { fl.pool with slots := slots }.free d.N h.slot
  return (true, ⟨pool, fl.session, Function.update fl.books b (bk.setHalf S half)⟩)

/-! ## Small lemmas about halves -/

@[simp] theorem OrderBook.half_setHalf (bk : OrderBook) (S : SideClass) (h : Half) :
    (bk.setHalf S h).half S = h := by cases S <;> rfl

theorem OrderBook.half_setHalf_of_ne (bk : OrderBook) {S T : SideClass} (h : Half) (hne : T ≠ S) :
    (bk.setHalf S h).half T = bk.half T := by
  cases S <;> cases T <;> first | rfl | exact absurd rfl hne

@[simp] theorem OrderBook.setHalf_base (bk : OrderBook) (S : SideClass) (h : Half) :
    (bk.setHalf S h).basePrice = bk.basePrice := by cases S <;> rfl

@[simp] theorem OrderBook.setHalf_tick (bk : OrderBook) (S : SideClass) (h : Half) :
    (bk.setHalf S h).tickSize = bk.tickSize := by cases S <;> rfl

@[simp] theorem OrderBook.priceToIdx_setHalf (bk : OrderBook) (S : SideClass) (h : Half)
    (p : Int64) : (bk.setHalf S h).priceToIdx p = bk.priceToIdx p := by
  simp [OrderBook.priceToIdx]

@[simp] theorem OrderBook.levelOf_setHalf (bk : OrderBook) (S : SideClass) (h : Half) (p : Int64) :
    (bk.setHalf S h).levelOf p = bk.levelOf p := by
  simp [OrderBook.levelOf]

/-! ## The fills written -/

/-- Every fill has the header of a fill and is addressed to the session of some slot. -/
def Addressed (session : Nat → UInt32) (fills : List Fill) : Prop :=
  ∀ f ∈ fills, ∃ s, f.hdr = ⟨40, .fill, 0, session s⟩

theorem Addressed.append {session : Nat → UInt32} {fs gs : List Fill} (h : Addressed session fs)
    (h' : Addressed session gs) : Addressed session (fs ++ gs) := by
  intro f hf
  rcases List.mem_append.mp hf with hf | hf
  · exact h f hf
  · exact h' f hf

/-- On any state, an iteration of the inner loop writes one fill. -/
theorem fillHead_fills {N agg i : Nat} {session : Nat → UInt32} {st st' : MatchState}
    (h : fillHead N session agg i st = .ok st') :
    ∃ f, st'.fills = st.fills ++ [f] ∧ Addressed session [f] := by
  unfold fillHead at h
  obtain ⟨a, -, h⟩ := bind_eq_ok h
  obtain ⟨resting, -, h⟩ := bind_eq_ok h
  obtain ⟨owner, howner, h⟩ := bind_eq_ok h
  obtain ⟨slots, -, h⟩ := bind_eq_ok h
  obtain ⟨resting', -, h⟩ := bind_eq_ok h
  obtain ⟨slots', -, h⟩ := bind_eq_ok h
  obtain ⟨-, rfl⟩ := fetch_eq_ok howner
  have hsession : ∀ f : Fill, f.hdr = ⟨40, .fill, 0, session (st.opp.levels i).headIdx⟩ →
      Addressed session [f] := by
    intro f hf g hg
    exact ⟨_, List.mem_singleton.mp hg ▸ hf⟩
  dsimp only at h
  split at h
  · obtain ⟨r, -, h⟩ := bind_eq_ok h
    obtain ⟨pool, -, h⟩ := bind_eq_ok h
    cases h
    exact ⟨_, rfl, hsession _ rfl⟩
  · cases h
    exact ⟨_, rfl, hsession _ rfl⟩

theorem fillLevel_fills {N agg i room room' : Nat} {session : Nat → UInt32} {st st' : MatchState}
    {returned : Bool} (h : fillLevel N session agg i room st = .ok (room', returned, st')) :
    ∃ fs, st'.fills = st.fills ++ fs ∧ fs.length + room' = room ∧ Addressed session fs := by
  induction room generalizing st with
  | zero =>
    obtain ⟨a, -, h⟩ := bind_eq_ok h
    split at h <;> cases h <;> exact ⟨[], (List.append_nil _).symm, rfl, nofun⟩
  | succ room ih =>
    obtain ⟨a, -, h⟩ := bind_eq_ok h
    split at h
    · obtain ⟨st₁, hhead, h⟩ := bind_eq_ok h
      obtain ⟨f, hf, haddr⟩ := fillHead_fills hhead
      obtain ⟨fs, hfs, hlen, haddrs⟩ := ih h
      refine ⟨f :: fs, ?_, ?_, haddr.append haddrs⟩
      · rw [hfs, hf, List.append_assoc]
        rfl
      · rw [List.length_cons]
        omega
    · cases h
      exact ⟨[], (List.append_nil _).symm, Nat.zero_add _, nofun⟩

theorem matchLoop_fills {d : Dims} {S : SideClass} {session : Nat → UInt32}
    {agg aggIdx fuel room : Nat} {st st' : MatchState}
    (h : matchLoop d S session agg aggIdx fuel room st = .ok st') :
    ∃ fs, st'.fills = st.fills ++ fs ∧ fs.length ≤ room ∧ Addressed session fs := by
  have hnone : ∃ fs, st.fills = st.fills ++ fs ∧ fs.length ≤ room ∧ Addressed session fs :=
    ⟨[], (List.append_nil _).symm, Nat.zero_le _, nofun⟩
  induction fuel generalizing room st with
  | zero => cases h
  | succ fuel ih =>
    obtain ⟨a, -, h⟩ := bind_eq_ok h
    split at h
    · split at h
      · cases h
        exact hnone
      · obtain ⟨level, -, h⟩ := bind_eq_ok h
        obtain ⟨⟨room₁, returned, st₁⟩, hlevel, h⟩ := bind_eq_ok h
        obtain ⟨fs, hfs, hlen, haddr⟩ := fillLevel_fills hlevel
        -- the rest of the loop writes its fills behind those of this level
        have hrest : ∀ st₂ : MatchState, st₂.fills = st₁.fills →
            matchLoop d S session agg aggIdx fuel room₁ st₂ = .ok st' →
            ∃ fs, st'.fills = st.fills ++ fs ∧ fs.length ≤ room ∧ Addressed session fs := by
          intro st₂ hst₂ h
          obtain ⟨gs, hgs, hlen', haddr'⟩ :=
            ih h ⟨[], (List.append_nil _).symm, Nat.zero_le _, nofun⟩
          refine ⟨fs ++ gs, ?_, ?_, haddr.append haddr'⟩
          · rw [hgs, hst₂, hfs, List.append_assoc]
          · rw [List.length_append]
            omega
        dsimp only at h
        split at h
        · cases h
          exact ⟨fs, hfs, by omega, haddr⟩
        · split at h
          · obtain ⟨occ, -, h⟩ := bind_eq_ok h
            obtain ⟨best, -, h⟩ := bind_eq_ok h
            refine hrest _ ?_ h
            rfl
          · exact hrest _ rfl h
    · cases h
      exact hnone

/-- What `add_order` does to sessions, whatever the state of the floor: it writes no more than
    `max_fills` fills, addressed to the sender or to the session of a slot, and the session of a
    slot stays or becomes the sender's. -/
structure AddSessions (fl : Floor) (msg : NewOrder) (maxFills : Nat) (r : AddResult) : Prop where
  count : r.fills.length ≤ maxFills
  fills : ∀ f ∈ r.fills, ∃ owner, f.hdr = ⟨40, .fill, 0, owner⟩ ∧
    (owner = msg.hdr.sessionId ∨ ∃ s, owner = fl.session s)
  slots : ∀ s, r.floor.session s = msg.hdr.sessionId ∨ r.floor.session s = fl.session s

theorem addOrder_sessions {d : Dims} {fl : Floor} {b maxFills : Nat} {msg : NewOrder}
    {r : AddResult} (h : fl.addOrder d b msg maxFills = .ok r) : AddSessions fl msg maxFills r := by
  unfold Floor.addOrder at h
  dsimp only at h
  split at h
  · cases h
    exact ⟨Nat.zero_le _, nofun, fun s => .inr rfl⟩
  · unfold Floor.enterAt at h
    obtain ⟨⟨slot, pool⟩, -, h⟩ := bind_eq_ok h
    dsimp only at h
    split at h
    · cases h
      exact ⟨Nat.zero_le _, nofun, fun s => .inr rfl⟩
    · obtain ⟨slots, -, h⟩ := bind_eq_ok h
      obtain ⟨session, hsession, h⟩ := bind_eq_ok h
      obtain ⟨st, hmatch, h⟩ := bind_eq_ok h
      obtain ⟨fs, hfs, hlen, haddr⟩ := matchLoop_fills hmatch
      dsimp only at hfs
      rw [List.nil_append] at hfs
      have hslots : ∀ s, session s = msg.hdr.sessionId ∨ session s = fl.session s := by
        intro s
        obtain ⟨-, rfl⟩ := store_eq_ok hsession
        rcases eq_or_ne s slot with rfl | hne
        · exact .inl (Function.update_self ..)
        · exact .inr (Function.update_of_ne hne ..)
      have hfills : ∀ f ∈ st.fills, ∃ owner, f.hdr = ⟨40, .fill, 0, owner⟩ ∧
          (owner = msg.hdr.sessionId ∨ ∃ s, owner = fl.session s) := by
        intro f hf
        obtain ⟨s, hs⟩ := haddr f (hfs ▸ hf)
        exact ⟨session s, hs, (hslots s).imp_right fun he => ⟨s, he⟩⟩
      have hcount : st.fills.length ≤ maxFills := by
        rw [hfs]
        exact hlen
      obtain ⟨o, -, h⟩ := bind_eq_ok h
      split at h
      · obtain ⟨⟨half, slots⟩, -, h⟩ := bind_eq_ok h
        cases h
        exact ⟨hcount, hfills, hslots⟩
      · obtain ⟨pool, -, h⟩ := bind_eq_ok h
        cases h
        exact ⟨hcount, hfills, hslots⟩

end LiteExchange.Book

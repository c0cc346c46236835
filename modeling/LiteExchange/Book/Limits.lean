/-
  Limit prices. A match is decided on level indices and executed at the resting order's own
  price. An index is a truncated quotient, so orders of crossing indices need not have crossing
  prices.

  * `within_of_crosses`: between prices whose indices are exact quotients, a crossing level other
    than one's own has only prices within the limit. So a limit can be broken only on a level that
    both prices share.
  * `limits_protected`: along every run whose prices have exact indices each fill is within both
    limits, or is between two prices of one level; and if every order that comes in accepts the
    prices of the opposite orders on its own level, then all fills are within both limits.
-/
import LiteExchange.Book.Admission
import LiteExchange.Book.Refinement

namespace LiteExchange.Book

open Lib Proto

/-- A price an order of side `S` with this limit accepts. -/
def within (S : SideClass) (limit price : Int64) : Prop :=
  match S with
  | .bid => price ≤ limit
  | .ask => limit ≤ price

instance (S : SideClass) (limit price : Int64) : Decidable (within S limit price) :=
  match S with
  | .bid => inferInstanceAs (Decidable (price ≤ limit))
  | .ask => inferInstanceAs (Decidable (limit ≤ price))

/-- The fill price is no worse than the limits of the two `add_order` calls it is between. -/
def Protected (placed : List Placed) (taker maker : Nat) (fill : Fill) : Prop :=
  ∃ p q, placed[taker]? = some p ∧ placed[maker]? = some q ∧
    q.msg.side.cls = p.msg.side.cls.opp ∧ within p.msg.side.cls p.msg.price fill.price ∧
    within q.msg.side.cls q.msg.price fill.price

/-- The prices of the two `add_order` calls have the same level. -/
def SameLevel (basePrice tickSize : Int64) (placed : List Placed) (taker maker : Nat) : Prop :=
  ∃ p q, placed[taker]? = some p ∧ placed[maker]? = some q ∧
    (OrderBook.init basePrice tickSize).levelOf p.msg.price =
      (OrderBook.init basePrice tickSize).levelOf q.msg.price

/-- A call whose price has an exact index: if the order is admitted, neither does the subtraction
    leave 64 bits nor the cast lose any. A cancel is benign. -/
def Desk.InReach (d : Dims) (dk : Desk) : Call → Prop
  | .add b msg _ => dk.floor.Admits d b msg.price → (dk.floor.books b).IndexFits msg.price
  | .cancel k => dk.Benign d (.cancel k)

/-- If the order is admitted, it accepts the prices of the opposite orders on its own level. -/
def Desk.LevelFair (d : Dims) (dk : Desk) : Call → Prop
  | .add b msg _ => dk.floor.Admits d b msg.price →
      ∀ s ∈ dk.floor.queue d b msg.side.cls.opp ((dk.floor.books b).levelOf msg.price),
        within msg.side.cls msg.price (dk.floor.pool.slots s).price
  | .cancel _ => True

theorem Protected.append {placed : List Placed} {taker maker : Nat} {fill : Fill}
    (h : Protected placed taker maker fill) (extra : List Placed) :
    Protected (placed ++ extra) taker maker fill := by
  obtain ⟨p, q, hp, hq, h1, h2, h3⟩ := h
  refine ⟨p, q, ?_, ?_, h1, h2, h3⟩
  · rw [List.getElem?_append_left (List.getElem?_eq_some_iff.mp hp).1, hp]
  · rw [List.getElem?_append_left (List.getElem?_eq_some_iff.mp hq).1, hq]

theorem SameLevel.append {basePrice tickSize : Int64} {placed : List Placed} {taker maker : Nat}
    (h : SameLevel basePrice tickSize placed taker maker) (extra : List Placed) :
    SameLevel basePrice tickSize (placed ++ extra) taker maker := by
  obtain ⟨p, q, hp, hq, hlevel⟩ := h
  refine ⟨p, q, ?_, ?_, hlevel⟩
  · rw [List.getElem?_append_left (List.getElem?_eq_some_iff.mp hp).1, hp]
  · rw [List.getElem?_append_left (List.getElem?_eq_some_iff.mp hq).1, hq]

/-! ## Indices and prices -/

section Index

variable {d : Dims} {bk : OrderBook} {p q : Int64}

/-- A higher level has higher prices. -/
theorem lt_of_levelOf_lt (htick : 0 < bk.tickSize) (hp : bk.OnLadder d p) (hq : bk.OnLadder d q)
    (hpfits : bk.IndexFits p) (hqfits : bk.IndexFits q) (hlt : bk.levelOf p < bk.levelOf q) :
    p < q := by
  have ht : 0 < bk.tickSize.toInt := Int64.lt_iff_toInt_lt.mp htick
  obtain ⟨-, hup, -⟩ := (levelAt_exact htick hpfits _).mp (levelAt_of_onLadder hp)
  obtain ⟨-, -, hlow⟩ := (levelAt_exact htick hqfits _).mp (levelAt_of_onLadder hq)
  rw [if_neg (by omega)] at hlow
  -- the tick of `p` ends where that of `q` begins, or before
  have hticks : ((bk.levelOf p : Int) + 1) * bk.tickSize.toInt ≤
      bk.levelOf q * bk.tickSize.toInt :=
    Int.mul_le_mul_of_nonneg_right (by omega) (Int.le_of_lt ht)
  unfold OrderBook.offset at hup hlow
  rw [Int64.lt_iff_toInt_lt]
  omega

/-- On a crossing level that is not one's own, prices are within the limit. -/
theorem within_of_crosses (htick : 0 < bk.tickSize) {S : SideClass} (hp : bk.OnLadder d p)
    (hq : bk.OnLadder d q) (hpfits : bk.IndexFits p) (hqfits : bk.IndexFits q)
    (hcross : crosses S (bk.levelOf p) (bk.levelOf q) = true)
    (hne : bk.levelOf p ≠ bk.levelOf q) : within S p q := by
  cases S with
  | bid =>
    have hle : bk.levelOf q ≤ bk.levelOf p := of_decide_eq_true hcross
    exact Int64.le_of_lt (lt_of_levelOf_lt htick hq hp hqfits hpfits (by omega))
  | ask =>
    have hle : bk.levelOf p ≤ bk.levelOf q := of_decide_eq_true hcross
    exact Int64.le_of_lt (lt_of_levelOf_lt htick hp hq hpfits hqfits (by omega))

end Index

/-! ## One call -/

/-- Every order that was given a slot to rest in has a price with an exact index. -/
def Desk.Exact (basePrice tickSize : Int64) (dk : Desk) : Prop :=
  ∀ p ∈ dk.placed, p.handle.valid = true → (OrderBook.init basePrice tickSize).IndexFits p.msg.price

section Step

variable {d : Dims} {basePrice tickSize : Int64} {dk dk' : Desk} {v v' : View}
variable {place place' : Nat → Place} {b : Nat} {msg : NewOrder} {maxFills : Nat} {r : AddResult}
variable {c : Call}

theorem DeskRep.indexFits_iff (h : DeskRep d basePrice tickSize dk v place) (b : Nat)
    (price : Int64) : (dk.floor.books b).IndexFits price ↔
      (OrderBook.init basePrice tickSize).IndexFits price := by
  unfold OrderBook.IndexFits OrderBook.exactIdx OrderBook.offset
  rw [(h.params b).1, (h.params b).2]
  rfl

/-- A resting order has a level of the ladder and a price with an exact index. -/
theorem DeskRep.resting_exact (h : DeskRep d basePrice tickSize dk v place)
    (hexact : dk.Exact basePrice tickSize) {i : Nat} {S : SideClass} {o : Resting Nat}
    (ho : o ∈ absBook dk.floor dk.owner v b S i) :
    (dk.floor.books b).levelOf o.price = i ∧ (dk.floor.books b).OnLadder d o.price ∧
      (dk.floor.books b).IndexFits o.price := by
  obtain ⟨s, hs, rfl⟩ := mem_absBook.mp ho
  obtain ⟨hi, hrecord⟩ := h.rep.threads.records b S i s hs
  refine ⟨hrecord.level, ⟨hrecord.idx_nonneg, hrecord.level ▸ hi⟩, ?_⟩
  obtain ⟨q, hq⟩ := h.names s b S i ((h.rep.threads.queued b S i s).mp hs)
  have hvalid : q.handle.valid = true := by
    have hlt := h.rep.threads.mem_lt hs
    have hnull := d.N_le_nullIdx
    rw [OrderHandle.valid, bne_iff_ne, hq.slot]
    omega
  rw [h.indexFits_iff]
  have hprice : (dk.floor.pool.slots s).price = q.msg.price := price_of_fixed hq.fixed
  dsimp only [Order.view]
  rw [hprice]
  exact hexact q (List.mem_of_getElem? hq.call) hvalid

/-- An order trades within its limit or on its own level. -/
theorem DeskRep.trade_within (h : DeskRep d basePrice tickSize dk v place) (htick : 0 < tickSize)
    (hexact : dk.Exact basePrice tickSize) (hon : (dk.floor.books b).OnLadder d msg.price)
    (hfits : (dk.floor.books b).IndexFits msg.price) {id : Nat} {t : Resting Nat × Nat}
    (ht : t ∈ ((absBook dk.floor dk.owner v b).add d.L id msg
      ((dk.floor.books b).levelOf msg.price) maxFills).trades) :
    within msg.side.cls msg.price t.1.price ∨
      (dk.floor.books b).levelOf msg.price = (dk.floor.books b).levelOf t.1.price ∧
      t.1 ∈ absBook dk.floor dk.owner v b msg.side.cls.opp
        ((dk.floor.books b).levelOf msg.price) := by
  obtain ⟨⟨j, hj, hmem⟩, -⟩ := Ladder.mem_trades ht
  obtain ⟨hlevel, hqon, hqfits⟩ := h.resting_exact hexact hmem
  by_cases hne : (dk.floor.books b).levelOf msg.price = (dk.floor.books b).levelOf t.1.price
  · refine .inr ⟨hne, ?_⟩
    rw [hne, hlevel]
    exact hmem
  · have htick' : 0 < (dk.floor.books b).tickSize := (h.params b).2.symm ▸ htick
    have hcross := (mem_crossing.mp hj).2
    rw [← hlevel] at hcross
    exact .inl (within_of_crosses htick' hon hqon hfits hqfits hcross hne)

/-- The fills of an admitted order, and the calls behind them. The maker trades at its own price,
    so only the taker's limit is in question. -/
theorem DeskRep.added_tape (h : DeskRep d basePrice tickSize dk v place)
    (hspec : AddedSpec d dk v place b msg ((absBook dk.floor dk.owner v b).add d.L
      dk.placed.length msg ((dk.floor.books b).levelOf msg.price) maxFills) r v' place')
    {P : Nat → Nat → Fill → Prop} (hold : ∀ t ∈ dk.tape, P t.taker t.maker t.fill)
    (hnew : ∀ t ∈ ((absBook dk.floor dk.owner v b).add d.L dk.placed.length msg
        ((dk.floor.books b).levelOf msg.price) maxFills).trades,
      ∀ p q, (dk.added d b msg r).placed[dk.placed.length]? = some p → p.msg = msg →
        (dk.added d b msg r).placed[t.1.id]? = some q → q.msg.price = t.1.price →
        q.msg.side.cls = p.msg.side.cls.opp →
        P dk.placed.length t.1.id (fillOf msg.orderId t)) :
    ∀ t ∈ (dk.added d b msg r).tape, P t.taker t.maker t.fill := by
  dsimp only [Desk.added]
  rw [List.forall_mem_append, hspec.spec.fills, forall_zip_trades _ hspec.spec.hits]
  refine ⟨hold, fun t ht => ?_⟩
  obtain ⟨⟨j, -, hmem⟩, -⟩ := Ladder.mem_trades ht
  obtain ⟨q, hcall, -, hprice, hside, -⟩ := h.maker hmem
  refine hnew t ht _ q List.getElem?_concat_length rfl ?_ hprice hside
  exact (List.getElem?_append_left (List.getElem?_eq_some_iff.mp hcall).1).trans hcall

theorem protected_of_within {placed : List Placed} {taker : Nat} {p q : Placed}
    {t : Resting Nat × Nat} (hp : placed[taker]? = some p) (hq : placed[t.1.id]? = some q)
    (hprice : q.msg.price = t.1.price) (hside : q.msg.side.cls = p.msg.side.cls.opp)
    (hwithin : within p.msg.side.cls p.msg.price t.1.price) :
    Protected placed taker t.1.id (fillOf p.msg.orderId t) := by
  refine ⟨p, q, hp, hq, hside, hwithin, ?_⟩
  rw [hprice]
  cases q.msg.side.cls <;> exact Int64.le_refl _

/-- Indices stay exact. -/
theorem Desk.Exact.step (hexact : dk.Exact basePrice tickSize)
    (h : DeskRep d basePrice tickSize dk v place) (hreach : dk.InReach d c)
    (hstep : Stepped d dk v place c dk' v' place') : dk'.Exact basePrice tickSize := by
  cases hstep with
  | added hadm hspec =>
    refine List.forall_mem_append.mpr ⟨hexact, fun p hp _ => ?_⟩
    rw [List.mem_singleton.mp hp]
    exact (h.indexFits_iff _ _).mp (hreach hadm)
  | refused hadm =>
    refine List.forall_mem_append.mpr ⟨hexact, fun p hp hvalid => ?_⟩
    rw [List.mem_singleton.mp hp] at hvalid
    cases hvalid
  | cancelled hp hpl hgen hspec => exact hexact
  | stale hp hs => exact hexact
  | idle hp => exact hexact

/-- One call: its fills are within the limits, or on a shared level. -/
theorem step_within_or_same (htick : 0 < tickSize) (hexact : dk.Exact basePrice tickSize)
    (h : DeskRep d basePrice tickSize dk v place) (hreach : dk.InReach d c)
    (hstep : Stepped d dk v place c dk' v' place')
    (hold : ∀ t ∈ dk.tape, Protected dk.placed t.taker t.maker t.fill ∨
      SameLevel basePrice tickSize dk.placed t.taker t.maker) :
    ∀ t ∈ dk'.tape, Protected dk'.placed t.taker t.maker t.fill ∨
      SameLevel basePrice tickSize dk'.placed t.taker t.maker := by
  have hkept : ∀ extra, ∀ t ∈ dk.tape, Protected (dk.placed ++ extra) t.taker t.maker t.fill ∨
      SameLevel basePrice tickSize (dk.placed ++ extra) t.taker t.maker := fun extra t ht =>
    (hold t ht).imp (fun hp => hp.append extra) fun hs => hs.append extra
  cases hstep with
  | @added b msg maxFills r v' place' hadm hspec =>
    refine h.added_tape (P := fun k j f => Protected _ k j f ∨ SameLevel _ _ _ k j) hspec
      (hkept _) fun t ht p q hp hmsg hq hprice hside => ?_
    subst hmsg
    rcases h.trade_within htick hexact hadm.1 (hreach hadm) ht with hwithin | ⟨hsame, -⟩
    · exact .inl (protected_of_within hp hq hprice hside hwithin)
    · refine .inr ⟨p, q, hp, hq, ?_⟩
      rw [hprice, ← h.levelOf_eq b, ← h.levelOf_eq b]
      exact hsame
  | refused hadm =>
    intro t ht
    simp only [Desk.added, List.zipWith_nil_left, List.append_nil] at ht
    exact hkept _ t ht
  | cancelled hp hpl hgen hspec => exact hold
  | stale hp hs => exact hold
  | idle hp => exact hold

/-- If the prices on the order's own level are accepted, so are all it trades at. -/
theorem step_within (htick : 0 < tickSize) (hexact : dk.Exact basePrice tickSize)
    (h : DeskRep d basePrice tickSize dk v place) (hreach : dk.InReach d c)
    (hfair : dk.LevelFair d c) (hstep : Stepped d dk v place c dk' v' place')
    (hold : ∀ t ∈ dk.tape, Protected dk.placed t.taker t.maker t.fill) :
    ∀ t ∈ dk'.tape, Protected dk'.placed t.taker t.maker t.fill := by
  cases hstep with
  | @added b msg maxFills r v' place' hadm hspec =>
    refine h.added_tape (P := Protected _) hspec (fun t ht => (hold t ht).append _)
      fun t ht p q hp hmsg hq hprice hside => ?_
    subst hmsg
    refine protected_of_within hp hq hprice hside ?_
    rcases h.trade_within htick hexact hadm.1 (hreach hadm) ht with hwithin | ⟨-, hmem⟩
    · exact hwithin
    · obtain ⟨s, hs, hview⟩ := mem_absBook.mp hmem
      rw [h.rep.threads.view_eq] at hs
      rw [← hview]
      exact hfair hadm s hs
  | refused hadm =>
    intro t ht
    simp only [Desk.added, List.zipWith_nil_left, List.append_nil] at ht
    exact (hold t ht).append _
  | cancelled hp hpl hgen hspec => exact hold
  | stale hp hs => exact hold
  | idle hp => exact hold

end Step

/-! ## Whole runs -/

theorem Desk.InReach.benign {d : Dims} {dk : Desk} {c : Call} (h : dk.InReach d c) :
    dk.Benign d c := by
  cases c with
  | add b msg maxFills => trivial
  | cancel k => exact h

/-- Along every run of calls whose admitted prices have exact indices: a fill is within the limits
    of both parties, or their prices share a level; and if moreover every admitted order accepts
    the prices of the opposite orders on its own level, every fill is within both limits. -/
theorem limits_protected (d : Dims) (basePrice tickSize : Int64) (htick : 0 < tickSize)
    (calls : List Call)
    (hreach : Along (Desk.step d) (Desk.InReach d) (Desk.init d basePrice tickSize) calls) :
    ∃ dk, run (Desk.step d) (Desk.init d basePrice tickSize) calls = .ok dk ∧
      (∀ t ∈ dk.tape, Protected dk.placed t.taker t.maker t.fill ∨
        SameLevel basePrice tickSize dk.placed t.taker t.maker) ∧
      (Along (Desk.step d) (Desk.LevelFair d) (Desk.init d basePrice tickSize) calls →
        ∀ t ∈ dk.tape, Protected dk.placed t.taker t.maker t.fill) := by
  have hinit : ∃ v place,
      DeskRep d basePrice tickSize (Desk.init d basePrice tickSize) v place ∧
      (Desk.init d basePrice tickSize).Exact basePrice tickSize :=
    ⟨_, _, deskRep_init d basePrice tickSize, fun p hp => absurd hp List.not_mem_nil⟩
  obtain ⟨v₀, place₀, hrep₀, hexact₀⟩ := hinit
  obtain ⟨dk, hrun, v, place, -, -, hold⟩ := run_inv (P := Desk.InReach d)
    (I := fun _ dk => ∃ v place, DeskRep d basePrice tickSize dk v place ∧
      dk.Exact basePrice tickSize ∧ ∀ t ∈ dk.tape, Protected dk.placed t.taker t.maker t.fill ∨
        SameLevel basePrice tickSize dk.placed t.taker t.maker)
    (fun _ dk c ⟨v, place, h, hexact, hold⟩ hc => by
      obtain ⟨dk', v', place', hrun, hrep, hstep⟩ := h.step c hc.benign
      exact ⟨dk', hrun, v', place', hrep, hexact.step h hc hstep,
        step_within_or_same htick hexact h hc hstep hold⟩)
    (n := 0) ⟨v₀, place₀, hrep₀, hexact₀, fun t ht => absurd ht List.not_mem_nil⟩ hreach
  refine ⟨dk, hrun, hold, fun hfair => ?_⟩
  obtain ⟨dk₁, hrun₁, v₁, place₁, -, -, hall⟩ := run_inv
    (I := fun _ dk => ∃ v place, DeskRep d basePrice tickSize dk v place ∧
      dk.Exact basePrice tickSize ∧ ∀ t ∈ dk.tape, Protected dk.placed t.taker t.maker t.fill)
    (fun _ dk c ⟨v, place, h, hexact, hold⟩ hc => by
      obtain ⟨dk', v', place', hrun, hrep, hstep⟩ := h.step c hc.1.benign
      exact ⟨dk', hrun, v', place', hrep, hexact.step h hc.1 hstep,
        step_within htick hexact h hc.1 hc.2 hstep hold⟩)
    (n := 0) ⟨v₀, place₀, hrep₀, hexact₀, fun t ht => absurd ht List.not_mem_nil⟩
    (along_and hreach hfair)
  cases hrun.symm.trans hrun₁
  exact hall

/-- The condition on an order's price, as a check; a cancel does not pass it. -/
def Desk.priceFair (d : Dims) (dk : Desk) : Call → Bool
  | .add b msg _ =>
    decide (-2 ^ 63 ≤ (dk.floor.books b).offset msg.price ∧
      (dk.floor.books b).offset msg.price < 2 ^ 63) &&
    decide (-2 ^ 31 ≤ (dk.floor.books b).exactIdx msg.price ∧
      (dk.floor.books b).exactIdx msg.price < 2 ^ 31) &&
    (dk.floor.queue d b msg.side.cls.opp ((dk.floor.books b).levelOf msg.price)).all fun s =>
      decide (within msg.side.cls msg.price (dk.floor.pool.slots s).price)
  | .cancel _ => false

theorem Desk.fair_of_check {d : Dims} {dk : Desk} {c : Call} (h : dk.priceFair d c = true) :
    dk.InReach d c ∧ dk.LevelFair d c := by
  cases c with
  | add b msg maxFills =>
    simp only [Desk.priceFair, Bool.and_eq_true, decide_eq_true_eq, List.all_eq_true] at h
    exact ⟨fun _ => h.1, fun _ => h.2⟩
  | cancel k => cases h

/-- Base price 100, tick size 10: a buyer at 109 meets a seller at 101 on level 0, and a buyer at
    125 on level 2 a seller at 113 on level 1. -/
def sharedLevel : List Call :=
  [.add 0 (limitOrder 1 Side.buy 109 5) 64, .add 0 (limitOrder 2 Side.sell 101 5) 64,
    .add 0 (limitOrder 3 Side.buy 125 5) 64, .add 0 (limitOrder 4 Side.sell 113 5) 64]

theorem limits_protected_shared_level :
    ∃ dk, run (Desk.step smallDims) (Desk.init smallDims 100 10) sharedLevel = .ok dk ∧
      dk.tape.length = 2 ∧ ∀ t ∈ dk.tape, Protected dk.placed t.taker t.maker t.fill := by
  have hcheck : Along (Desk.step smallDims)
      (fun dk c => dk.InReach smallDims c ∧ dk.LevelFair smallDims c)
      (Desk.init smallDims 100 10) sharedLevel :=
    along_of_check (p := Desk.priceFair smallDims) (fun _ _ h => Desk.fair_of_check h)
      (by decide +kernel)
  obtain ⟨dk, hrun, -, hall⟩ := limits_protected smallDims 100 10 (by decide) sharedLevel
    (along_mono (fun _ _ h => h.1) hcheck)
  have hcode : (run (Desk.step smallDims) (Desk.init smallDims 100 10) sharedLevel).map
      (fun dk => dk.tape.length) = .ok 2 := by decide +kernel
  rw [hrun] at hcode
  exact ⟨dk, hrun, Except.ok.inj hcode, hall (along_mono (fun _ _ h => h.2) hcheck)⟩

/-- With base price 100 and tick size 10 the prices 101 and 109 share level 0: a seller with
    limit 109 sells at 101. -/
theorem truncated_index_breaks_limit :
    ¬ ∀ calls dk, run (Desk.step smallDims) (Desk.init smallDims 100 10) calls = .ok dk →
      ∀ t ∈ dk.tape, Protected dk.placed t.taker t.maker t.fill := by
  intro hall
  have hfill := hall [.add 0 (limitOrder 1 Side.buy 101 5) 64,
    .add 0 (limitOrder 2 Side.sell 109 5) 64] _ rfl
    ⟨1, 0, ⟨⟨40, .fill, 0, 7⟩, 2, 1, 101, 5⟩, ⟨3, 5, 0, 5, 0⟩⟩ (List.mem_singleton.mpr rfl)
  obtain ⟨p, q, hp, -, -, hw, -⟩ := hfill
  obtain rfl : _ = p := Option.some.inj hp
  exact absurd (show (109 : Int64) ≤ 101 from hw) (by decide)

end LiteExchange.Book

/-
  Buyers and sellers are treated alike. Bids and asks are matched by two instances of `match`, which
  walk the ladder in opposite directions, scan the bitmap from opposite ends and keep two best
  indices.

  `sides_mirrored`: turn every order of a run round, a buy into a sell and level `a` into level
  `L - 1 - a`. The calls are answered with the same fills at the turned prices, the trades are
  between the same calls, and the best index of each side is that of the other side, turned.

  Prices have to be on ticks and their indices in range: off the ticks `price_to_idx` rounds down
  for both sides, so that the turned price is on another level than the turned level.
-/
import LiteExchange.Book.Admission
import LiteExchange.Book.Refinement

namespace LiteExchange.Book

open Lib Proto

/-! ## Turning calls round -/

def Side.turned (side : Side) : Side := if side = Side.buy then Side.sell else Side.buy

theorem cls_turned (side : Side) : (Side.turned side).cls = side.cls.opp := by
  unfold Side.turned Side.cls
  by_cases h : side = Side.buy
  · simp only [h, if_true]
    rfl
  · simp only [h, if_false]
    rfl

section Turned

variable (d : Dims) (basePrice tickSize : Int64)

/-- The price as far below the last level as `price` is above the first. -/
def turnedPrice (price : Int64) : Int64 :=
  basePrice + (basePrice + Int64.ofNat (d.L - 1) * tickSize - price)

def NewOrder.turned (m : NewOrder) : NewOrder :=
  { m with side := Side.turned m.side, price := turnedPrice d basePrice tickSize m.price }

def Call.turned : Call → Call
  | .add b m maxFills => .add b (NewOrder.turned d basePrice tickSize m) maxFills
  | .cancel k => .cancel k

def Fill.turned (f : Fill) : Fill := { f with price := turnedPrice d basePrice tickSize f.price }

def Answer.turned (a : Answer) : Answer :=
  { a with fills := a.fills.map (Fill.turned d basePrice tickSize) }

/-- The price is on a tick, and no arithmetic on it or on the turned price overflows. -/
structure Turnable (price : Int64) : Prop where
  on_tick : tickSize.toInt ∣ price.toInt - basePrice.toInt
  exact : (turnedPrice d basePrice tickSize price).toInt =
    basePrice.toInt + (basePrice.toInt + (d.L - 1 : Nat) * tickSize.toInt - price.toInt)
  fits : (OrderBook.init basePrice tickSize).IndexFits price
  turned_fits : (OrderBook.init basePrice tickSize).IndexFits
    (turnedPrice d basePrice tickSize price)

def Call.Turnable : Call → Prop
  | .add _ m _ => Book.Turnable d basePrice tickSize m.price
  | .cancel _ => True

end Turned

/-- The level as far from the last one as `i` is from the first. -/
def turnedLevel (L i : Nat) : Nat := L - 1 - i

section Levels

variable {L a i : Nat}

theorem turnedLevel_lt (hi : i < L) : turnedLevel L i < L := by
  unfold turnedLevel
  omega

theorem turnedLevel_turned (hi : i < L) : turnedLevel L (turnedLevel L i) = i := by
  unfold turnedLevel
  omega

theorem turnedLevel_injOn (L : Nat) : Set.InjOn (turnedLevel L) {i | i < L} := by
  intro i hi j hj he
  rw [← turnedLevel_turned hi, he, turnedLevel_turned hj]

theorem bestFirst_turned (L : Nat) (S : SideClass) :
    bestFirst L S.opp = (bestFirst L S).map (turnedLevel L) := by
  have hrange : (List.range L).reverse = (List.range L).map (turnedLevel L) := by
    refine List.ext_getElem (by simp) fun i h₁ h₂ => ?_
    simp [turnedLevel]
  cases S with
  | ask => exact hrange
  | bid =>
    have hback := congrArg List.reverse hrange
    rw [List.reverse_reverse, ← List.map_reverse] at hback
    exact hback

theorem crosses_turned {S : SideClass} (ha : a < L) (hi : i < L) :
    crosses S.opp (turnedLevel L a) (turnedLevel L i) = crosses S a i := by
  cases S <;> simp only [crosses, SideClass.opp, turnedLevel] <;>
    exact decide_eq_decide.mpr (by omega)

theorem crossing_turned (S : SideClass) (ha : a < L) :
    crossing L S.opp (turnedLevel L a) = (crossing L S a).map (turnedLevel L) := by
  unfold crossing
  rw [bestFirst_turned L S.opp, List.filter_map]
  refine congrArg _ (List.filter_congr fun i hi => ?_)
  exact crosses_turned ha (mem_bestFirst.mp hi)

end Levels

section Prices

variable {d : Dims} {basePrice tickSize price : Int64}

theorem ladderIdx_eq_levelAt (d : Dims) (basePrice tickSize price : Int64) :
    ladderIdx d basePrice tickSize price =
      (OrderBook.init basePrice tickSize).levelAt d price := by
  unfold ladderIdx
  by_cases hon : (OrderBook.init basePrice tickSize).OnLadder d price
  · rw [if_pos hon, levelAt_of_onLadder hon]
  · rw [if_neg hon, levelAt_none_iff.mpr hon]

/-- A price on a tick has the number of the tick as its index. -/
theorem priceToIdx_on_tick (htick : 0 < tickSize) {price : Int64} {k : Int}
    (hoffset : price.toInt - basePrice.toInt = k * tickSize.toInt)
    (hfits : (OrderBook.init basePrice tickSize).IndexFits price) :
    ((OrderBook.init basePrice tickSize).priceToIdx price).toInt = k := by
  have hpos : 0 < tickSize.toInt := Int64.lt_iff_toInt_lt.mp htick
  rw [priceToIdx_exact htick hfits]
  change (price.toInt - basePrice.toInt).tdiv tickSize.toInt = k
  rw [hoffset]
  exact Int.mul_tdiv_cancel k (by omega)

/-- The turned price is on the turned level. -/
theorem Turnable.ladderIdx_turned (h : Turnable d basePrice tickSize price)
    (htick : 0 < tickSize) :
    ladderIdx d basePrice tickSize (turnedPrice d basePrice tickSize price) =
      (ladderIdx d basePrice tickSize price).map (turnedLevel d.L) := by
  obtain ⟨k, hk⟩ := h.on_tick
  have hidx := priceToIdx_on_tick htick (k := k) (by rw [hk, Int.mul_comm]) h.fits
  have hturned : ((OrderBook.init basePrice tickSize).priceToIdx
      (turnedPrice d basePrice tickSize price)).toInt = ((d.L - 1 : Nat) : Int) - k := by
    refine priceToIdx_on_tick htick ?_ h.turned_fits
    rw [h.exact, Int.sub_mul, Int.mul_comm k, ← hk]
    omega
  rw [ladderIdx_eq_levelAt, ladderIdx_eq_levelAt]
  refine Option.ext fun j => ?_
  rw [Option.map_eq_some_iff, levelAt_eq_some, hturned]
  simp only [levelAt_eq_some, hidx]
  unfold turnedLevel
  constructor
  · intro hj
    exact ⟨d.L - 1 - j, by omega, by omega⟩
  · rintro ⟨i, hi, hj⟩
    omega

end Prices

/-! ## Mirrored ladders -/

section Ladders

variable {ι : Type} {L : Nat} {f : Resting ι → Resting ι} {bk bk' : Ladder ι}

/-- Only prices are changed. -/
structure Reprices (f : Resting ι → Resting ι) : Prop where
  id : ∀ o, (f o).id = o.id
  amount : ∀ o, (f o).amount = o.amount
  less : ∀ o k, (f o).less k = f (o.less k)

/-- The queues of one ladder are those of the other, turned. -/
def Ladder.Mirror (L : Nat) (f : Resting ι → Resting ι) (bk bk' : Ladder ι) : Prop :=
  ∀ S, ∀ i < L, bk' S.opp (turnedLevel L i) = (bk S i).map f

theorem mirror_empty (L : Nat) (f : Resting ι → Resting ι) :
    Ladder.Mirror L f (fun _ _ => []) fun _ _ => [] := fun _ _ _ => rfl

/-- The other side of a mirror. -/
theorem Ladder.Mirror.opp (h : Ladder.Mirror L f bk bk') (S : SideClass) {i : Nat} (hi : i < L) :
    bk' S (turnedLevel L i) = (bk S.opp i).map f := by
  have hside := h S.opp i hi
  rwa [SideClass.opp_opp] at hside

theorem Ladder.Mirror.serve (h : Ladder.Mirror L f bk bk') (hf : Reprices f) {m m' : NewOrder}
    (hside : m'.side.cls = m.side.cls.opp) (hqty : m'.qty = m.qty) {a : Nat} (ha : a < L)
    (maxFills : Nat) :
    (bk'.serve L m' (turnedLevel L a) maxFills).taken =
        (bk.serve L m a maxFills).taken.map (Prod.map f id) ∧
      (bk'.serve L m' (turnedLevel L a) maxFills).demand = (bk.serve L m a maxFills).demand ∧
      ∀ i < L, (bk'.serve L m' (turnedLevel L a) maxFills).levels (turnedLevel L i) =
        ((bk.serve L m a maxFills).levels i).map f := by
  unfold Ladder.serve
  rw [hside, hqty, crossing_turned _ ha, SideClass.opp_opp]
  exact sweepLevels_map hf.amount hf.less (turnedLevel_injOn L)
    (fun i hi => (mem_crossing.mp hi).1) (fun i hi => h.opp m.side.cls hi) _ _

/-- The same queues, with one pair replaced. -/
theorem Ladder.Mirror.setSide (h : Ladder.Mirror L f bk bk') {S : SideClass}
    {qs qs' : Nat → List (Resting ι)} (hqs : ∀ i < L, qs' (turnedLevel L i) = (qs i).map f) :
    Ladder.Mirror L f (bk.setSide S qs) (bk'.setSide S.opp qs') := by
  intro T i hi
  by_cases hT : T = S
  · subst hT
    rw [Ladder.setSide_self, Ladder.setSide_self]
    exact hqs i hi
  · have hopp : T.opp ≠ S.opp := fun he => hT (by rw [← T.opp_opp, he, SideClass.opp_opp])
    rw [Ladder.setSide_of_ne _ _ hT, Ladder.setSide_of_ne _ _ hopp]
    exact h T i hi

/-- Two incoming orders that are each other turned. -/
structure Turns (f : Resting ι → Resting ι) (m m' : NewOrder) : Prop where
  side : m'.side.cls = m.side.cls.opp
  qty : m'.qty = m.qty
  tif : m'.tif = m.tif
  rests : ∀ id left, Resting.ofMsg id m' left = f (Resting.ofMsg id m left)

theorem Ladder.Mirror.add (h : Ladder.Mirror L f bk bk') (hf : Reprices f) {m m' : NewOrder}
    (hm : Turns f m m') {a : Nat} (ha : a < L) (name : ι) (maxFills : Nat) :
    Ladder.Mirror L f (bk.add L name m a maxFills).book
        (bk'.add L name m' (turnedLevel L a) maxFills).book ∧
      (bk'.add L name m' (turnedLevel L a) maxFills).trades =
        (bk.add L name m a maxFills).trades.map (Prod.map f id) ∧
      (bk'.add L name m' (turnedLevel L a) maxFills).rests =
        (bk.add L name m a maxFills).rests := by
  obtain ⟨htaken, hdemand, hlevels⟩ := h.serve hf hm.side hm.qty ha maxFills
  have hserved := h.setSide (S := m.side.cls.opp) hlevels
  by_cases hl : 0 < (bk.serve L m a maxFills).demand ∧ m.tif ≠ TimeInForce.ioc
  · have hl' : 0 < (bk'.serve L m' (turnedLevel L a) maxFills).demand ∧
        m'.tif ≠ TimeInForce.ioc := by
      rw [hdemand, hm.tif]
      exact hl
    rw [Ladder.add_of_left rfl hl, Ladder.add_of_left rfl hl', hm.side]
    refine ⟨hserved.setSide fun i hi => ?_, htaken, rfl⟩
    rcases eq_or_ne i a with rfl | hne
    · rw [Function.update_self, Function.update_self, List.map_append, List.map_singleton,
        h _ i hi, hm.rests, hdemand]
    · have hne' : turnedLevel L i ≠ turnedLevel L a := fun he => hne (turnedLevel_injOn L hi ha he)
      rw [Function.update_of_ne hne, Function.update_of_ne hne', h _ i hi]
  · have hl' : ¬ (0 < (bk'.serve L m' (turnedLevel L a) maxFills).demand ∧
        m'.tif ≠ TimeInForce.ioc) := by
      rw [hdemand, hm.tif]
      exact hl
    rw [Ladder.add_of_done rfl hl, Ladder.add_of_done rfl hl', hm.side]
    exact ⟨hserved, htaken, rfl⟩

theorem Ladder.Mirror.cancel [DecidableEq ι] (h : Ladder.Mirror L f bk bk') (hf : Reprices f)
    (name : ι) : Ladder.Mirror L f (bk.cancel name) (bk'.cancel name) := by
  intro S i hi
  unfold Ladder.cancel
  rw [h S i hi, List.filter_map]
  refine congrArg _ (List.filter_congr fun o _ => ?_)
  dsimp only [Function.comp]
  rw [hf.id o]

/-- The same orders rest. -/
theorem Ladder.Mirror.find_isSome [DecidableEq ι] (h : Ladder.Mirror L f bk bk') (hf : Reprices f)
    (name : ι) : (bk'.find? L name).isSome = (bk.find? L name).isSome := by
  unfold Ladder.find?
  rw [Bool.eq_iff_iff, List.find?_isSome, List.find?_isSome]
  simp only [Ladder.mem_orders, decide_eq_true_eq]
  constructor
  · rintro ⟨o, ⟨S, i, hi, ho⟩, hname⟩
    have hside := h S.opp (turnedLevel L i) (turnedLevel_lt hi)
    rw [SideClass.opp_opp, turnedLevel_turned hi] at hside
    rw [hside] at ho
    obtain ⟨o', ho', rfl⟩ := List.mem_map.mp ho
    exact ⟨o', ⟨S.opp, _, turnedLevel_lt hi, ho'⟩, (hf.id o').symm.trans hname⟩
  · rintro ⟨o, ⟨S, i, hi, ho⟩, hname⟩
    refine ⟨f o, ⟨S.opp, turnedLevel L i, turnedLevel_lt hi, ?_⟩, (hf.id o).trans hname⟩
    rw [h S i hi]
    exact List.mem_map_of_mem ho

/-- The best level of a side is that of the other, turned. -/
theorem Ladder.Mirror.best (h : Ladder.Mirror L f bk bk') (S : SideClass) :
    bk'.best L S.opp = (bk.best L S).map (turnedLevel L) := by
  unfold Ladder.best
  rw [bestFirst_turned, List.find?_map]
  refine congrArg _ (List.find?_congr fun i hi => ?_)
  dsimp only [Function.comp]
  rw [h S i (mem_bestFirst.mp hi), List.isEmpty_map]

end Ladders

/-! ## Mirrored runs -/

section Runs

variable {d : Dims} {basePrice tickSize : Int64} {rf rf' : RefDesk}

def Resting.turned (d : Dims) (basePrice tickSize : Int64) (o : Resting Nat) : Resting Nat :=
  { o with price := turnedPrice d basePrice tickSize o.price }

theorem reprices_turned : Reprices (Resting.turned d basePrice tickSize) :=
  ⟨fun _ => rfl, fun _ => rfl, fun _ _ => rfl⟩

theorem NewOrder.turns (m : NewOrder) :
    Turns (Resting.turned d basePrice tickSize) m (NewOrder.turned d basePrice tickSize m) :=
  ⟨cls_turned m.side, rfl, rfl, fun _ _ => rfl⟩

/-- One run is the other, turned. -/
structure Mirrored (d : Dims) (basePrice tickSize : Int64) (rf rf' : RefDesk) : Prop where
  books : ∀ b, Ladder.Mirror d.L (Resting.turned d basePrice tickSize) (rf.books b) (rf'.books b)
  hosts : rf'.hosts = rf.hosts
  answers : rf'.answers = rf.answers.map (Answer.turned d basePrice tickSize)
  tape : rf'.tape = rf.tape

theorem mirrored_init : Mirrored d basePrice tickSize RefDesk.init RefDesk.init :=
  ⟨fun _ => mirror_empty _ _, rfl, rfl, rfl⟩

theorem Mirrored.resting (h : Mirrored d basePrice tickSize rf rf') :
    rf'.resting d.L = rf.resting d.L := by
  unfold RefDesk.resting
  rw [h.hosts]
  exact List.filter_congr fun k _ => (h.books _).find_isSome reprices_turned k

theorem Mirrored.refused (h : Mirrored d basePrice tickSize rf rf') (b : Nat) :
    Mirrored d basePrice tickSize (rf.refused b) (rf'.refused b) := by
  refine ⟨h.books, ?_, ?_, h.tape⟩
  · unfold RefDesk.refused
    rw [h.hosts]
  · unfold RefDesk.refused
    rw [h.answers, List.map_append]
    rfl

theorem Mirrored.added (h : Mirrored d basePrice tickSize rf rf') (b : Nat) (m : NewOrder)
    {a : Nat} (ha : a < d.L) (maxFills : Nat) :
    Mirrored d basePrice tickSize
      (rf.added b m ((rf.books b).add d.L rf.hosts.length m a maxFills))
      (rf'.added b (NewOrder.turned d basePrice tickSize m) ((rf'.books b).add d.L rf'.hosts.length
        (NewOrder.turned d basePrice tickSize m) (turnedLevel d.L a) maxFills)) := by
  rw [h.hosts]
  obtain ⟨hbook, htrades, hrests⟩ := (h.books b).add reprices_turned (NewOrder.turns m) ha
    rf.hosts.length maxFills
  refine ⟨fun b' => ?_, ?_, ?_, ?_⟩
  all_goals unfold RefDesk.added
  · dsimp only
    by_cases hb : b' = b
    · subst hb
      rw [Function.update_self, Function.update_self]
      exact hbook
    · rw [Function.update_of_ne hb, Function.update_of_ne hb]
      exact h.books b'
  · dsimp only
    rw [h.hosts]
  · dsimp only
    rw [h.answers, htrades, hrests, List.map_append, List.map_singleton, List.map_map]
    unfold Answer.turned
    dsimp only
    rw [List.map_map]
    rfl
  · dsimp only
    rw [h.tape, htrades, h.hosts, List.map_map]
    rfl

theorem Mirrored.cancelled (h : Mirrored d basePrice tickSize rf rf') (b k : Nat)
    (o o' : Resting Nat) :
    Mirrored d basePrice tickSize (rf.cancelled b k o) (rf'.cancelled b k o') := by
  refine ⟨fun b' => ?_, h.hosts, ?_, h.tape⟩
  all_goals
    unfold RefDesk.cancelled
    dsimp only
  · by_cases hb : b' = b
    · subst hb
      rw [Function.update_self, Function.update_self]
      exact (h.books b').cancel reprices_turned k
    · rw [Function.update_of_ne hb, Function.update_of_ne hb]
      exact h.books b'
  · rw [h.answers, List.map_append]
    rfl

/-- A call that changes nothing. -/
theorem Mirrored.idle (h : Mirrored d basePrice tickSize rf rf') :
    Mirrored d basePrice tickSize { rf with answers := rf.answers ++ [⟨[], false⟩] }
      { rf' with answers := rf'.answers ++ [⟨[], false⟩] } := by
  refine ⟨h.books, h.hosts, ?_, h.tape⟩
  dsimp only
  rw [h.answers, List.map_append]
  rfl

theorem Mirrored.step (h : Mirrored d basePrice tickSize rf rf') (htick : 0 < tickSize) {c : Call}
    (hc : c.Turnable d basePrice tickSize) :
    Mirrored d basePrice tickSize (rf.step d basePrice tickSize c)
      (rf'.step d basePrice tickSize (c.turned d basePrice tickSize)) := by
  cases c with
  | add b m maxFills =>
    have hidx : ladderIdx d basePrice tickSize (NewOrder.turned d basePrice tickSize m).price =
        (ladderIdx d basePrice tickSize m.price).map (turnedLevel d.L) :=
      Turnable.ladderIdx_turned hc htick
    dsimp only [Call.turned, RefDesk.step]
    rw [hidx, h.resting]
    cases ha : ladderIdx d basePrice tickSize m.price with
    | none => exact h.refused b
    | some a =>
      rw [ladderIdx_eq_levelAt, levelAt_eq_some] at ha
      dsimp only [Option.map_some]
      split
      · exact h.added b m ha.2 maxFills
      · exact h.refused b
  | cancel k =>
    have hhost : rf'.hosts[k]? = rf.hosts[k]? := by rw [h.hosts]
    dsimp only [Call.turned, RefDesk.step]
    rw [hhost]
    cases rf.hosts[k]? with
    | none => exact h.idle
    | some b =>
      have hsome := (h.books b).find_isSome reprices_turned k
      dsimp only
      cases ho : (rf.books b).find? d.L k with
      | none =>
        rw [ho, Option.isSome_none, Option.isSome_eq_false_iff, Option.isNone_iff_eq_none] at hsome
        rw [hsome]
        exact h.idle
      | some o =>
        rw [ho, Option.isSome_some] at hsome
        obtain ⟨o', ho'⟩ := Option.isSome_iff_exists.mp hsome
        rw [ho']
        exact h.cancelled b k o o'

theorem mirrored_run (htick : 0 < tickSize) {calls : List Call}
    (hcalls : ∀ c ∈ calls, c.Turnable d basePrice tickSize) :
    Mirrored d basePrice tickSize (RefDesk.run d basePrice tickSize calls)
      (RefDesk.run d basePrice tickSize (calls.map (Call.turned d basePrice tickSize))) := by
  induction calls using List.reverseRecOn with
  | nil => exact mirrored_init
  | append_singleton calls c ih =>
    have hinit := ih fun c hc => hcalls c (List.mem_append_left _ hc)
    unfold RefDesk.run
    rw [List.map_append, List.foldl_append, List.foldl_append]
    exact hinit.step htick (hcalls c (List.mem_append_right _ (List.mem_singleton.mpr rfl)))

/-- Two best indices whose levels are each other turned. -/
theorem turned_best {L i i' : Nat} (h : (if i' = nullIdx then none else some i') =
    (if i = nullIdx then none else some i).map (turnedLevel L)) :
    i' = if i = nullIdx then nullIdx else turnedLevel L i := by
  by_cases hi : i = nullIdx <;> by_cases hi' : i' = nullIdx
  · rw [if_pos hi, hi']
  · rw [if_neg hi', if_pos hi] at h
    cases h
  · rw [if_pos hi', if_neg hi] at h
    cases h
  · rw [if_neg hi', if_neg hi] at h
    rw [if_neg hi]
    exact Option.some_inj.mp h

end Runs

/-- Every run of fewer than `2^32` calls, with all prices on ticks and in range, and the run of the
    turned calls: the answers are turned, the trades are between the same calls and of the same
    quantities, and the best level of each side is that of the other, turned. -/
theorem sides_mirrored (d : Dims) (basePrice tickSize : Int64) (htick : 0 < tickSize)
    (calls : List Call) (hlen : calls.length < 2 ^ 32)
    (hcalls : ∀ c ∈ calls, c.Turnable d basePrice tickSize) :
    ∃ dk dk', run (Desk.step d) (Desk.init d basePrice tickSize) calls = .ok dk ∧
      run (Desk.step d) (Desk.init d basePrice tickSize)
        (calls.map (Call.turned d basePrice tickSize)) = .ok dk' ∧
      dk'.answers = dk.answers.map (Answer.turned d basePrice tickSize) ∧
      dk'.tape.map (fun t => (t.taker, t.maker, t.fill.qty.toNat)) =
        dk.tape.map (fun t => (t.taker, t.maker, t.fill.qty.toNat)) ∧
      ∀ b S, ((dk'.floor.books b).half S.opp).bestIdx =
        if ((dk.floor.books b).half S).bestIdx = nullIdx then nullIdx
        else turnedLevel d.L ((dk.floor.books b).half S).bestIdx := by
  obtain ⟨dk, hrun, v, place, h, -, hs⟩ := tracks_run d basePrice tickSize calls hlen
  obtain ⟨dk', hrun', v', place', h', -, hs'⟩ := tracks_run d basePrice tickSize
    (calls.map (Call.turned d basePrice tickSize)) (by rwa [List.length_map])
  have hmirror := mirrored_run htick hcalls
  refine ⟨dk, dk', hrun, hrun', ?_, ?_, fun b S => turned_best ?_⟩
  · rw [← hs'.answers, ← hs.answers]
    exact hmirror.answers
  · have htape := hmirror.tape
    rw [hs.tape, hs'.tape] at htape
    have hpairs := congrArg (List.map fun t : RefTrade => (t.taker, t.maker, t.qty)) htape
    rw [List.map_map, List.map_map] at hpairs
    exact hpairs
  · rw [← h'.rep.best_eq dk'.owner b S.opp, ← h.rep.best_eq dk.owner b S, ← hs'.books, ← hs.books]
    exact (hmirror.books b).best S

/-- A seller of 5 at 103, a buyer of 3 at 104, and a cancel of the seller's rest. -/
def sellBuyCancel : List Call :=
  [.add 0 (limitOrder 1 Side.sell 103 5) 64, .add 0 (limitOrder 2 Side.buy 104 3) 64, .cancel 0]

theorem sides_mirrored_three_calls :
    ∃ dk dk', run (Desk.step smallDims) (Desk.init smallDims 100 1) sellBuyCancel = .ok dk ∧
      run (Desk.step smallDims) (Desk.init smallDims 100 1)
        (sellBuyCancel.map (Call.turned smallDims 100 1)) = .ok dk' ∧
      dk'.answers = dk.answers.map (Answer.turned smallDims 100 1) ∧
      dk'.answers = [⟨[], true⟩, ⟨[⟨⟨40, .fill, 0, 7⟩, 2, 1, 104, 3⟩], false⟩, ⟨[], true⟩] := by
  have hcalls : ∀ c ∈ sellBuyCancel, c.Turnable smallDims 100 1 := by
    unfold sellBuyCancel
    simp only [List.forall_mem_cons]
    refine ⟨⟨?_, ?_, ?_, ?_⟩, ⟨?_, ?_, ?_, ?_⟩, trivial, nofun⟩
    all_goals
      first
      | unfold OrderBook.IndexFits
        decide
      | decide
  obtain ⟨dk, dk', hrun, hrun', hanswers, -⟩ := sides_mirrored smallDims 100 1 (by decide)
    sellBuyCancel (by decide) hcalls
  refine ⟨dk, dk', hrun, hrun', hanswers, hanswers.trans ?_⟩
  have hcode : (run (Desk.step smallDims) (Desk.init smallDims 100 1) sellBuyCancel).map
      Desk.answers = .ok [⟨[], true⟩, ⟨[⟨⟨40, .fill, 0, 7⟩, 2, 1, 103, 3⟩], false⟩,
        ⟨[], true⟩] := by decide +kernel
  rw [hrun] at hcode
  have hdk : dk.answers = [⟨[], true⟩, ⟨[⟨⟨40, .fill, 0, 7⟩, 2, 1, 103, 3⟩], false⟩,
      ⟨[], true⟩] := Except.ok.inj hcode
  rw [hdk]
  rfl

end LiteExchange.Book

/-
  Sequences of `add_order` and `cancel_order` calls on the books of one floor. A `Desk` is a
  floor with the record of the calls made so far; everything but the floor is bookkeeping that
  no call reads. Cancels name an earlier `add_order` call, by its number among them, and use the
  handle that call returned, on the book it was made on.

  * `DeskRep`: the floor is well formed and every resting record is that of the message of the
    call that owns its slot. `DeskRep.step`: it survives every call whose cancel is `Benign`
    (the handle, if its generation matches, is that of a resting order), and `Stepped` lists
    what the call can have done.
  * `Tagged`: generations tell orders apart. In fewer than `2^32` calls no generation comes
    round, so a handle matches exactly while its own order rests (`Tagged.live_iff`), and every
    cancel is benign (`Tagged.benign`).
-/
import LiteExchange.Book.Calls

namespace LiteExchange.Book

open Lib Proto

/-! ## Calls and their record -/

/-- A call. `cancel k` cancels the order of the `k`-th `add_order` call. -/
inductive Call where
  | add (b : Nat) (msg : NewOrder) (maxFills : Nat)
  | cancel (k : Nat)

/-- An `add_order` call: its book, its message, whether it was given a slot, and the handle it
    returned. -/
structure Placed where
  book : Nat
  msg : NewOrder
  admitted : Bool
  handle : OrderHandle

/-- One fill: the `add_order` calls of its two parties. -/
structure Trade where
  taker : Nat
  maker : Nat
  fill : Fill
  hit : Hit

/-- What a call returned: the fills it wrote and its verdict, the validity of the handle or the
    result of the cancel. -/
structure Answer where
  fills : List Fill
  verdict : Bool
  deriving DecidableEq, Repr

/-- A floor and the calls made on it: the `add_order` calls, the call whose order was last put
    into each slot, the answers, the fills, and the quantities given up when an order was
    cancelled or left no remainder to rest. -/
structure Desk where
  floor : Floor
  placed : List Placed
  owner : Nat → Nat
  answers : List Answer
  tape : List Trade
  drops : List (Nat × UInt32)

def Desk.init (d : Dims) (basePrice tickSize : Int64) : Desk :=
  ⟨Floor.init d.N basePrice tickSize, [], fun _ => 0, [], [], []⟩

/-- An order at this price on this book gets a slot. -/
def Floor.Admits (d : Dims) (fl : Floor) (b : Nat) (price : Int64) : Prop :=
  (fl.books b).OnLadder d price ∧ 0 < fl.pool.freeTop

instance (d : Dims) (fl : Floor) (b : Nat) (price : Int64) : Decidable (fl.Admits d b price) :=
  inferInstanceAs (Decidable (_ ∧ _))

/-- The record after an `add_order` call with result `r`. -/
def Desk.added (d : Dims) (dk : Desk) (b : Nat) (msg : NewOrder) (r : AddResult) : Desk where
  floor := r.floor
  placed := dk.placed ++ [⟨b, msg, decide (dk.floor.Admits d b msg.price), r.handle⟩]
  owner := if r.handle.valid then Function.update dk.owner r.handle.slot dk.placed.length
    else dk.owner
  answers := dk.answers ++ [⟨r.fills, r.handle.valid⟩]
  tape := dk.tape ++ List.zipWith (fun f h => ⟨dk.placed.length, dk.owner h.slot, f, h⟩) r.fills
    r.hits
  drops := dk.drops ++ if dk.floor.Admits d b msg.price ∧ r.handle.valid = false then
    [(dk.placed.length, (r.floor.pool.slots dk.floor.pool.top).qty)] else []

/-- The record after a cancel of the order of call `k` with result `done`. -/
def Desk.cancelled (dk : Desk) (k slot : Nat) (done : Bool) (fl : Floor) : Desk :=
  { dk with
    floor := fl
    answers := dk.answers ++ [⟨[], done⟩]
    drops := dk.drops ++ if done then [(k, (dk.floor.pool.slots slot).qty)] else [] }

/-- One call. A cancel of a call that has not been made is no call at all. -/
def Desk.step (d : Dims) (dk : Desk) : Call → Except Fault Desk
  | .add b msg maxFills => do
    let r ← dk.floor.addOrder d b msg maxFills
    return dk.added d b msg r
  | .cancel k =>
    match dk.placed[k]? with
    | none => .ok { dk with answers := dk.answers ++ [⟨[], false⟩] }
    | some p => do
      let (done, fl) ← dk.floor.cancelOrder d p.book p.handle
      return dk.cancelled k p.handle.slot done fl

/-! ## Every resting record belongs to a call -/

/-- The order of call `k` rests in slot `s` of book `b`. -/
structure Names (dk : Desk) (b s k : Nat) (p : Placed) : Prop where
  call : dk.placed[k]? = some p
  book : p.book = b
  slot : p.handle.slot = s
  fixed : (dk.floor.pool.slots s).fixed = (Order.ofMsg p.msg).fixed
  session : dk.floor.session s = p.msg.hdr.sessionId

/-- The floor is well formed, no slot is held between calls, every resting slot holds the order
    of its owner, and all books have the given base price and tick size. -/
structure DeskRep (d : Dims) (basePrice tickSize : Int64) (dk : Desk) (v : View)
    (place : Nat → Place) : Prop where
  rep : FloorRep d dk.floor v place
  settled : ∀ s, place s ≠ .held
  names : ∀ s b S i, place s = .level b S i → ∃ p, Names dk b s (dk.owner s) p
  params : ∀ b, (dk.floor.books b).basePrice = basePrice ∧ (dk.floor.books b).tickSize = tickSize

theorem deskRep_init (d : Dims) (basePrice tickSize : Int64) :
    DeskRep d basePrice tickSize (Desk.init d basePrice tickSize) (fun _ _ _ => [])
      (fun s => if s < d.N then .free else .outside) where
  rep := floorRep_init d basePrice tickSize
  settled := fun s => by by_cases hs : s < d.N <;> simp [hs]
  names := fun s b S i hs => by by_cases hN : s < d.N <;> simp [hN] at hs
  params := fun _ => ⟨rfl, rfl⟩

section Steps

variable {d : Dims} {basePrice tickSize : Int64} {dk : Desk} {v : View} {place : Nat → Place}

theorem DeskRep.congr {dk' : Desk} (h : DeskRep d basePrice tickSize dk v place)
    (hf : dk'.floor = dk.floor) (hp : dk'.placed = dk.placed) (ho : dk'.owner = dk.owner) :
    DeskRep d basePrice tickSize dk' v place := by
  refine ⟨hf ▸ h.rep, h.settled, fun s b S i hs => ?_, by rw [hf]; exact h.params⟩
  obtain ⟨p, h1, h2, h3, h4, h5⟩ := h.names s b S i hs
  exact ⟨p, by rw [hp, ho]; exact h1, h2, h3, by rw [hf]; exact h4, by rw [hf]; exact h5⟩

/-- Two resting slots have different owners. -/
theorem DeskRep.owner_inj (h : DeskRep d basePrice tickSize dk v place) {s s' b b' i i' : Nat}
    {S S' : SideClass} (hs : place s = .level b S i) (hs' : place s' = .level b' S' i')
    (he : dk.owner s = dk.owner s') : s = s' := by
  obtain ⟨p, hp⟩ := h.names s b S i hs
  obtain ⟨p', hp'⟩ := h.names s' b' S' i' hs'
  have hcall := hp'.call
  rw [← he, hp.call, Option.some_inj] at hcall
  rw [← hp.slot, hcall, hp'.slot]

/-- What an `add_order` call did to the desk, `add` being the reference step. -/
structure AddedSpec (d : Dims) (dk : Desk) (v : View) (place : Nat → Place) (b : Nat)
    (msg : NewOrder) (add : Added Nat) (r : AddResult) (v' : View) (place' : Nat → Place) :
    Prop where
  spec : AddSpec dk.floor dk.owner v place b dk.placed.length msg add dk.floor.pool.top r v' place'
  valid : r.handle.valid = add.rests
  owner : (dk.added d b msg r).owner = if add.rests then
    Function.update dk.owner dk.floor.pool.top dk.placed.length else dk.owner
  books : ∀ b', absBook r.floor (dk.added d b msg r).owner v' b' =
    if b' = b then add.book else absBook dk.floor dk.owner v b'

/-- An order that is given a slot. -/
theorem DeskRep.add (h : DeskRep d basePrice tickSize dk v place) (b : Nat) (msg : NewOrder)
    (maxFills : Nat) (hadm : dk.floor.Admits d b msg.price) :
    ∃ r v' place', dk.floor.addOrder d b msg maxFills = .ok r ∧
      DeskRep d basePrice tickSize (dk.added d b msg r) v' place' ∧
      AddedSpec d dk v place b msg ((absBook dk.floor dk.owner v b).add d.L dk.placed.length msg
        ((dk.floor.books b).levelOf msg.price) maxFills) r v' place' := by
  obtain ⟨r, v', place', hrun, hrep, hspec⟩ :=
    addOrder_admitted h.rep dk.owner dk.placed.length maxFills hadm.1 hadm.2
  generalize (absBook dk.floor dk.owner v b).add d.L dk.placed.length msg
    ((dk.floor.books b).levelOf msg.price) maxFills = add at hspec ⊢
  have hvalid := hspec.valid_eq h.rep.threads
  have howner : (dk.added d b msg r).owner = if add.rests then
      Function.update dk.owner dk.floor.pool.top dk.placed.length else dk.owner := by
    dsimp only [Desk.added]
    rw [hvalid, hspec.handle]
    cases add.rests <;> rfl
  refine ⟨r, v', place', hrun, ⟨hrep, hspec.settled h.settled, fun s b' S i hs => ?_,
    fun b' => ?_⟩, hspec, hvalid, howner, fun b' => ?_⟩
  · rcases hspec.level_cases hs with ⟨he, hrest, hb⟩ | ⟨he, hold⟩
    · -- the new order itself
      have hslot : r.handle.slot = s := by rw [hspec.handle, hrest, he]; rfl
      have hown : (dk.added d b msg r).owner s = dk.placed.length := by
        rw [howner, hrest, if_pos rfl, he, Function.update_self]
      refine ⟨⟨b, msg, decide (dk.floor.Admits d b msg.price), r.handle⟩,
        ⟨?_, hb.symm, hslot, he ▸ hspec.slot_fixed, ?_⟩⟩
      · rw [hown]
        exact List.getElem?_concat_length
      · rw [he]
        exact (congrFun hspec.session _).trans (Function.update_self ..)
    · -- an order that rested before
      obtain ⟨p, hp⟩ := h.names s b' S i hold
      have hown : (dk.added d b msg r).owner s = dk.owner s := by
        rw [howner]
        cases add.rests with
        | true => rw [if_pos rfl, Function.update_of_ne he]
        | false => rw [if_neg Bool.false_ne_true]
      refine ⟨p, ⟨?_, hp.book, hp.slot, (hspec.fixed s he).trans hp.fixed, ?_⟩⟩
      · rw [hown]
        exact (List.getElem?_append_left (List.getElem?_eq_some_iff.mp hp.call).1).trans hp.call
      · exact (congrFun hspec.session s).trans ((Function.update_of_ne he ..).trans hp.session)
  · by_cases hb : b' = b
    · subst hb
      rw [show (dk.added d b' msg r).floor = r.floor from rfl, hspec.params.1, hspec.params.2]
      exact h.params b'
    · rw [show (dk.added d b msg r).floor = r.floor from rfl, hspec.books b' hb]
      exact h.params b'
  · rw [howner]
    exact hspec.books_eq hrep.threads b'

/-- The parties and the fills of a call, read off its ghost entries. -/
theorem zip_trades {trades : List (Resting Nat × Nat)} {hits : List Hit} {owner : Nat → Nat}
    {k : Nat} (orderId : UInt64)
    (hh : (hits.map fun h => owner h.slot) = trades.map fun t => t.1.id) :
    ((List.zipWith (fun f h => (⟨k, owner h.slot, f, h⟩ : Trade)) (trades.map (fillOf orderId))
      hits).map fun t => (t.taker, t.maker, t.fill)) =
      trades.map fun t => (k, t.1.id, fillOf orderId t) := by
  induction trades generalizing hits with
  | nil => rfl
  | cons t ts ih =>
    cases hits with
    | nil => cases hh
    | cons x xs =>
      obtain ⟨hx, hxs⟩ := List.cons.inj hh
      simp only [List.map_cons, List.zipWith_cons_cons, hx, ih hxs]

theorem forall_zip_trades {trades : List (Resting Nat × Nat)} {hits : List Hit}
    {owner : Nat → Nat} {k : Nat} {orderId : UInt64} (P : Nat → Nat → Fill → Prop)
    (hh : (hits.map fun h => owner h.slot) = trades.map fun t => t.1.id) :
    (∀ t ∈ List.zipWith (fun f h => (⟨k, owner h.slot, f, h⟩ : Trade))
        (trades.map (fillOf orderId)) hits, P t.taker t.maker t.fill) ↔
      ∀ t ∈ trades, P k t.1.id (fillOf orderId t) := by
  have hzip := congrArg (fun l : List (Nat × Nat × Fill) => ∀ x ∈ l, P x.1 x.2.1 x.2.2)
    (zip_trades (k := k) orderId hh)
  simpa only [List.forall_mem_map, eq_iff_iff] using hzip

/-- An order that is refused: only the record of calls grows. -/
theorem DeskRep.refuse (h : DeskRep d basePrice tickSize dk v place) (b : Nat) (msg : NewOrder)
    (maxFills : Nat) (hadm : ¬ dk.floor.Admits d b msg.price) :
    dk.floor.addOrder d b msg maxFills = .ok ⟨dk.floor, [], [], OrderHandle.invalid⟩ ∧
      DeskRep d basePrice tickSize
        (dk.added d b msg ⟨dk.floor, [], [], OrderHandle.invalid⟩) v place := by
  have hrefused : ¬ (dk.floor.books b).OnLadder d msg.price ∨ dk.floor.pool.freeTop = 0 := by
    by_cases hon : (dk.floor.books b).OnLadder d msg.price
    · exact Or.inr (Nat.eq_zero_of_not_pos fun hpos => hadm ⟨hon, hpos⟩)
    · exact Or.inl hon
  refine ⟨addOrder_refused maxFills hrefused, h.rep, h.settled, fun s b' S i hs => ?_, h.params⟩
  obtain ⟨p, hp⟩ := h.names s b' S i hs
  exact ⟨p, (List.getElem?_append_left (List.getElem?_eq_some_iff.mp hp.call).1).trans hp.call,
    hp.book, hp.slot, hp.fixed, hp.session⟩

/-- The order in a slot rests on a level of book `b`. -/
def Floor.Rests (d : Dims) (fl : Floor) (b s : Nat) : Prop := ∃ S i, s ∈ fl.queue d b S i

theorem FloorRep.rests_iff {fl : Floor} (h : FloorRep d fl v place) {b s : Nat} :
    fl.Rests d b s ↔ ∃ S i, place s = .level b S i := by
  simp only [Floor.Rests, ← h.threads.view_eq, h.threads.queued]

/-- A cancel that the books survive: the handle is void, or names a resting order. -/
def Floor.Benign (d : Dims) (fl : Floor) (b : Nat) (h : OrderHandle) : Prop :=
  d.N ≤ h.slot ∨ fl.pool.gen h.slot ≠ h.gen ∨ fl.Rests d b h.slot

/-- A cancel with the handle of a resting order. -/
theorem DeskRep.cancel (h : DeskRep d basePrice tickSize dk v place) {b i : Nat} {S : SideClass}
    {hd : OrderHandle} (hplace : place hd.slot = .level b S i)
    (hgen : dk.floor.pool.gen hd.slot = hd.gen) (k : Nat) :
    ∃ fl v', dk.floor.cancelOrder d b hd = .ok (true, fl) ∧
      DeskRep d basePrice tickSize (dk.cancelled k hd.slot true fl) v' (move place hd.slot .free) ∧
      CancelSpec dk.floor v b S i hd.slot fl v' := by
  obtain ⟨fl, v', hrun, hrep, hspec⟩ := cancelOrder_live h.rep hplace hgen
  refine ⟨fl, v', hrun, ⟨hrep, fun s => ?_, fun s b' S' i' hs => ?_, fun b' => ?_⟩, hspec⟩
  · by_cases he : s = hd.slot
    · rw [he, move_self]
      simp
    · rw [move_of_ne _ _ he]
      exact h.settled s
  · by_cases he : s = hd.slot
    · rw [he, move_self] at hs
      cases hs
    · rw [move_of_ne _ _ he] at hs
      obtain ⟨p, hp⟩ := h.names s b' S' i' hs
      exact ⟨p, hp.call, hp.book, hp.slot, (fixed_of_data (hspec.data s)).trans hp.fixed,
        (congrFun hspec.session s).trans hp.session⟩
  · by_cases hb : b' = b
    · subst hb
      rw [show (dk.cancelled k hd.slot true fl).floor = fl from rfl, hspec.params.1,
        hspec.params.2]
      exact h.params b'
    · rw [show (dk.cancelled k hd.slot true fl).floor = fl from rfl, hspec.books b' hb]
      exact h.params b'

/-- A cancel that finds no match: only the record of calls grows. -/
theorem DeskRep.cancel_stale (h : DeskRep d basePrice tickSize dk v place) {b : Nat}
    {hd : OrderHandle} (hs : d.N ≤ hd.slot ∨ dk.floor.pool.gen hd.slot ≠ hd.gen) (k : Nat) :
    dk.floor.cancelOrder d b hd = .ok (false, dk.floor) ∧
      DeskRep d basePrice tickSize (dk.cancelled k hd.slot false dk.floor) v place :=
  ⟨cancelOrder_stale hs, h.congr rfl rfl rfl⟩

/-! ## What a call can do -/

/-- The five things a call can do. -/
inductive Stepped (d : Dims) (dk : Desk) (v : View) (place : Nat → Place) :
    Call → Desk → View → (Nat → Place) → Prop
  | added {b : Nat} {msg : NewOrder} {maxFills : Nat} {r : AddResult} {v' : View}
      {place' : Nat → Place} (hadm : dk.floor.Admits d b msg.price)
      (hspec : AddedSpec d dk v place b msg ((absBook dk.floor dk.owner v b).add d.L
        dk.placed.length msg ((dk.floor.books b).levelOf msg.price) maxFills) r v' place') :
      Stepped d dk v place (.add b msg maxFills) (dk.added d b msg r) v' place'
  | refused {b : Nat} {msg : NewOrder} {maxFills : Nat}
      (hadm : ¬ dk.floor.Admits d b msg.price) :
      Stepped d dk v place (.add b msg maxFills)
        (dk.added d b msg ⟨dk.floor, [], [], OrderHandle.invalid⟩) v place
  | cancelled {k i : Nat} {S : SideClass} {p : Placed} {fl : Floor} {v' : View}
      (hp : dk.placed[k]? = some p) (hpl : place p.handle.slot = .level p.book S i)
      (hgen : dk.floor.pool.gen p.handle.slot = p.handle.gen)
      (hspec : CancelSpec dk.floor v p.book S i p.handle.slot fl v') :
      Stepped d dk v place (.cancel k) (dk.cancelled k p.handle.slot true fl) v'
        (move place p.handle.slot .free)
  | stale {k : Nat} {p : Placed} (hp : dk.placed[k]? = some p)
      (hs : d.N ≤ p.handle.slot ∨ dk.floor.pool.gen p.handle.slot ≠ p.handle.gen) :
      Stepped d dk v place (.cancel k) (dk.cancelled k p.handle.slot false dk.floor) v place
  | idle {k : Nat} (hp : dk.placed[k]? = none) :
      Stepped d dk v place (.cancel k) { dk with answers := dk.answers ++ [⟨[], false⟩] } v place

/-- A cancel the books survive. -/
def Desk.Benign (d : Dims) (dk : Desk) : Call → Prop
  | .add _ _ _ => True
  | .cancel k => ∀ p, dk.placed[k]? = some p → dk.floor.Benign d p.book p.handle

/-- Every call with a benign cancel is answered, and keeps the invariant. -/
theorem DeskRep.step (h : DeskRep d basePrice tickSize dk v place) (c : Call)
    (hb : dk.Benign d c) : ∃ dk' v' place', dk.step d c = .ok dk' ∧
      DeskRep d basePrice tickSize dk' v' place' ∧ Stepped d dk v place c dk' v' place' := by
  cases c with
  | add b msg maxFills =>
    by_cases hadm : dk.floor.Admits d b msg.price
    · obtain ⟨r, v', place', hrun, hrep, hspec⟩ := h.add b msg maxFills hadm
      exact ⟨_, v', place', by rw [Desk.step, hrun, ok_bind]; rfl, hrep, .added hadm hspec⟩
    · obtain ⟨hrun, hrep⟩ := h.refuse b msg maxFills hadm
      exact ⟨_, v, place, by rw [Desk.step, hrun, ok_bind]; rfl, hrep, .refused hadm⟩
  | cancel k =>
    rw [Desk.step]
    cases hp : dk.placed[k]? with
    | none => exact ⟨_, v, place, rfl, h.congr rfl rfl rfl, .idle hp⟩
    | some p =>
      dsimp only
      by_cases hs : d.N ≤ p.handle.slot ∨ dk.floor.pool.gen p.handle.slot ≠ p.handle.gen
      · obtain ⟨hrun, hrep⟩ := h.cancel_stale hs k
        exact ⟨_, v, place, by rw [hrun, ok_bind]; rfl, hrep, .stale hp hs⟩
      · rw [not_or, Nat.not_le, not_not] at hs
        have hrests : dk.floor.Rests d p.book p.handle.slot := by
          rcases hb p hp with hN | hg | hr
          · omega
          · exact absurd hs.2 hg
          · exact hr
        obtain ⟨S, i, hpl⟩ := h.rep.rests_iff.mp hrests
        obtain ⟨fl, v', hrun, hrep, hspec⟩ := h.cancel hpl hs.2 k
        exact ⟨_, v', _, by rw [hrun, ok_bind]; rfl, hrep, .cancelled hp hpl hs.2 hspec⟩

/-! ## Generations tell orders apart -/

/-- Every resting slot carries the generation its owner was told; a handle told earlier has an
    older generation, unless its own order still rests. `n` bounds all generations. -/
structure Tagged (d : Dims) (dk : Desk) (place : Nat → Place) (n : Nat) : Prop where
  gen_le : ∀ s, (dk.floor.pool.gen s).toNat ≤ n
  live : ∀ s b S i, place s = .level b S i →
    ∃ p, dk.placed[dk.owner s]? = some p ∧ p.handle = ⟨s, dk.floor.pool.gen s⟩
  past : ∀ k p, dk.placed[k]? = some p → p.handle.slot < d.N →
    p.handle.gen.toNat ≤ (dk.floor.pool.gen p.handle.slot).toNat ∧
    (p.handle.gen = dk.floor.pool.gen p.handle.slot →
      dk.owner p.handle.slot = k ∧ ∃ S i, place p.handle.slot = .level p.book S i)

theorem tagged_init (d : Dims) (basePrice tickSize : Int64) :
    Tagged d (Desk.init d basePrice tickSize) (fun s => if s < d.N then .free else .outside) 0 where
  gen_le := fun _ => Nat.le_refl 0
  live := fun s b S i hs => by by_cases hN : s < d.N <;> simp [hN] at hs
  past := fun k p hp _ => by simp [Desk.init] at hp

theorem Tagged.congr {n n' : Nat} {dk' : Desk} (ht : Tagged d dk place n)
    (hf : dk'.floor = dk.floor) (hp : dk'.placed = dk.placed) (ho : dk'.owner = dk.owner)
    (hn : n ≤ n') : Tagged d dk' place n' := by
  refine ⟨fun s => ?_, ?_, ?_⟩
  · rw [hf]
    exact (ht.gen_le s).trans hn
  · rw [hf, hp, ho]
    exact ht.live
  · rw [hf, hp, ho]
    exact ht.past

/-- A generation that is still told apart from its successor. -/
theorem gen_succ {g : UInt32} {n : Nat} (hg : g.toNat ≤ n) (hn : n + 1 < 2 ^ 32) :
    (g + 1).toNat = g.toNat + 1 := by
  rw [UInt32.toNat_add, UInt32.toNat_one, Nat.mod_eq_of_lt (by omega)]

/-- A handle whose slot has moved on by a generation no longer matches. -/
theorem gen_past {g g' h : UInt32} (hle : h.toNat ≤ g.toNat) (hs : g'.toNat = g.toNat + 1) :
    h.toNat ≤ g'.toNat ∧ h ≠ g' := by
  refine ⟨by omega, fun e => ?_⟩
  rw [e] at hle
  omega

/-- How one call moves the generations. Each slot is left alone, or is freed and moves on by a
    generation, or is given to the call's own order under its current generation. -/
theorem Tagged.evolve {n : Nat} {dk' : Desk} {place' : Nat → Place} {extra : List Placed}
    (ht : Tagged d dk place n) (hn : n + 1 < 2 ^ 32) (hplaced : dk'.placed = dk.placed ++ extra)
    (hslot : ∀ s, (place' s = place s ∧ dk'.floor.pool.gen s = dk.floor.pool.gen s ∧
        dk'.owner s = dk.owner s) ∨
      ((∀ b S i, place' s ≠ .level b S i) ∧ dk'.floor.pool.gen s = dk.floor.pool.gen s + 1) ∨
      ((∀ b S i, place s ≠ .level b S i) ∧ dk'.floor.pool.gen s = dk.floor.pool.gen s ∧
        ∃ p, dk'.placed[dk'.owner s]? = some p ∧ p.handle = ⟨s, dk.floor.pool.gen s⟩))
    (hextra : ∀ k p, dk.placed.length ≤ k → dk'.placed[k]? = some p → p.handle.slot < d.N →
      p.handle.gen = dk'.floor.pool.gen p.handle.slot ∧ dk'.owner p.handle.slot = k ∧
        ∃ S i, place' p.handle.slot = .level p.book S i) :
    Tagged d dk' place' (n + 1) := by
  have hold : ∀ {k p}, dk.placed[k]? = some p → dk'.placed[k]? = some p := fun hp => by
    rw [hplaced, List.getElem?_append_left (List.getElem?_eq_some_iff.mp hp).1, hp]
  refine ⟨fun s => ?_, fun s b S i hs => ?_, fun k p hp hN => ?_⟩
  · have hle := ht.gen_le s
    rcases hslot s with ⟨-, hg, -⟩ | ⟨-, hg⟩ | ⟨-, hg, -⟩
    · rw [hg]
      omega
    · rw [hg, gen_succ hle hn]
      omega
    · rw [hg]
      omega
  · rcases hslot s with ⟨hp, hg, ho⟩ | ⟨hp, -⟩ | ⟨-, hg, hnew⟩
    · obtain ⟨p, hcall, hhandle⟩ := ht.live s b S i (by rw [← hp]; exact hs)
      exact ⟨p, by rw [ho]; exact hold hcall, by rw [hg]; exact hhandle⟩
    · exact absurd hs (hp b S i)
    · rw [hg]
      exact hnew
  · by_cases hk : dk.placed.length ≤ k
    · obtain ⟨hg, ho, hpl⟩ := hextra k p hk hp hN
      exact ⟨Nat.le_of_eq (congrArg UInt32.toNat hg), fun _ => ⟨ho, hpl⟩⟩
    · -- a handle told before this call
      rw [hplaced, List.getElem?_append_left (by omega)] at hp
      obtain ⟨hle, hlive⟩ := ht.past k p hp hN
      rcases hslot p.handle.slot with ⟨hpl, hg, ho⟩ | ⟨-, hg⟩ | ⟨hfree, hg, -⟩
      · rw [hg, hpl, ho]
        exact ⟨hle, hlive⟩
      · have hpast := gen_past hle ((congrArg UInt32.toNat hg).trans (gen_succ (ht.gen_le _) hn))
        exact ⟨hpast.1, fun e => absurd e hpast.2⟩
      · rw [hg]
        refine ⟨hle, fun e => ?_⟩
        obtain ⟨-, S, i, hlev⟩ := hlive e
        exact absurd hlev (hfree _ S i)

theorem Tagged.add {n b : Nat} {msg : NewOrder} {add : Added Nat} {r : AddResult} {v' : View}
    {place' : Nat → Place} (ht : Tagged d dk place n) (hn : n + 1 < 2 ^ 32)
    (hs : AddedSpec d dk v place b msg add r v' place') :
    Tagged d (dk.added d b msg r) place' (n + 1) := by
  have hspec := hs.spec
  have hlast : (dk.added d b msg r).placed[dk.placed.length]? =
      some ⟨b, msg, decide (dk.floor.Admits d b msg.price), r.handle⟩ := List.getElem?_concat_length
  refine ht.evolve hn rfl (fun s => ?_) fun k p hk hp hN => ?_
  · by_cases he : s = dk.floor.pool.top
    · subst he
      cases hrest : add.rests with
      | true =>
        refine Or.inr (Or.inr ⟨by simp [hspec.was_free], ?_,
          ⟨b, msg, decide (dk.floor.Admits d b msg.price), r.handle⟩, ?_, ?_⟩)
        · exact hspec.slot_gen.trans (by rw [hrest]; rfl)
        · rw [hs.owner, hrest, if_pos rfl, Function.update_self]
          exact hlast
        · exact hspec.handle.trans (by rw [hrest]; rfl)
      | false =>
        refine Or.inr (Or.inl ⟨?_, hspec.slot_gen.trans (by rw [hrest]; rfl)⟩)
        rw [hspec.slot_place, hrest]
        simp
    · have hown : (dk.added d b msg r).owner s = dk.owner s := by
        rw [hs.owner]
        cases add.rests with
        | true => rw [if_pos rfl, Function.update_of_ne he]
        | false => rw [if_neg Bool.false_ne_true]
      rcases hspec.released s he with ⟨hp, hg⟩ | ⟨-, hp, hg⟩
      · exact Or.inl ⟨hp, hg, hown⟩
      · exact Or.inr (Or.inl ⟨by simp [hp], hg⟩)
  · -- the only new handle is the one just returned
    have hlen : k < (dk.added d b msg r).placed.length := (List.getElem?_eq_some_iff.mp hp).1
    have hk' : k = dk.placed.length := by
      simp only [Desk.added, List.length_append, List.length_singleton] at hlen
      omega
    subst hk'
    rw [hlast, Option.some_inj] at hp
    subst hp
    dsimp only at hN ⊢
    have hnull := d.N_le_nullIdx
    cases hrest : add.rests with
    | true =>
      have hhandle := hspec.handle
      rw [hrest, if_pos rfl] at hhandle
      rw [hhandle]
      refine ⟨(hspec.slot_gen.trans (by rw [hrest]; rfl)).symm, ?_, _, _,
        hspec.slot_place.trans (by rw [hrest]; rfl)⟩
      rw [hs.owner, hrest, if_pos rfl, Function.update_self]
    | false =>
      have hhandle := hspec.handle
      rw [hrest, if_neg Bool.false_ne_true] at hhandle
      rw [hhandle, OrderHandle.invalid] at hN
      dsimp only at hN
      omega

theorem Tagged.refuse {n b : Nat} {msg : NewOrder} (ht : Tagged d dk place n)
    (hn : n + 1 < 2 ^ 32) :
    Tagged d (dk.added d b msg ⟨dk.floor, [], [], OrderHandle.invalid⟩) place (n + 1) := by
  refine ht.evolve hn rfl (fun s => Or.inl ⟨rfl, rfl, rfl⟩) fun k p hk hp hN => ?_
  have hnull := d.N_le_nullIdx
  dsimp only [Desk.added] at hp
  rw [List.getElem?_append_right hk] at hp
  have hhandle : p.handle = OrderHandle.invalid := by
    have := List.mem_of_getElem? hp
    rw [List.mem_singleton.mp this]
  rw [hhandle, OrderHandle.invalid] at hN
  dsimp only at hN
  omega

theorem Tagged.cancel {n b i k slot : Nat} {S : SideClass} {fl : Floor} {v' : View}
    (ht : Tagged d dk place n) (hn : n + 1 < 2 ^ 32)
    (hs : CancelSpec dk.floor v b S i slot fl v') :
    Tagged d (dk.cancelled k slot true fl) (move place slot .free) (n + 1) := by
  refine ht.evolve hn (List.append_nil _).symm (fun s => ?_) fun k p hk hp hN => ?_
  · by_cases he : s = slot
    · subst he
      exact Or.inr (Or.inl ⟨by simp [move_self], hs.gen_self⟩)
    · exact Or.inl ⟨move_of_ne _ _ he, hs.gen_of_ne s he, rfl⟩
  · have := (List.getElem?_eq_some_iff.mp hp).1
    simp only [Desk.cancelled] at this
    omega

/-- A handle matches exactly while its own order rests. -/
theorem Tagged.live_iff {n k : Nat} {p : Placed} (h : DeskRep d basePrice tickSize dk v place)
    (ht : Tagged d dk place n) (hp : dk.placed[k]? = some p) :
    (p.handle.slot < d.N ∧ dk.floor.pool.gen p.handle.slot = p.handle.gen) ↔
      ∃ s S i, place s = .level p.book S i ∧ dk.owner s = k := by
  constructor
  · rintro ⟨hN, hg⟩
    obtain ⟨ho, S, i, hpl⟩ := (ht.past k p hp hN).2 hg.symm
    exact ⟨p.handle.slot, S, i, hpl, ho⟩
  · rintro ⟨s, S, i, hpl, ho⟩
    obtain ⟨q, hq, hhandle⟩ := ht.live s p.book S i hpl
    rw [ho, hp, Option.some_inj] at hq
    subst hq
    rw [hhandle]
    exact ⟨h.rep.threads.lt_of_place (by rw [hpl]; simp), rfl⟩

/-- While generations tell orders apart, every cancel is benign. -/
theorem Tagged.benign {n : Nat} (h : DeskRep d basePrice tickSize dk v place)
    (ht : Tagged d dk place n) (c : Call) : dk.Benign d c := by
  cases c with
  | add b msg maxFills => trivial
  | cancel k =>
    intro p hp
    by_cases hN : d.N ≤ p.handle.slot
    · exact Or.inl hN
    · by_cases hg : dk.floor.pool.gen p.handle.slot = p.handle.gen
      · obtain ⟨-, S, i, hpl⟩ := (ht.past k p hp (by omega)).2 hg.symm
        exact Or.inr (Or.inr (h.rep.rests_iff.mpr ⟨S, i, hpl⟩))
      · exact Or.inr (Or.inl hg)

theorem Tagged.step {n : Nat} {c : Call} {dk' : Desk} {v' : View} {place' : Nat → Place}
    (ht : Tagged d dk place n) (hn : n + 1 < 2 ^ 32)
    (hs : Stepped d dk v place c dk' v' place') : Tagged d dk' place' (n + 1) := by
  cases hs with
  | added hadm hspec => exact ht.add hn hspec
  | refused hadm => exact ht.refuse hn
  | cancelled hp hpl hgen hspec => exact ht.cancel hn hspec
  | stale hp hs => exact ht.congr rfl rfl rfl (by omega)
  | idle hp => exact ht.congr rfl rfl rfl (by omega)

end Steps

/-! ## Concrete inputs -/

/-- Four slots and eight levels. -/
def smallDims : Dims := ⟨4, 8, eight_levels_fit⟩

/-- A limit order of session 7 on symbol 0. -/
def limitOrder (id : UInt64) (side : Side) (price : Int64) (qty : UInt32) : NewOrder :=
  ⟨⟨32, .newOrder, 0, 7⟩, id, price, qty, 0, side, TimeInForce.gtc⟩

end LiteExchange.Book

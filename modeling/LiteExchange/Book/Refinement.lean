/-
  The books of a floor refine the reference book. `RefDesk` runs the same calls on one `Ladder`
  per book, with the two limits of the implementation written out: a price is admitted when
  `price_to_idx` gives it a level, and an order when fewer than `MAX_ORDERS` orders rest.
  `desk_refines`: in every sequence of fewer than `2^32` calls the floor gives the answers of
  the reference, trade by trade, and shows the same best prices.
-/
import LiteExchange.Book.Desk

namespace LiteExchange.Book

open Lib Proto

/-! ## The reference desk -/

/-- All resting orders of a ladder. -/
def Ladder.orders {ι : Type} (L : Nat) (bk : Ladder ι) : List (Resting ι) :=
  (List.range L).flatMap (bk .bid) ++ (List.range L).flatMap (bk .ask)

/-- The resting order named `id`. -/
def Ladder.find? {ι : Type} [DecidableEq ι] (L : Nat) (bk : Ladder ι) (id : ι) :
    Option (Resting ι) :=
  (bk.orders L).find? fun o => decide (o.id = id)

/-- A trade of the reference: the two `add_order` calls and the quantity. -/
structure RefTrade where
  taker : Nat
  maker : Nat
  qty : Nat
  deriving DecidableEq, Repr

/-- One ladder per book, the books of the `add_order` calls so far, and the record of the run. -/
structure RefDesk where
  books : Nat → Ladder Nat
  hosts : List Nat
  answers : List Answer
  tape : List RefTrade
  drops : List (Nat × UInt32)

def RefDesk.init : RefDesk := ⟨fun _ _ _ => [], [], [], [], []⟩

/-- The level of a price, if the ladder has one. -/
def ladderIdx (d : Dims) (basePrice tickSize price : Int64) : Option Nat :=
  if (OrderBook.init basePrice tickSize).OnLadder d price then
    some ((OrderBook.init basePrice tickSize).levelOf price)
  else none

/-- The `add_order` calls whose orders rest. -/
def RefDesk.resting (L : Nat) (rf : RefDesk) : List Nat :=
  (List.range rf.hosts.length).filter fun k =>
    ((rf.books (rf.hosts.getD k 0)).find? L k).isSome

def RefDesk.refused (rf : RefDesk) (b : Nat) : RefDesk :=
  { rf with hosts := rf.hosts ++ [b], answers := rf.answers ++ [⟨[], false⟩] }

def RefDesk.added (rf : RefDesk) (b : Nat) (msg : NewOrder) (add : Added Nat) : RefDesk where
  books := Function.update rf.books b add.book
  hosts := rf.hosts ++ [b]
  answers := rf.answers ++ [⟨add.trades.map (fillOf msg.orderId), add.rests⟩]
  tape := rf.tape ++ add.trades.map fun t => ⟨rf.hosts.length, t.1.id, t.2⟩
  drops := rf.drops ++ if add.rests then [] else [(rf.hosts.length, UInt32.ofNat add.left)]

def RefDesk.cancelled (rf : RefDesk) (b k : Nat) (o : Resting Nat) : RefDesk :=
  { rf with
    books := Function.update rf.books b ((rf.books b).cancel k)
    answers := rf.answers ++ [⟨[], true⟩]
    drops := rf.drops ++ [(k, o.qty)] }

/-- One call on the reference. -/
def RefDesk.step (d : Dims) (basePrice tickSize : Int64) (rf : RefDesk) : Call → RefDesk
  | .add b msg maxFills =>
    match ladderIdx d basePrice tickSize msg.price with
    | none => rf.refused b
    | some a =>
      if (rf.resting d.L).length < d.N then
        rf.added b msg ((rf.books b).add d.L rf.hosts.length msg a maxFills)
      else rf.refused b
  | .cancel k =>
    match rf.hosts[k]? with
    | none => { rf with answers := rf.answers ++ [⟨[], false⟩] }
    | some b =>
      match (rf.books b).find? d.L k with
      | none => { rf with answers := rf.answers ++ [⟨[], false⟩] }
      | some o => rf.cancelled b k o

/-- The run of the reference. -/
def RefDesk.run (d : Dims) (basePrice tickSize : Int64) (calls : List Call) : RefDesk :=
  calls.foldl (RefDesk.step d basePrice tickSize) RefDesk.init

/-! ## The simulation -/

/-- The reference desk a desk stands for. -/
structure Simulates (dk : Desk) (rf : RefDesk) (v : View) : Prop where
  books : ∀ b, rf.books b = absBook dk.floor dk.owner v b
  hosts : rf.hosts = dk.placed.map Placed.book
  answers : rf.answers = dk.answers
  tape : rf.tape = dk.tape.map fun t => ⟨t.taker, t.maker, t.fill.qty.toNat⟩
  drops : rf.drops = dk.drops

section Counting

variable {d : Dims} {fl : Floor} {v : View} {place : Nat → Place}

/-- The free slots are those on the stack. -/
theorem Threads.card_free (h : Threads d fl v place) :
    ((Finset.range d.N).filter fun s => place s = .free).card = fl.pool.freeTop := by
  rw [← Finset.card_range fl.pool.freeTop]
  refine (Finset.card_nbij fl.pool.freeList (fun j hj => ?_) (fun j hj k hk e => ?_)
    (fun s hs => ?_)).symm
  · have hfree := (h.free_iff (fl.pool.freeList j)).mpr ⟨j, Finset.mem_range.mp hj, rfl⟩
    rw [Finset.mem_coe, Finset.mem_filter, Finset.mem_range]
    exact ⟨h.lt_of_place (by rw [hfree]; simp), hfree⟩
  · exact h.free_inj j (Finset.mem_range.mp hj) k (Finset.mem_range.mp hk) e
  · rw [Finset.mem_coe, Finset.mem_filter] at hs
    obtain ⟨j, hj, he⟩ := (h.free_iff s).mp hs.2
    exact ⟨j, Finset.mem_coe.mpr (Finset.mem_range.mpr hj), he⟩

/-- Every slot is free or in use. -/
theorem Threads.card_used (h : Threads d fl v place) :
    fl.pool.freeTop + ((Finset.range d.N).filter fun s => ¬ place s = .free).card = d.N := by
  rw [← h.card_free, Finset.card_filter_add_card_filter_not, Finset.card_range]

end Counting

theorem Ladder.mem_orders {ι : Type} {L : Nat} {bk : Ladder ι} {o : Resting ι} :
    o ∈ bk.orders L ↔ ∃ S i, i < L ∧ o ∈ bk S i := by
  simp only [Ladder.orders, List.mem_append, List.mem_flatMap, List.mem_range]
  constructor
  · rintro (⟨i, hi, ho⟩ | ⟨i, hi, ho⟩)
    · exact ⟨.bid, i, hi, ho⟩
    · exact ⟨.ask, i, hi, ho⟩
  · rintro ⟨S, i, hi, ho⟩
    cases S
    · exact Or.inl ⟨i, hi, ho⟩
    · exact Or.inr ⟨i, hi, ho⟩

theorem Ladder.find?_isSome {ι : Type} [DecidableEq ι] {L : Nat} {bk : Ladder ι} {id : ι} :
    (bk.find? L id).isSome ↔ ∃ S i, i < L ∧ ∃ o ∈ bk S i, o.id = id := by
  simp only [Ladder.find?, List.find?_isSome, Ladder.mem_orders, decide_eq_true_eq]
  constructor
  · rintro ⟨o, ⟨S, i, hi, ho⟩, he⟩
    exact ⟨S, i, hi, o, ho, he⟩
  · rintro ⟨S, i, hi, o, ho, he⟩
    exact ⟨o, ⟨S, i, hi, ho⟩, he⟩

section Simulation

variable {d : Dims} {basePrice tickSize : Int64} {dk : Desk} {rf : RefDesk} {v : View}
variable {place : Nat → Place}

theorem mem_absBook {fl : Floor} {owner : Nat → Nat} {b i : Nat} {S : SideClass}
    {o : Resting Nat} : o ∈ absBook fl owner v b S i ↔
      ∃ s ∈ v b S i, (fl.pool.slots s).view (owner s) (fl.session s) = o := List.mem_map

/-- The call behind a resting order of the reference. -/
theorem DeskRep.maker (h : DeskRep d basePrice tickSize dk v place) {b i : Nat} {S : SideClass}
    {o : Resting Nat} (ho : o ∈ absBook dk.floor dk.owner v b S i) :
    ∃ q, dk.placed[o.id]? = some q ∧ q.book = b ∧ q.msg.price = o.price ∧ q.msg.side.cls = S ∧
      q.msg.hdr.sessionId = o.session := by
  obtain ⟨s, hs, rfl⟩ := mem_absBook.mp ho
  obtain ⟨q, hq⟩ := h.names s b S i ((h.rep.threads.queued b S i s).mp hs)
  refine ⟨q, hq.call, hq.book, (price_of_fixed hq.fixed).symm, ?_, hq.session.symm⟩
  have hside := (h.rep.threads.records b S i s hs).2.side
  rw [side_of_fixed hq.fixed] at hside
  exact hside

/-- Every resting order has something left. -/
theorem DeskRep.amount_pos (h : DeskRep d basePrice tickSize dk v place) {b i : Nat}
    {S : SideClass} {o : Resting Nat} (ho : o ∈ absBook dk.floor dk.owner v b S i) :
    0 < o.amount := by
  obtain ⟨s, hs, rfl⟩ := mem_absBook.mp ho
  exact UInt32.lt_iff_toNat_lt.mp (h.rep.threads.records b S i s hs).2.qty_pos

/-- An order is found in the reference exactly when its slot is on a list. -/
theorem Simulates.find?_iff (h : DeskRep d basePrice tickSize dk v place)
    (hs : Simulates dk rf v) {b k : Nat} :
    ((rf.books b).find? d.L k).isSome ↔ ∃ s S i, place s = .level b S i ∧ dk.owner s = k := by
  rw [Ladder.find?_isSome, hs.books]
  constructor
  · rintro ⟨S, i, -, o, ho, hid⟩
    obtain ⟨s, hmem, rfl⟩ := mem_absBook.mp ho
    exact ⟨s, S, i, (h.rep.threads.queued b S i s).mp hmem, hid⟩
  · rintro ⟨s, S, i, hpl, hown⟩
    have hmem := (h.rep.threads.queued b S i s).mpr hpl
    exact ⟨S, i, (h.rep.threads.records b S i s hmem).1, _, mem_absBook.mpr ⟨s, hmem, rfl⟩, hown⟩

/-- Between calls a slot in use is on a list. -/
theorem DeskRep.level_of_used (h : DeskRep d basePrice tickSize dk v place) {s : Nat}
    (hN : s < d.N) (hfree : ¬ place s = .free) : ∃ b S i, place s = .level b S i := by
  cases hp : place s with
  | free => exact absurd hp hfree
  | held => exact absurd hp (h.settled s)
  | level b S i => exact ⟨b, S, i, rfl⟩
  | outside => exact absurd ((h.rep.threads.outside_iff s).mp hp) (by omega)

/-- The slots in use are those of the resting orders. -/
theorem Simulates.card_resting (h : DeskRep d basePrice tickSize dk v place)
    (hs : Simulates dk rf v) :
    dk.floor.pool.freeTop + (rf.resting d.L).length = d.N := by
  have hnd : (rf.resting d.L).Nodup := List.nodup_range.filter _
  have hhost : ∀ {s b S i}, place s = .level b S i →
      dk.owner s < rf.hosts.length ∧ rf.hosts.getD (dk.owner s) 0 = b := by
    intro s b S i hp
    obtain ⟨p, hn⟩ := h.names s b S i hp
    have hlt := (List.getElem?_eq_some_iff.mp hn.call).1
    rw [hs.hosts]
    refine ⟨by simpa using hlt, ?_⟩
    rw [List.getD_eq_getElem?_getD, List.getElem?_map, hn.call]
    exact hn.book
  rw [← List.toFinset_card_of_nodup hnd, ← h.rep.threads.card_used]
  congr 1
  refine (Finset.card_nbij dk.owner (fun s hmem => ?_) (fun s hmem s' hmem' e => ?_)
    (fun k hk => ?_)).symm
  · rw [Finset.mem_coe, Finset.mem_filter, Finset.mem_range] at hmem
    obtain ⟨b, S, i, hp⟩ := h.level_of_used hmem.1 hmem.2
    obtain ⟨hlt, hb⟩ := hhost hp
    rw [Finset.mem_coe, List.mem_toFinset, RefDesk.resting, List.mem_filter, List.mem_range, hb]
    exact ⟨hlt, (hs.find?_iff h).mpr ⟨s, S, i, hp, rfl⟩⟩
  · rw [Finset.mem_coe, Finset.mem_filter, Finset.mem_range] at hmem hmem'
    obtain ⟨b, S, i, hp⟩ := h.level_of_used hmem.1 hmem.2
    obtain ⟨b', S', i', hp'⟩ := h.level_of_used hmem'.1 hmem'.2
    exact h.owner_inj hp hp' e
  · rw [Finset.mem_coe, List.mem_toFinset, RefDesk.resting, List.mem_filter] at hk
    obtain ⟨s, S, i, hp, hown⟩ := (hs.find?_iff h).mp hk.2
    refine ⟨s, ?_, hown⟩
    rw [Finset.mem_coe, Finset.mem_filter, Finset.mem_range, hp]
    exact ⟨h.rep.threads.lt_of_place (by rw [hp]; simp), by simp⟩

theorem DeskRep.onLadder_iff (h : DeskRep d basePrice tickSize dk v place) (b : Nat)
    (price : Int64) : (dk.floor.books b).OnLadder d price ↔
      (OrderBook.init basePrice tickSize).OnLadder d price := by
  have hidx : (dk.floor.books b).priceToIdx price =
      (OrderBook.init basePrice tickSize).priceToIdx price := by
    rw [OrderBook.priceToIdx, (h.params b).1, (h.params b).2]
    rfl
  simp only [OrderBook.OnLadder, OrderBook.levelOf, hidx]

/-- A floor admits an order when the reference does. -/
theorem Simulates.admits_iff (h : DeskRep d basePrice tickSize dk v place)
    (hs : Simulates dk rf v) {b : Nat} {price : Int64} :
    dk.floor.Admits d b price ↔
      (OrderBook.init basePrice tickSize).OnLadder d price ∧ (rf.resting d.L).length < d.N := by
  have hcount := hs.card_resting h
  exact and_congr (h.onLadder_iff b price) ⟨fun hpos => by omega, fun hlt => by omega⟩

theorem DeskRep.levelOf_eq (h : DeskRep d basePrice tickSize dk v place) (b : Nat)
    (price : Int64) : (dk.floor.books b).levelOf price =
      (OrderBook.init basePrice tickSize).levelOf price := by
  rw [OrderBook.levelOf, OrderBook.priceToIdx, (h.params b).1, (h.params b).2]
  rfl

/-- The level of a price is the same on all books. -/
theorem DeskRep.ladderIdx_eq (h : DeskRep d basePrice tickSize dk v place) (b : Nat)
    (price : Int64) : ladderIdx d basePrice tickSize price =
      if (dk.floor.books b).OnLadder d price then some ((dk.floor.books b).levelOf price)
      else none := by
  rw [h.levelOf_eq]
  exact if_congr (h.onLadder_iff b price).symm rfl rfl

/-- The trades of a call with their quantities. -/
theorem tape_eq {trades : List (Resting Nat × Nat)} {hits : List Hit} {owner : Nat → Nat} {k : Nat}
    (orderId : UInt64) (hh : (hits.map fun h => owner h.slot) = trades.map fun t => t.1.id)
    (hq : ∀ t ∈ trades, t.2 ≤ t.1.amount) :
    ((List.zipWith (fun f h => (⟨k, owner h.slot, f, h⟩ : Trade)) (trades.map (fillOf orderId))
      hits).map fun t => (⟨t.taker, t.maker, t.fill.qty.toNat⟩ : RefTrade)) =
      trades.map fun t => ⟨k, t.1.id, t.2⟩ := by
  have hparts := congrArg (List.map fun x : Nat × Nat × Fill =>
    (⟨x.1, x.2.1, x.2.2.qty.toNat⟩ : RefTrade)) (zip_trades (k := k) orderId hh)
  rw [List.map_map, List.map_map] at hparts
  refine hparts.trans (List.map_congr_left fun t ht => ?_)
  have hlt : t.2 < 2 ^ 32 := Nat.lt_of_le_of_lt (hq t ht) t.1.qty.toNat_lt
  simp only [Function.comp_apply, fillOf, UInt32.toNat_ofNat_of_lt' hlt]

/-- One admitted order. -/
theorem Simulates.add (h : DeskRep d basePrice tickSize dk v place) (hs : Simulates dk rf v)
    {b : Nat} {msg : NewOrder} {maxFills : Nat} (hadm : dk.floor.Admits d b msg.price)
    {r : AddResult} {v' : View} {place' : Nat → Place}
    (hspec : AddedSpec d dk v place b msg ((absBook dk.floor dk.owner v b).add d.L
      dk.placed.length msg ((dk.floor.books b).levelOf msg.price) maxFills) r v' place') :
    Simulates (dk.added d b msg r) (rf.step d basePrice tickSize (.add b msg maxFills)) v' := by
  have hadm' := (hs.admits_iff h).mp hadm
  have hlen : rf.hosts.length = dk.placed.length := by rw [hs.hosts, List.length_map]
  rw [RefDesk.step, ladderIdx, if_pos hadm'.1]
  dsimp only
  rw [if_pos hadm'.2, hs.books, hlen, ← h.levelOf_eq b]
  have htrades : ∀ t ∈ ((absBook dk.floor dk.owner v b).add d.L dk.placed.length msg
      ((dk.floor.books b).levelOf msg.price) maxFills).trades, t.2 ≤ t.1.amount :=
    fun t ht => (Ladder.mem_trades ht).2
  generalize (absBook dk.floor dk.owner v b).add d.L dk.placed.length msg
    ((dk.floor.books b).levelOf msg.price) maxFills = add at hspec htrades ⊢
  refine ⟨fun b' => ?_, ?_, ?_, ?_, ?_⟩
  · dsimp only [RefDesk.added]
    refine Eq.trans ?_ (hspec.books b').symm
    by_cases hb : b' = b
    · rw [if_pos hb, hb, Function.update_self]
    · rw [if_neg hb, Function.update_of_ne hb, hs.books]
  · simp [RefDesk.added, Desk.added, hs.hosts]
  · simp only [RefDesk.added, Desk.added, hs.answers, hspec.spec.fills, hspec.valid]
  · simp only [RefDesk.added, Desk.added, hs.tape, hlen, List.map_append, hspec.spec.fills]
    rw [tape_eq msg.orderId hspec.spec.hits htrades]
  · simp only [RefDesk.added, Desk.added, hs.drops, hlen, hspec.spec.slot_qty, hspec.valid]
    cases add.rests <;> simp [hadm]

/-- One refused order. -/
theorem Simulates.refuse (h : DeskRep d basePrice tickSize dk v place) (hs : Simulates dk rf v)
    {b : Nat} {msg : NewOrder} {maxFills : Nat} (hadm : ¬ dk.floor.Admits d b msg.price) :
    Simulates (dk.added d b msg ⟨dk.floor, [], [], OrderHandle.invalid⟩)
      (rf.step d basePrice tickSize (.add b msg maxFills)) v := by
  have hstep : rf.step d basePrice tickSize (.add b msg maxFills) = rf.refused b := by
    rw [RefDesk.step, ladderIdx]
    by_cases hon : (OrderBook.init basePrice tickSize).OnLadder d msg.price
    · rw [if_pos hon]
      exact if_neg fun hlt => hadm ((hs.admits_iff h).mpr ⟨hon, hlt⟩)
    · rw [if_neg hon]
  rw [hstep]
  exact ⟨hs.books, by simp [RefDesk.refused, Desk.added, hs.hosts],
    by simp [RefDesk.refused, Desk.added, hs.answers, OrderHandle.invalid, OrderHandle.valid],
    by simp [RefDesk.refused, Desk.added, hs.tape],
    by simp [RefDesk.refused, Desk.added, hs.drops, hadm]⟩

/-- One cancel that removes an order. -/
theorem Simulates.cancel (h : DeskRep d basePrice tickSize dk v place) (hs : Simulates dk rf v)
    {k i : Nat} {S : SideClass} {p : Placed} (hp : dk.placed[k]? = some p)
    (hpl : place p.handle.slot = .level p.book S i) (hown : dk.owner p.handle.slot = k) {fl : Floor}
    {v' : View} (hspec : CancelSpec dk.floor v p.book S i p.handle.slot fl v') :
    Simulates (dk.cancelled k p.handle.slot true fl)
      (rf.step d basePrice tickSize (.cancel k)) v' := by
  have hhost : rf.hosts[k]? = some p.book := by rw [hs.hosts, List.getElem?_map, hp]; rfl
  obtain ⟨o, ho⟩ := Option.isSome_iff_exists.mp
    ((hs.find?_iff h (b := p.book)).mpr ⟨_, S, i, hpl, hown⟩)
  -- the order found is the one in the slot
  have hqty : o.qty = (dk.floor.pool.slots p.handle.slot).qty := by
    have hid : o.id = k := by simpa using List.find?_some ho
    have hmem := List.mem_of_find?_eq_some ho
    rw [Ladder.mem_orders, hs.books] at hmem
    obtain ⟨S', i', -, hmem⟩ := hmem
    obtain ⟨s, hslot, rfl⟩ := mem_absBook.mp hmem
    rw [h.owner_inj ((h.rep.threads.queued p.book S' i' s).mp hslot) hpl (hid.trans hown.symm)]
    rfl
  rw [RefDesk.step, hhost]
  dsimp only
  rw [ho]
  refine ⟨fun b' => ?_, hs.hosts, ?_, hs.tape, ?_⟩
  · dsimp only [RefDesk.cancelled, Desk.cancelled]
    by_cases hb : b' = p.book
    · subst hb
      have huniq : ∀ S' i' s, s ∈ v p.book S' i' → dk.owner s = dk.owner p.handle.slot →
          s = p.handle.slot := fun S' i' s hmem e =>
        h.owner_inj ((h.rep.threads.queued p.book S' i' s).mp hmem) hpl e
      rw [Function.update_self, hs.books, hspec.absBook_eq h.rep.threads huniq, hown]
    · rw [Function.update_of_ne hb, hs.books, hspec.absBook_other hb]
  · simp only [RefDesk.cancelled, Desk.cancelled, hs.answers]
  · simp only [RefDesk.cancelled, Desk.cancelled, hs.drops, hqty, if_true]

/-- One cancel that finds nothing. -/
theorem Simulates.cancel_stale (h : DeskRep d basePrice tickSize dk v place)
    (hs : Simulates dk rf v) {k : Nat} {p : Placed} (hp : dk.placed[k]? = some p)
    (hgone : ¬ ∃ s S i, place s = .level p.book S i ∧ dk.owner s = k) :
    Simulates (dk.cancelled k p.handle.slot false dk.floor)
      (rf.step d basePrice tickSize (.cancel k)) v := by
  have hhost : rf.hosts[k]? = some p.book := by rw [hs.hosts, List.getElem?_map, hp]; rfl
  have hnone : (rf.books p.book).find? d.L k = none := by
    rw [← Option.not_isSome_iff_eq_none, hs.find?_iff h]
    exact hgone
  rw [RefDesk.step, hhost]
  dsimp only
  rw [hnone]
  exact ⟨hs.books, hs.hosts, by simp [Desk.cancelled, hs.answers], hs.tape,
    by simp [Desk.cancelled, hs.drops]⟩

/-- The invariant of a run of fewer than `2^32` calls. -/
def Tracks (d : Dims) (basePrice tickSize : Int64) (n : Nat) (dk : Desk) (rf : RefDesk) : Prop :=
  ∃ v place, DeskRep d basePrice tickSize dk v place ∧ Tagged d dk place n ∧ Simulates dk rf v

/-- The reference keeps up with every call. -/
theorem Simulates.step {n : Nat} {c : Call} {dk' : Desk} {v' : View} {place' : Nat → Place}
    (h : DeskRep d basePrice tickSize dk v place) (ht : Tagged d dk place n)
    (hs : Simulates dk rf v) (hstep : Stepped d dk v place c dk' v' place') :
    Simulates dk' (rf.step d basePrice tickSize c) v' := by
  cases hstep with
  | added hadm hspec => exact hs.add h hadm hspec
  | refused hadm => exact hs.refuse h hadm
  | @cancelled k i S p fl v' hp hpl hgen hspec =>
    have hN : p.handle.slot < d.N := h.rep.threads.lt_of_place (by rw [hpl]; simp)
    exact hs.cancel h hp hpl ((ht.past k p hp hN).2 hgen.symm).1 hspec
  | @stale k p hp hstale =>
    refine hs.cancel_stale h hp fun hlive => ?_
    obtain ⟨hN, hg⟩ := (ht.live_iff h hp).mpr hlive
    rcases hstale with hge | hne
    · omega
    · exact hne hg
  | @idle k hp =>
    have hhost : rf.hosts[k]? = none := by rw [hs.hosts, List.getElem?_map, hp]; rfl
    rw [RefDesk.step, hhost]
    exact ⟨hs.books, hs.hosts, by simp [hs.answers], hs.tape, hs.drops⟩

/-- Every run of fewer than `2^32` calls. -/
theorem tracks_run (d : Dims) (basePrice tickSize : Int64) (calls : List Call)
    (hlen : calls.length < 2 ^ 32) :
    ∃ dk, run (Desk.step d) (Desk.init d basePrice tickSize) calls = .ok dk ∧
      Tracks d basePrice tickSize calls.length dk (RefDesk.run d basePrice tickSize calls) := by
  induction calls using List.reverseRecOn with
  | nil =>
    exact ⟨_, rfl, _, _, deskRep_init d basePrice tickSize, tagged_init d basePrice tickSize,
      fun _ => rfl, rfl, rfl, rfl, rfl⟩
  | append_singleton calls c ih =>
    rw [List.length_append, List.length_singleton] at hlen ⊢
    obtain ⟨dk, hrun, v, place, h, ht, hs⟩ := ih (by omega)
    obtain ⟨dk', v', place', hstep, h', hcase⟩ := h.step c (ht.benign h c)
    refine ⟨dk', by rw [run_snoc hrun, hstep], v', place', h', ht.step (by omega) hcase, ?_⟩
    rw [RefDesk.run, List.foldl_append]
    exact hs.step h ht hcase

end Simulation

/-! ## Best prices -/

/-- The cached best index is the first non-empty level. -/
theorem best_eq_find {d : Dims} {S : SideClass} {h : Half} {P : Nat → Bool}
    (hr : IndexRep d.L S h fun i => P i = true) :
    (bestFirst d.L S).find? P = if h.bestIdx = nullIdx then none else some h.bestIdx := by
  rcases hr.best with ⟨hp, hfirst⟩ | ⟨hnull, hnone⟩
  · have hlt := hr.lt _ hp
    have := d.L_lt_nullIdx
    rw [if_neg (by omega), List.find?_eq_some_iff_append]
    refine ⟨hp, ?_⟩
    obtain ⟨as, bs, hsplit⟩ := List.append_of_mem (mem_bestFirst.mpr hlt)
    refine ⟨as, bs, hsplit, fun j hj => ?_⟩
    -- levels earlier in the list are ahead of the best one
    have hahead : ahead S j h.bestIdx := by
      have hpw := bestFirst_pairwise d.L S
      rw [hsplit] at hpw
      exact (List.pairwise_append.mp hpw).2.2 j hj _ List.mem_cons_self
    simpa using fun hPj => hfirst j hPj hahead
  · rw [if_pos hnull, List.find?_eq_none]
    exact fun j _ => hnone j

section Best

variable {d : Dims} {fl : Floor} {v : View} {place : Nat → Place} {ι : Type}

theorem FloorRep.best_eq (h : FloorRep d fl v place) (owner : Nat → ι) (b : Nat)
    (S : SideClass) : (absBook fl owner v b).best d.L S =
      if ((fl.books b).half S).bestIdx = nullIdx then none
      else some ((fl.books b).half S).bestIdx := by
  refine best_eq_find ((h.index b S).congr fun i => ?_)
  rw [Bool.not_eq_true', List.isEmpty_eq_false_iff]
  exact absQueue_eq_nil.not.symm

theorem FloorRep.bestBidPrice_eq (h : FloorRep d fl v place) (owner : Nat → ι) (b : Nat) :
    (fl.books b).bestBidPrice =
      (absBook fl owner v b).bestBidPrice d.L (fl.books b).basePrice (fl.books b).tickSize := by
  rw [Ladder.bestBidPrice, h.best_eq owner b .bid, OrderBook.bestBidPrice, OrderBook.half]
  split <;> rfl

theorem FloorRep.bestAskPrice_eq (h : FloorRep d fl v place) (owner : Nat → ι) (b : Nat) :
    (fl.books b).bestAskPrice =
      (absBook fl owner v b).bestAskPrice d.L (fl.books b).basePrice (fl.books b).tickSize := by
  rw [Ladder.bestAskPrice, h.best_eq owner b .ask, OrderBook.bestAskPrice, OrderBook.half]
  split <;> rfl

end Best

/-! ## The refinement -/

/-- Every sequence of fewer than `2^32` calls is answered as the reference answers it, and the
    books show the reference's best prices after it. -/
theorem desk_refines (d : Dims) (basePrice tickSize : Int64) (calls : List Call)
    (hlen : calls.length < 2 ^ 32) :
    ∃ dk, run (Desk.step d) (Desk.init d basePrice tickSize) calls = .ok dk ∧
      dk.answers = (RefDesk.run d basePrice tickSize calls).answers ∧
      ∀ b, (dk.floor.books b).bestBidPrice = ((RefDesk.run d basePrice tickSize calls).books
          b).bestBidPrice d.L basePrice tickSize ∧
        (dk.floor.books b).bestAskPrice = ((RefDesk.run d basePrice tickSize calls).books
          b).bestAskPrice d.L basePrice tickSize := by
  obtain ⟨dk, hrun, v, place, h, -, hs⟩ := tracks_run d basePrice tickSize calls hlen
  refine ⟨dk, hrun, hs.answers.symm, fun b => ?_⟩
  have hbid := h.rep.bestBidPrice_eq dk.owner b
  have hask := h.rep.bestAskPrice_eq dk.owner b
  rw [(h.params b).1, (h.params b).2] at hbid hask
  rw [hs.books]
  exact ⟨hbid, hask⟩

/-- A seller of 5 at 103, a buyer of 3 at 104, and a cancel of the seller's rest. -/
theorem desk_refines_three_calls :
    ∃ dk, run (Desk.step smallDims) (Desk.init smallDims 100 1)
        [.add 0 (limitOrder 1 Side.sell 103 5) 64, .add 0 (limitOrder 2 Side.buy 104 3) 64,
          .cancel 0] = .ok dk ∧
      dk.answers = [⟨[], true⟩, ⟨[⟨⟨40, .fill, 0, 7⟩, 2, 1, 103, 3⟩], false⟩, ⟨[], true⟩] := by
  obtain ⟨dk, hrun, hans, -⟩ := desk_refines smallDims 100 1
    [.add 0 (limitOrder 1 Side.sell 103 5) 64, .add 0 (limitOrder 2 Side.buy 104 3) 64, .cancel 0]
    (by decide)
  exact ⟨dk, hrun, hans.trans rfl⟩

/-- The reference without its two limits: every order gets a level and a place. -/
def RefDesk.plainStep (d : Dims) (basePrice tickSize : Int64) (rf : RefDesk) : Call → RefDesk
  | .add b msg maxFills => rf.added b msg ((rf.books b).add d.L rf.hosts.length msg
      ((OrderBook.init basePrice tickSize).levelOf msg.price) maxFills)
  | .cancel k => rf.step d basePrice tickSize (.cancel k)

/-- In an arena of one slot a crossing order is refused without a fill: it needs a slot of its
    own before it is matched. -/
theorem full_arena_refuses_crossing_order :
    ¬ ∀ calls dk, run (Desk.step ⟨1, 8, by decide⟩) (Desk.init ⟨1, 8, by decide⟩ 100 1) calls =
        .ok dk → dk.answers =
          (calls.foldl (RefDesk.plainStep ⟨1, 8, by decide⟩ 100 1) RefDesk.init).answers := by
  intro hall
  have hans := hall [.add 0 (limitOrder 1 Side.sell 103 5) 64,
    .add 0 (limitOrder 2 Side.buy 103 5) 64] _ rfl
  have hcode : [⟨[], true⟩, ⟨[], false⟩] =
      [⟨[], true⟩, (⟨[⟨⟨40, .fill, 0, 7⟩, 2, 1, 103, 5⟩], false⟩ : Answer)] := hans
  exact absurd hcode (by decide)

end LiteExchange.Book

/-
  `match` serves the aggressor from the other side's queues. A state of the match loop stands
  for the queues of resting orders that its slot lists spell out (`absSide`); the inner loop is
  one `Lib.sweep` of the best queue (`fillLevel_spec`), and the outer loop is `Lib.sweepLevels`
  over the crossing levels, best first (`matchOrders_spec`). Both also say what they leave
  alone: every slot of another side or book, and every field but quantity and links.
-/
import LiteExchange.Book.Reference
import LiteExchange.Book.Threading

namespace LiteExchange.Book

open Lib Proto

/-! ## Slot lists as queues of orders -/

section Abstraction

variable {ι : Type}

/-- A record as an order of the reference book. -/
def Order.view (o : Order) (id : ι) (session : UInt32) : Resting ι :=
  ⟨id, o.orderId, o.price, o.qty, session⟩

/-- The queue a slot list stands for, the orders being named by the owners of their slots. -/
def absQueue (slots : Nat → Order) (session : Nat → UInt32) (owner : Nat → ι) (xs : List Nat) :
    List (Resting ι) :=
  xs.map fun s => (slots s).view (owner s) (session s)

/-- The queues of a side. -/
def absSide (slots : Nat → Order) (session : Nat → UInt32) (owner : Nat → ι)
    (qs : Nat → List Nat) : Nat → List (Resting ι) :=
  fun i => absQueue slots session owner (qs i)

theorem absQueue_cons (slots : Nat → Order) (session : Nat → UInt32) (owner : Nat → ι) (x : Nat)
    (xs : List Nat) : absQueue slots session owner (x :: xs) =
      (slots x).view (owner x) (session x) :: absQueue slots session owner xs := rfl

theorem absQueue_append (slots : Nat → Order) (session : Nat → UInt32) (owner : Nat → ι)
    (xs ys : List Nat) : absQueue slots session owner (xs ++ ys) =
      absQueue slots session owner xs ++ absQueue slots session owner ys := List.map_append

theorem absQueue_eq_nil {slots : Nat → Order} {session : Nat → UInt32} {owner : Nat → ι}
    {xs : List Nat} : absQueue slots session owner xs = [] ↔ xs = [] := List.map_eq_nil_iff

theorem absQueue_congr {slots slots' : Nat → Order} {session session' : Nat → UInt32}
    {owner owner' : Nat → ι} {xs : List Nat}
    (h : ∀ s ∈ xs, (slots' s).data = (slots s).data ∧ session' s = session s ∧
      owner' s = owner s) :
    absQueue slots' session' owner' xs = absQueue slots session owner xs :=
  List.map_congr_left fun s hs => by
    obtain ⟨hd, hse, ho⟩ := h s hs
    rw [Order.view, orderId_of_data hd, price_of_data hd, qty_of_data hd, hse, ho]
    rfl

end Abstraction

/-- The part of a record that is neither quantity nor link. -/
def Order.fixed (o : Order) : Order := { o with qty := 0, nextIdx := 0, prevIdx := 0 }

theorem fixed_of_data {o o' : Order} (h : o'.data = o.data) : o'.fixed = o.fixed :=
  show { o'.data with qty := 0 } = { o.data with qty := 0 } by rw [h]

section Fixed

variable {o o' : Order} (h : o'.fixed = o.fixed)

include h

theorem orderId_of_fixed : o'.orderId = o.orderId :=
  show o'.fixed.orderId = o.fixed.orderId from congrArg Order.orderId h

theorem price_of_fixed : o'.price = o.price :=
  show o'.fixed.price = o.fixed.price from congrArg Order.price h

theorem symbol_of_fixed : o'.symbol = o.symbol :=
  show o'.fixed.symbol = o.fixed.symbol from congrArg Order.symbol h

theorem side_of_fixed : o'.side = o.side :=
  show o'.fixed.side = o.fixed.side from congrArg Order.side h

theorem tif_of_fixed : o'.tif = o.tif :=
  show o'.fixed.tif = o.fixed.tif from congrArg Order.tif h

end Fixed

/-! ## States of the match loop -/

/-- A state of the match loop: the floor is threaded and the aggressor's slot is held. -/
structure Mid (d : Dims) (fl : Floor) (session : Nat → UInt32) (b : Nat) (T : SideClass)
    (agg : Nat) (st : MatchState) (v : View) (place : Nat → Place) : Prop where
  threads : Threads d (fl.during session b T st.pool st.opp) v place
  held : place agg = .held

/-- What matching against side `T` of book `b` leaves alone. -/
structure MatchFrame (b : Nat) (T : SideClass) (agg : Nat) (pool : Pool) (v : View)
    (place : Nat → Place) (pool' : Pool) (v' : View) (place' : Nat → Place) : Prop where
  released : ∀ s, (place' s = place s ∧ pool'.gen s = pool.gen s) ∨
    ((∃ i, place s = .level b T i) ∧ place' s = .free ∧ pool'.gen s = pool.gen s + 1)
  others : ∀ s, s ≠ agg → (∀ i, place s ≠ .level b T i) → pool'.slots s = pool.slots s
  fixed : ∀ s, (pool'.slots s).fixed = (pool.slots s).fixed
  views : ∀ b' S' i', ¬ (b' = b ∧ S' = T) → v' b' S' i' = v b' S' i'

section Frames

variable {b agg : Nat} {T : SideClass} {pool pool' pool'' : Pool} {v v' v'' : View}
variable {place place' place'' : Nat → Place}

theorem MatchFrame.refl (b : Nat) (T : SideClass) (agg : Nat) (pool : Pool) (v : View)
    (place : Nat → Place) : MatchFrame b T agg pool v place pool v place :=
  ⟨fun _ => Or.inl ⟨rfl, rfl⟩, fun _ _ _ => rfl, fun _ => rfl, fun _ _ _ _ => rfl⟩

theorem MatchFrame.trans (h₁ : MatchFrame b T agg pool v place pool' v' place')
    (h₂ : MatchFrame b T agg pool' v' place' pool'' v'' place'') :
    MatchFrame b T agg pool v place pool'' v'' place'' where
  released := fun s => by
    rcases h₁.released s with ⟨hp, hg⟩ | ⟨hl, hp, hg⟩
    · rw [← hp, ← hg]
      exact h₂.released s
    · -- a slot once free is not touched again
      rcases h₂.released s with ⟨hp', hg'⟩ | ⟨⟨i, hl'⟩, -, -⟩
      · exact Or.inr ⟨hl, hp'.trans hp, hg'.trans hg⟩
      · rw [hp] at hl'
        cases hl'
  others := fun s hs hl => by
    rcases h₁.released s with ⟨hp, -⟩ | ⟨⟨i, hi⟩, -, -⟩
    · rw [h₂.others s hs (by rw [hp]; exact hl), h₁.others s hs hl]
    · exact absurd hi (hl i)
  fixed := fun s => (h₂.fixed s).trans (h₁.fixed s)
  views := fun b' S' i' hne => (h₂.views b' S' i' hne).trans (h₁.views b' S' i' hne)

end Frames

theorem min_eq_of_lt {a x : UInt32} (h : a < x) : min a x = a :=
  if_pos (UInt32.le_of_lt h)

theorem min_eq_of_le {a x : UInt32} (h : x ≤ a) : min a x = x := by
  by_cases hle : a ≤ x
  · exact (if_pos hle).trans (UInt32.le_antisymm hle h)
  · exact if_neg hle

section Filling

variable {d : Dims} {fl : Floor} {session : Nat → UInt32} {b agg i x : Nat} {T : SideClass}
variable {st : MatchState} {v : View} {place : Nat → Place} {xs : List Nat}

/-- The records after both parties of a fill of `q` have been written. -/
def filled (slots : Nat → Order) (agg x : Nat) (q : UInt32) : Nat → Order :=
  Function.update (Function.update slots agg { slots agg with qty := (slots agg).qty - q }) x
    { slots x with qty := (slots x).qty - q }

/-- The ghost entry of a fill of `q`. -/
def hitOf (slots : Nat → Order) (agg x : Nat) (q : UInt32) : Hit :=
  ⟨x, (slots agg).qty, (slots agg).qty - q, (slots x).qty, (slots x).qty - q⟩

/-- A fill takes the same amount from both parties, and no more than they have. -/
def Hit.Balanced (h : Hit) (f : Fill) : Prop :=
  h.aggBefore.toNat = h.aggAfter.toNat + f.qty.toNat ∧
    h.restBefore.toNat = h.restAfter.toNat + f.qty.toNat

theorem hitOf_balanced {slots : Nat → Order} {agg x : Nat} {q : UInt32}
    (ha : q ≤ (slots agg).qty) (hx : q ≤ (slots x).qty) {f : Fill} (hf : f.qty = q) :
    (hitOf slots agg x q).Balanced f := by
  have ha' := UInt32.le_iff_toNat_le.mp ha
  have hx' := UInt32.le_iff_toNat_le.mp hx
  simp only [Hit.Balanced, hitOf, hf, UInt32.toNat_sub_of_le _ _ ha, UInt32.toNat_sub_of_le _ _ hx]
  omega

theorem filled_resting (slots : Nat → Order) (agg x : Nat) (q : UInt32) :
    filled slots agg x q x = { slots x with qty := (slots x).qty - q } := Function.update_self ..

theorem filled_agg (slots : Nat → Order) {agg x : Nat} (q : UInt32) (h : x ≠ agg) :
    filled slots agg x q agg = { slots agg with qty := (slots agg).qty - q } := by
  rw [filled, Function.update_of_ne h.symm, Function.update_self]

theorem filled_of_ne (slots : Nat → Order) {agg x s : Nat} (q : UInt32) (ha : s ≠ agg)
    (hx : s ≠ x) : filled slots agg x q s = slots s := by
  rw [filled, Function.update_of_ne hx, Function.update_of_ne ha]

theorem filled_fixed (slots : Nat → Order) {agg x : Nat} (q : UInt32) (h : x ≠ agg) (s : Nat) :
    (filled slots agg x q s).fixed = (slots s).fixed := by
  by_cases hx : s = x
  · rw [hx, filled_resting]; rfl
  · by_cases ha : s = agg
    · rw [ha, filled_agg slots q h]; rfl
    · rw [filled_of_ne slots q ha hx]

/-- The level with the fill taken off its total still represents its list. -/
theorem filled_rep {slots : Nat → Order} {l : PriceLevel} {agg : Nat} (q : UInt32)
    (hl : LevelRep slots l (x :: xs)) (ha : ∀ s ∈ x :: xs, s ≠ agg) :
    LevelRep (filled slots agg x q) { l with totalQty := l.totalQty - q } (x :: xs) where
  links := dlist_congr (fun s hs => by
    by_cases hx : s = x
    · subst hx; simp [nexts, prevs, filled_resting]
    · simp [nexts, prevs, filled_of_ne slots q (ha s hs) hx]) hl.links
  head := hl.head
  tail := hl.tail
  count := hl.count
  total := by
    have hnx : ∀ s ∈ xs, s ≠ x := fun s hs e => (List.nodup_cons.mp hl.links.nodup).1 (e ▸ hs)
    have htail : (xs.map fun s => (filled slots agg x q s).qty) = xs.map fun s => (slots s).qty :=
      List.map_congr_left fun s hs => by
        rw [filled_of_ne slots q (ha s (List.mem_cons_of_mem x hs)) (hnx s hs)]
    have htot := hl.total
    rw [List.map_cons, List.sum_cons] at htot ⊢
    rw [htail, filled_resting]
    dsimp only
    rw [htot]
    grind

/-- The facts about the parties of a fill that both of its outcomes use. -/
theorem Mid.parties (hm : Mid d fl session b T agg st v place) (hv : v b T i = x :: xs) :
    i < d.L ∧ LevelRep st.pool.slots (st.opp.levels i) (x :: xs) ∧ agg < d.N ∧
      (∀ s ∈ x :: xs, s < d.N ∧ s ≠ agg ∧ place s = .level b T i) := by
  have ht := hm.threads
  have hi : i < d.L := ht.lt_L (b := b) (S := T) (by rw [hv]; exact List.cons_ne_nil x xs)
  have hrep := ht.levels b T i hi
  rw [hv] at hrep
  refine ⟨hi, by simpa [Floor.during] using hrep, ht.lt_of_place (by rw [hm.held]; simp), ?_⟩
  intro s hs
  have hp : place s = .level b T i := (ht.queued b T i s).mp (hv ▸ hs)
  refine ⟨ht.lt_of_place (by rw [hp]; simp), ?_, hp⟩
  rintro rfl
  rw [hm.held] at hp
  cases hp

/-- `fillHead` up to the test of the resting quantity. -/
theorem fillHead_eq (hm : Mid d fl session b T agg st v place) (hv : v b T i = x :: xs)
    {q : UInt32} (hq : min (st.pool.slots agg).qty (st.pool.slots x).qty = q) :
    fillHead d.N session agg i st =
      (let f : Fill := {
        hdr := ⟨40, .fill, 0, session x⟩, aggressorId := (st.pool.slots agg).orderId
        restingId := (st.pool.slots x).orderId, price := (st.pool.slots x).price, qty := q }
      let level : PriceLevel :=
        { st.opp.levels i with totalQty := (st.opp.levels i).totalQty - q }
      if (st.pool.slots x).qty - q = 0 then do
        let (_, level, slots) ← level.popFront d.N (filled st.pool.slots agg x q)
        let pool ← { st.pool with slots := slots }.free d.N x
        return ⟨pool, { st.opp with levels := Function.update st.opp.levels i level },
          st.fills ++ [f], st.hits ++ [hitOf st.pool.slots agg x q]⟩
      else
        return ⟨{ st.pool with slots := filled st.pool.slots agg x q },
          { st.opp with levels := Function.update st.opp.levels i level },
          st.fills ++ [f], st.hits ++ [hitOf st.pool.slots agg x q]⟩) := by
  obtain ⟨-, hrep, hagg, hxs⟩ := hm.parties hv
  obtain ⟨hx, hne, -⟩ := hxs x List.mem_cons_self
  unfold fillHead
  dsimp only
  rw [hrep.head_cons, fetch_of_lt _ hagg, ok_bind, fetch_of_lt _ hx, ok_bind, fetch_of_lt _ hx,
    ok_bind, store_of_lt _ _ hagg, ok_bind, fetch_of_lt _ hx, ok_bind, store_of_lt _ _ hx, ok_bind]
  simp only [hq, Function.update_of_ne hne]
  rfl

/-- Slots that are neither party of a fill keep their record. -/
theorem Mid.filled_other (hm : Mid d fl session b T agg st v place) (hpx : place x = .level b T i)
    (q : UInt32) {s b' i' : Nat} {S' : SideClass} (hs : place s = .level b' S' i')
    (hne : ¬ (b' = b ∧ S' = T ∧ i' = i)) :
    filled st.pool.slots agg x q s = st.pool.slots s := by
  refine filled_of_ne _ q ?_ ?_
  · rintro rfl
    rw [hm.held] at hs
    cases hs
  · rintro rfl
    rw [hpx] at hs
    cases hs
    exact hne ⟨rfl, rfl, rfl⟩

/-- The frame of a fill: `slots` are the filled records up to links. -/
theorem filled_frame {slots : Nat → Order} {pool : Pool} {q : UInt32} {v' : View}
    {place' : Nat → Place} (hne : x ≠ agg) (hpx : place x = .level b T i)
    (hdata : ∀ s, (slots s).data = (filled pool.slots agg x q s).data)
    (hout : ∀ s, (∀ j, place s ≠ .level b T j) → slots s = filled pool.slots agg x q s)
    (hviews : ∀ b' S' i', ¬ (b' = b ∧ S' = T) → v' b' S' i' = v b' S' i')
    {gen : Nat → UInt32} {freeList : Nat → Nat} {freeTop : Nat}
    (hrel : ∀ s, (place' s = place s ∧ gen s = pool.gen s) ∨
      ((∃ i, place s = .level b T i) ∧ place' s = .free ∧ gen s = pool.gen s + 1)) :
    MatchFrame b T agg pool v place ⟨slots, freeList, gen, freeTop⟩ v' place' where
  released := hrel
  others := fun s ha hl => (hout s hl).trans (filled_of_ne _ q ha fun e => hl i (e ▸ hpx))
  fixed := fun s => (fixed_of_data (hdata s)).trans (filled_fixed _ q hne s)
  views := hviews

/-- The queues of a side after one of its lists has changed. -/
theorem absSide_update {ι : Type} {slots slots' : Nat → Order} {owner : Nat → ι}
    {qs qs' : Nat → List Nat} {zs : List (Resting ι)}
    (hj : ∀ j, j ≠ i → qs' j = qs j ∧ ∀ s ∈ qs j, slots' s = slots s)
    (hi : absQueue slots' session owner (qs' i) = zs) :
    absSide slots' session owner qs' =
      Function.update (absSide slots session owner qs) i zs := by
  funext j
  by_cases h : j = i
  · rw [h, Function.update_self]
    exact hi
  · rw [Function.update_of_ne h, absSide, (hj j h).1]
    exact absQueue_congr fun s hs => ⟨by rw [(hj j h).2 s hs], rfl, rfl⟩

variable {ι : Type} (owner : Nat → ι)

/-- A stretch of the match loop, as a service of the reference queues: the pieces taken, the
    demand that is left and the queues of the side after it. -/
structure Served (d : Dims) (fl : Floor) (session : Nat → UInt32) (b : Nat) (T : SideClass)
    (agg : Nat) (owner : Nat → ι) (st : MatchState) (v : View) (place : Nat → Place)
    (taken : List (Resting ι × Nat)) (demand : Nat) (queues : Nat → List (Resting ι))
    (st' : MatchState) (v' : View) (place' : Nat → Place) : Prop where
  mid : Mid d fl session b T agg st' v' place'
  frame : MatchFrame b T agg st.pool v place st'.pool v' place'
  queues_eq : absSide st'.pool.slots session owner (v' b T) = queues
  demand_eq : (st'.pool.slots agg).qty.toNat = demand
  fills_eq : st'.fills = st.fills ++ taken.map (fillOf (st.pool.slots agg).orderId)
  hits_eq : ∃ hs, st'.hits = st.hits ++ hs ∧
    (hs.map fun h => owner h.slot) = (taken.map fun p => p.1.id) ∧
    List.Forall₂ Hit.Balanced hs (taken.map (fillOf (st.pool.slots agg).orderId))

theorem Mid.served_nil (hm : Mid d fl session b T agg st v place) (owner : Nat → ι) :
    Served d fl session b T agg owner st v place [] (st.pool.slots agg).qty.toNat
      (absSide st.pool.slots session owner (v b T)) st v place :=
  ⟨hm, MatchFrame.refl .., rfl, rfl, by simp, [], by simp, rfl, .nil⟩

theorem Served.trans {owner : Nat → ι} {st' st'' : MatchState} {v' v'' : View}
    {place' place'' : Nat → Place} {t₁ t₂ : List (Resting ι × Nat)} {d₁ d₂ : Nat}
    {q₁ q₂ : Nat → List (Resting ι)}
    (h₁ : Served d fl session b T agg owner st v place t₁ d₁ q₁ st' v' place')
    (h₂ : Served d fl session b T agg owner st' v' place' t₂ d₂ q₂ st'' v'' place'') :
    Served d fl session b T agg owner st v place (t₁ ++ t₂) d₂ q₂ st'' v'' place'' where
  mid := h₂.mid
  frame := h₁.frame.trans h₂.frame
  queues_eq := h₂.queues_eq
  demand_eq := h₂.demand_eq
  fills_eq := by
    rw [h₂.fills_eq, h₁.fills_eq, orderId_of_fixed (h₁.frame.fixed agg), List.map_append,
      List.append_assoc]
  hits_eq := by
    obtain ⟨hs₁, e₁, m₁, b₁⟩ := h₁.hits_eq
    obtain ⟨hs₂, e₂, m₂, b₂⟩ := h₂.hits_eq
    rw [orderId_of_fixed (h₁.frame.fixed agg)] at b₂
    refine ⟨hs₁ ++ hs₂, by rw [e₂, e₁, List.append_assoc],
      by rw [List.map_append, List.map_append, m₁, m₂], ?_⟩
    rw [List.map_append]
    exact List.rel_append b₁ b₂

/-- A fill that leaves the resting order a remainder. -/
theorem fillHead_partial (hm : Mid d fl session b T agg st v place) (hv : v b T i = x :: xs)
    {q : UInt32} (hq : (st.pool.slots agg).qty = q) (hlt : q < (st.pool.slots x).qty) :
    ∃ st', fillHead d.N session agg i st = .ok st' ∧
      st'.opp.bestIdx = st.opp.bestIdx ∧ st'.opp.occ = st.opp.occ ∧
      Served d fl session b T agg owner st v place
        [((st.pool.slots x).view (owner x) (session x), q.toNat)] 0
        (Function.update (absSide st.pool.slots session owner (v b T)) i
          (((st.pool.slots x).view (owner x) (session x)).less q.toNat ::
            absQueue st.pool.slots session owner xs)) st' v place := by
  obtain ⟨hi, hrep, hagg, hxs⟩ := hm.parties hv
  obtain ⟨hx, hne, hpx⟩ := hxs x List.mem_cons_self
  have hpos : 0 < (st.pool.slots x).qty - q := by
    rw [UInt32.lt_iff_toNat_lt] at hlt ⊢
    rw [UInt32.toNat_sub_of_le _ _ (UInt32.le_iff_toNat_le.mpr (by omega))]
    simp only [UInt32.toNat_zero]
    omega
  have hnx : ∀ s ∈ xs, s ≠ x := fun s hs e => (List.nodup_cons.mp hrep.links.nodup).1 (e ▸ hs)
  have hset : v.set b T i (x :: xs) = v := by rw [← hv]; exact v.set_eq_self b T i
  have hmin : min (st.pool.slots agg).qty (st.pool.slots x).qty = q := by
    rw [hq]
    exact min_eq_of_lt hlt
  rw [fillHead_eq hm hv hmin]
  dsimp only
  rw [if_neg (fun e => absurd (e ▸ hpos) (by decide))]
  refine ⟨_, rfl, rfl, rfl, ⟨?_, hm.held⟩, ?_, ?_, ?_, ?_, [hitOf st.pool.slots agg x q], rfl, rfl,
    .cons ?_ .nil⟩
  · -- the list is as it was; only the two quantities and the total have changed
    rw [← hset]
    refine (during_setLevel ..) ▸ hm.threads.setLevel hi
      (filled_rep q hrep fun s hs => (hxs s hs).2.1)
      (fun s b' S' i' hs hn => hm.filled_other hpx q hs hn) (fun s hs => ?_)
      (fun s => by rw [← hv]; exact hm.threads.queued b T i s) (fun s => Or.inl rfl)
    obtain ⟨-, h1, h2, h3, h4, h5⟩ := hm.threads.records b T i s (hv ▸ hs)
    by_cases he : s = x
    · subst he
      rw [filled_resting]
      exact ⟨hpos, h2, h3, h4, h5⟩
    · rw [filled_of_ne _ q (hxs s hs).2.1 he]
      exact ⟨h1, h2, h3, h4, h5⟩
  · exact filled_frame hne hpx (fun _ => rfl) (fun _ _ => rfl) (fun _ _ _ _ => rfl)
      (fun _ => Or.inl ⟨rfl, rfl⟩)
  · refine absSide_update (fun j hj => ⟨rfl, fun s hs => ?_⟩) ?_
    · exact hm.filled_other hpx q ((hm.threads.queued b T j s).mp hs) fun e => hj e.2.2
    · dsimp only
      rw [hv, absQueue_cons, filled_resting]
      congr 1
      · simp [Order.view, Resting.less]
      · refine absQueue_congr fun s hs => ⟨?_, rfl, rfl⟩
        rw [filled_of_ne _ q (hxs s (List.mem_cons_of_mem x hs)).2.1 (hnx s hs)]
  · dsimp only
    rw [filled_agg _ q hne, hq]
    exact congrArg UInt32.toNat (UInt32.sub_self q)
  · simp [fillOf, Order.view]
  · exact hitOf_balanced (UInt32.le_of_eq hq.symm) (UInt32.le_of_lt hlt) (UInt32.ofNat_toNat ..)

/-- A fill that consumes the resting order: its slot leaves the level and is freed. -/
theorem fillHead_full (hm : Mid d fl session b T agg st v place) (hv : v b T i = x :: xs)
    {q : UInt32} (hq : (st.pool.slots x).qty = q) (hle : q ≤ (st.pool.slots agg).qty) :
    ∃ st', fillHead d.N session agg i st = .ok st' ∧
      st'.opp.bestIdx = st.opp.bestIdx ∧ st'.opp.occ = st.opp.occ ∧
      Served d fl session b T agg owner st v place
        [((st.pool.slots x).view (owner x) (session x), q.toNat)]
        ((st.pool.slots agg).qty.toNat - q.toNat)
        (Function.update (absSide st.pool.slots session owner (v b T)) i
          (absQueue st.pool.slots session owner xs)) st' (v.set b T i xs) (move place x .free) := by
  obtain ⟨hi, hrep, hagg, hxs⟩ := hm.parties hv
  obtain ⟨hx, hne, hpx⟩ := hxs x List.mem_cons_self
  have hnx : ∀ s ∈ xs, s ≠ x := fun s hs e => (List.nodup_cons.mp hrep.links.nodup).1 (e ▸ hs)
  have hmin : min (st.pool.slots agg).qty (st.pool.slots x).qty = q := by
    rw [hq]
    exact min_eq_of_le hle
  obtain ⟨l, slots, hpop, hrep', hframe⟩ := popFront_rep d.N_le_nullIdx
    (filled_rep q hrep fun s hs => (hxs s hs).2.1) fun s hs => (hxs s hs).1
  have hrest : ∀ s, s ∉ xs → slots s = filled st.pool.slots agg x q s := hframe.outside
  have hothers : ∀ s b' S' i', place s = .level b' S' i' → ¬ (b' = b ∧ S' = T ∧ i' = i) →
      slots s = st.pool.slots s := fun s b' S' i' hs hn => by
    rw [hrest s fun hmem => hn (by
      have := (hxs s (List.mem_cons_of_mem x hmem)).2.2
      rw [hs] at this
      cases this
      exact ⟨rfl, rfl, rfl⟩)]
    exact hm.filled_other hpx q hs hn
  have hdata : ∀ s ∈ xs, (slots s).data = (st.pool.slots s).data := fun s hs => by
    rw [hframe.data, filled_of_ne _ q (hxs s (List.mem_cons_of_mem x hs)).2.1 (hnx s hs)]
  have haggx : agg ∉ xs := fun hmem => (hxs agg (List.mem_cons_of_mem x hmem)).2.1 rfl
  -- the slot first leaves its list and is then freed
  have hheld : Threads d (fl.during session b T { st.pool with slots := slots }
      { st.opp with levels := Function.update st.opp.levels i l }) (v.set b T i xs)
      (move place x .held) := by
    refine (during_setLevel ..) ▸ hm.threads.setLevel hi hrep' hothers (fun s hs => ?_)
      (fun s => ?_) (fun s => ?_)
    · obtain ⟨-, h1, h2, h3, h4, h5⟩ := hm.threads.records b T i s (hv ▸ List.mem_cons_of_mem x hs)
      have hd := hdata s hs
      exact ⟨by rw [qty_of_data hd]; exact h1, by rw [tif_of_data hd]; exact h2,
        by rw [side_of_data hd]; exact h3, by rw [price_of_data hd]; exact h4,
        by rw [price_of_data hd]; exact h5⟩
    · by_cases he : s = x
      · rw [he, move_self]
        exact ⟨fun hmem => absurd rfl (hnx x hmem), fun h => Place.noConfusion h⟩
      · rw [move_of_ne _ _ he, ← hm.threads.queued b T i s, hv, List.mem_cons]
        simp [he]
    · by_cases he : s = x
      · rw [he, move_self]
        exact Or.inr (Or.inl ⟨hpx, rfl⟩)
      · exact Or.inl (move_of_ne _ _ he)
  obtain ⟨hfree, hthreads⟩ := hheld.release (move_self place x .held)
  rw [fillHead_eq hm hv hmin]
  dsimp only
  rw [if_pos (by rw [hq]; exact UInt32.sub_self q), hpop, ok_bind]
  dsimp only [Floor.during] at hfree hthreads ⊢
  rw [hfree, ok_bind]
  have hmove : move (move place x .held) x .free = move place x .free := Function.update_idem ..
  refine ⟨_, rfl, rfl, rfl, ⟨hmove ▸ hthreads, ?_⟩, ?_, ?_, ?_, ?_,
    [hitOf st.pool.slots agg x q], rfl, rfl, .cons ?_ .nil⟩
  · rw [move_of_ne _ _ hne.symm]
    exact hm.held
  · refine filled_frame hne hpx hframe.data (fun s hl => hrest s fun hmem => ?_)
      (fun b' S' i' hn => v.set_of_ne _ fun e => hn ⟨e.1, e.2.1⟩) (fun s => ?_)
    · exact hl i (hxs s (List.mem_cons_of_mem x hmem)).2.2
    · by_cases he : s = x
      · subst he
        exact Or.inr ⟨⟨i, hpx⟩, move_self .., Pool.freed_gen_self ..⟩
      · exact Or.inl ⟨move_of_ne _ _ he, Pool.freed_gen_of_ne _ he⟩
  · refine absSide_update (fun j hj => ⟨v.set_of_ne _ fun e => hj e.2.2, fun s hs => ?_⟩) ?_
    · exact hothers s b T j ((hm.threads.queued b T j s).mp hs) fun e => hj e.2.2
    · rw [View.set_self]
      exact absQueue_congr fun s hs => ⟨hdata s hs, rfl, rfl⟩
  · simp only [Pool.freed_slots]
    rw [hrest agg haggx, filled_agg _ q hne]
    exact UInt32.toNat_sub_of_le _ _ hle
  · simp [fillOf, Order.view]
  · exact hitOf_balanced hle (UInt32.le_of_eq hq.symm) (UInt32.ofNat_toNat ..)

/-! ## The inner loop -/

theorem Mid.agg_lt (hm : Mid d fl session b T agg st v place) : agg < d.N :=
  hm.threads.lt_of_place (by rw [hm.held]; simp)

theorem Mid.empty_iff (hm : Mid d fl session b T agg st v place) (hi : i < d.L) :
    (st.opp.levels i).empty = true ↔ v b T i = [] := by
  simpa [Floor.during] using (hm.threads.levels b T i hi).empty_iff

/-- The test of the inner `while`: something is demanded and the queue is not empty. -/
theorem Mid.busy_iff (hm : Mid d fl session b T agg st v place) (hi : i < d.L) :
    (0 < (st.pool.slots agg).qty ∧ (st.opp.levels i).empty = false) ↔
      (st.pool.slots agg).qty.toNat ≠ 0 ∧ v b T i ≠ [] := by
  rw [UInt32.lt_iff_toNat_lt, UInt32.toNat_zero, Nat.pos_iff_ne_zero, ← Bool.not_eq_true,
    hm.empty_iff hi]

/-- The inner `while` is a sweep of the queue of level `i`: it leaves the queue the sweep
    leaves, reports the pieces the sweep takes, and returns from `match` exactly when the cap
    stops it short of both the aggressor's quantity and the queue. -/
theorem fillLevel_spec (hm : Mid d fl session b T agg st v place) (hi : i < d.L) (room : Nat)
    {t : Swept (Resting ι)}
    (ht : sweep Resting.amount Resting.less (absQueue st.pool.slots session owner (v b T i))
      (st.pool.slots agg).qty.toNat room = t) :
    ∃ st' v' place',
      fillLevel d.N session agg i room st =
        .ok (t.room, decide (t.demand ≠ 0 ∧ t.rest ≠ []), st') ∧
      st'.opp.bestIdx = st.opp.bestIdx ∧ st'.opp.occ = st.opp.occ ∧
      Served d fl session b T agg owner st v place t.taken t.demand
        (Function.update (absSide st.pool.slots session owner (v b T)) i t.rest) st' v' place' := by
  -- the loop body is not entered: no quantity, no queue, or no fill left
  have hidle : ∀ {st v place}, Mid d fl session b T agg st v place →
      Served d fl session b T agg owner st v place [] (st.pool.slots agg).qty.toNat
        (Function.update (absSide st.pool.slots session owner (v b T)) i
          (absQueue st.pool.slots session owner (v b T i))) st v place := fun {st v place} hm => by
    have := hm.served_nil owner
    rwa [show absQueue st.pool.slots session owner (v b T i) =
      absSide st.pool.slots session owner (v b T) i from rfl, Function.update_eq_self]
  subst ht
  induction room generalizing st v place with
  | zero =>
    rw [sweep_stop (Or.inr rfl), fillLevel, fetch_of_lt _ hm.agg_lt, ok_bind]
    refine ⟨st, v, place, ?_, rfl, rfl, hidle hm⟩
    by_cases hc : 0 < (st.pool.slots agg).qty ∧ (st.opp.levels i).empty = false
    · have hb := (hm.busy_iff hi).mp hc
      rw [if_pos hc, decide_eq_true ⟨hb.1, absQueue_eq_nil.not.mpr hb.2⟩]
      rfl
    · have hb := fun h => hc ((hm.busy_iff hi).mpr h)
      rw [if_neg hc, decide_eq_false fun h => hb ⟨h.1, absQueue_eq_nil.not.mp h.2⟩]
      rfl
  | succ room ih =>
    rw [fillLevel, fetch_of_lt _ hm.agg_lt, ok_bind]
    by_cases hc : 0 < (st.pool.slots agg).qty ∧ (st.opp.levels i).empty = false
    · obtain ⟨hd, hne⟩ := (hm.busy_iff hi).mp hc
      obtain ⟨x, xs, hv⟩ := List.exists_cons_of_ne_nil hne
      rw [if_pos hc, hv, absQueue_cons]
      by_cases hlt : (st.pool.slots agg).qty < (st.pool.slots x).qty
      · obtain ⟨st₁, hrun, hb, ho, hs⟩ := fillHead_partial owner hm hv rfl hlt
        obtain ⟨st₂, v₂, place₂, hrun₂, hb₂, ho₂, hs₂⟩ := ih hs.mid
        have hqueue := (congrFun hs.queues_eq i).trans (Function.update_self ..)
        rw [absSide] at hqueue
        rw [hqueue, hs.demand_eq, sweep_stop (Or.inl rfl)] at hs₂ hrun₂
        rw [hs.queues_eq, Function.update_idem] at hs₂
        have hlt' : (st.pool.slots agg).qty.toNat <
            ((st.pool.slots x).view (owner x) (session x)).amount := UInt32.lt_iff_toNat_lt.mp hlt
        rw [sweep_short hd (Nat.succ_ne_zero room) hlt', hrun, ok_bind]
        exact ⟨st₂, v₂, place₂, by simpa using hrun₂, hb₂.trans hb, ho₂.trans ho, hs.trans hs₂⟩
      · have hle := UInt32.not_lt.mp hlt
        obtain ⟨st₁, hrun, hb, ho, hs⟩ := fillHead_full owner hm hv rfl hle
        obtain ⟨st₂, v₂, place₂, hrun₂, hb₂, ho₂, hs₂⟩ := ih hs.mid
        have hqueue := (congrFun hs.queues_eq i).trans (Function.update_self ..)
        rw [absSide] at hqueue
        rw [hqueue, hs.demand_eq, hs.queues_eq, Function.update_idem] at hs₂
        rw [hqueue, hs.demand_eq] at hrun₂
        have hle' : ((st.pool.slots x).view (owner x) (session x)).amount ≤
            (st.pool.slots agg).qty.toNat := UInt32.le_iff_toNat_le.mp hle
        rw [sweep_full hd (Nat.succ_ne_zero room) hle', hrun, ok_bind]
        exact ⟨st₂, v₂, place₂, hrun₂, hb₂.trans hb, ho₂.trans ho, hs.trans hs₂⟩
    · -- the sweep stops as well: no quantity or no queue
      have hstop : sweep Resting.amount Resting.less
          (absQueue st.pool.slots session owner (v b T i)) (st.pool.slots agg).qty.toNat (room + 1) =
          ⟨[], absQueue st.pool.slots session owner (v b T i), (st.pool.slots agg).qty.toNat,
            room + 1⟩ ∧ ¬ ((st.pool.slots agg).qty.toNat ≠ 0 ∧
              absQueue st.pool.slots session owner (v b T i) ≠ []) := by
        rw [hm.busy_iff hi] at hc
        by_cases hz : (st.pool.slots agg).qty.toNat = 0
        · exact ⟨sweep_stop (Or.inl hz), fun h => h.1 hz⟩
        · have hnil : absQueue st.pool.slots session owner (v b T i) = [] :=
            absQueue_eq_nil.mpr (not_not.mp fun h => hc ⟨hz, h⟩)
          exact ⟨by rw [hnil]; rfl, fun h => h.2 hnil⟩
      rw [if_neg hc, hstop.1, decide_eq_false hstop.2]
      exact ⟨st, v, place, rfl, rfl, rfl, hidle hm⟩

end Filling

/-! ## The outer loop -/

theorem crosses_iff {S : SideClass} {a j : Nat} : crosses S a j = true ↔ ¬ beyond S j a := by
  cases S <;> simp [crosses, beyond]

theorem bestFirst_pairwise (L : Nat) (S : SideClass) : (bestFirst L S).Pairwise (ahead S) := by
  cases S with
  | ask => exact List.pairwise_lt_range
  | bid => exact List.pairwise_reverse.mpr List.pairwise_lt_range

theorem crossing_sorted (L : Nat) (S : SideClass) (a : Nat) :
    (crossing L S a).Pairwise (ahead S.opp) :=
  (bestFirst_pairwise L S.opp).filter _

/-- A level at least as good as a level in reach is in reach. -/
theorem not_beyond_of_not_ahead {S : SideClass} {i j a : Nat} (hi : ¬ beyond S i a)
    (hj : ¬ ahead S.opp i j) : ¬ beyond S j a := by
  cases S <;> simp only [beyond, ahead, SideClass.opp] at * <;> omega

/-- The first non-empty level of the list of levels in reach is the cached best one. -/
theorem IndexRep.best_eq {d : Dims} {S : SideClass} {h : Half} {P : Nat → Prop} {i a : Nat}
    {is : List Nat} (hr : IndexRep d.L S.opp h P) (hP : P i) (hi : ¬ beyond S i a)
    (hsorted : (i :: is).Pairwise (ahead S.opp))
    (hcomplete : ∀ j, P j → ¬ beyond S j a → j ∈ i :: is) : h.bestIdx = i := by
  rcases hr.best with ⟨hb, hfirst⟩ | ⟨-, hn⟩
  · have hmem := hcomplete _ hb (not_beyond_of_not_ahead hi (hfirst i hP))
    rcases List.mem_cons.mp hmem with he | he
    · exact he
    · exact absurd (List.rel_of_pairwise_cons hsorted he) (hfirst i hP)
  · exact absurd hP (hn i)

section Outer

variable {d : Dims} {fl : Floor} {session : Nat → UInt32} {b agg : Nat}
variable {st : MatchState} {v : View} {place : Nat → Place} {ι : Type} {owner : Nat → ι}

theorem Mid.reindex {T : SideClass} (hm : Mid d fl session b T agg st v place) (best : Nat)
    (occ : LevelBitmap) :
    Mid d fl session b T agg { st with opp := { st.opp with occ := occ, bestIdx := best } } v
      place :=
  ⟨hm.threads.reindex_during rfl, hm.held⟩

theorem Served.reindex {T : SideClass} {taken : List (Resting ι × Nat)} {demand : Nat}
    {queues : Nat → List (Resting ι)} {st' : MatchState} {v' : View} {place' : Nat → Place}
    (hs : Served d fl session b T agg owner st v place taken demand queues st' v' place')
    (best : Nat) (occ : LevelBitmap) :
    Served d fl session b T agg owner st v place taken demand queues
      { st' with opp := { st'.opp with occ := occ, bestIdx := best } } v' place' :=
  ⟨hs.mid.reindex best occ, hs.frame, hs.queues_eq, hs.demand_eq, hs.fills_eq, hs.hits_eq⟩

/-- Which lists are empty can be read off the queues. -/
theorem nonempty_iff {slots slots' : Nat → Order} {qs qs' : Nat → List Nat} {i : Nat}
    {zs : List (Resting ι)} (h : absSide slots' session owner qs' =
      Function.update (absSide slots session owner qs) i zs) (j : Nat) :
    qs' j ≠ [] ↔ if j = i then zs ≠ [] else qs j ≠ [] := by
  have hj := congrFun h j
  by_cases he : j = i
  · subst he
    rw [Function.update_self] at hj
    rw [if_pos rfl, ← hj, absSide, ne_eq, ne_eq, absQueue_eq_nil]
  · rw [Function.update_of_ne he, absSide, absSide] at hj
    have hq : absQueue slots' session owner (qs' j) = [] ↔ qs' j = [] := absQueue_eq_nil
    rw [if_neg he, ne_eq, ne_eq, ← hq, hj, absQueue_eq_nil]

/-- The loop leaves at once when nothing is demanded or nothing is in reach. -/
theorem matchLoop_done {S : SideClass} {aggIdx fuel room : Nat}
    (hm : Mid d fl session b S.opp agg st v place)
    (hdone : (st.pool.slots agg).qty.toNat = 0 ∨ st.opp.bestIdx = nullIdx ∨
      beyond S st.opp.bestIdx aggIdx) :
    matchLoop d S session agg aggIdx (fuel + 1) room st = .ok st := by
  rw [matchLoop, fetch_of_lt _ hm.agg_lt, ok_bind]
  by_cases hc : 0 < (st.pool.slots agg).qty ∧ st.opp.bestIdx ≠ nullIdx
  · rw [if_pos hc]
    rcases hdone with h | h | h
    · rw [UInt32.lt_iff_toNat_lt, h] at hc
      exact absurd hc.1 (Nat.lt_irrefl 0)
    · exact absurd h hc.2
    · exact if_pos h
  · exact if_neg hc

/-- The outer `while` serves the aggressor from the levels in reach. The list `is` has every
    non-empty level in reach, best first; the induction is on it, one iteration per non-empty
    level. -/
theorem matchLoop_spec {S : SideClass} {aggIdx : Nat} {is : List Nat} (fuel room : Nat)
    (hm : Mid d fl session b S.opp agg st v place)
    (hix : IndexRep d.L S.opp st.opp fun j => v b S.opp j ≠ [])
    (hsorted : is.Pairwise (ahead S.opp)) (hsound : ∀ j ∈ is, j < d.L ∧ ¬ beyond S j aggIdx)
    (hcomplete : ∀ j, v b S.opp j ≠ [] → ¬ beyond S j aggIdx → j ∈ is) (hfuel : is.length < fuel)
    {t : SweptLevels (Resting ι)}
    (ht : sweepLevels Resting.amount Resting.less is
      (absSide st.pool.slots session owner (v b S.opp)) (st.pool.slots agg).qty.toNat room = t) :
    ∃ st' v' place', matchLoop d S session agg aggIdx fuel room st = .ok st' ∧
      Served d fl session b S.opp agg owner st v place t.taken t.demand t.levels st' v' place' ∧
      IndexRep d.L S.opp st'.opp fun j => v' b S.opp j ≠ [] := by
  subst ht
  induction is generalizing st v place fuel room with
  | nil =>
    obtain ⟨fuel, rfl⟩ := Nat.exists_eq_succ_of_ne_zero (Nat.ne_of_gt (Nat.zero_lt_of_lt hfuel))
    refine ⟨st, v, place, matchLoop_done hm ?_, hm.served_nil owner, hix⟩
    rcases hix.best with ⟨hb, -⟩ | ⟨he, -⟩
    · exact Or.inr (Or.inr (not_not.mp fun h => List.not_mem_nil (hcomplete _ hb h)))
    · exact Or.inr (Or.inl he)
  | cons i is ih =>
    have htail := List.Pairwise.of_cons hsorted
    have hsound' : ∀ j ∈ is, j < d.L ∧ ¬ beyond S j aggIdx := fun j hj =>
      hsound j (List.mem_cons_of_mem i hj)
    by_cases hvi : v b S.opp i = []
    · -- an empty level costs no iteration
      rw [sweepLevels_skip (absQueue_eq_nil.mpr hvi)]
      refine ih fuel room hm hix htail hsound' (fun j hj hr => ?_) (by simp at hfuel; omega)
      rcases List.mem_cons.mp (hcomplete j hj hr) with rfl | h
      · exact absurd hvi hj
      · exact h
    · obtain ⟨hi, hreach⟩ := hsound i List.mem_cons_self
      have hbest : st.opp.bestIdx = i := hix.best_eq hvi hreach hsorted hcomplete
      obtain ⟨fuel, rfl⟩ := Nat.exists_eq_succ_of_ne_zero (Nat.ne_of_gt (Nat.zero_lt_of_lt hfuel))
      by_cases hz : (st.pool.slots agg).qty.toNat = 0
      · rw [sweepLevels_stop (Or.inl hz)]
        exact ⟨st, v, place, matchLoop_done hm (Or.inl hz), hm.served_nil owner, hix⟩
      · obtain ⟨t, ht⟩ : ∃ t, sweep Resting.amount Resting.less
          (absSide st.pool.slots session owner (v b S.opp) i) (st.pool.slots agg).qty.toNat room =
            t := ⟨_, rfl⟩
        obtain ⟨st₁, v₁, place₁, hrun, hb, ho, hs⟩ := fillLevel_spec owner hm hi room ht
        have hne := nonempty_iff hs.queues_eq
        have hix₁ : IndexRep d.L S.opp st₁.opp fun j => v b S.opp j ≠ [] := hix.of_eq hb ho
        have hpos : 0 < (st.pool.slots agg).qty := by
          rw [UInt32.lt_iff_toNat_lt, UInt32.toNat_zero]
          omega
        have hnull : i ≠ nullIdx := by
          have := d.L_lt_nullIdx
          omega
        rw [sweepLevels_cons ht rfl, matchLoop, fetch_of_lt _ hm.agg_lt, ok_bind, hbest,
          if_pos ⟨hpos, hnull⟩, if_neg hreach]
        dsimp only
        rw [fetch_of_lt _ hi, ok_bind, hrun, ok_bind]
        dsimp only
        by_cases hempty : t.rest = []
        · -- the level is used up: its bit is cleared and the next level becomes the best
          have hv₁ : ∀ j, v₁ b S.opp j ≠ [] ↔ v b S.opp j ≠ [] ∧ j ≠ i := fun j => by
            rw [hne, hempty]
            by_cases hj : j = i <;> simp [hj]
          have hlevel : (st₁.opp.levels i).empty = true :=
            (hs.mid.empty_iff hi).mpr (not_not.mp fun h => ((hv₁ i).mp h).2 rfl)
          rw [decide_eq_false (fun h => h.2 hempty), if_neg Bool.false_ne_true, if_pos hlevel]
          obtain ⟨occ, hclear, hbits⟩ := clear_spec d.L_fits st₁.opp.occ hi
          obtain ⟨best, hadv, hbestof⟩ := bestOf_advance hix₁ (hb.trans hbest) hvi hbits
          rw [hclear, ok_bind, hadv, ok_bind]
          obtain ⟨st₂, v₂, place₂, hrun₂, hs₂, hix₂⟩ := ih fuel t.room
            (hs.mid.reindex best occ) ⟨fun j => by
                rw [hbits, Bool.and_eq_true, hix₁.occ, decide_eq_true_eq, hv₁],
              hbestof.congr fun j => (hv₁ j).symm, fun j hj => hix.lt j ((hv₁ j).mp hj).1⟩
            htail hsound' (fun j hj hr => by
              rcases List.mem_cons.mp (hcomplete j ((hv₁ j).mp hj).1 hr) with h | h
              · exact absurd h ((hv₁ j).mp hj).2
              · exact h) (by simp at hfuel; omega)
          dsimp only at hs₂
          rw [hs.queues_eq, hs.demand_eq] at hs₂
          exact ⟨st₂, v₂, place₂, hrun₂, (hs.reindex best occ).trans hs₂, hix₂⟩
        · -- the level keeps orders: the demand is met or the cap is reached
          have hstop : t.demand = 0 ∨ t.room = 0 := by
            have hex : t.demand = 0 ∨ t.room = 0 ∨ t.rest = [] := ht ▸ sweep_exhausted
            rcases hex with h | h | h
            · exact Or.inl h
            · exact Or.inr h
            · exact absurd h hempty
          have hlevel : ¬ (st₁.opp.levels i).empty = true := fun h =>
            (hne i).mpr (by rw [if_pos rfl]; exact hempty) ((hs.mid.empty_iff hi).mp h)
          rw [sweepLevels_stop hstop]
          dsimp only
          rw [List.append_nil]
          refine ⟨st₁, v₁, place₁, ?_, hs, hix₁.congr fun j => ?_⟩
          · by_cases hd : t.demand = 0
            · obtain ⟨fuel, rfl⟩ := Nat.exists_eq_succ_of_ne_zero
                (show fuel ≠ 0 by simp at hfuel; omega)
              rw [decide_eq_false (fun h => h.1 hd), if_neg Bool.false_ne_true, if_neg hlevel]
              exact matchLoop_done hs.mid (Or.inl (hs.demand_eq.trans hd))
            · rw [decide_eq_true ⟨hd, hempty⟩]
              rfl
          · rw [hne]
            by_cases hj : j = i
            · simp [hj, hvi, hempty]
            · rw [if_neg hj]

/-- `match` serves the aggressor from the levels its limit crosses, best first. -/
theorem matchOrders_spec {S : SideClass} {aggIdx : Nat} {pool : Pool} {opp : Half} (maxFills : Nat)
    (hm : Mid d fl session b S.opp agg ⟨pool, opp, [], []⟩ v place)
    (hix : IndexRep d.L S.opp opp fun j => v b S.opp j ≠ []) {t : SweptLevels (Resting ι)}
    (ht : sweepLevels Resting.amount Resting.less (crossing d.L S aggIdx)
      (absSide pool.slots session owner (v b S.opp)) (pool.slots agg).qty.toNat maxFills = t) :
    ∃ st' v' place', matchOrders d S session agg aggIdx maxFills pool opp = .ok st' ∧
      Served d fl session b S.opp agg owner ⟨pool, opp, [], []⟩ v place t.taken t.demand t.levels
        st' v' place' ∧
      IndexRep d.L S.opp st'.opp fun j => v' b S.opp j ≠ [] := by
  have hlen := length_crossing_le d.L S aggIdx
  refine matchLoop_spec (d.L + 1) maxFills hm hix (crossing_sorted d.L S aggIdx)
    (fun j hj => ?_) (fun j hj hr => ?_) (by omega) ht
  · rw [mem_crossing, crosses_iff] at hj
    exact hj
  · rw [mem_crossing, crosses_iff]
    exact ⟨hix.lt j hj, hr⟩

end Outer

end LiteExchange.Book

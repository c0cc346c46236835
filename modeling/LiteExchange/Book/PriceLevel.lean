/-
  The intrusive FIFO queue of a price level (`book/price_level.hpp`), threaded through the
  `nextIdx` and `prevIdx` of the arena's records.

  `LevelRep base l xs` says that the level `l` represents the slot list `xs`: head and tail
  indices, both link directions, `order_count` and `total_qty` (modulo `2^32`). Each operation
  is shown to succeed on a represented level and to represent the list it should:
  `pushBack_rep`, `popFront_rep`, `remove_rep`. `levelRep_congr` is the frame rule, and
  `level_queue_with_frame` puts both together for the levels that share an arena (`Family`).
-/
import LiteExchange.Lib.Linked
import LiteExchange.Book.Pool

namespace LiteExchange.Book

open Lib Proto

structure PriceLevel where
  headIdx : Nat
  tailIdx : Nat
  orderCount : UInt32
  totalQty : UInt32
  deriving DecidableEq, Repr

def PriceLevel.init : PriceLevel := ⟨nullIdx, nullIdx, 0, 0⟩

def PriceLevel.empty (l : PriceLevel) : Bool := l.headIdx == nullIdx

/-- `push_back(idx, base)`. -/
def PriceLevel.pushBack (N : Nat) (l : PriceLevel) (idx : Nat) (base : Nat → Order) :
    Except Fault (PriceLevel × (Nat → Order)) := do
  let o ← fetch N base idx
  let base ← store N base idx { o with prevIdx := l.tailIdx, nextIdx := nullIdx }
  let l' := { l with tailIdx := idx, orderCount := l.orderCount + 1, totalQty := l.totalQty + o.qty }
  if l.tailIdx ≠ nullIdx then
    let t ← fetch N base l.tailIdx
    let base ← store N base l.tailIdx { t with nextIdx := idx }
    return (l', base)
  else
    return ({ l' with headIdx := idx }, base)

/-- `pop_front(base)`; the first component is the returned index. -/
def PriceLevel.popFront (N : Nat) (l : PriceLevel) (base : Nat → Order) :
    Except Fault (Nat × PriceLevel × (Nat → Order)) :=
  if l.headIdx = nullIdx then .ok (nullIdx, l, base)
  else do
    let o ← fetch N base l.headIdx
    let l' := { l with headIdx := o.nextIdx, orderCount := l.orderCount - 1,
                       totalQty := l.totalQty - o.qty }
    if o.nextIdx ≠ nullIdx then
      let h ← fetch N base o.nextIdx
      let base ← store N base o.nextIdx { h with prevIdx := nullIdx }
      return (l.headIdx, l', base)
    else
      return (l.headIdx, { l' with tailIdx := nullIdx }, base)

/-- `remove(idx, base)`. The record is read through a reference, so its links are read again
    after the predecessor has been written. -/
def PriceLevel.remove (N : Nat) (l : PriceLevel) (idx : Nat) (base : Nat → Order) :
    Except Fault (PriceLevel × (Nat → Order)) := do
  let o ← fetch N base idx
  let (l, base) ← (if o.prevIdx ≠ nullIdx then do
      let p ← fetch N base o.prevIdx
      let base ← store N base o.prevIdx { p with nextIdx := o.nextIdx }
      return (l, base)
    else
      return ({ l with headIdx := o.nextIdx }, base))
  let o ← fetch N base idx
  let (l, base) ← (if o.nextIdx ≠ nullIdx then do
      let n ← fetch N base o.nextIdx
      let base ← store N base o.nextIdx { n with prevIdx := o.prevIdx }
      return (l, base)
    else
      return ({ l with tailIdx := o.prevIdx }, base))
  let o ← fetch N base idx
  return ({ l with orderCount := l.orderCount - 1, totalQty := l.totalQty - o.qty }, base)

/-! ## Representation -/

/-- The link fields of the records. -/
def nexts (base : Nat → Order) : Nat → Nat := fun i => (base i).nextIdx

def prevs (base : Nat → Order) : Nat → Nat := fun i => (base i).prevIdx

/-- The level `l` represents the slot list `xs`. -/
structure LevelRep (base : Nat → Order) (l : PriceLevel) (xs : List Nat) : Prop where
  links : DList (nexts base) (prevs base) nullIdx xs
  head : l.headIdx = xs.headD nullIdx
  tail : l.tailIdx = xs.getLastD nullIdx
  count : l.orderCount = UInt32.ofNat xs.length
  total : l.totalQty = (xs.map fun s => (base s).qty).sum

theorem levelRep_init (base : Nat → Order) : LevelRep base PriceLevel.init [] :=
  ⟨dlist_nil, rfl, rfl, rfl, rfl⟩

theorem levelRep_congr {base base' : Nat → Order} {l : PriceLevel} {xs : List Nat}
    (h : ∀ s ∈ xs, (base' s).nextIdx = (base s).nextIdx ∧ (base' s).prevIdx = (base s).prevIdx ∧
      (base' s).qty = (base s).qty) (hl : LevelRep base l xs) : LevelRep base' l xs where
  links := dlist_congr (fun s hs => ⟨(h s hs).1, (h s hs).2.1⟩) hl.links
  head := hl.head
  tail := hl.tail
  count := hl.count
  total := by
    rw [hl.total]
    exact congrArg List.sum (List.map_congr_left fun s hs => (h s hs).2.2.symm)

theorem LevelRep.empty_iff {base : Nat → Order} {l : PriceLevel} {xs : List Nat}
    (hl : LevelRep base l xs) : l.empty = true ↔ xs = [] := by
  rw [PriceLevel.empty, beq_iff_eq, hl.head, headD_eq_nil_iff hl.links.nil_notMem]

theorem LevelRep.head_cons {base : Nat → Order} {l : PriceLevel} {x : Nat} {xs : List Nat}
    (hl : LevelRep base l (x :: xs)) : l.headIdx = x := hl.head

/-! ## Frames -/

/-- The part of a record that is not a link. -/
def Order.data (o : Order) : Order := { o with nextIdx := 0, prevIdx := 0 }

/-- `base'` differs from `base` at most in the links of the slots of `xs`. -/
structure LinkFrame (xs : List Nat) (base base' : Nat → Order) : Prop where
  data : ∀ s, (base' s).data = (base s).data
  outside : ∀ s, s ∉ xs → base' s = base s

theorem LinkFrame.refl (xs : List Nat) (base : Nat → Order) : LinkFrame xs base base :=
  ⟨fun _ => rfl, fun _ _ => rfl⟩

theorem LinkFrame.trans {xs : List Nat} {base base' base'' : Nat → Order}
    (h₁ : LinkFrame xs base base') (h₂ : LinkFrame xs base' base'') : LinkFrame xs base base'' :=
  ⟨fun s => (h₂.data s).trans (h₁.data s), fun s hs => (h₂.outside s hs).trans (h₁.outside s hs)⟩

theorem LinkFrame.mono {xs ys : List Nat} {base base' : Nat → Order}
    (h : LinkFrame xs base base') (hsub : ∀ s ∈ xs, s ∈ ys) : LinkFrame ys base base' :=
  ⟨h.data, fun s hs => h.outside s fun hx => hs (hsub s hx)⟩

theorem linkFrame_update {xs : List Nat} {base : Nat → Order} {i : Nat} {o : Order}
    (hi : i ∈ xs) (ho : o.data = (base i).data) :
    LinkFrame xs base (Function.update base i o) where
  data := fun s => by
    by_cases hs : s = i
    · rw [hs, Function.update_self]; exact ho
    · rw [Function.update_of_ne hs]
  outside := fun s hs => Function.update_of_ne (fun e : s = i => hs (e ▸ hi)) ..

section Fields

variable {o o' : Order} (h : o'.data = o.data)
include h

theorem orderId_of_data : o'.orderId = o.orderId :=
  show o'.data.orderId = o.data.orderId from congrArg Order.orderId h

theorem price_of_data : o'.price = o.price :=
  show o'.data.price = o.data.price from congrArg Order.price h

theorem qty_of_data : o'.qty = o.qty :=
  show o'.data.qty = o.data.qty from congrArg Order.qty h

theorem side_of_data : o'.side = o.side :=
  show o'.data.side = o.data.side from congrArg Order.side h

theorem tif_of_data : o'.tif = o.tif :=
  show o'.data.tif = o.data.tif from congrArg Order.tif h

end Fields

/-- A level none of whose slots were touched still represents its list. -/
theorem levelRep_frame {base base' : Nat → Order} {l : PriceLevel} {xs ys : List Nat}
    (hf : LinkFrame ys base base') (hd : ∀ s ∈ xs, s ∉ ys) (hl : LevelRep base l xs) :
    LevelRep base' l xs :=
  levelRep_congr (fun s hs => by rw [hf.outside s (hd s hs)]; exact ⟨rfl, rfl, rfl⟩) hl

theorem sum_qty_of_data {base base' : Nat → Order} (h : ∀ s, (base' s).data = (base s).data)
    (xs : List Nat) : (xs.map fun s => (base' s).qty).sum = (xs.map fun s => (base s).qty).sum :=
  congrArg List.sum (List.map_congr_left fun s _ => qty_of_data (h s))

/-! ## The operations -/

section Operations

variable {N : Nat} {base : Nat → Order} {l : PriceLevel} {xs ys : List Nat} {i : Nat}

theorem nexts_update (i : Nat) (o : Order) :
    nexts (Function.update base i o) = Function.update (nexts base) i o.nextIdx := by
  funext s
  by_cases h : s = i
  · subst h; simp [nexts]
  · simp [nexts, Function.update_of_ne h]

theorem prevs_update (i : Nat) (o : Order) :
    prevs (Function.update base i o) = Function.update (prevs base) i o.prevIdx := by
  funext s
  by_cases h : s = i
  · subst h; simp [prevs]
  · simp [prevs, Function.update_of_ne h]

/-- `push_back` of a slot on no list appends it. -/
theorem pushBack_rep (hN : N ≤ nullIdx) (hl : LevelRep base l xs) (hxs : ∀ s ∈ xs, s < N)
    (hi : i < N) (hix : i ∉ xs) :
    ∃ l' base', l.pushBack N i base = .ok (l', base') ∧ LevelRep base' l' (xs ++ [i]) ∧
      LinkFrame (xs ++ [i]) base base' := by
  have hdl := dlist_linkBack hl.links hix (by omega : i ≠ nullIdx)
  have hcount : l.orderCount + 1 = UInt32.ofNat (xs ++ [i]).length := by
    rw [hl.count, List.length_append, List.length_singleton, UInt32.ofNat_add]; rfl
  have hsum : l.totalQty + (base i).qty = ((xs ++ [i]).map fun s => (base s).qty).sum := by
    rw [hl.total, List.map_append, List.sum_append]; simp
  unfold PriceLevel.pushBack
  rw [fetch_of_lt _ hi, ok_bind, store_of_lt _ _ hi, ok_bind]
  dsimp only
  have hf1 : LinkFrame (xs ++ [i]) base
      (Function.update base i { base i with prevIdx := l.tailIdx, nextIdx := nullIdx }) :=
    linkFrame_update (by simp) rfl
  by_cases ht : l.tailIdx = nullIdx
  · rw [if_neg (by simpa using ht), pure_eq_ok]
    have hnil : xs = [] := (getLastD_eq_nil_iff hl.links.nil_notMem).mp (hl.tail ▸ ht)
    refine ⟨_, _, rfl, ⟨?_, ?_, by simp, hcount, ?_⟩, hf1⟩
    · rw [nexts_update, prevs_update]
      subst hnil
      simpa [linkBackNext, ht] using hdl
    · subst hnil; rfl
    · exact hsum.trans (sum_qty_of_data hf1.data _).symm
  · have htl : l.tailIdx < N := hxs _ (by
      rw [hl.tail] at ht ⊢
      rcases List.eq_nil_or_concat xs with rfl | ⟨as, a, rfl⟩
      · exact absurd rfl ht
      · simp)
    rw [if_pos ht, fetch_of_lt _ htl, ok_bind, store_of_lt _ _ htl, ok_bind, pure_eq_ok]
    set base1 := Function.update base i { base i with prevIdx := l.tailIdx, nextIdx := nullIdx }
    have hmem : l.tailIdx ∈ xs ++ [i] := by
      rw [hl.tail] at ht ⊢
      rcases List.eq_nil_or_concat xs with rfl | ⟨as, a, rfl⟩
      · exact absurd rfl ht
      · simp
    have hf2 : LinkFrame (xs ++ [i]) base1
        (Function.update base1 l.tailIdx { base1 l.tailIdx with nextIdx := i }) :=
      linkFrame_update hmem rfl
    have hne : xs ≠ [] := fun e => ht (by rw [hl.tail, e]; rfl)
    refine ⟨_, _, rfl, ⟨?_, ?_, by simp, hcount, ?_⟩, hf1.trans hf2⟩
    · have hp : prevs (Function.update base1 l.tailIdx { base1 l.tailIdx with nextIdx := i }) =
          prevs base1 := by
        rw [prevs_update]; exact Function.update_eq_self ..
      rw [hp, nexts_update, nexts_update, prevs_update]
      have := hdl
      rw [linkBackNext, if_neg (hl.tail ▸ ht), ← hl.tail] at this
      exact this
    · rw [headD_append]
      cases xs with
      | nil => exact absurd rfl hne
      | cons x xs => exact hl.head
    · exact hsum.trans (sum_qty_of_data (hf1.trans hf2).data _).symm

/-- `pop_front` drops the head. -/
theorem popFront_rep (hN : N ≤ nullIdx) (hl : LevelRep base l (i :: xs))
    (hxs : ∀ s ∈ i :: xs, s < N) :
    ∃ l' base', l.popFront N base = .ok (i, l', base') ∧ LevelRep base' l' xs ∧
      LinkFrame xs base base' := by
  have hdl := dlist_unlinkFront hl.links
  have hi : i < N := hxs i List.mem_cons_self
  have hnext : (base i).nextIdx = xs.headD nullIdx := hl.links.linked.2.1
  have hcount : l.orderCount - 1 = UInt32.ofNat xs.length := by
    rw [hl.count, List.length_cons, UInt32.ofNat_add]; simp
  have hsum : l.totalQty - (base i).qty = (xs.map fun s => (base s).qty).sum := by
    rw [hl.total, List.map_cons, List.sum_cons, UInt32.add_comm, UInt32.add_sub_cancel]
  have hhead : l.headIdx = i := hl.head
  unfold PriceLevel.popFront
  rw [if_neg (by rw [hhead]; omega), hhead, fetch_of_lt _ hi, ok_bind]
  dsimp only
  cases xs with
  | nil =>
    rw [if_neg (by simpa using hnext), pure_eq_ok]
    refine ⟨_, _, rfl, ⟨dlist_nil, hnext, rfl, hcount, hsum⟩, LinkFrame.refl _ _⟩
  | cons x xs =>
    have hx : x < N := hxs x (by simp)
    have hnx : (base i).nextIdx = x := hnext
    rw [if_pos (by rw [hnx]; omega), hnx, fetch_of_lt _ hx, ok_bind, store_of_lt _ _ hx, ok_bind,
      pure_eq_ok]
    have hf : LinkFrame (x :: xs) base
        (Function.update base x { base x with prevIdx := nullIdx }) :=
      linkFrame_update List.mem_cons_self rfl
    refine ⟨_, _, rfl, ⟨?_, rfl, ?_, hcount, ?_⟩, hf⟩
    · have hn : nexts (Function.update base x { base x with prevIdx := nullIdx }) = nexts base := by
        rw [nexts_update]; exact Function.update_eq_self ..
      rw [hn, prevs_update]
      rw [List.headD_cons, unlinkFrontPrev, if_neg (by omega)] at hdl
      exact hdl
    · rw [hl.tail, getLastD_cons, getLastD_cons, getLastD_cons]
    · exact hsum.trans (sum_qty_of_data hf.data _).symm

/-- The first half of `remove`: what pointed forward to slot `i` points past it. -/
theorem remove_next (hN : N ≤ nullIdx) (hl : LevelRep base l (xs ++ i :: ys))
    (hxs : ∀ s ∈ xs ++ i :: ys, s < N) :
    ∃ l1 base1, (if (base i).prevIdx ≠ nullIdx then do
        let p ← fetch N base (base i).prevIdx
        let base ← store N base (base i).prevIdx { p with nextIdx := (base i).nextIdx }
        return (l, base)
      else return ({ l with headIdx := (base i).nextIdx }, base) : Except Fault _) =
        .ok (l1, base1) ∧ l1 = { l with headIdx := (xs ++ ys).headD nullIdx } ∧
      nexts base1 = unlinkNext nullIdx i (nexts base) (prevs base) ∧
      prevs base1 = prevs base ∧ base1 i = base i ∧ LinkFrame (xs ++ ys) base base1 := by
  obtain ⟨-, hprev, hnext, -⟩ := linked_append.mp hl.links.linked
  have hix : i ∉ xs := fun h => (List.nodup_append.mp hl.links.nodup).2.2 i h i (by simp) rfl
  rcases List.eq_nil_or_concat xs with rfl | ⟨as, a, rfl⟩
  · have hp : (base i).prevIdx = nullIdx := hprev
    refine ⟨_, base, if_neg (by simpa using hp), ?_, ?_, rfl, rfl, LinkFrame.refl _ _⟩
    · rw [List.nil_append, show (base i).nextIdx = _ from hnext]
    · rw [unlinkNext, if_pos (show prevs base i = nullIdx from hp)]
  · rw [List.concat_eq_append] at *
    have hp : (base i).prevIdx = a := hprev.trans (by simp)
    have ha : a < N := hxs a (by simp)
    have hai : i ≠ a := fun e => hix (by simp [e])
    refine ⟨l, Function.update base a { base a with nextIdx := (base i).nextIdx }, ?_, ?_, ?_,
      ?_, Function.update_of_ne hai .., linkFrame_update (by simp) rfl⟩
    · rw [if_pos (by rw [hp]; omega), hp, fetch_of_lt _ ha, ok_bind, store_of_lt _ _ ha,
        ok_bind, pure_eq_ok]
    · have : l.headIdx = ((as ++ [a]) ++ ys).headD nullIdx := by
        rw [hl.head]; cases as <;> rfl
      rw [← this]
    · rw [nexts_update, unlinkNext, if_neg (by rw [show prevs base i = a from hp]; omega),
        show prevs base i = a from hp]
      rfl
    · rw [prevs_update]; exact Function.update_eq_self ..

/-- The second half, on the arena `base1` the first half leaves: what pointed back to slot `i`
    points past it. -/
theorem remove_prev (hN : N ≤ nullIdx) (hl : LevelRep base l (xs ++ i :: ys))
    (hxs : ∀ s ∈ xs ++ i :: ys, s < N) {base1 : Nat → Order} (hp1 : prevs base1 = prevs base)
    (hi1 : base1 i = base i) (hf1 : LinkFrame (xs ++ ys) base base1) :
    ∃ l2 base2, (if (base i).nextIdx ≠ nullIdx then do
        let n ← fetch N base1 (base i).nextIdx
        let base' ← store N base1 (base i).nextIdx { n with prevIdx := (base i).prevIdx }
        return ({ l with headIdx := (xs ++ ys).headD nullIdx }, base')
      else return ({ l with headIdx := (xs ++ ys).headD nullIdx, tailIdx := (base i).prevIdx },
        base1) : Except Fault _) = .ok (l2, base2) ∧
      l2 = { l with headIdx := (xs ++ ys).headD nullIdx,
                    tailIdx := (xs ++ ys).getLastD nullIdx } ∧
      nexts base2 = nexts base1 ∧ prevs base2 = unlinkPrev nullIdx i (nexts base) (prevs base) ∧
      base2 i = base i ∧ LinkFrame (xs ++ ys) base base2 := by
  obtain ⟨-, hprev, hnext, -⟩ := linked_append.mp hl.links.linked
  have hiy : i ∉ ys := (List.nodup_cons.mp (List.nodup_append.mp hl.links.nodup).2.1).1
  cases ys with
  | nil =>
    have hn : (base i).nextIdx = nullIdx := hnext
    refine ⟨_, base1, if_neg (by simpa using hn), ?_, rfl, ?_, hi1, hf1⟩
    · rw [List.append_nil, show (base i).prevIdx = _ from hprev]
    · rw [hp1, unlinkPrev, if_pos (show nexts base i = nullIdx from hn)]
  | cons y ys =>
    have hn : (base i).nextIdx = y := hnext
    have hy : y < N := hxs y (by simp)
    have hyi : i ≠ y := fun e => hiy (by simp [e])
    refine ⟨{ l with headIdx := (xs ++ y :: ys).headD nullIdx },
      Function.update base1 y { base1 y with prevIdx := (base i).prevIdx }, ?_, ?_, ?_, ?_, ?_,
      hf1.trans (linkFrame_update (by simp) rfl)⟩
    · rw [if_pos (by rw [hn]; omega), hn, fetch_of_lt _ hy, ok_bind, store_of_lt _ _ hy,
        ok_bind, pure_eq_ok]
    · have : l.tailIdx = (xs ++ y :: ys).getLastD nullIdx := by
        rw [hl.tail]; simp
      rw [← this]
    · rw [nexts_update]; exact Function.update_eq_self ..
    · rw [prevs_update, hp1, unlinkPrev, if_neg (by rw [show nexts base i = y from hn]; omega),
        show nexts base i = y from hn]
      rfl
    · rw [Function.update_of_ne hyi, hi1]

/-- `remove` cuts a slot out in place: head, tail, middle and singleton alike. -/
theorem remove_rep (hN : N ≤ nullIdx) (hl : LevelRep base l (xs ++ i :: ys))
    (hxs : ∀ s ∈ xs ++ i :: ys, s < N) :
    ∃ l' base', l.remove N i base = .ok (l', base') ∧ LevelRep base' l' (xs ++ ys) ∧
      LinkFrame (xs ++ ys) base base' := by
  have hdl := dlist_unlink hl.links
  have hi : i < N := hxs i (by simp)
  have hcount : l.orderCount - 1 = UInt32.ofNat (xs ++ ys).length := by
    rw [hl.count, List.length_append, List.length_cons, List.length_append, ← Nat.add_assoc,
      UInt32.ofNat_add]
    simp
  have hsum : l.totalQty - (base i).qty = ((xs ++ ys).map fun s => (base s).qty).sum := by
    rw [hl.total]
    simp only [List.map_append, List.map_cons, List.sum_append, List.sum_cons]
    grind
  obtain ⟨l1, base1, he1, rfl, hn1, hp1, hi1, hf1⟩ := remove_next hN hl hxs
  obtain ⟨l2, base2, he2, rfl, hn2, hp2, hi2, hf2⟩ := remove_prev hN hl hxs hp1 hi1 hf1
  refine ⟨⟨(xs ++ ys).headD nullIdx, (xs ++ ys).getLastD nullIdx, l.orderCount - 1,
    l.totalQty - (base i).qty⟩, base2, ?_, ⟨?_, rfl, rfl, hcount, ?_⟩, hf2⟩
  · unfold PriceLevel.remove
    rw [fetch_of_lt _ hi, ok_bind, he1, ok_bind]
    dsimp only
    rw [fetch_of_lt _ hi, ok_bind, hi1, he2, ok_bind]
    dsimp only
    rw [fetch_of_lt _ hi, ok_bind, hi2, pure_eq_ok]
  · rw [hn2, hn1, hp2]; exact hdl
  · exact hsum.trans (sum_qty_of_data hf2.data _).symm

end Operations

/-! ## Families of levels -/

section Family

variable {N : Nat} {κ : Type} {base base' : Nat → Order} {levels : κ → PriceLevel}
variable {lists : κ → List Nat} {k : κ} {l' : PriceLevel}

/-- Levels threaded through one arena of `N` records by disjoint lists. -/
structure Family (N : Nat) (base : Nat → Order) (levels : κ → PriceLevel)
    (lists : κ → List Nat) : Prop where
  rep : ∀ k, LevelRep base (levels k) (lists k)
  below : ∀ k, ∀ s ∈ lists k, s < N
  disjoint : ∀ k k', k ≠ k' → ∀ s ∈ lists k, s ∉ lists k'

theorem nodup_length_le {N : Nat} {xs : List Nat} (hnd : xs.Nodup) (hlt : ∀ s ∈ xs, s < N) :
    xs.length ≤ N := by
  have hsub : xs ⊆ List.range N := fun s hs => List.mem_range.mpr (hlt s hs)
  have := (hnd.subperm hsub).length_le
  rwa [List.length_range] at this

/-- `order_count` does not wrap: a list has at most as many slots as the arena. -/
theorem Family.count (hf : Family N base levels lists) (hN : N ≤ nullIdx) (k : κ) :
    (levels k).orderCount.toNat = (lists k).length := by
  have hlen := nodup_length_le (hf.rep k).links.nodup (hf.below k)
  rw [(hf.rep k).count]
  refine UInt32.toNat_ofNat_of_lt' ?_
  unfold nullIdx at hN
  change (lists k).length < 2 ^ 32
  omega

theorem Family.alone (hf : Family N base levels lists) {s : Nat} (hs : s ∈ lists k) (k' : κ)
    (hk : k' ≠ k) : s ∉ lists k' := hf.disjoint k k' hk.symm s hs

variable [DecidableEq κ]

/-- Level `k` becomes `l'` and represents `ys`; every other level keeps its list, and records
    change in their links only. -/
structure Requeued (N : Nat) (base : Nat → Order) (levels : κ → PriceLevel)
    (lists : κ → List Nat) (k : κ) (ys : List Nat) (l' : PriceLevel) (base' : Nat → Order) :
    Prop where
  family : Family N base' (Function.update levels k l') (Function.update lists k ys)
  count : l'.orderCount.toNat = ys.length
  total : l'.totalQty = (ys.map fun s => (base s).qty).sum
  data : ∀ s, (base' s).data = (base s).data

/-- The frame rule for one level of a family: its new list has its old slots and slots of no
    list, and only links of those were written. -/
theorem Family.requeue (hf : Family N base levels lists) (hN : N ≤ nullIdx) {ys zs : List Nat}
    (hrep : LevelRep base' l' ys) (hframe : LinkFrame zs base base')
    (hys : ∀ s ∈ ys, s < N ∧ ∀ k', k' ≠ k → s ∉ lists k')
    (hzs : ∀ s ∈ zs, ∀ k', k' ≠ k → s ∉ lists k') :
    Requeued N base levels lists k ys l' base' := by
  have hfam : Family N base' (Function.update levels k l') (Function.update lists k ys) := by
    refine ⟨fun k' => ?_, fun k' s hs => ?_, fun k₁ k₂ hne s hs => ?_⟩
    · by_cases hk : k' = k
      · subst hk
        rw [Function.update_self, Function.update_self]
        exact hrep
      · rw [Function.update_of_ne hk, Function.update_of_ne hk]
        exact levelRep_frame hframe (fun s hs hmem => hzs s hmem k' hk hs) (hf.rep k')
    · by_cases hk : k' = k
      · subst hk
        rw [Function.update_self] at hs
        exact (hys s hs).1
      · rw [Function.update_of_ne hk] at hs
        exact hf.below k' s hs
    · by_cases h₁ : k₁ = k
      · subst h₁
        rw [Function.update_self] at hs
        rw [Function.update_of_ne hne.symm]
        exact (hys s hs).2 k₂ hne.symm
      · rw [Function.update_of_ne h₁] at hs
        by_cases h₂ : k₂ = k
        · subst h₂
          rw [Function.update_self]
          exact fun hmem => (hys s hmem).2 k₁ h₁ hs
        · rw [Function.update_of_ne h₂]
          exact hf.disjoint k₁ k₂ hne s hs
  refine ⟨hfam, ?_, ?_, hframe.data⟩
  · have hcount := hfam.count hN k
    rwa [Function.update_self, Function.update_self] at hcount
  · rw [hrep.total]
    exact sum_qty_of_data hframe.data ys

theorem Family.pushBack (hf : Family N base levels lists) (hN : N ≤ nullIdx) {i : Nat} (hi : i < N)
    (hfresh : ∀ k', i ∉ lists k') :
    ∃ l' base', (levels k).pushBack N i base = .ok (l', base') ∧
      Requeued N base levels lists k (lists k ++ [i]) l' base' := by
  obtain ⟨l', base', hrun, hrep, hframe⟩ :=
    pushBack_rep hN (hf.rep k) (hf.below k) hi (hfresh k)
  have hmem : ∀ s ∈ lists k ++ [i], s < N ∧ ∀ k', k' ≠ k → s ∉ lists k' := by
    intro s hs
    rcases List.mem_append.mp hs with h | h
    · exact ⟨hf.below k s h, hf.alone h⟩
    · rw [List.mem_singleton.mp h]
      exact ⟨hi, fun k' _ => hfresh k'⟩
  exact ⟨l', base', hrun, hf.requeue hN hrep hframe hmem fun s hs => (hmem s hs).2⟩

/-- `pop_front` returns the head, or the sentinel from an empty list, which it leaves alone. -/
theorem Family.popFront (hf : Family N base levels lists) (hN : N ≤ nullIdx) (k : κ) :
    ∃ l' base', (levels k).popFront N base = .ok ((lists k).headD nullIdx, l', base') ∧
      Requeued N base levels lists k (lists k).tail l' base' ∧
      (lists k = [] → l' = levels k ∧ base' = base) := by
  have hrep := hf.rep k
  have hbelow := hf.below k
  have halone := fun s (hs : s ∈ lists k) => hf.alone hs
  cases hxs : lists k with
  | nil =>
    rw [hxs] at hrep
    refine ⟨levels k, base, if_pos hrep.head, ?_, fun _ => ⟨rfl, rfl⟩⟩
    exact hf.requeue hN hrep (LinkFrame.refl [] base) (fun s hs => absurd hs List.not_mem_nil)
      fun s hs => absurd hs List.not_mem_nil
  | cons x xs =>
    rw [hxs] at hrep hbelow halone
    obtain ⟨l', base', hrun, hrep', hframe⟩ := popFront_rep hN hrep hbelow
    refine ⟨l', base', hrun, ?_, fun h => absurd h (List.cons_ne_nil x xs)⟩
    refine hf.requeue hN hrep' hframe (fun s hs => ?_) fun s hs => ?_
    · exact ⟨hbelow s (List.mem_cons_of_mem x hs), halone s (List.mem_cons_of_mem x hs)⟩
    · exact halone s (List.mem_cons_of_mem x hs)

theorem Family.remove (hf : Family N base levels lists) (hN : N ≤ nullIdx) {i : Nat}
    (hi : i ∈ lists k) :
    ∃ l' base', (levels k).remove N i base = .ok (l', base') ∧
      Requeued N base levels lists k ((lists k).erase i) l' base' := by
  have hrep := hf.rep k
  have hbelow := hf.below k
  have halone := fun s (hs : s ∈ lists k) => hf.alone hs
  obtain ⟨xs, ys, -, hsplit, herase⟩ := List.exists_erase_eq hi
  rw [herase]
  rw [hsplit] at hrep hbelow halone
  obtain ⟨l', base', hrun, hrep', hframe⟩ := remove_rep hN hrep hbelow
  have hsub : ∀ s ∈ xs ++ ys, s ∈ xs ++ i :: ys := by
    intro s hs
    rw [List.mem_append] at hs ⊢
    exact hs.imp_right (List.mem_cons_of_mem i)
  refine ⟨l', base', hrun, hf.requeue hN hrep' hframe (fun s hs => ?_) fun s hs => ?_⟩
  · exact ⟨hbelow s (hsub s hs), halone s (hsub s hs)⟩
  · exact halone s (hsub s hs)

/-- On every level of a family: `push_back` of a slot on no list appends it, `pop_front` takes
    the head, `remove` cuts a slot out in place. Each keeps the family, and with it both link
    directions and the list of every other level, and writes no field but links. -/
theorem level_queue_with_frame (N : Nat) (hN : N ≤ nullIdx) (base : Nat → Order)
    (levels : κ → PriceLevel) (lists : κ → List Nat) (hf : Family N base levels lists) (k : κ) :
    (∀ i < N, (∀ k', i ∉ lists k') →
      ∃ l' base', (levels k).pushBack N i base = .ok (l', base') ∧
        Requeued N base levels lists k (lists k ++ [i]) l' base') ∧
    (∃ l' base', (levels k).popFront N base = .ok ((lists k).headD nullIdx, l', base') ∧
      Requeued N base levels lists k (lists k).tail l' base' ∧
      (lists k = [] → l' = levels k ∧ base' = base)) ∧
    ∀ i ∈ lists k, ∃ l' base', (levels k).remove N i base = .ok (l', base') ∧
      Requeued N base levels lists k ((lists k).erase i) l' base' := by
  refine ⟨?_, hf.popFront hN k, ?_⟩
  · intro i hi hfresh
    exact hf.pushBack hN hi hfresh
  · intro i hi
    exact hf.remove hN hi

/-- Four records, threaded into the lists `[0, 2, 1]` and `[3]`. -/
def fourRecords : Nat → Order
  | 0 => { Order.zero with qty := 5, nextIdx := 2, prevIdx := nullIdx }
  | 1 => { Order.zero with qty := 4, nextIdx := nullIdx, prevIdx := 2 }
  | 2 => { Order.zero with qty := 7, nextIdx := 1, prevIdx := 0 }
  | _ => { Order.zero with qty := 9, nextIdx := nullIdx, prevIdx := nullIdx }

def twoLevels (k : Bool) : PriceLevel := if k then ⟨0, 1, 3, 16⟩ else ⟨3, 3, 1, 9⟩

def twoLists (k : Bool) : List Nat := if k then [0, 2, 1] else [3]

/-- Slot 2 is cut out between its neighbours; the other level keeps its list. -/
theorem level_queue_with_frame_two_levels :
    ∃ l' base', (twoLevels true).remove 4 2 fourRecords = .ok (l', base') ∧
      Requeued 4 fourRecords twoLevels twoLists true [0, 1] l' base' := by
  have hf : Family 4 fourRecords twoLevels twoLists := by
    refine ⟨fun k => ?_, by decide, by decide⟩
    cases k with
    | false => exact ⟨⟨⟨rfl, rfl, trivial⟩, by decide, by decide⟩, rfl, rfl, rfl, rfl⟩
    | true =>
      exact ⟨⟨⟨rfl, rfl, rfl, rfl, rfl, rfl, trivial⟩, by decide, by decide⟩, rfl, rfl, rfl, rfl⟩
  exact (level_queue_with_frame 4 (by decide) _ _ _ hf true).2.2 2 (by decide)

end Family

end LiteExchange.Book

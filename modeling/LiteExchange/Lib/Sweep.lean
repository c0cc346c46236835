/-
  Greedy allocation. A demand `d` is served from a queue of items, oldest first, each item
  giving what it has, and in at most `r` pieces (`sweep`). The last item served may keep a
  remainder; it stays at the head of the queue. `sweepLevels` serves a demand from a family
  of queues, visited in a given order.

  * `sweep_demand`, `sweep_tally`, `sweep_room`: nothing is created or lost.
  * `sweep_exhausted`: the service stops only when the demand is met, the pieces are used up,
    or the queue is empty.
  * `sweep_complete_iff`: when the service ends early, read off the queue it starts with.
  * `taken_pairwise`, `taken_full`, `rest_pairwise`: the service follows the order of the queue.
  * `sweepLevels_flatMap`: serving queue after queue is serving their concatenation.
  * `sweepLevels_map`: the service does not depend on names, of items or of queues.
-/
import Mathlib

namespace LiteExchange.Lib

variable {α : Type}

/-- The outcome of a service: the pieces taken, in order, the queue that remains, and the
    demand and the number of pieces left over. -/
structure Swept (α : Type) where
  taken : List (α × Nat)
  rest : List α
  demand : Nat
  room : Nat

/-- Serve the demand `d` from the queue, in at most `r` pieces. `qty` is what an item has and
    `less x k` is the item `x` after it has given `k`. -/
def sweep (qty : α → Nat) (less : α → Nat → α) : List α → Nat → Nat → Swept α
  | [], d, r => ⟨[], [], d, r⟩
  | x :: xs, d, r =>
    if d = 0 ∨ r = 0 then ⟨[], x :: xs, d, r⟩
    else if d < qty x then ⟨[(x, d)], less x d :: xs, 0, r - 1⟩
    else
      let t := sweep qty less xs (d - qty x) (r - 1)
      ⟨(x, qty x) :: t.taken, t.rest, t.demand, t.room⟩

variable {qty : α → Nat} {less : α → Nat → α} {xs ys : List α} {x : α} {d r : Nat}

theorem sweep_stop (h : d = 0 ∨ r = 0) : sweep qty less xs d r = ⟨[], xs, d, r⟩ := by
  cases xs with
  | nil => rfl
  | cons x xs => rw [sweep, if_pos h]

theorem sweep_short (hd : d ≠ 0) (hr : r ≠ 0) (h : d < qty x) :
    sweep qty less (x :: xs) d r = ⟨[(x, d)], less x d :: xs, 0, r - 1⟩ := by
  rw [sweep, if_neg (by omega), if_pos h]

theorem sweep_full (hd : d ≠ 0) (hr : r ≠ 0) (h : qty x ≤ d) :
    sweep qty less (x :: xs) d r =
      ⟨(x, qty x) :: (sweep qty less xs (d - qty x) (r - 1)).taken,
        (sweep qty less xs (d - qty x) (r - 1)).rest,
        (sweep qty less xs (d - qty x) (r - 1)).demand,
        (sweep qty less xs (d - qty x) (r - 1)).room⟩ := by
  rw [sweep, if_neg (by omega), if_neg (by omega)]

/-- The three ways the service of a non-empty queue starts. -/
theorem sweep_cases (qty : α → Nat) (x : α) (d r : Nat) :
    (d = 0 ∨ r = 0) ∨ (d ≠ 0 ∧ r ≠ 0 ∧ d < qty x) ∨ (d ≠ 0 ∧ r ≠ 0 ∧ qty x ≤ d) := by
  omega

/-! ## Conservation -/

theorem sweep_demand : ((sweep qty less xs d r).taken.map Prod.snd).sum +
    (sweep qty less xs d r).demand = d := by
  induction xs generalizing d r with
  | nil => simp [sweep]
  | cons x xs ih =>
    rcases sweep_cases qty x d r with h | ⟨hd, hr, h⟩ | ⟨hd, hr, h⟩
    · rw [sweep_stop h]; simp
    · rw [sweep_short hd hr h]; simp
    · rw [sweep_full hd hr h]
      have := ih (d := d - qty x) (r := r - 1)
      simp only [List.map_cons, List.sum_cons]
      omega

/-- What the items with `p` have together. -/
def tally (qty : α → Nat) (p : α → Bool) (xs : List α) : Nat := ((xs.filter p).map qty).sum

@[simp] theorem tally_nil (p : α → Bool) : tally qty p [] = 0 := rfl

theorem tally_cons (p : α → Bool) (x : α) (xs : List α) :
    tally qty p (x :: xs) = (if p x then qty x else 0) + tally qty p xs := by
  cases h : p x <;> simp [tally, h]

theorem tally_append (p : α → Bool) (xs ys : List α) :
    tally qty p (xs ++ ys) = tally qty p xs + tally qty p ys := by
  simp [tally]

theorem tally_map {β : Type} (f : β → α) (p : α → Bool) (xs : List β) :
    tally qty p (xs.map f) = tally (fun x => qty (f x)) (fun x => p (f x)) xs := by
  rw [tally, tally, List.filter_map, List.map_map]
  rfl

theorem tally_eq_zero (p : α → Bool) {xs : List α} (h : ∀ x ∈ xs, p x = false) :
    tally qty p xs = 0 := by
  rw [tally, List.filter_eq_nil_iff.mpr fun x hx => by simp [h x hx]]
  rfl

theorem tally_pos {p : α → Bool} {xs : List α} {x : α} (hx : x ∈ xs) (hp : p x = true)
    (hq : 0 < qty x) : 0 < tally qty p xs :=
  Nat.lt_of_lt_of_le hq
    (List.le_sum_of_mem (List.mem_map_of_mem (List.mem_filter.mpr ⟨hx, hp⟩)))

theorem tally_congr {f : α → Nat} {p p' : α → Bool} {xs : List α} (hp : ∀ x ∈ xs, p x = p' x)
    (hf : ∀ x ∈ xs, qty x = f x) : tally qty p xs = tally f p' xs := by
  rw [tally, tally, List.filter_congr hp]
  exact congrArg List.sum (List.map_congr_left fun x hx => hf x (List.mem_of_mem_filter hx))

theorem tally_eq_sum (p : α → Bool) {xs : List α} (h : ∀ x ∈ xs, p x = true) :
    tally qty p xs = (xs.map qty).sum := by
  rw [tally, List.filter_eq_self.mpr h]

theorem tally_flatMap {β : Type} (p : α → Bool) (f : β → List α) (is : List β) :
    tally qty p (is.flatMap f) = (is.map fun i => tally qty p (f i)).sum := by
  induction is with
  | nil => rfl
  | cons i is ih => rw [List.flatMap_cons, tally_append, ih, List.map_cons, List.sum_cons]

/-- Items with `p` give up what is taken from them. -/
theorem sweep_tally (p : α → Bool) (hp : ∀ x k, p (less x k) = p x)
    (hless : ∀ x k, k ≤ qty x → qty (less x k) = qty x - k) :
    tally Prod.snd (fun t => p t.1) (sweep qty less xs d r).taken +
      tally qty p (sweep qty less xs d r).rest = tally qty p xs := by
  induction xs generalizing d r with
  | nil => simp [sweep]
  | cons x xs ih =>
    rcases sweep_cases qty x d r with h | ⟨hd, hr, h⟩ | ⟨hd, hr, h⟩
    · rw [sweep_stop h, tally_nil, Nat.zero_add]
    · rw [sweep_short hd hr h]
      simp only [tally_cons, tally_nil, hp, hless x d (Nat.le_of_lt h)]
      split <;> omega
    · rw [sweep_full hd hr h]
      have := @ih (d - qty x) (r - 1)
      simp only [tally_cons]
      omega

theorem sweep_room : (sweep qty less xs d r).taken.length + (sweep qty less xs d r).room = r := by
  induction xs generalizing d r with
  | nil => simp [sweep]
  | cons x xs ih =>
    rcases sweep_cases qty x d r with h | ⟨hd, hr, h⟩ | ⟨hd, hr, h⟩
    · rw [sweep_stop h]; simp
    · rw [sweep_short hd hr h]; simp only [List.length_singleton]; omega
    · rw [sweep_full hd hr h]
      have := ih (d := d - qty x) (r := r - 1)
      simp only [List.length_cons]
      omega

/-- The service stops only when nothing is demanded, no piece is left, or the queue is empty. -/
theorem sweep_exhausted : (sweep qty less xs d r).demand = 0 ∨
    (sweep qty less xs d r).room = 0 ∨ (sweep qty less xs d r).rest = [] := by
  induction xs generalizing d r with
  | nil => simp [sweep]
  | cons x xs ih =>
    rcases sweep_cases qty x d r with h | ⟨hd, hr, h⟩ | ⟨hd, hr, h⟩
    · rw [sweep_stop h]; rcases h with h | h <;> simp [h]
    · rw [sweep_short hd hr h]; simp
    · rw [sweep_full hd hr h]; exact ih

/-! ## Which items are served -/

/-- Each piece comes from an item of the queue and is no larger than what the item has. -/
theorem mem_taken {t : α × Nat} (h : t ∈ (sweep qty less xs d r).taken) :
    t.1 ∈ xs ∧ t.2 ≤ qty t.1 := by
  induction xs generalizing d r with
  | nil => simp [sweep] at h
  | cons x xs ih =>
    rcases sweep_cases qty x d r with hc | ⟨hd, hr, hc⟩ | ⟨hd, hr, hc⟩
    · rw [sweep_stop hc] at h; cases h
    · rw [sweep_short hd hr hc] at h
      rw [List.mem_singleton.mp h]
      exact ⟨List.mem_cons_self, Nat.le_of_lt hc⟩
    · rw [sweep_full hd hr hc] at h
      rcases List.mem_cons.mp h with rfl | h
      · exact ⟨List.mem_cons_self, Nat.le_refl _⟩
      · exact ⟨List.mem_cons_of_mem x (ih h).1, (ih h).2⟩

/-- The items are served in the order of the queue, from its head. -/
theorem map_fst_taken (qty : α → Nat) (less : α → Nat → α) (xs : List α) (d r : Nat) :
    (sweep qty less xs d r).taken.map Prod.fst <+: xs := by
  induction xs generalizing d r with
  | nil => exact List.nil_prefix
  | cons x xs ih =>
    rcases sweep_cases qty x d r with hc | ⟨hd, hr, hc⟩ | ⟨hd, hr, hc⟩
    · rw [sweep_stop hc]
      exact List.nil_prefix
    · rw [sweep_short hd hr hc]
      exact ⟨xs, rfl⟩
    · rw [sweep_full hd hr hc]
      exact (List.prefix_cons_inj x).mpr (ih _ _)

/-- The items are served in the order of the queue. -/
theorem taken_pairwise {R : α → α → Prop} (hR : xs.Pairwise R) :
    (sweep qty less xs d r).taken.Pairwise fun t u => R t.1 u.1 :=
  List.pairwise_map.mp (hR.sublist (map_fst_taken qty less xs d r).sublist)

/-- An item ahead of one that is served gives all it has. -/
theorem taken_full {R : α → α → Prop} (hasymm : ∀ x y, R x y → ¬ R y x) (hR : xs.Pairwise R)
    {t : α × Nat} (ht : t ∈ (sweep qty less xs d r).taken) {y : α} (hy : y ∈ xs) (hyt : R y t.1) :
    (y, qty y) ∈ (sweep qty less xs d r).taken := by
  induction xs generalizing d r with
  | nil => cases hy
  | cons x xs ih =>
    rw [List.pairwise_cons] at hR
    -- nothing is ahead of the head
    have hhead : t.1 ≠ x := by
      rintro rfl
      rcases List.mem_cons.mp hy with rfl | hy
      · exact hasymm _ _ hyt hyt
      · exact hasymm _ _ hyt (hR.1 y hy)
    rcases sweep_cases qty x d r with hc | ⟨hd, hr, hc⟩ | ⟨hd, hr, hc⟩
    · rw [sweep_stop hc] at ht
      cases ht
    · rw [sweep_short hd hr hc] at ht
      exact absurd (congrArg Prod.fst (List.mem_singleton.mp ht)) hhead
    · rw [sweep_full hd hr hc] at ht ⊢
      rcases List.mem_cons.mp ht with rfl | ht
      · exact absurd rfl hhead
      · rcases List.mem_cons.mp hy with rfl | hy
        · exact List.mem_cons_self
        · exact List.mem_cons_of_mem _ (ih hR.2 ht hy)

/-- An item that has given something keeps its place. -/
theorem rest_pairwise {R : α → α → Prop} (hless : ∀ x k y, R x y → R (less x k) y)
    (hR : xs.Pairwise R) : (sweep qty less xs d r).rest.Pairwise R := by
  induction xs generalizing d r with
  | nil => exact hR
  | cons x xs ih =>
    rcases sweep_cases qty x d r with hc | ⟨hd, hr, hc⟩ | ⟨hd, hr, hc⟩
    · rw [sweep_stop hc]
      exact hR
    · rw [sweep_short hd hr hc]
      rw [List.pairwise_cons] at hR ⊢
      exact ⟨fun y hy => hless x d y (hR.1 y hy), hR.2⟩
    · rw [sweep_full hd hr hc]
      exact ih hR.of_cons

/-- What all items have, and keep when they give something, the items left have. -/
theorem rest_forall {P : α → Prop} (hless : ∀ x k, P x → P (less x k)) (hP : ∀ x ∈ xs, P x) :
    ∀ x ∈ (sweep qty less xs d r).rest, P x := by
  induction xs generalizing d r with
  | nil => exact hP
  | cons x xs ih =>
    rcases sweep_cases qty x d r with hc | ⟨hd, hr, hc⟩ | ⟨hd, hr, hc⟩
    · rw [sweep_stop hc]
      exact hP
    · rw [sweep_short hd hr hc]
      rw [List.forall_mem_cons] at hP ⊢
      exact ⟨hless x d hP.1, hP.2⟩
    · rw [sweep_full hd hr hc]
      exact ih (List.forall_mem_cons.mp hP).2

/-- No piece is empty when no item is. -/
theorem taken_pos (hpos : ∀ x ∈ xs, 0 < qty x) {t : α × Nat}
    (h : t ∈ (sweep qty less xs d r).taken) : 0 < t.2 := by
  induction xs generalizing d r with
  | nil => simp [sweep] at h
  | cons x xs ih =>
    rcases sweep_cases qty x d r with hc | ⟨hd, hr, hc⟩ | ⟨hd, hr, hc⟩
    · rw [sweep_stop hc] at h; cases h
    · rw [sweep_short hd hr hc] at h
      rw [List.mem_singleton.mp h]
      exact Nat.pos_of_ne_zero hd
    · rw [sweep_full hd hr hc] at h
      rcases List.mem_cons.mp h with rfl | h
      · exact hpos x List.mem_cons_self
      · exact ih (fun y hy => hpos y (List.mem_cons_of_mem x hy)) h

/-- The service ends with the demand met or the queue empty exactly when the pieces suffice
    for the whole queue, or the items they suffice for meet the demand. -/
theorem sweep_complete_iff : (sweep qty less xs d r).demand = 0 ∨
    (sweep qty less xs d r).rest = [] ↔
      xs.length ≤ r ∨ d ≤ ((xs.take r).map qty).sum := by
  induction xs generalizing d r with
  | nil => simp [sweep]
  | cons x xs ih =>
    rcases sweep_cases qty x d r with hc | ⟨hd, hr, hc⟩ | ⟨hd, hr, hc⟩
    · rw [sweep_stop hc]
      simp only [reduceCtorEq, or_false, List.length_cons]
      rcases hc with rfl | rfl <;> simp
    · rw [sweep_short hd hr hc]
      obtain ⟨r, rfl⟩ := Nat.exists_eq_succ_of_ne_zero hr
      simp only [true_or, true_iff, List.take_succ_cons, List.map_cons, List.sum_cons]
      right
      omega
    · rw [sweep_full hd hr hc]
      obtain ⟨r, rfl⟩ := Nat.exists_eq_succ_of_ne_zero hr
      simp only [Nat.succ_eq_add_one, Nat.add_sub_cancel, ih, List.length_cons,
        List.take_succ_cons, List.map_cons, List.sum_cons]
      omega

/-! ## Families of queues -/

theorem sweep_append : sweep qty less (xs ++ ys) d r =
    ⟨(sweep qty less xs d r).taken ++ (sweep qty less ys (sweep qty less xs d r).demand
        (sweep qty less xs d r).room).taken,
      (sweep qty less xs d r).rest ++ (sweep qty less ys (sweep qty less xs d r).demand
        (sweep qty less xs d r).room).rest,
      (sweep qty less ys (sweep qty less xs d r).demand (sweep qty less xs d r).room).demand,
      (sweep qty less ys (sweep qty less xs d r).demand (sweep qty less xs d r).room).room⟩ := by
  induction xs generalizing d r with
  | nil => simp [sweep]
  | cons x xs ih =>
    rw [List.cons_append]
    rcases sweep_cases qty x d r with hc | ⟨hd, hr, hc⟩ | ⟨hd, hr, hc⟩
    · rw [sweep_stop hc, sweep_stop hc, sweep_stop hc]; simp
    · rw [sweep_short hd hr hc, sweep_short hd hr hc, sweep_stop (Or.inl rfl)]; simp
    · rw [sweep_full hd hr hc, sweep_full hd hr hc, ih]; simp

/-- The outcome of a service from a family of queues. -/
structure SweptLevels (α : Type) where
  taken : List (α × Nat)
  levels : Nat → List α
  demand : Nat
  room : Nat

/-- Serve the demand from the queues `lv i`, `i` running through the list in order. -/
def sweepLevels (qty : α → Nat) (less : α → Nat → α) :
    List Nat → (Nat → List α) → Nat → Nat → SweptLevels α
  | [], lv, d, r => ⟨[], lv, d, r⟩
  | i :: is, lv, d, r =>
    let t := sweep qty less (lv i) d r
    let u := sweepLevels qty less is (Function.update lv i t.rest) t.demand t.room
    ⟨t.taken ++ u.taken, u.levels, u.demand, u.room⟩

variable {is : List Nat} {lv : Nat → List α} {i j : Nat}

theorem sweepLevels_stop (h : d = 0 ∨ r = 0) :
    sweepLevels qty less is lv d r = ⟨[], lv, d, r⟩ := by
  induction is generalizing lv with
  | nil => rfl
  | cons i is ih =>
    simp only [sweepLevels, sweep_stop h, Function.update_eq_self, ih]
    rfl

theorem sweepLevels_cons {t : Swept α} (ht : sweep qty less (lv i) d r = t) {u : SweptLevels α}
    (hu : sweepLevels qty less is (Function.update lv i t.rest) t.demand t.room = u) :
    sweepLevels qty less (i :: is) lv d r = ⟨t.taken ++ u.taken, u.levels, u.demand, u.room⟩ := by
  subst ht hu
  rfl

theorem sweepLevels_skip (h : lv i = []) :
    sweepLevels qty less (i :: is) lv d r = sweepLevels qty less is lv d r := by
  have hu : Function.update lv i [] = lv := by rw [← h, Function.update_eq_self]
  simp only [sweepLevels, h, sweep, hu, List.nil_append]

theorem sweepLevels_empty (h : ∀ i ∈ is, lv i = []) :
    sweepLevels qty less is lv d r = ⟨[], lv, d, r⟩ := by
  induction is with
  | nil => rfl
  | cons i is ih =>
    rw [sweepLevels_skip (h i List.mem_cons_self)]
    exact ih fun j hj => h j (List.mem_cons_of_mem i hj)

theorem sweepLevels_frame (h : j ∉ is) : (sweepLevels qty less is lv d r).levels j = lv j := by
  induction is generalizing lv d r with
  | nil => rfl
  | cons i is ih =>
    simp only [List.mem_cons, not_or] at h
    simp only [sweepLevels]
    rw [ih h.2, Function.update_of_ne h.1]

/-- What is left at one queue: what a service of some demand leaves of it. -/
theorem sweepLevels_at (hnd : is.Nodup) : ∃ d' r',
    (sweepLevels qty less is lv d r).levels j = (sweep qty less (lv j) d' r').rest := by
  induction is generalizing lv d r with
  | nil => exact ⟨0, 0, by rw [sweep_stop (Or.inl rfl)]; rfl⟩
  | cons i is ih =>
    rw [List.nodup_cons] at hnd
    simp only [sweepLevels]
    by_cases hj : j = i
    · subst hj
      refine ⟨d, r, ?_⟩
      rw [sweepLevels_frame hnd.1, Function.update_self]
    · obtain ⟨d', r', h⟩ := @ih _ _ (Function.update lv i _) hnd.2
      exact ⟨d', r', by rw [h, Function.update_of_ne hj]⟩

/-- Serving queue after queue is serving their concatenation. -/
theorem sweepLevels_flatMap (hnd : is.Nodup) :
    (sweepLevels qty less is lv d r).taken = (sweep qty less (is.flatMap lv) d r).taken ∧
    (sweepLevels qty less is lv d r).demand = (sweep qty less (is.flatMap lv) d r).demand ∧
    (sweepLevels qty less is lv d r).room = (sweep qty less (is.flatMap lv) d r).room ∧
    is.flatMap (sweepLevels qty less is lv d r).levels =
      (sweep qty less (is.flatMap lv) d r).rest := by
  induction is generalizing lv d r with
  | nil => simp [sweepLevels, sweep]
  | cons i is ih =>
    rw [List.nodup_cons] at hnd
    have hfl : ∀ zs, is.flatMap (Function.update lv i zs) = is.flatMap lv := fun zs =>
      List.flatMap_congr fun k hk =>
        Function.update_of_ne (fun e : k = i => hnd.1 (e ▸ hk)) ..
    obtain ⟨h1, h2, h3, h4⟩ := @ih (sweep qty less (lv i) d r).demand
      (sweep qty less (lv i) d r).room (Function.update lv i (sweep qty less (lv i) d r).rest) hnd.2
    rw [hfl] at h1 h2 h3 h4
    simp only [sweepLevels, List.flatMap_cons, sweep_append]
    refine ⟨by rw [h1], h2, h3, ?_⟩
    rw [h4, sweepLevels_frame hnd.1, Function.update_self]

/-! ## Renaming -/

section Renaming

variable {β : Type} {qty' : β → Nat} {less' : β → Nat → β} {f : α → β}

/-- Items that stand for others are served as those are. -/
theorem sweep_map (hqty : ∀ x, qty' (f x) = qty x) (hless : ∀ x k, less' (f x) k = f (less x k))
    (xs : List α) (d r : Nat) :
    sweep qty' less' (xs.map f) d r = ⟨(sweep qty less xs d r).taken.map (Prod.map f id),
      (sweep qty less xs d r).rest.map f, (sweep qty less xs d r).demand,
      (sweep qty less xs d r).room⟩ := by
  induction xs generalizing d r with
  | nil => rfl
  | cons x xs ih =>
    rw [List.map_cons]
    rcases sweep_cases qty x d r with hc | ⟨hd, hr, hc⟩ | ⟨hd, hr, hc⟩
    · rw [sweep_stop hc, sweep_stop hc]
      rfl
    · rw [sweep_short hd hr hc, sweep_short hd hr ((hqty x).symm ▸ hc), hless]
      rfl
    · rw [sweep_full hd hr hc, sweep_full hd hr ((hqty x).symm ▸ hc), hqty, ih]
      rfl

/-- The queues may be renumbered as well. -/
theorem sweepLevels_map (hqty : ∀ x, qty' (f x) = qty x)
    (hless : ∀ x k, less' (f x) k = f (less x k)) {D : Set Nat} {g : Nat → Nat}
    (hg : Set.InjOn g D) {is : List Nat} (his : ∀ i ∈ is, i ∈ D) {lv : Nat → List α}
    {lv' : Nat → List β} (hlv : ∀ i ∈ D, lv' (g i) = (lv i).map f) (d r : Nat) :
    (sweepLevels qty' less' (is.map g) lv' d r).taken =
        (sweepLevels qty less is lv d r).taken.map (Prod.map f id) ∧
      (sweepLevels qty' less' (is.map g) lv' d r).demand =
        (sweepLevels qty less is lv d r).demand ∧
      ∀ i ∈ D, (sweepLevels qty' less' (is.map g) lv' d r).levels (g i) =
        ((sweepLevels qty less is lv d r).levels i).map f := by
  induction is generalizing lv lv' d r with
  | nil => exact ⟨rfl, rfl, hlv⟩
  | cons i is ih =>
    rw [List.forall_mem_cons] at his
    have hhead : sweep qty' less' (lv' (g i)) d r = _ :=
      (congrArg (sweep qty' less' · d r) (hlv i his.1)).trans (sweep_map hqty hless (lv i) d r)
    have hnext : ∀ j ∈ D,
        Function.update lv' (g i) ((sweep qty less (lv i) d r).rest.map f) (g j) =
          (Function.update lv i (sweep qty less (lv i) d r).rest j).map f := by
      intro j hj
      rcases eq_or_ne j i with rfl | hne
      · rw [Function.update_self, Function.update_self]
      · rw [Function.update_of_ne hne, Function.update_of_ne fun he => hne (hg hj his.1 he),
          hlv j hj]
    obtain ⟨htaken, hdemand, hlevels⟩ := ih his.2 hnext (sweep qty less (lv i) d r).demand
      (sweep qty less (lv i) d r).room
    rw [List.map_cons, sweepLevels_cons hhead rfl, sweepLevels_cons rfl rfl]
    refine ⟨?_, hdemand, hlevels⟩
    rw [htaken, List.map_append]

end Renaming

end LiteExchange.Lib

/-
  What the books record more than once agrees. A side of a book has its orders in doubly linked
  lists, one per level, with a count and a total quantity for each, a bitmap of the levels that
  have orders, and the index of the best of them. `sides_consistent`: after every message of a
  run with genuine cancels on at most `2^24` slots, all of these say the same.
-/
import LiteExchange.Engine.Reports

namespace LiteExchange.Engine

open Lib Proto Book

/-! ## One side of a book -/

/-- The level is the list `xs`: followed forwards from the head, with `n` links or more to
    follow, and backwards from the tail, it is read once and ends at the other end. -/
structure LevelSound (base : Nat → Order) (l : PriceLevel) (xs : List Nat) : Prop where
  nodup : xs.Nodup
  forward : ∀ n, xs.length ≤ n → walk (nexts base) nullIdx n l.headIdx = xs
  backward : ∀ n, xs.length ≤ n → walk (prevs base) nullIdx n l.tailIdx = xs.reverse
  tail : l.tailIdx = xs.getLastD nullIdx
  count : l.orderCount.toNat = xs.length
  total : l.totalQty.toNat = (xs.map fun s => (base s).qty.toNat).sum % 2 ^ 32

/-- Level `i` is at least as good for the side as level `j`. -/
def atLeast : SideClass → Nat → Nat → Prop
  | .bid, i, j => j ≤ i
  | .ask, i, j => i ≤ j

/-- The lists `q` are those of one half of a book with `L` levels, its bitmap marks the levels
    that have orders, and its best index is the best of them. -/
structure SideSound (L : Nat) (base : Nat → Order) (S : SideClass) (h : Half)
    (q : Nat → List Nat) : Prop where
  level : ∀ i < L, LevelSound base (h.levels i) (q i)
  occupied : ∀ i < L, bit h.occ i = true ↔ q i ≠ []
  none : h.bestIdx = nullIdx ↔ ∀ i < L, q i = []
  best : h.bestIdx ≠ nullIdx → h.bestIdx < L ∧ q h.bestIdx ≠ [] ∧
    ∀ i < L, q i ≠ [] → atLeast S h.bestIdx i

theorem toNat_sum (qs : List UInt32) : qs.sum.toNat = (qs.map UInt32.toNat).sum % 2 ^ 32 := by
  induction qs with
  | nil => rfl
  | cons q qs ih =>
    rw [List.sum_cons, UInt32.toNat_add, ih, List.map_cons, List.sum_cons]
    omega

section Sound

variable {d : Dims} {fl : Floor} {v : View} {place : Nat → Place}

theorem level_sound (h : FloorRep d fl v place) {b i : Nat} {S : SideClass}
    (hi : i < d.L) :
    LevelSound fl.pool.slots (((fl.books b).half S).levels i) (v b S i) := by
  have hrep := h.threads.levels b S i hi
  have hlen : (v b S i).length < 2 ^ 32 := by
    have hsub : (v b S i).toFinset ⊆ Finset.range d.N := by
      intro s hs
      rw [List.mem_toFinset, h.threads.queued] at hs
      exact Finset.mem_range.mpr (h.threads.lt_of_place (by rw [hs]; simp))
    have hcard := Finset.card_le_card hsub
    rw [List.toFinset_card_of_nodup hrep.links.nodup, Finset.card_range] at hcard
    exact Nat.lt_of_le_of_lt hcard d.maxOrders.toNat_lt
  refine ⟨hrep.links.nodup, fun n hn => ?_, fun n hn => ?_, hrep.tail, ?_, ?_⟩
  · rw [hrep.head]
    exact walk_dlist hrep.links hn
  · rw [hrep.tail]
    exact walk_dlist_back hrep.links hn
  · rw [hrep.count]
    exact UInt32.toNat_ofNat_of_lt' hlen
  · rw [hrep.total, toNat_sum, List.map_map]
    rfl

theorem side_sound (h : FloorRep d fl v place) (b : Nat) (S : SideClass) :
    SideSound d.L fl.pool.slots S ((fl.books b).half S) (v b S) := by
  have hindex := h.index b S
  have hnull := d.L_lt_nullIdx
  refine ⟨fun i hi => level_sound h hi, fun i _ => hindex.occ i, ?_, ?_⟩
  · rcases hindex.best with ⟨hne, -⟩ | ⟨hbest, hnone⟩
    · have hlt := hindex.lt _ hne
      refine ⟨fun he => absurd he (by omega), fun hall => absurd (hall _ hlt) hne⟩
    · exact ⟨fun _ i _ => not_not.mp (hnone i), fun _ => hbest⟩
  · intro hbest
    rcases hindex.best with ⟨hne, hahead⟩ | ⟨hnull', -⟩
    · refine ⟨hindex.lt _ hne, hne, fun i _ hi => ?_⟩
      have hnot := hahead i hi
      cases S with
      | bid => exact Nat.le_of_not_lt hnot
      | ask => exact Nat.le_of_not_lt hnot
    · exact absurd hnull' hbest

end Sound

/-- In a run of fewer than `2^32` messages with genuine cancels, on at most `2^24` slots, every
    side of every book is sound, its lists being those its links spell out. -/
theorem sides_consistent (su : Setup) (hN : su.cfg.N ≤ 2 ^ 24) (msgs : List InboundMsg)
    (hlen : msgs.length < 2 ^ 32)
    (hg : Along (Log.receive su.cfg) Log.Genuine (Log.init su) (numbered msgs)) :
    ∃ lg, run (Log.receive su.cfg) (Log.init su) (numbered msgs) = .ok lg ∧
      ∀ b S, SideSound su.cfg.L lg.shard.floor.pool.slots S ((lg.shard.floor.books b).half S)
        (lg.shard.floor.queue su.cfg.toDims b S) := by
  obtain ⟨lg, dk, lab, v, place, hrun, h⟩ := genuine_run su hN msgs hlen hg
  refine ⟨lg, hrun, fun b S => ?_⟩
  have hrep : FloorRep su.cfg.toDims lg.shard.floor v place := h.floor ▸ h.desk.rep
  rw [← hrep.threads.view_eq]
  exact side_sound hrep b S

/-- A buyer at 103: level 3 of the bids is the best one. -/
theorem sides_consistent_buyer :
    ∃ lg, run (Log.receive smallShard) (Log.init smallSetup)
        (numbered [.newOrder (orderFrom 1 1 Side.buy 103 5)]) = .ok lg ∧
      SideSound 8 lg.shard.floor.pool.slots .bid (lg.shard.floor.books 0).bid
        (lg.shard.floor.queue smallShard.toDims 0 .bid) ∧
      (lg.shard.floor.books 0).bid.bestIdx = 3 := by
  obtain ⟨lg, hrun, hall⟩ := sides_consistent smallSetup (by decide)
    [.newOrder (orderFrom 1 1 Side.buy 103 5)] (by decide) (genuine_of_check (by decide +kernel))
  cases hrun
  exact ⟨_, rfl, hall 0 .bid, rfl⟩

/-- Without the bound on the arena the count of a level goes wrong. The order is put into slot
    `2^24 + 2`; its token names slot 2, and the cancel takes the zero record there off level 0,
    where nothing rests. -/
theorem high_slot_breaks_count :
    ¬ ∀ (su : Setup) (msgs : List InboundMsg), msgs.length < 2 ^ 32 →
      Along (Log.receive su.cfg) Log.Genuine (Log.init su) (numbered msgs) →
      ∃ lg, run (Log.receive su.cfg) (Log.init su) (numbered msgs) = .ok lg ∧
        ∀ b S i, i < su.cfg.L → ∃ xs, LevelSound lg.shard.floor.pool.slots
          (((lg.shard.floor.books b).half S).levels i) xs := by
  intro hall
  obtain ⟨lg, hrun, hsound⟩ := hall wideSetup
    [.newOrder (orderFrom 9 1 Side.sell 30 5), cancelFrom 9 2] (by decide)
    (genuine_of_check (by decide +kernel))
  obtain ⟨xs, hxs⟩ := hsound 0 .bid 0 (by decide)
  have hcode : (run (Log.receive wideSetup.cfg) (Log.init wideSetup)
      (numbered [.newOrder (orderFrom 9 1 Side.sell 30 5), cancelFrom 9 2]) >>= fun lg =>
        .ok (((lg.shard.floor.books 0).bid.levels 0).headIdx,
          ((lg.shard.floor.books 0).bid.levels 0).orderCount)) = .ok (nullIdx, 0xFFFFFFFF) := by
    decide +kernel
  rw [hrun, ok_bind] at hcode
  obtain ⟨hhead, hcount⟩ := Prod.mk.inj (Except.ok.inj hcode)
  -- the list from the sentinel is empty
  have hnil := hxs.forward (xs.length + 1) (Nat.le_succ _)
  rw [show (((lg.shard.floor.books 0).half .bid).levels 0).headIdx = nullIdx from hhead, walk,
    if_pos rfl] at hnil
  have hlen := hxs.count
  rw [show (((lg.shard.floor.books 0).half .bid).levels 0).orderCount = 0xFFFFFFFF from hcount,
    ← hnil] at hlen
  exact absurd hlen (by decide)

end LiteExchange.Engine

/-
  The arena is shared by all books of a shard. `arena_partition`: between any two messages of a
  run with genuine cancels, the free stack and the level lists together hold every slot exactly
  once, and a slot's record belongs on the list it is on. So no slot is lost and none is handed
  out twice.
-/
import LiteExchange.Book.Stack
import LiteExchange.Engine.Log

namespace LiteExchange.Engine

open Lib Proto Book

/-! ## The slots of a floor -/

/-- The levels of `K` books, by book, side and index. -/
def levelKeys (K L : Nat) : List (Nat × SideClass × Nat) :=
  List.range K ×ˢ [SideClass.bid, SideClass.ask] ×ˢ List.range L

/-- The slots on all level lists, list by list. -/
def listedSlots (d : Dims) (K : Nat) (fl : Floor) : List Nat :=
  (levelKeys K d.L).flatMap fun x => fl.queue d x.1 x.2.1 x.2.2

theorem mem_levelKeys {K L b i : Nat} {S : SideClass} :
    (b, S, i) ∈ levelKeys K L ↔ b < K ∧ i < L := by
  have hS : S ∈ [SideClass.bid, SideClass.ask] := by cases S <;> simp
  rw [levelKeys, List.mem_product, List.mem_product, List.mem_range, List.mem_range]
  exact and_congr_right fun _ => and_iff_right hS

theorem levelKeys_nodup (K L : Nat) : (levelKeys K L).Nodup :=
  List.nodup_range.product ((by decide : [SideClass.bid, SideClass.ask].Nodup).product
    List.nodup_range)

section Partition

variable {d : Dims} {fl : Floor} {v : View} {place : Nat → Place} {K : Nat}

theorem stack_nodup (h : Threads d fl v place) : fl.pool.stack.Nodup :=
  List.nodup_range.map_on fun j hj k hk e =>
    h.free_inj j (List.mem_range.mp hj) k (List.mem_range.mp hk) e

theorem mem_listedSlots (h : Threads d fl v place) {s : Nat} :
    s ∈ listedSlots d K fl ↔ ∃ b < K, ∃ S i, place s = .level b S i := by
  rw [listedSlots, ← h.view_eq, List.mem_flatMap]
  constructor
  · rintro ⟨⟨b, S, i⟩, hkey, hs⟩
    exact ⟨b, (mem_levelKeys.mp hkey).1, S, i, (h.queued b S i s).mp hs⟩
  · rintro ⟨b, hb, S, i, hpl⟩
    have hs := (h.queued b S i s).mpr hpl
    exact ⟨(b, S, i), mem_levelKeys.mpr ⟨hb, (h.records b S i s hs).1⟩, hs⟩

theorem listedSlots_nodup (h : Threads d fl v place) : (listedSlots d K fl).Nodup := by
  rw [listedSlots, ← h.view_eq, List.nodup_flatMap]
  refine ⟨fun ⟨b, S, i⟩ hkey => (h.levels b S i (mem_levelKeys.mp hkey).2).links.nodup, ?_⟩
  -- a slot has one place, so two different lists share none
  refine (levelKeys_nodup K d.L).imp fun {x y} hne s hx hy => hne ?_
  obtain ⟨b, S, i⟩ := x
  obtain ⟨b', S', i'⟩ := y
  have hpl := ((h.queued b S i s).mp hx).symm.trans ((h.queued b' S' i' s).mp hy)
  injection hpl with hb hS hi
  rw [hb, hS, hi]

/-- Slots that are not held are free or listed. -/
theorem perm_slots (h : Threads d fl v place) (hheld : ∀ s, place s ≠ .held)
    (hK : ∀ s b S i, place s = .level b S i → b < K) :
    (fl.pool.stack ++ listedSlots d K fl).Perm (List.range d.N) := by
  refine (List.perm_ext_iff_of_nodup ?_ List.nodup_range).mpr fun s => ?_
  · refine List.nodup_append.mpr ⟨stack_nodup h, listedSlots_nodup h, fun s hs t ht e => ?_⟩
    obtain ⟨b, -, S, i, hpl⟩ := (mem_listedSlots h).mp ht
    rw [← e, (mem_stack h).mp hs] at hpl
    cases hpl
  · rw [List.mem_append, mem_stack h, mem_listedSlots h, List.mem_range]
    constructor
    · rintro (hs | ⟨b, -, S, i, hs⟩) <;> exact h.lt_of_place (by rw [hs]; simp)
    · intro hN
      cases hp : place s with
      | free => exact Or.inl rfl
      | held => exact absurd hp (hheld s)
      | outside => exact absurd ((h.outside_iff s).mp hp) (Nat.not_le.mpr hN)
      | level b S i => exact Or.inr ⟨b, hK s b S i hp, S, i, rfl⟩

end Partition

/-! ## Runs -/

/-- A resting record belongs on its list: it has something left, its order was to rest, and its
    side, price and symbol lead there. -/
structure BelongsOn (cfg : ShardConfig) (sh : Shard) (b : Nat) (S : SideClass) (i : Nat)
    (o : Order) : Prop where
  qty_pos : 0 < o.qty
  tif : o.tif ≠ TimeInForce.ioc
  side : o.side.cls = S
  level : ((sh.floor.books b).priceToIdx o.price).toInt = i
  book : sh.localBook cfg o.symbol = b

section Runs

variable {su : Setup} {xs : List (Nat × InboundMsg)} {lg : Log} {dk : Desk} {lab : Nat → Nat}
variable {v : View} {place : Nat → Place}

theorem LogRep.book_lt (h : LogRep su xs lg dk lab v place) {s b i : Nat} {S : SideClass}
    (hpl : place s = .level b S i) : b < su.cfg.K := by
  obtain ⟨-, -, hbook, hne⟩ := h.call_of_slot hpl
  exact hbook ▸ lg.shard.localBook_lt h.table (hbook ▸ hne)

theorem LogRep.belongs (h : LogRep su xs lg dk lab v place) {s b i : Nat} {S : SideClass}
    (hs : s ∈ v b S i) : BelongsOn su.cfg lg.shard b S i (lg.shard.floor.pool.slots s) := by
  have hrec := (h.desk.rep.threads.records b S i s hs).2
  obtain ⟨-, -, hbook, -⟩ := h.call_of_slot ((h.desk.rep.threads.queued b S i s).mp hs)
  rw [← h.floor] at hrec hbook
  refine ⟨hrec.qty_pos, hrec.tif, hrec.side, ?_, hbook⟩
  rw [← Int32.cast_toNatClampNeg _ hrec.idx_nonneg, ← Int32.toNat_toUInt32_of_le hrec.idx_nonneg]
  exact congrArg Nat.cast hrec.level

end Runs

/-- Between any two messages the free stack and the level lists partition the arena, and every
    listed slot holds an order that belongs there. -/
theorem arena_partition (su : Setup) (hN : su.cfg.N ≤ 2 ^ 24) (msgs : List InboundMsg)
    (hlen : msgs.length < 2 ^ 32)
    (hg : Along (Log.receive su.cfg) Log.Genuine (Log.init su) (numbered msgs)) :
    ∃ lg, run (Log.receive su.cfg) (Log.init su) (numbered msgs) = .ok lg ∧
      (lg.shard.floor.pool.stack ++ listedSlots su.cfg.toDims su.cfg.K lg.shard.floor).Perm
        (List.range su.cfg.N) ∧
      (∀ b S i, ∀ s ∈ lg.shard.floor.queue su.cfg.toDims b S i,
        BelongsOn su.cfg lg.shard b S i (lg.shard.floor.pool.slots s)) ∧
      lg.shard.floor.pool.freeTop +
        (listedSlots su.cfg.toDims su.cfg.K lg.shard.floor).length = su.cfg.N := by
  obtain ⟨lg, dk, lab, v, place, hrun, h⟩ := genuine_run su hN msgs hlen hg
  have hthreads : Threads su.cfg.toDims lg.shard.floor v place := h.floor ▸ h.desk.rep.threads
  have hperm := perm_slots hthreads h.desk.settled fun s b S i hpl => h.book_lt hpl
  refine ⟨lg, hrun, hperm, fun b S i s hs => h.belongs (hthreads.view_eq ▸ hs), ?_⟩
  have hcount := hperm.length_eq
  rwa [List.length_append, Pool.stack, List.length_map, List.length_range,
    List.length_range] at hcount

/-- A buyer who rests and cancels: slot 3 is handed out and comes back. -/
theorem arena_partition_buyer :
    ∃ lg, run (Log.receive smallShard) (Log.init smallSetup) (numbered
        [.newOrder (limitOrder 1 Side.buy 103 5), .cancel ⟨⟨16, .cancelOrder, 0, 7⟩, 3⟩]) =
          .ok lg ∧ lg.shard.floor.pool.freeTop +
        (listedSlots smallShard.toDims smallShard.K lg.shard.floor).length = 4 := by
  obtain ⟨lg, hrun, -, -, hcount⟩ := arena_partition smallSetup (by decide)
    [.newOrder (limitOrder 1 Side.buy 103 5), .cancel ⟨⟨16, .cancelOrder, 0, 7⟩, 3⟩] (by decide)
    ⟨trivial, fun lg hlg => by
      cases hlg
      exact ⟨List.mem_singleton.mpr rfl, fun _ _ => trivial⟩⟩
  exact ⟨lg, hrun, hcount⟩

end LiteExchange.Engine

/-
  Matching is exhaustive. `matching_exhaustive`: on a shard whose cancels were all sound, a new
  order that gets a slot is filled completely, or leaves no order it crosses, unless the limit of
  64 fills stopped its match; and as long as that limit stopped none, no book is crossed. The
  tokens of Acks are sound in every run of fewer than `2^32` messages on at most `2^24` slots
  (`genuine_sound`).
-/
import LiteExchange.Book.Crossing
import LiteExchange.Engine.Forged
import LiteExchange.Engine.Market

namespace LiteExchange.Engine

open Lib Proto Book

/-- A new order whose match the limit on fills does not cut short. -/
def Shard.UncutMsg (cfg : ShardConfig) (sh : Shard) : InboundMsg → Prop
  | .newOrder m => sh.localBook cfg m.symbolId ≠ noBook →
      sh.floor.Admits cfg.toDims (sh.localBook cfg m.symbolId) m.price →
      sh.floor.Uncut cfg.toDims (sh.localBook cfg m.symbolId) m maxFillsPerOrder
  | _ => True

/-! ## Tokens of Acks are sound -/

section Sound

variable {su : Setup} {xs : List (Nat × InboundMsg)} {lg : Log} {dk : Desk} {lab : Nat → Nat}
variable {v : View} {place : Nat → Place}

theorem LogRep.sound (h : LogRep su xs lg dk lab v place) (hN : su.cfg.N ≤ 2 ^ 24)
    {token : UInt64} (hc : token ∈ lg.acked) : lg.shard.Sound su.cfg token := by
  obtain ⟨k, hk⟩ := h.acked _ hc
  obtain ⟨j, p, hp, hv, -, htok⟩ := (h.token k _).mp hk
  rw [Shard.Sound, ← htok, h.handle_of_token hN hp hv, h.floor]
  by_cases hgen : dk.floor.pool.gen p.handle.slot = p.handle.gen
  · obtain ⟨-, S, i, hpl⟩ := (h.tagged.past j p hp (h.valid j p hp hv)).2 hgen.symm
    exact Or.inr (Or.inr (Or.inr ⟨p.book, h.desk.rep.rests_iff.mpr ⟨S, i, hpl⟩⟩))
  · exact Or.inr (Or.inl hgen)

/-- The shard of a log runs on the messages alone. -/
theorem run_shard {cfg : ShardConfig} {lg lg' : Log}
    (hrun : run (Log.receive cfg) lg xs = .ok lg') :
    run (Shard.receive cfg) lg.shard (xs.map Prod.snd) = .ok lg'.shard := by
  induction xs generalizing lg with
  | nil =>
    cases hrun
    rfl
  | cons x xs ih =>
    obtain ⟨lg1, hstep, hrun⟩ := bind_eq_ok hrun
    obtain ⟨⟨sh, out⟩, htick, hrec⟩ := bind_eq_ok hstep
    cases hrec
    rw [List.map_cons, run, Shard.receive, htick, ok_bind]
    exact ih hrun

theorem genuine_orders {cfg : ShardConfig} (ms : List (Nat × NewOrder)) (lg : Log) :
    Along (Log.receive cfg) Log.Genuine lg (ms.map fun x => (x.1, .newOrder x.2)) := by
  induction ms generalizing lg with
  | nil => trivial
  | cons x ms ih => exact ⟨trivial, fun lg' _ => ih lg'⟩

theorem genuine_sound (hN : su.cfg.N ≤ 2 ^ 24) {msgs : List InboundMsg}
    (hlen : msgs.length < 2 ^ 32)
    (hg : Along (Log.receive su.cfg) Log.Genuine (Log.init su) (numbered msgs)) :
    Along (Shard.receive su.cfg) (Shard.SoundMsg su.cfg) su.shard msgs := by
  induction msgs using List.reverseRecOn with
  | nil => trivial
  | append_singleton msgs m ih =>
    rw [List.length_append, List.length_singleton] at hlen
    rw [numbered_append] at hg
    obtain ⟨hpre, hlast⟩ := along_append.mp hg
    obtain ⟨lg, dk, lab, v, place, hrun, h⟩ := genuine_run su hN msgs (by omega) hpre
    refine along_append.mpr ⟨ih (by omega) hpre, fun sh hsh => ⟨?_, fun _ _ => trivial⟩⟩
    have hmsgs := numbered_map_snd msgs
    have hshard := run_shard hrun
    rw [hmsgs] at hshard
    obtain rfl : lg.shard = sh := Except.ok.inj (hshard.symm.trans hsh)
    have hm : lg.Genuine (msgs.length, m) := (hlast lg hrun).1
    cases m with
    | newOrder m => trivial
    | cancel c => exact h.sound hN hm
    | other hdr => trivial

end Sound

/-! ## Runs with sound cancels -/

section Step

variable {cfg : ShardConfig} {symbols : SymbolList cfg} {sh : Shard} {v : View}
variable {place : Nat → Place}

/-- How a new order that gets a slot is matched. -/
theorem ShardRep.exhausted (h : ShardRep cfg symbols sh v place) (m : NewOrder)
    (hb : sh.localBook cfg m.symbolId ≠ noBook)
    (hadm : sh.floor.Admits cfg.toDims (sh.localBook cfg m.symbolId) m.price) :
    ∃ r, sh.floor.addOrder cfg.toDims (sh.localBook cfg m.symbolId) m maxFillsPerOrder = .ok r ∧
      sh.receive cfg (.newOrder m) = .ok { sh with floor := r.floor } ∧
      (r.Filled m ∨ r.fills.length = maxFillsPerOrder ∨
        r.Cleared cfg.toDims sh.floor (sh.localBook cfg m.symbolId) m) ∧
      (sh.floor.Uncut cfg.toDims (sh.localBook cfg m.symbolId) m maxFillsPerOrder →
        r.Filled m ∨ r.Cleared cfg.toDims sh.floor (sh.localBook cfg m.symbolId) m) := by
  obtain ⟨r, -, -, hrun, -, -⟩ := addOrder_admitted h.rep (fun _ => ()) () maxFillsPerOrder hadm.1
    hadm.2
  refine ⟨r, hrun, ?_, exhausted_add h.rep hadm hrun⟩
  rw [Shard.receive, Shard.tick, handleNew_hosted hb (sh.localBook_lt h.table hb) hrun, ok_bind]
  rfl

/-- A message whose match is not cut short keeps all books uncrossed. -/
theorem Received.uncrossed {m : InboundMsg} {sh' : Shard} {v' : View} {place' : Nat → Place}
    (hcase : Received cfg sh v m sh' v') (h : ShardRep cfg symbols sh v place)
    (h' : ShardRep cfg symbols sh' v' place') (hm : sh.UncutMsg cfg m)
    (hall : ∀ b, sh.floor.Uncrossed cfg.toDims b) : ∀ b, sh'.floor.Uncrossed cfg.toDims b := by
  cases hcase with
  | kept => exact hall
  | added hadm hb hrun => exact uncrossed_add h.rep hadm hrun (hm hb hadm) hall
  | cancelled hspec => exact uncrossed_cancel h.rep h'.rep hspec hall

/-- The books of a new shard are empty. -/
theorem uncrossed_init (su : Setup) (b : Nat) : su.shard.floor.Uncrossed su.cfg.toDims b := by
  intro i j hi
  have hview := (shardRep_init su.cfg su.basePrice su.tickSize su.shardId
    su.symbols).rep.threads.view_eq
  exact absurd (congrFun (congrFun (congrFun hview b) .bid) i).symm hi

/-- The cached best levels of an uncrossed book. -/
theorem ShardRep.best_lt (h : ShardRep cfg symbols sh v place) {b : Nat}
    (hb : sh.floor.Uncrossed cfg.toDims b) (hbid : (sh.floor.books b).bid.bestIdx ≠ nullIdx)
    (hask : (sh.floor.books b).ask.bestIdx ≠ nullIdx) :
    (sh.floor.books b).bid.bestIdx < (sh.floor.books b).ask.bestIdx := by
  rw [Floor.Uncrossed, ← h.rep.threads.view_eq] at hb
  rcases (h.rep.index b .bid).best with ⟨hnb, -⟩ | ⟨hnull, -⟩
  · rcases (h.rep.index b .ask).best with ⟨hna, -⟩ | ⟨hnull, -⟩
    · exact hb _ _ hnb hna
    · exact absurd hnull hask
  · exact absurd hnull hbid

end Step

/-- Tokens of Acks are sound, in the first `2^32` messages on at most `2^24` slots. After every
    run with sound cancels a new order that gets a slot is filled or clears the levels it
    crosses, unless the limit on fills stops it; and if that limit stopped no order of the run,
    every book's best bid is below its best ask. -/
theorem matching_exhaustive (su : Setup) :
    (∀ msgs, su.cfg.N ≤ 2 ^ 24 → msgs.length < 2 ^ 32 →
      Along (Log.receive su.cfg) Log.Genuine (Log.init su) (numbered msgs) →
      Along (Shard.receive su.cfg) (Shard.SoundMsg su.cfg) su.shard msgs) ∧
    ∀ msgs, Along (Shard.receive su.cfg) (Shard.SoundMsg su.cfg) su.shard msgs →
      ∃ sh, run (Shard.receive su.cfg) su.shard msgs = .ok sh ∧
        (∀ m, sh.localBook su.cfg m.symbolId ≠ noBook →
          sh.floor.Admits su.cfg.toDims (sh.localBook su.cfg m.symbolId) m.price →
          ∃ r, sh.floor.addOrder su.cfg.toDims (sh.localBook su.cfg m.symbolId) m
              maxFillsPerOrder = .ok r ∧
            sh.receive su.cfg (.newOrder m) = .ok { sh with floor := r.floor } ∧
            (r.Filled m ∨ r.fills.length = maxFillsPerOrder ∨
              r.Cleared su.cfg.toDims sh.floor (sh.localBook su.cfg m.symbolId) m) ∧
            (sh.floor.Uncut su.cfg.toDims (sh.localBook su.cfg m.symbolId) m maxFillsPerOrder →
              r.Filled m ∨
                r.Cleared su.cfg.toDims sh.floor (sh.localBook su.cfg m.symbolId) m)) ∧
        (Along (Shard.receive su.cfg) (Shard.UncutMsg su.cfg) su.shard msgs →
          ∀ b, sh.floor.Uncrossed su.cfg.toDims b ∧
            ((sh.floor.books b).bid.bestIdx ≠ nullIdx → (sh.floor.books b).ask.bestIdx ≠ nullIdx →
              (sh.floor.books b).bid.bestIdx < (sh.floor.books b).ask.bestIdx)) := by
  refine ⟨fun msgs hN hlen hg => genuine_sound hN hlen hg, fun msgs hs => ?_⟩
  obtain ⟨sh, v, place, hrun, h⟩ := sound_run su.cfg su.basePrice su.tickSize su.shardId su.symbols
    hs
  refine ⟨sh, hrun, fun m hb hadm => h.exhausted m hb hadm, fun huncut => ?_⟩
  obtain ⟨sh', hrun', hinv⟩ := run_inv
    (I := fun _ sh => (∃ v place, ShardRep su.cfg su.symbols sh v place) ∧
      ∀ b, sh.floor.Uncrossed su.cfg.toDims b) (n := 0)
    (fun n sh m ⟨⟨v, place, h⟩, hall⟩ hm => by
      obtain ⟨sh', v', place', hrun, h', hcase⟩ := h.receive m hm.1
      exact ⟨sh', hrun, ⟨v', place', h'⟩, hcase.uncrossed h h' hm.2 hall⟩)
    ⟨⟨_, _, shardRep_init su.cfg su.basePrice su.tickSize su.shardId su.symbols⟩,
      uncrossed_init su⟩
    (along_and hs huncut)
  obtain rfl : sh = sh' := Except.ok.inj (hrun.symm.trans hrun')
  exact fun b => ⟨hinv.2 b, h.best_lt (hinv.2 b)⟩

/-- A sell of 5 at 103 is in the way of a buy of 3 at 104, which is filled. -/
theorem matching_exhaustive_two_orders :
    ∃ sh, run (Shard.receive smallShard) smallSetup.shard
        [.newOrder (orderFrom 1 1 Side.sell 103 5)] = .ok sh ∧
      (∃ r, sh.floor.addOrder smallShard.toDims 0 (orderFrom 2 2 Side.buy 104 3)
          maxFillsPerOrder = .ok r ∧ r.Filled (orderFrom 2 2 Side.buy 104 3)) ∧
      sh.floor.Uncrossed smallShard.toDims 0 := by
  obtain ⟨hsound, hall⟩ := matching_exhaustive smallSetup
  obtain ⟨sh, hrun, hadd, huncut⟩ := hall _ (hsound [.newOrder (orderFrom 1 1 Side.sell 103 5)]
    (by decide) (by decide) (genuine_of_check (by decide +kernel)))
  cases hrun
  obtain ⟨r, hr, -, -⟩ := hadd (orderFrom 2 2 Side.buy 104 3) (by decide) (by decide)
  cases hr
  refine ⟨_, rfl, ⟨_, rfl, rfl⟩, (huncut ⟨fun _ _ => Or.inl (by decide), fun _ _ => trivial⟩ 0).1⟩

/-- Room for one order. -/
def oneSlot : Setup :=
  ⟨{ maxOrders := 1, ladderSize := 8, words_fit := eight_levels_fit, maxSymbols := 1,
     symbolSpace := 0 }, 100, 1, 0, allSymbols _⟩

/-- Room for 128 orders. -/
def deepSetup : Setup :=
  ⟨{ maxOrders := 128, ladderSize := 8, words_fit := eight_levels_fit, maxSymbols := 1,
     symbolSpace := 0 }, 100, 1, 0, allSymbols _⟩

/-- A buy of 65 meets as many orders to sell 1. -/
def deepOrders : List NewOrder :=
  List.replicate 65 (orderFrom 1 1 Side.sell 103 1) ++ [orderFrom 2 2 Side.buy 103 65]

/-- The buy rests at the level of the last sell: the market of symbol 0 is crossed. -/
theorem deepOrders_crossed : ¬ (deepSetup.market (fun _ => some 0) 0
    ((numbered deepOrders).map fun x => (x.1, .place x.2))).book.Uncrossed := by
  have hcode : (deepSetup.market (fun _ => some 0) 0
        ((numbered deepOrders).map fun x => (x.1, .place x.2))).book .bid 3 ≠ [] ∧
      (deepSetup.market (fun _ => some 0) 0
        ((numbered deepOrders).map fun x => (x.1, .place x.2))).book .ask 3 ≠ [] := by
    decide +kernel
  exact fun h => Nat.lt_irrefl _ (h 3 3 hcode.1 hcode.2)

/-- What two limits of the code leave undone. The buy of 65 stops after 64 fills, and rests at
    the level of the last sell; and with the arena full, a buy that crosses a resting sell is
    refused. -/
theorem limits_leave_crossing_orders :
    (¬ ∀ (su : Setup) (msgs : List InboundMsg), su.cfg.N ≤ 2 ^ 24 → msgs.length < 2 ^ 32 →
      Along (Log.receive su.cfg) Log.Genuine (Log.init su) (numbered msgs) →
      ∃ sh, run (Shard.receive su.cfg) su.shard msgs = .ok sh ∧
        ∀ b, sh.floor.Uncrossed su.cfg.toDims b) ∧
    ¬ ∀ (su : Setup) (msgs : List InboundMsg), su.cfg.N ≤ 2 ^ 24 → msgs.length < 2 ^ 32 →
      Along (Log.receive su.cfg) Log.Genuine (Log.init su) (numbered msgs) →
      ∃ sh, run (Shard.receive su.cfg) su.shard msgs = .ok sh ∧
        ∀ m, sh.localBook su.cfg m.symbolId ≠ noBook →
          ∃ r, sh.floor.addOrder su.cfg.toDims (sh.localBook su.cfg m.symbolId) m
              maxFillsPerOrder = .ok r ∧
            (r.Filled m ∨ r.Cleared su.cfg.toDims sh.floor (sh.localBook su.cfg m.symbolId) m) := by
  constructor
  · intro hall
    have hmsgs : (numbered deepOrders).map (fun x => (x.1, InboundMsg.newOrder x.2)) =
        numbered (deepOrders.map .newOrder) := by
      rw [numbered, numbered, List.zipIdx_map, List.map_map, List.map_map]
      rfl
    obtain ⟨lg, ys, dk, lab, v, place, hlog, h⟩ := orders_run deepSetup (by decide) (fun _ => some 0)
      (numbered deepOrders) (numbered_nodup _) (by decide +kernel) (by decide +kernel)
    rw [hmsgs] at hlog
    obtain ⟨sh, hrun, hbooks⟩ := hall deepSetup (deepOrders.map .newOrder) (by decide)
      (by decide +kernel) (hmsgs ▸ genuine_orders (numbered deepOrders) _)
    have hshard := run_shard hlog
    rw [numbered_map_snd] at hshard
    obtain rfl : sh = lg.shard := Except.ok.inj (hrun.symm.trans hshard)
    have hrep : FloorRep deepSetup.cfg.toDims lg.shard.floor v place := h.rep.floor ▸ h.rep.desk.rep
    have hcrossed := (hrep.uncrossed_iff lg.owner (deepSetup.book 0)).mp (hbooks _)
    rw [h.book 0 (by decide)] at hcrossed
    exact deepOrders_crossed hcrossed
  · intro hall
    obtain ⟨sh, hrun, hadd⟩ := hall oneSlot [.newOrder (orderFrom 1 1 Side.sell 103 5)]
      (by decide) (by decide) (genuine_of_check (by decide +kernel))
    cases hrun
    obtain ⟨r, hr, hdone⟩ := hadd (orderFrom 2 2 Side.buy 103 5) (by decide)
    cases hr
    rcases hdone with hfilled | hcleared
    · exact absurd (show 0 = 5 from hfilled) (by decide)
    · exact absurd (hcleared 3 rfl) (by decide +kernel)

end LiteExchange.Engine

/-
  Symbols on one shard do not disturb each other. `symbols_isolated`: take any script of requests
  in which no order finds the arena empty and every cancel names an acknowledged order. What the
  shard sends for the requests about one symbol is, tokens apart, what a fresh shard sends that
  is given these requests alone, and the two show the same best prices.

  Both runs are the market of the symbol (`Served`); what is left to show is that the second one
  is not short of slots (`Served.room`) or tokens.
-/
import LiteExchange.Engine.Market
import LiteExchange.Engine.Reports

namespace LiteExchange.Engine

open Lib Proto Book

/-- The symbols of the orders of a script, which are labelled by position. -/
def symbolOf (script : List Request) (k : Nat) : Option UInt16 :=
  match script[k]? with
  | some (.place m) => some m.symbolId
  | _ => none

theorem symbolOf_of_mem {script : List Request} {k : Nat} {m : NewOrder}
    (h : (k, .place m) ∈ numbered script) : symbolOf script k = some m.symbolId := by
  rw [symbolOf, mem_numbered.mp h]

section Two

variable {su : Setup} {sym : Nat → Option UInt16} {s : UInt16} {xs : List (Nat × Request)}
variable {lg lg' : Log} {ys ys' : List (Nat × InboundMsg)} {dk dk' : Desk} {lab lab' : Nat → Nat}
variable {v v' : View} {place place' : Nat → Place}

theorem Setup.market_filter (su : Setup) (sym : Nat → Option UInt16) (s : UInt16)
    (xs : List (Nat × Request)) :
    su.market sym s (xs.filter (about sym s)) = su.market sym s xs := by
  rw [Setup.market, List.filter_filter]
  simp only [Bool.and_self]
  rfl

theorem sentFor_filter {sent : List (List OutboundMsg)}
    (hlen : sent.length = (xs.filter (about sym s)).length) :
    sentFor sym s (xs.filter (about sym s)) sent = sent.map (List.map eraseToken) := by
  rw [sentFor, List.filter_eq_self.mpr fun y hy => (List.mem_filter.mp (List.of_mem_zip hy).1).2]
  have hsnd : ((xs.filter (about sym s)).zip sent).map Prod.snd = sent :=
    List.map_snd_zip (Nat.le_of_eq hlen)
  nth_rewrite 2 [← hsnd]
  rw [List.map_map]
  rfl

/-- The requests about one symbol alone need no more slots. -/
theorem Served.room (h : Served su sym xs lg ys dk lab v place)
    (h' : Served su sym (xs.filter (about sym s)) lg' ys' dk' lab' v' place')
    (hsym : ∀ k m, (k, .place m) ∈ xs → sym k = some m.symbolId)
    (hfree : 0 < lg.shard.floor.pool.freeTop) : 0 < lg'.shard.floor.pool.freeTop := by
  have hused := h.rep.desk.rep.threads.card_used
  have hused' := h'.rep.desk.rep.threads.card_used
  rw [h.rep.floor] at hfree
  rw [h'.rep.floor]
  -- the orders that rest in the second run are among those that rest in the first
  have hle : ((Finset.range su.cfg.N).filter fun c => ¬ place' c = .free).card ≤
      ((Finset.range su.cfg.N).filter fun c => ¬ place c = .free).card := by
    rw [← Finset.card_image_of_injOn (f := lg'.owner) fun c hc c' hc' e => ?_]
    · refine le_trans (Finset.card_le_card fun k hk => ?_) (Finset.card_image_le (f := lg.owner))
      obtain ⟨c, hc, rfl⟩ := Finset.mem_image.mp hk
      rw [Finset.mem_filter, Finset.mem_range] at hc
      obtain ⟨b, S, i, hpl⟩ := h'.rep.desk.level_of_used hc.1 hc.2
      obtain ⟨q, hq, hb, hne, -, -⟩ := h'.rep.msg_of_slot hpl
      have hmem := List.mem_filter.mp (h'.orders _ _ hq)
      obtain rfl : q.symbolId = s := Option.some_inj.mp (of_decide_eq_true hmem.2)
      have hk' := hsym _ _ hmem.1
      rw [h'.rep.localBook_eq] at hb
      have hrests := (h'.rests_iff (fun k m hm => hsym k m (List.mem_of_mem_filter hm)) hk'
        (hb ▸ hne)).mpr ⟨c, b, S, i, hpl, rfl⟩
      rw [su.market_filter] at hrests
      obtain ⟨c', b', S', i', hpl', hown⟩ := (h.rests_iff hsym hk' (hb ▸ hne)).mp hrests
      rw [Finset.mem_image]
      refine ⟨c', ?_, hown⟩
      rw [Finset.mem_filter, Finset.mem_range, hpl']
      exact ⟨h.rep.desk.rep.threads.lt_of_place (by rw [hpl']; simp), by simp⟩
    · rw [Finset.mem_coe, Finset.mem_filter, Finset.mem_range] at hc hc'
      obtain ⟨b, S, i, hpl⟩ := h'.rep.desk.level_of_used hc.1 hc.2
      obtain ⟨b', S', i', hpl'⟩ := h'.rep.desk.level_of_used hc'.1 hc'.2
      exact h'.rep.owner_inj hpl hpl' e
  have hN : su.cfg.toDims.N = su.cfg.N := rfl
  omega

/-- A request about the symbol that is ready in the first run is ready in the second. -/
theorem Served.ready (h : Served su sym xs lg ys dk lab v place)
    (h' : Served su sym (xs.filter (about sym s)) lg' ys' dk' lab' v' place')
    (hsym : ∀ k m, (k, .place m) ∈ xs → sym k = some m.symbolId) {x : Nat × Request}
    (hx : about sym s x = true) (hready : lg.Ready x) : lg'.Ready x := by
  obtain ⟨k, q⟩ := x
  cases q with
  | place m => exact h.room h' hsym hready
  | cancel target hdr =>
    have htarget : sym target = some s := of_decide_eq_true hx
    have hacked := (h.acked s target htarget).mp hready
    rw [← su.market_filter] at hacked
    exact (h'.acked s target htarget).mpr hacked

/-- The shard that is given all requests and the one given those about `s`. -/
theorem solo_run (su : Setup) (hN : su.cfg.N ≤ 2 ^ 24) (sym : Nat → Option UInt16) (s : UInt16)
    (xs : List (Nat × Request)) (hnd : (xs.map Prod.fst).Nodup) (hlen : xs.length < 2 ^ 32)
    (hsym : ∀ k m, (k, .place m) ∈ xs → sym k = some m.symbolId)
    (hready : Along (Log.perform su.cfg) Log.Ready (Log.init su) xs) :
    ∃ lg ys dk lab v place lg' ys' dk' lab' v' place',
      run (Log.perform su.cfg) (Log.init su) xs = .ok lg ∧
      Served su sym xs lg ys dk lab v place ∧
      run (Log.perform su.cfg) (Log.init su) (xs.filter (about sym s)) = .ok lg' ∧
      Served su sym (xs.filter (about sym s)) lg' ys' dk' lab' v' place' ∧
      Along (Log.perform su.cfg) Log.Ready (Log.init su) (xs.filter (about sym s)) := by
  induction xs using List.reverseRecOn with
  | nil =>
    exact ⟨_, _, _, _, _, _, _, _, _, _, _, _, rfl, served_init su sym, rfl, served_init su sym,
      trivial⟩
  | append_singleton xs x ih =>
    rw [List.length_append, List.length_singleton] at hlen
    rw [List.map_append, List.nodup_append] at hnd
    have hk : x.1 ∉ xs.map Prod.fst := fun hmem => hnd.2.2 _ hmem _ (List.mem_singleton.mpr rfl) rfl
    have hsym' : ∀ k m, (k, .place m) ∈ xs → sym k = some m.symbolId := fun k m hm =>
      hsym k m (List.mem_append_left _ hm)
    obtain ⟨hpre, hlast⟩ := along_append.mp hready
    obtain ⟨lg, ys, dk, lab, v, place, lg', ys', dk', lab', v', place', hrun, h, hrun', h',
      halong⟩ := ih hnd.1 (by omega) hsym' hpre
    have hx : lg.Ready x := (hlast lg hrun).1
    obtain ⟨lg₁, ys₁, dk₁, lab₁, v₁, place₁, hrun₁, h₁⟩ := h.perform hN hsym hk hlen hx
    by_cases habout : about sym s x = true
    · have hfilter : (xs ++ [x]).filter (about sym s) = xs.filter (about sym s) ++ [x] := by
        rw [List.filter_append, List.filter_cons_of_pos habout]
        rfl
      have hx' := h.ready h' hsym' habout hx
      have hle := List.length_filter_le (about sym s) xs
      obtain ⟨lg₂, ys₂, dk₂, lab₂, v₂, place₂, hrun₂, h₂⟩ := h'.perform (x := x) hN
        (fun k m hm => hsym k m (by
          rw [← hfilter] at hm
          exact List.mem_of_mem_filter hm))
        (fun hmem => hk ((List.filter_sublist.map _).subset hmem)) (by omega) hx'
      rw [hfilter]
      refine ⟨lg₁, ys₁, dk₁, lab₁, v₁, place₁, lg₂, ys₂, dk₂, lab₂, v₂, place₂,
        by rw [run_snoc hrun, hrun₁], h₁, by rw [run_snoc hrun', hrun₂], h₂,
        along_append.mpr ⟨halong, fun t ht => ?_⟩⟩
      obtain rfl : lg' = t := Except.ok.inj (hrun'.symm.trans ht)
      exact ⟨hx', fun _ _ => trivial⟩
    · have hfilter : (xs ++ [x]).filter (about sym s) = xs.filter (about sym s) := by
        rw [List.filter_append, List.filter_cons_of_neg habout, List.filter_nil, List.append_nil]
      rw [hfilter]
      exact ⟨lg₁, ys₁, dk₁, lab₁, v₁, place₁, lg', ys', dk', lab', v', place',
        by rw [run_snoc hrun, hrun₁], h₁, hrun', h', halong⟩

/-- The best prices of a hosted symbol are those of its market. -/
theorem Served.best (h : Served su sym xs lg ys dk lab v place) (hs : su.book s ≠ noBook) :
    lg.shard.bestBid su.cfg s =
        (su.market sym s xs).book.bestBidPrice su.cfg.L su.basePrice su.tickSize ∧
      lg.shard.bestAsk su.cfg s =
        (su.market sym s xs).book.bestAskPrice su.cfg.L su.basePrice su.tickSize := by
  have hbook := h.rep.localBook_eq s
  have hbid := h.rep.desk.rep.bestBidPrice_eq lg.owner (su.book s)
  have hask := h.rep.desk.rep.bestAskPrice_eq lg.owner (su.book s)
  rw [(h.rep.desk.params _).1, (h.rep.desk.params _).2, ← h.rep.floor, h.book s hs] at hbid hask
  rw [Shard.bestBid, Shard.bestAsk, hbook, if_neg hs, if_neg hs]
  exact ⟨hbid, hask⟩

/-- An order of a symbol trades with orders of that symbol. -/
theorem Served.hits (h : Served su sym xs lg ys dk lab v place) {m : NewOrder} {r : AddResult}
    (hs : su.book m.symbolId ≠ noBook)
    (hrun : lg.shard.floor.addOrder su.cfg.toDims (su.book m.symbolId) m maxFillsPerOrder = .ok r) :
    ∀ x ∈ r.hits, ∃ q, (lg.owner x.slot, .place q) ∈ xs ∧ q.symbolId = m.symbolId := by
  have hrep : FloorRep su.cfg.toDims lg.shard.floor v place := h.rep.floor ▸ h.rep.desk.rep
  by_cases hadm : lg.shard.floor.Admits su.cfg.toDims (su.book m.symbolId) m.price
  · intro x hx
    obtain ⟨i, hi⟩ := hits_listed hrep hadm hrun x hx
    rw [← hrep.threads.view_eq] at hi
    obtain ⟨q, hq, hb, -⟩ := h.rep.msg_of_slot ((hrep.threads.queued _ _ _ _).mp hi)
    rw [h.rep.localBook_eq] at hb
    exact ⟨q, h.orders _ _ hq, (su.book_inj hs hb.symm).symm⟩
  · rw [Floor.Admits, not_and_or, Nat.pos_iff_ne_zero, not_not] at hadm
    rw [addOrder_refused _ hadm] at hrun
    cases hrun
    exact fun x hx => absurd hx List.not_mem_nil

end Two

/-- On at most `2^24` slots, in any script of fewer than `2^32` requests whose orders all find a
    free slot and whose cancels name acknowledged orders, the requests about a hosted symbol are
    answered as by a fresh shard that is given no others; the best prices agree, and orders trade
    with orders of their own symbol only. -/
theorem symbols_isolated (su : Setup) (hN : su.cfg.N ≤ 2 ^ 24) (script : List Request)
    (hlen : script.length < 2 ^ 32)
    (hready : Along (Log.perform su.cfg) Log.Ready (Log.init su) (numbered script))
    (s : UInt16) (hs : su.shard.localBook su.cfg s ≠ noBook) :
    ∃ lg solo, run (Log.perform su.cfg) (Log.init su) (numbered script) = .ok lg ∧
      run (Log.perform su.cfg) (Log.init su)
        ((numbered script).filter (about (symbolOf script) s)) = .ok solo ∧
      Along (Log.perform su.cfg) Log.Ready (Log.init su)
        ((numbered script).filter (about (symbolOf script) s)) ∧
      sentFor (symbolOf script) s (numbered script) lg.sent =
        solo.sent.map (List.map eraseToken) ∧
      lg.shard.bestBid su.cfg s = solo.shard.bestBid su.cfg s ∧
      lg.shard.bestAsk su.cfg s = solo.shard.bestAsk su.cfg s ∧
      ∀ m r, m.symbolId = s → lg.shard.floor.addOrder su.cfg.toDims
          (lg.shard.localBook su.cfg s) m maxFillsPerOrder = .ok r →
        ∀ x ∈ r.hits, ∃ q, script[lg.owner x.slot]? = some (.place q) ∧ q.symbolId = s := by
  obtain ⟨lg, ys, dk, lab, v, place, solo, ys', dk', lab', v', place', hrun, h, hrun', h',
    halong⟩ := solo_run su hN (symbolOf script) s (numbered script) (numbered_nodup script)
      (by rwa [length_numbered]) (fun k m hm => symbolOf_of_mem hm) hready
  have hbest := h.best hs
  have hbest' := h'.best hs
  rw [su.market_filter] at hbest'
  refine ⟨lg, solo, hrun, hrun', halong, ?_, hbest.1.trans hbest'.1.symm,
    hbest.2.trans hbest'.2.symm, fun m r hm hr x hx => ?_⟩
  · rw [h.sent, ← su.market_filter, ← h'.sent, sentFor_filter h'.length]
  · subst hm
    rw [h.rep.localBook_eq] at hr
    obtain ⟨q, hq, he⟩ := h.hits hs hr x hx
    exact ⟨q, mem_numbered.mp hq, he⟩

/-- An order for a symbol other than 0. -/
def orderFor (symbolId : UInt16) (orderId : UInt64) (side : Side) (price : Int64) (qty : UInt32) :
    NewOrder :=
  { orderFrom 7 orderId side price qty with symbolId := symbolId }

/-- Two symbols: a sell of each, a buy that takes part of the first and a cancel of the rest. -/
def twoSymbols : List Request :=
  [.place (orderFor 0 1 Side.sell 103 5), .place (orderFor 1 2 Side.sell 103 5),
    .place (orderFor 0 3 Side.buy 104 3), .cancel 0 ⟨16, .cancelOrder, 0, 7⟩]

theorem symbols_isolated_two_symbols :
    ∃ lg solo, run (Log.perform smallShard) (Log.init smallSetup) (numbered twoSymbols) = .ok lg ∧
      run (Log.perform smallShard) (Log.init smallSetup)
        ((numbered twoSymbols).filter (about (symbolOf twoSymbols) 0)) = .ok solo ∧
      sentFor (symbolOf twoSymbols) 0 (numbered twoSymbols) lg.sent =
        solo.sent.map (List.map eraseToken) := by
  obtain ⟨lg, solo, hrun, hrun', -, hsent, -⟩ := symbols_isolated smallSetup (by decide)
    twoSymbols (by decide) (along_of_check (p := fun lg x => decide (lg.Ready x))
      (fun _ _ hx => of_decide_eq_true hx) (by decide +kernel)) 0 (by decide)
  exact ⟨lg, solo, hrun, hrun', hsent⟩

/-- One slot more than a token can tell apart, and symbols 1 and 2. -/
def oddSetup : Setup :=
  ⟨{ maxOrders := 0x1000001, ladderSize := 64, words_fit := sixty_four_levels_fit, maxSymbols := 2,
     symbolSpace := 3 }, 0, 1, 0, ⟨[1, 2], by decide +kernel, by simp [ShardConfig.space]⟩⟩

/-- An order of each symbol, and a cancel of the second. -/
def oddScript : List Request :=
  [.place (orderFor 1 1 Side.sell 30 5), .place (orderFor 2 2 Side.sell 30 5),
    .cancel 1 ⟨16, .cancelOrder, 0, 7⟩]

/-- The answers to the requests about `s`, compared with those of a fresh shard. -/
def sentAlike (su : Setup) (script : List Request) (s : UInt16) : Except Fault Bool := do
  let lg ← run (Log.perform su.cfg) (Log.init su) (numbered script)
  let solo ← run (Log.perform su.cfg) (Log.init su)
    ((numbered script).filter (about (symbolOf script) s))
  return decide (sentFor (symbolOf script) s (numbered script) lg.sent =
    solo.sent.map (List.map eraseToken))

/-- Without the bound on the arena a symbol alone fares differently: its order gets slot `2^24`,
    whose token names slot 0, and cannot be cancelled. -/
theorem high_slot_breaks_isolation :
    ¬ ∀ (su : Setup) (script : List Request), script.length < 2 ^ 32 →
      Along (Log.perform su.cfg) Log.Ready (Log.init su) (numbered script) →
      ∀ s, su.shard.localBook su.cfg s ≠ noBook →
        ∃ lg solo, run (Log.perform su.cfg) (Log.init su) (numbered script) = .ok lg ∧
          run (Log.perform su.cfg) (Log.init su)
            ((numbered script).filter (about (symbolOf script) s)) = .ok solo ∧
          sentFor (symbolOf script) s (numbered script) lg.sent =
            solo.sent.map (List.map eraseToken) := by
  intro hall
  have hcode : sentAlike oddSetup oddScript 2 = .ok false := by decide +kernel
  obtain ⟨lg, solo, hrun, hrun', hsent⟩ := hall oddSetup oddScript (by decide)
    (along_of_check (p := fun lg x => decide (lg.Ready x)) (fun _ _ hx => of_decide_eq_true hx)
      (by decide +kernel)) 2 (by decide +kernel)
  rw [sentAlike, hrun, ok_bind, hrun', ok_bind, decide_eq_true hsent] at hcode
  cases hcode

end LiteExchange.Engine

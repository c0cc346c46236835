/-
  Many shards behind the router against one shard that hosts all their symbols.

  A `Fleet` is the shards and their rings; requests are pushed and the shards tick in any order.
  The invariant runs the single shard along with the pushes: every shard is the markets of its
  symbols after the requests it has processed (`Served`), the single shard is the markets of all
  symbols after all requests pushed, and a request about a symbol is routed to the shard of that
  symbol (`FleetInv.routed`): new orders by the symbol itself, cancels because the token names the
  shard that acknowledged the order. So a symbol has one market in both worlds, and
  `sharding_transparent` compares what they sent for it.
-/
import LiteExchange.Engine.Isolation
import LiteExchange.Engine.Router

namespace LiteExchange.Engine

open Lib Proto Book Queue

/-! ## The fleet -/

/-- Shards `0, …, n - 1`, shard `i` hosting the symbols `s` with `s % n = i`, and one shard that
    hosts them all, under the same prices. -/
structure Deployment where
  n : Nat
  pos : 0 < n
  le : n ≤ 256
  depth : Depth
  shards : Nat → Setup
  single : Setup
  ids : ∀ i < n, (shards i).shardId = UInt8.ofNat i
  ladders : ∀ i < n, (shards i).cfg.ladderSize = single.cfg.ladderSize
  prices : ∀ i < n, (shards i).basePrice = single.basePrice ∧
    (shards i).tickSize = single.tickSize
  hosted : ∀ i < n, ∀ s, (shards i).book s ≠ noBook ↔ single.book s ≠ noBook ∧ s.toNat % n = i

/-- The rings, the shards, and the requests accepted by the router with their messages. A request
    is labelled by its place in this list. -/
structure Fleet where
  rings : Rings
  logs : Nat → Log
  pushed : List (Request × InboundMsg)

inductive FleetAct where
  | push (req : Request)
  | tick (i : Nat)

variable (dep : Deployment)

def Fleet.init (slots : Nat → Nat → InboundMsg) : Fleet :=
  ⟨Rings.init slots, fun i => Log.init (dep.shards i), []⟩

/-- The token some shard acknowledged a request with. -/
def Fleet.tokenOf (f : Fleet) (k : Nat) : Option UInt64 :=
  (List.range dep.n).findSome? fun i => (f.logs i).tokenOf k

/-- The message of a request. -/
def Fleet.message (f : Fleet) : Request → Option InboundMsg
  | .place m => some (.newOrder m)
  | .cancel target hdr => (f.tokenOf dep target).map fun t => .cancel ⟨hdr, t⟩

/-- The labelled requests routed to shard `i`. -/
def Fleet.share (f : Fleet) (i : Nat) : List (Nat × Request × InboundMsg) :=
  (numbered f.pushed).filter fun x => target dep.n x.2.2 = some i

/-- Those it has processed. -/
def Fleet.done (f : Fleet) (i : Nat) : List (Nat × Request) :=
  ((f.share dep i).take (f.rings.popped i).length).map fun x => (x.1, x.2.1)

/-- The label of the next message of shard `i`. -/
def Fleet.label (f : Fleet) (i : Nat) : Nat :=
  (((f.share dep i)[(f.rings.popped i).length]?).map Prod.fst).getD 0

def Fleet.step (f : Fleet) : FleetAct → Except Fault Fleet
  | .push req =>
    match f.message dep req with
    | none => .ok f
    | some msg => .ok
      { f with
        rings := (f.rings.push dep.n dep.depth msg).1
        pushed := if (f.rings.push dep.n dep.depth msg).2 then f.pushed ++ [(req, msg)]
          else f.pushed }
  | .tick i =>
    match ((f.rings.ring i).pop dep.depth).2 with
    | none => .ok f
    | some msg => do
      let lg ← (f.logs i).receive (dep.shards i).cfg (f.label dep i, msg)
      return { f with
        rings := f.rings.pop dep.depth i
        logs := Function.update f.logs i lg }

/-- Pushes succeed, a cancel carrying the token of an Ack; ticks are of shards `i < n`, and a new
    order finds a free slot. -/
def Fleet.Permitted (f : Fleet) : FleetAct → Prop
  | .push req => ∃ msg, f.message dep req = some msg ∧
      (f.rings.push dep.n dep.depth msg).2 = true
  | .tick i => i < dep.n ∧ ∀ m, ((f.rings.ring i).pop dep.depth).2 = some (.newOrder m) →
      0 < (f.logs i).shard.floor.pool.freeTop

/-- The requests pushed. -/
def pushes (acts : List FleetAct) : List Request :=
  acts.filterMap fun
    | .push req => some req
    | .tick _ => none

/-- A new order finds a free slot. -/
def Log.Roomy (lg : Log) (x : Nat × Request) : Prop :=
  match x.2 with
  | .place _ => 0 < lg.shard.floor.pool.freeTop
  | .cancel _ _ => True

/-! ## Terms and tokens -/

section Terms

variable {dep}

theorem Deployment.lt (s : UInt16) : s.toNat % dep.n < dep.n := Nat.mod_lt _ dep.pos

/-- A symbol is traded on the same terms. -/
theorem Deployment.terms_eq (s : UInt16) :
    (dep.shards (s.toNat % dep.n)).terms s = dep.single.terms s := by
  have hlt : s.toNat % dep.n < dep.n := Deployment.lt s
  have hL : (dep.shards (s.toNat % dep.n)).cfg.L = dep.single.cfg.L :=
    congrArg UInt32.toNat (dep.ladders _ hlt)
  obtain ⟨hbase, htick⟩ := dep.prices _ hlt
  have hhost := dep.hosted _ hlt s
  unfold Setup.terms
  congr 1
  · funext price
    unfold ladderIdx
    rw [hbase, htick]
    exact if_congr (by unfold OrderBook.OnLadder; rw [hL]) rfl rfl
  · exact decide_eq_decide.mpr (hhost.trans (and_iff_left rfl))

theorem Market.acked_step (T : Terms) (mk : Market) (x : Nat × Request) :
    mk.acked ⊆ (mk.step T x).acked := by
  intro k hk
  obtain ⟨j, q⟩ := x
  unfold Market.step
  cases q with
  | place m =>
    dsimp only
    split
    · split
      · exact hk
      · exact Market.mem_added.mpr (.inl hk)
    · exact hk
  | cancel target hdr =>
    dsimp only
    split <;> exact hk

/-- Acknowledged orders stay so. -/
theorem Market.acked_run (T : Terms) (xs ys : List (Nat × Request)) :
    (Market.run T xs).acked ⊆ (Market.run T (xs ++ ys)).acked := by
  induction ys using List.reverseRecOn with
  | nil => rw [List.append_nil]; exact List.Subset.refl _
  | append_singleton ys y ih =>
    rw [← List.append_assoc, Market.run_snoc]
    exact List.Subset.trans ih (Market.acked_step T _ y)

/-- Only the token of the message itself is new. -/
theorem Log.tokenOf_receive {cfg : ShardConfig} {lg lg' : Log} {x : Nat × InboundMsg}
    (h : lg.receive cfg x = .ok lg') {k : Nat} (hk : k ≠ x.1) : lg'.tokenOf k = lg.tokenOf k := by
  obtain ⟨⟨sh, out⟩, -, hrec⟩ := bind_eq_ok h
  cases hrec
  unfold Log.record
  dsimp only
  split
  · exact Function.update_of_ne hk ..
  · rfl

/-- Tokens name the shard that made them. -/
theorem LogRep.tokenShard {su : Setup} {xs : List (Nat × InboundMsg)} {lg : Log} {dk : Desk}
    {lab : Nat → Nat} {v : View} {place : Nat → Place} (h : LogRep su xs lg dk lab v place)
    {k : Nat} {t : UInt64} (ht : lg.tokenOf k = some t) :
    OrderHandle.tokenShard t = su.shardId := by
  obtain ⟨j, p, -, -, -, rfl⟩ := (h.token k t).mp ht
  exact OrderHandle.tokenShard_toToken _ _

end Terms

/-! ## The invariant -/

/-- A request and the message it was pushed as. A cancel carries the token of the shard that
    acknowledged its order, and this shard is the one the token names. -/
inductive Fleet.Carries (f : Fleet) : Request → InboundMsg → Prop where
  | place (m : NewOrder) : f.Carries (.place m) (.newOrder m)
  | cancel {target i : Nat} {hdr : Header} {t : UInt64} (hi : i < dep.n)
      (acked : (f.logs i).tokenOf target = some t)
      (names : (OrderHandle.tokenShard t).toNat = i) :
      f.Carries (.cancel target hdr) (.cancel ⟨hdr, t⟩)

theorem Fleet.Carries.mono {dep : Deployment} {f f' : Fleet} {req : Request} {msg : InboundMsg}
    (h : f.Carries dep req msg) (hkeep : ∀ i < dep.n, ∀ k t, (f.logs i).tokenOf k = some t →
      (f'.logs i).tokenOf k = some t) : f'.Carries dep req msg := by
  cases h with
  | place m => exact .place m
  | cancel hi hacked hnames => exact .cancel hi (hkeep _ hi _ _ hacked) hnames

/-- The shards after what they have processed and the single shard after all that was pushed. -/
structure FleetInv (sym : Nat → Option UInt16) (f : Fleet) (lg : Log) : Prop where
  rings : RingsRep dep.n dep.depth f.rings (f.pushed.map Prod.snd)
  shards : ∀ i < dep.n, ∃ ys dk lab v place,
    Served (dep.shards i) sym (f.done dep i) (f.logs i) ys dk lab v place
  carries : ∀ k req msg, (k, req, msg) ∈ numbered f.pushed → f.Carries dep req msg
  known : ∀ k m, (k, .place m) ∈ numbered (f.pushed.map Prod.fst) → sym k = some m.symbolId
  single : ∃ ys dk lab v place,
    Served dep.single sym (numbered (f.pushed.map Prod.fst)) lg ys dk lab v place

section Inv

variable {dep} {sym : Nat → Option UInt16} {f : Fleet} {lg : Log}

theorem numbered_map {α β : Type} (g : α → β) (xs : List α) :
    numbered (xs.map g) = (numbered xs).map fun x => (x.1, g x.2) := by
  unfold numbered
  rw [List.zipIdx_map, List.map_map, List.map_map]
  rfl

theorem length_not_mem_numbered {α : Type} (xs : List α) :
    xs.length ∉ (numbered xs).map Prod.fst := by
  intro hmem
  obtain ⟨⟨k, a⟩, hx, he⟩ := List.mem_map.mp hmem
  have hlt := (List.getElem?_eq_some_iff.mp (mem_numbered.mp hx)).1
  exact Nat.lt_irrefl _ (he ▸ hlt)

theorem Fleet.share_msgs (f : Fleet) (i : Nat) : (f.share dep i).map (fun x => x.2.2) =
    (f.pushed.map Prod.snd).filter fun x => target dep.n x = some i := by
  have hsnd : (numbered f.pushed).map (fun x => x.2.2) = f.pushed.map Prod.snd := by
    rw [← numbered_map_snd f.pushed, List.map_map]
    simp only [numbered_map_snd]
    rfl
  rw [← hsnd, List.filter_map]
  rfl

/-- The messages of a shard: popped, then in the ring. -/
theorem FleetInv.share_split (h : FleetInv dep sym f lg) (i : Nat) :
    (f.share dep i).map (fun x => x.2.2) =
      f.rings.popped i ++ (f.rings.ring i).contents dep.depth := by
  rw [f.share_msgs, h.rings.share]

theorem FleetInv.popped_le (h : FleetInv dep sym f lg) (i : Nat) :
    (f.rings.popped i).length ≤ (f.share dep i).length := by
  have hlen := congrArg List.length (h.share_split i)
  rw [List.length_map, List.length_append] at hlen
  omega

theorem Fleet.mem_of_done {i k : Nat} {req : Request} (h : (k, req) ∈ f.done dep i) :
    (k, req) ∈ numbered (f.pushed.map Prod.fst) := by
  obtain ⟨x, hx, he⟩ := List.mem_map.mp h
  rw [numbered_map, List.mem_map]
  exact ⟨x, List.mem_of_mem_filter (List.mem_of_mem_take hx), he⟩

theorem FleetInv.known_done (h : FleetInv dep sym f lg) {i k : Nat} {m : NewOrder}
    (hm : (k, .place m) ∈ f.done dep i) : sym k = some m.symbolId :=
  h.known k m (Fleet.mem_of_done hm)

/-- Requests about a symbol go to its shard. -/
theorem FleetInv.routed (h : FleetInv dep sym f lg) {k : Nat} {req : Request} {msg : InboundMsg}
    (hx : (k, req, msg) ∈ numbered f.pushed) {s : UInt16} (hs : req.symbol sym = some s) :
    target dep.n msg = some (s.toNat % dep.n) := by
  cases h.carries k req msg hx with
  | place m =>
    obtain rfl : m.symbolId = s := Option.some_inj.mp hs
    rfl
  | cancel hi hacked hnames =>
    obtain ⟨ys, dk, lab, v, place, hserved⟩ := h.shards _ hi
    obtain ⟨s', hs', hhost⟩ := hserved.symbol_of_token (fun k m hm => h.known_done hm) hacked
    obtain rfl : s = s' := Option.some_inj.mp (hs.symm.trans hs')
    have hmod := ((dep.hosted _ hi s).mp hhost).2
    unfold target
    dsimp only
    rw [hnames, Nat.mod_eq_of_lt hi, hmod]

/-- The requests about a symbol, found at its shard. -/
theorem FleetInv.about_share (h : FleetInv dep sym f lg) (s : UInt16) :
    (numbered (f.pushed.map Prod.fst)).filter (about sym s) =
      ((f.share dep (s.toNat % dep.n)).map fun x => (x.1, x.2.1)).filter (about sym s) := by
  rw [numbered_map, List.filter_map, List.filter_map, Fleet.share, List.filter_filter]
  congr 1
  refine List.filter_congr fun x hx => ?_
  obtain ⟨k, req, msg⟩ := x
  cases habout : about sym s (k, req) with
  | false => simp [habout]
  | true =>
    have hroute := h.routed hx (of_decide_eq_true habout)
    simp [habout, hroute]

/-- No other shard hears of the symbol. -/
theorem FleetInv.about_other (h : FleetInv dep sym f lg) {s : UInt16} {i : Nat}
    (hi : i ≠ s.toNat % dep.n) : (f.done dep i).filter (about sym s) = [] := by
  refine List.filter_eq_nil_iff.mpr fun x hx habout => ?_
  obtain ⟨⟨k, req, msg⟩, hmem, rfl⟩ := List.mem_map.mp hx
  obtain ⟨hnum, htarget⟩ := List.mem_filter.mp (List.mem_of_mem_take hmem)
  have hroute := h.routed hnum (of_decide_eq_true habout)
  exact hi (Option.some_inj.mp ((of_decide_eq_true htarget).symm.trans hroute))

/-- The market of a symbol in the single shard has heard what the symbol's shard has processed,
    and perhaps more. -/
theorem FleetInv.market_done (h : FleetInv dep sym f lg) (s : UInt16) :
    ∃ more, dep.single.market sym s (numbered (f.pushed.map Prod.fst)) =
      Market.run (dep.single.terms s)
        ((f.done dep (s.toNat % dep.n)).filter (about sym s) ++ more) := by
  unfold Setup.market Fleet.done
  rw [h.about_share]
  nth_rewrite 1 [← List.take_append_drop (f.rings.popped (s.toNat % dep.n)).length
    (f.share dep (s.toNat % dep.n))]
  rw [List.map_append, List.filter_append]
  exact ⟨_, rfl⟩

/-- What a shard has acknowledged, the single shard has. -/
theorem FleetInv.acked_single (h : FleetInv dep sym f lg) {i k : Nat} (hi : i < dep.n)
    {t : UInt64} (ht : (f.logs i).tokenOf k = some t) : (lg.tokenOf k).isSome := by
  obtain ⟨ys, dk, lab, v, place, hserved⟩ := h.shards i hi
  obtain ⟨ys', dk', lab', v', place', hsingle⟩ := h.single
  obtain ⟨s, hs, hhost⟩ := hserved.symbol_of_token (fun k m hm => h.known_done hm) ht
  obtain rfl : s.toNat % dep.n = i := ((dep.hosted i hi s).mp hhost).2
  have hacked := (hserved.acked s k hs).mp (Option.isSome_iff_exists.mpr ⟨t, ht⟩)
  obtain ⟨more, hmarket⟩ := h.market_done s
  rw [hsingle.acked s k hs, hmarket]
  unfold Setup.market at hacked
  rw [Deployment.terms_eq] at hacked
  exact Market.acked_run _ _ _ hacked

/-! ## Pushes and ticks -/

theorem FleetInv.carries_message (h : FleetInv dep sym f lg) {req : Request} {msg : InboundMsg}
    (hmsg : f.message dep req = some msg) : f.Carries dep req msg := by
  cases req with
  | place m =>
    cases hmsg
    exact .place m
  | cancel target hdr =>
    obtain ⟨t, ht, rfl⟩ := Option.map_eq_some_iff.mp hmsg
    obtain ⟨i, hi, hacked⟩ := List.exists_of_findSome?_eq_some ht
    have hi := List.mem_range.mp hi
    obtain ⟨ys, dk, lab, v, place, hserved⟩ := h.shards i hi
    refine .cancel hi hacked ?_
    rw [hserved.rep.tokenShard hacked, dep.ids i hi, UInt8.toNat_ofNat']
    exact Nat.mod_eq_of_lt (Nat.lt_of_lt_of_le hi dep.le)

/-- A request behind the others leaves what the shards have processed as it is. -/
theorem FleetInv.done_push (h : FleetInv dep sym f lg) (x : Request × InboundMsg) (rings : Rings)
    (hpopped : rings.popped = f.rings.popped) (i : Nat) :
    Fleet.done dep ⟨rings, f.logs, f.pushed ++ [x]⟩ i = f.done dep i := by
  unfold Fleet.done Fleet.share
  dsimp only
  rw [hpopped, numbered_append, List.filter_append, List.take_append_of_le_length]
  exact h.popped_le i

theorem FleetInv.push (h : FleetInv dep sym f lg) (hN : dep.single.cfg.N ≤ 2 ^ 24)
    {req : Request} (hok : f.Permitted dep (.push req))
    (hsym : ∀ m, req = .place m → sym f.pushed.length = some m.symbolId)
    (hlen : f.pushed.length + 1 < 2 ^ 32) (hroom : lg.Roomy (f.pushed.length, req)) :
    ∃ f' lg', f.step dep (.push req) = .ok f' ∧ lg.Ready (f.pushed.length, req) ∧
      lg.perform dep.single.cfg (f.pushed.length, req) = .ok lg' ∧
      f'.pushed.map Prod.fst = f.pushed.map Prod.fst ++ [req] ∧ FleetInv dep sym f' lg' := by
  obtain ⟨msg, hmsg, haccepted⟩ := hok
  have hcarries := h.carries_message hmsg
  obtain ⟨ys, dk, lab, v, place, hsingle⟩ := h.single
  have hnum : numbered ((f.pushed ++ [(req, msg)]).map Prod.fst) =
      numbered (f.pushed.map Prod.fst) ++ [(f.pushed.length, req)] := by
    rw [List.map_append, List.map_singleton, numbered_append, List.length_map]
  have hknown : ∀ k m, (k, .place m) ∈ numbered ((f.pushed ++ [(req, msg)]).map Prod.fst) →
      sym k = some m.symbolId := by
    intro k m hm
    rw [hnum] at hm
    rcases List.mem_append.mp hm with hm | hm
    · exact h.known k m hm
    · obtain ⟨rfl, he⟩ := Prod.mk.inj (List.mem_singleton.mp hm)
      exact hsym m he.symm
  have hready : lg.Ready (f.pushed.length, req) := by
    cases hcarries with
    | place m => exact hroom
    | cancel hi hacked _ => exact h.acked_single hi hacked
  have hfresh : f.pushed.length ∉ (numbered (f.pushed.map Prod.fst)).map Prod.fst := by
    have hmap : (f.pushed.map Prod.fst).length = f.pushed.length := List.length_map ..
    exact hmap ▸ length_not_mem_numbered (f.pushed.map Prod.fst)
  obtain ⟨lg', ys', dk', lab', v', place', hperform, hsingle'⟩ := hsingle.perform hN
    (hnum ▸ hknown) hfresh (by rw [length_numbered, List.length_map]; exact hlen) hready
  refine ⟨⟨(f.rings.push dep.n dep.depth msg).1, f.logs, f.pushed ++ [(req, msg)]⟩, lg', ?_,
    hready, hperform, by rw [List.map_append]; rfl, ?_, fun i hi => ?_, ?_, hknown, ?_⟩
  · unfold Fleet.step
    simp only [hmsg, if_pos haccepted]
  · have hrings := h.rings.push msg
    rw [if_pos haccepted] at hrings
    rw [List.map_append]
    exact hrings
  · rw [h.done_push _ _ (Rings.push_popped ..)]
    exact h.shards i hi
  · intro k req' msg' hx
    rw [numbered_append] at hx
    refine Fleet.Carries.mono (f := f) ?_ fun _ _ _ _ hacked => hacked
    rcases List.mem_append.mp hx with hx | hx
    · exact h.carries k req' msg' hx
    · obtain ⟨-, he⟩ := Prod.mk.inj (List.mem_singleton.mp hx)
      obtain ⟨rfl, rfl⟩ := Prod.mk.inj he
      exact hcarries
  · rw [hnum]
    exact ⟨_, _, _, _, _, hsingle'⟩

/-- The next message of a shard is that of the next request of its share. -/
theorem FleetInv.next (h : FleetInv dep sym f lg) (i : Nat) :
    ((f.rings.ring i).pop dep.depth).2 = none ∨ ∃ k req msg,
      ((f.rings.ring i).pop dep.depth).2 = some msg ∧
      (f.share dep i)[(f.rings.popped i).length]? = some (k, req, msg) := by
  obtain ⟨p, xs, hrep, hshare⟩ := h.rings i
  obtain ⟨-, hempty⟩ | ⟨msg, ys, rfl, hval, -⟩ := pop_spec hrep
  · exact .inl (congrArg Prod.snd hempty)
  · have hnext : ((f.share dep i).map fun x => x.2.2)[(f.rings.popped i).length]? = some msg := by
      rw [f.share_msgs, ← hshare, List.getElem?_append_right (Nat.le_refl _), Nat.sub_self]
      rfl
    rw [List.getElem?_map] at hnext
    obtain ⟨⟨k, req, msg'⟩, hx, rfl⟩ := Option.map_eq_some_iff.mp hnext
    exact .inr ⟨k, req, msg', hval, hx⟩

/-- Its label is a new one. -/
theorem Fleet.fresh_next (f : Fleet) {i k : Nat} {req : Request} {msg : InboundMsg}
    (hx : (f.share dep i)[(f.rings.popped i).length]? = some (k, req, msg)) :
    k ∉ (f.done dep i).map Prod.fst := by
  have hnd : ((f.share dep i).map Prod.fst).Nodup :=
    (numbered_nodup f.pushed).sublist (List.filter_sublist.map _)
  have hk : ((f.share dep i).map Prod.fst)[(f.rings.popped i).length]? = some k := by
    rw [List.getElem?_map, hx]
    rfl
  intro hmem
  have hmem' : k ∈ ((f.share dep i).map Prod.fst).take (f.rings.popped i).length := by
    rw [← List.map_take]
    unfold Fleet.done at hmem
    rw [List.map_map] at hmem
    exact hmem
  obtain ⟨j, hj⟩ := List.getElem?_of_mem hmem'
  have hlt := (List.getElem?_eq_some_iff.mp hj).1
  rw [List.length_take] at hlt
  rw [List.getElem?_take_of_lt (by omega)] at hj
  have heq := (List.getElem?_inj (by omega) hnd).mp (hj.trans hk.symm)
  omega

/-- A shard that gets the next message of its share performs the request. -/
theorem FleetInv.message_eq (h : FleetInv dep sym f lg) {i k : Nat} {req : Request}
    {msg : InboundMsg} (hx : (k, req, msg) ∈ f.share dep i) :
    (f.logs i).message req = some msg := by
  obtain ⟨hnum, htarget⟩ := List.mem_filter.mp hx
  have htarget := of_decide_eq_true htarget
  cases h.carries k req msg hnum with
  | place m => rfl
  | cancel hi hacked hnames =>
    unfold target at htarget
    dsimp only at htarget
    rw [hnames, Nat.mod_eq_of_lt hi] at htarget
    obtain rfl := Option.some_inj.mp htarget
    unfold Log.message
    dsimp only
    rw [hacked]
    rfl

theorem FleetInv.tick (h : FleetInv dep sym f lg)
    (hN : ∀ i < dep.n, (dep.shards i).cfg.N ≤ 2 ^ 24) {i : Nat}
    (hok : f.Permitted dep (.tick i)) (hlen : f.pushed.length < 2 ^ 32) :
    ∃ f', f.step dep (.tick i) = .ok f' ∧ f'.pushed = f.pushed ∧ FleetInv dep sym f' lg := by
  obtain ⟨hi, hroom⟩ := hok
  obtain hnone | ⟨k, req, msg, hpop, hx⟩ := h.next i
  · refine ⟨f, ?_, rfl, h⟩
    unfold Fleet.step
    simp only [hnone]
  have hlt := (List.getElem?_eq_some_iff.mp hx).1
  have hmem := List.mem_of_getElem? hx
  have hmsg := h.message_eq hmem
  obtain ⟨ys, dk, lab, v, place, hserved⟩ := h.shards i hi
  -- the request joins those that are done
  have hdone : ((f.share dep i).take ((f.rings.popped i).length + 1)).map
      (fun x => (x.1, x.2.1)) = f.done dep i ++ [(k, req)] := by
    rw [List.take_add_one, hx, List.map_append]
    rfl
  have hready : (f.logs i).Ready (k, req) := by
    cases req with
    | place m =>
      cases hmsg
      exact hroom m hpop
    | cancel target hdr =>
      obtain ⟨t, ht, -⟩ := Option.map_eq_some_iff.mp hmsg
      exact Option.isSome_iff_exists.mpr ⟨t, ht⟩
  have hknown : ∀ k' m, (k', .place m) ∈ f.done dep i ++ [(k, req)] →
      sym k' = some m.symbolId := by
    intro k' m hm
    rw [← hdone] at hm
    obtain ⟨x, hx', he⟩ := List.mem_map.mp hm
    refine h.known k' m ?_
    rw [numbered_map, List.mem_map]
    exact ⟨x, List.mem_of_mem_filter (List.mem_of_mem_take hx'), he⟩
  have hfresh := f.fresh_next hx
  have hcount : (f.done dep i).length + 1 < 2 ^ 32 := by
    have hle : (f.share dep i).length ≤ f.pushed.length :=
      (List.length_filter_le ..).trans (Nat.le_of_eq (length_numbered _))
    unfold Fleet.done
    rw [List.length_map, List.length_take]
    omega
  obtain ⟨lg', ys', dk', lab', v', place', hperform, hserved'⟩ :=
    hserved.perform (hN i hi) hknown hfresh hcount hready
  rw [Log.perform, hmsg] at hperform
  refine ⟨⟨f.rings.pop dep.depth i, Function.update f.logs i lg', f.pushed⟩, ?_, rfl,
    h.rings.pop i, fun j hj => ?_, fun k' req' msg' hx' => ?_, h.known, h.single⟩
  · unfold Fleet.step Fleet.label
    simp only [hpop, hx, Option.map_some, Option.getD_some, hperform]
    rfl
  · rcases eq_or_ne j i with rfl | hne
    · refine ⟨ys', dk', lab', v', place', ?_⟩
      unfold Fleet.done Rings.pop
      dsimp only
      rw [Function.update_self, Function.update_self, hpop, List.length_append]
      exact hdone ▸ hserved'
    · unfold Fleet.done Rings.pop
      dsimp only
      rw [Function.update_of_ne hne, Function.update_of_ne hne]
      exact h.shards j hj
  · refine (h.carries k' req' msg' hx').mono fun j hj l t ht => ?_
    dsimp only
    rcases eq_or_ne j i with rfl | hne
    · have hl : l ≠ k := by
        rintro rfl
        rw [hserved.tokenOf_fresh hfresh] at ht
        cases ht
      rw [Function.update_self, Log.tokenOf_receive hperform hl, ht]
    · rw [Function.update_of_ne hne, ht]

theorem fleetInv_init (slots : Nat → Nat → InboundMsg) (sym : Nat → Option UInt16) :
    FleetInv dep sym (Fleet.init dep slots) (Log.init dep.single) where
  rings := ringsRep_init dep.n dep.depth slots
  shards := fun i _ => ⟨_, _, _, _, _, served_init (dep.shards i) sym⟩
  carries := fun _ _ _ hx => absurd hx List.not_mem_nil
  known := fun _ _ hm => absurd hm List.not_mem_nil
  single := ⟨_, _, _, _, _, served_init dep.single sym⟩

end Inv

/-! ## Runs -/

/-- The fleet under any pushes and ticks, and the single shard under the same requests. -/
theorem fleet_run (hN : ∀ i < dep.n, (dep.shards i).cfg.N ≤ 2 ^ 24)
    (hN' : dep.single.cfg.N ≤ 2 ^ 24) (slots : Nat → Nat → InboundMsg) (sym : Nat → Option UInt16)
    (acts : List FleetAct) (hlen : (pushes acts).length < 2 ^ 32)
    (hsym : ∀ k m, (k, .place m) ∈ numbered (pushes acts) → sym k = some m.symbolId)
    (hok : Along (Fleet.step dep) (Fleet.Permitted dep) (Fleet.init dep slots) acts)
    (hroom : Along (Log.perform dep.single.cfg) Log.Roomy (Log.init dep.single)
      (numbered (pushes acts))) :
    ∃ f lg, run (Fleet.step dep) (Fleet.init dep slots) acts = .ok f ∧
      run (Log.perform dep.single.cfg) (Log.init dep.single) (numbered (pushes acts)) = .ok lg ∧
      Along (Log.perform dep.single.cfg) Log.Ready (Log.init dep.single)
        (numbered (pushes acts)) ∧
      f.pushed.map Prod.fst = pushes acts ∧ FleetInv dep sym f lg := by
  induction acts using List.reverseRecOn with
  | nil => exact ⟨_, _, rfl, rfl, trivial, rfl, fleetInv_init slots sym⟩
  | append_singleton acts act ih =>
    obtain ⟨hpre, hlast⟩ := along_append.mp hok
    cases act with
    | tick i =>
      have hpushes : pushes (acts ++ [.tick i]) = pushes acts := by
        unfold pushes
        rw [List.filterMap_append]
        exact List.append_nil _
      rw [hpushes] at hlen hsym hroom ⊢
      obtain ⟨f, lg, hrun, hsingle, hready, hpushed, hinv⟩ := ih hlen hsym hpre hroom
      have hcount : f.pushed.length < 2 ^ 32 := by
        rw [← List.length_map (f := Prod.fst), hpushed]
        exact hlen
      obtain ⟨f', hstep, hpushed', hinv'⟩ := hinv.tick hN (hlast f hrun).1 hcount
      exact ⟨f', lg, by rw [run_snoc hrun, hstep], hsingle, hready, by rw [hpushed', hpushed],
        hinv'⟩
    | push req =>
      have hpushes : pushes (acts ++ [.push req]) = pushes acts ++ [req] := by
        unfold pushes
        rw [List.filterMap_append]
        rfl
      rw [hpushes, List.length_append] at hlen
      rw [hpushes, numbered_append] at hsym hroom ⊢
      obtain ⟨hroom, hroomLast⟩ := along_append.mp hroom
      obtain ⟨f, lg, hrun, hsingle, hready, hpushed, hinv⟩ := ih (by omega)
        (fun k m hm => hsym k m (List.mem_append_left _ hm)) hpre hroom
      have hcount : (pushes acts).length = f.pushed.length := by rw [← hpushed, List.length_map]
      rw [hcount] at hsym hroomLast hlen ⊢
      obtain ⟨f', lg', hstep, hx, hperform, hpushed', hinv'⟩ := hinv.push hN' (hlast f hrun).1
        (fun m he => hsym _ m (List.mem_append_right _ (he ▸ List.mem_singleton.mpr rfl)))
        hlen (hroomLast lg hsingle).1
      refine ⟨f', lg', by rw [run_snoc hrun, hstep], by rw [run_snoc hsingle, hperform],
        along_append.mpr ⟨hready, fun t ht => ?_⟩, by rw [hpushed', hpushed], hinv'⟩
      obtain rfl : lg = t := Except.ok.inj (hsingle.symm.trans ht)
      exact ⟨hx, fun _ _ => trivial⟩

/-- What shard `i` sent for the requests about a symbol. -/
def Fleet.sentFor (f : Fleet) (sym : Nat → Option UInt16) (s : UInt16) (i : Nat) :
    List (List OutboundMsg) :=
  Engine.sentFor sym s (f.done dep i) (f.logs i).sent

section Sent

variable {dep} {sym : Nat → Option UInt16} {f : Fleet} {lg : Log}

theorem FleetInv.sent_other (h : FleetInv dep sym f lg) {s : UInt16} {i : Nat} (hi : i < dep.n)
    (hne : i ≠ s.toNat % dep.n) : f.sentFor dep sym s i = [] := by
  obtain ⟨ys, dk, lab, v, place, hserved⟩ := h.shards i hi
  unfold Fleet.sentFor
  rw [hserved.sent, Setup.market, h.about_other hne]
  rfl

/-- With its ring empty a shard has processed its share. -/
theorem FleetInv.done_all (h : FleetInv dep sym f lg) {i : Nat}
    (hempty : (f.rings.ring i).contents dep.depth = []) :
    f.done dep i = (f.share dep i).map fun x => (x.1, x.2.1) := by
  have hlen := congrArg List.length (h.share_split i)
  rw [hempty, List.append_nil, List.length_map] at hlen
  unfold Fleet.done
  rw [← hlen, List.take_length]

theorem FleetInv.sent_single (h : FleetInv dep sym f lg) {s : UInt16}
    (hempty : (f.rings.ring (s.toNat % dep.n)).contents dep.depth = []) :
    f.sentFor dep sym s (s.toNat % dep.n) =
      Engine.sentFor sym s (numbered (f.pushed.map Prod.fst)) lg.sent := by
  obtain ⟨ys, dk, lab, v, place, hserved⟩ := h.shards _ (Deployment.lt s)
  obtain ⟨ys', dk', lab', v', place', hsingle⟩ := h.single
  unfold Fleet.sentFor
  rw [hserved.sent, hsingle.sent, Setup.market, Setup.market, Deployment.terms_eq, h.about_share,
    h.done_all hempty]

end Sent

/-- On at most `2^24` slots per arena: whatever the number of shards and however pushes and ticks
    interleave, once the rings are empty the shard of a symbol has sent for it, tokens apart, what
    one shard sends that is given the same requests in the order they were pushed, and no other
    shard has sent anything for it. -/
theorem sharding_transparent (hN : ∀ i < dep.n, (dep.shards i).cfg.N ≤ 2 ^ 24)
    (hN' : dep.single.cfg.N ≤ 2 ^ 24) (slots : Nat → Nat → InboundMsg) (acts : List FleetAct)
    (hlen : (pushes acts).length < 2 ^ 32)
    (hok : Along (Fleet.step dep) (Fleet.Permitted dep) (Fleet.init dep slots) acts)
    (hroom : Along (Log.perform dep.single.cfg) Log.Roomy (Log.init dep.single)
      (numbered (pushes acts))) :
    ∃ f lg, run (Fleet.step dep) (Fleet.init dep slots) acts = .ok f ∧
      run (Log.perform dep.single.cfg) (Log.init dep.single) (numbered (pushes acts)) = .ok lg ∧
      Along (Log.perform dep.single.cfg) Log.Ready (Log.init dep.single)
        (numbered (pushes acts)) ∧
      f.pushed.map Prod.fst = pushes acts ∧
      ((∀ i < dep.n, (f.rings.ring i).contents dep.depth = []) → ∀ s,
        f.sentFor dep (symbolOf (pushes acts)) s (s.toNat % dep.n) =
            sentFor (symbolOf (pushes acts)) s (numbered (pushes acts)) lg.sent ∧
          ∀ i < dep.n, i ≠ s.toNat % dep.n →
            f.sentFor dep (symbolOf (pushes acts)) s i = []) := by
  obtain ⟨f, lg, hrun, hsingle, hready, hpushed, hinv⟩ := fleet_run dep hN hN' slots
    (symbolOf (pushes acts)) acts hlen (fun k m hm => symbolOf_of_mem hm) hok hroom
  refine ⟨f, lg, hrun, hsingle, hready, hpushed, fun hempty s => ⟨?_, fun i hi hne => ?_⟩⟩
  · rw [hinv.sent_single (hempty _ (Deployment.lt s)), hpushed]
  · exact hinv.sent_other hi hne

/-! ## Two shards -/

/-- A shard of `cap` slots for symbols below 3. -/
def pairConfig (cap : UInt32) : ShardConfig :=
  { maxOrders := cap, ladderSize := 64, words_fit := sixty_four_levels_fit, maxSymbols := 2,
    symbolSpace := 3 }

/-- One that hosts `symbol` only. -/
def pairShard (cap : UInt32) (shardId : UInt8) (symbol : Fin 3) : Setup :=
  ⟨pairConfig cap, 0, 1, shardId, [UInt16.ofNat symbol], by simp [ShardConfig.K, pairConfig],
    by revert symbol; simp [ShardConfig.space, pairConfig]; decide⟩

/-- Symbols 1 and 2, on shards 1 and 0 or on one shard. -/
def twoShards (cap : UInt32) : Deployment where
  n := 2
  pos := by decide
  le := by decide
  depth := ⟨2, by decide⟩
  shards i := pairShard cap (UInt8.ofNat i) (if i = 0 then 2 else 1)
  single := ⟨pairConfig cap, 0, 1, 0, [1, 2], by simp [ShardConfig.K, pairConfig],
    by simp [ShardConfig.space, pairConfig]⟩
  ids := fun _ _ => rfl
  ladders := fun _ _ => rfl
  prices := fun _ _ => ⟨rfl, rfl⟩
  hosted := by
    intro i hi s
    unfold Setup.book Setup.shard
    rw [Shard.localBook_init_ne _ _ _ _ _ (List.cons_ne_nil _ _),
      Shard.localBook_init_ne _ _ _ _ _ (List.cons_ne_nil _ _)]
    show s ∈ [UInt16.ofNat (if i = 0 then 2 else 1 : Fin 3)] ↔
      s ∈ ([1, 2] : List UInt16) ∧ s.toNat % 2 = i
    have hcases : i = 0 ∨ i = 1 := by omega
    constructor
    · intro hs
      rw [List.mem_singleton.mp hs]
      rcases hcases with rfl | rfl <;> decide
    · rintro ⟨hs, hmod⟩
      rcases List.mem_pair.mp hs with rfl | rfl
      · obtain rfl : i = 1 := hmod.symm
        decide
      · obtain rfl : i = 0 := hmod.symm
        decide

/-- `Permitted`, computed. -/
def Fleet.permits (f : Fleet) : FleetAct → Bool
  | .push req => (f.message dep req).any fun msg => (f.rings.push dep.n dep.depth msg).2
  | .tick i => decide (i < dep.n) && match ((f.rings.ring i).pop dep.depth).2 with
    | some (.newOrder _) => decide (0 < (f.logs i).shard.floor.pool.freeTop)
    | _ => true

theorem Fleet.permitted_of_permits (f : Fleet) (act : FleetAct) (h : f.permits dep act = true) :
    f.Permitted dep act := by
  cases act with
  | push req =>
    unfold Fleet.permits at h
    dsimp only at h
    cases hmsg : f.message dep req with
    | none => rw [hmsg] at h; cases h
    | some msg => exact ⟨msg, hmsg, by rw [hmsg] at h; exact h⟩
  | tick i =>
    obtain ⟨hi, hroom⟩ := Bool.and_eq_true_iff.mp h
    refine ⟨of_decide_eq_true hi, fun m hm => ?_⟩
    rw [hm] at hroom
    exact of_decide_eq_true hroom

/-- An order of each symbol, both shards tick, and the second order is cancelled. -/
def pairActs : List FleetAct :=
  [.push (.place (orderFor 1 1 Side.sell 30 5)), .push (.place (orderFor 2 2 Side.sell 30 5)),
    .tick 1, .tick 0, .push (.cancel 1 ⟨16, .cancelOrder, 0, 7⟩), .tick 0]

def noMessages : Nat → Nat → InboundMsg := fun _ _ => .other ⟨0, .logon, 0, 0⟩

/-- Run the two worlds and compare what was sent for `s`; with whether all was processed. -/
def sentAsSingle (acts : List FleetAct) (s : UInt16) : Except Fault (Bool × Bool) := do
  let f ← run (Fleet.step dep) (Fleet.init dep noMessages) acts
  let lg ← run (Log.perform dep.single.cfg) (Log.init dep.single) (numbered (pushes acts))
  return ((List.range dep.n).all fun i => ((f.rings.ring i).contents dep.depth).isEmpty,
    decide (f.sentFor dep (symbolOf (pushes acts)) s (s.toNat % dep.n) =
      sentFor (symbolOf (pushes acts)) s (numbered (pushes acts)) lg.sent))

theorem roomy_of_ready (lg : Log) (x : Nat × Request) (h : lg.Ready x) : lg.Roomy x := by
  obtain ⟨k, req⟩ := x
  cases req with
  | place m => exact h
  | cancel target hdr => trivial

theorem sharding_transparent_pair :
    ∃ f lg, run (Fleet.step (twoShards 4)) (Fleet.init (twoShards 4) noMessages) pairActs = .ok f ∧
      run (Log.perform (pairConfig 4)) (Log.init (twoShards 4).single)
        (numbered (pushes pairActs)) = .ok lg ∧
      f.sentFor (twoShards 4) (symbolOf (pushes pairActs)) 2 0 =
        sentFor (symbolOf (pushes pairActs)) 2 (numbered (pushes pairActs)) lg.sent := by
  obtain ⟨f, lg, hrun, hsingle, -, -, hsent⟩ := sharding_transparent (twoShards 4)
    (fun _ _ => show (pairConfig 4).N ≤ 2 ^ 24 by decide) (by decide) noMessages pairActs (by decide)
    (along_of_check (Fleet.permitted_of_permits _) (by decide +kernel))
    (along_mono roomy_of_ready (along_of_check (p := fun lg x => decide (lg.Ready x))
      (fun _ _ hx => of_decide_eq_true hx) (by decide +kernel)))
  have hcode : sentAsSingle (twoShards 4) pairActs 2 = .ok (true, true) := by decide +kernel
  rw [sentAsSingle, hrun, ok_bind, hsingle, ok_bind] at hcode
  refine ⟨f, lg, hrun, hsingle, (hsent (fun i hi => ?_) 2).1⟩
  have hall := congrArg Prod.fst (Except.ok.inj hcode)
  exact List.isEmpty_iff.mp (List.all_eq_true.mp hall i (List.mem_range.mpr hi))

/-- Without the bound on the arenas a shard answers differently: alone on it, the order of symbol 2
    gets slot `2^24`, whose token names slot 0, and cannot be cancelled. -/
theorem high_slot_breaks_sharding :
    ¬ ∀ (dep : Deployment) (slots : Nat → Nat → InboundMsg) (acts : List FleetAct),
      (pushes acts).length < 2 ^ 32 →
      Along (Fleet.step dep) (Fleet.Permitted dep) (Fleet.init dep slots) acts →
      Along (Log.perform dep.single.cfg) Log.Roomy (Log.init dep.single)
        (numbered (pushes acts)) →
      ∃ f lg, run (Fleet.step dep) (Fleet.init dep slots) acts = .ok f ∧
        run (Log.perform dep.single.cfg) (Log.init dep.single) (numbered (pushes acts)) =
          .ok lg ∧
        ((∀ i < dep.n, (f.rings.ring i).contents dep.depth = []) → ∀ s,
          f.sentFor dep (symbolOf (pushes acts)) s (s.toNat % dep.n) =
            sentFor (symbolOf (pushes acts)) s (numbered (pushes acts)) lg.sent) := by
  intro hall
  have hcode : sentAsSingle (twoShards 0x1000001) pairActs 2 = .ok (true, false) := by
    decide +kernel
  obtain ⟨f, lg, hrun, hsingle, hsent⟩ := hall (twoShards 0x1000001) noMessages pairActs
    (by decide) (along_of_check (Fleet.permitted_of_permits _) (by decide +kernel))
    (along_mono roomy_of_ready (along_of_check (p := fun lg x => decide (lg.Ready x))
      (fun _ _ hx => of_decide_eq_true hx) (by decide +kernel)))
  rw [sentAsSingle, hrun, ok_bind, hsingle, ok_bind] at hcode
  obtain ⟨hdone, hdiffer⟩ := Prod.mk.inj (Except.ok.inj hcode)
  refine of_decide_eq_false hdiffer (hsent (fun i hi => ?_) 2)
  exact List.isEmpty_iff.mp (List.all_eq_true.mp hdone i (List.mem_range.mpr hi))

end LiteExchange.Engine

/-
  Immediate-or-cancel orders. `handle_new` has no code for them of its own: `add_order` matches
  the order like any other and gives its slot back instead of resting the remainder.

  `ioc_as_cancelled`: in every run, such an order can be replaced by the same order with another
  time in force, followed by a cancel with the token it is acknowledged with. The order trades
  alike; the two Acks come in addition; and all that is sent later is the same, the generations in
  tokens apart. If the other order is not acknowledged, the replacement needs no cancel.

  The two runs are compared as twins (`Twins`). The second knows a token that the first does not
  have, so it is compared without it: `Log.forget`.
-/
import LiteExchange.Book.Immediate
import LiteExchange.Engine.Traceless

namespace LiteExchange.Engine

open Lib Proto Book

/-! ## Forgetting a token -/

/-- The log without the token of the order labelled `k`, and without what was sent so far. -/
def Log.forget (lg : Log) (k : Nat) : Log :=
  { lg with sent := [], tokenOf := Function.update lg.tokenOf k none }

/-- The calls, those labelled `k` without a handle. -/
def voided (lab : Nat → Nat) (k : Nat) (placed : List Placed) : List Placed :=
  placed.mapIdx fun j p => if lab j = k then { p with handle := OrderHandle.invalid } else p

theorem voided_other {lab : Nat → Nat} {k j : Nat} (placed : List Placed) (h : lab j ≠ k) :
    (voided lab k placed)[j]? = placed[j]? := by
  unfold voided
  rw [List.getElem?_mapIdx]
  simp only [if_neg h]
  exact Option.map_id'

theorem of_voided {lab : Nat → Nat} {k j : Nat} {placed : List Placed} {p : Placed}
    (h : (voided lab k placed)[j]? = some p) : ∃ q, placed[j]? = some q ∧ p.msg = q.msg ∧
      p.book = q.book ∧ ((lab j = k ∧ p.handle = OrderHandle.invalid) ∨ (lab j ≠ k ∧ p = q)) := by
  unfold voided at h
  rw [List.getElem?_mapIdx] at h
  obtain ⟨q, hq, rfl⟩ := Option.map_eq_some_iff.mp h
  by_cases hk : lab j = k
  · rw [if_pos hk]
    exact ⟨q, hq, rfl, rfl, .inl ⟨hk, rfl⟩⟩
  · rw [if_neg hk]
    exact ⟨q, hq, rfl, rfl, .inr ⟨hk, rfl⟩⟩

section Forget

variable {su : Setup} {ks : List Nat} {lg : Log} {v : View} {place : Nat → Place}

/-- The token of an order that no longer rests can be forgotten. -/
theorem Logged.forgetToken (h : Logged su ks lg v place) {k : Nat}
    (hgone : ∀ s b S i, place s = .level b S i → lg.owner s ≠ k) :
    Logged su ks (lg.forget k) v place := by
  obtain ⟨xs, dk, lab, hl, rfl⟩ := h
  have hlab : ∀ s b S i, place s = .level b S i → lab (dk.owner s) ≠ k := by
    intro s b S i hpl
    rw [← hl.owner s b S i hpl]
    exact hgone s b S i hpl
  have hinvalid : ¬ OrderHandle.invalid.slot < su.cfg.N := by
    have hnull := su.cfg.toDims.N_le_nullIdx
    exact Nat.not_lt.mpr hnull
  refine ⟨xs, { dk with placed := voided lab k dk.placed }, lab, ?_, rfl⟩
  exact {
    desk := by
      refine ⟨hl.desk.rep, hl.desk.settled, fun s b S i hpl => ?_, hl.desk.params⟩
      obtain ⟨p, hp⟩ := hl.desk.names s b S i hpl
      refine ⟨p, ?_, hp.book, hp.slot, hp.fixed, hp.session⟩
      exact (voided_other dk.placed (hlab s b S i hpl)).trans hp.call
    tagged := by
      refine ⟨hl.tagged.gen_le, fun s b S i hpl => ?_, fun j p hp hslot => ?_⟩
      · obtain ⟨p, hp, hhandle⟩ := hl.tagged.live s b S i hpl
        exact ⟨p, (voided_other dk.placed (hlab s b S i hpl)).trans hp, hhandle⟩
      · obtain ⟨q, hq, -, -, ⟨-, hvoid⟩ | ⟨-, rfl⟩⟩ := of_voided hp
        · rw [hvoid] at hslot
          exact absurd hslot hinvalid
        · exact hl.tagged.past j p hq hslot
    floor := hl.floor
    table := hl.table
    id := hl.id
    calls := fun j p hp => by
      obtain ⟨q, hq, hmsg, hbook, -⟩ := of_voided hp
      rw [hmsg, hbook]
      exact hl.calls j q hq
    valid := fun j p hp hvalid => by
      obtain ⟨q, hq, -, -, ⟨-, hvoid⟩ | ⟨-, rfl⟩⟩ := of_voided hp
      · rw [hvoid] at hvalid
        cases hvalid
      · exact hl.valid j p hq hvalid
    inj := by
      have hlen : (voided lab k dk.placed).length = dk.placed.length := List.length_mapIdx
      intro j j' hj hj'
      rw [hlen] at hj hj'
      exact hl.inj j j' hj hj'
    owner := hl.owner
    token := fun k' t => by
      dsimp only [Log.forget]
      by_cases hk : k' = k
      · rw [hk, Function.update_self]
        refine ⟨nofun, fun ⟨j, p, hp, hvalid, hlabel, _⟩ => ?_⟩
        obtain ⟨q, -, -, -, ⟨-, hvoid⟩ | ⟨hne, -⟩⟩ := of_voided hp
        · rw [hvoid] at hvalid
          cases hvalid
        · exact absurd hlabel hne
      · rw [Function.update_of_ne hk, hl.token k' t]
        constructor
        · rintro ⟨j, p, hp, hvalid, hlabel, htoken⟩
          refine ⟨j, p, ?_, hvalid, hlabel, htoken⟩
          exact (voided_other dk.placed (hlabel ▸ hk)).trans hp
        · rintro ⟨j, p, hp, hvalid, hlabel, htoken⟩
          refine ⟨j, p, ?_, hvalid, hlabel, htoken⟩
          exact (voided_other dk.placed (hlabel ▸ hk)).symm.trans hp
    acked := nofun
    once := fun k₁ k₂ t h₁ h₂ => by
      dsimp only [Log.forget] at h₁ h₂
      have hkept : ∀ k', Function.update lg.tokenOf k none k' = some t →
          lg.tokenOf k' = some t := by
        intro k' hk'
        by_cases hk : k' = k
        · rw [hk, Function.update_self] at hk'
          cases hk'
        · rwa [Function.update_of_ne hk] at hk'
      exact hl.once k₁ k₂ t (hkept k₁ h₁) (hkept k₂ h₂) }

/-- The order labelled `k` has no token before it is sent. -/
theorem Logged.token_fresh (h : Logged su ks lg v place) {k : Nat} (hk : k ∉ ks) :
    lg.tokenOf k = none := by
  obtain ⟨xs, dk, lab, hl, rfl⟩ := h
  cases ht : lg.tokenOf k with
  | none => rfl
  | some t =>
    obtain ⟨j, p, hp, -, hlabel, -⟩ := (hl.token k t).mp ht
    refine absurd (List.mem_map_of_mem (f := Prod.fst) (hl.calls j p hp).1) ?_
    rw [hlabel]
    exact hk

/-! ## Runs that do not use the token -/

/-- `lgf` is `lg` without the token of `k` and without what was sent before, which is `base`. -/
structure Forgets (k : Nat) (base : List (List OutboundMsg)) (lg lgf : Log) : Prop where
  shard : lgf.shard = lg.shard
  owner : lgf.owner = lg.owner
  token : lgf.tokenOf = Function.update lg.tokenOf k none
  sent : lg.sent = base ++ lgf.sent

variable {k : Nat} {base : List (List OutboundMsg)} {lgf lgf₁ : Log} {cfg : ShardConfig}

theorem forgets_self (lg : Log) (k : Nat) : Forgets k lg.sent lg (lg.forget k) :=
  ⟨rfl, rfl, rfl, (List.append_nil _).symm⟩

theorem Forgets.receive (h : Forgets k base lg lgf) {j : Nat} (hj : j ≠ k) {msg : InboundMsg}
    (hrun : lgf.receive cfg (j, msg) = .ok lgf₁) :
    ∃ lg₁, lg.receive cfg (j, msg) = .ok lg₁ ∧ Forgets k base lg₁ lgf₁ := by
  unfold Log.receive at hrun ⊢
  obtain ⟨⟨sh, out⟩, htick, hret⟩ := bind_eq_ok hrun
  cases hret
  rw [h.shard] at htick
  dsimp only at htick ⊢
  rw [htick, ok_bind]
  refine ⟨_, rfl, rfl, ?_, ?_, ?_⟩
  · unfold Log.record
    dsimp only
    rw [h.owner, h.shard]
  · unfold Log.record
    dsimp only
    rw [h.token]
    split
    · exact Function.update_comm hj.symm ..
    · rfl
  · unfold Log.record
    dsimp only
    rw [h.sent, List.append_assoc]

/-- A named item is the same message to both. -/
theorem Forgets.send (h : Forgets k base lg lgf) {x : Nat × Item} (hx : x.1 ≠ k)
    (hnamed : lgf.Named x) (hrun : lgf.send cfg x = .ok lgf₁) :
    lg.Named x ∧ ∃ lg₁, lg.send cfg x = .ok lg₁ ∧ Forgets k base lg₁ lgf₁ := by
  obtain ⟨j, item⟩ := x
  match item with
  | .request (.place m) => exact ⟨trivial, h.receive hx hrun⟩
  | .request (.cancel target hdr) =>
    obtain ⟨t, ht⟩ := Option.isSome_iff_exists.mp hnamed
    have ht' : lg.tokenOf target = some t := by
      rw [h.token] at ht
      by_cases hk : target = k
      · rw [hk, Function.update_self] at ht
        cases ht
      · rwa [Function.update_of_ne hk] at ht
    rw [Log.send_cancel ht] at hrun
    rw [Log.send_cancel ht']
    exact ⟨Option.isSome_iff_exists.mpr ⟨t, ht'⟩, h.receive hx hrun⟩
  | .other hdr => exact ⟨trivial, h.receive hx hrun⟩

theorem Forgets.run (h : Forgets k base lg lgf) {ys : List (Nat × Item)}
    (hk : k ∉ ys.map Prod.fst) (hnamed : Along (Log.send cfg) Log.Named lgf ys)
    (hrun : Lib.run (Log.send cfg) lgf ys = .ok lgf₁) :
    ∃ lg₁, Lib.run (Log.send cfg) lg ys = .ok lg₁ ∧ Forgets k base lg₁ lgf₁ := by
  induction ys generalizing lg lgf with
  | nil =>
    cases hrun
    exact ⟨lg, rfl, h⟩
  | cons y ys ih =>
    rw [List.map_cons, List.mem_cons, not_or] at hk
    rw [Lib.run] at hrun
    obtain ⟨lgf', hstep, hrest⟩ := bind_eq_ok hrun
    obtain ⟨-, lg', hstep', h'⟩ := h.send (Ne.symm hk.1) hnamed.1 hstep
    obtain ⟨lg₁, hrun₁, h₁⟩ := ih h' hk.2 (hnamed.2 lgf' hstep) hrest
    exact ⟨lg₁, by rw [Lib.run, hstep', ok_bind, hrun₁], h₁⟩

end Forget

/-! ## The order and its replacement -/

section Replace

variable {su : Setup} {ks : List Nat} {lg lg₁ : Log} {v v₁ v₂ : View}
variable {place place₁ place₂ : Nat → Place} {k : Nat} {m : NewOrder} {tif : TimeInForce}
variable {r r' : AddResult}

/-- What is sent for the order are its fills. -/
theorem report_ioc (hfills : r'.fills = r.fills) (hioc : r.handle.valid = false)
    (shardId : UInt8) (m : NewOrder) (tif : TimeInForce) (sessionId : UInt32) :
    reportOf shardId (withTif m tif) r' sessionId = reportOf shardId m r sessionId ++
      if r'.handle.valid then [emitAck m.orderId (r'.handle.toToken shardId) sessionId]
      else [] := by
  unfold reportOf
  rw [hfills, hioc, if_neg Bool.false_ne_true, List.append_nil]
  rfl

/-- The replacement is not acknowledged. -/
theorem Logged.done (h : Logged su ks lg v place)
    (hadm : lg.shard.floor.Admits su.cfg.toDims (su.book m.symbolId) m.price)
    (hioc : m.tif = TimeInForce.ioc)
    (hrun : lg.shard.floor.addOrder su.cfg.toDims (su.book m.symbolId) m maxFillsPerOrder = .ok r)
    (hrun' : lg.shard.floor.addOrder su.cfg.toDims (su.book m.symbolId) (withTif m tif)
      maxFillsPerOrder = .ok r')
    (hl : Logged su (ks ++ [k]) (lg.booked k m r) v₁ place₁)
    (hl' : Logged su (ks ++ [k]) (lg.booked k (withTif m tif) r') v₂ place₂)
    (hdone : r'.handle.valid = false) :
    (lg.booked k (withTif m tif) r').sent = (lg.booked k m r).sent ∧
      Twins su (ks ++ [k]) (ks ++ [k]) v₁ place₁ (lg.booked k m r)
        (lg.booked k (withTif m tif) r') := by
  obtain ⟨hfills, -, hvalid⟩ := fills_withTif h.rep hadm hioc hrun hrun' hl.rep hl'.rep
  obtain ⟨rfl, rfl, halike⟩ := alike_of_done h.rep h.settled hadm hioc hrun hrun' hl.rep hl'.rep
    hdone
  have hreport := report_ioc hfills hvalid lg.shard.shardId m tif m.hdr.sessionId
  rw [hdone, if_neg Bool.false_ne_true, List.append_nil] at hreport
  refine ⟨?_, hl, hl', halike, fun s b S i _ => ?_, fun k' => ?_⟩
  · exact congrArg (fun out => lg.sent ++ [out]) hreport
  · rw [Log.booked_owner, Log.booked_owner, hvalid, hdone]
  · rw [Log.booked_tokenOf, Log.booked_tokenOf, hvalid, hdone, if_neg Bool.false_ne_true,
      if_neg Bool.false_ne_true]

/-- The replacement is acknowledged with the token `t` and cancelled. -/
theorem Logged.cancelled (h : Logged su ks lg v place) (hN : su.cfg.N ≤ 2 ^ 24) (hk : k ∉ ks)
    (hn : ks.length + 2 < 2 ^ 32)
    (hadm : lg.shard.floor.Admits su.cfg.toDims (su.book m.symbolId) m.price)
    (hioc : m.tif = TimeInForce.ioc)
    (hrun : lg.shard.floor.addOrder su.cfg.toDims (su.book m.symbolId) m maxFillsPerOrder = .ok r)
    (hrun' : lg.shard.floor.addOrder su.cfg.toDims (su.book m.symbolId) (withTif m tif)
      maxFillsPerOrder = .ok r')
    (hl : Logged su (ks ++ [k]) (lg.booked k m r) v₁ place₁)
    (hl' : Logged su (ks ++ [k]) (lg.booked k (withTif m tif) r') v₂ place₂)
    (hrests : r'.handle.valid = true) (j : Nat) (hdr : Header) :
    ∃ t lg₃, (lg.booked k (withTif m tif) r').tokenOf k = some t ∧
      (lg.booked k (withTif m tif) r').sent = lg.sent ++
        [reportOf lg.shard.shardId m r m.hdr.sessionId ++
          [emitAck m.orderId t m.hdr.sessionId]] ∧
      (lg.booked k (withTif m tif) r').receive su.cfg (j, .cancel ⟨hdr, t⟩) = .ok lg₃ ∧
      lg₃.sent = (lg.booked k (withTif m tif) r').sent ++ [[emitAck 0 t hdr.sessionId]] ∧
      Twins su (ks ++ [k]) (ks ++ [k] ++ [j]) v₁ place₁ (lg.booked k m r) (lg₃.forget k) := by
  obtain ⟨hfills, -, hvalid⟩ := fills_withTif h.rep hadm hioc hrun hrun' hl.rep hl'.rep
  obtain ⟨add, add', -, -, hspec, hspec'⟩ := addOrder_both h.rep hadm hrun hrun' hl.rep hl'.rep
  have htop : place₂ lg.shard.floor.pool.top = .level (su.book m.symbolId) m.side.cls
      ((lg.shard.floor.books (su.book m.symbolId)).levelOf m.price) := by
    rw [hspec'.slot_place, ← hspec'.valid_eq h.rep.threads, hrests]
    rfl
  have hfree : place₁ lg.shard.floor.pool.top = .free := by
    rw [hspec.slot_place, ← hspec.valid_eq h.rep.threads, hvalid]
    rfl
  have hmine : (lg.booked k (withTif m tif) r').owner lg.shard.floor.pool.top = k := by
    rw [Log.booked_owner, hrests, if_pos rfl, Function.update_self]
  have htokens : (lg.booked k (withTif m tif) r').tokenOf = Function.update lg.tokenOf k
      (some (r'.handle.toToken lg.shard.shardId)) := by
    rw [Log.booked_tokenOf, hrests, if_pos rfl]
  have htoken : (lg.booked k (withTif m tif) r').tokenOf k =
      some (r'.handle.toToken lg.shard.shardId) := by
    rw [htokens, Function.update_self]
  have hreport := report_ioc hfills hvalid lg.shard.shardId m tif m.hdr.sessionId
  rw [hrests, if_pos rfl] at hreport
  have hlen : (ks ++ [k]).length + 1 < 2 ^ 32 := by
    rw [List.length_append, List.length_singleton]
    omega
  obtain ⟨lg₃, v₃, place₃, hcancel, hl₃, hcase⟩ := hl'.cancel hN j
    (c := ⟨hdr, r'.handle.toToken lg.shard.shardId⟩) htoken hlen
  rcases hcase with ⟨s, b, S, i, fl, hpl, hown, hc, hstack, rfl, rfl⟩ | ⟨hgone, -, -, -⟩
  · -- the order cancelled is the one just placed
    obtain rfl : s = lg.shard.floor.pool.top := hl'.owner_inj hpl htop (hown.trans hmine.symm)
    obtain ⟨rfl, rfl, rfl⟩ := Place.level.inj (hpl.symm.trans htop)
    obtain ⟨rfl, hplace, halike⟩ := alike_of_cancelled h.rep h.settled hadm hioc hrun hrun' hl.rep
      hl'.rep hrests hc hl₃.rep hstack
    rw [hplace] at hl₃
    refine ⟨_, _, htoken, congrArg (fun out => lg.sent ++ [out]) hreport, hcancel, rfl, hl, ?_,
      halike, fun s b S i hs => ?_, fun k' => ?_⟩
    · refine hl₃.forgetToken fun s b S i hs hmine' => ?_
      rw [← hplace] at hs
      by_cases he : s = lg.shard.floor.pool.top
      · rw [he, move_self] at hs
        cases hs
      · rw [move_of_ne _ _ he] at hs
        exact he (hl'.owner_inj hs htop (Eq.trans hmine' hmine.symm))
    · have hne : s ≠ lg.shard.floor.pool.top := by
        rintro rfl
        rw [hfree] at hs
        cases hs
      change (lg.booked k (withTif m tif) r').owner s = _
      rw [Log.booked_owner, Log.booked_owner, hrests, hvalid, if_pos rfl,
        Function.update_of_ne hne]
      rfl
    · change (Function.update (lg.booked k (withTif m tif) r').tokenOf k none k').map _ = _
      rw [htokens, Function.update_idem, Log.booked_tokenOf, hvalid, if_neg Bool.false_ne_true,
        ← h.token_fresh hk, Function.update_eq_self]
  · exact absurd hmine (hgone _ _ _ _ htop)

/-- The log after the order, and the log after its replacement: twins at once, or after the cancel
    and without its token. -/
inductive Replaced (su : Setup) (ks : List Nat) (k j : Nat) (m : NewOrder) (hdr : Header)
    (v : View) (place : Nat → Place) (lg lg₁ lg₂ : Log) (out : List OutboundMsg) : Prop where
  | done (sent : lg₂.sent = lg.sent ++ [out])
      (twins : Twins su (ks ++ [k]) (ks ++ [k]) v place lg₁ lg₂)
  | cancelled (t : UInt64) (lg₃ : Log) (token : lg₂.tokenOf k = some t)
      (acked : lg₂.sent = lg.sent ++ [out ++ [emitAck m.orderId t m.hdr.sessionId]])
      (step : lg₂.receive su.cfg (j, .cancel ⟨hdr, t⟩) = .ok lg₃)
      (sent : lg₃.sent = lg₂.sent ++ [[emitAck 0 t hdr.sessionId]])
      (twins : Twins su (ks ++ [k]) (ks ++ [k] ++ [j]) v place lg₁ (lg₃.forget k))

theorem Logged.replace (h : Logged su ks lg v place) (hN : su.cfg.N ≤ 2 ^ 24) (hk : k ∉ ks)
    (hn : ks.length + 2 < 2 ^ 32) (hioc : m.tif = TimeInForce.ioc) (tif : TimeInForce) (j : Nat)
    (hdr : Header) :
    ∃ lg₁ lg₂ out v₁ place₁, lg.receive su.cfg (k, .newOrder m) = .ok lg₁ ∧
      lg.receive su.cfg (k, .newOrder (withTif m tif)) = .ok lg₂ ∧
      lg₁.sent = lg.sent ++ [out] ∧ Replaced su ks k j m hdr v₁ place₁ lg lg₁ lg₂ out := by
  obtain ⟨lg₁, v₁, place₁, hrec, hl, hcase⟩ := h.order hN m hk (by omega)
  obtain ⟨lg₂, v₂, place₂, hrec', hl', hcase'⟩ := h.order hN (withTif m tif) hk (by omega)
  have hbook := h.localBook m.symbolId
  have hbook' : lg.shard.localBook su.cfg (withTif m tif).symbolId = su.book m.symbolId := hbook
  -- symbol and price are the same, so the cases are
  cases hcase with
  | unhosted hb =>
    rw [hbook] at hb
    cases hcase' with
    | unhosted _ => exact ⟨_, _, _, v, place, hrec, hrec', rfl, .done rfl hl.refl⟩
    | refused hb' _ => exact absurd hb (hbook' ▸ hb')
    | added hb' _ _ _ => exact absurd hb (hbook' ▸ hb')
  | refused hb hadm =>
    rw [hbook] at hb hadm
    cases hcase' with
    | unhosted hb' => exact absurd (hbook' ▸ hb') hb
    | refused _ _ => exact ⟨_, _, _, v, place, hrec, hrec', rfl, .done rfl hl.refl⟩
    | added _ hadm' _ _ => exact absurd (hbook' ▸ hadm') hadm
  | @added _ _ r _ _ hb hadm hrun _ =>
    rw [hbook] at hb hadm hrun
    cases hcase' with
    | unhosted hb' => exact absurd (hbook' ▸ hb') hb
    | refused _ hadm' => exact absurd hadm (hbook' ▸ hadm')
    | @added _ _ r' _ _ _ _ hrun' _ =>
      rw [hbook'] at hrun'
      cases hrests : r'.handle.valid with
      | false =>
        obtain ⟨hsent, htwins⟩ := h.done hadm hioc hrun hrun' hl hl' hrests
        exact ⟨_, _, _, v₁, place₁, hrec, hrec', rfl, .done hsent htwins⟩
      | true =>
        obtain ⟨t, lg₃, htoken, hacked, hcancel, hsent, htwins⟩ := h.cancelled hN hk hn hadm hioc
          hrun hrun' hl hl' hrests j hdr
        exact ⟨_, _, _, v₁, place₁, hrec, hrec', rfl,
          .cancelled t lg₃ htoken hacked hcancel hsent htwins⟩

end Replace

/-! ## Whole runs -/

/-- In the run with the replacement, what is sent for the order is `out`, or `out` and an Ack; then
    the cancel is acknowledged. -/
def SentInstead (su : Setup) (xs : List (Nat × Item)) (k j : Nat) (m : NewOrder)
    (tif : TimeInForce) (hdr : Header) (ys : List (Nat × Item)) (mid lg' : Log)
    (out : List OutboundMsg) (outs' : List (List OutboundMsg)) : Prop :=
  (run (Log.send su.cfg) (Log.init su) (xs ++ (k, .request (.place (withTif m tif))) :: ys) =
      .ok lg' ∧ lg'.sent = mid.sent ++ out :: outs') ∨
  ∃ t, run (Log.send su.cfg) (Log.init su) (xs ++ (k, .request (.place (withTif m tif))) ::
      (j, .request (.cancel k hdr)) :: ys) = .ok lg' ∧
    lg'.sent = mid.sent ++ (out ++ [emitAck m.orderId t m.hdr.sessionId]) ::
      [emitAck 0 t hdr.sessionId] :: outs'

/-- The items `ys` after an order that is not to rest are answered as after its replacement,
    generations apart, and the best prices at the end are the same. -/
def SameAsCancelled (su : Setup) (xs : List (Nat × Item)) (k j : Nat) (m : NewOrder)
    (tif : TimeInForce) (hdr : Header) (ys : List (Nat × Item)) : Prop :=
  ∃ mid lg lg' out outs outs', run (Log.send su.cfg) (Log.init su) xs = .ok mid ∧
    run (Log.send su.cfg) (Log.init su) (xs ++ (k, .request (.place m)) :: ys) = .ok lg ∧
    lg.sent = mid.sent ++ out :: outs ∧
    SentInstead su xs k j m tif hdr ys mid lg' out outs' ∧
    outs'.map (List.map eraseGen) = outs.map (List.map eraseGen) ∧
    ∀ s, lg'.shard.bestBid su.cfg s = lg.shard.bestBid su.cfg s ∧
      lg'.shard.bestAsk su.cfg s = lg.shard.bestAsk su.cfg s

/-- On at most `2^24` slots, in any run of fewer than `2^32` messages whose cancels name
    acknowledged orders, an immediate-or-cancel order is the same as the order with any other time
    in force and a cancel of its remainder. -/
theorem ioc_as_cancelled (su : Setup) (hN : su.cfg.N ≤ 2 ^ 24) (xs : List (Nat × Item))
    (k j : Nat) (m : NewOrder) (hioc : m.tif = TimeInForce.ioc) (tif : TimeInForce) (hdr : Header)
    (ys : List (Nat × Item)) (hnd : (xs.map Prod.fst ++ k :: j :: ys.map Prod.fst).Nodup)
    (hlen : xs.length + ys.length + 2 < 2 ^ 32)
    (hnamed : Along (Log.send su.cfg) Log.Named (Log.init su)
      (xs ++ (k, .request (.place m)) :: ys)) :
    SameAsCancelled su xs k j m tif hdr ys := by
  have hinit : Logged su [] (Log.init su) _ _ := ⟨[], _, _, logRep_init su, rfl⟩
  obtain ⟨hxs, hrest⟩ := along_append.mp hnamed
  have hxlen : (xs.map Prod.fst).length = xs.length := List.length_map _
  have hylen : (ys.map Prod.fst).length = ys.length := List.length_map _
  -- the labels with and without that of the cancel
  have hnd₂ : (xs.map Prod.fst ++ [k] ++ [j] ++ ys.map Prod.fst).Nodup := by
    rwa [List.append_assoc, List.append_assoc]
  have hnd₁ : (xs.map Prod.fst ++ [k] ++ ys.map Prod.fst).Nodup := by
    rw [List.append_assoc]
    exact hnd.sublist (List.Sublist.append_left
      (List.Sublist.cons_cons k (List.sublist_cons_self j _)) _)
  have hxsnd : (xs.map Prod.fst).Nodup := (List.nodup_append.mp hnd).1
  have hk : k ∉ xs.map Prod.fst := fun hmem =>
    (List.nodup_append.mp hnd).2.2 _ hmem _ List.mem_cons_self rfl
  have hlen₁ : (xs.map Prod.fst ++ [k] ++ ys.map Prod.fst).length < 2 ^ 32 := by
    rw [List.length_append, List.length_append, List.length_singleton, hxlen, hylen]
    omega
  have hlen₂ : (xs.map Prod.fst ++ [k] ++ [j] ++ ys.map Prod.fst).length < 2 ^ 32 := by
    rw [List.length_append, List.length_append, List.length_append, List.length_singleton,
      List.length_singleton, hxlen, hylen]
    omega
  -- the common part
  obtain ⟨-, mid, mid', v, place, -, -, hmid, -, htwins, -⟩ := hinit.refl.run hN xs hxsnd hxsnd
    (by rw [List.nil_append]; omega) (by rw [List.nil_append]; omega) hxs
  rw [List.nil_append] at htwins
  obtain ⟨-, hys⟩ := hrest mid hmid
  -- the order and its replacement
  obtain ⟨lg₁, lg₂, out, v₁, place₁, horder, hother, hout, hreplaced⟩ := htwins.logged.replace hN hk
    (by omega) hioc tif j hdr
  have hafter := hys lg₁ horder
  cases hreplaced with
  | done hsent htwins₁ =>
    obtain ⟨-, lg, lg', v₂, place₂, outs, outs', hrun, hrun', htwins₂, hsent₁, hsent₂, herase⟩ :=
      htwins₁.run hN ys hnd₁ hnd₁ hlen₁ hlen₁ hafter
    refine ⟨mid, lg, lg', out, outs, outs', hmid, ?_, ?_, .inl ⟨?_, ?_⟩, herase, htwins₂.best⟩
    · rw [run_append, hmid, ok_bind, run]
      change (mid.receive su.cfg (k, .newOrder m)).bind _ = _
      rw [horder]
      exact hrun
    · rw [hsent₁, hout, List.append_assoc]
      rfl
    · rw [run_append, hmid, ok_bind, run]
      change (mid.receive su.cfg (k, .newOrder (withTif m tif))).bind _ = _
      rw [hother]
      exact hrun'
    · rw [hsent₂, hsent, List.append_assoc]
      rfl
  | cancelled t lg₃ htoken hacked hcancel hsent htwins₁ =>
    obtain ⟨hnamed', lg, lgf, v₂, place₂, outs, outs', hrun, hrunf, htwins₂, hsent₁, hsent₂,
      herase⟩ := htwins₁.run hN ys hnd₁ hnd₂ hlen₁ hlen₂ hafter
    have hkys : k ∉ ys.map Prod.fst := by
      have hcons := (List.nodup_append.mp hnd).2.1
      exact fun hmem => (List.nodup_cons.mp hcons).1 (List.mem_cons_of_mem j hmem)
    -- the same items with the token known
    obtain ⟨lg', hrun', hforgets⟩ := (forgets_self lg₃ k).run hkys hnamed' hrunf
    have hsent' : lg'.sent = lg₃.sent ++ outs' := by
      rw [hforgets.sent, hsent₂]
      rfl
    have hbest : ∀ s, lg'.shard.bestBid su.cfg s = lg.shard.bestBid su.cfg s ∧
        lg'.shard.bestAsk su.cfg s = lg.shard.bestAsk su.cfg s := by
      rw [← hforgets.shard]
      exact htwins₂.best
    refine ⟨mid, lg, lg', out, outs, outs', hmid, ?_, ?_, .inr ⟨t, ?_, ?_⟩, herase, hbest⟩
    · rw [run_append, hmid, ok_bind, run]
      change (mid.receive su.cfg (k, .newOrder m)).bind _ = _
      rw [horder]
      exact hrun
    · rw [hsent₁, hout, List.append_assoc]
      rfl
    · rw [run_append, hmid, ok_bind, run]
      change (mid.receive su.cfg (k, .newOrder (withTif m tif))).bind _ = _
      rw [hother]
      change run _ lg₂ _ = _
      rw [run, Log.send_cancel htoken, hcancel, ok_bind, hrun']
    · rw [hsent', hsent, hacked, List.append_assoc, List.append_assoc]
      rfl

/-- A seller offers 2; an order for 3 takes them and is killed; another seller comes and cancels. -/
theorem ioc_as_cancelled_remainder :
    SameAsCancelled smallSetup [(0, .request (.place (orderFrom 7 1 Side.sell 103 2)))] 1 2
      (killedOrder 103) TimeInForce.gtc ⟨16, .cancelOrder, 0, 7⟩
      [(3, .request (.place (orderFrom 8 2 Side.sell 103 4))),
        (4, .request (.cancel 3 ⟨16, .cancelOrder, 0, 8⟩))] :=
  ioc_as_cancelled smallSetup (by decide) _ 1 2 (killedOrder 103) rfl TimeInForce.gtc _ _
    (by decide) (by decide) (along_of_check (p := fun lg x => decide (lg.Named x))
      (fun _ _ hx => of_decide_eq_true hx) (by decide +kernel))

end LiteExchange.Engine

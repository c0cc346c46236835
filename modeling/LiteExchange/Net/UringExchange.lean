/-
  The exchange with the io_uring reactor (`net/uring_gateway.hpp`). The reactor stands in front of
  one shard and has no router: `consume` pushes straight into the inbound ring of the shard. A turn
  of `poll_once` pops the outbound ring until it is empty, submits, and handles completions. The
  thread of the shard may take a step at any time, and so may the kernel.

  The kernel is that of `UringGateway`: it takes entries at the submission or later, executes them
  in any order, and a send may take a part of its frame. What is asked of it stands in the theorems.

  * `Backend.offer_new`, `Backend.offer_cancel`: the ring takes what a router in front of a single
    shard would put into it, so a turn does to the shard what the turn of a routed reactor does.
  * `uring_exchange_transparent`: the clients are served as behind the epoll reactor. If every send
    takes its whole frame and none is taken too late, every reply to an open connection is in one
    place: got by the client, or waiting in an entry. This includes the replies that overtake
    others because the pool is full.
  * `uring_replies_in_order`: if none overtakes, a client reads the replies in the order in which
    the shard has sent them.
-/
import LiteExchange.Net.Exchange
import LiteExchange.Net.UringOrder

namespace LiteExchange.Net

open Lib Proto Queue Engine

/-! ## A queue that is not a router -/

section Congr

variable {σ : Type} {push push' : σ → InboundMsg → σ × Bool}

/-- A frame carries a new order or a cancel. -/
theorem message_cases {sid : UInt32} {type : MsgType} {len : Nat} {buf : List UInt8}
    {x : InboundMsg} (h : message sid type len buf = some x) :
    (∃ m, x = .newOrder m) ∨ ∃ m, x = .cancel m := by
  unfold message at h
  split at h
  · cases h
    exact .inl ⟨_, rfl⟩
  · split at h
    · cases h
      exact .inr ⟨_, rfl⟩
    · cases h

/-- Two queues that treat new orders and cancels alike are alike to `consume`. -/
theorem Session.consumeLoop_congr (hnew : ∀ q m, push q (.newOrder m) = push' q (.newOrder m))
    (hcancel : ∀ q m, push q (.cancel m) = push' q (.cancel m)) (s : Session)
    (fuel consumed count : Nat) (q : σ) :
    s.consumeLoop push fuel consumed count q = s.consumeLoop push' fuel consumed count q := by
  induction fuel generalizing consumed count q with
  | zero => rfl
  | succ fuel ih =>
    by_cases hle : consumed ≤ s.recv.length
    · rw [Session.consumeLoop_succ push q _ _ hle, Session.consumeLoop_succ push' q _ _ hle]
      cases decode (s.recv.drop consumed) with
      | needMore => rfl
      | invalid => rfl
      | ok type len =>
        dsimp only
        cases hmsg : message s.sessionId type len (s.recv.drop consumed) with
        | none => exact ih _ _ _
        | some x =>
          have hpush : push q x = push' q x := by
            obtain ⟨m, rfl⟩ | ⟨m, rfl⟩ := message_cases hmsg
            · exact hnew q m
            · exact hcancel q m
          dsimp only
          rw [hpush, ih]
    · have hpast : ∀ p : σ → InboundMsg → σ × Bool,
          s.consumeLoop p (fuel + 1) consumed count q = .error .outOfRange := by
        intro p
        unfold Session.consumeLoop
        rw [if_pos (Nat.lt_of_not_le hle)]
        rfl
      rw [hpast, hpast]

theorem Host.read_congr (hnew : ∀ q m, push q (.newOrder m) = push' q (.newOrder m))
    (hcancel : ∀ q m, push q (.cancel m) = push' q (.cancel m)) (h : Host) (fd : Nat)
    (chunk : List UInt8) (q : σ) : h.read push fd chunk q = h.read push' fd chunk q := by
  have hlogged : ∀ s : Session, s.consume (logged push) (q, []) =
      s.consume (logged push') (q, []) := by
    intro s
    have hloop : s.consumeLoop (logged push) = s.consumeLoop (logged push') := by
      funext fuel consumed count p
      refine Session.consumeLoop_congr (fun p m => ?_) (fun p m => ?_) s fuel consumed count p
      · unfold logged
        rw [hnew]
      · unfold logged
        rw [hcancel]
    unfold Session.consume
    rw [hloop]
  unfold Host.read
  simp only [hlogged]

end Congr

/-- `shard_.inbound().push(msg)`. -/
def ShardSet.offer (sc : SetConfig) (q : ShardSet) (msg : InboundMsg) : ShardSet × Bool :=
  let r := (q.rings.ring 0).push sc.depth msg
  ({ q with rings := { q.rings with ring := Function.update q.rings.ring 0 r.1 } }, r.2)

/-- The same while the thread of the shard runs. -/
def Backend.offer (sc : SetConfig) (b : Backend) (msg : InboundMsg) : Backend × Bool :=
  let q := b.set.run sc ((b.steps.headD []).map .work)
  let r := ShardSet.offer sc q msg
  (⟨r.1, b.steps.tail, if r.2 then b.accepted ++ [msg] else b.accepted⟩, r.2)

/-- A single shard. -/
def oneShard (depth : Depth) (su : Setup) : SetConfig := ⟨1, depth, fun _ => su⟩

section OneShard

variable {depth : Depth} {su : Setup}

theorem Backend.offer_eq {x : InboundMsg} (hx : target 1 x = some 0) (b : Backend) :
    b.offer (oneShard depth su) x = b.push (oneShard depth su) x := by
  unfold Backend.offer Backend.push ShardSet.offer ShardSet.push Rings.push
  dsimp only [oneShard]
  rw [hx]

theorem Backend.offer_new (b : Backend) (m : NewOrder) :
    b.offer (oneShard depth su) (.newOrder m) = b.push (oneShard depth su) (.newOrder m) := by
  have htarget : target 1 (.newOrder m) = some 0 := congrArg some (Nat.mod_one _)
  exact Backend.offer_eq htarget b

theorem Backend.offer_cancel (b : Backend) (m : CancelOrder) :
    b.offer (oneShard depth su) (.cancel m) = b.push (oneShard depth su) (.cancel m) := by
  have htarget : target 1 (.cancel m) = some 0 := congrArg some (Nat.mod_one _)
  exact Backend.offer_eq htarget b

end OneShard

/-! ## The exchange -/

/-- The reactor in front of its shard, whether it is handling completions or still draining, and
    the messages it has popped. -/
structure UringExchange where
  u : UringGateway Backend
  handling : Bool
  drained : List OutboundMsg

def UringExchange.init (sc : SetConfig) (sqpoll : Bool) (slots : Nat → Nat → InboundMsg)
    (outSlots : Nat → Nat → OutboundMsg) : UringExchange :=
  ⟨UringGateway.init ⟨ShardSet.init sc slots outSlots, [], []⟩ sqpoll, false, []⟩

/-- A `pop` of `drain_outbound`, with what a `send` at the call takes, and the submission when the
    ring is empty; a completion, with the steps of the thread before each push; the end of the turn;
    something the kernel does; a step of the thread; a `stop`. -/
inductive UringExchangeAct where
  | drain (n : Nat)
  | cqe (c : Cqe) (steps : List (List Nat))
  | turn
  | kernel (a : KernelAct)
  | work
  | stop

/-- The reactor with its shard in another state. -/
def UringGateway.at (u : UringGateway Backend) (b : Backend) : UringGateway Backend :=
  { u with shard := b }

def UringGateway.withSet (u : UringGateway Backend) (q : ShardSet) : UringGateway Backend :=
  u.at { u.shard with set := q }

def UringGateway.withSteps (u : UringGateway Backend) (steps : List (List Nat)) :
    UringGateway Backend :=
  u.at { u.shard with steps := steps }

/-- The reactor only drains before it has found the ring empty, and only handles completions after
    that. -/
def UringExchange.step (sc : SetConfig) (x : UringExchange) :
    UringExchangeAct → Except Fault UringExchange
  | .drain n =>
    if x.handling then .ok x
    else
      let r := x.u.shard.set.pop sc 0
      match r.2 with
      | none => .ok ⟨(x.u.withSet r.1).submit, true, x.drained⟩
      | some m => do
        let u ← (x.u.withSet r.1).out m n
        return ⟨u, false, x.drained ++ [m]⟩
  | .cqe c steps =>
    if x.handling then do
      let u ← (x.u.withSteps steps).handleCqe (Backend.offer sc) c
      return ⟨u, true, x.drained⟩
    else .ok x
  | .turn => .ok { x with handling := false }
  | .kernel a => .ok { x with u := x.u.kernel a }
  | .work => .ok { x with u := x.u.withSet (x.u.shard.set.work sc 0) }
  | .stop => .ok { x with u := x.u.withSet (x.u.shard.set.stop 0) }

/-- The step of the reactor that a step of the exchange contains, and the state of the reactor
    before it. -/
def UringExchange.reacts (sc : SetConfig) (x : UringExchange) :
    UringExchangeAct → Option (UringGateway Backend × UringAct)
  | .drain n =>
    if x.handling then none
    else
      let r := x.u.shard.set.pop sc 0
      some (x.u.withSet r.1, match r.2 with
        | none => .submit
        | some m => .out m n)
  | .cqe c steps => if x.handling then some (x.u.withSteps steps, .cqe c) else none
  | .kernel a => some (x.u, .kernel a)
  | _ => none

/-- What is asked of the steps of the reactor. -/
def UringExchange.Meets (sc : SetConfig) (P : UringGateway Backend → UringAct → Prop)
    (x : UringExchange) (act : UringExchangeAct) : Prop :=
  ∀ r ∈ x.reacts sc act, P r.1 r.2

instance UringExchange.decidableMeets (sc : SetConfig)
    (P : UringGateway Backend → UringAct → Prop) [∀ u a, Decidable (P u a)] (x : UringExchange)
    (act : UringExchangeAct) : Decidable (x.Meets sc P act) :=
  inferInstanceAs (Decidable (∀ r ∈ x.reacts sc act, P r.1 r.2))

/-- What was popped, with its shard. -/
def UringExchange.log (x : UringExchange) : List (Nat × OutboundMsg) := x.drained.map (0, ·)

theorem UringExchange.log_snd (x : UringExchange) : x.log.map Prod.snd = x.drained := by
  unfold UringExchange.log
  rw [List.map_map]
  exact List.map_id _

/-! ## What the steps of the reactor do to the clients -/

section Steps

variable {σ : Type} {u u' : UringGateway σ} {m : OutboundMsg} {n : Nat}

theorem Wire.send_sameTalk (w : Wire) (fd : Nat) (bytes : List UInt8) (k : Nat) :
    (w.peer k).SameTalk ((w.send fd bytes).peer k) := by
  unfold Wire.send
  by_cases hk : w.onFd fd = some k
  · rw [Wire.on_peer_self hk]
    exact ⟨rfl, id, rfl, rfl, rfl⟩
  · rw [Wire.on_peer_other hk]
    exact ⟨rfl, id, rfl, rfl, rfl⟩

theorem Wire.give_sameTalk (w : Wire) (j : Nat) (bytes : List UInt8) (k : Nat) :
    (w.peer k).SameTalk ((w.give j bytes).peer k) := by
  unfold Wire.give
  dsimp only
  rcases eq_or_ne k j with rfl | hne
  · rw [Function.update_self]
    exact ⟨rfl, id, rfl, rfl, rfl⟩
  · rw [Function.update_of_ne hne]
    exact ⟨rfl, id, rfl, rfl, rfl⟩

theorem UringGateway.out_sameTalk (hout : u.out m n = .ok u') (k : Nat) :
    ((u.wire.pop m).peer k).SameTalk (u'.wire.peer k) ∧ u'.shard = u.shard := by
  obtain ⟨-, rfl⟩ | ⟨fd, -, ⟨-, rfl⟩ | hp⟩ := UringGateway.out_cases hout
  · exact ⟨⟨rfl, id, rfl, rfl, rfl⟩, rfl⟩
  · exact ⟨Wire.send_sameTalk .., rfl⟩
  · rw [hp.toHost]
    exact ⟨⟨rfl, id, rfl, rfl, rfl⟩, hp.shard⟩

theorem Executed.sameTalk {i : Nat} {e : Entry} (he : Executed u i n e u') (k : Nat) :
    (u.wire.peer k).SameTalk (u'.wire.peer k) := by
  rw [he.wire]
  split
  · exact ⟨rfl, id, rfl, rfl, rfl⟩
  · exact Wire.give_sameTalk ..

end Steps

/-! ## Whole runs -/

/-- Tables, shard and pool; and without `sqpoll` no send is still to be taken while completions are
    handled. -/
structure UringExchangeInv (sc : SetConfig) (x : UringExchange) : Prop where
  inv : ExchangeInv sc x.log x.u.toHost x.u.shard
  uring : UringInv x.u
  quiet : x.u.sqpoll = false → x.handling = true → x.u.Quiet

/-- What a step of the exchange is to the reactor: nothing but a change in the shard, or a step of
    its own. -/
inductive Moved (sc : SetConfig) (x : UringExchange) (act : UringExchangeAct)
    (x' : UringExchange) : Prop where
  | idle (b : Backend) (same : x'.u = x.u.at b)
  | acted (b : Backend) (a : UringAct) (reacts : x.reacts sc act = some (x.u.at b, a))
      (step : (x.u.at b).step (Backend.offer sc) a = .ok x'.u)

section Run

variable {sc : SetConfig} {depth : Depth} {su : Setup} {x x' : UringExchange}
  {act : UringExchangeAct} {D : Delivery}

theorem uringExchangeInv_init (sc : SetConfig) (sqpoll : Bool) (slots : Nat → Nat → InboundMsg)
    (outSlots : Nat → Nat → OutboundMsg) :
    UringExchangeInv sc (UringExchange.init sc sqpoll slots outSlots) :=
  ⟨exchangeInv_init sc slots outSlots, uringInv_init _ _, nofun⟩

theorem UringInv.at {u : UringGateway Backend} (h : UringInv u) (b : Backend) :
    UringInv (u.at b) := ⟨h.tracks, h.slots⟩

theorem Sends.at {u : UringGateway Backend} (h : Sends D u) (b : Backend) : Sends D (u.at b) :=
  ⟨h.inv.at b, h.owned, h.sent⟩

/-- The ring was found empty. -/
theorem UringExchangeInv.submit (h : UringExchangeInv sc x)
    (hm : (x.u.shard.set.pop sc 0).2 = none) :
    UringExchangeInv sc ⟨(x.u.withSet (x.u.shard.set.pop sc 0).1).submit, true, x.drained⟩ := by
  have hu : UringInv (x.u.withSet (x.u.shard.set.pop sc 0).1) := h.uring.at _
  have hsame := (x.u.withSet (x.u.shard.set.pop sc 0).1).submit_same
  refine ⟨?_, hu.taken hsame (UringGateway.submit_queued _), fun hpoll _ => ?_⟩
  · have hpop := h.inv.pop_none hm
    dsimp only
    rw [hsame.toHost, hsame.shard]
    exact hpop
  · exact UringGateway.submit_quiet (hsame.sqpoll.symm.trans hpoll)

/-- A `pop` that delivers a message. -/
theorem UringExchangeInv.out (h : UringExchangeInv sc x) {m : OutboundMsg} (n : Nat)
    (hm : (x.u.shard.set.pop sc 0).2 = some m) :
    ∃ u, (x.u.withSet (x.u.shard.set.pop sc 0).1).out m n = .ok u ∧
      UringExchangeInv sc ⟨u, false, x.drained ++ [m]⟩ := by
  have hu : UringInv (x.u.withSet (x.u.shard.set.pop sc 0).1) := h.uring.at _
  obtain ⟨u, hout, hinv, hp⟩ := hu.out m n
  have hshard := (UringGateway.out_sameTalk hout 0).2
  refine ⟨u, hout, ?_, hinv, nofun⟩
  have hpopped := h.inv.popped hm hinv.tracks hp.same.accepts fun k =>
    (UringGateway.out_sameTalk hout k).1
  have hlog : UringExchange.log ⟨u, false, x.drained ++ [m]⟩ = x.log ++ [(0, m)] :=
    List.map_append
  rw [hlog]
  dsimp only
  rw [hshard]
  exact hpopped

/-- A completion. -/
theorem UringExchangeInv.cqe (h : UringExchangeInv (oneShard depth su) x)
    (hhandling : x.handling = true) {c : Cqe} (steps : List (List Nat))
    (hk : (x.u.withSteps steps).KernelOk (.cqe c)) :
    ∃ u, (x.u.withSteps steps).handleCqe (Backend.offer (oneShard depth su)) c = .ok u ∧
      UringExchangeInv (oneShard depth su) ⟨u, true, x.drained⟩ := by
  have hu : UringInv (x.u.withSteps steps) := h.uring.at _
  have hsteps : ExchangeInv (oneShard depth su) x.log (x.u.withSteps steps).toHost
      (x.u.withSteps steps).shard := h.inv.steps steps
  obtain ⟨u, hstep, hinv⟩ := hu.cqe (Backend.offer (oneShard depth su)) hk
  refine ⟨u, hstep, ?_, hinv, fun hpoll _ => ?_⟩
  · by_cases hc : ∃ slot, c = .send slot
    · obtain ⟨slot, rfl⟩ := hc
      obtain ⟨u₁, heq, hhost, hshard, -⟩ := hu.slots.free hk
      cases heq.symm.trans hstep
      dsimp only
      rw [hhost, hshard]
      exact hsteps
    · obtain ⟨u₁, heq, -, hkeeps⟩ := UringGateway.handleCqe_spec
        (Backend.offer (oneShard depth su)) (fun slot h => hc ⟨slot, h⟩) hk
      cases heq.symm.trans hstep
      refine hkeeps (ExchangeInv (oneShard depth su) x.log) hsteps
        (fun fd hfd => hsteps.accept hfd) (fun fd chunk h' q' _ hread => ?_)
        fun _ _ fd hI => hI.close fd
      rw [Host.read_congr Backend.offer_new Backend.offer_cancel] at hread
      exact hsteps.read hread
  · have hcqe : (x.u.withSteps steps).step (Backend.offer (oneShard depth su)) (.cqe c) = .ok u :=
      hstep
    have hmode : (x.u.withSteps steps).sqpoll = false :=
      (UringGateway.step_sqpoll hcqe).symm.trans hpoll
    have hq : (x.u.withSteps steps).Quiet := h.quiet hmode hhandling
    exact hq.cqe hstep

theorem UringExchangeInv.kernel (h : UringExchangeInv sc x) (a : KernelAct) :
    UringExchangeInv sc { x with u := x.u.kernel a } := by
  have hquiet : (x.u.kernel a).sqpoll = false → x.handling = true → (x.u.kernel a).Quiet := by
    intro hpoll hhandling
    have hstep : x.u.step (Backend.offer sc) (.kernel a) = .ok (x.u.kernel a) := rfl
    have hmode : (x.u.kernel a).sqpoll = x.u.sqpoll := UringGateway.step_sqpoll hstep
    exact (h.quiet (hmode.symm.trans hpoll) hhandling).kernel a
  obtain ⟨hsame, hqueued⟩ | ⟨i, n, e, -, he⟩ := x.u.kernel_cases a
  · refine ⟨?_, h.uring.taken hsame hqueued, hquiet⟩
    dsimp only
    rw [hsame.toHost, hsame.shard]
    exact h.inv
  · have hinv := h.uring.executed he
    refine ⟨⟨hinv.tracks, ?_, ?_⟩, hinv, hquiet⟩
    · dsimp only
      rw [he.shard]
      exact h.inv.backend
    · dsimp only
      rw [he.shard]
      exact h.inv.ties.same he.same.accepts he.sameTalk

theorem UringExchange.step_drain (hdraining : x.handling = false) (n : Nat) :
    x.step sc (.drain n) = match (x.u.shard.set.pop sc 0).2 with
      | none => .ok ⟨(x.u.withSet (x.u.shard.set.pop sc 0).1).submit, true, x.drained⟩
      | some m => do
        let u ← (x.u.withSet (x.u.shard.set.pop sc 0).1).out m n
        return ⟨u, false, x.drained ++ [m]⟩ := by
  unfold UringExchange.step
  dsimp only
  rw [hdraining, if_neg Bool.false_ne_true]

theorem UringExchange.reacts_drain (hdraining : x.handling = false) (n : Nat) :
    x.reacts sc (.drain n) = some (x.u.withSet (x.u.shard.set.pop sc 0).1,
      match (x.u.shard.set.pop sc 0).2 with
      | none => .submit
      | some m => .out m n) := by
  unfold UringExchange.reacts
  dsimp only
  rw [hdraining, if_neg Bool.false_ne_true]

theorem UringExchange.reacts_cqe (hhandling : x.handling = true) (c : Cqe)
    (steps : List (List Nat)) :
    x.reacts sc (.cqe c steps) = some (x.u.withSteps steps, .cqe c) := by
  unfold UringExchange.reacts
  dsimp only
  rw [hhandling, if_pos rfl]

/-- The reactor drains. -/
theorem UringExchangeInv.drain (h : UringExchangeInv sc x) (hdraining : x.handling = false)
    (n : Nat) : ∃ x', x.step sc (.drain n) = .ok x' ∧ UringExchangeInv sc x' ∧
      Moved sc x (.drain n) x' := by
  have hreacts : x.reacts sc (.drain n) = _ := UringExchange.reacts_drain hdraining n
  rw [UringExchange.step_drain hdraining]
  cases hm : (x.u.shard.set.pop sc 0).2 with
  | none =>
    rw [hm] at hreacts
    exact ⟨_, rfl, h.submit hm, .acted _ .submit hreacts rfl⟩
  | some m =>
    rw [hm] at hreacts
    obtain ⟨u, hout, hinv⟩ := h.out n hm
    refine ⟨⟨u, false, x.drained ++ [m]⟩, ?_, hinv, .acted _ (.out m n) hreacts hout⟩
    dsimp only
    rw [hout]
    rfl

theorem UringExchangeInv.step (h : UringExchangeInv (oneShard depth su) x)
    (hk : x.Meets (oneShard depth su) UringGateway.KernelOk act) :
    ∃ x', x.step (oneShard depth su) act = .ok x' ∧ UringExchangeInv (oneShard depth su) x' ∧
      Moved (oneShard depth su) x act x' := by
  cases act with
  | drain n =>
    cases hhandling : x.handling with
    | true =>
      refine ⟨x, ?_, h, .idle x.u.shard rfl⟩
      unfold UringExchange.step
      dsimp only
      rw [hhandling, if_pos rfl]
    | false => exact h.drain hhandling n
  | cqe c steps =>
    cases hhandling : x.handling with
    | false =>
      refine ⟨x, ?_, h, .idle x.u.shard rfl⟩
      unfold UringExchange.step
      dsimp only
      rw [hhandling, if_neg Bool.false_ne_true]
    | true =>
      have hreacts : x.reacts (oneShard depth su) (.cqe c steps) = _ :=
        UringExchange.reacts_cqe hhandling c steps
      obtain ⟨u, hstep, hinv⟩ := h.cqe hhandling steps (hk _ hreacts)
      refine ⟨⟨u, true, x.drained⟩, ?_, hinv, .acted _ (.cqe c) hreacts hstep⟩
      unfold UringExchange.step
      dsimp only
      rw [hhandling, if_pos rfl, hstep]
      rfl
  | turn => exact ⟨_, rfl, ⟨h.inv, h.uring, nofun⟩, .idle x.u.shard rfl⟩
  | kernel a => exact ⟨_, rfl, h.kernel a, .acted x.u.shard (.kernel a) rfl rfl⟩
  | work => exact ⟨_, rfl, ⟨h.inv.work 0, h.uring.at _, h.quiet⟩, .idle _ rfl⟩
  | stop => exact ⟨_, rfl, ⟨h.inv.stop 0, h.uring.at _, h.quiet⟩, .idle _ rfl⟩

/-- Without `sqpoll` sends are taken in time. -/
theorem UringExchangeInv.in_time (h : UringExchangeInv sc x) (hpoll : x.u.sqpoll = false)
    (act : UringExchangeAct) :
    x.Meets sc (UringGateway.InTime (Backend.offer sc)) act := by
  rintro ⟨u, a⟩ hr
  cases act with
  | drain n =>
    unfold UringExchange.reacts at hr
    dsimp only at hr
    split at hr
    · cases hr
    · cases hr
      dsimp only
      split <;> trivial
  | cqe c steps =>
    unfold UringExchange.reacts at hr
    dsimp only at hr
    split at hr
    · rename_i hhandling
      cases hr
      have hq : (x.u.withSteps steps).Quiet := h.quiet hpoll hhandling
      exact hq.in_time (.cqe c)
    · cases hr
  | kernel a =>
    cases hr
    trivial
  | turn => cases hr
  | work => cases hr
  | stop => cases hr

theorem Moved.sqpoll (hmoved : Moved sc x act x') : x'.u.sqpoll = x.u.sqpoll := by
  cases hmoved with
  | idle b hsame =>
    rw [hsame]
    rfl
  | acted b a _ hstep => exact (UringGateway.step_sqpoll hstep).trans rfl

theorem Moved.sends (hmoved : Moved sc x act x') (hs : Sends D x.u)
    (hk : x.Meets sc UringGateway.KernelOk act)
    (htime : x.Meets sc (UringGateway.InTime (Backend.offer sc)) act)
    (hb : x.Meets sc (UringGateway.Bears D) act) : Sends D x'.u := by
  cases hmoved with
  | idle b hsame =>
    rw [hsame]
    exact hs.at b
  | acted b a hreacts hstep =>
    obtain ⟨u', heq, hs'⟩ := (hs.at b).step (hk _ hreacts) (htime _ hreacts) (hb _ hreacts)
    cases heq.symm.trans hstep
    exact hs'

/-- On a kernel that sends as the delivery asks for it. -/
theorem uring_sends (D : Delivery) {sqpoll : Bool} {slots : Nat → Nat → InboundMsg}
    {outSlots : Nat → Nat → OutboundMsg} {acts : List UringExchangeAct}
    (hk : Along (UringExchange.step (oneShard depth su))
      (UringExchange.Meets (oneShard depth su) UringGateway.KernelOk)
      (UringExchange.init (oneShard depth su) sqpoll slots outSlots) acts)
    (htime : sqpoll = true → Along (UringExchange.step (oneShard depth su))
      (UringExchange.Meets (oneShard depth su)
        (UringGateway.InTime (Backend.offer (oneShard depth su))))
      (UringExchange.init (oneShard depth su) sqpoll slots outSlots) acts)
    (hb : Along (UringExchange.step (oneShard depth su))
      (UringExchange.Meets (oneShard depth su) (UringGateway.Bears D))
      (UringExchange.init (oneShard depth su) sqpoll slots outSlots) acts) :
    ∃ x, run (UringExchange.step (oneShard depth su))
        (UringExchange.init (oneShard depth su) sqpoll slots outSlots) acts = .ok x ∧
      UringExchangeInv (oneShard depth su) x ∧ Sends D x.u := by
  have hinit : Sends D (UringExchange.init (oneShard depth su) sqpoll slots outSlots).u :=
    sends_init D _ _
  have hstart := uringExchangeInv_init (oneShard depth su) sqpoll slots outSlots
  cases sqpoll with
  | true =>
    exact run_inv (I := fun _ x => UringExchangeInv (oneShard depth su) x ∧ Sends D x.u)
      (fun _ x act hI hP => by
        obtain ⟨x', hstep, hinv, hmoved⟩ := hI.1.step hP.1
        exact ⟨x', hstep, hinv, hmoved.sends hI.2 hP.1 hP.2.1 hP.2.2⟩)
      (n := 0) ⟨hstart, hinit⟩ (along_and hk (along_and (htime rfl) hb))
  | false =>
    obtain ⟨x, hrun, hinv, hs, -⟩ := run_inv
      (I := fun _ x => UringExchangeInv (oneShard depth su) x ∧ Sends D x.u ∧ x.u.sqpoll = false)
      (fun _ x act hI hP => by
        obtain ⟨x', hstep, hinv, hmoved⟩ := hI.1.step hP.1
        exact ⟨x', hstep, hinv, hmoved.sends hI.2.1 hP.1 (hI.1.in_time hI.2.2 act) hP.2,
          hmoved.sqpoll.trans hI.2.2⟩)
      (n := 0) ⟨hstart, hinit, rfl⟩ (along_and hk hb)
    exact ⟨x, hrun, hinv, hs⟩

end Run

/-! ## What a client gets -/

/-- A client has got whole frames of messages `sent` to its session, and frames of others wait for
    it, each message at most once; no message is missing as long as its connection is open. The
    client reads the messages of the frames it has got. -/
def GotOnce (p : Peer) (waiting : List (List UInt8)) (sent : List OutboundMsg) : Prop :=
  ∃ ms later : List OutboundMsg, p.got = ms.map OutboundMsg.frame ∧
    waiting = later.map OutboundMsg.frame ∧ (ms ++ later).Subperm sent ∧
    (p.live = true → (ms ++ later).Perm sent) ∧ replies.readAll p.got.flatten = (ms, false)

/-- A rearrangement of frames is one of the messages. -/
theorem exists_of_perm_map {α β : Type} {f : α → β} {l : List β} {ms : List α}
    (h : l.Perm (ms.map f)) : ∃ ms' : List α, l = ms'.map f ∧ ms'.Perm ms := by
  have heach : List.Forall₂ (fun b a => b = f a) (ms.map f) ms :=
    List.forall₂_map_left_iff.mpr (List.forall₂_same.mpr fun _ _ => rfl)
  obtain ⟨ms', hmap, hperm⟩ := List.perm_comp_forall₂ h heach
  refine ⟨ms', ?_, hperm⟩
  rw [← List.forall₂_eq_eq_eq, List.forall₂_map_right_iff]
  exact hmap

theorem UringExchangeInv.gotOnce {sc : SetConfig} {x : UringExchange}
    (h : UringExchangeInv sc x) (hs : Sends .once x.u)
    (hn : x.u.wire.accepts < 2 ^ 32) {k : Nat} (hk : k < x.u.wire.accepts) :
    GotOnce (x.u.wire.peer k) (x.u.waiting k) (toSession (x.u.wire.peer k).sid x.drained) := by
  obtain ⟨hfirst, hall⟩ := h.inv.ties.addressed hn k hk
  have hsound := h.inv.ties.sentSound
  rw [x.log_snd] at hfirst hall hsound
  -- an open connection has all of them
  have hms : ∃ ms : List OutboundMsg, (x.u.wire.peer k).got ++ x.u.waiting k =
      ms.map OutboundMsg.frame ∧ ms.Subperm (toSession (x.u.wire.peer k).sid x.drained) ∧
      ((x.u.wire.peer k).live = true →
        ms.Perm (toSession (x.u.wire.peer k).sid x.drained)) := by
    cases hlive : (x.u.wire.peer k).live with
    | false =>
      obtain ⟨rest, hperm⟩ := hs.sent.first k
      obtain ⟨ms, hms, hperm⟩ := exists_of_perm_map hperm
      obtain ⟨ms₁, ms₂, rfl, hms₁, -⟩ := List.map_eq_append_iff.mp hms.symm
      refine ⟨ms₁, hms₁.symm, ?_, nofun⟩
      exact ((List.sublist_append_left ms₁ ms₂).subperm.trans hperm.subperm).trans
        hfirst.sublist.subperm
    | true =>
      obtain ⟨fd, hfd⟩ := (h.inv.tracks.live k).mp hlive
      have heven := hs.sent.even fd k ⟨hfd, h.inv.tracks.found hn fd k hfd⟩
      obtain ⟨ms, hms, hperm⟩ := exists_of_perm_map heven
      rw [hall hlive] at hperm
      exact ⟨ms, hms, hperm.subperm, fun _ => hperm⟩
  obtain ⟨ms, hms, hsub, hperm⟩ := hms
  obtain ⟨ms₁, ms₂, rfl, hgot, hwaits⟩ := List.map_eq_append_iff.mp hms.symm
  refine ⟨ms₁, ms₂, hgot.symm, hwaits.symm, hsub, hperm, ?_⟩
  have hread : replies.Whole (ms₁.flatMap OutboundMsg.frame) ms₁ := by
    refine whole_replies fun m hm => hsound m ?_
    exact List.mem_of_mem_filter (hsub.subset (List.mem_append_left _ hm))
  rw [← hgot, ← List.flatMap_def]
  exact hread.all rfl

/-- In every run of reactor, shard and kernel, on a kernel that completes each executed send once
    and whose `accept` returns descriptors that are not open, and as long as the counter of session
    ids has not come round: the exchange is transparent. If moreover every send takes its whole
    frame and, with `sqpoll`, no descriptor is closed while a send on it is still to be taken, no
    reply is lost, doubled or torn, also when replies overtake others. -/
theorem uring_exchange_transparent (depth : Depth) (su : Setup) (sqpoll : Bool)
    (slots : Nat → Nat → InboundMsg) (outSlots : Nat → Nat → OutboundMsg)
    (acts : List UringExchangeAct)
    (hk : Along (UringExchange.step (oneShard depth su))
      (UringExchange.Meets (oneShard depth su) UringGateway.KernelOk)
      (UringExchange.init (oneShard depth su) sqpoll slots outSlots) acts) :
    ∃ x, run (UringExchange.step (oneShard depth su))
        (UringExchange.init (oneShard depth su) sqpoll slots outSlots) acts = .ok x ∧
      (x.u.wire.accepts < 2 ^ 32 →
        Transparent (oneShard depth su) x.log x.u.toHost x.u.shard ∧
        (Along (UringExchange.step (oneShard depth su))
            (UringExchange.Meets (oneShard depth su) UringGateway.Whole)
            (UringExchange.init (oneShard depth su) sqpoll slots outSlots) acts →
          (sqpoll = true → Along (UringExchange.step (oneShard depth su))
            (UringExchange.Meets (oneShard depth su)
              (UringGateway.InTime (Backend.offer (oneShard depth su))))
            (UringExchange.init (oneShard depth su) sqpoll slots outSlots) acts) →
          ∀ k < x.u.wire.accepts, GotOnce (x.u.wire.peer k) (x.u.waiting k)
            (toSession (x.u.wire.peer k).sid x.drained))) := by
  obtain ⟨x, hrun, h⟩ := run_inv (I := fun _ x => UringExchangeInv (oneShard depth su) x)
    (fun _ x act hI hP => by
      obtain ⟨x', hstep, hinv, -⟩ := hI.step hP
      exact ⟨x', hstep, hinv⟩)
    (n := 0) (uringExchangeInv_init _ sqpoll slots outSlots) hk
  refine ⟨x, hrun, fun hn => ⟨h.inv.transparent hn, fun hwhole htime k hkn => ?_⟩⟩
  obtain ⟨x', hrun', -, hs⟩ := uring_sends .once hk htime
    (along_mono (fun _ _ hw r hr => ⟨nofun, fun _ => hw r hr⟩) hwhole)
  cases hrun.symm.trans hrun'
  exact h.gotOnce hs hn hkn

/-- If moreover the kernel executes the sends in the order in which it has taken them, and no
    message for a connection is popped with the pool full while frames wait for it, a client reads
    the first of the messages that the shard has sent to its session, in order; and the frames it
    has got and those that wait for it are all of them, as long as its connection is open. -/
theorem uring_replies_in_order (depth : Depth) (su : Setup) (sqpoll : Bool)
    (slots : Nat → Nat → InboundMsg) (outSlots : Nat → Nat → OutboundMsg)
    (acts : List UringExchangeAct)
    (hk : Along (UringExchange.step (oneShard depth su))
      (UringExchange.Meets (oneShard depth su) UringGateway.KernelOk)
      (UringExchange.init (oneShard depth su) sqpoll slots outSlots) acts)
    (hwhole : Along (UringExchange.step (oneShard depth su))
      (UringExchange.Meets (oneShard depth su) UringGateway.Whole)
      (UringExchange.init (oneShard depth su) sqpoll slots outSlots) acts)
    (htime : sqpoll = true → Along (UringExchange.step (oneShard depth su))
      (UringExchange.Meets (oneShard depth su)
        (UringGateway.InTime (Backend.offer (oneShard depth su))))
      (UringExchange.init (oneShard depth su) sqpoll slots outSlots) acts)
    (hfifo : Along (UringExchange.step (oneShard depth su))
      (UringExchange.Meets (oneShard depth su) UringGateway.Fifo)
      (UringExchange.init (oneShard depth su) sqpoll slots outSlots) acts)
    (hno : Along (UringExchange.step (oneShard depth su))
      (UringExchange.Meets (oneShard depth su) UringGateway.NoOvertaking)
      (UringExchange.init (oneShard depth su) sqpoll slots outSlots) acts) :
    ∃ x, run (UringExchange.step (oneShard depth su))
        (UringExchange.init (oneShard depth su) sqpoll slots outSlots) acts = .ok x ∧
      (x.u.wire.accepts < 2 ^ 32 → ∀ k < x.u.wire.accepts,
        (replies.readAll (x.u.wire.peer k).got.flatten).1 <+:
            toSession (x.u.wire.peer k).sid x.drained ∧
          (replies.readAll (x.u.wire.peer k).got.flatten).2 = false ∧
          ((x.u.wire.peer k).live = true → (x.u.wire.peer k).got ++ x.u.waiting k =
            (toSession (x.u.wire.peer k).sid x.drained).map OutboundMsg.frame)) := by
  obtain ⟨x, hrun, h, hs⟩ := uring_sends .inOrder hk htime
    (along_mono (fun _ _ hP r hr => ⟨fun _ => ⟨hP.1 r hr, hP.2.1 r hr⟩, fun _ => hP.2.2 r hr⟩)
      (along_and hno (along_and hfifo hwhole)))
  refine ⟨x, hrun, fun hn k hkn => ?_⟩
  obtain ⟨hfirst, hall⟩ := h.inv.ties.addressed hn k hkn
  have hsound := toSession_sound h.inv.ties.sentSound (x.u.wire.peer k).sid
  rw [x.log_snd] at hfirst hall hsound
  have hbytes : (x.u.wire.peer k).got.flatten <+:
      (toSession (x.u.wire.peer k).sid x.drained).flatMap OutboundMsg.frame := by
    have horder : (x.u.wire.peer k).got ++ x.u.waiting k <+: (x.u.wire.peer k).frameList :=
      hs.sent.first k
    rw [List.flatMap_def]
    refine List.IsPrefix.flatten ?_
    exact (List.prefix_append _ _).trans (horder.trans (hfirst.map _))
  obtain ⟨hread, hbad⟩ := hsound.first rfl hbytes
  refine ⟨hread, hbad, fun hlive => ?_⟩
  obtain ⟨fd, hfd⟩ := (h.inv.tracks.live k).mp hlive
  have heven : (x.u.wire.peer k).got ++ x.u.waiting k = (x.u.wire.peer k).frameList :=
    hs.sent.even fd k ⟨hfd, h.inv.tracks.found hn fd k hfd⟩
  unfold Peer.frameList at heven
  rw [hall hlive] at heven
  exact heven

/-- A client connects and sends a `CancelOrder` for a token the shard does not know; in the next
    turn the `Reject` is drained and submitted, and the thread of the ring takes and executes the
    send. -/
def uringStrayCancel : List UringExchangeAct :=
  [.drain 0, .cqe (.accept (some 5) true) [], .kernel (.take 1),
    .cqe (.recv 5 (some ⟨[16, 0, 3, 0, 0, 0, 0, 0, 9, 0, 0, 0, 0, 0, 0, 0], by decide,
      by decide⟩)) [],
    .turn, .work, .work, .work, .drain 24, .drain 24, .kernel (.take 2), .kernel (.exec 0 24),
    .cqe (.send 511) []]

/-- A shard behind rings of two places. -/
def uringSet : SetConfig := oneShard smallSet.depth smallSetup

theorem uring_exchange_transparent_stray_cancel :
    ∃ x, run (UringExchange.step uringSet) (UringExchange.init uringSet true blankIn blankOut)
        uringStrayCancel = .ok x ∧ Transparent uringSet x.log x.u.toHost x.u.shard ∧
      GotOnce (x.u.wire.peer 0) (x.u.waiting 0) (toSession (x.u.wire.peer 0).sid x.drained) := by
  obtain ⟨x, hrun, hall⟩ := uring_exchange_transparent smallSet.depth smallSetup true blankIn
    blankOut uringStrayCancel
    (along_of_check (p := fun x act => decide (x.Meets uringSet UringGateway.KernelOk act))
      (fun _ _ h => of_decide_eq_true h) (by decide +kernel))
  have hcode : (run (UringExchange.step uringSet)
      (UringExchange.init uringSet true blankIn blankOut) uringStrayCancel).map
        (fun x => x.u.wire.accepts) = .ok 1 := by decide +kernel
  have hrun' : run (UringExchange.step uringSet)
      (UringExchange.init uringSet true blankIn blankOut) uringStrayCancel = .ok x := hrun
  rw [hrun'] at hcode
  have haccepts : x.u.wire.accepts = 1 := Except.ok.inj hcode
  obtain ⟨htransparent, hgot⟩ := hall (by omega)
  refine ⟨x, hrun, htransparent, hgot ?_ ?_ 0 (by omega)⟩
  · exact along_of_check (p := fun x act => decide (x.Meets uringSet UringGateway.Whole act))
      (fun _ _ h => of_decide_eq_true h) (by decide +kernel)
  · exact fun _ => along_of_check (p := fun x act =>
        decide (x.Meets uringSet (UringGateway.InTime (Backend.offer uringSet)) act))
      (fun _ _ h => of_decide_eq_true h) (by decide +kernel)

theorem uring_replies_in_order_stray_cancel :
    ∃ x, run (UringExchange.step uringSet) (UringExchange.init uringSet true blankIn blankOut)
        uringStrayCancel = .ok x ∧ x.drained.length = 1 ∧ (x.u.wire.peer 0).got.length = 1 ∧
      (x.u.wire.peer 0).got ++ x.u.waiting 0 =
        (toSession (x.u.wire.peer 0).sid x.drained).map OutboundMsg.frame := by
  obtain ⟨x, hrun, hall⟩ := uring_replies_in_order smallSet.depth smallSetup true blankIn blankOut
    uringStrayCancel
    (along_of_check (p := fun x act => decide (x.Meets uringSet UringGateway.KernelOk act))
      (fun _ _ h => of_decide_eq_true h) (by decide +kernel))
    (along_of_check (p := fun x act => decide (x.Meets uringSet UringGateway.Whole act))
      (fun _ _ h => of_decide_eq_true h) (by decide +kernel))
    (fun _ => along_of_check (p := fun x act =>
        decide (x.Meets uringSet (UringGateway.InTime (Backend.offer uringSet)) act))
      (fun _ _ h => of_decide_eq_true h) (by decide +kernel))
    (along_of_check (p := fun x act => decide (x.Meets uringSet UringGateway.Fifo act))
      (fun _ _ h => of_decide_eq_true h) (by decide +kernel))
    (along_of_check (p := fun x act => decide (x.Meets uringSet UringGateway.NoOvertaking act))
      (fun _ _ h => of_decide_eq_true h) (by decide +kernel))
  have hcode : (run (UringExchange.step uringSet)
      (UringExchange.init uringSet true blankIn blankOut) uringStrayCancel).map
        (fun x => (x.u.wire.accepts, (x.u.wire.peer 0).live, x.drained.length,
          (x.u.wire.peer 0).got.length)) = .ok (1, true, 1, 1) := by decide +kernel
  have hrun' : run (UringExchange.step uringSet)
      (UringExchange.init uringSet true blankIn blankOut) uringStrayCancel = .ok x := hrun
  rw [hrun'] at hcode
  obtain ⟨haccepts, hlive, hdrained, hgot⟩ := by simpa [Except.map] using hcode
  exact ⟨x, hrun, hdrained, hgot, (hall (by omega) 0 (by omega)).2.2 hlive⟩

end LiteExchange.Net

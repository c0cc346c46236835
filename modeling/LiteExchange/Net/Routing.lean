/-
  Replies reach their own connection. As long as the counter of session ids has not come round, the
  table of sessions and the map from ids to descriptors are inverse to each other and no two
  connections have had the same id (`Tracks.paired`). So on the epoll gateway a message goes to the
  connection that was given its session id at the accept, if that is still open, and to none
  otherwise, whichever client has the descriptor by now.

  On the io_uring gateway a message is put into an entry that names a descriptor. Without `sqpoll`
  the kernel takes the entry before a completion can close the descriptor. With `sqpoll` its thread
  may take the entry later, when the descriptor has been closed and given to another client, who
  then gets the message (`late_entry_misdelivered`). `replies_reach_own_connection`: as long as no
  descriptor is closed while a send on it is still to be taken, replies reach their own connection
  on this gateway too.
-/
import LiteExchange.Net.Gateway
import LiteExchange.Net.Delivery

namespace LiteExchange.Net

open Lib Proto

variable {σ : Type}

/-- The sessions by descriptor and the descriptors by id are inverse to each other, and an id is
    given once. -/
structure Paired (h : Host) : Prop where
  inverse : ∀ fd sid, (∃ s, h.conns.sessions fd = some s ∧ s.sessionId = sid) ↔
    h.conns.sidToFd sid = some fd
  distinct : ∀ j < h.wire.accepts, ∀ k < h.wire.accepts,
    (h.wire.peer j).sid = (h.wire.peer k).sid → j = k

theorem Tracks.paired {h : Host} (ht : Tracks h) (hn : h.wire.accepts < 2 ^ 32) : Paired h := by
  refine ⟨fun fd sid => ⟨?_, fun hroute => ?_⟩, fun j hj k hk hsid => ?_⟩
  · rintro ⟨s, hs, rfl⟩
    obtain ⟨k, hk⟩ := ht.exists_conn hs
    rw [ht.stamped fd k s hk hs]
    exact ht.found hn fd k hk
  · obtain ⟨k, hk, hsid⟩ := ht.route sid fd hroute
    obtain ⟨s, hs, hid⟩ := ht.exists_session hk
    exact ⟨s, hs, hid.trans hsid⟩
  · rw [ht.ids j hj, ht.ids k hk] at hsid
    exact ids_inj hn hj hk hsid

/-- The connection is open and was given the session of the message at its accept. -/
def Peer.Addressee (p : Peer) (m : OutboundMsg) : Prop :=
  p.live = true ∧ p.sid = m.hdr.sessionId

instance Peer.decidableAddressee (p : Peer) (m : OutboundMsg) : Decidable (p.Addressee m) :=
  inferInstanceAs (Decidable (_ ∧ _))

/-- A message popped is sent to its addressee only. -/
def Gateway.Delivers (gw : Gateway σ) : Prop :=
  ∀ m answers k, ((gw.out m answers).wire.peer k).got = (gw.wire.peer k).got ++
    if (gw.wire.peer k).Addressee m then sendAll m.frame answers else []

/-- A message popped is sent to its addressee or waits for it, and nothing is done for the other
    connections. What waits is for the connection that was given the session of the message. And
    what a connection has got, or waits for it, is of messages popped for its session. -/
structure UringGateway.Delivers (u : UringGateway σ) : Prop where
  out : ∀ m n, ∃ u', u.out m n = .ok u' ∧ ∀ k,
    if (u.wire.peer k).Addressee m then
      ((u'.wire.peer k).got = (u.wire.peer k).got ++ [m.frame.take n] ∧
          u'.waiting k = u.waiting k) ∨
        ((u'.wire.peer k).got = (u.wire.peer k).got ∧ u'.waiting k = u.waiting k ++ [m.frame])
    else (u'.wire.peer k).got = (u.wire.peer k).got ∧ u'.waiting k = u.waiting k
  entries : ∀ e ∈ u.queued, ∃ k < u.wire.accepts, e.conn = some k ∧
    (u.wire.peer k).sid = (u.sendPool e.slot).hdr.sessionId
  own : ∀ k, ∀ bytes ∈ (u.wire.peer k).got ++ u.waiting k, ∃ m ∈ (u.wire.peer k).addressed,
    bytes <+: m.frame

theorem Gateway.delivers {gw : Gateway σ} (ht : Tracks gw.toHost)
    (hn : gw.wire.accepts < 2 ^ 32) : gw.Delivers := by
  intro m answers k
  have hiff : gw.toHost.Leads m k ↔ (gw.wire.peer k).Addressee m := ht.leads_iff hn
  obtain ⟨hleads, hpeer⟩ | ⟨hleads, hpeer⟩ := gw.out_peer m answers k
  · rw [hpeer, if_pos (hiff.mp hleads)]
    unfold Peer.sends
    rw [(Peer.popped_got _ m).1]
  · rw [hpeer, if_neg (mt hiff.mpr hleads), List.append_nil, (Peer.popped_got _ m).1]

theorem UringGateway.delivers {u : UringGateway σ} (hs : Sends .own u)
    (hn : u.wire.accepts < 2 ^ 32) : u.Delivers := by
  refine ⟨fun m n => ?_, hs.owned, fun k bytes hbytes => ?_⟩
  · obtain ⟨u', heq, -, hp⟩ := hs.inv.out m n
    refine ⟨u', heq, fun k => ?_⟩
    have hiff : u.toHost.Leads m k ↔ (u.wire.peer k).Addressee m := hs.inv.tracks.leads_iff hn
    cases hp.outcome k with
    | other hleads hgot hwaits =>
      rw [if_neg (mt hiff.mpr hleads)]
      exact ⟨hgot, hwaits⟩
    | direct hleads _ hgot hwaits =>
      rw [if_pos (hiff.mp hleads)]
      exact .inl ⟨hgot, hwaits⟩
    | queued hleads _ hgot hwaits =>
      rw [if_pos (hiff.mp hleads)]
      exact .inr ⟨hgot, hwaits⟩
  · obtain ⟨rest, hall⟩ := hs.sent.first k
    obtain ⟨frame, hframe, hpart⟩ := hall bytes (List.mem_append_left _ hbytes)
    obtain ⟨m, hm, rfl⟩ := List.mem_map.mp hframe
    exact ⟨m, hm, hpart⟩

/-- On both gateways, over a kernel whose `accept` returns descriptors that are not open: after
    any steps, fewer than `2 ^ 32` of them accepts, the tables are inverse to each other and a
    message goes to the connection that was given its session, if that is open. On the io_uring
    gateway with `sqpoll` this asks that no descriptor is closed while a send on it is still to be
    taken. -/
theorem replies_reach_own_connection (push : σ → InboundMsg → σ × Bool) (q : σ) :
    (∀ acts, Along (Gateway.step push) Gateway.KernelOk (Gateway.init q) acts →
      ∃ gw, run (Gateway.step push) (Gateway.init q) acts = .ok gw ∧
        (gw.wire.accepts < 2 ^ 32 → Paired gw.toHost ∧ gw.Delivers)) ∧
    (∀ (sqpoll : Bool) (polls : List UringPoll) (acts : List UringAct),
      acts <+: polls.flatMap UringPoll.acts →
      Along (UringGateway.step push) UringGateway.KernelOk (UringGateway.init q sqpoll) acts →
      (sqpoll = true → Along (UringGateway.step push) (UringGateway.InTime push)
        (UringGateway.init q sqpoll) acts) →
      ∃ u, run (UringGateway.step push) (UringGateway.init q sqpoll) acts = .ok u ∧
        (u.wire.accepts < 2 ^ 32 → Paired u.toHost ∧ u.Delivers)) := by
  refine ⟨fun acts hk => ?_, fun sqpoll polls acts hacts hk htime => ?_⟩
  · obtain ⟨gw, hrun, ht⟩ := run_inv (I := fun _ gw => Tracks gw.toHost)
      (fun _ gw act ht hk => Gateway.step_tracks act ht hk) (n := 0) tracks_init hk
    exact ⟨gw, hrun, fun hn => ⟨ht.paired hn, Gateway.delivers ht hn⟩⟩
  · obtain ⟨u, hrun, hs⟩ := sends_run .own q sqpoll hacts hk htime
      (along_mono (fun _ _ _ => ⟨nofun, nofun⟩) hk)
    exact ⟨u, hrun, fun hn => ⟨hs.inv.tracks.paired hn, UringGateway.delivers hs hn⟩⟩

/-- A client connects and leaves, and another one gets its descriptor. -/
def reusedFd : List GatewayAct :=
  [.event (.listen [5]), .event (.ready 5 [] true), .event (.listen [5])]

/-- The same, after the first client was sent an Ack. -/
def reusedFdTurns : List UringPoll :=
  [⟨[], [], [(.accept (some 5) true, [.take 1])]⟩,
    ⟨[((firstAck, 24), [])], [.take 1, .exec 0 24],
      [(.recv 5 none, []), (.accept (some 5) true, [])]⟩]

theorem replies_reach_own_connection_reused_fd :
    (∃ gw, run (Gateway.step takeAll) (Gateway.init ()) reusedFd = .ok gw ∧
      Paired gw.toHost ∧ gw.Delivers) ∧
    (∃ u, run (UringGateway.step takeAll) (UringGateway.init () true)
        (reusedFdTurns.flatMap UringPoll.acts) = .ok u ∧ Paired u.toHost ∧ u.Delivers) := by
  obtain ⟨hepoll, huring⟩ := replies_reach_own_connection takeAll ()
  refine ⟨?_, ?_⟩
  · obtain ⟨gw, hrun, hboth⟩ := hepoll reusedFd
      (along_of_check (p := fun gw act => decide (gw.KernelOk act))
        (fun _ _ h => of_decide_eq_true h) (by decide +kernel))
    have hcode : (run (Gateway.step takeAll) (Gateway.init ()) reusedFd).map
        (fun gw => gw.wire.accepts) = .ok 2 := by decide +kernel
    rw [hrun] at hcode
    have haccepts : gw.wire.accepts = 2 := Except.ok.inj hcode
    exact ⟨gw, hrun, hboth (by omega)⟩
  · obtain ⟨u, hrun, hboth⟩ := huring true reusedFdTurns _ (List.prefix_refl _)
      (along_of_check (p := fun u act => decide (u.KernelOk act))
        (fun _ _ h => of_decide_eq_true h) (by decide +kernel))
      (fun _ => along_of_check (p := fun u act => decide (u.InTime takeAll act))
        (fun _ _ h => of_decide_eq_true h) (by decide +kernel))
    have hcode : (run (UringGateway.step takeAll) (UringGateway.init () true)
        (reusedFdTurns.flatMap UringPoll.acts)).map (fun u => u.wire.accepts) = .ok 2 := by
      decide +kernel
    rw [hrun] at hcode
    have haccepts : u.wire.accepts = 2 := Except.ok.inj hcode
    exact ⟨u, hrun, hboth (by omega)⟩

/-! ## An entry taken late -/

/-- The send of the Ack is taken when the other client has the descriptor. -/
def lateTurns : List UringPoll :=
  [⟨[], [], [(.accept (some 5) true, [.take 1])]⟩,
    ⟨[((firstAck, 24), [])], [],
      [(.recv 5 none, []), (.accept (some 5) true, [.take 1, .exec 0 24])]⟩]

/-- How many there were of accepts, of frames the second client has got, and of messages popped for
    it. -/
def secondClient (polls : List UringPoll) : Except Fault (Nat × Nat × Nat) := do
  let u ← run (UringGateway.step takeAll) (UringGateway.init () true)
    (polls.flatMap UringPoll.acts)
  return (u.wire.accepts, (u.wire.peer 1).got.length, (u.wire.peer 1).addressed.length)

/-- With `sqpoll` the reply to a client that has left can reach another one. -/
theorem late_entry_misdelivered :
    ¬ ∀ (push : Unit → InboundMsg → Unit × Bool) (polls : List UringPoll) (acts : List UringAct),
      acts <+: polls.flatMap UringPoll.acts →
      Along (UringGateway.step push) UringGateway.KernelOk (UringGateway.init () true) acts →
      ∃ u, run (UringGateway.step push) (UringGateway.init () true) acts = .ok u ∧
        (u.wire.accepts < 2 ^ 32 → Paired u.toHost ∧ u.Delivers) := by
  intro hall
  obtain ⟨u, hrun, hboth⟩ := hall takeAll lateTurns _ (List.prefix_refl _)
    (along_of_check (p := fun u act => decide (u.KernelOk act))
      (fun _ _ h => of_decide_eq_true h) (by decide +kernel))
  have hcode : secondClient lateTurns = .ok (2, 1, 0) := by decide +kernel
  unfold secondClient at hcode
  rw [hrun, ok_bind] at hcode
  obtain ⟨haccepts, hgot, hnone⟩ := Prod.mk.inj (Except.ok.inj hcode) |>.imp_right Prod.mk.inj
  obtain ⟨bytes, hbytes⟩ := List.length_eq_one_iff.mp hgot
  obtain ⟨-, hdelivers⟩ := hboth (by omega)
  obtain ⟨m, hm, -⟩ := hdelivers.own 1 bytes (by rw [hbytes]; exact List.mem_cons_self)
  rw [List.length_eq_zero_iff.mp hnone] at hm
  cases hm

end LiteExchange.Net

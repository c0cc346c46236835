/-
  The order of a connection's frames on the io_uring gateway. A frame takes one of two ways: an
  entry of the submission queue, which is executed after those before it, or, when all slots are
  in use, a `send` at the call. The second way overtakes the entries that still wait
  (`full_pool_overtakes`). `outbound_in_order`: if no message for a connection is popped with the
  pool full while frames wait for it, every connection gets its frames in the order they were
  popped. With `sqpoll`, this asks that no descriptor is closed while a send on it is still to be
  taken.
-/
import LiteExchange.Net.Delivery

namespace LiteExchange.Net

open Lib Proto

variable {σ : Type}

/-- On a kernel that executes the sends in their order, each with its whole frame, whatever is
    popped and whenever sends are taken, executed and completed: if no message for a connection is
    popped with the pool full while frames wait for it, then at every point each connection has got
    a first part of its frames, in the order they were popped; and the rest of them waits, as long
    as its session leads to it. -/
theorem outbound_in_order (push : σ → InboundMsg → σ × Bool) (q : σ) (sqpoll : Bool)
    (polls : List UringPoll) (acts : List UringAct) (hacts : acts <+: polls.flatMap UringPoll.acts)
    (hk : Along (UringGateway.step push) UringGateway.KernelOk (UringGateway.init q sqpoll) acts)
    (hfifo : Along (UringGateway.step push) UringGateway.Fifo (UringGateway.init q sqpoll) acts)
    (hwhole : Along (UringGateway.step push) UringGateway.Whole (UringGateway.init q sqpoll) acts)
    (htime : sqpoll = true →
      Along (UringGateway.step push) (UringGateway.InTime push) (UringGateway.init q sqpoll) acts)
    (hno : Along (UringGateway.step push) UringGateway.NoOvertaking (UringGateway.init q sqpoll)
      acts) :
    ∃ u, run (UringGateway.step push) (UringGateway.init q sqpoll) acts = .ok u ∧
      (∀ k, (u.wire.peer k).got <+: (u.wire.peer k).frameList) ∧
      ∀ fd k, u.toHost.Routed fd k →
        (u.wire.peer k).got ++ u.waiting k = (u.wire.peer k).frameList := by
  have hbears : Along (UringGateway.step push) (UringGateway.Bears .inOrder)
      (UringGateway.init q sqpoll) acts :=
    along_mono (fun _ _ h => ⟨fun _ => h.1, fun _ => h.2⟩) (along_and (along_and hno hfifo) hwhole)
  obtain ⟨u, hrun, hs⟩ := sends_run .inOrder q sqpoll hacts hk htime hbears
  exact ⟨u, hrun, fun k => (List.prefix_append _ _).trans (hs.sent.first k), hs.sent.even⟩

/-! ## Two frames in order -/

/-- Acks for the first session. -/
def numberedAck (n : UInt64) : OutboundMsg := .ack ⟨⟨24, .ack, 0, 1⟩, n, 0⟩

/-- A turn in which a client connects. -/
def connectTurn : UringPoll := ⟨[], [], [(.accept (some 5) true, [])]⟩

/-- The client is sent two Acks; the kernel executes both before the first completion. -/
def twoTurns : List UringPoll :=
  [connectTurn, ⟨[((numberedAck 7, 24), []), ((numberedAck 8, 24), [])],
    [.exec 0 24, .exec 0 24], [(.send 511, [])]⟩]

theorem outbound_in_order_two_acks :
    ∃ u, run (UringGateway.step takeAll) (UringGateway.init () false)
        (twoTurns.flatMap UringPoll.acts) = .ok u ∧
      (u.wire.peer 0).got <+: (u.wire.peer 0).frameList := by
  obtain ⟨u, hrun, horder, -⟩ := outbound_in_order takeAll () false twoTurns _
    (List.prefix_refl _)
    (along_of_check (p := fun u act => decide (u.KernelOk act))
      (fun _ _ h => of_decide_eq_true h) (by decide +kernel))
    (along_of_check (p := fun u act => decide (u.Fifo act))
      (fun _ _ h => of_decide_eq_true h) (by decide +kernel))
    (along_of_check (p := fun u act => decide (u.Whole act))
      (fun _ _ h => of_decide_eq_true h) (by decide +kernel))
    nofun
    (along_of_check (p := fun u act => decide (u.NoOvertaking act))
      (fun _ _ h => of_decide_eq_true h) (by decide +kernel))
  exact ⟨u, hrun, horder 0⟩

/-! ## A full pool -/

section Full

variable {u u' : UringGateway σ} {m : OutboundMsg} {k n : Nat}

theorem Popped.leads (hp : Popped u m n u') {m' : OutboundMsg} (hm : u.toHost.Leads m' k) :
    u'.toHost.Leads m' k := by
  obtain ⟨fd, hroute, hk⟩ := hm
  exact ⟨fd, hp.conns ▸ hroute, hp.same.onFd ▸ hk⟩

/-- Messages popped while slots are free wait in their entries. -/
theorem fill_pool (push : σ → InboundMsg → σ × Bool) (hu : UringInv u)
    (hm : u.toHost.Leads m k) {count : Nat} (hcount : count ≤ u.freeTop) :
    ∃ u', run (UringGateway.step push) u (List.replicate count (.out m n)) = .ok u' ∧
      UringInv u' ∧ u'.toHost.Leads m k ∧ u'.freeTop = u.freeTop - count ∧
      (u'.wire.peer k).got = (u.wire.peer k).got ∧
      (u'.wire.peer k).frameList = (u.wire.peer k).frameList ++ List.replicate count m.frame := by
  induction count generalizing u with
  | zero => exact ⟨u, rfl, hu, hm, rfl, rfl, (List.append_nil _).symm⟩
  | succ count ih =>
    obtain ⟨u₁, heq, hu₁, hp⟩ := hu.out m n
    have htop := hp.freeTop k hm
    have hgot : (u₁.wire.peer k).got = (u.wire.peer k).got := by
      cases hp.outcome k with
      | other hother => exact absurd hm hother
      | direct _ hfull => omega
      | queued _ _ hgot => exact hgot
    obtain ⟨u₂, hrun, hu₂, hm₂, htop₂, hgot₂, hframes⟩ := ih hu₁ (hp.leads hm) (by omega)
    refine ⟨u₂, ?_, hu₂, hm₂, by omega, hgot₂.trans hgot, ?_⟩
    · have hstep : u.step push (.out m n) = .ok u₁ := heq
      rw [List.replicate_succ, run, hstep, ok_bind, hrun]
    · rw [hframes, hp.frameList_lead hu.tracks hm, List.replicate_succ, List.append_assoc,
        List.singleton_append]

/-- With the pool full, the next message is got before those that wait. -/
theorem full_pool_direct (push : σ → InboundMsg → σ × Bool) (hu : UringInv u)
    (hm : u.toHost.Leads m k) (hfull : u.freeTop = 0) :
    ∃ u', u.step push (.out m n) = .ok u' ∧
      (u'.wire.peer k).got = (u.wire.peer k).got ++ [m.frame.take n] ∧
      (u'.wire.peer k).frameList = (u.wire.peer k).frameList ++ [m.frame] := by
  obtain ⟨u', heq, -, hp⟩ := hu.out m n
  refine ⟨u', heq, ?_, hp.frameList_lead hu.tracks hm⟩
  cases hp.outcome k with
  | other hother => exact absurd hm hother
  | direct _ _ hgot => exact hgot
  | queued _ hfree => exact absurd hfull hfree

end Full

/-- One message more than there are slots. -/
def fullPool : List UringAct :=
  List.replicate sendSlots (.out (numberedAck 7) 24) ++ [.out (numberedAck 8) 24]

/-- A client connects, and is then sent these in one turn. -/
def fullTurns : List UringPoll :=
  [connectTurn, ⟨List.replicate sendSlots ((numberedAck 7, 24), []) ++
    [((numberedAck 8, 24), [])], [], []⟩]

theorem fullPool_in_turns : connectTurn.acts ++ fullPool <+: fullTurns.flatMap UringPoll.acts := by
  refine ⟨[.submit], ?_⟩
  unfold fullPool fullTurns
  rw [List.flatMap_cons, List.flatMap_singleton, List.append_assoc]
  refine congrArg (connectTurn.acts ++ ·) ?_
  unfold UringPoll.acts
  rw [List.flatMap_append, List.flatMap_replicate]
  simp

/-- The client has connected. -/
def connected : UringGateway Unit := (UringGateway.init () false).submit.onAccept (some 5) true

theorem connected_inv : UringInv connected := by
  have hsubmit : UringInv (UringGateway.init () false).submit := uringInv_init () false
  obtain ⟨u, hstep, hu⟩ := hsubmit.cqe takeAll (c := .accept (some 5) true) fun _ _ => rfl
  cases hstep
  exact hu

/-- The last message is got first. -/
theorem fullPool_run :
    ∃ u, run (UringGateway.step takeAll) (UringGateway.init () false)
        (connectTurn.acts ++ fullPool) = .ok u ∧
      (u.wire.peer 0).got = [(numberedAck 8).frame] ∧
      (u.wire.peer 0).frameList.head? = some (numberedAck 7).frame := by
  have hconnect : run (UringGateway.step takeAll) (UringGateway.init () false)
      connectTurn.acts = .ok connected := rfl
  have hleads : connected.toHost.Leads (numberedAck 7) 0 := ⟨5, rfl, rfl⟩
  obtain ⟨u₁, hfill, hu₁, hleads₁, htop, hgot₁, hframes₁⟩ :=
    fill_pool takeAll (n := 24) connected_inv hleads (Nat.le_refl sendSlots)
  obtain ⟨u₂, hlast, hgot₂, hframes₂⟩ := full_pool_direct takeAll (n := 24) hu₁
    (m := numberedAck 8) hleads₁ (htop.trans (Nat.sub_self _))
  have hwhole : (numberedAck 8).frame.take 24 = (numberedAck 8).frame := by decide +kernel
  refine ⟨u₂, ?_, ?_, ?_⟩
  · rw [run_append, hconnect, ok_bind, fullPool, run_snoc hfill, hlast]
  · rw [hgot₂, hgot₁, hwhole]
    rfl
  · rw [hframes₂, hframes₁, sendSlots, List.replicate_succ]
    rfl

theorem fullPool_along {P : UringGateway Unit → UringAct → Prop}
    (hconnect : Along (UringGateway.step takeAll) P (UringGateway.init () false) connectTurn.acts)
    (hout : ∀ u i, P u (.out (numberedAck i) 24)) :
    Along (UringGateway.step takeAll) P (UringGateway.init () false)
      (connectTurn.acts ++ fullPool) := by
  refine along_append.mpr ⟨hconnect, fun u _ => ?_⟩
  refine along_of_inv (I := fun _ => True) trivial (fun act hact u _ => ?_) fun _ _ _ _ _ _ =>
    trivial
  rcases List.mem_append.mp hact with hact | hact
  · obtain rfl := List.eq_of_mem_replicate hact
    exact hout u 7
  · obtain rfl := List.mem_singleton.mp hact
    exact hout u 8

/-- The frames of a connection can arrive in another order. -/
theorem full_pool_overtakes :
    ¬ ∀ (push : Unit → InboundMsg → Unit × Bool) (polls : List UringPoll) (acts : List UringAct),
      acts <+: polls.flatMap UringPoll.acts →
      Along (UringGateway.step push) UringGateway.KernelOk (UringGateway.init () false) acts →
      Along (UringGateway.step push) UringGateway.Fifo (UringGateway.init () false) acts →
      Along (UringGateway.step push) UringGateway.Whole (UringGateway.init () false) acts →
      ∃ u, run (UringGateway.step push) (UringGateway.init () false) acts = .ok u ∧
        ∀ k, (u.wire.peer k).got <+: (u.wire.peer k).frameList := by
  intro hall
  obtain ⟨u, hrun, horder⟩ := hall takeAll fullTurns _ fullPool_in_turns
    (fullPool_along (along_of_check (p := fun u act => decide (u.KernelOk act))
      (fun _ _ h => of_decide_eq_true h) (by decide +kernel)) fun _ _ => trivial)
    (fullPool_along (along_of_check (p := fun u act => decide (u.Fifo act))
      (fun _ _ h => of_decide_eq_true h) (by decide +kernel)) fun _ _ => trivial)
    (fullPool_along (along_of_check (p := fun u act => decide (u.Whole act))
      (fun _ _ h => of_decide_eq_true h) (by decide +kernel)) fun _ _ =>
        List.length_take_le _ _)
  obtain ⟨u', hrun', hgot, hframes⟩ := fullPool_run
  cases hrun.symm.trans hrun'
  obtain ⟨rest, heq⟩ := horder 0
  rw [← heq, hgot] at hframes
  have hsame : (numberedAck 8).frame = (numberedAck 7).frame := Option.some_inj.mp hframes
  exact absurd hsame (by decide +kernel)

end LiteExchange.Net

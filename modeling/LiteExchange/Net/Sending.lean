/-
  The outbound stream of a connection on the epoll gateway. `send_all` gives a frame up at the
  byte where `send` fails, and `drain_outbound` goes on with the next frame, so a connection that
  takes bytes again after a failed send gets a stream with a hole in it (`cut_frame_followed`).
  `stream_intact`: on a kernel where a connection whose send has failed takes no more bytes, every
  connection has got a first part of its frames.
-/
import LiteExchange.Net.Gateway

namespace LiteExchange.Net

open Lib Proto

variable {σ : Type}

/-- The bytes of the frames popped for a connection. -/
def Peer.frames (p : Peer) : List UInt8 := p.addressed.flatMap OutboundMsg.frame

/-- The bytes a connection has got are the first of its frames; all of them, if its session still
    leads to it and no send has failed. -/
structure OutInv (h : Host) : Prop where
  inOrder : ∀ k, (h.wire.peer k).got.flatten <+: (h.wire.peer k).frames
  even : ∀ fd k, h.wire.onFd fd = some k → h.conns.sidToFd (h.wire.peer k).sid = some fd →
    (h.wire.peer k).failed = false → (h.wire.peer k).got.flatten = (h.wire.peer k).frames

/-- A connection whose send has failed takes no more bytes. -/
def Gateway.StaysFailed (gw : Gateway σ) : GatewayAct → Prop
  | .event _ => True
  | .out m answers => ∀ fd ∈ gw.conns.sidToFd m.hdr.sessionId, ∀ k ∈ gw.wire.onFd fd,
      (gw.wire.peer k).failed = true → answers.headD 0 = 0

instance (gw : Gateway σ) : ∀ act, Decidable (gw.StaysFailed act)
  | .event _ => isTrue trivial
  | .out m answers => inferInstanceAs (Decidable (∀ fd ∈ gw.conns.sidToFd m.hdr.sessionId,
      ∀ k ∈ gw.wire.onFd fd, (gw.wire.peer k).failed = true → answers.headD 0 = 0))

section Inv

variable {push : σ → InboundMsg → σ × Bool} {gw : Gateway σ} {h : Host} {fd : Nat}

theorem outInv_init : OutInv Host.init := ⟨fun _ => List.nil_prefix, nofun⟩

theorem Peer.frames_popped (p : Peer) (m : OutboundMsg) : p.frames <+: (p.popped m).frames := by
  unfold Peer.popped Peer.frames
  split
  · rw [List.flatMap_append]
    exact List.prefix_append _ _
  · exact List.prefix_refl _

/-- What happens to connections but not to what they are sent. -/
theorem OutInv.keep (hinv : OutInv h) {h' : Host}
    (hpeer : ∀ k, (h.wire.peer k).SameOut (h'.wire.peer k))
    (hrouted : ∀ fd k, h'.Routed fd k → h.Routed fd k) : OutInv h' := by
  refine ⟨fun k => ?_, fun fd k hk hroute hfailed => ?_⟩
  · unfold Peer.frames
    rw [(hpeer k).got, (hpeer k).addressed]
    exact hinv.inOrder k
  · obtain ⟨hk, hroute⟩ := hrouted fd k ⟨hk, hroute⟩
    unfold Peer.frames
    rw [(hpeer k).got, (hpeer k).addressed]
    exact hinv.even fd k hk hroute ((hpeer k).failed ▸ hfailed)

theorem OutInv.accept (hinv : OutInv h) (fd : Nat) : OutInv (h.accept fd) := by
  refine ⟨fun k => ?_, fun fd' k hk hroute hfailed => ?_⟩ <;>
    rcases eq_or_ne k h.wire.accepts with rfl | hne
  · rw [Host.accept_peer_new]
    exact List.nil_prefix
  · rw [Host.accept_peer_old _ _ hne]
    exact hinv.inOrder k
  · rw [Host.accept_peer_new]
    rfl
  · obtain ⟨hk, hroute⟩ := Host.Routed.of_accept hne ⟨hk, hroute⟩
    rw [Host.accept_peer_old _ _ hne] at hfailed ⊢
    exact hinv.even fd' k hk hroute hfailed

theorem OutInv.close (hinv : OutInv h) (fd : Nat) : OutInv (h.close fd) :=
  hinv.keep (h.close_sameOut fd) fun _ _ hr => hr.of_close

theorem OutInv.read (hinv : OutInv h) {q : σ} {chunk : List UInt8} {h' : Host} {q' : σ}
    (heq : h.read push fd chunk q = .ok (h', q')) : OutInv h' :=
  hinv.keep (Host.read_sameOut heq) fun _ _ hr => hr.of_read heq

/-- A message after which the bytes got are still the first of the frames. -/
theorem Peer.sends_inOrder {p : Peer} {m : OutboundMsg} {answers : List Nat}
    (horder : p.got.flatten <+: p.frames) (heven : p.failed = false → p.got.flatten = p.frames)
    (hlive : p.live = true ∧ p.sid = m.hdr.sessionId)
    (hfailed : p.failed = true → answers.headD 0 = 0) :
    (((p.popped m).sends (sendAll m.frame answers)).got.flatten <+:
        ((p.popped m).sends (sendAll m.frame answers)).frames) ∧
      (((p.popped m).sends (sendAll m.frame answers)).failed = false →
        ((p.popped m).sends (sendAll m.frame answers)).got.flatten =
          ((p.popped m).sends (sendAll m.frame answers)).frames) := by
  have hframes : ((p.popped m).sends (sendAll m.frame answers)).frames = p.frames ++ m.frame := by
    unfold Peer.sends Peer.popped Peer.frames
    rw [if_pos hlive, List.flatMap_append, List.flatMap_singleton]
  have hgot : ((p.popped m).sends (sendAll m.frame answers)).got.flatten =
      p.got.flatten ++ (sendAll m.frame answers).flatten := by
    unfold Peer.sends
    rw [(p.popped_got m).1, List.flatten_append]
  rw [hframes, hgot]
  cases hf : p.failed with
  | true =>
    rw [sendAll_flatten_nil (hfailed hf), List.append_nil]
    refine ⟨horder.trans (List.prefix_append _ _), fun hno => ?_⟩
    unfold Peer.sends at hno
    rw [(p.popped_got m).2, hf] at hno
    cases hno
  | false =>
    rw [heven hf]
    refine ⟨(List.prefix_append_right_inj _).mpr (sendAll_isPrefix _ _), fun hno => ?_⟩
    unfold Peer.sends at hno
    rw [Bool.or_eq_false_iff] at hno
    rw [sendAll_flatten hno.2]

theorem OutInv.sends (hinv : OutInv gw.toHost) (ht : Tracks gw.toHost) {m : OutboundMsg}
    {answers : List Nat} (hstays : gw.StaysFailed (.out m answers)) {k : Nat}
    (hroute : gw.conns.sidToFd m.hdr.sessionId = some fd) (hk : gw.wire.onFd fd = some k) :
    (((gw.wire.peer k).popped m).sends (sendAll m.frame answers)).got.flatten <+:
        (((gw.wire.peer k).popped m).sends (sendAll m.frame answers)).frames ∧
      ((((gw.wire.peer k).popped m).sends (sendAll m.frame answers)).failed = false →
        (((gw.wire.peer k).popped m).sends (sendAll m.frame answers)).got.flatten =
          (((gw.wire.peer k).popped m).sends (sendAll m.frame answers)).frames) := by
  obtain ⟨hlive, hsid⟩ := ht.leads ⟨fd, hroute, hk⟩
  exact Peer.sends_inOrder (hinv.inOrder k) (hinv.even fd k hk (hsid ▸ hroute)) ⟨hlive, hsid⟩
    (hstays fd hroute k hk)

theorem OutInv.out (hinv : OutInv gw.toHost) (ht : Tracks gw.toHost) {m : OutboundMsg}
    {answers : List Nat} (hstays : gw.StaysFailed (.out m answers)) :
    OutInv (gw.out m answers).toHost := by
  obtain ⟨hsame, hconns⟩ := gw.out_same m answers
  refine ⟨fun k => ?_, fun fd k hk hroute hfailed => ?_⟩
  · obtain ⟨⟨fd, hroute, hk⟩, hpeer⟩ | ⟨-, hpeer⟩ := gw.out_peer m answers k
    · rw [hpeer]
      exact (hinv.sends ht hstays hroute hk).1
    · rw [hpeer, ((gw.wire.peer k).popped_got m).1]
      exact (hinv.inOrder k).trans ((gw.wire.peer k).frames_popped m)
  · rw [hsame.onFd] at hk
    rw [hsame.sid, hconns] at hroute
    obtain ⟨⟨fd', hroute', hk'⟩, hpeer⟩ | ⟨hother, hpeer⟩ := gw.out_peer m answers k
    · rw [hpeer] at hfailed ⊢
      exact (hinv.sends ht hstays hroute' hk').2 hfailed
    · have hpopped : (gw.wire.peer k).popped m = gw.wire.peer k :=
        if_neg fun ⟨_, hsid⟩ => hother ⟨fd, hsid ▸ hroute, hk⟩
      rw [hpeer, hpopped] at hfailed ⊢
      exact hinv.even fd k hk hroute hfailed

theorem OutInv.step (hinv : OutInv gw.toHost) (ht : Tracks gw.toHost) {act : GatewayAct}
    (hk : gw.KernelOk act) (hstays : gw.StaysFailed act) :
    ∃ gw', gw.step push act = .ok gw' ∧ Tracks gw'.toHost ∧ OutInv gw'.toHost := by
  obtain ⟨gw', hstep, ht'⟩ := Gateway.step_tracks act ht hk
  have hboth : Tracks gw'.toHost ∧ OutInv gw'.toHost := by
    refine Gateway.step_keeps (I := fun h => Tracks h ∧ OutInv h) ?_ ?_ ?_ ?_ hk ⟨ht, hinv⟩ hstep
    · exact fun h fd hfd hI => ⟨hI.1.accept hfd, hI.2.accept fd⟩
    · exact fun h h' q q' fd chunk heq hI => ⟨hI.1.read heq, hI.2.read heq⟩
    · exact fun h fd hI => ⟨hI.1.close fd, hI.2.close fd⟩
    · rintro m answers rfl
      cases hstep
      exact ⟨ht', hinv.out ht hstays⟩
  exact ⟨gw', hstep, hboth⟩

end Inv

/-- On a kernel where a connection whose send has failed takes no more bytes, however sends are
    cut short or fail: at every point the bytes a connection has got are a first part of the
    frames popped for its session. -/
theorem stream_intact (push : σ → InboundMsg → σ × Bool) (q : σ) (acts : List GatewayAct)
    (hk : Along (Gateway.step push) Gateway.KernelOk (Gateway.init q) acts)
    (hstays : Along (Gateway.step push) Gateway.StaysFailed (Gateway.init q) acts) :
    ∃ gw, run (Gateway.step push) (Gateway.init q) acts = .ok gw ∧
      ∀ k, (gw.wire.peer k).got.flatten <+: (gw.wire.peer k).frames := by
  obtain ⟨gw, hrun, -, hinv⟩ := run_inv (I := fun _ gw => Tracks gw.toHost ∧ OutInv gw.toHost)
    (fun _ gw act hI hP => hI.2.step hI.1 hP.1 hP.2) (n := 0) ⟨tracks_init, outInv_init⟩
    (along_and hk hstays)
  exact ⟨gw, hrun, hinv.inOrder⟩

/-! ## A frame cut short -/

/-- A client connects and is sent two Acks, the first in two pieces. -/
def twoAcks : List GatewayAct :=
  [.event (.listen [5]), .out firstAck [3, 21], .out firstAck [24]]

theorem stream_intact_two_acks :
    ∃ gw, run (Gateway.step takeAll) (Gateway.init ()) twoAcks = .ok gw ∧
      (gw.wire.peer 0).got.flatten <+: (gw.wire.peer 0).frames := by
  obtain ⟨gw, hrun, hintact⟩ := stream_intact takeAll () twoAcks
    (along_of_check (p := fun gw act => decide (gw.KernelOk act))
      (fun _ _ h => of_decide_eq_true h) (by decide +kernel))
    (along_of_check (p := fun gw act => decide (gw.StaysFailed act))
      (fun _ _ h => of_decide_eq_true h) (by decide +kernel))
  exact ⟨gw, hrun, hintact 0⟩

/-- The first Ack is cut short and the second one is sent. -/
def cutAck : List GatewayAct :=
  [.event (.listen [5]), .out firstAck [3, 0], .out firstAck [24]]

/-- What the client has got, and what it should get first. -/
def clientSees (acts : List GatewayAct) : Except Fault (List UInt8 × List UInt8) := do
  let gw ← run (Gateway.step takeAll) (Gateway.init ()) acts
  return ((gw.wire.peer 0).got.flatten, (gw.wire.peer 0).frames)

/-- A frame that was cut short is followed by the next one. -/
theorem cut_frame_followed :
    ¬ ∀ (push : Unit → InboundMsg → Unit × Bool) (acts : List GatewayAct),
      Along (Gateway.step push) Gateway.KernelOk (Gateway.init ()) acts →
      ∃ gw, run (Gateway.step push) (Gateway.init ()) acts = .ok gw ∧
        ∀ k, (gw.wire.peer k).got.flatten <+: (gw.wire.peer k).frames := by
  intro hall
  obtain ⟨gw, hrun, hintact⟩ := hall takeAll cutAck
    (along_of_check (p := fun gw act => decide (gw.KernelOk act))
      (fun _ _ h => of_decide_eq_true h) (by decide +kernel))
  have hcode : (clientSees cutAck).map (fun x => decide (x.1 <+: x.2)) = .ok false := by
    decide +kernel
  rw [clientSees, hrun, ok_bind] at hcode
  exact of_decide_eq_false (Except.ok.inj hcode) (hintact 0)

end LiteExchange.Net

/-
  The bytes received. `append` cuts off what does not fit into the buffer, and the reactors hand
  it up to as many bytes as the buffer has in all, whatever `consume` has left there. So a chunk
  can lose its end, and the stream goes on behind the hole (`chunk_cut_short`). `no_byte_lost`: if
  each chunk fits behind what is buffered when it arrives, the bytes used followed by the bytes
  buffered are always the bytes received, on both reactors.
-/
import LiteExchange.Net.Gateway
import LiteExchange.Net.UringSends

namespace LiteExchange.Net

open Lib Proto

variable {σ : Type}

/-- What an open session has used and buffered is what was received for it. -/
def Lossless (h : Host) : Prop :=
  ∀ fd k s, h.wire.onFd fd = some k → h.conns.sessions fd = some s → s.closed = false →
    (h.wire.peer k).consumed ++ s.recv = (h.wire.peer k).received

/-- A chunk fits behind what the session of a descriptor has buffered. -/
def Host.Fits (h : Host) (fd : Nat) (chunk : Chunk) : Prop :=
  ∀ s ∈ h.conns.sessions fd, s.closed = false → s.recv.length + chunk.bytes.length ≤ recvBufSize

/-- The chunks of a report fit, each when it is read. -/
def Gateway.ChunksFit (push : σ → InboundMsg → σ × Bool) (gw : Gateway σ) : GatewayAct → Prop
  | .event (.ready fd chunks _) =>
    Along (Gateway.readChunk push fd) (fun gw chunk => gw.toHost.Fits fd chunk) gw chunks
  | _ => True

/-- The chunk of a completion fits. -/
def UringGateway.ChunkFits (u : UringGateway σ) : UringAct → Prop
  | .cqe (.recv fd (some chunk)) => u.toHost.Fits fd chunk
  | _ => True

section Lossless

variable {push : σ → InboundMsg → σ × Bool} {h : Host} {fd : Nat}

/-- `append` stores a chunk completely just if there is room for it. -/
theorem Session.append_eq_iff (s : Session) (data : List UInt8) :
    (s.append data).recv = s.recv ++ data ↔ s.recv.length + data.length ≤ recvBufSize := by
  have hfits := s.fits
  unfold Session.append
  dsimp only
  rw [List.append_cancel_left_eq, List.take_eq_self_iff]
  unfold Session.space
  omega

theorem lossless_init : Lossless Host.init := nofun

theorem Lossless.accept (hl : Lossless h) (ht : Tracks h) (hfd : h.wire.onFd fd = none) :
    Lossless (h.accept fd) := by
  intro fd' k s hk hs hopen
  have hsessions := Conns.accept_sessions ((ht.open_iff fd).mp hfd)
  have hs' : Function.update h.conns.sessions fd (some (Session.init h.conns.nextSessionId)) fd' =
      some s := hsessions ▸ hs
  rcases Wire.accept_onFd.mp hk with ⟨rfl, rfl⟩ | ⟨hne, hk⟩
  · rw [Function.update_self] at hs'
    cases hs'
    rw [Host.accept_peer_new]
    rfl
  · rw [Function.update_of_ne hne] at hs'
    rw [Host.accept_peer_old _ _ (Nat.ne_of_lt (ht.lt fd' k hk))]
    exact hl fd' k s hk hs' hopen

theorem Lossless.close (hl : Lossless h) (ht : Tracks h) (fd : Nat) : Lossless (h.close fd) := by
  intro fd' k s hk hs hopen
  obtain ⟨hne, hk⟩ := Wire.close_onFd.mp hk
  have hs' : h.conns.sessions fd' = some s := (Function.update_of_ne hne ..).symm.trans hs
  have hpeer : (h.close fd).wire.peer k = h.wire.peer k :=
    Wire.close_peer_other fun hfd => hne (ht.inj fd' fd k hk hfd)
  rw [hpeer]
  exact hl fd' k s hk hs' hopen

theorem Lossless.read (hl : Lossless h) (ht : Tracks h) {chunk : Chunk} (hfits : h.Fits fd chunk)
    {q q' : σ} {h' : Host} (heq : h.read push fd chunk.bytes q = .ok (h', q')) : Lossless h' := by
  obtain ⟨-, rfl⟩ | ⟨s, s', used, msgs, hs, -, hsplit, hclosed, rfl⟩ := Host.of_read heq
  · exact hl
  intro fd' k s₁ hk hs₁ hopen
  have hk' : h.wire.onFd fd' = some k := (h.wire.same_read fd chunk.bytes used msgs).onFd ▸ hk
  dsimp only [Conns.put] at hs₁ ⊢
  rcases eq_or_ne fd' fd with rfl | hne
  · rw [Function.update_self] at hs₁
    cases hs₁
    have hopen₀ : s.closed = false := by
      cases hc : s.closed with
      | false => rfl
      | true => rw [hclosed hc] at hopen; cases hopen
    have hstored := (s.append_eq_iff chunk.bytes).mpr (hfits s hs hopen₀)
    rw [Wire.read_peer_self hk']
    dsimp only
    rw [List.append_assoc, ← hsplit, hstored, ← List.append_assoc, hl fd' k s hk' hs hopen₀]
  · rw [Function.update_of_ne hne] at hs₁
    rw [Wire.read_peer_other fun hfd => hne (ht.inj fd' fd k hk' hfd)]
    exact hl fd' k s₁ hk' hs₁ hopen

/-- Nothing changes in what is received from a connection. -/
structure Peer.SameIn (p p' : Peer) : Prop where
  received : p'.received = p.received
  consumed : p'.consumed = p.consumed

theorem Lossless.same (hl : Lossless h) {w : Wire} (hsame : h.wire.Same w)
    (hpeer : ∀ k, (h.wire.peer k).SameIn (w.peer k)) : Lossless ⟨h.conns, w⟩ := by
  intro fd k s hk hs hopen
  dsimp only
  rw [(hpeer k).received, (hpeer k).consumed]
  exact hl fd k s (hsame.onFd ▸ hk) hs hopen

theorem Peer.popped_sameIn (p : Peer) (m : OutboundMsg) : p.SameIn (p.popped m) := by
  unfold Peer.popped
  split <;> exact ⟨rfl, rfl⟩

theorem Wire.send_sameIn (w : Wire) (fd : Nat) (bytes : List UInt8) (k : Nat) :
    (w.peer k).SameIn ((w.send fd bytes).peer k) := by
  unfold Wire.send
  by_cases hk : w.onFd fd = some k
  · rw [Wire.on_peer_self hk]
    exact ⟨rfl, rfl⟩
  · rw [Wire.on_peer_other hk]
    exact ⟨rfl, rfl⟩

theorem Peer.SameIn.trans {p p' p'' : Peer} (h : p.SameIn p') (h' : p'.SameIn p'') :
    p.SameIn p'' :=
  ⟨h'.received.trans h.received, h'.consumed.trans h.consumed⟩

/-- A chunk read into its session. -/
theorem Gateway.readChunk_lossless {gw : Gateway σ} {chunk : Chunk}
    (hI : Tracks gw.toHost ∧ Lossless gw.toHost) (hfits : gw.toHost.Fits fd chunk) :
    ∃ gw', gw.readChunk push fd chunk = .ok gw' ∧ Tracks gw'.toHost ∧ Lossless gw'.toHost := by
  obtain ⟨h', q', heq⟩ := gw.toHost.read_ok push fd chunk.bytes gw.shards
  refine ⟨⟨h', q'⟩, ?_, hI.1.read heq, hI.2.read hI.1 hfits heq⟩
  unfold Gateway.readChunk
  rw [heq]
  rfl

theorem Gateway.out_lossless {gw : Gateway σ} (hl : Lossless gw.toHost) (m : OutboundMsg)
    (answers : List Nat) : Lossless (gw.out m answers).toHost := by
  obtain ⟨hsame, hconns⟩ := gw.out_same m answers
  have hl' : Lossless ⟨gw.conns, (gw.out m answers).wire⟩ := by
    refine hl.same hsame fun k => ?_
    obtain ⟨-, hpeer⟩ | ⟨-, hpeer⟩ := gw.out_peer m answers k
    · rw [hpeer]
      exact ((gw.wire.peer k).popped_sameIn m).trans ⟨rfl, rfl⟩
    · rw [hpeer]
      exact (gw.wire.peer k).popped_sameIn m
  rw [← hconns] at hl'
  exact hl'

theorem Gateway.step_lossless {gw : Gateway σ} {act : GatewayAct}
    (hI : Tracks gw.toHost ∧ Lossless gw.toHost) (hk : gw.KernelOk act)
    (hfit : gw.ChunksFit push act) :
    ∃ gw', gw.step push act = .ok gw' ∧ Tracks gw'.toHost ∧ Lossless gw'.toHost := by
  cases act with
  | out m answers =>
    have hout : ∃ gw', gw.step push (.out m answers) = .ok gw' ∧ Tracks gw'.toHost :=
      Gateway.step_tracks _ hI.1 hk
    obtain ⟨gw', hstep, ht'⟩ := hout
    cases hstep
    exact ⟨_, rfl, ht', Gateway.out_lossless hI.2 m answers⟩
  | event e =>
    cases e with
    | listen fds =>
      exact ⟨_, rfl, accepts_keep (I := fun h => Tracks h ∧ Lossless h)
        (fun _ _ hfd hI => ⟨hI.1.accept hfd, hI.2.accept hI.1 hfd⟩) hk.1 hk.2 hI⟩
    | ready fd chunks eof =>
      cases hs : gw.conns.sessions fd with
      | none =>
        refine ⟨gw, ?_, hI⟩
        dsimp only [Gateway.step, Gateway.readSession]
        rw [hs]
      | some s =>
        obtain ⟨gw', hrun, ht', hl'⟩ := run_inv
          (I := fun _ (gw : Gateway σ) => Tracks gw.toHost ∧ Lossless gw.toHost)
          (fun _ _ _ hI hfits => Gateway.readChunk_lossless hI hfits) (n := 0) hI hfit
        obtain heq | heq := Gateway.readSession_eq hs hrun eof
        · exact ⟨gw', heq, ht', hl'⟩
        · exact ⟨_, heq, ht'.close fd, hl'.close ht' fd⟩

theorem Wire.give_sameIn (w : Wire) (j : Nat) (bytes : List UInt8) (k : Nat) :
    (w.peer k).SameIn ((w.give j bytes).peer k) := by
  unfold Wire.give
  dsimp only
  rcases eq_or_ne k j with rfl | hne
  · rw [Function.update_self]
    exact ⟨rfl, rfl⟩
  · rw [Function.update_of_ne hne]
    exact ⟨rfl, rfl⟩

theorem Executed.lossless {u u' : UringGateway σ} {i n : Nat} {e : Entry}
    (he : Executed u i n e u') (hl : Lossless u.toHost) : Lossless u'.toHost := by
  have hhost : u'.toHost = ⟨u.conns, u'.wire⟩ := by rw [← he.conns]
  rw [hhost]
  refine hl.same he.same fun k => ?_
  rw [he.wire]
  split
  · exact ⟨rfl, rfl⟩
  · exact Wire.give_sameIn ..

theorem UringGateway.step_lossless {u : UringGateway σ} {act : UringAct}
    (hu : UringInv u) (hl : Lossless u.toHost) (hk : u.KernelOk act) (hfit : u.ChunkFits act) :
    ∃ u', u.step push act = .ok u' ∧ UringInv u' ∧ Lossless u'.toHost := by
  obtain ⟨u', hstep, hu'⟩ := hu.step push hk
  refine ⟨u', hstep, hu', ?_⟩
  cases act with
  | submit =>
    cases hstep
    rw [u.submit_same.toHost]
    exact hl
  | kernel a =>
    cases hstep
    obtain ⟨hsame, -⟩ | ⟨i, n, e, -, he⟩ := u.kernel_cases a
    · rw [hsame.toHost]
      exact hl
    · exact he.lossless hl
  | out m n =>
    have hpop := hl.same (u.wire.same_pop m) fun k => (u.wire.peer k).popped_sameIn m
    obtain ⟨-, rfl⟩ | ⟨fd, -, ⟨-, rfl⟩ | hp⟩ := UringGateway.out_cases hstep
    · exact hpop
    · exact hpop.same ((u.wire.pop m).same_send fd _) ((u.wire.pop m).send_sameIn fd _)
    · rw [hp.toHost]
      exact hpop
  | cqe c =>
    by_cases hc : ∃ slot, c = .send slot
    · obtain ⟨slot, rfl⟩ := hc
      obtain ⟨u₁, heq, hhost, -⟩ := hu.slots.free hk
      cases heq.symm.trans hstep
      rw [hhost]
      exact hl
    · obtain ⟨u₁, heq, -, hkeeps⟩ := UringGateway.handleCqe_spec push
        (fun slot h => hc ⟨slot, h⟩) hk
      cases heq.symm.trans hstep
      refine (hkeeps (fun h _ => Tracks h ∧ Lossless h) ⟨hu.tracks, hl⟩
        (fun fd hfd => ⟨hu.tracks.accept hfd, hl.accept hu.tracks hfd⟩)
        (fun fd chunk h q hrecv hread => ?_) fun h _ fd hI => ⟨hI.1.close fd, hI.2.close hI.1 fd⟩).2
      subst hrecv
      exact ⟨hu.tracks.read hread, hl.read hu.tracks hfit hread⟩

end Lossless

/-- A chunk is stored completely just if it fits behind what is buffered. On both reactors,
    whatever the clients send, however it is cut into chunks and whatever the shards refuse: if
    each chunk fits when it arrives, then at every point the bytes an open session has used,
    followed by those it has buffered, are the bytes received. -/
theorem no_byte_lost (push : σ → InboundMsg → σ × Bool) (q : σ) :
    (∀ (s : Session) (data : List UInt8),
      (s.append data).recv = s.recv ++ data ↔ s.recv.length + data.length ≤ recvBufSize) ∧
    (∀ acts, Along (Gateway.step push) Gateway.KernelOk (Gateway.init q) acts →
      Along (Gateway.step push) (Gateway.ChunksFit push) (Gateway.init q) acts →
      ∃ gw, run (Gateway.step push) (Gateway.init q) acts = .ok gw ∧ Lossless gw.toHost) ∧
    (∀ (sqpoll : Bool) (acts : List UringAct),
      Along (UringGateway.step push) UringGateway.KernelOk (UringGateway.init q sqpoll) acts →
      Along (UringGateway.step push) UringGateway.ChunkFits (UringGateway.init q sqpoll) acts →
      ∃ u, run (UringGateway.step push) (UringGateway.init q sqpoll) acts = .ok u ∧
        Lossless u.toHost) := by
  refine ⟨Session.append_eq_iff, fun acts hk hfit => ?_, fun sqpoll acts hk hfit => ?_⟩
  · obtain ⟨gw, hrun, -, hl⟩ := run_inv
      (I := fun _ (gw : Gateway σ) => Tracks gw.toHost ∧ Lossless gw.toHost)
      (fun _ gw act hI hP => Gateway.step_lossless hI hP.1 hP.2) (n := 0)
      ⟨tracks_init, lossless_init⟩ (along_and hk hfit)
    exact ⟨gw, hrun, hl⟩
  · obtain ⟨u, hrun, -, hl⟩ := run_inv
      (I := fun _ (u : UringGateway σ) => UringInv u ∧ Lossless u.toHost)
      (fun _ u act hI hP => UringGateway.step_lossless hI.1 hI.2 hP.1 hP.2) (n := 0)
      ⟨uringInv_init q sqpoll, lossless_init⟩ (along_and hk hfit)
    exact ⟨u, hrun, hl⟩

/-! ## A chunk that does not fit -/

instance Host.decidableFits (h : Host) (fd : Nat) (chunk : Chunk) : Decidable (h.Fits fd chunk) :=
  inferInstanceAs (Decidable (∀ s ∈ h.conns.sessions fd, _))

/-- `ChunksFit` as a check. -/
def Gateway.chunksFit (push : σ → InboundMsg → σ × Bool) (gw : Gateway σ) : GatewayAct → Bool
  | .event (.ready fd chunks _) =>
    checkAlong (Gateway.readChunk push fd) (fun gw chunk => decide (gw.toHost.Fits fd chunk)) gw
      chunks
  | _ => true

theorem Gateway.chunksFit_of_check {push : σ → InboundMsg → σ × Bool} (gw : Gateway σ)
    (act : GatewayAct) (h : gw.chunksFit push act = true) : gw.ChunksFit push act := by
  cases act with
  | out m answers => trivial
  | event e =>
    cases e with
    | listen fds => trivial
    | ready fd chunks eof => exact along_of_check (fun _ _ h => of_decide_eq_true h) h

instance UringGateway.decidableChunkFits (u : UringGateway σ) : ∀ act, Decidable (u.ChunkFits act)
  | .cqe (.recv fd (some chunk)) => inferInstanceAs (Decidable (u.toHost.Fits fd chunk))
  | .cqe (.recv _ none) => isTrue trivial
  | .cqe (.accept _ _) => isTrue trivial
  | .cqe (.send _) => isTrue trivial
  | .out _ _ => isTrue trivial
  | .submit => isTrue trivial
  | .kernel _ => isTrue trivial

/-- A shard whose ring is full. -/
def refuseAll (q : Unit) (_ : InboundMsg) : Unit × Bool := (q, false)

/-- The first byte of a cancel. -/
def headChunk : Chunk := .single 16

/-- The other bytes of the cancel. -/
def tailChunk : Chunk :=
  ⟨[0, 3, 0, 0, 0, 0, 0, 0, 0, 0, 0, 0, 0, 0, 0], by decide, by decide⟩

def cancelInTwo : List GatewayAct :=
  [.event (.listen [5]), .event (.ready 5 [headChunk, tailChunk] false)]

def cancelInTwoTurns : List UringPoll :=
  [⟨[], [], [(.accept (some 5) true, []), (.recv 5 (some headChunk), []),
    (.recv 5 (some tailChunk), [])]⟩]

theorem no_byte_lost_cancel_in_two :
    (∃ gw, run (Gateway.step refuseAll) (Gateway.init ()) cancelInTwo = .ok gw ∧
      Lossless gw.toHost) ∧
    (∃ u, run (UringGateway.step refuseAll) (UringGateway.init () false)
        (cancelInTwoTurns.flatMap UringPoll.acts) = .ok u ∧ Lossless u.toHost) := by
  obtain ⟨-, hepoll, huring⟩ := no_byte_lost refuseAll ()
  refine ⟨hepoll cancelInTwo ?_ ?_, huring false (cancelInTwoTurns.flatMap UringPoll.acts) ?_ ?_⟩
  · exact along_of_check (p := fun gw act => decide (gw.KernelOk act))
      (fun _ _ h => of_decide_eq_true h) (by decide +kernel)
  · exact along_of_check (p := Gateway.chunksFit refuseAll) Gateway.chunksFit_of_check
      (by decide +kernel)
  · exact along_of_check (p := fun u act => decide (u.KernelOk act))
      (fun _ _ h => of_decide_eq_true h) (by decide +kernel)
  · exact along_of_check (p := fun u act => decide (u.ChunkFits act))
      (fun _ _ h => of_decide_eq_true h) (by decide +kernel)

/-- The rest of the cancel, with as many bytes behind it as one `recv` can deliver. -/
def longChunk : Chunk where
  bytes := tailChunk.bytes ++ List.replicate 4081 0
  pos := List.append_ne_nil_of_left_ne_nil tailChunk.pos _
  fits := by
    rw [List.length_append, List.length_replicate]
    decide

def longTail : List GatewayAct :=
  [.event (.listen [5]), .event (.ready 5 [headChunk, longChunk] false)]

/-- The connection on the client's descriptor; and whether its session is closed, how many bytes
    were received from it, and how many were used or are buffered. -/
def receivedBytes (acts : List GatewayAct) :
    Except Fault (Option Nat × Option (Bool × Nat × Nat)) := do
  let gw ← run (Gateway.step refuseAll) (Gateway.init ()) acts
  return (gw.wire.onFd 5, (gw.conns.sessions 5).map fun s =>
    (s.closed, (gw.wire.peer 0).received.length, ((gw.wire.peer 0).consumed ++ s.recv).length))

/-- The end of the chunk is lost. -/
theorem chunk_cut_short :
    ¬ ∀ (push : Unit → InboundMsg → Unit × Bool) (acts : List GatewayAct),
      Along (Gateway.step push) Gateway.KernelOk (Gateway.init ()) acts →
      ∃ gw, run (Gateway.step push) (Gateway.init ()) acts = .ok gw ∧ Lossless gw.toHost := by
  intro hall
  obtain ⟨gw, hrun, hl⟩ := hall refuseAll longTail
    (along_of_check (p := fun gw act => decide (gw.KernelOk act))
      (fun _ _ h => of_decide_eq_true h) (by decide +kernel))
  have hcode : receivedBytes longTail = .ok (some 0, some (false, 4097, 4096)) := by
    decide +kernel
  unfold receivedBytes at hcode
  rw [hrun, ok_bind] at hcode
  obtain ⟨hk, hsession⟩ := Prod.mk.inj (Except.ok.inj hcode)
  obtain ⟨s, hs, hbytes⟩ := Option.map_eq_some_iff.mp hsession
  obtain ⟨hopen, hreceived, hkept⟩ := Prod.mk.inj hbytes |>.imp_right Prod.mk.inj
  rw [hl 5 0 s hk hs hopen, hreceived] at hkept
  cases hkept

end LiteExchange.Net

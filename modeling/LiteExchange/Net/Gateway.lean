/-
  The epoll reactor (`net/gateway.hpp`). The kernel's answers are inputs: what `epoll_wait`
  reports, the descriptors `accept` returns, the chunks `recv` delivers, how many bytes each
  `send` takes; and so are the messages the outbound rings deliver. `pollOnce` is one turn of the
  loop. The shards are any type with a `push`.

  * `Gateway.step_tracks`: on a kernel whose `accept` returns descriptors that are not open, the
    tables track the connections.
  * `Gateway.out_peer`: what a message popped from an outbound ring does to each connection.
-/
import LiteExchange.Net.Connections

namespace LiteExchange.Net

open Lib Proto

variable {σ : Type}

/-! ## The code -/

/-- The tables and the shards. -/
structure Gateway (σ : Type) extends Host where
  shards : σ

def Gateway.init (q : σ) : Gateway σ := ⟨Host.init, q⟩

/-- What `epoll_wait` reports: the listening socket, with the descriptors `accept` returns until
    it fails; or a connection, with the chunks `recv` delivers and whether it then returns 0 or an
    error. -/
inductive Event where
  | listen (fds : List Nat)
  | ready (fd : Nat) (chunks : List Chunk) (eof : Bool)

/-- `accept_all()`. -/
def Gateway.acceptAll (gw : Gateway σ) (fds : List Nat) : Gateway σ :=
  { gw with toHost := fds.foldl Host.accept gw.toHost }

/-- `close_session(fd)`. -/
def Gateway.closeSession (gw : Gateway σ) (fd : Nat) : Gateway σ :=
  { gw with toHost := gw.toHost.close fd }

/-- The branch `r > 0` of `read_session`. -/
def Gateway.readChunk (push : σ → InboundMsg → σ × Bool) (fd : Nat) (gw : Gateway σ)
    (chunk : Chunk) : Except Fault (Gateway σ) := do
  let (h, q) ← gw.toHost.read push fd chunk.bytes gw.shards
  return ⟨h, q⟩

/-- `read_session(fd)`. -/
def Gateway.readSession (push : σ → InboundMsg → σ × Bool) (gw : Gateway σ) (fd : Nat)
    (chunks : List Chunk) (eof : Bool) : Except Fault (Gateway σ) :=
  match gw.conns.sessions fd with
  | none => .ok gw
  | some _ => do
    let gw ← run (Gateway.readChunk push fd) gw chunks
    if eof then
      return gw.closeSession fd
    if (gw.conns.sessions fd).any Session.closed then
      return gw.closeSession fd
    return gw

/-- `send_all(fd, data, len)`: what each `send` takes. The answers are the numbers of bytes taken,
    0 for an error. -/
def sendAll : List UInt8 → List Nat → List (List UInt8)
  | [], _ => []
  | _ :: _, [] => [[]]
  | b :: data, w :: ws =>
    if w = 0 then [[]] else (b :: data).take w :: sendAll ((b :: data).drop w) ws

/-- The body of `drain_outbound` for a message that was popped. -/
def Gateway.out (gw : Gateway σ) (m : OutboundMsg) (answers : List Nat) : Gateway σ :=
  match gw.conns.sidToFd m.hdr.sessionId with
  | none => { gw with wire := gw.wire.pop m }
  | some fd =>
    { gw with wire := (sendAll m.frame answers).foldl (fun w b => w.send fd b) (gw.wire.pop m) }

/-- One report of `epoll_wait`, or one message popped from an outbound ring with the answers of
    `send`. -/
inductive GatewayAct where
  | event (e : Event)
  | out (m : OutboundMsg) (answers : List Nat)

def Gateway.step (push : σ → InboundMsg → σ × Bool) (gw : Gateway σ) :
    GatewayAct → Except Fault (Gateway σ)
  | .event (.listen fds) => .ok (gw.acceptAll fds)
  | .event (.ready fd chunks eof) => gw.readSession push fd chunks eof
  | .out m answers => .ok (gw.out m answers)

/-- What happens in one turn: the reports, and what each shard's ring delivers. -/
structure Poll where
  events : List Event
  outs : List (List (OutboundMsg × List Nat))

def Poll.acts (p : Poll) : List GatewayAct :=
  p.events.map .event ++ p.outs.flatten.map fun x => .out x.1 x.2

/-- `poll_once(timeout_ms)`. -/
def Gateway.pollOnce (push : σ → InboundMsg → σ × Bool) (gw : Gateway σ) (p : Poll) :
    Except Fault (Gateway σ) :=
  run (Gateway.step push) gw p.acts

/-- `accept` returns descriptors that are not open. -/
def Gateway.KernelOk (gw : Gateway σ) : GatewayAct → Prop
  | .event (.listen fds) => fds.Nodup ∧ ∀ fd ∈ fds, gw.wire.onFd fd = none
  | _ => True

instance Gateway.decidableKernelOk (gw : Gateway σ) : ∀ act, Decidable (gw.KernelOk act)
  | .event (.listen fds) =>
    inferInstanceAs (Decidable (fds.Nodup ∧ ∀ fd ∈ fds, gw.wire.onFd fd = none))
  | .event (.ready _ _ _) => isTrue trivial
  | .out _ _ => isTrue trivial

/-! ## Connections -/

section Connections

variable {push : σ → InboundMsg → σ × Bool} {gw : Gateway σ} {h : Host}

/-- What an accept keeps, `accept_all` keeps. -/
theorem accepts_keep {I : Host → Prop}
    (haccept : ∀ h fd, h.wire.onFd fd = none → I h → I (h.accept fd)) {fds : List Nat}
    (hnd : fds.Nodup) (hfree : ∀ fd ∈ fds, h.wire.onFd fd = none) (hI : I h) :
    I (fds.foldl Host.accept h) := by
  induction fds generalizing h with
  | nil => exact hI
  | cons fd fds ih =>
    obtain ⟨hfd, hnd⟩ := List.nodup_cons.mp hnd
    refine ih hnd (fun fd' hfd' => ?_) (haccept h fd (hfree fd List.mem_cons_self) hI)
    have hne : fd' ≠ fd := fun e => hfd (e ▸ hfd')
    exact (Function.update_of_ne hne ..).trans (hfree fd' (List.mem_cons_of_mem _ hfd'))

theorem Gateway.readChunk_tracks (fd : Nat) (chunk : Chunk) (ht : Tracks gw.toHost) :
    ∃ gw', gw.readChunk push fd chunk = .ok gw' ∧ Tracks gw'.toHost := by
  obtain ⟨h', q', heq⟩ := gw.toHost.read_ok push fd chunk.bytes gw.shards
  refine ⟨⟨h', q'⟩, ?_, ht.read heq⟩
  unfold Gateway.readChunk
  rw [heq]
  rfl

/-- `read_session` is the reads, then perhaps a close. -/
theorem Gateway.readSession_eq {fd : Nat} {s : Session} (hs : gw.conns.sessions fd = some s)
    {chunks : List Chunk} {gw' : Gateway σ}
    (hrun : run (Gateway.readChunk push fd) gw chunks = .ok gw') (eof : Bool) :
    gw.readSession push fd chunks eof = .ok gw' ∨
      gw.readSession push fd chunks eof = .ok (gw'.closeSession fd) := by
  unfold Gateway.readSession
  rw [hs]
  dsimp only
  rw [hrun, ok_bind]
  split
  · exact .inr rfl
  · split
    · exact .inr rfl
    · exact .inl rfl

theorem Gateway.readSession_tracks (fd : Nat) (chunks : List Chunk) (eof : Bool)
    (ht : Tracks gw.toHost) :
    ∃ gw', gw.readSession push fd chunks eof = .ok gw' ∧ Tracks gw'.toHost := by
  cases hs : gw.conns.sessions fd with
  | none =>
    refine ⟨gw, ?_, ht⟩
    unfold Gateway.readSession
    rw [hs]
  | some s =>
    obtain ⟨gw', hrun, ht'⟩ := run_keeps
      (fun gw chunk (ht : Tracks gw.toHost) => Gateway.readChunk_tracks fd chunk ht) ht chunks
    obtain heq | heq := Gateway.readSession_eq hs hrun eof
    · exact ⟨gw', heq, ht'⟩
    · exact ⟨_, heq, ht'.close fd⟩

/-- What reads and closes keep of the tables and the shards, `read_session` keeps. -/
theorem Gateway.readSession_inv {I : Gateway σ → Prop} {fd : Nat} {chunks : List Chunk} {eof : Bool}
    (hread : ∀ gw h' q' chunk, gw.toHost.read push fd chunk gw.shards = .ok (h', q') → I gw →
      I ⟨h', q'⟩)
    (hclose : ∀ gw, I gw → I (gw.closeSession fd)) (hI : I gw) {gw' : Gateway σ}
    (hstep : gw.readSession push fd chunks eof = .ok gw') : I gw' := by
  unfold Gateway.readSession at hstep
  split at hstep
  · cases hstep
    exact hI
  · obtain ⟨gw₁, hrun, hstep⟩ := bind_eq_ok hstep
    have hI₁ : I gw₁ := by
      refine run_preserves (I := I) (fun gw chunk gw' hI hchunk => ?_) hI hrun
      obtain ⟨⟨h', q'⟩, heq, hret⟩ := bind_eq_ok hchunk
      cases hret
      exact hread _ _ _ _ heq hI
    split at hstep
    · cases hstep
      exact hclose _ hI₁
    · split at hstep <;> cases hstep
      · exact hclose _ hI₁
      · exact hI₁

/-- What reads and closes keep, `read_session` keeps. -/
theorem Gateway.readSession_keeps {I : Host → Prop} {fd : Nat} {chunks : List Chunk} {eof : Bool}
    (hread : ∀ h h' q q' chunk, h.read push fd chunk q = .ok (h', q') → I h → I h')
    (hclose : ∀ h, I h → I (h.close fd)) (hI : I gw.toHost) {gw' : Gateway σ}
    (hstep : gw.readSession push fd chunks eof = .ok gw') : I gw'.toHost :=
  Gateway.readSession_inv (I := fun gw => I gw.toHost)
    (fun gw h' q' chunk heq hI => hread gw.toHost h' gw.shards q' chunk heq hI)
    (fun gw hI => hclose gw.toHost hI) hI hstep

/-- What accepts, reads and closes keep of the tables and the shards, a report of `epoll_wait`
    keeps. -/
theorem Gateway.event_inv {I : Gateway σ → Prop} {e : Event}
    (haccept : ∀ gw fd, gw.wire.onFd fd = none → I gw → I ⟨gw.toHost.accept fd, gw.shards⟩)
    (hread : ∀ gw h' q' fd chunk, gw.toHost.read push fd chunk gw.shards = .ok (h', q') → I gw →
      I ⟨h', q'⟩)
    (hclose : ∀ gw fd, I gw → I (gw.closeSession fd)) (hk : gw.KernelOk (.event e)) (hI : I gw)
    {gw' : Gateway σ} (hstep : gw.step push (.event e) = .ok gw') : I gw' := by
  cases e with
  | listen fds =>
    cases hstep
    exact accepts_keep (I := fun h => I ⟨h, gw.shards⟩)
      (fun h fd hfd hI => haccept ⟨h, gw.shards⟩ fd hfd hI) hk.1 hk.2 hI
  | ready fd chunks eof =>
    exact Gateway.readSession_inv (fun gw h' q' chunk => hread gw h' q' fd chunk)
      (fun gw => hclose gw fd) hI hstep

/-- What accepts, reads, closes and sends keep, a step keeps. -/
theorem Gateway.step_keeps {I : Host → Prop} {act : GatewayAct}
    (haccept : ∀ h fd, h.wire.onFd fd = none → I h → I (h.accept fd))
    (hread : ∀ h h' q q' fd chunk, h.read push fd chunk q = .ok (h', q') → I h → I h')
    (hclose : ∀ h fd, I h → I (h.close fd))
    (hout : ∀ m answers, act = .out m answers → I (gw.out m answers).toHost)
    (hk : gw.KernelOk act) (hI : I gw.toHost) {gw' : Gateway σ}
    (hstep : gw.step push act = .ok gw') : I gw'.toHost := by
  cases act with
  | out m answers =>
    cases hstep
    exact hout m answers rfl
  | event e =>
    cases e with
    | listen fds =>
      cases hstep
      exact accepts_keep haccept hk.1 hk.2 hI
    | ready fd chunks eof =>
      exact Gateway.readSession_keeps (fun h h' q q' chunk => hread h h' q q' fd chunk)
        (fun h => hclose h fd) hI hstep

theorem Wire.same_sends (w : Wire) (fd : Nat) (slices : List (List UInt8)) :
    w.Same (slices.foldl (fun w b => w.send fd b) w) := by
  induction slices generalizing w with
  | nil => exact .refl w
  | cons b slices ih => exact (w.same_send fd b).trans (ih (w.send fd b))

theorem Gateway.out_same (gw : Gateway σ) (m : OutboundMsg) (answers : List Nat) :
    gw.wire.Same (gw.out m answers).wire ∧ (gw.out m answers).conns = gw.conns := by
  unfold Gateway.out
  split
  · exact ⟨gw.wire.same_pop m, rfl⟩
  · exact ⟨(gw.wire.same_pop m).trans (Wire.same_sends _ _ _), rfl⟩

theorem Gateway.step_tracks (act : GatewayAct) (ht : Tracks gw.toHost)
    (hk : gw.KernelOk act) : ∃ gw', gw.step push act = .ok gw' ∧ Tracks gw'.toHost := by
  cases act with
  | event e =>
    cases e with
    | listen fds => exact ⟨_, rfl, accepts_keep (fun _ _ hfd ht => ht.accept hfd) hk.1 hk.2 ht⟩
    | ready fd chunks eof => exact Gateway.readSession_tracks fd chunks eof ht
  | out m answers =>
    obtain ⟨hsame, hconns⟩ := gw.out_same m answers
    refine ⟨_, rfl, ?_⟩
    have ht' := ht.same hsame
    rw [← hconns] at ht'
    exact ht'

end Connections

/-! ## What a message does -/

section Out

variable {w : Wire} {fd k : Nat}

/-- What several sends have taken. -/
def Peer.sends (p : Peer) (slices : List (List UInt8)) : Peer :=
  { p with got := p.got ++ slices, failed := p.failed || slices.any List.isEmpty }

theorem Wire.sends_peer_self (hfd : w.onFd fd = some k) (slices : List (List UInt8)) :
    (slices.foldl (fun w b => w.send fd b) w).peer k = (w.peer k).sends slices := by
  induction slices generalizing w with
  | nil => simp [Peer.sends]
  | cons b slices ih =>
    have hfd' : (w.send fd b).onFd fd = some k := (w.same_send fd b).onFd ▸ hfd
    have hpeer : (w.send fd b).peer k = (w.peer k).sends [b] := by
      unfold Wire.send
      rw [Wire.on_peer_self hfd]
      simp [Peer.sends]
    rw [List.foldl_cons, ih hfd', hpeer]
    simp [Peer.sends, Bool.or_assoc]

theorem Wire.sends_peer_other (hfd : w.onFd fd ≠ some k) (slices : List (List UInt8)) :
    (slices.foldl (fun w b => w.send fd b) w).peer k = w.peer k := by
  induction slices generalizing w with
  | nil => rfl
  | cons b slices ih =>
    have hfd' : (w.send fd b).onFd fd ≠ some k := (w.same_send fd b).onFd ▸ hfd
    rw [List.foldl_cons, ih hfd']
    exact Wire.on_peer_other hfd _

/-- The connection whose descriptor the table gives for the session gets the message, no other
    one does. -/
theorem Gateway.out_peer (gw : Gateway σ) (m : OutboundMsg) (answers : List Nat) (k : Nat) :
    (gw.toHost.Leads m k ∧ (gw.out m answers).wire.peer k =
        ((gw.wire.peer k).popped m).sends (sendAll m.frame answers)) ∨
      (¬ gw.toHost.Leads m k ∧ (gw.out m answers).wire.peer k = (gw.wire.peer k).popped m) := by
  unfold Gateway.out
  cases hroute : gw.conns.sidToFd m.hdr.sessionId with
  | none =>
    refine .inr ⟨fun ⟨fd, hroute', _⟩ => ?_, rfl⟩
    rw [hroute] at hroute'
    cases hroute'
  | some fd =>
    dsimp only
    have hleads := Host.leads_iff_onFd hroute k
    by_cases hfd : gw.wire.onFd fd = some k
    · have hfd' : (gw.wire.pop m).onFd fd = some k := hfd
      rw [Wire.sends_peer_self hfd', Wire.pop_peer]
      exact .inl ⟨hleads.mpr hfd, rfl⟩
    · have hfd' : (gw.wire.pop m).onFd fd ≠ some k := hfd
      rw [Wire.sends_peer_other hfd', Wire.pop_peer]
      exact .inr ⟨mt hleads.mp hfd, rfl⟩

end Out

/-! ## What `send_all` sends -/

section SendAll

variable (data : List UInt8) (answers : List Nat)

/-- The bytes taken are the first ones. -/
theorem sendAll_isPrefix : (sendAll data answers).flatten <+: data := by
  fun_induction sendAll data answers with
  | case1 => exact List.nil_prefix
  | case2 => exact List.nil_prefix
  | case3 => exact List.nil_prefix
  | case4 b data w ws hw ih =>
    rw [List.flatten_cons]
    calc (b :: data).take w ++ (sendAll ((b :: data).drop w) ws).flatten
        <+: (b :: data).take w ++ (b :: data).drop w := (List.prefix_append_right_inj _).mpr ih
      _ = b :: data := List.take_append_drop w _

variable {data answers}

/-- Unless a send fails, all bytes are taken. -/
theorem sendAll_flatten (h : (sendAll data answers).any List.isEmpty = false) :
    (sendAll data answers).flatten = data := by
  fun_induction sendAll data answers with
  | case1 => rfl
  | case2 => cases h
  | case3 => cases h
  | case4 b data w ws hw ih =>
    rw [List.any_cons, Bool.or_eq_false_iff] at h
    rw [List.flatten_cons, ih h.2, List.take_append_drop]

/-- If the first send fails, none is. -/
theorem sendAll_flatten_nil (h : answers.headD 0 = 0) : (sendAll data answers).flatten = [] := by
  fun_cases sendAll data answers with
  | case1 => rfl
  | case2 => rfl
  | case3 => rfl
  | case4 b data w ws hw => exact absurd h hw

end SendAll

end LiteExchange.Net
